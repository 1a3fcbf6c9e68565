import GroupChat.Client.Signals
import GroupChat.Connection
import GroupChat.Server.Letters

/-!
# The chat

The server and its clients together. A client is the process of `GroupChat.client`, with
the thread that receives (`connection_handler` of `client.c`); it reads what the server
has written to its descriptor. The server is that of `GroupChat.server`, with a handler
thread for each connection (`connection_handler` of `server.c`, lines 179 to 246), which
reads what the client has written. Nothing else passes between the programs: ids, groups
and messages are what the bytes on the connections say.

A move is a statement that touches what others see (`GroupChat.ChatMove`):

| move | source |
|---|---|
| `main`, `readResponse` | `main` of `client.c`, lines 74 to 123, line 91 by its own |
| `sigusr1` | `handle_my` of `client.c`, lines 153 to 158 |
| `receive` | `connection_handler` of `client.c`, lines 170 to 186, for one message |
| `exit` | the end of the process of the client |
| `accept` | one turn of the loop of `main` of `server.c`, lines 122 to 125 |
| `readRequest` | `connection_handler` of `server.c`, line 184 |
| `join`, `respond` | the same, lines 193 to 213, and 216 to 219 |
| `read`, `insert` | the same, line 229, and lines 230 to 237 |
| `depart` | the same, line 243 |
| `pop`, `turn` | `messageDeliver`, as in `GroupChat.ServerMove` |

A call of `read` comes to some of the bytes that wait, to an error, or to `0` when the
client has ended and all its bytes have been read; the server never closes a connection
as long as it runs. The chat goes on after a write to a client that has ended, where
`SIGPIPE` may end the server, which is part of `GroupChat.network`. Its runs so include
those of the server, which is what statements about all runs need; a statement that
something can still happen assumes that nobody has ended.
-/

namespace GroupChat

open Framing

/-- Where a handler of the server is, with the member that it is for. -/
inductive Handler where
  /-- There is none yet. -/
  | absent
  /-- Before line 184. -/
  | readRequest
  /-- At the lock, before line 193. -/
  | join
  /-- Before line 216. -/
  | respond (k : ℕ)
  /-- Before the condition of the loop, line 229. -/
  | read (k : ℕ)
  /-- In the body of the loop. -/
  | insert (k : ℕ)
  /-- Behind the loop. -/
  | depart (k : ℕ)
  | ended (k : ℕ)
deriving DecidableEq

/-- The member that a handler is for, once it has joined. -/
def Handler.member? : Handler → Option ℕ
  | absent | readRequest | join => none
  | respond k | read k | insert k | depart k | ended k => some k

/-- A client, and the handler of its connection. -/
structure Session where
  client : Client
  /-- The process has ended. -/
  exited : Bool
  /-- The local `message` of the receiver. -/
  inbound : List UInt8
  /-- The number of bytes that the client has read. -/
  received : ℕ
  /-- The messages that the receiver has handled, with what `getTime()` returned. -/
  handled : List (Message × Timeval)
  /-- What `accept` has returned for the connection. -/
  nsfd : Option ℤ
  handler : Handler
  /-- The local `request` of the handler. -/
  request : List UInt8
  /-- The local `message` of the handler. -/
  message : List UInt8
  /-- The number of bytes that the handler has read. -/
  taken : ℕ

/-- The server with its clients. -/
structure Chat (ι : Type*) (nc : ℕ) where
  server : Server nc
  session : ι → Session

/-- A move of one of the threads. A handler's move comes with its descriptor or with its
member. -/
inductive ChatMove (ι : Type*) (nc : ℕ) where
  /-- A statement of `main` other than line 91, with what `getTime()` returns. -/
  | main (p : ι) (now : Timeval)
  | readResponse (p : ι) (result : ReadResult)
  | sigusr1 (p : ι) (now : Timeval)
  | receive (p : ι) (result : ReadResult) (now : Timeval)
  | exit (p : ι)
  | accept (p : ι) (fd : ℤ)
  | readRequest (p : ι) (result : ReadResult)
  | join (p : ι) (fd : ℤ)
  | respond (p : ι) (k : ℕ)
  | read (p : ι) (k : ℕ) (result : ReadResult)
  | insert (p : ι) (k : ℕ) (now : Timeval)
  | depart (p : ι) (k : ℕ)
  | pop (c : Fin nc)
  | turn (c : Fin nc)

namespace Session

variable {nc : ℕ}

/-- The process runs. -/
def Running (x : Session) : Prop := x.exited = false ∧ x.client.next ≠ .exited

instance (x : Session) : Decidable x.Running := inferInstanceAs (Decidable (_ ∧ _))

/-- Line 91 is behind, and the receiver has been started. -/
def Answered (x : Session) : Prop := 5 < x.client.next.rank

instance (x : Session) : Decidable x.Answered := inferInstanceAs (Decidable (_ < _))

/-- What the server has written to the client. -/
def stream (x : Session) (v : Server nc) : List UInt8 :=
  match x.nsfd with
  | none => []
  | some fd => v.stream fd

/-- What of it the client has not read. -/
def incoming (x : Session) (v : Server nc) : List UInt8 := (x.stream v).drop x.received

/-- What the client has written and the handler has not read. -/
def outgoing (x : Session) : List UInt8 := x.client.stream.drop x.taken

/-- The join request, as the handler has it. -/
def joinRequest (x : Session) : JoinRequest := joinRequestCodec.decode x.request

/-- The message that the handler inserts. -/
def inserted (x : Session) : Message := messageCodec.decode x.message

/-- Line 91: the response that `main` goes on with. -/
def response (x : Session) (result : ReadResult) : JoinResponse :=
  joinResponseCodec.decode (deposit (joinResponseCodec.encode x.client.response) result)

/-- Line 170 and the body of the loop: a message is handled. -/
def receive (x : Session) (result : ReadResult) (now : Timeval) : Session :=
  { x with
    inbound := deposit x.inbound result
    received := x.received + result.bytes.length
    handled := x.handled ++ [(messageCodec.decode (deposit x.inbound result), now)] }

/-- Line 184. -/
def readRequest (x : Session) (result : ReadResult) : Session :=
  { x with
    request := deposit x.request result
    taken := x.taken + result.bytes.length
    handler := .join }

/-- Line 229: the loop goes on, unless `read` has returned `0`. -/
def read (x : Session) (k : ℕ) (result : ReadResult) : Session :=
  { x with
    message := deposit x.message result
    taken := x.taken + result.bytes.length
    handler := if result.count = 0 then .depart k else .insert k }

end Session

/-- One of the sessions is replaced. -/
def Chat.put {ι : Type*} [DecidableEq ι] {nc : ℕ} (s : Chat ι nc) (p : ι) (x : Session) :
    Chat ι nc := { s with session := Function.update s.session p x }

open Session in
/-- The moves of the chat, with the command lines of the clients. -/
def chat {ι : Type*} [DecidableEq ι] (nc : ℕ) (args : ι → Arguments) :
    StepSystem (Chat ι nc) (ChatMove ι nc) where
  enabled s
    | .main p _ => (s.session p).Running ∧ (s.session p).client.next ≠ .readResponse
    | .readResponse p result => (s.session p).Running ∧
        (s.session p).client.next = .readResponse ∧
        result.Possible joinResponseCodec.size ((s.session p).incoming s.server) false
    | .sigusr1 p _ => (s.session p).Running
    | .receive p result _ => (s.session p).Running ∧ (s.session p).Answered ∧
        result.Possible messageCodec.size ((s.session p).incoming s.server) false
    | .exit p => (s.session p).Running
    | .accept p _ => (s.session p).nsfd = none ∧ (s.session p).client.sd = .connected
    | .readRequest p result => (s.session p).handler = .readRequest ∧
        result.Possible joinRequestCodec.size (s.session p).outgoing (s.session p).exited
    | .join p fd => (s.session p).handler = .join ∧ (s.session p).nsfd = some fd ∧
        (server nc).enabled s.server (.join fd (s.session p).joinRequest)
    | .respond p k => (s.session p).handler = .respond k ∧
        (server nc).enabled s.server (.respond k)
    | .read p k result => (s.session p).handler = .read k ∧
        result.Possible messageCodec.size (s.session p).outgoing (s.session p).exited
    | .insert p k now => (s.session p).handler = .insert k ∧
        (server nc).enabled s.server (.enqueue k (s.session p).inserted now)
    | .depart p k => (s.session p).handler = .depart k ∧
        (server nc).enabled s.server (.depart k)
    | .pop c => (server nc).enabled s.server (.pop c)
    | .turn c => (server nc).enabled s.server (.turn c)
  effect s
    | .main p now =>
      let x := s.session p
      (x.client.main (args p) now x.client.response).map fun c => s.put p { x with client := c }
    | .readResponse p result =>
      let x := s.session p
      (x.client.main (args p) ⟨0, 0⟩ (x.response result)).map fun c =>
        s.put p { x with client := c, received := x.received + result.bytes.length }
    | .sigusr1 p now =>
      let x := s.session p
      (x.client.handleMy now).map fun c => s.put p { x with client := c }
    | .receive p result now => some (s.put p ((s.session p).receive result now))
    | .exit p => some (s.put p { s.session p with exited := true })
    | .accept p fd => ((server nc).effect s.server (.accept fd)).map fun v =>
        { s with server := v }.put p { s.session p with nsfd := some fd, handler := .readRequest }
    | .readRequest p result => some (s.put p ((s.session p).readRequest result))
    | .join p fd =>
      ((server nc).effect s.server (.join fd (s.session p).joinRequest)).map fun v =>
        { s with server := v }.put p
          { s.session p with handler := .respond s.server.lobby.members.length }
    | .respond p k => ((server nc).effect s.server (.respond k)).map fun v =>
        { s with server := v }.put p { s.session p with handler := .read k }
    | .read p k result => some (s.put p ((s.session p).read k result))
    | .insert p k now =>
      ((server nc).effect s.server (.enqueue k (s.session p).inserted now)).map fun v =>
        { s with server := v }.put p { s.session p with handler := .read k }
    | .depart p k => ((server nc).effect s.server (.depart k)).map fun v =>
        { s with server := v }.put p { s.session p with handler := .ended k }
    | .pop c => ((server nc).effect s.server (.pop c)).map fun v => { s with server := v }
    | .turn c => ((server nc).effect s.server (.turn c)).map fun v => { s with server := v }
  decEnabled s m := by
    cases m <;> simp only <;> infer_instance

namespace Chat

variable {ι : Type*} {nc n : ℕ}

/-- The condition on a step: signals come when the name is set, calls of `read` are whole,
or come to the end of the stream behind the last message, an accepted descriptor is new, and
no delivery loop comes to a client before its response. -/
def Orderly (s : Chat ι nc) : ChatMove ι nc → Prop
  | .sigusr1 p _ => 8 < (s.session p).client.next.rank
  | .readResponse _ result => result.count = joinResponseCodec.size
  | .receive _ result _ => result.count = messageCodec.size
  | .accept _ fd => s.server.FreshAccept (.accept fd)
  | .readRequest _ result => result.count = joinRequestCodec.size
  | .read _ _ result => result.count = messageCodec.size ∨ result.count = 0
  | .turn c => s.server.Answered (.turn c)
  | _ => True

instance (s : Chat ι nc) : (m : ChatMove ι nc) → Decidable (s.Orderly m)
  | .sigusr1 p _ => inferInstanceAs (Decidable (8 < (s.session p).client.next.rank))
  | .readResponse _ result =>
      inferInstanceAs (Decidable (result.count = joinResponseCodec.size))
  | .receive _ result _ => inferInstanceAs (Decidable (result.count = messageCodec.size))
  | .readRequest _ result => inferInstanceAs (Decidable (result.count = joinRequestCodec.size))
  | .read _ _ result =>
      inferInstanceAs (Decidable (result.count = messageCodec.size ∨ result.count = 0))
  | .accept _ fd => inferInstanceAs (Decidable (s.server.FreshAccept (.accept fd)))
  | .turn c => inferInstanceAs (Decidable (s.server.Answered (.turn c)))
  | .main _ _ | .exit _ | .join _ _ | .respond _ _ | .insert _ _ _ | .depart _ _ | .pop _ =>
      isTrue trivial

/-- The condition on a step: a message is removed only when no other message of its group is
being delivered. -/
def Serial (s : Chat ι nc) : ChatMove ι nc → Prop
  | .pop c => s.server.Serial (.pop c)
  | _ => True

instance (s : Chat ι nc) : (m : ChatMove ι nc) → Decidable (s.Serial m)
  | .pop c => inferInstanceAs (Decidable (s.server.Serial (.pop c)))
  | .main _ _ | .readResponse _ _ | .sigusr1 _ _ | .receive _ _ _ | .exit _ | .accept _ _
  | .readRequest _ _ | .join _ _ | .respond _ _ | .read _ _ _ | .insert _ _ _ | .depart _ _
  | .turn _ => isTrue trivial

/-- Nobody has done anything yet: the server waits, and the clients are at line 74 with
these standard inputs. -/
structure Initial (n : ℕ) (input : ι → List UInt8) (s : Chat ι nc) : Prop where
  server : s.server.Initial n
  client : ∀ p, (s.session p).client.Initial (input p)
  exited : ∀ p, (s.session p).exited = false
  inbound : ∀ p, (s.session p).inbound.length = messageCodec.size
  received : ∀ p, (s.session p).received = 0
  handled : ∀ p, (s.session p).handled = []
  nsfd : ∀ p, (s.session p).nsfd = none
  handler : ∀ p, (s.session p).handler = .absent
  request : ∀ p, (s.session p).request.length = joinRequestCodec.size
  message : ∀ p, (s.session p).message.length = messageCodec.size
  taken : ∀ p, (s.session p).taken = 0

/-- The chat before anybody has done anything, with cleared local variables. -/
def start (nc : ℕ) (q : Queue) (input : ι → List UInt8) : Chat ι nc where
  server := Server.start nc q
  session p :=
    { client := Client.start (input p)
      exited := false
      inbound := List.replicate messageCodec.size 0
      received := 0
      handled := []
      nsfd := none
      handler := .absent
      request := List.replicate joinRequestCodec.size 0
      message := List.replicate messageCodec.size 0
      taken := 0 }

theorem initial_start {q : Queue} (h : ∃ block, initQueue n block = some q)
    (input : ι → List UInt8) : (start nc q input).Initial n input where
  server := Server.initial_start h
  client p := Client.initial_start (input p)
  exited _ := rfl
  inbound _ := List.length_replicate
  received _ := rfl
  handled _ := rfl
  nsfd _ := rfl
  handler _ := rfl
  request _ := List.length_replicate
  message _ := List.length_replicate
  taken _ := rfl

end Chat

end GroupChat
