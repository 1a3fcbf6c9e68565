import GroupChat.Library.BoundedLines
import GroupChat.Library.CString
import GroupChat.Library.StepSystem
import GroupChat.Messages

/-!
# The client

`main` of `client.c` from line 74 on, statement by statement, and its handler of
`SIGUSR1` (`handle_my`, lines 147 to 160), which is installed before. A move of the
scheduler is the next statement of `main` or a signal, whose handler runs to its end
before `main` goes on. Between the statements lie one global `message`, one socket, and
nothing that keeps the two apart.

| statement | line | statement | line |
|---|---|---|---|
| `socket` | 74 | `setName` | 109 |
| `connect` | 79 | `helloText` | 113 |
| `copyName` | 86 | `helloTime` | 114 |
| `copyGroup` | 87 | `sendHello` | 115 |
| `sendRequest` | 89 | `fgets` | 120 |
| `readResponse` | 91 | `setTime` | 121 |
| `setId` | 106 | `send` | 122 |
| `setGroupId` | 107 | | |

Left out are what does not touch the message, the socket or standard input: messages to
the terminal, the receiver thread, which has a message of its own, and the clock, whose
value comes with the move. A write on the connection takes all its bytes. Before
`connect` there is none: `sd` is `0` until `socket` has returned, and a write on the
unconnected socket ends the process.

The last two fields of `GroupChat.Client` are a record of the run that no statement
reads: what the calls of `fgets` have stored, and which messages were written to the
server by whom.
-/

namespace GroupChat

open CString

/-- `enum Mode`. -/
inductive Mode where
  | dev
  | test
  | prod
deriving DecidableEq

/-- The command line, as far as `main` sends it on. -/
structure Arguments where
  /-- The user handle, `argv[3]`. -/
  name : List UInt8
  /-- The group handle, `argv[4]`. -/
  groupName : List UInt8
  mode : Mode
deriving DecidableEq

/-- The statements of `main`, and the end of the process. -/
inductive ClientStatement where
  | socket
  | connect
  | copyName
  | copyGroup
  | sendRequest
  | readResponse
  | setId
  | setGroupId
  | setName
  | helloText
  | helloTime
  | sendHello
  | fgets
  | setTime
  | send
  | exited
deriving DecidableEq

/-- The descriptor in `sd`. -/
inductive Socket where
  /-- `0`, which is standard input. -/
  | zero
  | unconnected
  | connected
deriving DecidableEq

/-- Who writes a message. -/
inductive Sender where
  | hello
  | line
  | heart
deriving DecidableEq

/-- The state of the client, of `main` and the globals. -/
structure Client where
  /-- The statement `main` comes to next. -/
  next : ClientStatement
  sd : Socket
  /-- The local `request`: its two fields, one behind the other. -/
  request : Vector UInt8 40
  /-- The local `response`. -/
  response : JoinResponse
  /-- The global `message`. -/
  message : Message
  /-- What is left of standard input. -/
  stdin : List UInt8
  /-- What has been written to the server. -/
  stream : List UInt8
  /-- The lines that `fgets` has stored. -/
  lines : List (List UInt8)
  /-- The messages in `stream`. -/
  sent : List (Sender × Message)

/-- A move of the scheduler. -/
inductive ClientMove where
  /-- The next statement of `main`, with what `getTime()` returns and what `read` stores
  if it is the statement that calls them. -/
  | main (now : Timeval) (response : JoinResponse)
  /-- `SIGUSR1`, with what `getTime()` returns in its handler. -/
  | sigusr1 (now : Timeval)
deriving DecidableEq

/-- `"I Joined the Chat\n"`. -/
def helloText : List UInt8 :=
  [73, 32, 74, 111, 105, 110, 101, 100, 32, 116, 104, 101, 32, 67, 104, 97, 116, 10]

/-- `"This is a message sent with ♥\n"`. -/
def heartText : List UInt8 :=
  [84, 104, 105, 115, 32, 105, 115, 32, 97, 32, 109, 101, 115, 115, 97, 103, 101, 32, 115, 101,
    110, 116, 32, 119, 105, 116, 104, 32, 226, 153, 165, 10]

namespace Client

/-- The text of the global message is replaced, and the buffer keeps the rest. -/
def setText (s : Client) (text : List UInt8) : Option Client :=
  (put s.message.message 0 text).map fun buffer =>
    { s with message := { s.message with message := buffer } }

/-- `message.time = getTime()`. -/
def setTime (s : Client) (now : Timeval) : Client :=
  { s with message := { s.message with time := now } }

/-- `write(sd, &message, sizeof(message))`. -/
def writeMessage (s : Client) (sender : Sender) : Client :=
  match s.sd with
  | .zero => s
  | .unconnected => { s with next := .exited }
  | .connected =>
    { s with
      stream := s.stream ++ messageCodec.encode s.message
      sent := s.sent ++ [(sender, s.message)] }

/-- What `fgets` takes from standard input for a buffer of `200` bytes, and what it
leaves. -/
def takeLine (stdin : List UInt8) : List UInt8 × List UInt8 :=
  BoundedLines.readLine (· == 10) 199 stdin

/-- `fgets(message.message, sizeof(message.message), stdin)`: without any input it
returns `NULL` and stores nothing, and `main` does not ask. -/
def fgets (s : Client) : Option Client :=
  if (takeLine s.stdin).1 = [] then some s
  else (s.setText (takeLine s.stdin).1).map fun t =>
    { t with stdin := (takeLine s.stdin).2, lines := t.lines ++ [(takeLine s.stdin).1] }

/-- `main` goes on to another statement. -/
def goto (s : Client) (next : ClientStatement) : Client := { s with next := next }

@[simp] theorem next_goto (s : Client) (next : ClientStatement) : (s.goto next).next = next := rfl

/-- The statement of `main` that comes next. -/
def main (args : Arguments) (s : Client) (now : Timeval) (response : JoinResponse) :
    Option Client :=
  match s.next with
  | .socket => some ({ s with sd := .unconnected }.goto .connect)
  | .connect => some ({ s with sd := .connected }.goto .copyName)
  | .copyName => (strcpy s.request 20 (args.name ++ [0])).map fun request =>
      { s with request := request }.goto .copyGroup
  | .copyGroup => (strcpy s.request 0 (args.groupName ++ [0])).map fun request =>
      { s with request := request }.goto .sendRequest
  | .sendRequest => some ({ s with stream := s.stream ++ s.request.toList }.goto .readResponse)
  | .readResponse => some ({ s with response := response }.goto .setId)
  | .setId =>
      some ({ s with message := { s.message with id := s.response.id } }.goto .setGroupId)
  | .setGroupId =>
      some ({ s with message := { s.message with groupId := s.response.groupId } }.goto .setName)
  | .setName => (strcpy s.message.name 0 (args.name ++ [0])).map fun name =>
      { s with message := { s.message with name := name } }.goto
        (if args.mode = Mode.test then .fgets else .helloText)
  | .helloText => (s.setText GroupChat.helloText).map fun t => t.goto .helloTime
  | .helloTime => some ((s.setTime now).goto .sendHello)
  | .sendHello => some ((s.writeMessage .hello).goto .fgets)
  | .fgets => s.fgets.map fun t => t.goto .setTime
  | .setTime => some ((s.setTime now).goto .send)
  | .send => some ((s.writeMessage .line).goto .fgets)
  | .exited => some s

/-- `handle_my(SIGUSR1)`. -/
def handleMy (s : Client) (now : Timeval) : Option Client :=
  (s.setText heartText).map fun t => (t.setTime now).writeMessage .heart

/-! ### What the functions do -/

variable {s t : Client}

theorem setText_cases {txt : List UInt8} (h : s.setText txt = some t) :
    ∃ buffer, put s.message.message 0 txt = some buffer ∧
      t = { s with message := { s.message with message := buffer } } := by
  obtain ⟨buffer, hput, rfl⟩ := Option.map_eq_some_iff.mp h
  exact ⟨buffer, hput, rfl⟩

/-- A text that fits the buffer can be stored. -/
theorem exists_setText (s : Client) {txt : List UInt8} (h : txt.length < 200) :
    ∃ t, s.setText txt = some t := by
  refine ⟨_, Option.map_eq_some_iff.mpr ⟨_, dif_pos ?_, rfl⟩⟩
  omega

theorem takeLine_append (stdin : List UInt8) :
    (takeLine stdin).1 ++ (takeLine stdin).2 = stdin :=
  BoundedLines.readLine_append 199 stdin

theorem takeLine_eq_nil_iff {stdin : List UInt8} : (takeLine stdin).1 = [] ↔ stdin = [] := by
  constructor
  · intro h
    by_contra hne
    exact BoundedLines.readLine_ne_nil hne h
  · rintro rfl
    rfl

/-- **`fgets`** stores the next line, or nothing when there is no input. -/
theorem fgets_cases (h : s.fgets = some t) :
    (s.stdin = [] ∧ t = s) ∨
      s.stdin ≠ [] ∧ ∃ buffer, put s.message.message 0 (takeLine s.stdin).1 = some buffer ∧
        t = { s with
          message := { s.message with message := buffer }
          stdin := (takeLine s.stdin).2
          lines := s.lines ++ [(takeLine s.stdin).1] } := by
  unfold fgets at h
  split_ifs at h with hnil
  · exact Or.inl ⟨takeLine_eq_nil_iff.mp hnil, (Option.some.inj h).symm⟩
  · obtain ⟨u, hu, rfl⟩ := Option.map_eq_some_iff.mp h
    obtain ⟨buffer, hput, rfl⟩ := setText_cases hu
    exact Or.inr ⟨fun hcon => hnil (takeLine_eq_nil_iff.mpr hcon), buffer, hput, rfl⟩

theorem fgets_of_nil (h : s.stdin = []) : s.fgets = some s := if_pos (takeLine_eq_nil_iff.mpr h)

/-- What `fgets` takes always has room in the buffer. -/
theorem exists_fgets (s : Client) : ∃ t, s.fgets = some t := by
  unfold fgets
  split_ifs
  · exact ⟨s, rfl⟩
  · obtain ⟨t, ht⟩ := s.exists_setText
      (Nat.lt_succ_of_le (BoundedLines.length_readLine_le 199 s.stdin))
    exact ⟨_, Option.map_eq_some_iff.mpr ⟨t, ht, rfl⟩⟩

/-- An argument can be copied to where it has room. -/
theorem exists_strcpy {n : ℕ} (dst : Vector UInt8 n) (off : ℕ) (arg : List UInt8)
    (h : off + (arg.length + 1) ≤ n) : ∃ dst', strcpy dst off (arg ++ [0]) = some dst' := by
  have hmem : (0 : UInt8) ∈ arg ++ [0] := List.mem_append_right _ (List.mem_singleton_self 0)
  have hlen := length_text_lt hmem
  rw [List.length_append, List.length_singleton] at hlen
  obtain ⟨dst', hdst', -⟩ := strcpy_of_read dst off (read_eq_some.mpr ⟨hmem, rfl⟩) (by omega)
  exact ⟨dst', hdst'⟩

/-- **No statement of `main` is undefined** if the user handle fits `name` and the
group handle stays within `request`. -/
theorem exists_main {args : Arguments} (s : Client) (now : Timeval) (response : JoinResponse)
    (hname : args.name.length < 20) (hgroup : args.groupName.length < 40) :
    ∃ t, s.main args now response = some t := by
  cases hn : s.next
  all_goals simp only [Client.main, hn]
  case copyName =>
    obtain ⟨_, hcopy⟩ := exists_strcpy s.request 20 args.name (by omega)
    exact ⟨_, Option.map_eq_some_iff.mpr ⟨_, hcopy, rfl⟩⟩
  case copyGroup =>
    obtain ⟨_, hcopy⟩ := exists_strcpy s.request 0 args.groupName (by omega)
    exact ⟨_, Option.map_eq_some_iff.mpr ⟨_, hcopy, rfl⟩⟩
  case setName =>
    obtain ⟨_, hcopy⟩ := exists_strcpy s.message.name 0 args.name (by omega)
    exact ⟨_, Option.map_eq_some_iff.mpr ⟨_, hcopy, rfl⟩⟩
  case helloText =>
    have hshort : GroupChat.helloText.length < 200 := by decide
    obtain ⟨_, htext⟩ := s.exists_setText hshort
    exact ⟨_, Option.map_eq_some_iff.mpr ⟨_, htext, rfl⟩⟩
  case fgets =>
    obtain ⟨_, hfgets⟩ := s.exists_fgets
    exact ⟨_, Option.map_eq_some_iff.mpr ⟨_, hfgets, rfl⟩⟩
  all_goals exact ⟨_, rfl⟩

/-- From `connect` on the socket is connected. -/
def Connected (s : Client) : Prop := s.next ≠ .socket → s.next ≠ .connect → s.sd = .connected

theorem Connected.main {args : Arguments} {now : Timeval} {response : JoinResponse}
    (hs : s.Connected) (h : s.main args now response = some t) : t.Connected := by
  cases hn : s.next
  all_goals simp only [Client.main, hn] at h
  case socket =>
    obtain rfl := Option.some.inj h
    exact fun _ hcon => absurd rfl hcon
  case connect =>
    obtain rfl := Option.some.inj h
    exact fun _ _ => rfl
  -- from here on the socket is connected, and no statement changes that
  all_goals have hsd : s.sd = .connected := hs (by simp [hn]) (by simp [hn])
  case copyName | copyGroup | setName =>
    obtain ⟨_, -, rfl⟩ := Option.map_eq_some_iff.mp h
    exact fun _ _ => hsd
  case helloText =>
    obtain ⟨_, htext, rfl⟩ := Option.map_eq_some_iff.mp h
    obtain ⟨_, -, rfl⟩ := setText_cases htext
    exact fun _ _ => hsd
  case fgets =>
    obtain ⟨_, hfgets, rfl⟩ := Option.map_eq_some_iff.mp h
    obtain ⟨-, rfl⟩ | ⟨-, _, -, rfl⟩ := fgets_cases hfgets <;> exact fun _ _ => hsd
  case sendHello | send =>
    obtain rfl := Option.some.inj h
    simp [Connected, writeMessage, hsd, goto]
  all_goals
    obtain rfl := Option.some.inj h
    exact fun _ _ => hsd

theorem sent_writeMessage (s : Client) (sender : Sender) :
    ∃ more, (s.writeMessage sender).sent = s.sent ++ more ∧ ∀ x ∈ more, x.1 = sender := by
  unfold writeMessage
  split
  · exact ⟨[], by simp, by simp⟩
  · exact ⟨[], by simp, by simp⟩
  · exact ⟨[(sender, s.message)], rfl, by simp⟩

/-- What is sent stays sent, and `main` sends no hearts. -/
theorem sent_main {args : Arguments} {now : Timeval} {response : JoinResponse}
    (h : s.main args now response = some t) :
    ∃ more, t.sent = s.sent ++ more ∧ ∀ x ∈ more, x.1 ≠ .heart := by
  have hsame : ∀ {u : Client}, u.sent = s.sent →
      ∃ more, u.sent = s.sent ++ more ∧ ∀ x ∈ more, x.1 ≠ .heart :=
    fun hu => ⟨[], by simp [hu], by simp⟩
  cases hn : s.next
  all_goals simp only [Client.main, hn] at h
  case copyName | copyGroup | setName =>
    obtain ⟨_, -, rfl⟩ := Option.map_eq_some_iff.mp h
    exact hsame rfl
  case helloText =>
    obtain ⟨_, htext, rfl⟩ := Option.map_eq_some_iff.mp h
    obtain ⟨_, -, rfl⟩ := setText_cases htext
    exact hsame rfl
  case fgets =>
    obtain ⟨_, hfgets, rfl⟩ := Option.map_eq_some_iff.mp h
    obtain ⟨-, rfl⟩ | ⟨-, _, -, rfl⟩ := fgets_cases hfgets <;> exact hsame rfl
  case sendHello | send =>
    obtain rfl := Option.some.inj h
    obtain ⟨more, hmore, hsender⟩ := s.sent_writeMessage _
    exact ⟨more, hmore, fun x hx => by simp [hsender x hx]⟩
  all_goals
    obtain rfl := Option.some.inj h
    exact hsame rfl

theorem stdin_writeMessage (s : Client) (sender : Sender) :
    (s.writeMessage sender).stdin = s.stdin ∧ (s.writeMessage sender).lines = s.lines := by
  unfold writeMessage
  split <;> exact ⟨rfl, rfl⟩

/-- Only `fgets` takes from standard input. -/
theorem stdin_main {args : Arguments} {now : Timeval} {response : JoinResponse}
    (hs : s.next ≠ .fgets) (h : s.main args now response = some t) :
    t.stdin = s.stdin ∧ t.lines = s.lines := by
  cases hn : s.next
  all_goals simp only [Client.main, hn] at h
  case copyName | copyGroup | setName =>
    obtain ⟨_, -, rfl⟩ := Option.map_eq_some_iff.mp h
    exact ⟨rfl, rfl⟩
  case helloText =>
    obtain ⟨_, htext, rfl⟩ := Option.map_eq_some_iff.mp h
    obtain ⟨_, -, rfl⟩ := setText_cases htext
    exact ⟨rfl, rfl⟩
  case fgets => exact absurd hn hs
  case sendHello | send =>
    obtain rfl := Option.some.inj h
    exact s.stdin_writeMessage _
  all_goals
    obtain rfl := Option.some.inj h
    exact ⟨rfl, rfl⟩

/-! ### The start -/

/-- The client when its handlers have just been installed: the global message is zero,
the local variables hold anything. -/
structure Initial (input : List UInt8) (s : Client) : Prop where
  next : s.next = .socket
  sd : s.sd = .zero
  message : s.message = Message.blank 0 0
  stdin : s.stdin = input
  stream : s.stream = []
  lines : s.lines = []
  sent : s.sent = []

/-- The client at its start, with cleared local variables. -/
def start (input : List UInt8) : Client where
  next := .socket
  sd := .zero
  request := Vector.replicate 40 0
  response := ⟨0, 0⟩
  message := Message.blank 0 0
  stdin := input
  stream := []
  lines := []
  sent := []

theorem initial_start (input : List UInt8) : (start input).Initial input :=
  ⟨rfl, rfl, rfl, rfl, rfl, rfl, rfl⟩

end Client

/-- The moves of the client. -/
def client (args : Arguments) : StepSystem Client ClientMove where
  enabled s _ := s.next ≠ .exited
  effect s
    | .main now response => s.main args now response
    | .sigusr1 now => s.handleMy now
  decEnabled _ _ := inferInstanceAs (Decidable (¬_))

end GroupChat
