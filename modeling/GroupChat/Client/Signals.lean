import GroupChat.Client.Input
import Mathlib.Data.List.Forall2

/-!
# Signals

What the server receives from a client that is told by `SIGUSR1` to send a message. The
handler is in place before the client has a connection, an id or a name, and it writes
from the buffer that `main` writes from. A signal does no harm where the identity is set
and nothing waits in the buffer, which is before `strcpy` of the hello text and before
`fgets`; in the runs whose signals come there the protocol is kept
(`GroupChat.client_protocol`). Between `fgets` and the write, a signal replaces the line
(`GroupChat.exists_run_line_overwritten`).

A run has to be one that the language defines. With a user handle of less than `20` bytes
and a group handle of less than `40` every schedule is, whose signals do not come between
`socket` and `connect` (`GroupChat.Client.Initial.exists_run`).
-/

namespace GroupChat

open BoundedLines CString

/-- The text field begins with these bytes, and a NUL behind them. -/
def Message.Holds (m : Message) (txt : List UInt8) : Prop :=
  m.message.toList.take (txt.length + 1) = txt ++ [0]

instance (m : Message) (txt : List UInt8) : Decidable (m.Holds txt) :=
  inferInstanceAs (Decidable (_ = _))

/-- The place of a statement in `main`. -/
@[simp] def ClientStatement.rank : ClientStatement → ℕ
  | .socket => 0
  | .connect => 1
  | .copyName => 2
  | .copyGroup => 3
  | .sendRequest => 4
  | .readResponse => 5
  | .setId => 6
  | .setGroupId => 7
  | .setName => 8
  | .helloText => 9
  | .helloTime => 10
  | .sendHello => 11
  | .fgets => 12
  | .setTime => 13
  | .send => 14
  | .exited => 15

namespace Client

variable {args : Arguments} {input : List UInt8} {s t : Client} {ms : List ClientMove}
  {now : Timeval} {response : JoinResponse}

/-! ### What is on the wire -/

/-- Nothing before the join request, and messages behind it. -/
structure Wire (s : Client) : Prop where
  connected : s.Connected
  /-- No message is sent before the name is set. -/
  silent : s.next.rank ≤ 8 → s.sent = []
  stream : s.stream = if s.next.rank ≤ 4 then [] else
    s.request.toList ++ messageCodec.encodeAll (s.sent.map Prod.snd)

/-- A statement that writes nothing. -/
theorem Wire.frame (h : s.Wire) (hconn : t.Connected) (hle : t.next.rank ≤ 8 → s.next.rank ≤ 8)
    (hrank : t.next.rank ≤ 4 ↔ s.next.rank ≤ 4) (hrequest : 4 < s.next.rank → t.request = s.request)
    (hstream : t.stream = s.stream) (hsent : t.sent = s.sent) : t.Wire := by
  refine ⟨hconn, ?_, ?_⟩
  · intro ht
    rw [hsent]
    exact h.silent (hle ht)
  · rw [hstream, h.stream]
    split_ifs with hs ht ht
    · rfl
    · exact absurd (hrank.mpr hs) ht
    · exact absurd (hrank.mp ht) hs
    · rw [hrequest (not_le.mp hs), hsent]

theorem Wire.connected_of_lt (h : s.Wire) (hrank : 8 < s.next.rank) : s.sd = .connected := by
  refine h.connected ?_ ?_
  all_goals
    intro hn
    simp [hn] at hrank

/-- A message is written. -/
theorem Wire.writeMessage (h : s.Wire) (hrank : 8 < s.next.rank) (hsd : s.sd = .connected)
    (sender : Sender) : (s.writeMessage sender).Wire := by
  have hstream := h.stream
  rw [if_neg (by omega)] at hstream
  simp only [Client.writeMessage, hsd]
  refine ⟨fun _ _ => rfl, fun hle => absurd hrank (not_lt.mpr hle), ?_⟩
  simp only
  rw [if_neg (by omega), hstream, List.map_append, ByteLayout.RecordCodec.encodeAll_append,
    List.append_assoc]
  simp

theorem Wire.main (h : s.Wire) (hmain : s.main args now response = some t) : t.Wire := by
  have hframe := h.frame (h.connected.main hmain)
  cases hn : s.next
  all_goals
    simp only [Client.main, hn] at hmain
    simp only [hn, ClientStatement.rank] at hframe
  case sendRequest =>
    have hconn := h.connected
    obtain rfl := Option.some.inj hmain
    have hsent := h.silent (by simp [hn])
    have hstream := h.stream
    rw [if_pos (by simp [hn])] at hstream
    exact ⟨fun _ _ => hconn (by simp [hn]) (by simp [hn]), fun _ => hsent,
      by simp [Client.goto, hstream, hsent]⟩
  case sendHello | send =>
    obtain rfl := Option.some.inj hmain
    have hsd : s.sd = .connected := h.connected (by simp [hn]) (by simp [hn])
    have hwrite := h.writeMessage (by simp [hn]) hsd
    refine (hwrite _).frame ?_ ?_ ?_ (fun _ => rfl) rfl rfl
    all_goals simp [Client.writeMessage, hsd, hn, Client.goto, Connected]
  case copyName | copyGroup =>
    obtain ⟨_, -, rfl⟩ := Option.map_eq_some_iff.mp hmain
    exact hframe (by simp) (by simp) (fun hlt => absurd hlt (by omega)) rfl rfl
  case setName =>
    obtain ⟨_, -, rfl⟩ := Option.map_eq_some_iff.mp hmain
    refine hframe ?_ ?_ (fun _ => rfl) rfl rfl
    all_goals
      rw [next_goto]
      split_ifs <;> simp
  case helloText =>
    obtain ⟨_, htext, rfl⟩ := Option.map_eq_some_iff.mp hmain
    obtain ⟨_, -, rfl⟩ := setText_cases htext
    exact hframe (by simp) (by simp) (fun _ => rfl) rfl rfl
  case fgets =>
    obtain ⟨_, hfgets, rfl⟩ := Option.map_eq_some_iff.mp hmain
    obtain ⟨-, rfl⟩ | ⟨-, _, -, rfl⟩ := fgets_cases hfgets
    all_goals exact hframe (by simp) (by simp) (fun _ => rfl) rfl rfl
  case exited =>
    obtain rfl := Option.some.inj hmain
    exact h
  all_goals
    obtain rfl := Option.some.inj hmain
    exact hframe (by simp) (by simp) (fun _ => rfl) rfl rfl

/-- **What the handler does** when there is a connection: its text takes the place of the
one in the buffer, and the message is written. -/
theorem handleMy_cases (h : s.handleMy now = some t) (hsd : s.sd = .connected) :
    ∃ m, m.Holds heartText ∧ m.id = s.message.id ∧ m.groupId = s.message.groupId ∧
      m.name = s.message.name ∧
      t = { s with
        message := m
        stream := s.stream ++ messageCodec.encode m
        sent := s.sent ++ [(.heart, m)] } := by
  obtain ⟨u, hu, rfl⟩ := Option.map_eq_some_iff.mp h
  obtain ⟨buffer, hput, rfl⟩ := setText_cases hu
  exact ⟨{ s.message with message := buffer, time := now }, take_of_put hput, rfl, rfl, rfl,
    by simp [Client.writeMessage, setTime, hsd]⟩

theorem Wire.handleMy (h : s.Wire) (hrank : 8 < s.next.rank) (ht : s.handleMy now = some t) :
    t.Wire := by
  have hsd := h.connected_of_lt hrank
  obtain ⟨u, hu, rfl⟩ := Option.map_eq_some_iff.mp ht
  obtain ⟨_, -, rfl⟩ := setText_cases hu
  apply Wire.writeMessage
  · exact h.frame (fun _ _ => hsd) id Iff.rfl (fun _ => rfl) rfl rfl
  · exact hrank
  · exact hsd

/-! ### Who the messages are from -/

/-- A message in the name of the client. -/
structure Signed (args : Arguments) (response : JoinResponse) (m : Message) : Prop where
  id : m.id = response.id
  groupId : m.groupId = response.groupId
  name : read m.name.toList = some args.name

/-- The identity is set step by step, and what has been sent bears it. -/
structure Identity (args : Arguments) (s : Client) : Prop where
  id : 6 < s.next.rank → s.message.id = s.response.id
  groupId : 7 < s.next.rank → s.message.groupId = s.response.groupId
  name : 8 < s.next.rank → read s.message.name.toList = some args.name
  sent : ∀ x ∈ s.sent, Signed args s.response x.2

theorem Identity.signed (h : s.Identity args) (hrank : 8 < s.next.rank) :
    Signed args s.response s.message :=
  ⟨h.id (by omega), h.groupId (by omega), h.name hrank⟩

/-- A statement that leaves the identity alone. -/
theorem Identity.frame (h : s.Identity args) (hid : t.message.id = s.message.id)
    (hgroupId : t.message.groupId = s.message.groupId) (hname : t.message.name = s.message.name)
    (hresponse : t.response = s.response)
    (hrank : ∀ k, 6 ≤ k → k ≤ 8 → k < t.next.rank → k < s.next.rank)
    (hsent : ∀ x ∈ t.sent, x ∈ s.sent ∨ Signed args s.response x.2) : t.Identity args where
  id ht := by rw [hid, hresponse, h.id (hrank 6 (by omega) (by omega) ht)]
  groupId ht := by rw [hgroupId, hresponse, h.groupId (hrank 7 (by omega) (by omega) ht)]
  name ht := by rw [hname, h.name (hrank 8 (by omega) (by omega) ht)]
  sent x hx := by
    rw [hresponse]
    exact (hsent x hx).elim (h.sent x) (fun hsigned => hsigned)

theorem Identity.main (h : s.Identity args) (hwire : s.Wire) (hname : (0 : UInt8) ∉ args.name)
    (hmain : s.main args now response = some t) : t.Identity args := by
  have hframe := @h.frame args s t
  have hsilent := hwire.silent
  cases hn : s.next
  all_goals
    simp only [Client.main, hn] at hmain
    simp only [hn, ClientStatement.rank] at hframe hsilent
  case readResponse =>
    obtain rfl := Option.some.inj hmain
    have hsent := hsilent (by omega)
    refine ⟨?_, ?_, ?_, by simp [Client.goto, hsent]⟩
    all_goals
      intro hlt
      simp at hlt
  case setId =>
    obtain rfl := Option.some.inj hmain
    refine ⟨fun _ => rfl, ?_, ?_, by simp [Client.goto, hsilent (by omega)]⟩
    all_goals
      intro hlt
      simp at hlt
  case setGroupId =>
    obtain rfl := Option.some.inj hmain
    refine ⟨fun _ => h.id (by simp [hn]), fun _ => rfl, ?_,
      by simp [Client.goto, hsilent (by omega)]⟩
    intro hlt
    simp at hlt
  case setName =>
    obtain ⟨name, hput, rfl⟩ := Option.map_eq_some_iff.mp hmain
    rw [strcpy_eq_put _ _ (read_append_cons hname [])] at hput
    exact ⟨fun _ => h.id (by simp [hn]), fun _ => h.groupId (by simp [hn]),
      fun _ => read_of_put hput hname, by simp [Client.goto, hsilent (by omega)]⟩
  case sendHello | send =>
    obtain rfl := Option.some.inj hmain
    have hsigned := h.signed (by simp [hn])
    have hsd : s.sd = .connected := hwire.connected (by simp [hn]) (by simp [hn])
    simp only [Client.writeMessage, hsd, Client.goto]
    refine h.frame rfl rfl rfl rfl (by simp [hn]; omega) ?_
    intro x hx
    rcases List.mem_append.mp hx with hx | hx
    · exact Or.inl hx
    · exact Or.inr (List.mem_singleton.mp hx ▸ hsigned)
  case copyName | copyGroup =>
    obtain ⟨_, -, rfl⟩ := Option.map_eq_some_iff.mp hmain
    exact hframe rfl rfl rfl rfl (by simp; omega) fun _ => Or.inl
  case helloText =>
    obtain ⟨_, htext, rfl⟩ := Option.map_eq_some_iff.mp hmain
    obtain ⟨_, -, rfl⟩ := setText_cases htext
    exact hframe rfl rfl rfl rfl (by simp; omega) fun _ => Or.inl
  case fgets =>
    obtain ⟨_, hfgets, rfl⟩ := Option.map_eq_some_iff.mp hmain
    obtain ⟨-, rfl⟩ | ⟨-, _, -, rfl⟩ := fgets_cases hfgets
    all_goals exact hframe rfl rfl rfl rfl (by simp; omega) fun _ => Or.inl
  case exited =>
    obtain rfl := Option.some.inj hmain
    exact h
  all_goals
    obtain rfl := Option.some.inj hmain
    exact hframe rfl rfl rfl rfl (by simp; omega) fun _ => Or.inl

theorem Identity.handleMy (h : s.Identity args) (hwire : s.Wire) (hrank : 8 < s.next.rank)
    (ht : s.handleMy now = some t) : t.Identity args := by
  have hsd : s.sd = .connected := hwire.connected_of_lt hrank
  have hsigned := h.signed hrank
  obtain ⟨m, -, hid, hgroupId, hname, rfl⟩ := handleMy_cases ht hsd
  refine h.frame hid hgroupId hname rfl (fun _ _ _ hlt => hlt) ?_
  intro x hx
  rcases List.mem_append.mp hx with hx | hx
  · exact Or.inl hx
  · obtain rfl := List.mem_singleton.mp hx
    exact Or.inr ⟨hid.trans hsigned.id, hgroupId.trans hsigned.groupId,
      (congrArg (fun v => read v.toList) hname).trans hsigned.name⟩

/-! ### What the messages say -/

/-- A message as it should be: by this sender, with this text. -/
def Says (x : Sender × Message) (e : Sender × List UInt8) : Prop := x.1 = e.1 ∧ x.2.Holds e.2

/-- The messages that `main` has sent. -/
def written (s : Client) : List (Sender × Message) := s.sent.filter fun x => x.1 ≠ .heart

/-- What `main` has to send: the hello, unless in `TEST` mode, and lines. -/
def script (args : Arguments) (lines : List (List UInt8)) : List (Sender × List UInt8) :=
  (if args.mode = .test then [] else [(.hello, GroupChat.helloText)]) ++
    lines.map fun line => (.line, line)

/-- How far `main` has come in what it has to send. -/
def Progress (args : Arguments) (s : Client) : Prop :=
  match s.next with
  | .helloTime => args.mode ≠ .test ∧ s.written = [] ∧ s.lines = [] ∧
      s.message.Holds GroupChat.helloText
  | .sendHello => args.mode ≠ .test ∧ s.written = [] ∧ s.lines = [] ∧
      s.message.Holds GroupChat.helloText
  | .fgets => List.Forall₂ Says s.written (script args s.lines)
  | .setTime => List.Forall₂ Says s.written (script args s.lines) ∨
      ∃ lines line, s.lines = lines ++ [line] ∧ List.Forall₂ Says s.written (script args lines) ∧
        s.message.Holds line
  | .send => List.Forall₂ Says s.written (script args s.lines) ∨
      ∃ lines line, s.lines = lines ++ [line] ∧ List.Forall₂ Says s.written (script args lines) ∧
        s.message.Holds line
  | .helloText => args.mode ≠ .test ∧ s.written = [] ∧ s.lines = []
  | _ => s.written = [] ∧ s.lines = []

theorem script_concat (args : Arguments) (lines : List (List UInt8)) (line : List UInt8) :
    script args (lines ++ [line]) = script args lines ++ [(.line, line)] := by
  rw [script, script, List.map_append, List.append_assoc]
  rfl

theorem map_fst_of_forall {xs : List (Sender × Message)} {es : List (Sender × List UInt8)}
    (h : List.Forall₂ Says xs es) : xs.map Prod.fst = es.map Prod.fst := by
  induction h with
  | nil => rfl
  | cons hsays _ ih => rw [List.map_cons, List.map_cons, hsays.1, ih]

/-- Who has said all of the script has sent all lines. -/
theorem length_loopMessages (h : List.Forall₂ Says s.written (script args s.lines)) :
    s.loopMessages.length = s.lines.length := by
  have hcount := congrArg (List.count .line) (map_fst_of_forall h)
  have hscript : ((script args s.lines).map Prod.fst).count .line = s.lines.length := by
    rw [script, List.map_append, List.count_append]
    have hhello : ((if args.mode = .test then [] else [(.hello, GroupChat.helloText)] :
        List (Sender × List UInt8)).map Prod.fst).count .line = 0 := by
      split_ifs <;> rfl
    have hlines : (s.lines.map fun line => ((.line : Sender), line)).map Prod.fst =
        List.replicate s.lines.length .line := by
      rw [List.map_map]
      exact List.map_const'
    rw [hhello, hlines, List.count_replicate_self, zero_add]
  rw [hscript] at hcount
  rw [← hcount, loopMessages, List.length_map, ← List.countP_eq_length_filter, written,
    List.count, List.countP_map, List.countP_filter]
  refine List.countP_congr ?_
  rintro ⟨sender, m⟩ -
  cases sender <;> simp

theorem written_append (s : Client) (x : Sender × Message) (hx : x.1 ≠ .heart) :
    ({ s with sent := s.sent ++ [x] } : Client).written = s.written ++ [x] := by
  simp [written, hx]

theorem Progress.main (h : s.Progress args) (hwire : s.Wire) {m : ClientMove} (hline : HasLine s m)
    (hmain : s.main args now response = some t) : t.Progress args := by
  cases hn : s.next
  all_goals
    simp only [Client.main, hn] at hmain
    simp only [Progress, hn] at h
  case copyName | copyGroup =>
    obtain ⟨_, -, rfl⟩ := Option.map_eq_some_iff.mp hmain
    exact h
  case setName =>
    obtain ⟨_, -, rfl⟩ := Option.map_eq_some_iff.mp hmain
    by_cases hmode : args.mode = .test
    · rw [if_pos hmode]
      change List.Forall₂ Says s.written (script args s.lines)
      rw [h.1, h.2, script, if_pos hmode]
      exact List.Forall₂.nil
    · rw [if_neg hmode]
      exact ⟨hmode, h⟩
  case helloText =>
    obtain ⟨_, htext, rfl⟩ := Option.map_eq_some_iff.mp hmain
    obtain ⟨_, hput, rfl⟩ := setText_cases htext
    exact ⟨h.1, h.2.1, h.2.2, take_of_put hput⟩
  case helloTime =>
    obtain rfl := Option.some.inj hmain
    exact h
  case sendHello =>
    obtain rfl := Option.some.inj hmain
    have hsd : s.sd = .connected := hwire.connected_of_lt (by simp [hn])
    obtain ⟨hmode, hwritten, hlines, hholds⟩ := h
    simp only [Client.writeMessage, hsd]
    change List.Forall₂ Says ({ s with sent := s.sent ++ [(.hello, s.message)] } : Client).written
      (script args s.lines)
    rw [written_append _ _ (by simp), hwritten, hlines, script, if_neg hmode]
    exact List.Forall₂.cons ⟨rfl, hholds⟩ List.Forall₂.nil
  case fgets =>
    obtain ⟨_, hfgets, rfl⟩ := Option.map_eq_some_iff.mp hmain
    obtain ⟨-, rfl⟩ | ⟨-, _, hput, rfl⟩ := fgets_cases hfgets
    · exact Or.inl h
    · exact Or.inr ⟨s.lines, _, rfl, h, take_of_put hput⟩
  case setTime =>
    obtain rfl := Option.some.inj hmain
    exact h
  case send =>
    obtain rfl := Option.some.inj hmain
    have hsd : s.sd = .connected := hwire.connected_of_lt (by simp [hn])
    rcases h with hall | ⟨lines, line, hlines, hsaid, hholds⟩
    · -- nothing left to send: excluded by the condition
      exact absurd (hline hn) (by rw [length_loopMessages hall]; exact Nat.lt_irrefl _)
    · simp only [Client.writeMessage, hsd]
      change List.Forall₂ Says ({ s with sent := s.sent ++ [(.line, s.message)] } : Client).written
        (script args s.lines)
      rw [written_append _ _ (by simp), hlines, script_concat]
      exact List.rel_append hsaid (List.Forall₂.cons ⟨rfl, hholds⟩ List.Forall₂.nil)
  case setGroupId | setId | readResponse | sendRequest | socket | connect =>
    obtain rfl := Option.some.inj hmain
    exact h
  case exited =>
    obtain rfl := Option.some.inj hmain
    simpa only [Progress, hn] using h

/-- The condition on a step: a signal comes when the identity is set and no text waits in
the buffer, and when the loop writes, there is a line to send. -/
def KeepsProtocol (s : Client) : ClientMove → Prop
  | .main _ _ => s.next = .send → s.loopMessages.length < s.lines.length
  | .sigusr1 _ => s.next = .helloText ∨ s.next = .fgets

instance (s : Client) : ∀ m, Decidable (KeepsProtocol s m)
  | .main _ _ => inferInstanceAs (Decidable (_ → _))
  | .sigusr1 _ => inferInstanceAs (Decidable (_ ∨ _))

/-- The half of the condition that is about signals. -/
def SignalsInTime (s : Client) : ClientMove → Prop
  | .main _ _ => True
  | .sigusr1 _ => s.next = .helloText ∨ s.next = .fgets

/-- **The condition on a whole run**: its signals come in time, and the loop has not
written more often than the input has lines. -/
theorem Initial.always_keepsProtocol_iff (h : s.Initial input)
    (hrun : (client args).run s ms = some t) :
    (client args).Always KeepsProtocol s ms ↔
      (client args).Always SignalsInTime s ms ∧
        t.loopMessages.length ≤ (inputLines input).length := by
  rw [← h.always_writesLine_iff hrun, ← StepSystem.always_and]
  constructor
  · refine StepSystem.Always.mono ?_
    rintro u (_ | _) hkeeps
    · exact ⟨trivial, hkeeps⟩
    · exact ⟨hkeeps, trivial⟩
  · refine StepSystem.Always.mono ?_
    rintro u (_ | _) ⟨hsignal, hline⟩
    · exact hline
    · exact hsignal

theorem Progress.handleMy (h : s.Progress args) (hwire : s.Wire)
    (hsafe : s.next = .helloText ∨ s.next = .fgets) (ht : s.handleMy now = some t) :
    t.Progress args := by
  have hrank : 8 < s.next.rank := by
    rcases hsafe with hn | hn <;> simp [hn]
  obtain ⟨m, -, -, -, -, rfl⟩ := handleMy_cases ht (hwire.connected_of_lt hrank)
  have hwritten : ({ s with sent := s.sent ++ [(.heart, m)] } : Client).written = s.written := by
    simp [written]
  rcases hsafe with hn | hn
  · simp only [Progress, hn] at h ⊢
    exact ⟨h.1, hwritten.trans h.2.1, h.2.2⟩
  · simp only [Progress, hn] at h ⊢
    exact hwritten ▸ h

/-! ### Whole runs -/

/-- A `SIGUSR1`. -/
def IsSignal : ClientMove → Bool
  | .main _ _ => false
  | .sigusr1 _ => true

/-- The process has not ended, and `sd` holds what it should where `main` is. -/
structure Live (s : Client) : Prop where
  zero : s.next = .socket → s.sd = .zero
  connected : s.Connected
  running : s.next ≠ .exited

theorem Initial.live (h : s.Initial input) : s.Live where
  zero _ := h.sd
  connected hn := absurd h.next hn
  running := by simp [h.next]

/-- `main` goes forward, and ends in no statement of its own. -/
theorem next_main (hnext : s.next ≠ .exited) (hmain : s.main args now response = some t) :
    t.next ≠ .socket ∧ t.next ≠ .exited := by
  cases hn : s.next
  all_goals simp only [Client.main, hn] at hmain
  case exited => exact absurd hn hnext
  case copyName | copyGroup | helloText | fgets =>
    obtain ⟨_, -, rfl⟩ := Option.map_eq_some_iff.mp hmain
    simp
  case setName =>
    obtain ⟨_, -, rfl⟩ := Option.map_eq_some_iff.mp hmain
    rw [next_goto]
    split_ifs <;> simp
  all_goals
    obtain rfl := Option.some.inj hmain
    simp

theorem Live.main (h : s.Live) (hmain : s.main args now response = some t) : t.Live := by
  obtain ⟨hsocket, hexited⟩ := next_main h.running hmain
  exact ⟨fun hn => absurd hn hsocket, h.connected.main hmain, hexited⟩

/-- A write ends the process only between `socket` and `connect`. -/
theorem Live.writeMessage (h : s.Live) (hn : s.next ≠ .connect) (sender : Sender) :
    (s.writeMessage sender).Live := by
  cases hsd : s.sd
  all_goals simp only [Client.writeMessage, hsd]
  case zero => exact h
  case unconnected =>
    have hconn : s.sd = .connected :=
      h.connected (fun hs => by simpa [hsd] using h.zero hs) hn
    simp [hsd] at hconn
  case connected =>
    exact ⟨fun hs => hsd.symm.trans (h.zero hs), fun _ _ => rfl, h.running⟩

theorem Live.exists_handleMy (h : s.Live) (hn : s.next ≠ .connect) (now : Timeval) :
    ∃ t, s.handleMy now = some t ∧ t.Live := by
  have hshort : heartText.length < 200 := by decide
  obtain ⟨u, hu⟩ := s.exists_setText hshort
  refine ⟨_, Option.map_eq_some_iff.mpr ⟨u, hu, rfl⟩, ?_⟩
  obtain ⟨_, -, rfl⟩ := setText_cases hu
  apply Live.writeMessage
  · exact ⟨h.zero, h.connected, h.running⟩
  · exact hn

/-- **Schedules go through.** With handles that fit, and without a signal between `socket`
and `connect`, every statement of `main` and every handler has an effect. -/
theorem Initial.exists_run (h : s.Initial input) (hname : args.name.length < 20)
    (hgroup : args.groupName.length < 40)
    (hsignals : (client args).Always (fun u m => IsSignal m → u.next ≠ .connect) s ms) :
    ∃ t, (client args).run s ms = some t := by
  have hstep : ∀ (u : Client) (m : ClientMove), u.Live → (IsSignal m → u.next ≠ .connect) →
      ∃ v, (client args).exec u m = some v ∧ v.Live := by
    intro u m hlive hsignal
    cases m with
    | main now response =>
      obtain ⟨v, hv⟩ := u.exists_main now response hname hgroup
      exact ⟨v, StepSystem.exec_eq_some.mpr ⟨hlive.running, hv⟩, hlive.main hv⟩
    | sigusr1 now =>
      obtain ⟨v, hv, hlive'⟩ := hlive.exists_handleMy (hsignal rfl) now
      exact ⟨v, StepSystem.exec_eq_some.mpr ⟨hlive.running, hv⟩, hlive'⟩
  obtain ⟨t, hrun, -⟩ := StepSystem.run_progress hstep h.live hsignals
  exact ⟨t, hrun⟩

/-- **The invariant** of a run that keeps the protocol. -/
structure Protocol (args : Arguments) (input : List UInt8) (s : Client) : Prop where
  wire : s.Wire
  identity : s.Identity args
  progress : s.Progress args
  accounted : inputLines input = s.lines ++ inputLines s.stdin
  hearts : ∀ x ∈ s.sent, x.1 = .heart → x.2.Holds heartText

theorem Initial.protocol (h : s.Initial input) : s.Protocol args input where
  wire :=
    { connected := fun hn => absurd h.next hn
      silent := fun _ => h.sent
      stream := by rw [if_pos (by simp [h.next]), h.stream] }
  identity :=
    { id := fun hlt => by simp [h.next] at hlt
      groupId := fun hlt => by simp [h.next] at hlt
      name := fun hlt => by simp [h.next] at hlt
      sent := by simp [h.sent] }
  progress := by simp [Progress, h.next, written, h.sent, h.lines]
  accounted := by rw [h.lines, h.stdin, List.nil_append]
  hearts := by simp [h.sent]

/-- **A step of a run that keeps the protocol.** -/
theorem Protocol.step (h : s.Protocol args input) (hname : (0 : UInt8) ∉ args.name)
    {m : ClientMove} (hkeeps : KeepsProtocol s m) (hexec : (client args).exec s m = some t) :
    t.Protocol args input ∧ ∃ more, t.sent = s.sent ++ more ∧
      more.countP (fun x => x.1 = .heart) = if IsSignal m then 1 else 0 := by
  cases m with
  | main now response =>
    obtain ⟨-, hmain⟩ := exec_main hexec
    obtain ⟨more, hsent, hmore⟩ := sent_main hmain
    refine ⟨⟨h.wire.main hmain, h.identity.main h.wire hname hmain,
      h.progress.main (m := .main now response) h.wire hkeeps hmain,
      accounted_main h.accounted hmain, ?_⟩, more, hsent, ?_⟩
    · intro x hx hheart
      rw [hsent, List.mem_append] at hx
      exact hx.elim (fun hx => h.hearts x hx hheart) (fun hx => absurd hheart (hmore x hx))
    · exact List.countP_eq_zero.mpr fun x hx => by simpa using hmore x hx
  | sigusr1 now =>
    obtain ⟨-, hhandler⟩ := StepSystem.exec_eq_some.mp hexec
    have hrank : 8 < s.next.rank := by
      rcases hkeeps with hn | hn <;> simp [hn]
    have hwire := h.wire.handleMy hrank hhandler
    have hidentity := h.identity.handleMy h.wire hrank hhandler
    have hprogress := h.progress.handleMy h.wire hkeeps hhandler
    obtain ⟨m, hholds, -, -, -, rfl⟩ := handleMy_cases hhandler (h.wire.connected_of_lt hrank)
    refine ⟨⟨hwire, hidentity, hprogress, h.accounted, ?_⟩, [(.heart, m)], rfl, by simp [IsSignal]⟩
    intro x hx hheart
    rcases List.mem_append.mp hx with hx | hx
    · exact h.hearts x hx hheart
    · exact List.mem_singleton.mp hx ▸ hholds

/-- **A run that keeps the protocol**, and the number of its signals. -/
theorem Initial.protocol_of_run (h : s.Initial input) (hname : (0 : UInt8) ∉ args.name)
    (hkeeps : (client args).Always KeepsProtocol s ms) (hrun : (client args).run s ms = some t) :
    t.Protocol args input ∧ t.sent.countP (fun x => x.1 = .heart) = ms.countP IsSignal := by
  refine StepSystem.run_history
    (P := fun ms t => (client args).Always KeepsProtocol s ms → t.Protocol args input ∧
      t.sent.countP (fun x => x.1 = .heart) = ms.countP IsSignal)
    (fun _ => ⟨h.protocol, by simp [h.sent]⟩) ?_ hrun hkeeps
  intro ms m u v hrun ih hexec hkeeps
  obtain ⟨hkeeps, hm⟩ := StepSystem.always_concat.mp hkeeps
  obtain ⟨hprotocol, hcount⟩ := ih hkeeps
  obtain ⟨hprotocol', more, hsent, hmore⟩ := hprotocol.step hname (hm u hrun) hexec
  refine ⟨hprotocol', ?_⟩
  rw [hsent, List.countP_append, List.countP_append, hcount, hmore, List.countP_singleton]

/-- `main` has said its script, but for one message at most that is still to come, and
none where it is about to take a line. -/
theorem Progress.exists_pending (h : s.Progress args) :
    ∃ said pending, said ++ pending = script args s.lines ∧ List.Forall₂ Says s.written said ∧
      pending.length ≤ 1 ∧ (s.next = .fgets → pending = []) := by
  have hstart : s.written = [] → s.lines = [] → s.next ≠ .fgets →
      ∃ said pending, said ++ pending = script args s.lines ∧ List.Forall₂ Says s.written said ∧
        pending.length ≤ 1 ∧ (s.next = .fgets → pending = []) := by
    intro hwritten hlines hnext
    refine ⟨[], script args s.lines, rfl, hwritten ▸ List.Forall₂.nil, ?_,
      fun hcon => absurd hcon hnext⟩
    rw [hlines, script, List.map_nil, List.append_nil]
    split_ifs
    · exact Nat.zero_le 1
    · exact le_rfl
  cases hn : s.next
  all_goals simp only [Progress, hn] at h
  case fgets => exact ⟨script args s.lines, [], List.append_nil _, h, Nat.zero_le 1, fun _ => rfl⟩
  case setTime | send =>
    rcases h with hall | ⟨lines, line, hlines, hsaid, -⟩
    · exact ⟨_, [], List.append_nil _, hall, Nat.zero_le 1, fun _ => rfl⟩
    · exact ⟨script args lines, [(.line, line)], by rw [hlines, script_concat], hsaid, le_rfl,
        fun hcon => by cases hcon⟩
  case helloText | helloTime | sendHello =>
    obtain ⟨said, pending, hall⟩ :=
      hstart h.2.1 (by first | exact h.2.2 | exact h.2.2.1) (by simp [hn])
    exact ⟨said, pending, by rwa [hn] at hall⟩
  all_goals
    obtain ⟨said, pending, hall⟩ := hstart h.1 h.2 (by simp [hn])
    exact ⟨said, pending, by rwa [hn] at hall⟩

end Client

open Client

/-- **The client's protocol under signals.** In a run whose signals come when the identity
is set and no text waits in the buffer, and whose loop never writes without a line, the
server receives one join request and whole messages behind it, all of them signed; the
messages of `main` are the hello, unless in `TEST` mode, and every line that `fgets` has
stored, once and in order; and there is one heart for each signal. -/
theorem client_protocol {args : Arguments} {input : List UInt8} {s t : Client}
    {ms : List ClientMove} (hs : s.Initial input) (hname : (0 : UInt8) ∉ args.name)
    (hkeeps : (client args).Always KeepsProtocol s ms) (hrun : (client args).run s ms = some t) :
    (t.stream = [] ∧ t.sent = [] ∨
      t.stream = t.request.toList ++ messageCodec.encodeAll (t.sent.map Prod.snd)) ∧
    (∀ x ∈ t.sent, Signed args t.response x.2) ∧
    (∃ said pending, said ++ pending = script args t.lines ∧ List.Forall₂ Says t.written said ∧
      pending.length ≤ 1 ∧ (t.next = .fgets → pending = [])) ∧
    (∀ x ∈ t.sent, x.1 = .heart → x.2.Holds heartText) ∧
    t.sent.countP (fun x => x.1 = .heart) = ms.countP IsSignal ∧
    inputLines input = t.lines ++ inputLines t.stdin := by
  obtain ⟨h, hcount⟩ := hs.protocol_of_run hname hkeeps hrun
  refine ⟨?_, h.identity.sent, h.progress.exists_pending, h.hearts, hcount, h.accounted⟩
  have hstream := h.wire.stream
  split_ifs at hstream with hrank
  · exact Or.inl ⟨hstream, h.wire.silent (by omega)⟩
  · exact Or.inr hstream

/-- The next statements of `main`, at the time `0` and with a response if they read it. -/
def statements (n : ℕ) : List ClientMove := List.replicate n (.main ⟨0, 0⟩ ⟨3, 1⟩)

/-- A signal before the hello and one before the first line. -/
def twoSignals : List ClientMove :=
  statements 9 ++ [.sigusr1 ⟨0, 0⟩] ++ statements 3 ++ [.sigusr1 ⟨0, 0⟩] ++ statements 3

/-- Two hearts, the hello and the line are sent. -/
theorem client_protocol_twoSignals :
    ∃ t, (client ⟨[114], [103], .prod⟩).run (start [104, 105, 10]) twoSignals = some t ∧
      t.sent.length = 4 ∧
      t.stream = t.request.toList ++ messageCodec.encodeAll (t.sent.map Prod.snd) ∧
      t.sent.countP (fun x => x.1 = .heart) = 2 := by
  obtain ⟨t, hrun, hsent⟩ : ∃ t, (client ⟨[114], [103], .prod⟩).run (start [104, 105, 10])
      twoSignals = some t ∧ t.sent.length = 4 :=
    StepSystem.exists_run (by decide +kernel)
  obtain ⟨hstream, -, -, -, hhearts, -⟩ :=
    client_protocol (initial_start _) (by decide) (by decide +kernel) hrun
  refine ⟨t, hrun, hsent, ?_, hhearts⟩
  rcases hstream with ⟨-, hnil⟩ | hstream
  · simp [hnil] at hsent
  · exact hstream

/-- A signal between `fgets` and the write. -/
def signalBetween : List ClientMove :=
  statements 10 ++ [.sigusr1 ⟨0, 0⟩] ++ statements 2

/-- **A line is overwritten**: the signal comes when `fgets` has stored the line and
before it is written. The heart is sent twice, and the line is not. -/
theorem exists_run_line_overwritten :
    ¬∀ (args : Arguments) (input : List UInt8) (s t : Client) (ms : List ClientMove),
      s.Initial input → (0 : UInt8) ∉ args.name → (client args).run s ms = some t →
        ∃ said pending, said ++ pending = script args t.lines ∧ List.Forall₂ Says t.written said ∧
          pending.length ≤ 1 ∧ (t.next = .fgets → pending = []) := by
  obtain ⟨t, hrun, hnext, hlines, hholds⟩ : ∃ t,
      (client ⟨[114], [103], .test⟩).run (start [104, 105, 10]) signalBetween = some t ∧
        t.next = .fgets ∧ t.lines = [[104, 105, 10]] ∧
        ∀ x ∈ t.written, ¬x.2.Holds [104, 105, 10] :=
    StepSystem.exists_run (by decide +kernel)
  intro hall
  obtain ⟨said, pending, hscript, hsaid, -, hpending⟩ :=
    hall ⟨[114], [103], .test⟩ _ _ t signalBetween (initial_start _) (by decide) hrun
  rw [hpending hnext, List.append_nil, hlines, script, if_pos rfl] at hscript
  rw [hscript] at hsaid
  obtain ⟨x, xs, hsays, -, hwritten⟩ := List.forall₂_cons_right_iff.mp hsaid
  exact hholds x (by rw [hwritten]; exact List.mem_cons_self) hsays.2

end GroupChat
