import GroupChat.Client.Model

/-!
# The input loop

What `main` makes of standard input when no signal arrives. `fgets` takes the input in
lines of at most `199` bytes, and every line is sent before the next is taken: the texts
of the messages are the input, as far as it has come. But `main` does not look at what
`fgets` returns. When the input has come to its end the buffer keeps what it held, and
the loop sends it again, for ever.

The condition that separates the two (`GroupChat.Client.HasLine`) compares what `fgets`
has stored with what has been sent. Over a whole run it is a matter of numbers: the loop
has not written more often than the input has lines
(`GroupChat.Client.Initial.always_hasLine_iff`).
-/

namespace GroupChat

open BoundedLines CString

namespace Client

variable {args : Arguments} {input : List UInt8} {s t : Client} {ms : List ClientMove}

/-- The lines that `fgets` takes from an input. -/
def inputLines (input : List UInt8) : List (List UInt8) := BoundedLines.lines (· == 10) 198 input

/-- The messages that the input loop has sent. -/
def loopMessages (s : Client) : List Message :=
  (s.sent.filter fun x => x.1 = .line).map Prod.snd

/-- Their texts, read as C strings. -/
def loopTexts (s : Client) : List (List UInt8) :=
  s.loopMessages.map fun m => text m.message.toList

/-- The text in the buffer. -/
def bufferText (s : Client) : List UInt8 := text s.message.message.toList

/-- `main` is in its loop. -/
def InLoop (s : Client) : Prop := s.next = .fgets ∨ s.next = .setTime ∨ s.next = .send

instance (s : Client) : Decidable s.InLoop := inferInstanceAs (Decidable (_ ∨ _))

/-! ### The statements, one by one -/

theorem exec_main {now : Timeval} {response : JoinResponse}
    (h : (client args).exec s (.main now response) = some t) :
    s.next ≠ .exited ∧ s.main args now response = some t :=
  StepSystem.exec_eq_some.mp h

/-- The statements before the loop send none of its messages. -/
theorem main_setup {now : Timeval} {response : JoinResponse} (hs : ¬s.InLoop)
    (h : s.main args now response = some t) (hsd : s.next = .sendHello → s.sd = .connected) :
    t.loopMessages = s.loopMessages ∧ t.next ≠ .setTime ∧ t.next ≠ .send := by
  unfold InLoop at hs
  cases hn : s.next
  all_goals simp only [main, hn] at h
  case fgets => exact absurd (Or.inl hn) hs
  case setTime => exact absurd (Or.inr (Or.inl hn)) hs
  case send => exact absurd (Or.inr (Or.inr hn)) hs
  case copyName | copyGroup =>
    obtain ⟨_, -, rfl⟩ := Option.map_eq_some_iff.mp h
    exact ⟨rfl, by simp, by simp⟩
  case setName =>
    obtain ⟨_, -, rfl⟩ := Option.map_eq_some_iff.mp h
    refine ⟨rfl, ?_, ?_⟩
    all_goals
      rw [next_goto]
      split_ifs <;> simp
  case helloText =>
    obtain ⟨_, htext, rfl⟩ := Option.map_eq_some_iff.mp h
    obtain ⟨_, -, rfl⟩ := setText_cases htext
    exact ⟨rfl, by simp, by simp⟩
  case sendHello =>
    obtain rfl := Option.some.inj h
    simp [writeMessage, hsd hn, goto, loopMessages]
  case exited =>
    obtain rfl := Option.some.inj h
    exact ⟨rfl, by simp [hn], by simp [hn]⟩
  all_goals
    obtain rfl := Option.some.inj h
    exact ⟨rfl, by simp, by simp⟩

/-- The first of the lines is what `fgets` takes. -/
theorem inputLines_of_ne_nil (h : input ≠ []) :
    inputLines input = (takeLine input).1 :: inputLines (takeLine input).2 :=
  lines_of_ne_nil h

/-- **The accounts of the input**: the lines taken are the first ones, and the others
are still to come. -/
theorem accounted_main {now : Timeval} {response : JoinResponse}
    (h : inputLines input = s.lines ++ inputLines s.stdin)
    (hmain : s.main args now response = some t) :
    inputLines input = t.lines ++ inputLines t.stdin := by
  by_cases hn : s.next = .fgets
  · simp only [main, hn] at hmain
    obtain ⟨u, hu, rfl⟩ := Option.map_eq_some_iff.mp hmain
    obtain ⟨-, rfl⟩ | ⟨hne, _, -, rfl⟩ := fgets_cases hu
    · exact h
    · change inputLines input =
        (s.lines ++ [(takeLine s.stdin).1]) ++ inputLines (takeLine s.stdin).2
      rw [h, inputLines_of_ne_nil hne, List.append_assoc]
      rfl
  · obtain ⟨hstdin, hlines⟩ := stdin_main hn hmain
    rw [hstdin, hlines, h]

/-- **`fgets` with input** stores the next of the lines. -/
theorem fgets_of_ne_nil (hclean : (0 : UInt8) ∉ s.stdin) (hne : s.stdin ≠ [])
    (h : s.fgets = some t) :
    (0 : UInt8) ∉ t.stdin ∧ t.lines = s.lines ++ [t.bufferText] ∧ t.loopTexts = s.loopTexts := by
  obtain ⟨hnil, -⟩ | ⟨-, buffer, hput, rfl⟩ := fgets_cases h
  · exact absurd hnil hne
  · rw [← takeLine_append s.stdin, List.mem_append, not_or] at hclean
    have hbuffer : text buffer.toList = (takeLine s.stdin).1 :=
      (read_eq_some.mp (read_of_put hput hclean.1)).2
    refine ⟨hclean.2, ?_, rfl⟩
    rw [bufferText, hbuffer]

/-! ### Keeping in step with the input -/

/-- What holds of the input in every quiet run. -/
structure Reading (input : List UInt8) (s : Client) : Prop where
  connected : s.Connected
  clean : (0 : UInt8) ∉ s.stdin
  accounted : inputLines input = s.lines ++ inputLines s.stdin

/-- Every line taken has been sent, except for one that is in the buffer. -/
def InStep (s : Client) : Prop :=
  s.lines = s.loopTexts ++ if s.next = .setTime ∨ s.next = .send then [s.bufferText] else []

/-- Between `fgets` and the write there is a line in the buffer. -/
theorem inStep_iff_of_holding (hs : s.next = .setTime ∨ s.next = .send) :
    s.InStep ↔ s.lines = s.loopTexts ++ [s.bufferText] := by
  rw [InStep, if_pos hs]

theorem inStep_iff (hs : ¬(s.next = .setTime ∨ s.next = .send)) :
    s.InStep ↔ s.lines = s.loopTexts := by
  rw [InStep, if_neg hs, List.append_nil]

theorem Reading.connected_of_inLoop (h : s.Reading input) (hs : s.InLoop) : s.sd = .connected := by
  rcases hs with hn | hn | hn <;> exact h.connected (by simp [hn]) (by simp [hn])

theorem Initial.reading (h : s.Initial input) (hclean : (0 : UInt8) ∉ input) :
    s.Reading input where
  connected hn := absurd h.next hn
  clean := h.stdin ▸ hclean
  accounted := by rw [h.lines, h.stdin, List.nil_append]

theorem Initial.inStep (h : s.Initial input) : s.InStep := by
  simp [InStep, h.lines, h.next, loopTexts, loopMessages, h.sent]

theorem Reading.main (h : s.Reading input) {now : Timeval} {response : JoinResponse}
    (hmain : s.main args now response = some t) : t.Reading input := by
  refine ⟨h.connected.main hmain, ?_, accounted_main h.accounted hmain⟩
  by_cases hn : s.next = .fgets
  · simp only [Client.main, hn] at hmain
    obtain ⟨u, hu, rfl⟩ := Option.map_eq_some_iff.mp hmain
    by_cases hnil : s.stdin = []
    · obtain rfl : s = u := Option.some.inj ((fgets_of_nil hnil).symm.trans hu)
      exact h.clean
    · exact (fgets_of_ne_nil h.clean hnil hu).1
  · exact (stdin_main hn hmain).1 ▸ h.clean

/-- **As long as there is input, `main` keeps in step with it.** -/
theorem InStep.main (h : s.InStep) (hreading : s.Reading input) {now : Timeval}
    {response : JoinResponse} (hinput : s.next = .fgets → s.stdin ≠ [])
    (hmain : s.main args now response = some t) : t.InStep := by
  by_cases hs : s.InLoop
  · rcases hs with hn | hn | hn
    · simp only [Client.main, hn] at hmain
      obtain ⟨u, hu, rfl⟩ := Option.map_eq_some_iff.mp hmain
      obtain ⟨-, htaken, htexts⟩ := fgets_of_ne_nil hreading.clean (hinput hn) hu
      have hlines := (inStep_iff (by simp [hn])).mp h
      refine (inStep_iff_of_holding (Or.inl rfl)).mpr ?_
      change u.lines = u.loopTexts ++ [u.bufferText]
      rw [htaken, htexts, hlines]
    · simp only [Client.main, hn, Option.some.injEq] at hmain
      subst hmain
      exact (inStep_iff_of_holding (Or.inr rfl)).mpr ((inStep_iff_of_holding (Or.inl hn)).mp h)
    · have hsd : s.sd = .connected := hreading.connected_of_inLoop (Or.inr (Or.inr hn))
      simp only [Client.main, hn, Option.some.injEq, writeMessage, hsd] at hmain
      subst hmain
      refine (inStep_iff (by simp [goto])).mpr (((inStep_iff_of_holding (Or.inr hn)).mp h).trans ?_)
      simp [goto, loopTexts, loopMessages, bufferText]
  · obtain ⟨hmessages, hn, hn'⟩ := main_setup hs hmain
      fun hn => hreading.connected (by simp [hn]) (by simp [hn])
    have hlines := (stdin_main (fun hn => hs (Or.inl hn)) hmain).2
    have hs' : ¬(s.next = .setTime ∨ s.next = .send) := fun hcon => hs (Or.inr hcon)
    refine (inStep_iff (not_or.mpr ⟨hn, hn'⟩)).mpr ?_
    rw [loopTexts, hmessages, hlines]
    exact (inStep_iff hs').mp h

/-! ### Lines and writes, counted -/

/-- As long as there is input, every line taken has been written, but for one in hand. -/
structure Turns (input : List UInt8) (s : Client) : Prop where
  connected : s.next ≠ .exited → s.Connected
  accounted : inputLines input = s.lines ++ inputLines s.stdin
  taken : s.stdin ≠ [] → s.lines.length =
    s.loopMessages.length + if s.next = .setTime ∨ s.next = .send then 1 else 0

theorem Initial.turns (h : s.Initial input) : s.Turns input where
  connected _ hn := absurd h.next hn
  accounted := by rw [h.lines, h.stdin, List.nil_append]
  taken _ := by simp [h.lines, h.next, loopMessages, h.sent]

/-- **A statement of `main`** writes one message of the loop, or none. -/
theorem Turns.main (h : s.Turns input) (hnext : s.next ≠ .exited) {now : Timeval}
    {response : JoinResponse} (hmain : s.main args now response = some t) :
    t.Turns input ∧
      t.loopMessages.length = s.loopMessages.length + if s.next = .send then 1 else 0 := by
  have hconn := h.connected hnext
  have hnew := hconn.main hmain
  have haccounted := accounted_main h.accounted hmain
  have htaken := h.taken
  by_cases hs : s.InLoop
  · rcases hs with hn | hn | hn
    · simp only [Client.main, hn] at hmain
      obtain ⟨u, hu, rfl⟩ := Option.map_eq_some_iff.mp hmain
      obtain ⟨hnil, rfl⟩ | ⟨hne, buffer, -, rfl⟩ := fgets_cases hu
      · refine ⟨⟨fun _ => hnew, haccounted, fun hcon => absurd hnil hcon⟩, ?_⟩
        simp [hn, goto, loopMessages]
      · refine ⟨⟨fun _ => hnew, haccounted, fun _ => ?_⟩, by simp [hn, goto, loopMessages]⟩
        have hlen := htaken hne
        simp only [hn, reduceCtorEq, or_self, if_false, Nat.add_zero] at hlen
        simp [goto, hlen, loopMessages]
    · simp only [Client.main, hn, Option.some.injEq] at hmain
      subst hmain
      simp only [hn, true_or, if_true] at htaken
      refine ⟨⟨fun _ => hnew, haccounted, fun hne => ?_⟩, ?_⟩
      · simpa [goto, loopMessages, Client.setTime] using htaken hne
      · simp [hn, goto, loopMessages, Client.setTime]
    · have hsd : s.sd = .connected := hconn (by simp [hn]) (by simp [hn])
      simp only [Client.main, hn, Option.some.injEq, writeMessage, hsd] at hmain
      subst hmain
      simp only [hn, or_true, if_true] at htaken
      refine ⟨⟨fun _ => hnew, haccounted, fun hne => ?_⟩, by simp [hn, goto, loopMessages]⟩
      simpa [goto, loopMessages] using htaken hne
  · obtain ⟨hmessages, hn, hn'⟩ := main_setup hs hmain
      fun hn => hconn (by simp [hn]) (by simp [hn])
    obtain ⟨hstdin, hlines⟩ := stdin_main (fun hn => hs (Or.inl hn)) hmain
    have hs' : ¬(s.next = .setTime ∨ s.next = .send) := fun hcon => hs (Or.inr hcon)
    refine ⟨⟨fun _ => hnew, haccounted, fun hne => ?_⟩, ?_⟩
    · rw [hmessages, hlines, htaken (hstdin ▸ hne), if_neg hs', if_neg (not_or.mpr ⟨hn, hn'⟩)]
    · rw [hmessages, if_neg fun hsend => hs (Or.inr (Or.inr hsend)), Nat.add_zero]

/-- A signal is none of the messages of the loop. -/
theorem Turns.handleMy (h : s.Turns input) (hnext : s.next ≠ .exited) {now : Timeval}
    (ht : s.handleMy now = some t) : t.Turns input ∧ t.loopMessages = s.loopMessages := by
  obtain ⟨u, hu, rfl⟩ := Option.map_eq_some_iff.mp ht
  obtain ⟨buffer, -, rfl⟩ := setText_cases hu
  have hconn := h.connected hnext
  have hsame : ∀ m : Message, (s.sent ++ [(Sender.heart, m)]).filter
      (fun x => x.1 = Sender.line) = s.sent.filter fun x => x.1 = Sender.line := by
    simp [List.filter_append]
  cases hsd : s.sd
  all_goals simp only [writeMessage, Client.setTime]
  case zero =>
    exact ⟨⟨fun _ hn hn' => hsd.symm.trans (hconn hn hn'), h.accounted, h.taken⟩, rfl⟩
  case unconnected =>
    -- the process ends, and it had not come to the loop
    have hloop : ¬(s.next = .setTime ∨ s.next = .send) := by
      rintro (hn | hn)
      all_goals
        have hcon := hconn (by simp [hn]) (by simp [hn])
        simp [hsd] at hcon
    refine ⟨⟨fun hn => absurd rfl hn, h.accounted, fun hne => ?_⟩, rfl⟩
    simpa [if_neg hloop, loopMessages] using h.taken hne
  case connected =>
    refine ⟨⟨fun _ _ _ => rfl, h.accounted, fun hne => ?_⟩, ?_⟩
    · simpa [loopMessages, hsame] using h.taken hne
    · simp [loopMessages, hsame]

theorem Turns.step (h : s.Turns input) {m : ClientMove} (hexec : (client args).exec s m = some t) :
    t.Turns input ∧ s.loopMessages.length ≤ t.loopMessages.length := by
  obtain ⟨hnext, heffect⟩ := StepSystem.exec_eq_some.mp hexec
  cases m with
  | main now response =>
    obtain ⟨hturns, hlen⟩ := h.main hnext heffect
    exact ⟨hturns, hlen ▸ Nat.le_add_right _ _⟩
  | sigusr1 now =>
    obtain ⟨hturns, hmessages⟩ := h.handleMy hnext heffect
    exact ⟨hturns, hmessages ▸ le_rfl⟩

/-! ### Whole runs -/

/-- A run without signals. -/
def Quiet (ms : List ClientMove) : Prop := ∀ m ∈ ms, ∀ now, m ≠ .sigusr1 now

theorem Quiet.exists_eq (h : Quiet ms) {m : ClientMove} (hm : m ∈ ms) :
    ∃ now response, m = .main now response := by
  cases m with
  | main now response => exact ⟨now, response, rfl⟩
  | sigusr1 now => exact absurd rfl (h _ hm now)

theorem Quiet.of_append_left {ns : List ClientMove} (h : Quiet (ms ++ ns)) : Quiet ms :=
  fun m hm => h m (List.mem_append_left _ hm)

theorem Quiet.of_append_right {ns : List ClientMove} (h : Quiet (ms ++ ns)) : Quiet ns :=
  fun m hm => h m (List.mem_append_right _ hm)

/-- A quiet run keeps the accounts, and as long as it has not come to `fgets` without
input it keeps in step. -/
theorem Initial.reading_of_run (h : s.Initial input) (hclean : (0 : UInt8) ∉ input)
    (hquiet : Quiet ms) (hrun : (client args).run s ms = some t) :
    t.Reading input ∧ (t.InStep ∨ ∃ pre u, pre <+: ms ∧ (client args).run s pre = some u ∧
      u.next = .fgets ∧ u.stdin = []) := by
  refine StepSystem.run_history
    (P := fun ms t => Quiet ms → t.Reading input ∧ (t.InStep ∨ ∃ pre u, pre <+: ms ∧
      (client args).run s pre = some u ∧ u.next = .fgets ∧ u.stdin = []))
    (fun _ => ⟨h.reading hclean, Or.inl h.inStep⟩) ?_ hrun hquiet
  intro ms m u v hrun ih hexec hquiet
  obtain ⟨hreading, hcases⟩ := ih hquiet.of_append_left
  obtain ⟨now, response, rfl⟩ := hquiet.exists_eq
    (List.mem_append_right _ (List.mem_singleton_self m))
  obtain ⟨-, hmain⟩ := exec_main hexec
  refine ⟨hreading.main hmain, ?_⟩
  rcases hcases with hstep | ⟨pre, w, hpre, hw⟩
  · by_cases hinput : u.next = .fgets ∧ u.stdin = []
    · exact Or.inr ⟨ms, u, List.prefix_append ms _, hrun, hinput⟩
    · exact Or.inl (hstep.main hreading (fun hn hnil => hinput ⟨hn, hnil⟩) hmain)
  · exact Or.inr ⟨pre, w, hpre.trans (List.prefix_append ms _), hw⟩

/-- Without input, and with every line sent. -/
structure Drained (s : Client) : Prop where
  inLoop : s.InLoop
  stdin : s.stdin = []
  lines : s.lines = s.loopTexts

/-- The condition on a step: when the loop writes, there is a line taken and not sent. -/
def HasLine (s : Client) (_ : ClientMove) : Prop :=
  s.next = .send → s.loopMessages.length < s.lines.length

instance (s : Client) (m : ClientMove) : Decidable (HasLine s m) :=
  inferInstanceAs (Decidable (_ → _))

/-- The condition on a step of `main`: when the loop writes, `fgets` has found a line. -/
def WritesLine (s : Client) : ClientMove → Prop
  | .main now response => HasLine s (.main now response)
  | .sigusr1 _ => True

/-- **Lines and writes.** Whatever signals come, the loop has always had a line to write if
and only if it has not written more often than the input has lines. -/
theorem Initial.always_writesLine_iff (h : s.Initial input)
    (hrun : (client args).run s ms = some t) :
    (client args).Always WritesLine s ms ↔
      t.loopMessages.length ≤ (inputLines input).length := by
  constructor
  · intro hall
    refine (StepSystem.run_invariant (I := fun u : Client => u.Turns input ∧
      u.loopMessages.length ≤ (inputLines input).length) ?_ ⟨h.turns, ?_⟩ hall hrun).2
    · rintro u m v ⟨hturns, hle⟩ hwrites hexec
      refine ⟨(hturns.step hexec).1, ?_⟩
      obtain ⟨hnext, heffect⟩ := StepSystem.exec_eq_some.mp hexec
      cases m with
      | main now response =>
        rw [(hturns.main hnext heffect).2]
        split_ifs with hsend
        · have hlt := hwrites hsend
          rw [hturns.accounted, List.length_append]
          omega
        · exact hle
      | sigusr1 now => exact (hturns.handleMy hnext heffect).2 ▸ hle
    · simp [loopMessages, h.sent]
  · intro hle
    refine StepSystem.always_iff_prefixes.mpr ?_
    rintro pre m u ⟨post, rfl⟩ hu
    obtain ⟨v, hv, hpost⟩ := StepSystem.run_append_eq_some.mp hrun
    obtain ⟨u', hu', hexec⟩ := StepSystem.run_concat_eq_some.mp hv
    obtain rfl := Option.some.inj (hu.symm.trans hu')
    have hturns : u.Turns input :=
      StepSystem.run_invariant' (fun _ _ _ hs hexec => (Turns.step hs hexec).1) h.turns hu
    obtain ⟨hnext, heffect⟩ := StepSystem.exec_eq_some.mp hexec
    cases m with
    | sigusr1 => trivial
    | main now response =>
      intro hsend
      obtain ⟨hnew, hone⟩ := hturns.main hnext heffect
      rw [if_pos hsend] at hone
      -- what has been written stays written
      have hmore : v.loopMessages.length ≤ t.loopMessages.length :=
        (StepSystem.run_invariant' (I := fun w : Client => w.Turns input ∧
          v.loopMessages.length ≤ w.loopMessages.length)
          (fun _ _ _ hs hexec => ⟨(hs.1.step hexec).1, hs.2.trans (hs.1.step hexec).2⟩)
          ⟨hnew, le_rfl⟩ hpost).2
      by_cases hnil : u.stdin = []
      · -- all lines have been taken
        rw [hturns.accounted, hnil, List.length_append] at hle
        have hempty : (inputLines []).length = 0 := by simp [inputLines]
        omega
      · rw [hturns.taken hnil, if_pos (Or.inr hsend)]
        exact Nat.lt_succ_self _

/-- Under the condition, who is drained stays drained and sends nothing. -/
theorem Drained.main (h : s.Drained) {m : ClientMove} (hline : HasLine s m) {now : Timeval}
    {response : JoinResponse} (hmain : s.main args now response = some t) :
    t.Drained ∧ t.sent = s.sent := by
  rcases h.inLoop with hn | hn | hn
  · simp only [Client.main, hn, fgets_of_nil h.stdin, Option.map_some, Option.some.injEq] at hmain
    subst hmain
    exact ⟨⟨Or.inr (Or.inl rfl), h.stdin, h.lines⟩, rfl⟩
  · simp only [Client.main, hn, Option.some.injEq] at hmain
    subst hmain
    exact ⟨⟨Or.inr (Or.inr rfl), h.stdin, h.lines⟩, rfl⟩
  · have hlt := hline hn
    rw [h.lines, loopTexts, List.length_map] at hlt
    exact absurd hlt (Nat.lt_irrefl _)

/-- Under the condition, a quiet run keeps in step until it is drained. -/
theorem InStep.drains (h : s.InStep ∨ s.Drained) (hreading : s.Reading input) {m : ClientMove}
    (hline : HasLine s m) {now : Timeval} {response : JoinResponse}
    (hmain : s.main args now response = some t) : t.InStep ∨ t.Drained := by
  rcases h with hstep | hdrained
  · by_cases hinput : s.next = .fgets ∧ s.stdin = []
    · have hlines := (inStep_iff (by simp [hinput.1])).mp hstep
      exact Or.inr (Drained.main ⟨Or.inl hinput.1, hinput.2, hlines⟩ hline hmain).1
    · exact Or.inl (hstep.main hreading (fun hn hnil => hinput ⟨hn, hnil⟩) hmain)
  · exact Or.inr (hdrained.main hline hmain).1

/-- What has been sent is the first part of the input. -/
theorem Reading.texts_first (hreading : s.Reading input) (h : s.InStep ∨ s.Drained) :
    s.loopTexts.flatten <+: input := by
  have htexts : s.loopTexts <+: s.lines := by
    rcases h with hstep | hdrained
    · rw [hstep]
      exact List.prefix_append _ _
    · exact hdrained.lines ▸ List.prefix_refl _
  obtain ⟨more, hmore⟩ := htexts
  refine ⟨more.flatten ++ (inputLines s.stdin).flatten, ?_⟩
  have hinput := congrArg List.flatten hreading.accounted
  rw [← hmore, inputLines, flatten_lines, List.flatten_append, List.flatten_append,
    List.append_assoc] at hinput
  exact hinput.symm

theorem Quiet.always (h : Quiet ms) :
    (client args).Always (fun _ m => ∃ now response, m = .main now response) s ms := by
  induction ms generalizing s with
  | nil => trivial
  | cons m ms ih =>
    exact ⟨h.exists_eq List.mem_cons_self,
      fun _ _ => ih fun m' hm' => h m' (List.mem_cons_of_mem m hm')⟩

/-- In a run without signals, `HasLine` counts lines and writes. -/
theorem Initial.always_hasLine_iff (h : s.Initial input) (hquiet : Quiet ms)
    (hrun : (client args).run s ms = some t) :
    (client args).Always HasLine s ms ↔ t.loopMessages.length ≤ (inputLines input).length := by
  rw [← h.always_writesLine_iff hrun]
  constructor
  · refine StepSystem.Always.mono ?_
    rintro u (_ | _) hline
    · exact hline
    · trivial
  · intro hwrites
    refine StepSystem.Always.mono ?_ (StepSystem.always_and.mpr ⟨hwrites, hquiet.always⟩)
    rintro u _ ⟨hline, now, response, rfl⟩
    exact hline

/-- **A run under the condition** keeps in step until it is drained. -/
theorem Initial.drains_of_run (h : s.Initial input) (hclean : (0 : UInt8) ∉ input)
    (hquiet : Quiet ms) (hline : (client args).Always HasLine s ms)
    (hrun : (client args).run s ms = some t) :
    t.Reading input ∧ (t.InStep ∨ t.Drained) := by
  refine StepSystem.run_invariant (I := fun u : Client => u.Reading input ∧ (u.InStep ∨ u.Drained))
    ?_ ⟨h.reading hclean, Or.inl h.inStep⟩ (StepSystem.always_and.mpr ⟨hline, hquiet.always⟩) hrun
  rintro u _ v ⟨hreading, hcases⟩ ⟨hline, now, response, rfl⟩ hexec
  obtain ⟨-, hmain⟩ := exec_main hexec
  exact ⟨hreading.main hmain, InStep.drains hcases hreading hline hmain⟩

/-- Who is drained sends nothing for the rest of a run under the condition. -/
theorem Drained.sent_of_run (h : s.Drained) (hquiet : Quiet ms)
    (hline : (client args).Always HasLine s ms) (hrun : (client args).run s ms = some t) :
    t.sent = s.sent := by
  refine (StepSystem.run_invariant (I := fun u : Client => u.Drained ∧ u.sent = s.sent) ?_ ⟨h, rfl⟩
    (StepSystem.always_and.mpr ⟨hline, hquiet.always⟩) hrun).2
  rintro u _ v ⟨hdrained, hsent⟩ ⟨hline, now, response, rfl⟩ hexec
  obtain ⟨hdrained', hsent'⟩ := hdrained.main hline (exec_main hexec).2
  exact ⟨hdrained', hsent'.trans hsent⟩

theorem sent_of_run (hquiet : Quiet ms) (hrun : (client args).run s ms = some t) :
    s.sent <+: t.sent := by
  refine StepSystem.run_invariant (I := fun u : Client => s.sent <+: u.sent) ?_
    (List.prefix_refl _) hquiet.always hrun
  rintro u _ v hsent ⟨now, response, rfl⟩ hexec
  obtain ⟨more, hmore, -⟩ := sent_main (exec_main hexec).2
  exact hsent.trans ⟨more, hmore.symm⟩

/-- A write of the loop sends a message. -/
theorem Reading.length_sent (h : s.Reading input) (hsend : s.next = .send) {m : ClientMove}
    (hquiet : Quiet [m]) (hexec : (client args).exec s m = some t) :
    t.sent.length = s.sent.length + 1 := by
  obtain ⟨now, response, rfl⟩ := hquiet.exists_eq (List.mem_singleton_self m)
  have hmain := (exec_main hexec).2
  have hsd := h.connected_of_inLoop (Or.inr (Or.inr hsend))
  simp only [Client.main, hsend, Option.some.injEq, writeMessage, hsd] at hmain
  subst hmain
  simp [goto]

end Client

open Client

/-- At every point of a run the texts that the loop has sent are, put together, the first
part of the input, and from when `fgets` is called without input nothing is sent. -/
structure FaithfulInput (args : Arguments) (input : List UInt8) (s : Client)
    (ms : List ClientMove) (t : Client) : Prop where
  first : ∀ pre u, pre <+: ms → (client args).run s pre = some u →
    u.loopTexts.flatten <+: input
  silent : ∀ pre u, pre <+: ms → (client args).run s pre = some u →
    u.next = .fgets → u.stdin = [] → t.sent = u.sent

/-- A write of the loop that comes after a call of `fgets` without input is one too many. -/
theorem FaithfulInput.not_written_after {args : Arguments} {input : List UInt8} {s t u : Client}
    {ms pre : List ClientMove} {m : ClientMove} (h : FaithfulInput args input s ms t)
    (hquiet : Quiet ms) (hrun : (client args).run s ms = some t) (hpre : pre ++ [m] <+: ms)
    (hu : (client args).run s pre = some u) (hreading : u.Reading input) (hsend : u.next = .send) :
    ¬∃ pre' w, pre' <+: pre ∧ (client args).run s pre' = some w ∧ w.next = .fgets ∧
      w.stdin = [] := by
  rintro ⟨pre', w, ⟨between, rfl⟩, hw, hnext, hstdin⟩
  obtain ⟨rest, rfl⟩ := hpre
  have hsent := h.silent pre' w ⟨between ++ [m] ++ rest, by simp⟩ hw hnext hstdin
  obtain ⟨v, hv, hrest⟩ := StepSystem.run_append_eq_some.mp hrun
  obtain ⟨u', hu', hexec⟩ := StepSystem.run_concat_eq_some.mp hv
  obtain rfl := Option.some.inj (hu.symm.trans hu')
  obtain ⟨w', hw', hback⟩ := StepSystem.run_append_eq_some.mp hu
  obtain rfl := Option.some.inj (hw.symm.trans hw')
  -- what is sent never gets less, and the write makes it more
  have hbefore := (sent_of_run hquiet.of_append_left.of_append_left.of_append_right
    hback).length_le
  have hafter := (sent_of_run hquiet.of_append_right hrest).length_le
  have hone := hreading.length_sent hsend hquiet.of_append_left.of_append_right hexec
  rw [hsent] at hafter
  omega

/-- **Fidelity of the input loop.** A run without signals sends its input as it is, and
nothing further, if and only if the loop never writes without a line that has been taken
and not sent. It does so as soon as it writes after `fgets` has returned `NULL`. -/
theorem input_fidelity_iff {args : Arguments} {input : List UInt8} {s t : Client}
    {ms : List ClientMove} (hs : s.Initial input) (hclean : (0 : UInt8) ∉ input)
    (hquiet : Quiet ms) (hrun : (client args).run s ms = some t) :
    FaithfulInput args input s ms t ↔ (client args).Always HasLine s ms := by
  constructor
  · intro h
    refine StepSystem.always_iff_prefixes.mpr ?_
    intro pre m u hpre hu hsend
    have hquiet' : Quiet pre := fun m' hm' => hquiet m' (hpre.subset (List.mem_append_left _ hm'))
    obtain ⟨hreading, hstep | hafter⟩ := hs.reading_of_run hclean hquiet' hu
    · rw [(inStep_iff_of_holding (Or.inr hsend)).mp hstep, List.length_append, loopTexts,
        List.length_map]
      exact Nat.lt_succ_self _
    · exact absurd hafter (h.not_written_after hquiet hrun hpre hu hreading hsend)
  · intro hline
    constructor
    · rintro pre u ⟨rest, rfl⟩ hu
      obtain ⟨hreading, hcases⟩ := hs.drains_of_run hclean hquiet.of_append_left
        (StepSystem.always_append.mp hline).1 hu
      exact hreading.texts_first hcases
    · rintro pre u ⟨rest, rfl⟩ hu hnext hstdin
      obtain ⟨hline, hline'⟩ := StepSystem.always_append.mp hline
      obtain ⟨v, hv, hrest⟩ := StepSystem.run_append_eq_some.mp hrun
      obtain rfl := Option.some.inj (hu.symm.trans hv)
      obtain ⟨-, hcases⟩ := hs.drains_of_run hclean hquiet.of_append_left hline hu
      have hdrained : u.Drained := by
        rcases hcases with hstep | hdrained
        · exact ⟨Or.inl hnext, hstdin, (inStep_iff (by simp [hnext])).mp hstep⟩
        · exact hdrained
      exact hdrained.sent_of_run hquiet.of_append_right (hline' u hu) hrest

/-- A client in `TEST` mode, whose input is one line. -/
def lineArguments : Arguments := ⟨[114], [103], .test⟩

/-- The nine statements before the loop, and two turns of the loop. -/
def twoTurns : List ClientMove := List.replicate 15 (.main ⟨0, 0⟩ ⟨3, 1⟩)

/-- After one turn the line has been sent, and nothing else. -/
theorem input_fidelity_iff_oneTurn :
    ∃ t, (client lineArguments).run (start [104, 105, 10]) (twoTurns.take 12) = some t ∧
      t.sent.length = 1 ∧
      FaithfulInput lineArguments [104, 105, 10] (start [104, 105, 10]) (twoTurns.take 12) t := by
  obtain ⟨t, hrun, hsent⟩ : ∃ t, (client lineArguments).run (start [104, 105, 10])
      (twoTurns.take 12) = some t ∧ t.sent.length = 1 :=
    StepSystem.exists_run (by decide +kernel)
  have hquiet : Quiet (twoTurns.take 12) := by
    intro m hm now
    have := List.eq_of_mem_replicate (List.mem_of_mem_take hm)
    simp [this]
  exact ⟨t, hrun, hsent, (input_fidelity_iff (initial_start _) (by decide) hquiet hrun).mpr
    (by decide +kernel)⟩

/-- **A line is sent twice**: in the second turn `fgets` has nothing to store, and the
loop sends the line again. -/
theorem exists_run_line_twice :
    ¬∀ (args : Arguments) (input : List UInt8) (s t : Client) (ms : List ClientMove),
      s.Initial input → (0 : UInt8) ∉ input → Quiet ms → (client args).run s ms = some t →
        FaithfulInput args input s ms t := by
  obtain ⟨t, hrun, htexts⟩ : ∃ t, (client lineArguments).run (start [104, 105, 10]) twoTurns =
      some t ∧ t.loopTexts = [[104, 105, 10], [104, 105, 10]] :=
    StepSystem.exists_run (by decide +kernel)
  intro hall
  have hquiet : Quiet twoTurns := by
    intro m hm now
    have := List.eq_of_mem_replicate hm
    simp [this]
  have hprefix := (hall lineArguments [104, 105, 10] _ t twoTurns (initial_start _) (by decide)
    hquiet hrun).first twoTurns t (List.prefix_refl _) hrun
  rw [htexts] at hprefix
  exact absurd hprefix.length_le (by decide)

end GroupChat
