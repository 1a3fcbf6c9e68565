import GroupChat.Pipeline.Model

/-!
# Nothing is lost, nothing is doubled

The pipeline is a monitor (`Monitor.system`) whose tokens are the entries of the
queue for the consumers and its free slots for the producers
(`GroupChat.Pipeline.monitor`), every move of the pipeline being one move of the
monitor (`GroupChat.Pipeline.Inv.monitor_exec`). That gives mutual exclusion and
the guarantee behind both `while` loops: who has passed the loop finds room, or
an entry. With it the data of the run are accounted for
(`GroupChat.Pipeline.Inv`): what was inserted is what was removed followed by
what is in the queue, no insertion was refused, no removal met an empty queue,
and every removal is in the hands of one consumer or has been finished once.
-/

namespace GroupChat

namespace Pipeline

open Population

variable {np nc n : ℕ} {s t : Pipeline np nc}

/-! ### The pipeline as a monitor -/

/-- The role of a thread: whether it is a consumer. -/
abbrev role : Thread np nc → Bool := Sum.isRight

/-- The monitor of a pipeline: consumers wait for entries, producers for free
slots of a queue of capacity `n`. -/
def monitor (n : ℕ) (s : Pipeline np nc) : Monitor (Thread np nc) where
  stage := s.stage
  lock := s.messageLock
  tokens b := if b then s.queue.contents.length else n - s.queue.contents.length

@[simp] theorem monitor_tokens_true (n : ℕ) (s : Pipeline np nc) :
    (s.monitor n).tokens true = s.queue.contents.length := rfl

@[simp] theorem monitor_tokens_false (n : ℕ) (s : Pipeline np nc) :
    (s.monitor n).tokens false = n - s.queue.contents.length := rfl

/-- The move of the monitor that a move of the pipeline makes. -/
def monitorMove : PipelineMove np nc → MonitorMove (Thread np nc)
  | .read p _ => .arrive (.inl p)
  | .readEnd p => .depart (.inl p)
  | .lock i => .lock i
  | .test i => .test i
  | .wake i => .wake i
  | .insert p _ => .act (.inl p)
  | .pop c => .act (.inr c)
  | .unlock i => .unlock i
  | .signal i picked => .signal i picked
  | .finish c => .arrive (.inr c)

/-- **The invariant of the pipeline.** -/
structure Inv (n : ℕ) (s : Pipeline np nc) : Prop where
  /-- The queue is one of capacity `n`. -/
  wf : s.queue.Wf n
  /-- The threads obey the monitor. -/
  obeys : (s.monitor n).Inv role
  /-- Nothing is lost between insertion and removal, and nothing changes order. -/
  fifo : s.inserted.map Prod.fst =
    s.popped.map (fun x => x.1.message) ++ s.queue.contents.map MessageQ.message
  /-- No insertion was refused. -/
  accepted : ∀ x ∈ s.inserted, x.2 = 0
  /-- No removal met an empty queue. -/
  nonempty : ∀ x ∈ s.popped, x.2 = false
  /-- A consumer has in its hands what it has removed. -/
  handled : ∀ c k, s.handling c = some k → s.popped[k]? = some (s.messageWrapper c, false)
  /-- Every removal is in the hands of one consumer, or was finished once. -/
  once : ∀ k < s.popped.length,
    count (fun _ x => x = some k) s.handling + s.finished.count k = 1
  /-- Only removals are finished. -/
  finished_lt : ∀ k ∈ s.finished, k < s.popped.length

/-- The `while` condition of a thread is that there is no token for it. -/
theorem Inv.mustWait_eq (h : s.Inv n) (i : Thread np nc) :
    s.mustWait i = some (decide ((s.monitor n).tokens (role i) = 0)) := by
  cases i with
  | inl p =>
    refine (Queue.queueIsFull_eq h.wf).trans (congrArg some (decide_eq_decide.mpr ?_))
    have := Queue.length_contents_le h.wf
    change _ ↔ n - s.queue.contents.length = 0
    omega
  | inr c =>
    refine congrArg some (Bool.eq_iff_iff.mpr ((Queue.queueIsEmpty_iff h.wf).trans ?_))
    simp

/-- A producer past its `while` loop finds room. -/
theorem Inv.room (h : s.Inv n) {p : Fin np} (hp : s.stage (.inl p) = .acting) :
    s.queue.contents.length < n := by
  have hpos : 0 < n - s.queue.contents.length := h.obeys.acting_pos (.inl p) hp
  omega

/-- A consumer past its `while` loop finds an entry. -/
theorem Inv.exists_entry (h : s.Inv n) {c : Fin nc} (hc : s.stage (.inr c) = .acting) :
    ∃ e es, s.queue.contents = e :: es := by
  have hpos : 0 < s.queue.contents.length := h.obeys.acting_pos (.inr c) hc
  exact List.exists_cons_of_length_pos hpos

/-- **What an insertion does**: it is accepted, and the stamped message comes to
stand behind the others. -/
theorem Inv.insert_cases (h : s.Inv n) {p : Fin np} {now : Timeval}
    (hexec : (pipeline np nc).exec s (.insert p now) = some t) :
    ∃ q, insertQueue s.queue (s.message p) now = some (0, q) ∧ q.Wf n ∧
      q.contents = s.queue.contents ++ [⟨s.message p, now⟩] ∧
      t = { s.setStage (.inl p) .unlocking with
            queue := q
            inserted := s.inserted ++ [(s.message p, 0)] } := by
  obtain ⟨hen, heff⟩ := StepSystem.exec_eq_some.mp hexec
  obtain ⟨q, hq, hwf, hc⟩ := Queue.insertQueue_of_lt h.wf (h.room hen) (s.message p) now
  refine ⟨q, hq, hwf, hc, ?_⟩
  simp only [pipeline, hq, Option.map_some, Option.some.injEq] at heff
  exact heff.symm

/-- **What a removal does**: it takes the oldest entry. -/
theorem Inv.pop_cases (h : s.Inv n) {c : Fin nc}
    (hexec : (pipeline np nc).exec s (.pop c) = some t) :
    ∃ e q, popQueue s.queue = some (e, q) ∧ q.Wf n ∧ s.queue.contents = e :: q.contents ∧
      t = { s.setStage (.inr c) .unlocking with
            queue := q
            messageWrapper := Function.update s.messageWrapper c e
            ticket := Function.update s.ticket c s.popped.length
            popped := s.popped ++ [(e, false)] } := by
  obtain ⟨hen, heff⟩ := StepSystem.exec_eq_some.mp hexec
  obtain ⟨e, es, hes⟩ := h.exists_entry hen
  obtain ⟨q, hq, hwf, hc⟩ := Queue.popQueue_of_ne_nil h.wf hes
  have hne : queueIsEmpty s.queue = false := by
    rw [← Bool.not_eq_true, Queue.queueIsEmpty_iff h.wf, hes]
    exact List.cons_ne_nil e es
  refine ⟨e, q, hq, hwf, by rw [hc, hes], ?_⟩
  simp only [pipeline, hq, hne, Option.map_some, Option.some.injEq] at heff
  exact heff.symm

/-- **Every move of the pipeline is a move of the monitor.** -/
theorem Inv.monitor_exec (h : s.Inv n) {m : PipelineMove np nc}
    (hexec : (pipeline np nc).exec s m = some t) :
    (Monitor.system role).exec (s.monitor n) (monitorMove m) = some (t.monitor n) := by
  cases m with
  | insert p now =>
    obtain ⟨q, -, -, hc, rfl⟩ := h.insert_cases hexec
    have hroom := h.room (StepSystem.exec_eq_some.mp hexec).1
    refine StepSystem.exec_eq_some.mpr ⟨(StepSystem.exec_eq_some.mp hexec).1, ?_⟩
    simp only [Monitor.system, monitorMove, Option.some.injEq]
    refine congrArg (Monitor.mk _ _) ?_
    funext b
    cases b <;> simp [Monitor.transfer, monitor, hc, Nat.sub_add_eq]
  | pop c =>
    obtain ⟨e, q, -, hwf, hc, rfl⟩ := h.pop_cases hexec
    have hle := Queue.length_contents_le h.wf
    refine StepSystem.exec_eq_some.mpr ⟨(StepSystem.exec_eq_some.mp hexec).1, ?_⟩
    simp only [Monitor.system, monitorMove, Option.some.injEq]
    -- an entry less is a free slot more because the contents were within the capacity
    rw [hc, List.length_cons] at hle
    refine congrArg (Monitor.mk _ _) ?_
    funext b
    cases b
    · simp [Monitor.transfer, monitor, hc]
      omega
    · simp [Monitor.transfer, monitor, hc]
  | test i =>
    obtain ⟨hen, heff⟩ := StepSystem.exec_eq_some.mp hexec
    refine StepSystem.exec_eq_some.mpr ⟨hen, ?_⟩
    simp only [pipeline, h.mustWait_eq i, Option.map_some, Option.some.injEq] at heff
    by_cases htok : (s.monitor n).tokens (role i) = 0
    · simp only [htok, decide_true, if_true] at heff
      simp only [Monitor.system, monitorMove, htok, if_true]
      exact heff ▸ rfl
    · simp only [htok, decide_false, Bool.false_eq_true, if_false] at heff
      simp only [Monitor.system, monitorMove, htok, if_false]
      exact heff ▸ rfl
  | _ =>
    obtain ⟨hen, heff⟩ := StepSystem.exec_eq_some.mp hexec
    obtain rfl := Option.some.inj heff
    exact StepSystem.exec_eq_some.mpr ⟨hen, rfl⟩

/-! ### Who has what in its hands -/

/-- A stage in which a consumer has an entry in its hands. -/
def Carrying (x : Stage) : Prop := x = .unlocking ∨ x = .signalling ∨ x = .outside

instance : DecidablePred Carrying := fun _ => inferInstanceAs (Decidable (_ ∨ _))

/-- What a consumer has in its hands depends on its stage and its ticket. -/
theorem handling_congr (hstage : ∀ c, Carrying (t.stage (.inr c)) ↔ Carrying (s.stage (.inr c)))
    (hticket : t.ticket = s.ticket) : t.handling = s.handling := by
  funext c
  exact if_congr (hstage c) (by rw [hticket]) rfl

/-- A move of one thread between two stages of the same kind. -/
theorem carrying_setStage {i : Thread np nc} {x : Stage} (hx : Carrying x ↔ Carrying (s.stage i))
    (c : Fin nc) : Carrying ((s.setStage i x).stage (.inr c)) ↔ Carrying (s.stage (.inr c)) := by
  rcases eq_or_ne (.inr c) i with rfl | hne
  · rw [setStage_self, hx]
  · rw [setStage_of_ne s x hne]

/-- A producer has nothing to do with it. -/
theorem carrying_setStage_inl (p : Fin np) (x : Stage) (c : Fin nc) :
    Carrying ((s.setStage (.inl p) x).stage (.inr c)) ↔ Carrying (s.stage (.inr c)) := by
  rw [setStage_of_ne s x Sum.inr_ne_inl]

/-- A move of one consumer changes what that consumer has in its hands. -/
theorem handling_eq_update {c : Fin nc} {x : Option ℕ}
    (hother : ∀ c' ≠ c, t.stage (.inr c') = s.stage (.inr c') ∧ t.ticket c' = s.ticket c')
    (hc : t.handling c = x) : t.handling = Function.update s.handling c x := by
  funext c'
  rcases eq_or_ne c' c with rfl | hne
  · rw [hc, Function.update_self]
  · rw [Function.update_of_ne hne, handling, handling, (hother c' hne).1, (hother c' hne).2]

/-! ### Every move keeps the invariant -/

/-- A move that leaves the data alone. -/
theorem Inv.of_eq (h : s.Inv n) (hmon : (t.monitor n).Inv role) (hqueue : t.queue = s.queue)
    (hwrap : t.messageWrapper = s.messageWrapper) (hins : t.inserted = s.inserted)
    (hpop : t.popped = s.popped) (hfin : t.finished = s.finished)
    (hhand : t.handling = s.handling) : t.Inv n where
  wf := hqueue ▸ h.wf
  obeys := hmon
  fifo := by rw [hins, hpop, hqueue, h.fifo]
  accepted := hins ▸ h.accepted
  nonempty := hpop ▸ h.nonempty
  handled := by
    rw [hhand, hpop, hwrap]
    exact h.handled
  once := by
    rw [hhand, hpop, hfin]
    exact h.once
  finished_lt := by
    rw [hfin, hpop]
    exact h.finished_lt

theorem Inv.insert (h : s.Inv n) {p : Fin np} {now : Timeval}
    (hmon : (t.monitor n).Inv role)
    (hexec : (pipeline np nc).exec s (.insert p now) = some t) : t.Inv n := by
  obtain ⟨q, -, hwf, hc, rfl⟩ := h.insert_cases hexec
  have hhand := handling_congr (s := s) (t := s.setStage (.inl p) .unlocking)
    (carrying_setStage_inl p .unlocking) rfl
  refine ⟨hwf, hmon, ?_, ?_, h.nonempty, ?_, ?_, h.finished_lt⟩
  · change (s.inserted ++ [(s.message p, (0 : ℤ))]).map Prod.fst =
      s.popped.map (fun x => x.1.message) ++ q.contents.map MessageQ.message
    rw [hc, List.map_append, List.map_append, h.fifo, List.append_assoc]
    rfl
  · intro x hx
    rcases List.mem_append.mp hx with hx | hx
    · exact h.accepted x hx
    · rw [List.mem_singleton.mp hx]
  · intro c k hk
    exact h.handled c k (congrFun hhand c ▸ hk)
  · intro k hk
    exact hhand ▸ h.once k hk

theorem Inv.pop (h : s.Inv n) {c : Fin nc} (hmon : (t.monitor n).Inv role)
    (hexec : (pipeline np nc).exec s (.pop c) = some t) : t.Inv n := by
  have hstage : s.stage (.inr c) = .acting := (StepSystem.exec_eq_some.mp hexec).1
  obtain ⟨e, q, -, hwf, hc, rfl⟩ := h.pop_cases hexec
  set u : Pipeline np nc := { s.setStage (.inr c) .unlocking with
    queue := q
    messageWrapper := Function.update s.messageWrapper c e
    ticket := Function.update s.ticket c s.popped.length
    popped := s.popped ++ [(e, false)] } with hu
  -- the consumer takes the ticket of its removal, which nobody has held or finished before
  have hhand : u.handling = Function.update s.handling c (some s.popped.length) := by
    refine handling_eq_update (fun c' hc' => ⟨?_, ?_⟩) ?_
    · exact Function.update_of_ne (fun hcon => hc' (Sum.inr_injective hcon)) _ _
    · exact Function.update_of_ne hc' _ _
    · simp [handling, hu, setStage]
  have hnone : s.handling c = none := by simp [handling, hstage]
  refine ⟨hwf, hmon, ?_, h.accepted, ?_, ?_, ?_, ?_⟩
  · change s.inserted.map Prod.fst =
      (s.popped ++ [(e, false)]).map (fun x => x.1.message) ++ q.contents.map MessageQ.message
    rw [h.fifo, hc, List.map_append, List.append_assoc]
    rfl
  · intro x hx
    rcases List.mem_append.mp hx with hx | hx
    · exact h.nonempty x hx
    · rw [List.mem_singleton.mp hx]
  · intro c' k hk
    change (s.popped ++ [(e, false)])[k]? = some (Function.update s.messageWrapper c e c', false)
    rw [hhand] at hk
    rcases eq_or_ne c' c with rfl | hne
    · rw [Function.update_self, Option.some.injEq] at hk
      rw [← hk, Function.update_self, List.getElem?_concat_length]
    · rw [Function.update_of_ne hne] at hk
      have hold := h.handled c' k hk
      have hlt := (List.getElem?_eq_some_iff.mp hold).1
      rw [Function.update_of_ne hne, List.getElem?_append_left hlt, hold]
  · intro k hk
    have hcount := count_update (P := fun _ x => x = some k) s.handling c (some s.popped.length)
    rw [hnone] at hcount
    change k < (s.popped ++ [(e, false)]).length at hk
    rw [List.length_append, List.length_singleton] at hk
    change count (fun _ x => x = some k) u.handling + s.finished.count k = 1
    rw [hhand]
    -- an older ticket, or the new one
    rcases Nat.lt_or_ge k s.popped.length with hlt | hge
    · have hold := h.once k hlt
      simp [show s.popped.length ≠ k by omega] at hcount
      omega
    · obtain rfl : k = s.popped.length := by omega
      have hheld : count (fun _ x => x = some s.popped.length) s.handling = 0 := by
        refine count_eq_zero_iff.mpr fun c' hc' => ?_
        have := h.handled c' _ hc'
        simp at this
      have hfin : s.finished.count s.popped.length = 0 :=
        List.count_eq_zero.mpr fun hmem => Nat.lt_irrefl _ (h.finished_lt _ hmem)
      simp at hcount
      omega
  · intro k hk
    change k < (s.popped ++ [(e, false)]).length
    have := h.finished_lt k hk
    rw [List.length_append]
    omega

theorem Inv.finish (h : s.Inv n) {c : Fin nc} (hmon : (t.monitor n).Inv role)
    (hexec : (pipeline np nc).exec s (.finish c) = some t) : t.Inv n := by
  obtain ⟨hen, heff⟩ := StepSystem.exec_eq_some.mp hexec
  have hstage : s.stage (.inr c) = .outside := hen
  obtain rfl := Option.some.inj heff
  set u : Pipeline np nc := { s.setStage (.inr c) (.locking .fresh) with
    finished := s.finished ++ [s.ticket c] } with hu
  -- the ticket moves from the hands of the consumer to the finished ones
  have hhand : u.handling = Function.update s.handling c none := by
    refine handling_eq_update (fun c' hc' => ⟨?_, rfl⟩) ?_
    · exact Function.update_of_ne (fun hcon => hc' (Sum.inr_injective hcon)) _ _
    · simp [handling, hu, setStage]
  have hold : s.handling c = some (s.ticket c) := by simp [handling, hstage]
  have hlt : s.ticket c < s.popped.length :=
    (List.getElem?_eq_some_iff.mp (h.handled c _ hold)).1
  refine ⟨h.wf, hmon, h.fifo, h.accepted, h.nonempty, ?_, ?_, ?_⟩
  · intro c' k hk
    rw [hhand] at hk
    rcases eq_or_ne c' c with rfl | hne
    · simp at hk
    · rw [Function.update_of_ne hne] at hk
      exact h.handled c' k hk
  · intro k hk
    have hcount := count_update (P := fun _ x => x = some k) s.handling c none
    have honce := h.once k hk
    change count (fun _ x => x = some k) u.handling + (s.finished ++ [s.ticket c]).count k = 1
    rw [hhand, List.count_append, List.count_singleton]
    rw [hold] at hcount
    by_cases hkc : s.ticket c = k
    · simp [hkc] at hcount ⊢
      omega
    · simp [hkc] at hcount ⊢
      omega
  · intro k hk
    rcases List.mem_append.mp hk with hk | hk
    · exact h.finished_lt k hk
    · rw [List.mem_singleton.mp hk]
      exact hlt

/-- **Every move keeps the invariant.** -/
theorem Inv.step (h : s.Inv n) {m : PipelineMove np nc}
    (hexec : (pipeline np nc).exec s m = some t) : t.Inv n := by
  have hmon : (t.monitor n).Inv role := h.obeys.step (h.monitor_exec hexec)
  cases m with
  | insert p now => exact h.insert hmon hexec
  | pop c => exact h.pop hmon hexec
  | finish c => exact h.finish hmon hexec
  | read p m =>
    obtain rfl := Option.some.inj (StepSystem.exec_eq_some.mp hexec).2
    exact h.of_eq hmon rfl rfl rfl rfl rfl
      (handling_congr (carrying_setStage_inl p (.locking .fresh)) rfl)
  | readEnd p =>
    obtain rfl := Option.some.inj (StepSystem.exec_eq_some.mp hexec).2
    exact h.of_eq hmon rfl rfl rfl rfl rfl
      (handling_congr (carrying_setStage_inl p .departed) rfl)
  | lock i =>
    obtain ⟨hen, heff⟩ := StepSystem.exec_eq_some.mp hexec
    obtain ⟨why, hwhy⟩ := Stage.atLock_iff.mp hen.1
    obtain rfl := Option.some.inj heff
    exact h.of_eq hmon rfl rfl rfl rfl rfl
      (handling_congr (carrying_setStage (by simp [hwhy, Carrying])) rfl)
  | test i =>
    obtain ⟨hen, heff⟩ := StepSystem.exec_eq_some.mp hexec
    have hi : s.stage i = .testing := hen
    simp only [pipeline, h.mustWait_eq i, Option.map_some, Option.some.injEq] at heff
    split_ifs at heff
    all_goals
      subst heff
      exact h.of_eq hmon rfl rfl rfl rfl rfl
        (handling_congr (carrying_setStage (by simp [hi, Carrying])) rfl)
  | wake i =>
    obtain ⟨hen, heff⟩ := StepSystem.exec_eq_some.mp hexec
    have hi : s.stage i = .asleep := hen
    obtain rfl := Option.some.inj heff
    exact h.of_eq hmon rfl rfl rfl rfl rfl
      (handling_congr (carrying_setStage (by simp [hi, Carrying])) rfl)
  | unlock i =>
    obtain ⟨hen, heff⟩ := StepSystem.exec_eq_some.mp hexec
    have hi : s.stage i = .unlocking := hen
    obtain rfl := Option.some.inj heff
    exact h.of_eq hmon rfl rfl rfl rfl rfl
      (handling_congr (carrying_setStage (by simp [hi, Carrying])) rfl)
  | signal i picked =>
    obtain ⟨⟨hi, hpick, -⟩, heff⟩ := StepSystem.exec_eq_some.mp hexec
    obtain rfl := Option.some.inj heff
    refine h.of_eq hmon rfl rfl rfl rfl rfl (handling_congr (fun c => ?_) rfl)
    -- a consumer that is picked was asleep, with nothing in its hands
    by_cases hc : Sum.inr c ∈ picked
    · have hasleep : s.stage (.inr c) = .asleep := (hpick _ hc).2
      simp [Monitor.notify, hc, hasleep, Carrying]
    · simp only [Monitor.notify, if_neg hc]
      exact carrying_setStage (by simp [hi, Carrying]) c

theorem Initial.inv (h : s.Initial n) : s.Inv n := by
  obtain ⟨block, hblock⟩ := h.queue
  obtain ⟨hwf, hc⟩ := Queue.wf_of_initQueue hblock
  refine ⟨hwf, ⟨fun i => ?_, fun i hi => ?_, ?_⟩, ?_, ?_, ?_, fun c k hk => ?_, ?_, ?_⟩
  · change s.messageLock = some i ↔ (s.stage i).Holding
    rw [h.messageLock]
    cases i <;> simp [h.producer, h.consumer, Stage.Holding]
  · change s.stage i = .acting at hi
    cases i <;> simp [h.producer, h.consumer] at hi
  · rintro b ⟨i, -, hi⟩
    change s.stage i = .asleep at hi
    cases i <;> simp [h.producer, h.consumer] at hi
  · rw [h.inserted, h.popped, hc]
    rfl
  · simp [h.inserted]
  · simp [h.popped]
  · simp [handling, h.consumer] at hk
  · simp [h.popped]
  · simp [h.finished]

/-- **The invariant holds in every reachable state.** -/
theorem Initial.inv_of_run (h : s.Initial n) {ms : List (PipelineMove np nc)}
    (hrun : (pipeline np nc).run s ms = some t) : t.Inv n :=
  StepSystem.run_invariant' (fun _ _ _ hs hexec => hs.step hexec) h.inv hrun

end Pipeline

end GroupChat
