import GroupChat.Pipeline.Invariant

/-!
# What the pipeline guarantees

The two results about the synchronization of `connection_handler` and
`messageDeliver`: every message accepted is delivered exactly once
(`GroupChat.pipeline_exactly_once`), and no wake-up is lost although both
condition variables are signalled after the lock has been released
(`GroupChat.pipeline_no_lost_wakeup`).

The second is a matter of counting, and of counting every thread that is on the
way to an entry. A consumer that a signal has woken, and that has taken the lock
but not yet come to `pop_queue`, is one: it owes no signal, it is no longer
notified, and the entry it is about to take is still in the queue. Without it the
count is wrong for as long as that consumer is in its critical section
(`GroupChat.exists_run_entry_behind_woken_consumer`).
-/

namespace GroupChat

namespace Pipeline

open Population

variable {np nc n : ℕ} {s t : Pipeline np nc}

/-- Every call a thread can make has a defined meaning. -/
theorem Inv.exists_exec (h : s.Inv n) {m : PipelineMove np nc}
    (hen : (pipeline np nc).enabled s m) : ∃ t, (pipeline np nc).exec s m = some t := by
  simp only [StepSystem.exec_eq_some, hen, true_and]
  cases m with
  | test i => exact ⟨_, by simp only [pipeline, h.mustWait_eq i, Option.map_some]; rfl⟩
  | insert p now =>
    obtain ⟨q, hq, -⟩ := Queue.insertQueue_of_lt h.wf (h.room hen) (s.message p) now
    exact ⟨_, by simp only [pipeline, hq, Option.map_some]; rfl⟩
  | pop c =>
    obtain ⟨e, es, hes⟩ := h.exists_entry hen
    obtain ⟨q, hq, -⟩ := Queue.popQueue_of_ne_nil h.wf hes
    exact ⟨_, by simp only [pipeline, hq, Option.map_some]; rfl⟩
  | _ => exact ⟨_, rfl⟩

/-- **Every schedule goes through**, whatever the scheduler chooses. -/
theorem Initial.exists_run (h : s.Initial n) {ms : List (PipelineMove np nc)}
    (hen : (pipeline np nc).Always (pipeline np nc).enabled s ms) :
    ∃ t, (pipeline np nc).run s ms = some t := by
  refine (StepSystem.run_progress (I := fun u : Pipeline np nc => u.Inv n)
    (fun u m hu hen => ?_) h.inv hen).imp fun _ => And.left
  obtain ⟨v, hv⟩ := hu.exists_exec hen
  exact ⟨v, hv, hu.step hv⟩

/-- A removal is in the hands of exactly one consumer and not finished, or in
nobody's hands and finished once. -/
theorem Inv.handled_or_finished (h : s.Inv n) {k : ℕ} (hk : k < s.popped.length) :
    ((∃! c, s.handling c = some k) ∧ k ∉ s.finished) ∨
      ((∀ c, s.handling c ≠ some k) ∧ s.finished.count k = 1) := by
  have honce := h.once k hk
  rcases Nat.eq_zero_or_pos (count (fun _ x => x = some k) s.handling) with hzero | hpos
  · exact Or.inr ⟨count_eq_zero_iff.mp hzero, by omega⟩
  · obtain ⟨c, hc⟩ := count_pos_iff.mp hpos
    refine Or.inl ⟨⟨c, hc, fun c' hc' => ?_⟩, List.count_eq_zero.mp (by omega)⟩
    by_contra hne
    -- without `c` there would be one less, and still `c'`
    have hlt := count_lt_count (P := fun _ x => x = some k)
      (f := Function.update s.handling c none) (g := s.handling) (i := c)
      (fun i hi => by
        rcases eq_or_ne i c with rfl | hic
        · exact hc
        · rwa [Function.update_of_ne hic] at hi)
      (by simp) hc
    have hpos' : 0 < count (fun _ x => x = some k) (Function.update s.handling c none) :=
      count_pos_iff.mpr ⟨c', by rw [Function.update_of_ne hne]; exact hc'⟩
    omega

/-! ### Counting the two kinds of threads -/

/-- The producers that have inserted and not yet signalled `c_cons`. -/
def owingProducers (s : Pipeline np nc) : ℕ :=
  count (fun _ x => Stage.OwesSignal x) fun p => s.stage (.inl p)

/-- The consumers that have removed and not yet signalled `c_prod`. -/
def owingConsumers (s : Pipeline np nc) : ℕ :=
  count (fun _ x => Stage.OwesSignal x) fun c => s.stage (.inr c)

/-- The producers that a signal has picked and that have not taken the lock again. -/
def notifiedProducers (s : Pipeline np nc) : ℕ :=
  count (fun _ x => x = .locking .notified) fun p => s.stage (.inl p)

/-- The consumers that a signal has picked and that have not taken the lock again. -/
def notifiedConsumers (s : Pipeline np nc) : ℕ :=
  count (fun _ x => x = .locking .notified) fun c => s.stage (.inr c)

/-- The producers that have the lock and have not inserted yet. -/
def enteringProducers (s : Pipeline np nc) : ℕ :=
  count (fun _ x => Stage.Entering x) fun p => s.stage (.inl p)

/-- The consumers that have the lock and have not removed yet. -/
def enteringConsumers (s : Pipeline np nc) : ℕ :=
  count (fun _ x => Stage.Entering x) fun c => s.stage (.inr c)

/-- The threads on the way to an entry. -/
theorem cover_true (n : ℕ) (s : Pipeline np nc) :
    (s.monitor n).cover role true =
      s.owingProducers + s.notifiedConsumers + s.enteringConsumers := by
  refine congrArg₂ (· + ·) (congrArg₂ (· + ·) ?_ ?_) ?_
  · exact count_eq_count_inl s.stage (fun _ _ => by simp) fun _ _ => by simp
  · exact count_eq_count_inr s.stage (fun _ _ => by simp) fun _ _ => by simp
  · exact count_eq_count_inr s.stage (fun _ _ => by simp) fun _ _ => by simp

/-- The threads on the way to a free slot. -/
theorem cover_false (n : ℕ) (s : Pipeline np nc) :
    (s.monitor n).cover role false =
      s.owingConsumers + s.notifiedProducers + s.enteringProducers := by
  refine congrArg₂ (· + ·) (congrArg₂ (· + ·) ?_ ?_) ?_
  · exact count_eq_count_inr s.stage (fun _ _ => by simp) fun _ _ => by simp
  · exact count_eq_count_inl s.stage (fun _ _ => by simp) fun _ _ => by simp
  · exact count_eq_count_inl s.stage (fun _ _ => by simp) fun _ _ => by simp

theorem entering_true (n : ℕ) (s : Pipeline np nc) :
    (s.monitor n).entering role true = s.enteringConsumers :=
  count_eq_count_inr s.stage (fun _ _ => by simp) fun _ _ => by simp

theorem entering_false (n : ℕ) (s : Pipeline np nc) :
    (s.monitor n).entering role false = s.enteringProducers :=
  count_eq_count_inl s.stage (fun _ _ => by simp) fun _ _ => by simp

/-! ### Nobody is left behind -/

/-- A move that needs neither a client nor a spurious wake-up. -/
def Driven : PipelineMove np nc → Prop
  | .read _ _ | .readEnd _ | .wake _ => False
  | _ => True

/-- Consumers never leave their loop. -/
theorem Initial.consumer_stays (h : s.Initial n) {ms : List (PipelineMove np nc)}
    (hrun : (pipeline np nc).run s ms = some t) (c : Fin nc) : t.stage (.inr c) ≠ .departed := by
  refine StepSystem.run_invariant' (I := fun u : Pipeline np nc => u.stage (.inr c) ≠ .departed)
    (fun u m v hu hexec => ?_) (by simp [h.consumer]) hrun
  have hset : ∀ (i : Thread np nc) (x : Stage), (x ≠ .departed ∨ i.isRight = false) →
      (u.setStage i x).stage (.inr c) ≠ .departed := by
    intro i x hx
    rcases eq_or_ne (Sum.inr c) i with rfl | hne
    · simpa using hx
    · rwa [setStage_of_ne u x hne]
  have heff := (StepSystem.exec_eq_some.mp hexec).2
  cases m with
  | test i =>
    obtain ⟨wait, -, rfl⟩ := Option.map_eq_some_iff.mp heff
    cases wait
    · exact hset i .acting (Or.inl (by decide))
    · exact hset i .asleep (Or.inl (by decide))
  | insert p now =>
    obtain ⟨_, -, rfl⟩ := Option.map_eq_some_iff.mp heff
    exact hset (.inl p) .unlocking (Or.inl (by decide))
  | pop c' =>
    obtain ⟨_, -, rfl⟩ := Option.map_eq_some_iff.mp heff
    exact hset (.inr c') .unlocking (Or.inl (by decide))
  | signal i picked =>
    obtain rfl := Option.some.inj heff
    simp only [Monitor.notify]
    split_ifs
    · decide
    · exact hset i .outside (Or.inl (by decide))
  | readEnd p =>
    obtain rfl := Option.some.inj heff
    exact hset (.inl p) .departed (Or.inr rfl)
  | read p _ =>
    obtain rfl := Option.some.inj heff
    exact hset (.inl p) (.locking .fresh) (Or.inl (by decide))
  | finish c' =>
    obtain rfl := Option.some.inj heff
    exact hset (.inr c') (.locking .fresh) (Or.inl (by decide))
  | lock i =>
    obtain rfl := Option.some.inj heff
    exact hset i .testing (Or.inl (by decide))
  | wake i =>
    obtain rfl := Option.some.inj heff
    exact hset i (.locking .spurious) (Or.inl (by decide))
  | unlock i =>
    obtain rfl := Option.some.inj heff
    exact hset i .signalling (Or.inl (by decide))

/-- A pipeline at rest is a monitor at rest. -/
theorem Inv.monitor_at_rest (h : s.Inv n)
    (hstuck : ∀ m, Driven m → (pipeline np nc).exec s m = none) (m : MonitorMove (Thread np nc))
    (hm : Monitor.Driven m) : (Monitor.system role).exec (s.monitor n) m = none := by
  -- an enabled move would have an effect, and every driven move of the monitor is one of these
  have hno : ∀ m, Driven m → ¬(pipeline np nc).enabled s m := fun m hm hen => by
    obtain ⟨t, ht⟩ := h.exists_exec hen
    rw [hstuck m hm] at ht
    exact absurd ht (by simp)
  refine if_neg fun hen => ?_
  cases m with
  | arrive i => exact hm
  | depart i => exact hm
  | wake i => exact hm
  | lock i => exact hno (.lock i) trivial hen
  | test i => exact hno (.test i) trivial hen
  | unlock i => exact hno (.unlock i) trivial hen
  | signal i picked => exact hno (.signal i picked) trivial hen
  | act i =>
    cases i with
    | inl p => exact hno (.insert p ⟨0, 0⟩) trivial hen
    | inr c => exact hno (.pop c) trivial hen

/-- **A pipeline at rest has nothing to do**: the queue is empty, all consumers
are asleep, and every producer is at `read` or gone. -/
theorem Initial.at_rest (h : s.Initial n) {ms : List (PipelineMove np nc)}
    (hrun : (pipeline np nc).run s ms = some t) (hn : 0 < n) (hnc : 0 < nc)
    (hstuck : ∀ m, Driven m → (pipeline np nc).exec t m = none) :
    t.queue.contents = [] ∧ (∀ c, t.stage (.inr c) = .asleep) ∧
      ∀ p, t.stage (.inl p) = .outside ∨ t.stage (.inl p) = .departed := by
  have hinv := h.inv_of_run hrun
  obtain ⟨hcalm, htok⟩ := hinv.obeys.quiescent (hinv.monitor_at_rest hstuck)
  have hcons : ∀ c, t.stage (.inr c) = .asleep := by
    intro c
    rcases hcalm (.inr c) with hc | hc | hc
    · -- outside, a consumer could finish its delivery loop
      have hfin := hstuck (.finish c) trivial
      rw [StepSystem.exec, if_pos (show (pipeline np nc).enabled t (.finish c) from hc)] at hfin
      exact absurd hfin (by simp [pipeline])
    · exact absurd hc (h.consumer_stays hrun c)
    · exact hc
  have hempty : t.queue.contents.length = 0 := htok (.inr ⟨0, hnc⟩) (hcons _)
  refine ⟨List.length_eq_zero_iff.mp hempty, hcons, ?_⟩
  intro p
  rcases hcalm (.inl p) with hp | hp | hp
  · exact Or.inl hp
  · exact Or.inr hp
  · have hfull : n - t.queue.contents.length = 0 := htok (.inl p) hp
    omega

end Pipeline

open Pipeline

/-- **Exactly once.** In every reachable state of the pipeline, what producers
have handed to `insert_queue` is what has been removed followed by what the queue
holds; no insertion was refused and no removal met an empty queue; every removal
is in the hands of exactly one consumer, as it was removed, or its delivery loop
has been finished exactly once; and every call a thread can make is defined. -/
theorem pipeline_exactly_once {np nc n : ℕ} {s t : Pipeline np nc} (hs : s.Initial n)
    {ms : List (PipelineMove np nc)} (hrun : (pipeline np nc).run s ms = some t) :
    t.inserted.map Prod.fst =
        t.popped.map (fun x => x.1.message) ++ t.queue.contents.map MessageQ.message ∧
      (∀ x ∈ t.inserted, x.2 = 0) ∧ (∀ x ∈ t.popped, x.2 = false) ∧
      (∀ k < t.popped.length, ((∃! c, t.handling c = some k) ∧ k ∉ t.finished) ∨
        ((∀ c, t.handling c ≠ some k) ∧ t.finished.count k = 1)) ∧
      (∀ c k, t.handling c = some k → t.popped[k]? = some (t.messageWrapper c, false)) ∧
      ∀ m, (pipeline np nc).enabled t m → ∃ u, (pipeline np nc).exec t m = some u := by
  have h := hs.inv_of_run hrun
  exact ⟨h.fifo, h.accepted, h.nonempty, fun k hk => h.handled_or_finished hk, h.handled,
    fun m hm => h.exists_exec hm⟩

/-- One producer hands over a message, and one consumer takes it. -/
def handOver : List (PipelineMove 1 1) :=
  [.read 0 (Message.blank 7 3), .lock (.inl 0), .test (.inl 0), .insert 0 ⟨5, 0⟩, .unlock (.inl 0),
    .signal (.inl 0) ∅, .lock (.inr 0), .test (.inr 0), .pop 0]

/-- After the removal the message is in the hands of the one consumer. -/
theorem pipeline_exactly_once_handOver :
    ∃ t, (pipeline 1 1).run (start 1 1 (newQueue 1)) handOver = some t ∧ t.popped.length = 1 ∧
      ((∃! c, t.handling c = some 0) ∧ 0 ∉ t.finished ∨
        (∀ c, t.handling c ≠ some 0) ∧ t.finished.count 0 = 1) := by
  obtain ⟨t, hrun, hlen⟩ : ∃ t, (pipeline 1 1).run (start 1 1 (newQueue 1)) handOver = some t ∧
      t.popped.length = 1 :=
    StepSystem.exists_run (by decide +kernel)
  have h := pipeline_exactly_once (initial_start (exists_initQueue_newQueue (by decide))) hrun
  exact ⟨t, hrun, hlen, h.2.2.2.1 0 (by omega)⟩

/-- **No lost wake-up.** In every reachable state: while a consumer is asleep, each
entry is accounted for by a producer that has inserted and still owes its signal,
by a notified consumer that has not taken the lock again, or by the consumer – at
most one, and none unless a consumer holds the lock – that has the lock and has not
come to `pop_queue`; and likewise for the free slots while a producer is asleep.
So a state in which nobody can move without a client or a spurious wake-up is one
with an empty queue and no producer waiting. -/
theorem pipeline_no_lost_wakeup {np nc n : ℕ} {s t : Pipeline np nc} (hs : s.Initial n)
    {ms : List (PipelineMove np nc)} (hrun : (pipeline np nc).run s ms = some t)
    (hn : 0 < n) (hnc : 0 < nc) :
    ((∃ c, t.stage (.inr c) = .asleep) → t.queue.contents.length ≤
        t.owingProducers + t.notifiedConsumers + t.enteringConsumers) ∧
      ((∃ p, t.stage (.inl p) = .asleep) → n - t.queue.contents.length ≤
        t.owingConsumers + t.notifiedProducers + t.enteringProducers) ∧
      t.enteringConsumers ≤ 1 ∧ t.enteringProducers ≤ 1 ∧
      ((∀ c, t.messageLock ≠ some (.inr c)) → t.enteringConsumers = 0) ∧
      ((∀ p, t.messageLock ≠ some (.inl p)) → t.enteringProducers = 0) ∧
      ((∀ m, Driven m → (pipeline np nc).exec t m = none) →
        t.queue.contents = [] ∧ (∀ c, t.stage (.inr c) = .asleep) ∧
          ∀ p, t.stage (.inl p) = .outside ∨ t.stage (.inl p) = .departed) := by
  have h := hs.inv_of_run hrun
  refine ⟨?_, ?_, ?_, ?_, ?_, ?_, hs.at_rest hrun hn hnc⟩
  · rintro ⟨c, hc⟩
    exact cover_true n t ▸ h.obeys.covered true ⟨.inr c, rfl, hc⟩
  · rintro ⟨p, hp⟩
    exact cover_false n t ▸ h.obeys.covered false ⟨.inl p, rfl, hp⟩
  · exact entering_true n t ▸ h.obeys.entering_le_one true
  · exact entering_false n t ▸ h.obeys.entering_le_one false
  · intro hfree
    refine entering_true n t ▸ h.obeys.entering_eq_zero fun i hi => ?_
    cases i with
    | inl p => simp
    | inr c => exact absurd hi (hfree c)
  · intro hfree
    refine entering_false n t ▸ h.obeys.entering_eq_zero fun i hi => ?_
    cases i with
    | inl p => exact absurd hi (hfree p)
    | inr c => simp

/-- Two consumers fall asleep, a message is inserted, and the signal wakes one of
them, which takes the lock. -/
def wokenConsumer : List (PipelineMove 1 2) :=
  [.lock (.inr 0), .test (.inr 0), .lock (.inr 1), .test (.inr 1),
    .read 0 (Message.blank 0 0), .lock (.inl 0), .test (.inl 0), .insert 0 ⟨0, 0⟩, .unlock (.inl 0),
    .signal (.inl 0) {.inr 0}, .lock (.inr 0)]

/-- The message is still in the queue, and the consumer that is about to take it
is all that accounts for it. -/
theorem pipeline_no_lost_wakeup_wokenConsumer :
    ∃ t, (pipeline 1 2).run (start 1 2 (newQueue 1)) wokenConsumer = some t ∧
      t.stage (.inr 1) = .asleep ∧ t.queue.contents.length ≤
        t.owingProducers + t.notifiedConsumers + t.enteringConsumers := by
  obtain ⟨t, hrun, hasleep⟩ : ∃ t,
      (pipeline 1 2).run (start 1 2 (newQueue 1)) wokenConsumer = some t ∧
        t.stage (.inr 1) = .asleep :=
    StepSystem.exists_run (by decide +kernel)
  have h := pipeline_no_lost_wakeup (initial_start (exists_initQueue_newQueue (by decide))) hrun
    (by decide) (by decide)
  exact ⟨t, hrun, hasleep, h.1 ⟨1, hasleep⟩⟩

/-- **An entry behind a woken consumer.** The producers that owe a signal and the
notified consumers that have not taken the lock again do not account for all
entries by themselves: in the run `GroupChat.wokenConsumer` there are none of
either, one consumer is asleep, and the queue holds a message. -/
theorem exists_run_entry_behind_woken_consumer :
    ¬∀ (np nc n : ℕ) (s t : Pipeline np nc), s.Initial n → ∀ ms,
      (pipeline np nc).run s ms = some t → 0 < n → 0 < nc →
      (∃ c, t.stage (.inr c) = .asleep) →
        t.queue.contents.length ≤ t.owingProducers + t.notifiedConsumers := by
  obtain ⟨t, hrun, hasleep, hlen, howing, hnotified⟩ :
      ∃ t, (pipeline 1 2).run (start 1 2 (newQueue 1)) wokenConsumer = some t ∧
        t.stage (.inr 1) = .asleep ∧ t.queue.contents.length = 1 ∧ t.owingProducers = 0 ∧
        t.notifiedConsumers = 0 :=
    StepSystem.exists_run (by decide +kernel)
  intro hall
  have hle := hall 1 2 1 _ t (initial_start (exists_initQueue_newQueue (by decide))) wokenConsumer
    hrun (by decide) (by decide) ⟨1, hasleep⟩
  omega

end GroupChat
