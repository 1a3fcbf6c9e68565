import GroupChat.Queue.Refinement

/-!
# Calls that fail

`insert_queue` on a full queue and `pop_queue` on an empty one both find out and
report, and the calls here are made in any order, without the callers' `while` loops
(`GroupChat.unguardedQueue`). An insertion that is refused leaves the queue alone. A
removal that is reported does not stop: it returns whatever stands at `l` and steps
`l`, after which a queue without entries passes for one with as many as it can hold.

So failed calls are harmless exactly as long as no removal meets an empty queue
(`GroupChat.failures_harmless_iff`). The condition has a second part, which is about
`getSize` alone: its sum of both positions and the number of cells has to fit an
`int`, as it always does for a capacity below `2 ^ 30`.
-/

namespace GroupChat

open CInt

/-- A queue with a record of its calls, which no statement of the program reads. -/
structure QueueHistory where
  queue : Queue
  /-- The entries that `insert_queue` has taken. -/
  accepted : List MessageQ
  /-- The entries that `pop_queue` has returned. -/
  returned : List MessageQ
  /-- Those among them that it has not called “Queue Empty”. -/
  popped : List MessageQ

/-- The calls of the two functions, in any order. -/
def unguardedQueue : StepSystem QueueHistory QueueCall where
  enabled _ _ := True
  effect s
    | .insert msg now => (insertQueue s.queue msg now).map fun (rc, q) =>
        { s with
          queue := q
          accepted := if rc = 0 then s.accepted ++ [⟨msg, now⟩] else s.accepted }
    | .pop => (popQueue s.queue).map fun (e, q) =>
        { s with
          queue := q
          returned := s.returned ++ [e]
          popped := if queueIsEmpty s.queue then s.popped else s.popped ++ [e] }
  decEnabled _ _ := inferInstance

/-- A queue that nothing has happened to. -/
def QueueHistory.fresh (q : Queue) : QueueHistory := ⟨q, [], [], []⟩

/-- The test with which a function begins tells it that the call has to fail. -/
def Queue.Refuses (q : Queue) : QueueCall → Prop
  | .insert _ _ => queueIsFull q = some true
  | .pop => queueIsEmpty q = true

/-- **What the record says of the queue.** -/
structure QueueHistory.Accounted (s : QueueHistory) : Prop where
  size : getSize s.queue = some ((s.accepted.length : ℤ) - s.popped.length)
  popped : s.popped <+: s.accepted
  /-- What has been returned was inserted, and nothing was returned twice. -/
  returned : s.returned <+: s.accepted

/-- Calls on a new queue are accounted for throughout, and those that fail leave the
queue as it was. -/
def FailuresHarmless (n : ℕ) (block : ℕ → MessageQ) (calls : List QueueCall) : Prop :=
  ∃ q₀, initQueue n block = some q₀ ∧ ∀ pre, pre <+: calls →
    ∃ s, unguardedQueue.run (.fresh q₀) pre = some s ∧ s.Accounted ∧
      ∀ c, pre ++ [c] <+: calls → s.queue.Refuses c →
        ∀ t, unguardedQueue.exec s c = some t → t.queue = s.queue

/-- No removal meets an empty queue, and the `int`s are large enough for the number
of cells and for the sum in `getSize`. -/
def NeverUnderflows (n : ℕ) (block : ℕ → MessageQ) (calls : List QueueCall) : Prop :=
  Fits intBits ((n + 1 : ℕ) : ℤ) ∧ ∀ q₀ pre s, initQueue n block = some q₀ → pre <+: calls →
    unguardedQueue.run (.fresh q₀) pre = some s →
      Fits intBits (s.queue.r - s.queue.l + s.queue.size) ∧
        (pre ++ [.pop] <+: calls → queueIsEmpty s.queue = false)

/-! ### Calls under the invariant -/

namespace Queue

variable {n : ℕ} {q : Queue}

/-- A removal steps `l` and touches nothing else, whatever the queue holds. -/
theorem exists_popQueue (h : q.Wf n) :
    ∃ e, popQueue q = some (e, { q with l := (q.l + 1) % q.size }) ∧
      Wf n { q with l := (q.l + 1) % q.size } := by
  have hn := h.fits
  obtain ⟨l, r, cells, rfl, hlen, hl, hr⟩ := h.exists_eq
  have hcast : ((l : ℤ) + 1) % ((n + 1 : ℕ) : ℤ) = (((l + 1) % (n + 1) : ℕ) : ℤ) := by
    push_cast
    rfl
  refine ⟨cells.get ⟨l, hlen ▸ hl⟩, ?_, ?_⟩
  · simp only [popQueue, load_natCast, List.getElem?_eq_getElem (hlen ▸ hl : l < cells.length),
      Option.bind_eq_bind, Option.bind_some, next_eq hn hl, hcast]
    rfl
  · rw [hcast]
    exact wf_mk hn hlen (Nat.mod_lt _ n.succ_pos) hr

/-- With more than one cell, a step of `l` is seen. -/
theorem step_ne (h : q.Wf n) (hn : 1 ≤ n) : (q.l + 1) % q.size ≠ q.l := by
  obtain ⟨l, r, cells, rfl, -, hl, -⟩ := h.exists_eq
  change ((l : ℤ) + 1) % ((n + 1 : ℕ) : ℤ) ≠ l
  have hstep := CyclicWindow.step_eq hl
  intro heq
  have hnat : (l + 1) % (n + 1) = l := by exact_mod_cast heq
  rw [hstep] at hnat
  split_ifs at hnat <;> omega

/-- An insertion takes the entry, or refuses it and leaves the queue alone. -/
theorem insertQueue_cases (h : q.Wf n) (msg : Message) (now : Timeval) :
    (queueIsFull q = some true ∧ insertQueue q msg now = some (-1, q)) ∨
      (queueIsFull q = some false ∧ ∃ q', insertQueue q msg now = some (0, q') ∧ q'.Wf n ∧
        q'.contents = q.contents ++ [⟨msg, now⟩]) := by
  rcases Nat.lt_or_ge q.contents.length n with hlt | hge
  · refine Or.inr ⟨?_, insertQueue_of_lt h hlt msg now⟩
    rw [queueIsFull_eq h, decide_eq_false (by omega)]
  · have heq : q.contents.length = n := Nat.le_antisymm (length_contents_le h) hge
    refine Or.inl ⟨?_, insertQueue_of_full h heq msg now⟩
    rw [queueIsFull_eq h, decide_eq_true heq]

end Queue

open Queue

namespace QueueHistory

variable {n : ℕ} {s t : QueueHistory} {c : QueueCall} {calls : List QueueCall}

theorem exec_insert {msg : Message} {now : Timeval} {rc : ℤ} {q : Queue}
    (h : insertQueue s.queue msg now = some (rc, q)) :
    unguardedQueue.exec s (.insert msg now) = some
      { s with
        queue := q
        accepted := if rc = 0 then s.accepted ++ [⟨msg, now⟩] else s.accepted } :=
  StepSystem.exec_eq_some.mpr ⟨trivial, by simp only [unguardedQueue, h]; rfl⟩

theorem exec_pop {e : MessageQ} {q : Queue} (h : popQueue s.queue = some (e, q)) :
    unguardedQueue.exec s .pop = some
      { s with
        queue := q
        returned := s.returned ++ [e]
        popped := if queueIsEmpty s.queue then s.popped else s.popped ++ [e] } :=
  StepSystem.exec_eq_some.mpr ⟨trivial, by simp only [unguardedQueue, h]; rfl⟩

/-- Every call has a defined meaning, and keeps both positions inside. -/
theorem exists_exec (h : s.queue.Wf n) (c : QueueCall) :
    ∃ t, unguardedQueue.exec s c = some t ∧ t.queue.Wf n := by
  cases c with
  | insert msg now =>
    rcases insertQueue_cases h msg now with ⟨-, hins⟩ | ⟨-, q', hins, hwf, -⟩
    · exact ⟨_, exec_insert hins, h⟩
    · exact ⟨_, exec_insert hins, hwf⟩
  | pop =>
    obtain ⟨e, hpop, hwf⟩ := exists_popQueue h
    exact ⟨_, exec_pop hpop, hwf⟩

theorem wf_of_exec (h : s.queue.Wf n) (hexec : unguardedQueue.exec s c = some t) :
    t.queue.Wf n := by
  obtain ⟨u, hu, hwf⟩ := exists_exec h c
  obtain rfl := Option.some.inj (hu.symm.trans hexec)
  exact hwf

/-- What the calls keep, as long as no removal meets an empty queue: the entries not
yet removed are those in the queue. -/
structure Sound (n : ℕ) (s : QueueHistory) : Prop where
  wf : s.queue.Wf n
  accepted : s.accepted = s.popped ++ s.queue.contents
  returned : s.returned = s.popped

/-- **One call** that takes nothing from an empty queue. -/
theorem Sound.step (h : s.Sound n) (hne : c = .pop → queueIsEmpty s.queue = false) :
    ∃ t, unguardedQueue.exec s c = some t ∧ t.Sound n := by
  cases c with
  | insert msg now =>
    rcases insertQueue_cases h.wf msg now with ⟨-, hins⟩ | ⟨-, q', hins, hwf, hc⟩
    · exact ⟨_, exec_insert hins, h.wf, h.accepted, h.returned⟩
    · refine ⟨_, exec_insert hins, hwf, ?_, h.returned⟩
      change s.accepted ++ [⟨msg, now⟩] = s.popped ++ q'.contents
      rw [hc, h.accepted, List.append_assoc]
  | pop =>
    have hempty := hne rfl
    obtain ⟨e, es, hes⟩ : ∃ e es, s.queue.contents = e :: es := by
      refine List.exists_cons_of_ne_nil fun hnil => ?_
      rw [(queueIsEmpty_iff h.wf).mpr hnil] at hempty
      exact absurd hempty (by decide)
    obtain ⟨q', hpop, hwf, hc⟩ := popQueue_of_ne_nil h.wf hes
    have hexec := exec_pop hpop
    rw [hempty] at hexec
    refine ⟨_, hexec, hwf, ?_, ?_⟩
    · change s.accepted = s.popped ++ [e] ++ q'.contents
      rw [hc, h.accepted, hes, List.append_assoc]
      rfl
    · change s.returned ++ [e] = s.popped ++ [e]
      rw [h.returned]

theorem Sound.accounted (h : s.Sound n)
    (hfit : Fits intBits (s.queue.r - s.queue.l + s.queue.size)) : s.Accounted where
  size := by
    rw [getSize_eq_of_fits h.wf hfit, h.accepted, List.length_append]
    push_cast
    rw [add_sub_cancel_left]
  popped := h.accepted ▸ List.prefix_append _ _
  returned := h.returned ▸ h.accepted ▸ List.prefix_append _ _

/-- A refused insertion leaves the queue alone. -/
theorem Sound.queue_eq_of_refuses (h : s.Sound n)
    (hne : c = .pop → queueIsEmpty s.queue = false) (hrefuses : s.queue.Refuses c)
    (hexec : unguardedQueue.exec s c = some t) : t.queue = s.queue := by
  obtain ⟨-, heff⟩ := StepSystem.exec_eq_some.mp hexec
  cases c with
  | insert msg now =>
    obtain ⟨⟨rc, q⟩, hins, rfl⟩ := Option.map_eq_some_iff.mp heff
    rcases insertQueue_cases h.wf msg now with ⟨-, hins'⟩ | ⟨hfull, -⟩
    · obtain ⟨-, rfl⟩ := Prod.mk.inj (Option.some.inj (hins'.symm.trans hins))
      rfl
    · exact absurd (hfull.symm.trans hrefuses) (by decide)
  | pop => exact absurd (hrefuses.symm.trans (hne rfl)) (by decide)

/-- **Every run of calls** that takes nothing from an empty queue is sound. -/
theorem exists_run_sound {q₀ : Queue} (hwf : q₀.Wf n) (hc : q₀.contents = [])
    (hne : ∀ pre s, pre ++ [.pop] <+: calls → unguardedQueue.run (.fresh q₀) pre = some s →
      queueIsEmpty s.queue = false) :
    ∃ s, unguardedQueue.run (.fresh q₀) calls = some s ∧ s.Sound n := by
  induction calls using List.reverseRecOn with
  | nil => exact ⟨_, rfl, hwf, hc.symm, rfl⟩
  | append_singleton calls c ih =>
    obtain ⟨s, hrun, hs⟩ := ih fun pre s hpre hrun =>
      hne pre s (hpre.trans (List.prefix_append calls [c])) hrun
    obtain ⟨t, hexec, ht⟩ := hs.step fun hpop => hne calls s (hpop ▸ List.prefix_refl _) hrun
    exact ⟨t, StepSystem.run_concat_eq_some.mpr ⟨s, hrun, hexec⟩, ht⟩

end QueueHistory

/-- **Failed calls.** Take any calls on a new queue of a capacity of at least one, in
any order. Those that fail leave the queue as it was, and at every point `getSize` is
the number of entries taken and not yet removed, the removed ones are the first of
those taken, and none is returned that was not taken or had been removed – if and
only if no removal is called while the queue is empty, and the number of cells and
the sum in `getSize` fit an `int`. -/
theorem failures_harmless_iff {n : ℕ} (hn : 1 ≤ n) (block : ℕ → MessageQ)
    (calls : List QueueCall) :
    FailuresHarmless n block calls ↔ NeverUnderflows n block calls := by
  constructor
  · rintro ⟨q₀, hq₀, hall⟩
    obtain ⟨hwf, -⟩ := wf_of_initQueue hq₀
    refine ⟨hwf.fits, ?_⟩
    intro q pre s hq hpre hrun
    obtain rfl := Option.some.inj (hq₀.symm.trans hq)
    obtain ⟨s', hrun', hacc, hrefused⟩ := hall pre hpre
    obtain rfl := Option.some.inj (hrun.symm.trans hrun')
    have hs : s.queue.Wf n :=
      StepSystem.run_invariant' (I := fun u : QueueHistory => u.queue.Wf n)
        (fun _ _ _ hu hexec => QueueHistory.wf_of_exec hu hexec) hwf hrun
    constructor
    · exact fits_of_getSize hacc.size
    · intro hpop
      by_contra hempty
      -- the removal is reported, and steps `l` all the same
      obtain ⟨e, hpopq, -⟩ := exists_popQueue hs
      have hexec := QueueHistory.exec_pop hpopq
      have heq := hrefused .pop hpop (Bool.eq_true_of_not_eq_false hempty) _ hexec
      exact step_ne hs hn (congrArg Queue.l heq)
  · rintro ⟨hfits, hall⟩
    obtain ⟨q₀, hq₀, hwf, hc⟩ := initQueue_eq_some block hfits
    refine ⟨q₀, hq₀, ?_⟩
    intro pre hpre
    obtain ⟨s, hrun, hs⟩ := @QueueHistory.exists_run_sound _ pre q₀ hwf hc
      fun pre' s' hpre' hrun' => (hall q₀ pre' s' hq₀
        ((List.prefix_append pre' [.pop]).trans (hpre'.trans hpre)) hrun').2 (hpre'.trans hpre)
    obtain ⟨hfit, hpop⟩ := hall q₀ pre s hq₀ hpre hrun
    refine ⟨s, hrun, hs.accounted hfit, ?_⟩
    intro c hcalls hrefuses t hexec
    exact hs.queue_eq_of_refuses (fun hc => hpop (hc ▸ hcalls)) hrefuses hexec

/-- An insertion, one too many, and a removal. -/
def threeCalls : List QueueCall :=
  [.insert (Message.blank 1 0) ⟨5, 0⟩, .insert (Message.blank 2 0) ⟨6, 0⟩, .pop]

/-- On a queue of capacity one the insertion that fails is harmless. -/
theorem failures_harmless_iff_one :
    FailuresHarmless 1 (fun _ => ⟨Message.blank 0 0, ⟨0, 0⟩⟩) threeCalls := by
  refine (failures_harmless_iff (Nat.le_refl 1) _ _).mpr ⟨by decide, ?_⟩
  intro q₀ pre s hq₀ hpre hrun
  obtain rfl := Option.some.inj hq₀
  have hall : ∀ pre ∈ threeCalls.inits, ∀ s ∈ unguardedQueue.run (.fresh (newQueue 1)) pre,
      Fits intBits (s.queue.r - s.queue.l + s.queue.size) ∧
        (pre ++ [.pop] <+: threeCalls → queueIsEmpty s.queue = false) := by decide +kernel
  exact hall pre ((List.mem_inits _ _).mpr hpre) s hrun

/-- **A removal from an empty queue.** That failed calls are harmless is not so: on a new
queue of capacity one, a removal steps `l` although it reports that there is nothing
to remove. -/
theorem exists_call_underflows :
    ¬∀ n block calls, 1 ≤ n → 2 * (n + 1) ≤ 2 ^ 31 → FailuresHarmless n block calls := by
  intro hall
  obtain ⟨q₀, hq₀, hpre⟩ := hall 1 (fun _ => ⟨Message.blank 0 0, ⟨0, 0⟩⟩) [.pop] (by decide)
    (by decide)
  obtain rfl := Option.some.inj hq₀
  obtain ⟨s, hrun, -, hrefused⟩ := hpre [] List.nil_prefix
  obtain rfl := Option.some.inj hrun
  have heq := hrefused .pop (List.prefix_refl _) rfl _ rfl
  exact absurd (congrArg Queue.l heq) (by decide)

end GroupChat
