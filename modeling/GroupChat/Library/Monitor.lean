import GroupChat.Library.Population
import GroupChat.Library.StepSystem

/-!
# A monitor with two condition variables

Threads of two roles share a lock. A thread of role `b` consumes one token of
kind `b` in its critical section and produces one of the other kind; it sleeps
on the condition variable of its role while there is no token for it, and
signals the other role's variable once it is done – *after* it has released the
lock. The bounded buffer is the case where the tokens of one role are the free
slots and those of the other the entries.

Because the signal comes late, tokens can be available while threads that could
use them sleep. What never happens is that nobody is on the way to them:
`Monitor.Inv.covered` says that as long as some thread of role `b` is asleep,
every token of kind `b` is accounted for by a thread that still owes the signal
for it, by a thread that a signal has woken and that has not taken the lock yet,
or by a thread that is in its critical section and has not acted yet. Of the
latter there is at most one (`Monitor.Inv.entering_le_one`), and none while the
lock is free (`Monitor.Inv.entering_eq_zero`). So a state in which no thread can
move of its own accord is one in which nobody sleeps for a token that is there
(`Monitor.Inv.quiescent`).
-/

/-- Why a thread is about to take the lock. -/
inductive Wake where
  /-- It has come to the critical section from outside. -/
  | fresh
  /-- A signal picked it while it was asleep. -/
  | notified
  /-- It woke up for no reason. -/
  | spurious
deriving DecidableEq

/-- Where a thread stands with respect to its critical section. -/
inductive Stage where
  | outside
  | locking (why : Wake)
  /-- In the critical section, at the condition of the waiting loop. -/
  | testing
  /-- Inside the wait, not picked by a signal. -/
  | asleep
  /-- In the critical section, behind the waiting loop. -/
  | acting
  /-- In the critical section, having acted. -/
  | unlocking
  | signalling
  | departed
deriving DecidableEq

namespace Stage

/-- Inside the critical section. -/
def Holding (x : Stage) : Prop := x = testing ∨ x = acting ∨ x = unlocking

/-- Inside the critical section, not having acted yet. -/
def Entering (x : Stage) : Prop := x = testing ∨ x = acting

/-- Having acted, not having signalled yet. -/
def OwesSignal (x : Stage) : Prop := x = unlocking ∨ x = signalling

/-- About to take the lock, for whatever reason. -/
def AtLock (x : Stage) : Prop := x = locking .fresh ∨ x = locking .notified ∨ x = locking .spurious

instance : DecidablePred Holding := fun _ => inferInstanceAs (Decidable (_ ∨ _))
instance : DecidablePred Entering := fun _ => inferInstanceAs (Decidable (_ ∨ _))
instance : DecidablePred OwesSignal := fun _ => inferInstanceAs (Decidable (_ ∨ _))
instance : DecidablePred AtLock := fun _ => inferInstanceAs (Decidable (_ ∨ _))

theorem atLock_iff {x : Stage} : x.AtLock ↔ ∃ why, x = locking why := by
  constructor
  · rintro (h | h | h) <;> exact ⟨_, h⟩
  · rintro ⟨why, rfl⟩
    cases why <;> simp [AtLock]

theorem Entering.holding {x : Stage} (h : x.Entering) : x.Holding := h.imp_right Or.inl

end Stage

/-- The state of a monitor. -/
structure Monitor (ι : Type*) where
  stage : ι → Stage
  /-- Who holds the lock. -/
  lock : Option ι
  /-- How many tokens of each kind there are. -/
  tokens : Bool → ℕ

/-- The moves of a thread. -/
inductive MonitorMove (ι : Type*) where
  | arrive (i : ι)
  | depart (i : ι)
  | lock (i : ι)
  | test (i : ι)
  /-- A sleeper wakes up for no reason. -/
  | wake (i : ι)
  | act (i : ι)
  | unlock (i : ι)
  /-- A signal, with the sleepers it picks. -/
  | signal (i : ι) (picked : Finset ι)

namespace Monitor

open Stage Population

variable {ι : Type*} [DecidableEq ι]

/-- One thread moves to another stage. -/
def setStage (s : Monitor ι) (i : ι) (x : Stage) : Monitor ι :=
  { s with stage := Function.update s.stage i x }

@[simp] theorem setStage_self (s : Monitor ι) (i : ι) (x : Stage) :
    (s.setStage i x).stage i = x := by simp [setStage]

theorem setStage_of_ne (s : Monitor ι) {i j : ι} (x : Stage) (h : j ≠ i) :
    (s.setStage i x).stage j = s.stage j := by simp [setStage, h]

/-- The sleepers a signal picks become runnable. -/
def notify (stage : ι → Stage) (picked : Finset ι) : ι → Stage :=
  fun j => if j ∈ picked then .locking .notified else stage j

/-- The token a thread of role `b` consumes, and the one it produces. -/
def transfer (tokens : Bool → ℕ) (b : Bool) : Bool → ℕ :=
  fun b' => if b' = b then tokens b' - 1 else tokens b' + 1

variable [Fintype ι] (role : ι → Bool)

/-- The threads asleep that a signal of thread `i` may pick. -/
def Sleeper (stage : ι → Stage) (i j : ι) : Prop := role j ≠ role i ∧ stage j = .asleep

instance (stage : ι → Stage) (i j : ι) : Decidable (Sleeper role stage i j) :=
  inferInstanceAs (Decidable (_ ∧ _))

/-- The moves of the threads of a monitor. -/
def system : StepSystem (Monitor ι) (MonitorMove ι) where
  enabled s
    | .arrive i => s.stage i = .outside
    | .depart i => s.stage i = .outside
    | .lock i => (s.stage i).AtLock ∧ s.lock = none
    | .test i => s.stage i = .testing
    | .wake i => s.stage i = .asleep
    | .act i => s.stage i = .acting
    | .unlock i => s.stage i = .unlocking
    | .signal i picked => s.stage i = .signalling ∧ (∀ j ∈ picked, Sleeper role s.stage i j) ∧
        ((∃ j, Sleeper role s.stage i j) → picked.Nonempty)
  effect s
    | .arrive i => some (s.setStage i (.locking .fresh))
    | .depart i => some (s.setStage i .departed)
    | .lock i => some { s.setStage i .testing with lock := some i }
    | .test i =>
      if s.tokens (role i) = 0 then some { s.setStage i .asleep with lock := none }
      else some (s.setStage i .acting)
    | .wake i => some (s.setStage i (.locking .spurious))
    | .act i => some { s.setStage i .unlocking with tokens := transfer s.tokens (role i) }
    | .unlock i => some { s.setStage i .signalling with lock := none }
    | .signal i picked =>
      some { s with stage := notify (Function.update s.stage i .outside) picked }
  decEnabled s m := by
    cases m <;> simp only <;> infer_instance

/-! ### The invariant -/

variable (s : Monitor ι) (b : Bool)

/-- How many threads of the other role still owe a signal to role `b`. -/
def owing : ℕ := count (fun i x => role i ≠ b ∧ x.OwesSignal) s.stage

/-- How many threads of role `b` a signal has picked and have not taken the lock yet. -/
def notified : ℕ := count (fun i x => role i = b ∧ x = .locking .notified) s.stage

/-- How many threads of role `b` are in the critical section and have not acted. -/
def entering : ℕ := count (fun i x => role i = b ∧ x.Entering) s.stage

/-- The threads on the way to a token of kind `b`. -/
def cover : ℕ := s.owing role b + s.notified role b + s.entering role b

/-- **The invariant of the monitor.** -/
structure Inv : Prop where
  /-- The lock is held by the thread in the critical section. -/
  lock_iff : ∀ i, s.lock = some i ↔ (s.stage i).Holding
  /-- A thread about to act has a token to consume. -/
  acting_pos : ∀ i, s.stage i = .acting → 0 < s.tokens (role i)
  /-- While a thread of a role sleeps, somebody is on the way to each of its tokens. -/
  covered : ∀ b, (∃ i, role i = b ∧ s.stage i = .asleep) → s.tokens b ≤ s.cover role b

/-- What a thread at stage `x` contributes to the threads on the way to a token. -/
def weight (i : ι) (x : Stage) : ℕ :=
  (if role i ≠ b ∧ x.OwesSignal then 1 else 0) +
    (if role i = b ∧ x = .locking .notified then 1 else 0) +
    (if role i = b ∧ x.Entering then 1 else 0)

variable {s b} {role}

/-- **One thread moves**: the threads on the way to a token change by its own
contribution. -/
theorem cover_setStage (role : ι → Bool) (s : Monitor ι) (b : Bool) (i : ι) (x : Stage) :
    (s.setStage i x).cover role b + weight role b i (s.stage i) =
      s.cover role b + weight role b i x := by
  have h1 := count_update (P := fun i x => role i ≠ b ∧ OwesSignal x) s.stage i x
  have h2 := count_update (P := fun i x => role i = b ∧ x = locking .notified) s.stage i x
  have h3 := count_update (P := fun i x => role i = b ∧ Entering x) s.stage i x
  simp only [cover, owing, notified, entering, weight, setStage]
  omega

omit [Fintype ι] in
/-- Whoever sleeps after one thread has moved to a stage other than sleep has
slept before. -/
theorem asleep_of_asleep_setStage {i : ι} {x : Stage} (hx : x ≠ .asleep)
    (h : ∃ j, role j = b ∧ (s.setStage i x).stage j = .asleep) :
    ∃ j, role j = b ∧ s.stage j = .asleep :=
  (exists_of_exists_update (P := fun j x => role j = b ∧ x = asleep) h).resolve_left
    fun hcon => hx hcon.2

/-- A move that neither sends a thread to sleep nor takes it off the way to a
token keeps the tokens covered. -/
theorem covered_setStage {i : ι} {x : Stage} (hx : x ≠ .asleep)
    (hw : weight role b i (s.stage i) ≤ weight role b i x)
    (h : (∃ j, role j = b ∧ s.stage j = .asleep) → s.tokens b ≤ s.cover role b)
    (hsleep : ∃ j, role j = b ∧ (s.setStage i x).stage j = .asleep) :
    s.tokens b ≤ (s.setStage i x).cover role b := by
  have hold := h (asleep_of_asleep_setStage hx hsleep)
  have hnew := cover_setStage role s b i x
  omega

/-- Waking sleepers only adds to the threads on the way to a token, and adds to
those on the way to a token of kind `b` if a sleeper of role `b` is picked. -/
theorem cover_notify (role : ι → Bool) (b : Bool) {picked : Finset ι}
    (hpick : ∀ j ∈ picked, s.stage j = .asleep) :
    s.cover role b + (if ∃ j ∈ picked, role j = b then 1 else 0) ≤
      cover role { s with stage := notify s.stage picked } b := by
  -- a predicate that is false of sleepers cannot lose a thread, as only sleepers move
  have hkeep : ∀ P : ι → Stage → Prop, (∀ j, ¬P j .asleep) → ∀ j, P j (s.stage j) →
      P j (notify s.stage picked j) := by
    intro P hP j hj
    have hmem : j ∉ picked := fun hmem => hP j (hpick j hmem ▸ hj)
    rwa [notify, if_neg hmem]
  have h1 := count_le_count (P := fun i x => role i ≠ b ∧ OwesSignal x)
    (hkeep (fun i x => role i ≠ b ∧ OwesSignal x) fun j => by simp [OwesSignal])
  have h3 := count_le_count (P := fun i x => role i = b ∧ Entering x)
    (hkeep (fun i x => role i = b ∧ Entering x) fun j => by simp [Entering])
  have hmono := hkeep (fun i x => role i = b ∧ x = locking .notified) fun j => by simp
  simp only [cover, owing, notified, entering]
  split_ifs with h
  · obtain ⟨j, hj, hb⟩ := h
    have h2 := count_lt_count (P := fun i x => role i = b ∧ x = locking .notified) hmono
      (i := j) (by simp [hpick j hj]) ⟨hb, by simp [notify, hj]⟩
    omega
  · have h2 := count_le_count (P := fun i x => role i = b ∧ x = locking .notified) hmono
    omega

/-! ### The lock -/

/-- The lock is held by the thread in the critical section. -/
def LockIff (s : Monitor ι) : Prop := ∀ i, s.lock = some i ↔ (s.stage i).Holding

omit [DecidableEq ι] [Fintype ι] in
/-- Only one thread is in the critical section. -/
theorem LockIff.unique (h : s.LockIff) {i j : ι} (hi : (s.stage i).Holding)
    (hj : (s.stage j).Holding) : i = j :=
  Option.some.inj (((h i).mpr hi).symm.trans ((h j).mpr hj))

omit [Fintype ι] in
/-- A move inside the critical section, or outside it. -/
theorem LockIff.setStage (h : s.LockIff) {i : ι} {x : Stage}
    (hx : (s.stage i).Holding ↔ x.Holding) : (s.setStage i x).LockIff := by
  intro j
  rcases eq_or_ne j i with rfl | hne
  · simpa [Monitor.setStage, ← hx] using h j
  · simpa [Monitor.setStage, Function.update_of_ne hne] using h j

omit [Fintype ι] in
/-- Taking the free lock. -/
theorem LockIff.acquire (h : s.LockIff) (hfree : s.lock = none) {i : ι} {x : Stage}
    (hx : x.Holding) : LockIff { s.setStage i x with lock := some i } := by
  intro j
  rcases eq_or_ne j i with rfl | hne
  · simpa [Monitor.setStage] using hx
  · have hj : ¬(s.stage j).Holding := fun hcon => by
      rw [← h j, hfree] at hcon
      exact absurd hcon (by simp)
    simpa [Monitor.setStage, Function.update_of_ne hne, hne.symm] using hj

omit [Fintype ι] in
/-- Releasing the lock. -/
theorem LockIff.release (h : s.LockIff) {i : ι} (hi : (s.stage i).Holding) {x : Stage}
    (hx : ¬x.Holding) : LockIff { s.setStage i x with lock := none } := by
  intro j
  rcases eq_or_ne j i with rfl | hne
  · simpa [Monitor.setStage] using hx
  · have hj : ¬(s.stage j).Holding := fun hcon => hne (h.unique hcon hi)
    simpa [Monitor.setStage, Function.update_of_ne hne] using hj

/-! ### Every move keeps the invariant -/

omit [Fintype ι] in
/-- Who is about to act after a thread has moved elsewhere was so before. -/
theorem acting_of_setStage {i j : ι} {x : Stage} (hx : x ≠ .acting)
    (h : (s.setStage i x).stage j = .acting) : s.stage j = .acting := by
  rcases eq_or_ne j i with rfl | hne
  · rw [setStage_self] at h
    exact absurd h hx
  · rwa [setStage_of_ne s x hne] at h

/-- A move that concerns neither the lock nor a token. -/
theorem Inv.setStage (h : s.Inv role) {i : ι} {x : Stage}
    (hlock : (s.stage i).Holding ↔ x.Holding) (hact : x ≠ .acting) (hsleep : x ≠ .asleep)
    (hw : ∀ b, weight role b i (s.stage i) ≤ weight role b i x) : (s.setStage i x).Inv role where
  lock_iff := LockIff.setStage h.lock_iff hlock
  acting_pos j hj := h.acting_pos j (acting_of_setStage hact hj)
  covered b := covered_setStage hsleep (hw b) (h.covered b)

theorem Inv.lock (h : s.Inv role) {i : ι} (hi : (s.stage i).AtLock) (hfree : s.lock = none) :
    Inv role { s.setStage i .testing with lock := some i } where
  lock_iff := LockIff.acquire h.lock_iff hfree (Or.inl rfl)
  acting_pos j hj := h.acting_pos j (acting_of_setStage (by decide) hj)
  covered b := by
    refine covered_setStage (by decide) ?_ (h.covered b)
    rcases hi with hi | hi | hi <;> simp [hi, weight, OwesSignal, Entering]

/-- **Going to sleep** is only possible without a token of the own kind. -/
theorem Inv.sleep (h : s.Inv role) {i : ι} (hi : s.stage i = .testing)
    (htok : s.tokens (role i) = 0) : Inv role { s.setStage i .asleep with lock := none } where
  lock_iff := LockIff.release h.lock_iff (Or.inl hi) (by decide)
  acting_pos j hj := h.acting_pos j (acting_of_setStage (by decide) hj)
  covered b := by
    intro hsleep
    -- of its own kind there is no token; for the other kind it was not on the way to one
    rcases eq_or_ne (role i) b with rfl | hne
    · exact htok ▸ Nat.zero_le _
    · have hold : ∃ j, role j = b ∧ s.stage j = .asleep :=
        (exists_of_exists_update (P := fun j x => role j = b ∧ x = asleep) hsleep).resolve_left
          fun hcon => hne hcon.1
      have hcov := h.covered b hold
      have hnew := cover_setStage role s b i asleep
      have hw : weight role b i (s.stage i) = 0 := by simp [weight, hi, hne, OwesSignal]
      change s.tokens b ≤ (s.setStage i .asleep).cover role b
      omega

/-- Finding a token. -/
theorem Inv.pass (h : s.Inv role) {i : ι} (hi : s.stage i = .testing)
    (htok : s.tokens (role i) ≠ 0) : (s.setStage i .acting).Inv role where
  lock_iff := LockIff.setStage h.lock_iff (by simp [hi, Holding])
  acting_pos j hj := by
    rcases eq_or_ne j i with rfl | hne
    · exact Nat.pos_of_ne_zero htok
    · rw [setStage_of_ne s _ hne] at hj
      exact h.acting_pos j hj
  covered b := covered_setStage (by decide) (by simp [hi, weight, OwesSignal, Entering])
    (h.covered b)

/-- **Acting** turns the thread from one that takes a token into one that owes a
signal for the other kind. -/
theorem Inv.act (h : s.Inv role) {i : ι} (hi : s.stage i = .acting) :
    Inv role { s.setStage i .unlocking with tokens := transfer s.tokens (role i) } where
  lock_iff := LockIff.setStage h.lock_iff (by simp [hi, Holding])
  acting_pos j hj := by
    have hj' : s.stage j = .acting := acting_of_setStage (by decide) hj
    obtain rfl : j = i := LockIff.unique h.lock_iff (by simp [hj', Holding]) (by simp [hi, Holding])
    simp [Monitor.setStage] at hj
  covered b := by
    intro hsleep
    have hcov := h.covered b (asleep_of_asleep_setStage (by decide) hsleep)
    have hnew := cover_setStage role s b i unlocking
    change transfer s.tokens (role i) b ≤ (s.setStage i .unlocking).cover role b
    -- a token of kind `b` goes together with the thread that was on the way to it, or comes
    -- together with the signal that is owed for it
    rcases eq_or_ne (role i) b with hb | hne
    · simp only [weight, hi, hb, OwesSignal, Entering, transfer] at hnew ⊢
      simp at hnew ⊢
      omega
    · simp only [weight, hi, OwesSignal, Entering, transfer] at hnew ⊢
      simp [hne, hne.symm] at hnew ⊢
      omega

/-- **Signalling**: the thread no longer owes a signal, and if somebody of the
other role is asleep, somebody of that role is now awake. -/
theorem Inv.signal (h : s.Inv role) {i : ι} (hi : s.stage i = .signalling) {picked : Finset ι}
    (hpick : ∀ j ∈ picked, Sleeper role s.stage i j)
    (hne : (∃ j, Sleeper role s.stage i j) → picked.Nonempty) :
    Inv role { s with stage := notify (Function.update s.stage i .outside) picked } := by
  have hmem : ∀ j ∈ picked, (s.setStage i .outside).stage j = .asleep := by
    intro j hj
    have hji : j ≠ i := fun hcon => by
      have hasleep := (hpick j hj).2
      rw [hcon, hi] at hasleep
      exact absurd hasleep (by decide)
    rw [setStage_of_ne s _ hji]
    exact (hpick j hj).2
  refine ⟨?_, ?_, ?_⟩
  · intro j
    have hlock := LockIff.setStage h.lock_iff (i := i) (x := outside) (by simp [hi, Holding]) j
    simp only [notify]
    split_ifs with hj
    · rw [hmem j hj] at hlock
      exact hlock.trans (by simp [Holding])
    · exact hlock
  · intro j hj
    simp only [notify] at hj
    split_ifs at hj
    exact h.acting_pos j (acting_of_setStage (by decide) hj)
  · intro b hsleep
    have hsleep' : ∃ j, role j = b ∧ s.stage j = .asleep := by
      obtain ⟨j, hb, hj⟩ := hsleep
      simp only [notify] at hj
      split_ifs at hj
      exact asleep_of_asleep_setStage (by decide) ⟨j, hb, hj⟩
    have hcov := h.covered b hsleep'
    have hnew := cover_setStage role s b i outside
    have hadd := cover_notify role b hmem
    refine le_trans (?_ : s.tokens b ≤ _) hadd
    -- the signal that is owed no longer counts; the sleeper it picked does
    rcases eq_or_ne (role i) b with hb | hb
    · simp only [weight, hi, hb, OwesSignal, Entering] at hnew
      simp at hnew
      omega
    · obtain ⟨j, hj⟩ := hne (hsleep'.imp fun j hj => ⟨fun hcon => hb (hcon.symm.trans hj.1), hj.2⟩)
      have hjb : ∃ j ∈ picked, role j = b := by
        refine ⟨j, hj, ?_⟩
        have := (hpick j hj).1
        revert this hb
        cases role i <;> cases role j <;> cases b <;> decide
      rw [if_pos hjb]
      simp only [weight, hi, OwesSignal, Entering] at hnew
      simp [hb] at hnew
      omega

/-- **Every move keeps the invariant.** -/
theorem Inv.step {t : Monitor ι} {m : MonitorMove ι} (h : s.Inv role)
    (hexec : (system role).exec s m = some t) : t.Inv role := by
  obtain ⟨hen, heff⟩ := StepSystem.exec_eq_some.mp hexec
  cases m with
  | arrive i =>
    obtain rfl := Option.some.inj heff
    exact h.setStage (by simp [show s.stage i = .outside from hen, Holding]) (by decide)
      (by decide) fun b => by
        simp [show s.stage i = .outside from hen, weight, OwesSignal, Entering]
  | depart i =>
    obtain rfl := Option.some.inj heff
    exact h.setStage (by simp [show s.stage i = .outside from hen, Holding]) (by decide)
      (by decide) fun b => by
        simp [show s.stage i = .outside from hen, weight, OwesSignal, Entering]
  | lock i =>
    obtain rfl := Option.some.inj heff
    exact h.lock hen.1 hen.2
  | test i =>
    have htest : s.stage i = .testing := hen
    by_cases htok : s.tokens (role i) = 0
    · simp only [system, htok, if_true, Option.some.injEq] at heff
      exact heff ▸ h.sleep htest htok
    · simp only [system, htok, if_false, Option.some.injEq] at heff
      exact heff ▸ h.pass htest htok
  | wake i =>
    obtain rfl := Option.some.inj heff
    exact h.setStage (by simp [show s.stage i = .asleep from hen, Holding]) (by decide)
      (by decide) fun b => by
        simp [show s.stage i = .asleep from hen, weight, OwesSignal, Entering]
  | act i =>
    obtain rfl := Option.some.inj heff
    exact h.act hen
  | unlock i =>
    have hunlock : s.stage i = .unlocking := hen
    obtain rfl := Option.some.inj heff
    exact ⟨LockIff.release h.lock_iff (by simp [hunlock, Holding]) (by decide),
      fun j hj => h.acting_pos j (acting_of_setStage (by decide) hj),
      fun b => covered_setStage (by decide) (by simp [hunlock, weight, OwesSignal, Entering])
        (h.covered b)⟩
  | signal i picked =>
    obtain rfl := Option.some.inj heff
    exact h.signal hen.1 hen.2.1 hen.2.2

/-! ### What the invariant says -/

omit [DecidableEq ι] in
/-- At most one thread is in the critical section without having acted. -/
theorem Inv.entering_le_one (h : s.Inv role) (b : Bool) : s.entering role b ≤ 1 :=
  count_le_one fun _ _ hi hj => LockIff.unique h.lock_iff hi.2.holding hj.2.holding

omit [DecidableEq ι] in
/-- While no thread of role `b` is in the critical section, none is there
without having acted. -/
theorem Inv.entering_eq_zero (h : s.Inv role) {b : Bool}
    (hfree : ∀ i, s.lock = some i → role i ≠ b) : s.entering role b = 0 :=
  count_eq_zero_iff.mpr fun i hi => hfree i ((h.lock_iff i).mpr hi.2.holding) hi.1

/-! ### Nobody is left behind -/

/-- A move a thread makes of its own accord: not one that waits for the world
outside the monitor, and not a spurious wake-up. -/
def Driven : MonitorMove ι → Prop
  | .arrive _ | .depart _ | .wake _ => False
  | _ => True

/-- In a state without driven moves the lock is free. -/
theorem Inv.lock_eq_none (h : s.Inv role)
    (hstuck : ∀ m, Driven m → (system role).exec s m = none) : s.lock = none := by
  cases hlock : s.lock with
  | none => rfl
  | some i =>
    exfalso
    rcases (h.lock_iff i).mp hlock with hi | hi | hi
    · have := hstuck (.test i) trivial
      by_cases htok : s.tokens (role i) = 0 <;> simp [StepSystem.exec, system, hi, htok] at this
    · simpa [StepSystem.exec, system, hi] using hstuck (.act i) trivial
    · simpa [StepSystem.exec, system, hi] using hstuck (.unlock i) trivial

/-- **In a state without driven moves** every thread is asleep or outside, and
whoever is asleep has no token to be woken for. -/
theorem Inv.quiescent (h : s.Inv role)
    (hstuck : ∀ m, Driven m → (system role).exec s m = none) :
    (∀ i, s.stage i = .outside ∨ s.stage i = .departed ∨ s.stage i = .asleep) ∧
      ∀ i, s.stage i = .asleep → s.tokens (role i) = 0 := by
  have hlock := h.lock_eq_none hstuck
  have hfree : ∀ i, ¬(s.stage i).Holding := fun i hi => by
    rw [← h.lock_iff i, hlock] at hi
    exact absurd hi (by simp)
  -- at every other stage the thread could move: the lock is free for it
  have hcalm : ∀ i, s.stage i = .outside ∨ s.stage i = .departed ∨ s.stage i = .asleep := by
    intro i
    cases hi : s.stage i with
    | outside => exact Or.inl rfl
    | departed => exact Or.inr (Or.inl rfl)
    | asleep => exact Or.inr (Or.inr rfl)
    | locking why =>
      have hat : (s.stage i).AtLock := atLock_iff.mpr ⟨why, hi⟩
      simpa [StepSystem.exec, system, hat, hlock] using hstuck (.lock i) trivial
    | signalling =>
      -- a signal that picks every thread it may pick
      have hstep := hstuck (.signal i (Finset.univ.filter (Sleeper role s.stage i))) trivial
      have hpicked : (∃ j, Sleeper role s.stage i j) →
          (Finset.univ.filter (Sleeper role s.stage i)).Nonempty :=
        fun ⟨j, hj⟩ => ⟨j, Finset.mem_filter.mpr ⟨Finset.mem_univ j, hj⟩⟩
      rw [StepSystem.exec, if_pos ⟨hi, fun j hj => (Finset.mem_filter.mp hj).2, hpicked⟩] at hstep
      exact absurd hstep (by simp [system])
    | _ => exact absurd (by simp [hi, Holding]) (hfree i)
  -- nobody is on the way to a token, so what a sleeper waits for is not there
  refine ⟨hcalm, ?_⟩
  intro i hi
  refine Nat.eq_zero_of_le_zero ?_
  have hcov := h.covered (role i) ⟨i, rfl, hi⟩
  have hnone : ∀ P : Stage → Prop, (¬P .outside ∧ ¬P .departed ∧ ¬P .asleep) →
      ∀ j, ¬P (s.stage j) := by
    rintro P ⟨h1, h2, h3⟩ j
    rcases hcalm j with hj | hj | hj <;> rwa [hj]
  have hzero : s.cover role (role i) = 0 := by
    have h1 : s.owing role (role i) = 0 := count_eq_zero_iff.mpr fun j hj =>
      hnone OwesSignal (by simp [OwesSignal]) j hj.2
    have h2 : s.notified role (role i) = 0 := count_eq_zero_iff.mpr fun j hj =>
      hnone (· = locking .notified) (by simp) j hj.2
    have h3 : s.entering role (role i) = 0 := count_eq_zero_iff.mpr fun j hj =>
      hnone Entering (by simp [Entering]) j hj.2
    rw [cover, h1, h2, h3]
  exact hzero ▸ hcov

end Monitor
