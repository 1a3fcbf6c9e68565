import Mathlib.Data.List.Basic
import Mathlib.Data.List.Induction

/-!
# Step systems

A concurrent program, seen by its scheduler: a state, a list of moves, and for
each move the question whether some thread can make it now (`StepSystem.enabled`)
and what it then does (`StepSystem.effect`). The two are kept apart because they
fail for different reasons. A move that is not enabled is one the scheduler
cannot choose; an enabled move without an effect is one whose statement has no
defined meaning, such as an access outside an array.

Runs are lists of moves (`StepSystem.run`), so that they can be evaluated. What
holds along a run is proved once, here: `StepSystem.run_invariant` carries an
invariant from state to state, `StepSystem.run_history` an invariant that also
speaks about the moves made so far, `StepSystem.run_progress` shows that a
run never meets an undefined move, `StepSystem.length_le_of_run` that it comes to
an end, and `StepSystem.run_simulation` follows the run of one system by runs of
another, move by move in `StepSystem.run_lockstep`, under conditions on both in
`StepSystem.run_follow`.
-/

/-- A system that moves by the choices of a scheduler. -/
structure StepSystem (σ μ : Type*) where
  /-- Whether some thread can make this move in this state. -/
  enabled : σ → μ → Prop
  /-- What the move does, `none` where it has no defined meaning. -/
  effect : σ → μ → Option σ
  /-- The scheduler's question can be answered. -/
  decEnabled : ∀ s m, Decidable (enabled s m)

namespace StepSystem

variable {σ τ μ ν : Type*} (S : StepSystem σ μ) (T : StepSystem τ ν)

instance (s : σ) (m : μ) : Decidable (S.enabled s m) := S.decEnabled s m

/-- One move, made if it is enabled. -/
def exec (s : σ) (m : μ) : Option σ := if S.enabled s m then S.effect s m else none

/-- A list of moves, made one after the other. -/
def run : σ → List μ → Option σ
  | s, [] => some s
  | s, m :: ms => (S.exec s m).bind fun t => run t ms

variable {S T}

theorem exec_eq_some {s t : σ} {m : μ} :
    S.exec s m = some t ↔ S.enabled s m ∧ S.effect s m = some t := by
  unfold exec
  by_cases h : S.enabled s m <;> simp [h]

theorem isSome_exec {s : σ} {m : μ} (hen : S.enabled s m) (heff : (S.effect s m).isSome) :
    (S.exec s m).isSome := by
  obtain ⟨t, ht⟩ := Option.isSome_iff_exists.mp heff
  exact Option.isSome_iff_exists.mpr ⟨t, exec_eq_some.mpr ⟨hen, ht⟩⟩

@[simp] theorem run_nil (s : σ) : S.run s [] = some s := rfl

@[simp] theorem run_cons (s : σ) (m : μ) (ms : List μ) :
    S.run s (m :: ms) = (S.exec s m).bind fun t => S.run t ms := rfl

theorem run_append (s : σ) (ms ns : List μ) :
    S.run s (ms ++ ns) = (S.run s ms).bind fun t => S.run t ns := by
  induction ms generalizing s with
  | nil => rfl
  | cons m ms ih => simp only [List.cons_append, run_cons, ih, Option.bind_assoc]

theorem run_append_eq_some {s u : σ} {ms ns : List μ} :
    S.run s (ms ++ ns) = some u ↔ ∃ t, S.run s ms = some t ∧ S.run t ns = some u := by
  rw [run_append, Option.bind_eq_some_iff]

theorem run_concat_eq_some {s u : σ} {ms : List μ} {m : μ} :
    S.run s (ms ++ [m]) = some u ↔ ∃ t, S.run s ms = some t ∧ S.exec t m = some u := by
  rw [run_append_eq_some]
  simp

/-- What a run leads to can be found out by making it. -/
theorem exists_run {s : σ} {ms : List μ} {P : σ → Prop} [DecidablePred P]
    (h : (S.run s ms).any (fun t => decide (P t)) = true) : ∃ t, S.run s ms = some t ∧ P t := by
  obtain ⟨t, ht, hP⟩ := (Option.any_eq_true _ _).mp h
  exact ⟨t, ht, of_decide_eq_true hP⟩

/-! ### Conditions on the steps of a run -/

variable (S) in
/-- Every step the run takes meets the condition `G`, a condition on the state
before the step and on the move. -/
def Always (G : σ → μ → Prop) : σ → List μ → Prop
  | _, [] => True
  | s, m :: ms => G s m ∧ ∀ t, S.exec s m = some t → Always G t ms

variable {G H : σ → μ → Prop}

@[simp] theorem always_nil (s : σ) : S.Always G s [] := trivial

@[simp] theorem always_cons {s : σ} {m : μ} {ms : List μ} :
    S.Always G s (m :: ms) ↔ G s m ∧ ∀ t, S.exec s m = some t → S.Always G t ms :=
  Iff.rfl

theorem always_append {s : σ} {ms ns : List μ} :
    S.Always G s (ms ++ ns) ↔
      S.Always G s ms ∧ ∀ t, S.run s ms = some t → S.Always G t ns := by
  induction ms generalizing s with
  | nil => simp
  | cons m ms ih =>
    simp only [List.cons_append, always_cons, ih, run_cons, Option.bind_eq_some_iff]
    constructor
    · rintro ⟨hg, h⟩
      refine ⟨⟨hg, fun t ht => (h t ht).1⟩, ?_⟩
      rintro u ⟨t, ht, hu⟩
      exact (h t ht).2 u hu
    · rintro ⟨⟨hg, h⟩, h'⟩
      exact ⟨hg, fun t ht => ⟨h t ht, fun u hu => h' u ⟨t, ht, hu⟩⟩⟩

theorem always_concat {s : σ} {ms : List μ} {m : μ} :
    S.Always G s (ms ++ [m]) ↔ S.Always G s ms ∧ ∀ t, S.run s ms = some t → G t m := by
  rw [always_append]
  simp

theorem always_true (s : σ) (ms : List μ) : S.Always (fun _ _ => True) s ms := by
  induction ms generalizing s with
  | nil => trivial
  | cons m ms ih => exact ⟨trivial, fun t _ => ih t⟩

theorem always_and {s : σ} {ms : List μ} :
    S.Always (fun s m => G s m ∧ H s m) s ms ↔ S.Always G s ms ∧ S.Always H s ms := by
  induction ms generalizing s with
  | nil => simp
  | cons m ms ih =>
    simp only [always_cons, ih]
    constructor
    · rintro ⟨⟨hg, hh⟩, h⟩
      exact ⟨⟨hg, fun t ht => (h t ht).1⟩, hh, fun t ht => (h t ht).2⟩
    · rintro ⟨⟨hg, h⟩, hh, h'⟩
      exact ⟨⟨hg, hh⟩, fun t ht => ⟨h t ht, h' t ht⟩⟩

theorem Always.mono (h : ∀ s m, G s m → H s m) {s : σ} {ms : List μ} :
    S.Always G s ms → S.Always H s ms := by
  induction ms generalizing s with
  | nil => exact fun _ => trivial
  | cons m ms ih => exact fun hs => ⟨h s m hs.1, fun t ht => ih (hs.2 t ht)⟩

/-- Whether every step meets a condition can be found out by making the run. -/
def decidableAlways [∀ s m, Decidable (G s m)] : ∀ s ms, Decidable (S.Always G s ms)
  | _, [] => isTrue trivial
  | s, m :: ms =>
    match h : S.exec s m with
    | none => decidable_of_iff (G s m) ⟨fun hg => ⟨hg, fun t ht => by simp [h] at ht⟩, And.left⟩
    | some t =>
      haveI := decidableAlways t ms
      decidable_of_iff (G s m ∧ S.Always G t ms)
        ⟨fun hg => ⟨hg.1, fun u hu => by rw [h] at hu; exact Option.some.inj hu ▸ hg.2⟩,
          fun hg => ⟨hg.1, hg.2 t h⟩⟩

instance [∀ s m, Decidable (G s m)] (s : σ) (ms : List μ) : Decidable (S.Always G s ms) :=
  decidableAlways s ms

/-- A condition holds of every step exactly when it holds of the last step of
every prefix. -/
theorem always_iff_prefixes {s : σ} {ms : List μ} :
    S.Always G s ms ↔
      ∀ pre m t, pre ++ [m] <+: ms → S.run s pre = some t → G t m := by
  induction ms using List.reverseRecOn with
  | nil => simp
  | append_singleton ms m ih =>
    -- a prefix that ends in a move is an older one, or the whole list
    rw [always_concat, ih]
    constructor
    · rintro ⟨h, hm⟩ pre a t hpre ht
      rcases List.prefix_concat_iff.mp hpre with heq | hlt
      · obtain ⟨rfl, rfl⟩ := List.append_inj' heq rfl |>.imp_right List.singleton_inj.mp
        exact hm t ht
      · exact h pre a t hlt ht
    · intro h
      exact ⟨fun pre a t hpre ht => h pre a t (hpre.trans (List.prefix_append ms [m])) ht,
        fun t ht => h ms m t (List.prefix_refl _) ht⟩

/-! ### Invariants of runs -/

/-- **The invariant rule.** What every step keeps, a whole run keeps. -/
theorem run_invariant {I : σ → Prop}
    (hstep : ∀ s m t, I s → G s m → S.exec s m = some t → I t) {s t : σ} {ms : List μ}
    (hs : I s) (hG : S.Always G s ms) (hrun : S.run s ms = some t) : I t := by
  induction ms generalizing s with
  | nil =>
    rw [run_nil, Option.some.injEq] at hrun
    exact hrun ▸ hs
  | cons m ms ih =>
    obtain ⟨u, hu, hrest⟩ := Option.bind_eq_some_iff.mp hrun
    exact ih (hstep s m u hs hG.1 hu) (hG.2 u hu) hrest

/-- The invariant rule for steps under no condition. -/
theorem run_invariant' {I : σ → Prop} (hstep : ∀ s m t, I s → S.exec s m = some t → I t)
    {s t : σ} {ms : List μ} (hs : I s) (hrun : S.run s ms = some t) : I t :=
  run_invariant (G := fun _ _ => True) (fun s m t hI _ h => hstep s m t hI h) hs
    (always_true s ms) hrun

/-- **Invariants with a history**: a property of the moves made and the state
they lead to, kept by every further move. -/
theorem run_history {s : σ} {P : List μ → σ → Prop} (h0 : P [] s)
    (hstep : ∀ ms m t u, S.run s ms = some t → P ms t → S.exec t m = some u → P (ms ++ [m]) u)
    {ms : List μ} {t : σ} (hrun : S.run s ms = some t) : P ms t := by
  induction ms using List.reverseRecOn generalizing t with
  | nil =>
    rw [run_nil, Option.some.injEq] at hrun
    exact hrun ▸ h0
  | append_singleton ms m ih =>
    obtain ⟨u, hu, hm⟩ := run_concat_eq_some.mp hrun
    exact hstep ms m u t hu (ih hu) hm

/-- **Progress.** If under the invariant every step that meets the condition has
an effect, a run whose steps meet the condition goes through to its end. -/
theorem run_progress {I : σ → Prop}
    (hstep : ∀ s m, I s → G s m → ∃ t, S.exec s m = some t ∧ I t) {s : σ} {ms : List μ}
    (hs : I s) (hG : S.Always G s ms) : ∃ t, S.run s ms = some t ∧ I t := by
  induction ms generalizing s with
  | nil => exact ⟨s, rfl, hs⟩
  | cons m ms ih =>
    obtain ⟨u, hu, hIu⟩ := hstep s m hs hG.1
    obtain ⟨t, ht, hIt⟩ := ih hIu (hG.2 u hu)
    exact ⟨t, by rw [run_cons, hu]; exact ht, hIt⟩

/-- **Schedules within limits.** A list of moves that meets a condition throughout and
stays within limits goes through to its end, if under the history so far every step
within the limits has an effect. -/
theorem run_schedule {s : σ} {P : List μ → σ → Prop} {Q : List μ → Prop}
    (hQ : ∀ ms m, Q (ms ++ [m]) → Q ms) (h0 : P [] s)
    (hstep : ∀ ms m t, P ms t → Q (ms ++ [m]) → G t m → ∃ u, S.exec t m = some u ∧ P (ms ++ [m]) u)
    {ms : List μ} (hG : S.Always G s ms) (hms : Q ms) : ∃ t, S.run s ms = some t ∧ P ms t := by
  induction ms using List.reverseRecOn with
  | nil => exact ⟨s, rfl, h0⟩
  | append_singleton ms m ih =>
    obtain ⟨hG, hm⟩ := always_concat.mp hG
    obtain ⟨t, ht, hP⟩ := ih hG (hQ ms m hms)
    obtain ⟨u, hu, hPu⟩ := hstep ms m t hP hms (hm t ht)
    exact ⟨u, run_concat_eq_some.mpr ⟨t, ht, hu⟩, hPu⟩

/-- **Termination.** If under the invariant every step that meets the condition lowers the
measure, a run whose steps meet the condition is no longer than the measure is at first. -/
theorem length_le_of_run {I : σ → Prop} {f : σ → ℕ}
    (hstep : ∀ s m t, I s → G s m → S.exec s m = some t → I t ∧ f t < f s) {s t : σ} {ms : List μ}
    (hs : I s) (hG : S.Always G s ms) (hrun : S.run s ms = some t) : ms.length ≤ f s := by
  induction ms generalizing s with
  | nil => exact Nat.zero_le _
  | cons m ms ih =>
    obtain ⟨u, hu, hrest⟩ := Option.bind_eq_some_iff.mp hrun
    obtain ⟨hI, hlt⟩ := hstep s m u hs hG.1 hu
    exact Nat.lt_of_le_of_lt (ih hI (hG.2 u hu) hrest) hlt

/-- **Coming to rest.** If moreover some step that meets the condition can be made as long as
`P` does not hold, a run of such steps leads to a state where it does. -/
theorem exists_run_until {I P : σ → Prop} {f : σ → ℕ}
    (hstep : ∀ s m t, I s → G s m → S.exec s m = some t → I t ∧ f t < f s)
    (hprogress : ∀ s, I s → ¬P s → ∃ m, G s m ∧ (S.exec s m).isSome) {s : σ} (hs : I s) :
    ∃ ms t, S.Always G s ms ∧ S.run s ms = some t ∧ P t := by
  induction hf : f s using Nat.strongRecOn generalizing s with
  | ind k ih =>
    by_cases hP : P s
    · exact ⟨[], s, trivial, rfl, hP⟩
    · obtain ⟨m, hG, hsome⟩ := hprogress s hs hP
      obtain ⟨u, hu⟩ := Option.isSome_iff_exists.mp hsome
      obtain ⟨hI, hlt⟩ := hstep s m u hs hG hu
      obtain ⟨ms, t, hms, hrun, ht⟩ := ih (f u) (hf ▸ hlt) hI rfl
      refine ⟨m :: ms, t, ⟨hG, fun v hv => ?_⟩, by rw [run_cons, hu]; exact hrun, ht⟩
      obtain rfl := Option.some.inj (hu.symm.trans hv)
      exact hms

/-! ### Simulation -/

/-- **Lockstep simulation.** If every enabled move of `S` has an effect, and so
has the same move of `T`, a list of moves enabled in `S` runs through on both. -/
theorem run_lockstep {T : StepSystem τ μ} {R : σ → τ → Prop}
    (hstep : ∀ s t m, R s t → S.enabled s m →
      ∃ s' t', S.exec s m = some s' ∧ T.exec t m = some t' ∧ R s' t')
    {s : σ} {t : τ} {ms : List μ} (hR : R s t) (hen : S.Always S.enabled s ms) :
    ∃ s' t', S.run s ms = some s' ∧ T.run t ms = some t' ∧ R s' t' := by
  induction ms generalizing s t with
  | nil => exact ⟨s, t, rfl, rfl, hR⟩
  | cons m ms ih =>
    obtain ⟨u, v, hu, hv, hRuv⟩ := hstep s t m hR hen.1
    obtain ⟨s', t', hs', ht', hR'⟩ := ih hRuv (hen.2 u hu)
    exact ⟨s', t', by rw [run_cons, hu]; exact hs', by rw [run_cons, hv]; exact ht', hR'⟩

/-- **Simulation.** If every move of `S` is matched by a list of moves of `T`,
every run of `S` is matched by a run of `T`. -/
theorem run_simulation {R : σ → τ → Prop}
    (hstep : ∀ s m s' t, R s t → S.exec s m = some s' → ∃ ns t', T.run t ns = some t' ∧ R s' t')
    {s s' : σ} {t : τ} {ms : List μ} (hR : R s t) (hrun : S.run s ms = some s') :
    ∃ ns t', T.run t ns = some t' ∧ R s' t' := by
  induction ms generalizing s t with
  | nil =>
    rw [run_nil, Option.some.injEq] at hrun
    exact ⟨[], t, rfl, hrun ▸ hR⟩
  | cons m ms ih =>
    obtain ⟨u, hu, hrest⟩ := Option.bind_eq_some_iff.mp hrun
    obtain ⟨ns, v, hv, hRv⟩ := hstep s m u t hR hu
    obtain ⟨ns', t', ht', hR'⟩ := ih hRv hrest
    exact ⟨ns ++ ns', t', run_append_eq_some.mpr ⟨v, hv, ht'⟩, hR'⟩

/-- **Simulation under conditions.** If every move of `S` that meets the condition `G` is
matched by a list of moves of `T` that meet the condition `H`, so is every run. -/
theorem run_follow {R : σ → τ → Prop} {H : τ → ν → Prop}
    (hstep : ∀ s m s' t, R s t → G s m → S.exec s m = some s' →
      ∃ ns t', T.run t ns = some t' ∧ T.Always H t ns ∧ R s' t')
    {s s' : σ} {t : τ} {ms : List μ} (hR : R s t) (hG : S.Always G s ms)
    (hrun : S.run s ms = some s') : ∃ ns t', T.run t ns = some t' ∧ T.Always H t ns ∧ R s' t' := by
  induction ms generalizing s t with
  | nil =>
    rw [run_nil, Option.some.injEq] at hrun
    exact ⟨[], t, rfl, trivial, hrun ▸ hR⟩
  | cons m ms ih =>
    obtain ⟨u, hu, hrest⟩ := Option.bind_eq_some_iff.mp hrun
    obtain ⟨ns, v, hv, hH, hRv⟩ := hstep s m u t hR hG.1 hu
    obtain ⟨ns', t', ht', hH', hR'⟩ := ih hRv (hG.2 u hu) hrest
    refine ⟨ns ++ ns', t', run_append_eq_some.mpr ⟨v, hv, ht'⟩, always_append.mpr ⟨hH, ?_⟩, hR'⟩
    intro w hw
    obtain rfl := Option.some.inj (hv.symm.trans hw)
    exact hH'

end StepSystem
