import GroupChat.Clock
import GroupChat.Pipeline.Guarantees

/-!
# The pipeline and the clock

The pipeline with its two calls of `getTime()`: the one in `insert_queue`, which
stamps an entry, and the one of `messageDeliver` behind the delivery loop, line 272,
from which the delay of the entry is computed. Here a move that makes such a call
comes with what `gettimeofday` stores, and the two offsets of `ntp.h` are fixed.

Each move of this system makes one move of the pipeline, so the pipeline's invariant
holds along it. Stamps are taken under `messageLock`, in
the order of insertion, which is the order of removal: if the clock never goes back,
neither do they, and every delay is the exact time between the two readings
(`GroupChat.timestamps_ordered`).
-/

namespace GroupChat

/-- A delay that `messageDeliver` has computed. -/
structure DelayRecord where
  /-- The ticket of the removal it belongs to. -/
  ticket : ℕ
  /-- What `gettimeofday` stored at the exit. -/
  timestamp : Timeval
  /-- The local `delay`. -/
  delay : UInt64
deriving DecidableEq

/-- The pipeline, with a record of the readings behind the stamps and of the delays. -/
structure TimedPipeline (np nc : ℕ) where
  base : Pipeline np nc
  /-- The reading of every insertion, oldest first. -/
  stamps : List Timeval
  /-- The delays, oldest first. -/
  delays : List DelayRecord

/-- A move of the scheduler. -/
inductive TimedMove (np nc : ℕ) where
  /-- `insert_queue`, with what `gettimeofday` stores in it. -/
  | insert (p : Fin np) (timestamp : Timeval)
  /-- The delivery loop ends; the exit time is taken and the delay computed. -/
  | finish (c : Fin nc) (timestamp : Timeval)
  /-- A move that does not call `getTime()`. -/
  | call (m : PipelineMove np nc)

variable {np nc n : ℕ}

/-- The reading that a move takes. -/
def TimedMove.timestamp? : TimedMove np nc → Option Timeval
  | .insert _ timestamp => some timestamp
  | .finish _ timestamp => some timestamp
  | .call _ => none

/-- The readings of a run, oldest first. -/
def readings (ms : List (TimedMove np nc)) : List Timeval := ms.filterMap TimedMove.timestamp?

/-- The clock never goes back along a run. -/
def NeverDecreases (ms : List (TimedMove np nc)) : Prop :=
  (readings ms).Pairwise fun a b => a.total ≤ b.total

instance (ms : List (TimedMove np nc)) : Decidable (NeverDecreases ms) :=
  inferInstanceAs (Decidable (List.Pairwise _ _))

/-- The moves of the pipeline that call `getTime()`. -/
def PipelineMove.readsClock : PipelineMove np nc → Bool
  | .insert _ _ => true
  | .finish _ => true
  | _ => false

/-- The moves of the pipeline with a clock. -/
def timedPipeline (np nc : ℕ) (o : Offsets) :
    StepSystem (TimedPipeline np nc) (TimedMove np nc) where
  enabled s
    | .insert p _ => s.base.stage (.inl p) = .acting
    | .finish c _ => s.base.stage (.inr c) = .outside
    | .call m => m.readsClock = false ∧ (pipeline np nc).enabled s.base m
  effect s
    | .insert p timestamp => (getTime o timestamp).bind fun insertTime =>
        ((pipeline np nc).exec s.base (.insert p insertTime)).map fun t =>
          { s with base := t, stamps := s.stamps ++ [timestamp] }
    | .finish c timestamp => (getTime o timestamp).bind fun exitTime =>
        (delay exitTime (s.base.messageWrapper c).insertTime).bind fun d =>
          ((pipeline np nc).exec s.base (.finish c)).map fun t =>
            { s with base := t, delays := s.delays ++ [⟨s.base.ticket c, timestamp, d⟩] }
    | .call m => ((pipeline np nc).exec s.base m).map fun t => { s with base := t }
  decEnabled s m := by
    cases m <;> simp only <;> infer_instance

/-- What has been removed stays on record. -/
theorem Pipeline.length_popped_le {s t : Pipeline np nc} {m : PipelineMove np nc}
    (h : (pipeline np nc).exec s m = some t) : s.popped.length ≤ t.popped.length := by
  have heff := (StepSystem.exec_eq_some.mp h).2
  cases m with
  | insert p now =>
    obtain ⟨_, -, rfl⟩ := Option.map_eq_some_iff.mp heff
    exact le_rfl
  | pop c =>
    obtain ⟨_, -, rfl⟩ := Option.map_eq_some_iff.mp heff
    exact List.length_append ▸ Nat.le_add_right _ _
  | test i =>
    obtain ⟨wait, -, rfl⟩ := Option.map_eq_some_iff.mp heff
    cases wait <;> exact le_rfl
  | _ =>
    obtain rfl := Option.some.inj heff
    exact le_rfl

namespace TimedPipeline

variable {o : Offsets} {s t : TimedPipeline np nc} {ms : List (TimedMove np nc)}

/-- The start of a run: the pipeline at its start, nothing stamped, nothing measured. -/
structure Initial (n : ℕ) (s : TimedPipeline np nc) : Prop where
  base : s.base.Initial n
  stamps : s.stamps = []
  delays : s.delays = []

/-- All entries that were ever queued, oldest first: those removed, then those from `l`
up to `r`. -/
def entries (s : TimedPipeline np nc) : List MessageQ :=
  s.base.popped.map Prod.fst ++ s.base.queue.contents

/-! ### What a move does -/

theorem insert_cases {p : Fin np} {timestamp : Timeval}
    (h : (timedPipeline np nc o).exec s (.insert p timestamp) = some t) :
    ∃ insertTime u, getTime o timestamp = some insertTime ∧
      (pipeline np nc).exec s.base (.insert p insertTime) = some u ∧
      t = { s with base := u, stamps := s.stamps ++ [timestamp] } := by
  obtain ⟨insertTime, htime, h⟩ := Option.bind_eq_some_iff.mp (StepSystem.exec_eq_some.mp h).2
  obtain ⟨u, hu, rfl⟩ := Option.map_eq_some_iff.mp h
  exact ⟨insertTime, u, htime, hu, rfl⟩

theorem finish_cases {c : Fin nc} {timestamp : Timeval}
    (h : (timedPipeline np nc o).exec s (.finish c timestamp) = some t) :
    ∃ exitTime d u, getTime o timestamp = some exitTime ∧
      delay exitTime (s.base.messageWrapper c).insertTime = some d ∧
      (pipeline np nc).exec s.base (.finish c) = some u ∧
      t = { s with base := u, delays := s.delays ++ [⟨s.base.ticket c, timestamp, d⟩] } := by
  obtain ⟨exitTime, htime, h⟩ := Option.bind_eq_some_iff.mp (StepSystem.exec_eq_some.mp h).2
  obtain ⟨d, hd, h⟩ := Option.bind_eq_some_iff.mp h
  obtain ⟨u, hu, rfl⟩ := Option.map_eq_some_iff.mp h
  exact ⟨exitTime, d, u, htime, hd, hu, rfl⟩

theorem call_cases {m : PipelineMove np nc}
    (h : (timedPipeline np nc o).exec s (.call m) = some t) :
    m.readsClock = false ∧ ∃ u, (pipeline np nc).exec s.base m = some u ∧
      t = { s with base := u } := by
  obtain ⟨hen, heff⟩ := StepSystem.exec_eq_some.mp h
  obtain ⟨u, hu, rfl⟩ := Option.map_eq_some_iff.mp heff
  exact ⟨hen.1, u, hu, rfl⟩

/-- A move that does not read the clock queues no entry. -/
theorem entries_of_call (h : s.base.Inv n) {m : PipelineMove np nc} {u : Pipeline np nc}
    (hm : m.readsClock = false) (hexec : (pipeline np nc).exec s.base m = some u) :
    entries { s with base := u } = s.entries := by
  cases m with
  | insert p now => cases hm
  | finish c => cases hm
  | pop c =>
    obtain ⟨e, q, -, -, hc, rfl⟩ := h.pop_cases hexec
    rw [entries, entries, hc, List.map_append, List.append_assoc]
    rfl
  | test i =>
    obtain ⟨wait, -, heff⟩ := Option.map_eq_some_iff.mp (StepSystem.exec_eq_some.mp hexec).2
    cases wait <;> exact heff ▸ rfl
  | _ =>
    obtain rfl := Option.some.inj (StepSystem.exec_eq_some.mp hexec).2
    rfl

/-! ### The invariant -/

/-- **The invariant** of a run with the moves `ms` made so far. -/
structure Inv (o : Offsets) (n : ℕ) (ms : List (TimedMove np nc)) (s : TimedPipeline np nc) :
    Prop where
  base : s.base.Inv n
  /-- Every entry bears the time of its reading. -/
  stamped : s.stamps.map (getTime o) = s.entries.map fun e => some e.insertTime
  /-- The readings behind the stamps are readings of the run. -/
  sublist : s.stamps.Sublist (readings ms)
  /-- A delay is the time from the stamp of its removal to the exit. -/
  delayed : ∀ d ∈ s.delays, d.ticket < s.base.popped.length ∧
    ∃ stamp, s.stamps[d.ticket]? = some stamp ∧
      (d.delay.toNat : ℤ) = d.timestamp.total - stamp.total

theorem readings_append (ms : List (TimedMove np nc)) (m : TimedMove np nc) :
    readings (ms ++ [m]) = readings ms ++ m.timestamp?.toList := by
  rw [readings, List.filterMap_append]
  cases h : m.timestamp? <;> simp [readings, h]

/-- The stamp of an entry. -/
theorem Inv.getTime_stamp (h : s.Inv o n ms) {k : ℕ} {e : MessageQ} (he : s.entries[k]? = some e) :
    ∃ stamp, s.stamps[k]? = some stamp ∧ getTime o stamp = some e.insertTime := by
  have hk := congrArg (fun l : List (Option Timeval) => l[k]?) h.stamped
  simp only [List.getElem?_map, he, Option.map_some] at hk
  exact Option.map_eq_some_iff.mp hk

theorem getElem?_entries {k : ℕ} {e : MessageQ} {wasEmpty : Bool}
    (he : s.base.popped[k]? = some (e, wasEmpty)) : s.entries[k]? = some e := by
  have hlt := (List.getElem?_eq_some_iff.mp he).1
  rw [entries, List.getElem?_append_left (by rwa [List.length_map]), List.getElem?_map, he]
  rfl

/-- The entry a consumer is about to measure, and the reading behind its stamp. -/
theorem Inv.exists_stamp (h : s.Inv o n ms) {c : Fin nc}
    (hstage : s.base.stage (.inr c) = .outside) :
    s.base.ticket c < s.base.popped.length ∧ ∃ stamp, s.stamps[s.base.ticket c]? = some stamp ∧
      getTime o stamp = some (s.base.messageWrapper c).insertTime := by
  have hheld := h.base.handled c (s.base.ticket c) (by simp [Pipeline.handling, hstage])
  exact ⟨(List.getElem?_eq_some_iff.mp hheld).1, h.getTime_stamp (getElem?_entries hheld)⟩

theorem Inv.insert (h : s.Inv o n ms) {p : Fin np} {timestamp : Timeval}
    (hexec : (timedPipeline np nc o).exec s (.insert p timestamp) = some t) :
    t.Inv o n (ms ++ [.insert p timestamp]) := by
  obtain ⟨insertTime, u, htime, hu, rfl⟩ := insert_cases hexec
  have hbase := h.base.step hu
  obtain ⟨q, -, -, hc, rfl⟩ := h.base.insert_cases hu
  refine ⟨hbase, ?_, ?_, ?_⟩
  · change (s.stamps ++ [timestamp]).map (getTime o) =
      (s.base.popped.map Prod.fst ++ q.contents).map fun e => some e.insertTime
    rw [hc, ← List.append_assoc, List.map_append, List.map_append, h.stamped]
    exact congrArg _ (congrArg (fun x => [x]) htime)
  · rw [readings_append]
    exact h.sublist.append (List.Sublist.refl _)
  · intro d hd
    obtain ⟨hlt, stamp, hstamp, heq⟩ := h.delayed d hd
    have hlen := (List.getElem?_eq_some_iff.mp hstamp).1
    exact ⟨hlt, stamp, (List.getElem?_append_left hlen).trans hstamp, heq⟩

theorem Inv.finish (h : s.Inv o n ms) {c : Fin nc} {timestamp : Timeval}
    (hclock : NeverDecreases (ms ++ [.finish c timestamp]))
    (hexec : (timedPipeline np nc o).exec s (.finish c timestamp) = some t) :
    t.Inv o n (ms ++ [.finish c timestamp]) := by
  obtain ⟨exitTime, d, u, htime, hd, hu, rfl⟩ := finish_cases hexec
  have hbase := h.base.step hu
  have hstage : s.base.stage (.inr c) = .outside := (StepSystem.exec_eq_some.mp hexec).1
  obtain rfl := Option.some.inj (StepSystem.exec_eq_some.mp hu).2
  obtain ⟨hlt, stamp, hstamp, htime'⟩ := h.exists_stamp hstage
  have hle : stamp.total ≤ timestamp.total := by
    rw [NeverDecreases, readings_append, List.pairwise_append] at hclock
    exact hclock.2.2 stamp (h.sublist.subset (List.mem_of_getElem? hstamp)) timestamp
      (List.mem_singleton.mpr rfl)
  refine ⟨hbase, h.stamped, ?_, ?_⟩
  · rw [readings_append]
    exact h.sublist.trans (List.sublist_append_left _ _)
  · intro x hx
    rcases List.mem_append.mp hx with hx | hx
    · exact h.delayed x hx
    · obtain rfl := List.mem_singleton.mp hx
      refine ⟨hlt, stamp, hstamp, ?_⟩
      -- the offsets cancel
      have hexit := (getTime_spec htime).2
      have hinsert := (getTime_spec htime').2
      have hexact := toNat_delay hd (by omega)
      change (d.toNat : ℤ) = timestamp.total - stamp.total
      omega

theorem Inv.call (h : s.Inv o n ms) {m : PipelineMove np nc}
    (hexec : (timedPipeline np nc o).exec s (.call m) = some t) :
    t.Inv o n (ms ++ [.call m]) := by
  obtain ⟨hm, u, hu, rfl⟩ := call_cases hexec
  refine ⟨h.base.step hu, ?_, ?_, ?_⟩
  · rw [entries_of_call h.base hm hu]
    exact h.stamped
  · rw [readings_append]
    exact h.sublist.trans (List.sublist_append_left _ _)
  · intro d hd
    obtain ⟨hlt, hstamp⟩ := h.delayed d hd
    exact ⟨hlt.trans_le (Pipeline.length_popped_le hu), hstamp⟩

theorem Initial.inv (h : s.Initial n) : s.Inv o n [] := by
  refine ⟨h.base.inv, ?_, ?_, ?_⟩
  · have hinv := h.base.inv
    have hfifo := congrArg List.length hinv.fifo
    rw [h.base.inserted, h.base.popped] at hfifo
    have hc : s.base.queue.contents = [] := by
      rw [← List.length_eq_zero_iff]
      simpa using hfifo.symm
    rw [h.stamps, entries, h.base.popped, hc]
    rfl
  · rw [h.stamps]
    exact List.nil_sublist _
  · simp [h.delays]

/-- **The invariant holds in every reachable state**, if the clock never goes back. -/
theorem Initial.inv_of_run (h : s.Initial n) (hclock : NeverDecreases ms)
    (hrun : (timedPipeline np nc o).run s ms = some t) : t.Inv o n ms := by
  refine StepSystem.run_history (P := fun ms t => NeverDecreases ms → t.Inv o n ms)
    (fun _ => h.inv) (fun ms m t u _ hinv hexec hclock => ?_) hrun hclock
  have hpast : NeverDecreases ms := by
    rw [NeverDecreases, readings_append] at hclock
    exact (List.pairwise_append.mp hclock).1
  cases m with
  | insert p timestamp => exact (hinv hpast).insert hexec
  | finish c timestamp => exact (hinv hpast).finish hclock hexec
  | call m => exact (hinv hpast).call hexec

/-- The times of all entries are in order. -/
theorem Inv.entries_sorted (h : s.Inv o n ms) (hclock : NeverDecreases ms) :
    (s.entries.map MessageQ.insertTime).Pairwise fun a b => a.total ≤ b.total := by
  have hstamps : (s.stamps.map (getTime o)).Pairwise fun a b =>
      ∀ x ∈ a, ∀ y ∈ b, x.total ≤ y.total := by
    refine List.pairwise_map.mpr ((hclock.sublist h.sublist).imp fun hle x hx y hy => ?_)
    have hx := (getTime_spec hx).2
    have hy := (getTime_spec hy).2
    omega
  rw [h.stamped, List.pairwise_map] at hstamps
  rw [List.pairwise_map]
  exact hstamps.imp fun h => h _ rfl _ rfl

/-- **Measuring is defined** as long as the time measured stays a second away from the
limits of a `long`. -/
theorem Inv.exists_finish (h : s.Inv o n ms) {c : Fin nc} {timestamp exitTime : Timeval}
    (hstage : s.base.stage (.inr c) = .outside) (htime : getTime o timestamp = some exitTime)
    (hspan : ∀ stamp ∈ s.stamps, |timestamp.total - stamp.total| + 1000000 ≤ 2 ^ 63) :
    ∃ t, (timedPipeline np nc o).exec s (.finish c timestamp) = some t := by
  obtain ⟨-, stamp, hstamp, htime'⟩ := h.exists_stamp hstage
  obtain ⟨hnorm, htotal⟩ := getTime_spec htime
  obtain ⟨hnorm', htotal'⟩ := getTime_spec htime'
  have hdiff : exitTime.total - (s.base.messageWrapper c).insertTime.total =
      timestamp.total - stamp.total := by
    omega
  have hdelay := delay_eq hnorm hnorm' (by
    rw [hdiff]
    exact hspan stamp (List.mem_of_getElem? hstamp))
  obtain ⟨u, hu⟩ := h.base.exists_exec (m := .finish c) hstage
  have heff : ∃ t, (timedPipeline np nc o).effect s (.finish c timestamp) = some t := by
    simp only [timedPipeline, htime, hdelay, hu, Option.bind_some, Option.map_some]
    exact ⟨_, rfl⟩
  exact heff.imp fun _ ht => StepSystem.exec_eq_some.mpr ⟨hstage, ht⟩

end TimedPipeline

open TimedPipeline in
/-- **Stamps are ordered and delays exact.** If the clock never goes back, the queued
entries from `l` to `r` are in the order of their insert times, and so are the removed
ones across all consumers; and every delay is the number of microseconds, not negative,
from the reading at the insertion of its message to the reading at its exit. -/
theorem timestamps_ordered {o : Offsets} {s t : TimedPipeline np nc}
    {ms : List (TimedMove np nc)} (hs : s.Initial n) (hclock : NeverDecreases ms)
    (hrun : (timedPipeline np nc o).run s ms = some t) :
    (t.base.queue.contents.map MessageQ.insertTime).Pairwise (fun a b => a.total ≤ b.total) ∧
      (t.base.popped.map fun x => x.1.insertTime).Pairwise (fun a b => a.total ≤ b.total) ∧
      ∀ d ∈ t.delays, ∃ stamp e, t.stamps[d.ticket]? = some stamp ∧
        t.base.popped[d.ticket]? = some (e, false) ∧
        t.base.inserted[d.ticket]? = some (e.message, 0) ∧
        getTime o stamp = some e.insertTime ∧
        (d.delay.toNat : ℤ) = d.timestamp.total - stamp.total := by
  have hinv := hs.inv_of_run hclock hrun
  have hsorted := hinv.entries_sorted hclock
  rw [entries, List.map_append, List.pairwise_append, List.map_map] at hsorted
  refine ⟨hsorted.2.1, hsorted.1, ?_⟩
  intro d hd
  obtain ⟨hlt, stamp, hstamp, heq⟩ := hinv.delayed d hd
  obtain ⟨⟨e, wasEmpty⟩, he⟩ : ∃ x, t.base.popped[d.ticket]? = some x :=
    ⟨_, List.getElem?_eq_getElem hlt⟩
  obtain rfl : wasEmpty = false := hinv.base.nonempty _ (List.mem_of_getElem? he)
  refine ⟨stamp, e, hstamp, he, ?_, ?_, heq⟩
  · -- what was removed under the ticket is what was inserted under it
    have hfifo := congrArg (fun l : List Message => l[d.ticket]?) hinv.base.fifo
    simp only [List.getElem?_map] at hfifo
    rw [List.getElem?_append_left (by rwa [List.length_map]), List.getElem?_map, he] at hfifo
    obtain ⟨⟨m, rc⟩, hins, hm⟩ := Option.map_eq_some_iff.mp hfifo
    have hrc : rc = 0 := hinv.base.accepted _ (List.mem_of_getElem? hins)
    rw [hins, hrc]
    exact congrArg some (Prod.ext hm rfl)
  · obtain ⟨stamp', hstamp', htime⟩ := hinv.getTime_stamp (getElem?_entries he)
    obtain rfl := Option.some.inj (hstamp.symm.trans hstamp')
    exact htime

/-- One producer hands over a message, one consumer takes it, half a second later. -/
def timedHandOver : List (TimedMove 1 1) :=
  let p := Fin.last 0
  let c := Fin.last 0
  [.call (.read p (Message.blank 7 3)), .call (.lock (.inl p)), .call (.test (.inl p)),
    .insert p ⟨5, 700000⟩, .call (.unlock (.inl p)), .call (.signal (.inl p) ∅),
    .call (.lock (.inr c)), .call (.test (.inr c)), .call (.pop c), .call (.unlock (.inr c)),
    .call (.signal (.inr c) ∅), .finish c ⟨6, 200000⟩]

/-- The delay is the half second, although neither reading is the time that was stamped. -/
theorem timestamps_ordered_timedHandOver :
    ∃ t d stamp, (timedPipeline 1 1 ⟨-3, -800000⟩).run
        ⟨Pipeline.start 1 1 (newQueue 1), [], []⟩ timedHandOver = some t ∧
      t.delays = [d] ∧ t.stamps[d.ticket]? = some stamp ∧ d.delay = 500000 ∧
      (d.delay.toNat : ℤ) = d.timestamp.total - stamp.total := by
  obtain ⟨t, hrun, hdelays⟩ : ∃ t, (timedPipeline 1 1 ⟨-3, -800000⟩).run
      ⟨Pipeline.start 1 1 (newQueue 1), [], []⟩ timedHandOver = some t ∧
        t.delays = [⟨0, ⟨6, 200000⟩, 500000⟩] :=
    StepSystem.exists_run (by decide +kernel)
  have hinit : TimedPipeline.Initial 1
      (⟨Pipeline.start 1 1 (newQueue 1), [], []⟩ : TimedPipeline 1 1) :=
    ⟨Pipeline.initial_start (exists_initQueue_newQueue (by decide)), rfl, rfl⟩
  obtain ⟨-, -, hexact⟩ := timestamps_ordered hinit (by decide) hrun
  obtain ⟨stamp, -, hstamp, -, -, -, heq⟩ :=
    hexact ⟨0, ⟨6, 200000⟩, 500000⟩ (by rw [hdelays]; exact List.mem_singleton.mpr rfl)
  exact ⟨t, _, stamp, hrun, hdelays, hstamp, rfl, heq⟩

end GroupChat
