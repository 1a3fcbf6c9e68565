import GroupChat.Rig.Evaluation
import Mathlib.Algebra.BigOperators.Ring.Finset
import Mathlib.Algebra.Group.Action.Defs
import Mathlib.Data.Fintype.BigOperators
import Mathlib.Data.Fintype.Prod

/-!
# The loss check of the test rig

Three programs have to agree on a count. A test has a message for each signalled client,
the server logs a record for each of them, and each of them is due at all other members
of its group (`GroupChat.dueCopies`). `performTest` compares the number of the clients'
records with the number of copies that are due; but it compares the number of the
server's records with the number of messages of a single group.

So with one group, and as many names as clients, the warnings are right
(`GroupChat.loss_check_iff`); with two groups there is a warning although nothing is lost
(`GroupChat.performTest_twoGroups`). A test in which everything has come to everybody is
evaluated to its end (`GroupChat.Outcome.Complete.completes`), but one in which no copy is
due, as with a single client, never is (`GroupChat.Outcome.not_completes`).
-/

namespace GroupChat

/-! ### Messages and copies -/

/-- **Counting** what is there once at most: no more than there can be, and as many only if
nothing is missing. -/
theorem length_le_card {α : Type*} [DecidableEq α] {xs : List α} {due : Finset α}
    (hnodup : xs.Nodup) (hdue : ∀ x ∈ xs, x ∈ due) :
    xs.length ≤ due.card ∧ (xs.length = due.card ↔ ∀ x ∈ due, x ∈ xs) := by
  have hsub : xs.toFinset ⊆ due := fun x hx => hdue x (List.mem_toFinset.mp hx)
  rw [← List.toFinset_card_of_nodup hnodup]
  refine ⟨Finset.card_le_card hsub, ?_⟩
  constructor
  · intro hcard x hx
    rw [← Finset.eq_of_subset_of_card_le hsub hcard.ge] at hx
    exact List.mem_toFinset.mp hx
  · intro hall
    exact congrArg Finset.card (hsub.antisymm fun x hx => List.mem_toFinset.mpr (hall x hx))

/-- A message of a test, by the group and the number of the client that is signalled. -/
abbrev Sent (G S : ℕ) := Fin G × Fin S

/-- The copies that are due: each message at each other member of its group. -/
def dueCopies (G U S : ℕ) : Finset (Sent G S × Fin U) :=
  Finset.univ.filter fun c => (c.1.2 : ℕ) ≠ c.2

theorem mem_dueCopies {G U S : ℕ} {c : Sent G S × Fin U} :
    c ∈ dueCopies G U S ↔ (c.1.2 : ℕ) ≠ c.2 := by simp [dueCopies]

theorem card_dueCopies {G U S : ℕ} (hS : S ≤ U) : (dueCopies G U S).card = G * S * (U - 1) := by
  have hrow : ∀ m : Sent G S,
      (Finset.univ.filter fun k : Fin U => (m.2 : ℕ) ≠ k).card = U - 1 := by
    intro m
    have hne : (Finset.univ.filter fun k : Fin U => (m.2 : ℕ) ≠ k) =
        Finset.univ.erase ⟨m.2, m.2.isLt.trans_le hS⟩ := by
      ext k
      simp [Fin.ext_iff, eq_comm]
    rw [hne, Finset.card_erase_of_mem (Finset.mem_univ _), Finset.card_univ, Fintype.card_fin]
  rw [dueCopies, Finset.card_filter, Fintype.sum_prod_type]
  simp only [← Finset.card_filter, hrow, Finset.sum_const, Finset.card_univ, Fintype.card_prod,
    Fintype.card_fin, smul_eq_mul]

/-! ### Outcomes -/

/-- What the server and the clients have made of a test: the messages whose records the
server has logged, and those each client has received, with the delays in the records. A
message is processed once and sent to the others of its group, and one that has come to
all of them has its record. -/
structure Outcome (G U S : ℕ) where
  processed : List (Sent G S × UInt64)
  received : Fin G → Fin U → List (Sent G S × UInt64)
  processed_once : (processed.map Prod.fst).Nodup
  fanOut : ∀ g k, ∀ m ∈ (received g k).map Prod.fst, m.1 = g ∧ (m.2 : ℕ) ≠ k
  logged : ∀ m, (∀ k : Fin U, (m.2 : ℕ) ≠ k → m ∈ (received m.1 k).map Prod.fst) →
    m ∈ processed.map Prod.fst

namespace Outcome

variable {G U S : ℕ} (o : Outcome G U S)

/-- The logs that are left. -/
def logs : LogFiles where
  server := some (o.processed.map Prod.snd)
  client i j := if h : i < G ∧ j < U then
    some ((o.received ⟨i, h.1⟩ ⟨j, h.2⟩).map Prod.snd) else none

/-- Nobody has received a message twice. -/
def NoDuplicates : Prop := ∀ g k, ((o.received g k).map Prod.fst).Nodup

/-- Every message has come to all other members of its group, once to each. -/
def Complete : Prop :=
  o.NoDuplicates ∧ ∀ m (k : Fin U), (m.2 : ℕ) ≠ k → m ∈ (o.received m.1 k).map Prod.fst

/-- A message was not processed, or a copy not received. -/
def Lossy : Prop :=
  (∃ m, m ∉ o.processed.map Prod.fst) ∨
    ∃ m, ∃ k : Fin U, (m.2 : ℕ) ≠ k ∧ m ∉ (o.received m.1 k).map Prod.fst

/-- Everything that was received, with the receivers. -/
def copies : List (Sent G S × Fin U) :=
  (List.finRange G).flatMap fun g => (List.finRange U).flatMap fun k =>
    (o.received g k).map fun r => (r.1, k)

variable {o}

theorem mem_copies {c : Sent G S × Fin U} :
    c ∈ o.copies ↔ c.1 ∈ (o.received c.1.1 c.2).map Prod.fst := by
  constructor
  · intro h
    obtain ⟨g, -, h⟩ := List.mem_flatMap.mp h
    obtain ⟨k, -, h⟩ := List.mem_flatMap.mp h
    obtain ⟨r, hr, rfl⟩ := List.mem_map.mp h
    have hmem : r.1 ∈ (o.received g k).map Prod.fst := List.mem_map_of_mem hr
    obtain rfl := (o.fanOut g k _ hmem).1
    exact hmem
  · intro h
    obtain ⟨r, hr, hm⟩ := List.mem_map.mp h
    refine List.mem_flatMap.mpr ⟨c.1.1, List.mem_finRange _, ?_⟩
    refine List.mem_flatMap.mpr ⟨c.2, List.mem_finRange _, ?_⟩
    exact List.mem_map.mpr ⟨r, hr, Prod.ext hm rfl⟩

theorem NoDuplicates.nodup_copies (h : o.NoDuplicates) : o.copies.Nodup := by
  refine List.nodup_flatMap.mpr ⟨fun g _ => List.nodup_flatMap.mpr ⟨fun k _ => ?_, ?_⟩, ?_⟩
  · have hinj : Function.Injective fun m : Sent G S => (m, k) := fun _ _ heq => (Prod.mk.inj heq).1
    have := (h g k).map hinj
    rwa [List.map_map] at this
  · refine (List.nodup_finRange U).imp fun {k k'} hne c hc hc' => hne ?_
    obtain ⟨r, -, rfl⟩ := List.mem_map.mp hc
    obtain ⟨r', -, heq⟩ := List.mem_map.mp hc'
    exact (Prod.mk.inj heq).2.symm
  · refine (List.nodup_finRange G).imp fun {g g'} hne c hc hc' => hne ?_
    obtain ⟨k, -, hc⟩ := List.mem_flatMap.mp hc
    obtain ⟨k', -, hc'⟩ := List.mem_flatMap.mp hc'
    obtain ⟨r, hr, rfl⟩ := List.mem_map.mp hc
    obtain ⟨r', hr', heq⟩ := List.mem_map.mp hc'
    -- a message is received in its own group only
    have hg := (o.fanOut g k _ (List.mem_map_of_mem hr)).1
    have hg' := (o.fanOut g' k' _ (List.mem_map_of_mem hr')).1
    rw [← hg, ← hg', (Prod.mk.inj heq).1]

/-- **Counting copies**: there are at most as many as are due, and as many only if none is
missing. -/
theorem NoDuplicates.length_copies (h : o.NoDuplicates) (hS : S ≤ U) :
    o.copies.length ≤ G * S * (U - 1) ∧ (o.copies.length = G * S * (U - 1) ↔
      ∀ m (k : Fin U), (m.2 : ℕ) ≠ k → m ∈ (o.received m.1 k).map Prod.fst) := by
  have hdue : ∀ c ∈ o.copies, c ∈ dueCopies G U S := fun c hc =>
    mem_dueCopies.mpr (o.fanOut _ _ _ (mem_copies.mp hc)).2
  obtain ⟨hle, hiff⟩ := length_le_card h.nodup_copies hdue
  rw [card_dueCopies hS] at hle hiff
  refine ⟨hle, hiff.trans ?_⟩
  simp only [mem_dueCopies, mem_copies, Prod.forall]

/-- Counting messages. -/
theorem length_processed :
    o.processed.length ≤ G * S ∧
      (o.processed.length = G * S ↔ ∀ m, m ∈ o.processed.map Prod.fst) := by
  obtain ⟨hle, hiff⟩ := length_le_card o.processed_once fun m _ => Finset.mem_univ m
  simpa only [List.length_map, Finset.card_univ, Fintype.card_prod, Fintype.card_fin,
    Finset.mem_univ, true_imp_iff] using And.intro hle hiff

/-- The records of the clients, log after log. -/
def clientRecords (o : Outcome G U S) : List (List UInt64) :=
  (List.finRange G).flatMap fun g => (List.finRange U).map fun k =>
    (o.received g k).map Prod.snd

theorem clients_logs : o.logs.clients G U = o.clientRecords.map some := by
  rw [LogFiles.clients, clientRecords, List.map_flatMap, ← List.map_coe_finRange_eq_range,
    ← List.map_coe_finRange_eq_range, List.flatMap_map]
  refine List.flatMap_congr fun g _ => ?_
  rw [List.map_map, List.map_map]
  refine List.map_congr_left fun k _ => ?_
  simp [logs]

theorem length_clientRecords : o.clientRecords.flatten.length = o.copies.length := by
  simp only [clientRecords, copies, List.length_flatten, List.flatMap,
    List.map_flatten, List.sum_flatten, List.map_map, Function.comp_def, List.length_map]

theorem length_clientRecords_logs : (o.logs.clientRecords G U).length = o.copies.length := by
  have hrecords : o.logs.clientRecords G U = o.clientRecords.flatten := by
    rw [LogFiles.clientRecords, clients_logs, List.flatMap_map]
    exact List.flatMap_id
  rw [hrecords, length_clientRecords]

theorem length_serverRecords_logs : o.logs.serverRecords.length = o.processed.length :=
  List.length_map _

end Outcome

/-! ### The check -/

variable {G U S : ℕ} {o : Outcome G U S}

/-- Two hundred names are enough for everything to be a value of an `int`. -/
theorem Outcome.NoDuplicates.readable (hnodup : o.NoDuplicates) (hG : 1 ≤ G) (hS : S ≤ U)
    (hnames : G * U ≤ 200) : o.logs.Readable G U S := by
  have hmessages : G * S ≤ 200 := (Nat.mul_le_mul_left G hS).trans hnames
  have hcopies : G * S * (U - 1) ≤ 200 * 200 := by
    have hU' : U ≤ 200 := (Nat.le_mul_of_pos_left U hG).trans hnames
    exact Nat.mul_le_mul hmessages (by omega)
  have hserver := (o.length_processed).1.trans hmessages
  have hclients := (hnodup.length_copies hS).1.trans hcopies
  constructor
  · rfl
  · intro i hi j hj
    simp [Outcome.logs, hi, hj]
  · rw [Outcome.length_serverRecords_logs]
    exact hserver.trans_lt (by decide)
  · rw [Outcome.length_clientRecords_logs]
    exact hclients.trans_lt (by decide)
  · exact hmessages.trans_lt (by decide)
  · exact hcopies.trans_lt (by decide)

/-- **What the test prints**, where there are names and nothing was received twice: a
warning, unless there are as many records of the server as messages in a group, and as
many of the clients as copies are due. -/
theorem exists_performTest (temp : UInt64) (hG : 1 ≤ G) (hU : 1 ≤ U) (hS : S ≤ U)
    (hnames : G ≤ 8 ∧ G * U ≤ 200) (hnodup : o.NoDuplicates) :
    ∃ fuel₀, ∀ fuel ≥ fuel₀, ∃ r, performTest fuel temp o.logs G U S = some r ∧
      (r.Warns ↔ ¬(o.processed.length = S ∧ o.copies.length = G * S * (U - 1))) := by
  obtain ⟨connections, hconnections⟩ := (exists_createClients_iff hG hU).mpr hnames
  obtain ⟨signalled, hsignalled⟩ := exists_signalClients hconnections hS
  obtain ⟨fuel₀, hends⟩ : ∃ fuel₀, ∀ fuel ≥ fuel₀, evaluateLogs fuel temp o.logs G U S = some _ :=
    (evaluateLogs_terminates_iff hU).mpr ⟨hnodup.readable hG hS hnames.2, rfl⟩
  refine ⟨fuel₀, fun fuel hfuel => ⟨(o.logs.evaluation G U S).report, ?_, ?_⟩⟩
  · rw [performTest_eq_evaluateLogs, hconnections, Option.bind_some, hsignalled, Option.bind_some,
      hends fuel hfuel, Option.map_some]
  · rw [LogFiles.evaluation, warns_reportAverages, ← not_and_or, Nat.cast_inj, Nat.cast_inj,
      Outcome.length_serverRecords_logs, Outcome.length_clientRecords_logs]

/-- Nothing is missing. -/
theorem Outcome.Complete.lengths (h : o.Complete) (hS : S ≤ U) :
    o.processed.length = G * S ∧ o.copies.length = G * S * (U - 1) :=
  ⟨Outcome.length_processed.2.mpr fun m => o.logged m (h.2 m), (h.1.length_copies hS).2.mpr h.2⟩

/-- Something is missing, and shows in one of the counts. -/
theorem Outcome.Lossy.lengths (h : o.Lossy) (hnodup : o.NoDuplicates) (hS : S ≤ U) :
    ¬(o.processed.length = G * S ∧ o.copies.length = G * S * (U - 1)) := by
  rintro ⟨hprocessed, hcopies⟩
  rcases h with ⟨m, hm⟩ | ⟨m, k, hne, hm⟩
  · exact hm (Outcome.length_processed.2.mp hprocessed m)
  · exact hm ((hnodup.length_copies hS).2.mp hcopies m k hne)

/-- The logs are read to their ends, and the report that the test then prints has a property.
Whether the averages behind the warnings are there, or a count is zero, is left open. -/
def Outcome.Prints (o : Outcome G U S) (temp : UInt64) (P : Report → Prop) : Prop :=
  ∃ fuel₀, ∀ fuel ≥ fuel₀, ∃ r, performTest fuel temp o.logs G U S = some r ∧ P r

/-- **The loss check agrees with the logs**: no warning where nothing is missing, and one
where something is. -/
def LossCheckAgrees (G U S : ℕ) : Prop :=
  ∀ (o : Outcome G U S) (temp : UInt64), (o.Complete → o.Prints temp fun r => ¬r.Warns) ∧
    (o.Lossy → o.NoDuplicates → o.Prints temp Report.Warns)

/-- Everything has come to everybody. -/
def Outcome.everything (G U S : ℕ) : Outcome G U S where
  processed := (List.finRange G ×ˢ List.finRange S).map fun m => (m, 0)
  received g k := ((List.finRange S).filter fun j : Fin S => (j : ℕ) ≠ k).map fun j => ((g, j), 0)
  processed_once := by
    rw [List.map_map]
    exact ((List.nodup_finRange G).product (List.nodup_finRange S)).map fun _ _ heq => heq
  fanOut g k m hm := by
    simp only [List.map_map, List.mem_map, List.mem_filter, Function.comp_apply] at hm
    obtain ⟨j, ⟨-, hne⟩, rfl⟩ := hm
    exact ⟨rfl, of_decide_eq_true hne⟩
  logged m _ := by
    rw [List.map_map]
    exact List.mem_map.mpr ⟨m, List.pair_mem_product.mpr
      ⟨List.mem_finRange _, List.mem_finRange _⟩, rfl⟩

theorem Outcome.complete_everything (G U S : ℕ) : (everything G U S).Complete := by
  constructor
  · intro g k
    rw [everything, List.map_map]
    exact ((List.nodup_finRange S).filter _).map fun _ _ heq => (Prod.mk.inj heq).2
  · intro m k hne
    simp [everything, hne, Prod.ext_iff]

/-- **The loss check is right with one group**, of at most as many clients as there are
names, and not otherwise: with more groups it warns where nothing is missing, and without
names it does not get that far. -/
theorem loss_check_iff (hG : 1 ≤ G) (hU : 2 ≤ U) (hS : 1 ≤ S) (hSU : S ≤ U) :
    LossCheckAgrees G U S ↔ G = 1 ∧ U ≤ 200 := by
  constructor
  · intro h
    obtain ⟨fuel₀, hprints⟩ := (h (.everything G U S) 0).1 (Outcome.complete_everything G U S)
    obtain ⟨hprocessed, hcopies⟩ := (Outcome.complete_everything G U S).lengths hSU
    have hnames : G ≤ 8 ∧ G * U ≤ 200 := by
      obtain ⟨r, hr, -⟩ := hprints fuel₀ le_rfl
      obtain ⟨connections, hconnections, -⟩ := Option.bind_eq_some_iff.mp hr
      exact (exists_createClients_iff hG (by omega)).mp ⟨connections, hconnections⟩
    obtain ⟨fuel₁, hwarns⟩ := exists_performTest (o := .everything G U S) 0 hG (by omega) hSU
      hnames (Outcome.complete_everything G U S).1
    obtain ⟨r, hr, hnone⟩ := hprints (max fuel₀ fuel₁) (le_max_left _ _)
    obtain ⟨r', hr', hiff⟩ := hwarns (max fuel₀ fuel₁) (le_max_right _ _)
    obtain rfl := Option.some.inj (hr.symm.trans hr')
    -- the server has a record for each message of all groups
    have hone : G * S = S := hprocessed.symm.trans (not_not.mp (hiff.not.mp hnone)).1
    obtain rfl : G = 1 := Nat.eq_of_mul_eq_mul_right hS (hone.trans (Nat.one_mul S).symm)
    exact ⟨rfl, by omega⟩
  · rintro ⟨rfl, hU'⟩ o temp
    have hnames : 1 ≤ 8 ∧ 1 * U ≤ 200 := ⟨by decide, by omega⟩
    constructor
    · intro hcomplete
      obtain ⟨fuel₀, hprints⟩ := exists_performTest (o := o) temp hG (by omega) hSU hnames
        hcomplete.1
      refine ⟨fuel₀, fun fuel hfuel => ?_⟩
      obtain ⟨r, hr, hiff⟩ := hprints fuel hfuel
      obtain ⟨hprocessed, hcopies⟩ := hcomplete.lengths hSU
      exact ⟨r, hr, hiff.not.mpr (not_not.mpr ⟨hprocessed.trans (Nat.one_mul S), hcopies⟩)⟩
    · intro hlossy hnodup
      obtain ⟨fuel₀, hprints⟩ := exists_performTest (o := o) temp hG (by omega) hSU hnames hnodup
      refine ⟨fuel₀, fun fuel hfuel => ?_⟩
      obtain ⟨r, hr, hiff⟩ := hprints fuel hfuel
      refine ⟨r, hr, hiff.mpr fun ⟨hprocessed, hcopies⟩ => ?_⟩
      exact hlossy.lengths hnodup hSU ⟨hprocessed.trans (Nat.one_mul S).symm, hcopies⟩

/-- One group of two clients, one of which sends a message. -/
theorem loss_check_iff_oneGroup : LossCheckAgrees 1 2 1 :=
  (loss_check_iff (by decide) (by decide) (by decide) (by decide)).mpr ⟨rfl, by decide⟩

/-- **Two groups**, and a message in each that comes to the other client: the test prints
that messages are not delivered. -/
theorem performTest_twoGroups :
    (Outcome.everything 2 2 1).Complete ∧
      (performTest 3 0 (Outcome.everything 2 2 1).logs 2 2 1).map Report.printed =
        some [.notDelivered 1 2, .averageServerDelay 0, .averageClientDelay 0] :=
  ⟨Outcome.complete_everything 2 2 1, by decide +kernel⟩

/-! ### Which tests complete -/

/-- **A test in which everything has come to everybody completes**, if there are two clients
in a group, one of them is signalled, and the delays can be added up. -/
theorem Outcome.Complete.completes (h : o.Complete) (temp : UInt64) (hG : 1 ≤ G) (hU : 2 ≤ U)
    (hS : 1 ≤ S) (hSU : S ≤ U) (hnames : G * U ≤ 200)
    (hserver : total o.logs.serverRecords < 2 ^ 64)
    (hclient : total (o.logs.clientRecords G U) < 2 ^ 64) : Completes temp o.logs G U S := by
  obtain ⟨hprocessed, hcopies⟩ := h.lengths hSU
  have hmessages : 0 < G * S := Nat.mul_pos hG hS
  refine LogFiles.Evaluable.completes (by omega) ⟨h.1.readable hG hSU hnames, ?_, ?_, hserver,
    hclient⟩
  · rw [← List.length_pos_iff, Outcome.length_serverRecords_logs, hprocessed]
    exact hmessages
  · rw [← List.length_pos_iff, Outcome.length_clientRecords_logs, hcopies]
    exact Nat.mul_pos hmessages (by omega)

/-- **Nothing to average**: where no copy is due, as with a single client or without a
message, the evaluation does not complete, whatever the processes do. -/
theorem Outcome.not_completes (o : Outcome G U S) (temp : UInt64) (hU : 1 ≤ U) (hS : S ≤ U)
    (hnone : G * S * (U - 1) = 0) : ¬Completes temp o.logs G U S := by
  intro h
  have hcopies : o.copies = [] := by
    refine List.eq_nil_iff_forall_not_mem.mpr fun c hc => ?_
    have hdue : c ∈ dueCopies G U S := mem_dueCopies.mpr (o.fanOut _ _ _ (mem_copies.mp hc)).2
    rw [Finset.card_eq_zero.mp ((card_dueCopies hS).trans hnone)] at hdue
    exact Finset.notMem_empty c hdue
  refine (h.evaluable hU).client_ne_nil (List.length_eq_zero_iff.mp ?_)
  rw [Outcome.length_clientRecords_logs, hcopies, List.length_nil]

end GroupChat
