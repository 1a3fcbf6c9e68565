import GroupChat.Library.Enrolment
import GroupChat.Registry.Model

/-!
# The slots of the registry

`connectionCount` and `connections`, whatever the names are. Every join that has a
meaning ends with the same two statements, so the counts number the members of
each group in the order of their joins, and a slot belongs to the one member it
was assigned to (`GroupChat.Lobby.Slots`). This part of the invariant is all that
the delivery of messages rests on.

The three moves are stated once, in terms of what they do to the two tables
(`GroupChat.LobbyStep`); everything about later states follows from these.
-/

namespace GroupChat

open Enrolment

/-! ### The tables -/

namespace Registry

variable {reg reg' : Registry} {g i : ℕ} {fd : ℤ}

/-- A store to a slot changes this slot. -/
theorem exists_setConnection (reg : Registry) (hg : g < maxGroups) (hi : i < maxGroupSize)
    (fd : ℤ) :
    ∃ reg', reg.setConnection g i fd = some reg' ∧ reg'.groupNames = reg.groupNames ∧
      reg'.connectionCount = reg.connectionCount ∧ reg'.groupCount = reg.groupCount ∧
      ∀ g' i', reg'.connection? g' i' =
        if g' = g ∧ i' = i then some fd else reg.connection? g' i' := by
  refine ⟨{ reg with connections :=
    reg.connections.setIfInBounds g (reg.connections[g].setIfInBounds i fd) },
    ?_, rfl, rfl, rfl, ?_⟩
  · simp only [setConnection, Vector.getElem?_eq_getElem hg, Option.bind_eq_bind, Option.bind_some,
      if_pos hi]
    rfl
  · intro g' i'
    simp only [connection?, Option.bind_eq_bind, Vector.getElem?_setIfInBounds]
    rcases eq_or_ne g' g with rfl | hne
    · rcases eq_or_ne i' i with rfl | hne'
      · simp [hg, hi]
      · simp [hg, hne', hne'.symm]
    · simp [hne, hne.symm]

theorem lt_of_setConnection (h : reg.setConnection g i fd = some reg') :
    g < maxGroups ∧ i < maxGroupSize := by
  obtain ⟨row, hrow, h⟩ := Option.bind_eq_some_iff.mp h
  by_cases hi : i < maxGroupSize
  · exact ⟨(Vector.getElem?_eq_some_iff.mp hrow).1, hi⟩
  · rw [if_neg hi] at h
    exact absurd h (by simp)

theorem lt_of_connection? (h : reg.connection? g i = some fd) :
    g < maxGroups ∧ i < maxGroupSize := by
  obtain ⟨row, hrow, hslot⟩ := Option.bind_eq_some_iff.mp h
  exact ⟨(Vector.getElem?_eq_some_iff.mp hrow).1, (Vector.getElem?_eq_some_iff.mp hslot).1⟩

/-- What the two statements at the end of both branches do to the tables. -/
structure Assigned (reg reg' : Registry) (g id : ℕ) (fd : ℤ) : Prop where
  groupNames : reg'.groupNames = reg.groupNames
  groupCount : reg'.groupCount = reg.groupCount
  connectionCount : ∀ g', reg'.connectionCount[g']? =
    if g' = g then some (id + 1) else reg.connectionCount[g']?
  connection : ∀ g' i, reg'.connection? g' i =
    if g' = g ∧ i = id then some fd else reg.connection? g' i

theorem assign_eq_some (reg : Registry) {id : ℕ} (hg : reg.connectionCount[g]? = some id)
    (hid : id < maxGroupSize) (fd : ℤ) :
    ∃ reg', reg.assign g fd = some (reg', g, id) ∧ reg.Assigned reg' g id fd := by
  have hlt : g < maxGroups := (Vector.getElem?_eq_some_iff.mp hg).1
  obtain ⟨reg', hset, hnames, hcounts, hgroups, hslots⟩ := exists_setConnection
    { reg with connectionCount := reg.connectionCount.setIfInBounds g (id + 1) } hlt hid fd
  refine ⟨reg', ?_, hnames, hgroups, ?_, hslots⟩
  · simp only [assign, hg, Option.bind_eq_bind, Option.bind_some, hset]
    rfl
  · intro g'
    rw [hcounts]
    simp only [Vector.getElem?_setIfInBounds]
    rcases eq_or_ne g' g with rfl | hne
    · simp [hlt]
    · simp [hne, hne.symm]

theorem of_assign_eq_some {p : ℕ × ℕ} (h : reg.assign g fd = some (reg', p)) :
    p.1 = g ∧ reg.connectionCount[g]? = some p.2 ∧ p.2 < maxGroupSize ∧
      reg.Assigned reg' g p.2 fd := by
  obtain ⟨id, hcount, hrest⟩ := Option.bind_eq_some_iff.mp h
  obtain ⟨reg'', hset, heq⟩ := Option.bind_eq_some_iff.mp hrest
  obtain ⟨-, rfl⟩ := Prod.mk.inj (Option.some.inj heq)
  have hid := (lt_of_setConnection hset).2
  obtain ⟨reg₂, hassign, hassigned⟩ := assign_eq_some reg hcount hid fd
  obtain ⟨rfl, -⟩ := Prod.mk.inj (Option.some.inj (hassign.symm.trans h))
  exact ⟨rfl, hcount, hid, hassigned⟩

/-- Both branches of a join end with the same two statements, on the slots and
counts as they were. -/
theorem exists_assign_of_join {request : JoinRequest} {p : ℕ × ℕ}
    (h : reg.join request fd = some (reg', p)) :
    ∃ (reg₁ : Registry) (g : ℕ), reg₁.connections = reg.connections ∧
      reg₁.connectionCount = reg.connectionCount ∧ reg₁.assign g fd = some (reg', p) := by
  obtain ⟨found, -, h⟩ := Option.bind_eq_some_iff.mp h
  cases found with
  | some i => exact ⟨reg, i, rfl, rfl, h⟩
  | none =>
    obtain ⟨_, -, h⟩ := Option.bind_eq_some_iff.mp h
    obtain ⟨names, -, h⟩ := Option.bind_eq_some_iff.mp h
    exact ⟨{ reg with groupNames := names, groupCount := reg.groupCount + 1 }, reg.groupCount,
      rfl, rfl, h⟩

end Registry

/-! ### Members that stay -/

/-- The order in which a member comes to its phases. -/
def Phase.rank : Phase → ℕ
  | joined => 0
  | serving => 1
  | departed => 2

/-- Who has not departed had not departed before. -/
theorem Phase.ne_departed {p q : Phase} (hrank : p.rank ≤ q.rank) (h : q ≠ .departed) :
    p ≠ .departed := by
  rintro rfl
  cases q <;> simp [Phase.rank] at hrank h

/-- Later members: nobody is gone from the list, nobody is another one, and
nobody has come back. -/
def Grows (ms ms' : List Member) : Prop :=
  ∀ (k : ℕ) (m : Member), ms[k]? = some m →
    ∃ p, ms'[k]? = some (m.atPhase p) ∧ m.phase.rank ≤ p.rank

theorem Grows.refl (ms : List Member) : Grows ms ms := fun _ m h => ⟨m.phase, h, Nat.le_refl _⟩

theorem Grows.trans {ms ms' ms'' : List Member} (h : Grows ms ms') (h' : Grows ms' ms'') :
    Grows ms ms'' := by
  intro k m hm
  obtain ⟨p, hp, hle⟩ := h k m hm
  obtain ⟨p', hp', hle'⟩ := h' k _ hp
  exact ⟨p', hp', hle.trans hle'⟩

theorem Grows.length_le {ms ms' : List Member} (h : Grows ms ms') : ms.length ≤ ms'.length := by
  by_contra hlt
  obtain ⟨p, hp, -⟩ := h ms'.length _ (List.getElem?_eq_getElem (by omega))
  simp at hp

theorem grows_append (ms ns : List Member) : Grows ms (ms ++ ns) := by
  intro k m hm
  refine ⟨m.phase, ?_, Nat.le_refl _⟩
  rw [List.getElem?_append_left (List.getElem?_eq_some_iff.mp hm).1, hm]
  rfl

theorem grows_modify {ms : List Member} {k : ℕ} {p : Phase}
    (h : ∀ m, ms[k]? = some m → m.phase.rank ≤ p.rank) :
    Grows ms (ms.modify k fun m => m.atPhase p) := by
  intro j m hm
  rcases eq_or_ne k j with rfl | hne
  · exact ⟨p, by simp [hm], h m hm⟩
  · exact ⟨m.phase, by simp only [List.getElem?_modify, hne, if_false, hm]; rfl, Nat.le_refl _⟩

/-! ### The slots of the members -/

namespace Lobby

/-- The number of members that have joined a group. -/
def groupSize (s : Lobby) (g : ℕ) : ℕ := s.members.countP fun m => m.groupId = g

/-- **The invariant of the slots.** -/
structure Slots (s : Lobby) : Prop where
  numbered : Numbered Member.groupId Member.id s.members
  connectionCount : ∀ g < maxGroups, s.registry.connectionCount[g]? = some (s.groupSize g)
  connection : ∀ m ∈ s.members, s.registry.connection? m.groupId m.id =
    some (if m.phase = .departed then -1 else m.nsfd)

variable {s : Lobby}

theorem slots_start : start.Slots where
  numbered := .nil
  connectionCount g hg := by simp [start, Registry.zero, groupSize, hg]
  connection m hm := by simp [start] at hm

theorem Slots.lt_of_mem (h : s.Slots) {m : Member} (hm : m ∈ s.members) :
    m.groupId < maxGroups ∧ m.id < maxGroupSize :=
  Registry.lt_of_connection? (h.connection m hm)

/-- Every slot below the count belongs to a member. -/
theorem Slots.exists_member (h : s.Slots) {g i : ℕ} (hi : i < s.groupSize g) :
    ∃ (k : ℕ) (m : Member), s.members[k]? = some m ∧ m.groupId = g ∧ m.id = i := by
  obtain ⟨m, hm, hg, hid⟩ := h.numbered.exists_of_lt hi
  obtain ⟨k, hk⟩ := List.mem_iff_getElem?.mp hm
  exact ⟨k, m, hk, hg, hid⟩

/-- A newcomer takes the slot behind those of its group. -/
theorem Slots.enroll (h : s.Slots) {request : JoinRequest} {nsfd : ℤ} {g id : ℕ} {reg : Registry}
    (hid : id = s.groupSize g)
    (hcounts : ∀ g', reg.connectionCount[g']? =
      if g' = g then some (id + 1) else s.registry.connectionCount[g']?)
    (hslots : ∀ g' i, reg.connection? g' i =
      if g' = g ∧ i = id then some nsfd else s.registry.connection? g' i) :
    Slots ⟨reg, s.members ++ [⟨request, nsfd, g, id, .joined⟩]⟩ where
  numbered := h.numbered.concat hid
  connectionCount g' hlt := by
    refine (hcounts g').trans ?_
    rw [groupSize, List.countP_append]
    split_ifs with heq
    · subst heq
      simp [hid, groupSize]
    · rw [h.connectionCount g' hlt, groupSize]
      simp [Ne.symm heq]
  connection m hm := by
    refine (hslots m.groupId m.id).trans ?_
    rcases List.mem_append.mp hm with hmem | hmem
    · -- an older member of the group has a smaller id, so its slot is not the new one
      have hlt := h.numbered.rank_lt hmem
      rw [if_neg ?_]
      · exact h.connection m hmem
      · rintro ⟨hg, heq⟩
        rw [hg, heq, hid] at hlt
        exact Nat.lt_irrefl _ hlt
    · obtain rfl := List.mem_singleton.mp hmem
      simp

theorem getElem?_setPhase {k j : ℕ} {p : Phase} {m : Member} (hm : s.members[j]? = some m) :
    (s.setPhase k p)[j]? = some (if k = j then m.atPhase p else m) := by
  simp only [setPhase, List.getElem?_modify, hm]
  split_ifs <;> simp

theorem exists_of_getElem?_setPhase {k j : ℕ} {p : Phase} {m : Member}
    (hm : (s.setPhase k p)[j]? = some m) :
    ∃ m', s.members[j]? = some m' ∧ m = if k = j then m'.atPhase p else m' := by
  have hlt : j < s.members.length := by
    have := (List.getElem?_eq_some_iff.mp hm).1
    rwa [setPhase, List.length_modify] at this
  have hold := List.getElem?_eq_getElem hlt
  rw [getElem?_setPhase hold, Option.some.injEq] at hm
  exact ⟨_, hold, hm.symm⟩

/-- What does not depend on the phase of a member stays. -/
theorem map_setPhase {β : Type*} (f : Member → β) (hf : ∀ m p, f (Member.atPhase m p) = f m) (k : ℕ)
    (p : Phase) : (s.setPhase k p).map f = s.members.map f := by
  refine List.ext_getElem? fun j => ?_
  simp only [setPhase, List.getElem?_map, List.getElem?_modify]
  cases s.members[j]? with
  | none => rfl
  | some m => split_ifs <;> simp [hf]

theorem groupSize_setPhase (reg : Registry) (k : ℕ) (p : Phase) (g : ℕ) :
    groupSize ⟨reg, s.setPhase k p⟩ g = s.groupSize g := by
  have h := congrArg (List.countP id)
    (map_setPhase (s := s) (fun m => decide (m.groupId = g)) (fun _ _ => rfl) k p)
  simpa [groupSize, List.countP_map] using h

/-- A change of phases and slots keeps the invariant, if the slots follow the
phases. -/
theorem Slots.setPhase (h : s.Slots) {k : ℕ} {p : Phase} {reg : Registry}
    (hcounts : reg.connectionCount = s.registry.connectionCount)
    (hslots : ∀ (j : ℕ) (m : Member), (s.setPhase k p)[j]? = some m →
      reg.connection? m.groupId m.id = some (if m.phase = .departed then -1 else m.nsfd)) :
    Slots ⟨reg, s.setPhase k p⟩ where
  numbered := h.numbered.congr (map_setPhase _ (fun _ _ => rfl) k p)
  connectionCount g hg := by
    rw [groupSize_setPhase, hcounts]
    exact h.connectionCount g hg
  connection m hm := by
    obtain ⟨j, hj⟩ := List.mem_iff_getElem?.mp hm
    exact hslots j m hj

/-- The join response touches no table. -/
theorem Slots.respond (h : s.Slots) {k : ℕ} (hk : s.phase? k = some .joined) :
    Slots ⟨s.registry, s.setPhase k .serving⟩ := by
  refine h.setPhase rfl fun j m' hm' => ?_
  obtain ⟨m, hold, rfl⟩ := exists_of_getElem?_setPhase hm'
  have hslot := h.connection m (List.mem_of_getElem? hold)
  by_cases hkj : k = j
  · have hphase : m.phase = .joined := by simpa [phase?, hkj, hold] using hk
    simpa [hkj, Member.atPhase, hphase] using hslot
  · rwa [if_neg hkj]

/-- The slot of a member that departs is cleared. -/
theorem Slots.clear (h : s.Slots) {k : ℕ} {m : Member} {reg : Registry}
    (hm : s.members[k]? = some m)
    (hcounts : reg.connectionCount = s.registry.connectionCount)
    (hslots : ∀ g i, reg.connection? g i =
      if g = m.groupId ∧ i = m.id then some (-1) else s.registry.connection? g i) :
    Slots ⟨reg, s.setPhase k .departed⟩ := by
  refine h.setPhase hcounts fun j m' hm' => ?_
  obtain ⟨m'', hold, rfl⟩ := exists_of_getElem?_setPhase hm'
  rw [hslots]
  by_cases hkj : k = j
  · obtain rfl := Option.some.inj (hm.symm.trans (hkj ▸ hold))
    simp [hkj, Member.atPhase]
  · -- no two members have the same slot, so no other one is cleared
    rw [if_neg hkj, if_neg fun heq => hkj (h.numbered.index_eq hm hold heq.1.symm heq.2.symm)]
    exact h.connection m'' (List.mem_of_getElem? hold)

/-- **A departure** has a meaning. -/
theorem Slots.exists_depart (h : s.Slots) {k : ℕ} {m : Member} (hm : s.members[k]? = some m) :
    ∃ reg, s.registry.depart m.groupId m.id = some reg ∧
      reg.groupNames = s.registry.groupNames ∧
      reg.connectionCount = s.registry.connectionCount ∧
      reg.groupCount = s.registry.groupCount ∧
      ∀ g i, reg.connection? g i =
        if g = m.groupId ∧ i = m.id then some (-1) else s.registry.connection? g i := by
  obtain ⟨hg, hid⟩ := h.lt_of_mem (List.mem_of_getElem? hm)
  exact s.registry.exists_setConnection hg hid (-1)

end Lobby

open Lobby

/-! ### Steps -/

/-- **What a move does** to counts and slots. -/
inductive LobbyStep (s : Lobby) : LobbyMove → Lobby → Prop where
  | join {nsfd : ℤ} {request : JoinRequest} {g id : ℕ} {reg : Registry} (hg : g < maxGroups)
    (hlt : id < maxGroupSize) (hid : id = s.groupSize g)
    (hcounts : ∀ g', reg.connectionCount[g']? =
      if g' = g then some (id + 1) else s.registry.connectionCount[g']?)
    (hslots : ∀ g' i, reg.connection? g' i =
      if g' = g ∧ i = id then some nsfd else s.registry.connection? g' i) :
    LobbyStep s (.join nsfd request) ⟨reg, s.members ++ [⟨request, nsfd, g, id, .joined⟩]⟩
  | respond {k : ℕ} {m : Member} (hm : s.members[k]? = some m) (hphase : m.phase = .joined) :
    LobbyStep s (.respond k) ⟨s.registry, s.setPhase k .serving⟩
  | depart {k : ℕ} {m : Member} {reg : Registry} (hm : s.members[k]? = some m)
    (hphase : m.phase = .serving) (hnames : reg.groupNames = s.registry.groupNames)
    (hcounts : reg.connectionCount = s.registry.connectionCount)
    (hgroups : reg.groupCount = s.registry.groupCount)
    (hslots : ∀ g i, reg.connection? g i =
      if g = m.groupId ∧ i = m.id then some (-1) else s.registry.connection? g i) :
    LobbyStep s (.depart k) ⟨reg, s.setPhase k .departed⟩

namespace Lobby

variable {s t : Lobby}

theorem exists_of_phase? {k : ℕ} {p : Phase} (h : s.phase? k = some p) :
    ∃ m, s.members[k]? = some m ∧ m.phase = p := Option.map_eq_some_iff.mp h

/-- **Every move is one of these.** -/
theorem Slots.step (h : s.Slots) {m : LobbyMove} (hexec : lobby.exec s m = some t) :
    LobbyStep s m t := by
  obtain ⟨hen, heff⟩ := StepSystem.exec_eq_some.mp hexec
  cases m with
  | join nsfd request =>
    obtain ⟨⟨reg, g, id⟩, hjoin, rfl⟩ := Option.map_eq_some_iff.mp heff
    obtain ⟨reg₁, g', hconn, hcount, hassign⟩ := Registry.exists_assign_of_join hjoin
    obtain ⟨rfl, hid, hlt, hassigned⟩ := Registry.of_assign_eq_some hassign
    have hg : g < maxGroups := (Vector.getElem?_eq_some_iff.mp hid).1
    have hcounts := hassigned.connectionCount
    have hslots := hassigned.connection
    rw [hcount] at hid hcounts
    simp only [Registry.connection?, hconn] at hslots
    have hsize : id = s.groupSize g := by
      rw [h.connectionCount g hg, Option.some.injEq] at hid
      exact hid.symm
    exact .join hg hlt hsize hcounts hslots
  | respond k =>
    obtain rfl := Option.some.inj heff
    obtain ⟨m, hm, hphase⟩ := exists_of_phase? hen
    exact .respond hm hphase
  | depart k =>
    obtain ⟨m, hm, heff⟩ := Option.bind_eq_some_iff.mp heff
    obtain ⟨reg, hdepart, hnames, hcounts, hgroups, hslots⟩ := h.exists_depart hm
    rw [Option.bind_eq_bind, hdepart, Option.bind_some] at heff
    obtain rfl := Option.some.inj heff
    obtain ⟨m', hm', hphase⟩ := exists_of_phase? hen
    obtain rfl := Option.some.inj (hm.symm.trans hm')
    exact .depart hm hphase hnames hcounts hgroups hslots

end Lobby

/-- **Every move keeps the slots.** -/
theorem LobbyStep.slots {s t : Lobby} {m : LobbyMove} (hs : s.Slots) (h : LobbyStep s m t) :
    t.Slots := by
  cases h with
  | join _ _ hid hcounts hslots => exact hs.enroll hid hcounts hslots
  | respond hm hphase => exact hs.respond (by rw [phase?, hm, Option.map_some, hphase])
  | depart hm _ _ hcounts _ hslots => exact hs.clear hm hcounts hslots

/-- Nobody is forgotten. -/
theorem LobbyStep.grows {s t : Lobby} {m : LobbyMove} (h : LobbyStep s m t) :
    Grows s.members t.members := by
  cases h with
  | join => exact grows_append _ _
  | respond hm hphase =>
    refine grows_modify fun m' hm' => ?_
    obtain rfl := Option.some.inj (hm.symm.trans hm')
    simp [hphase, Phase.rank]
  | depart hm hphase =>
    refine grows_modify fun m' hm' => ?_
    obtain rfl := Option.some.inj (hm.symm.trans hm')
    simp [hphase, Phase.rank]

end GroupChat
