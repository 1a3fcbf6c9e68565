import GroupChat.Publication.Model

/-!
# The tables between two stores

What a delivery loop can find in the tables while a join is in progress. The lobby once
this join is done is under the invariant of the registry
(`GroupChat.Publication.Inv`), and it makes a move of its own when a join takes the lock,
a response is written or a slot is cleared, and none at the other moves
(`GroupChat.Publication.Inv.exists_exec`).

A slot below the count has been given to a client, and holds what it should, with one
exception: between the two stores of a join, the slot of its client is zero, as the table
was at the beginning (`GroupChat.Publication.Inv.exists_assigned`).
-/

namespace GroupChat

open Lobby

namespace Registry

variable {reg reg' reg₁ reg₂ : Registry} {g g' i i' : ℕ} {fd fd' : ℤ}

/-- Tables with the same entries are the same. -/
theorem ext_entries (hnames : reg.groupNames = reg'.groupNames)
    (hgroups : reg.groupCount = reg'.groupCount)
    (hcounts : ∀ g : ℕ, reg.connectionCount[g]? = reg'.connectionCount[g]?)
    (hslots : ∀ g i, reg.connection? g i = reg'.connection? g i) : reg = reg' := by
  have hcount : reg.connectionCount = reg'.connectionCount := by
    ext g hg
    simpa [hg] using hcounts g
  have hconn : reg.connections = reg'.connections := by
    ext g hg i hi
    simpa [connection?, hg, hi] using hslots g i
  cases reg
  cases reg'
  simp_all

/-- Slot `i` of a group is below its count. -/
def InUse (reg : Registry) (g i : ℕ) : Prop :=
  ∃ count, reg.connectionCount[g]? = some count ∧ i < count

/-- No count has become smaller. -/
def CountsLe (reg reg' : Registry) : Prop :=
  ∀ g count : ℕ, reg.connectionCount[g]? = some count →
    ∃ count', reg'.connectionCount[g]? = some count' ∧ count ≤ count'

theorem CountsLe.of_eq (h : reg'.connectionCount = reg.connectionCount) : reg.CountsLe reg' := by
  intro g count hcount
  exact ⟨count, by rw [h, hcount], Nat.le_refl _⟩

theorem CountsLe.inUse (h : reg.CountsLe reg') (hin : reg.InUse g i) : reg'.InUse g i := by
  obtain ⟨count, hcount, hi⟩ := hin
  obtain ⟨count', hcount', hle⟩ := h g count hcount
  exact ⟨count', hcount', hi.trans_le hle⟩

/-- What a store to a slot has done. -/
theorem of_setConnection (h : reg.setConnection g i fd = some reg') :
    reg'.groupNames = reg.groupNames ∧ reg'.connectionCount = reg.connectionCount ∧
      reg'.groupCount = reg.groupCount ∧ ∀ g' i', reg'.connection? g' i' =
        if g' = g ∧ i' = i then some fd else reg.connection? g' i' := by
  obtain ⟨hg, hi⟩ := lt_of_setConnection h
  obtain ⟨reg₁, hset, hrest⟩ := reg.exists_setConnection hg hi fd
  obtain rfl := Option.some.inj (hset.symm.trans h)
  exact hrest

/-- The search and the copy of a name leave counts and slots alone. -/
theorem of_locate {request : JoinRequest} (h : reg.locate request = some (reg', g)) :
    reg'.connections = reg.connections ∧ reg'.connectionCount = reg.connectionCount := by
  obtain ⟨found, -, h⟩ := Option.bind_eq_some_iff.mp h
  cases found with
  | some i =>
    obtain ⟨rfl, -⟩ := Prod.mk.inj (Option.some.inj h)
    exact ⟨rfl, rfl⟩
  | none =>
    obtain ⟨_, -, h⟩ := Option.bind_eq_some_iff.mp h
    obtain ⟨names, -, h⟩ := Option.bind_eq_some_iff.mp h
    obtain ⟨rfl, -⟩ := Prod.mk.inj (Option.some.inj h)
    exact ⟨rfl, rfl⟩

end Registry

/-! ### The join in progress -/

namespace Joining

variable {j : Joining} {reg reg' : Registry} {m : Member}

/-- What is still to be stored, entry by entry. -/
structure Finished (j : Joining) (reg reg' : Registry) : Prop where
  groupNames : reg'.groupNames = reg.groupNames
  groupCount : reg'.groupCount = reg.groupCount
  counts : ∀ g, reg'.connectionCount[g]? =
    match j with
    | .loaded m => if g = m.groupId then some (m.id + 1) else reg.connectionCount[g]?
    | _ => reg.connectionCount[g]?
  slots : ∀ g i, reg'.connection? g i =
    match j.member? with
    | some m => if g = m.groupId ∧ i = m.id then some m.nsfd else reg.connection? g i
    | none => reg.connection? g i

/-- A client in the tables gives its handler room for all stores. -/
theorem exists_finish (reg : Registry)
    (h : ∀ m ∈ j.member?, m.groupId < maxGroups ∧ m.id < maxGroupSize) :
    ∃ reg', j.finish reg = some reg' ∧ j.Finished reg reg' := by
  cases j with
  | free => exact ⟨reg, rfl, rfl, rfl, fun _ => rfl, fun _ _ => rfl⟩
  | loaded m =>
    obtain ⟨hg, hi⟩ := h m rfl
    obtain ⟨reg', hset, hnames, hcounts, hgroups, hslots⟩ := Registry.exists_setConnection
      { reg with connectionCount := reg.connectionCount.setIfInBounds m.groupId (m.id + 1) }
      hg hi m.nsfd
    refine ⟨reg', by rw [finish, Registry.setCount, if_pos hg]; exact hset, hnames, hgroups,
      fun g => ?_, hslots⟩
    rw [hcounts]
    simp only [Vector.getElem?_setIfInBounds]
    rcases eq_or_ne g m.groupId with rfl | hne
    · simp [hg]
    · simp [hne, hne.symm]
  | counted m =>
    obtain ⟨hg, hi⟩ := h m rfl
    obtain ⟨reg', hset, hnames, hcounts, hgroups, hslots⟩ := reg.exists_setConnection hg hi m.nsfd
    exact ⟨reg', hset, hnames, hgroups, fun g => by rw [hcounts], hslots⟩

theorem finished_of_finish (h : j.finish reg = some reg') :
    j.Finished reg reg' ∧ ∀ m ∈ j.member?, m.groupId < maxGroups ∧ m.id < maxGroupSize := by
  have hlt : ∀ m ∈ j.member?, m.groupId < maxGroups ∧ m.id < maxGroupSize := by
    intro m hm
    cases j with
    | free => exact absurd hm (by simp [member?])
    | loaded m' =>
      obtain rfl := Option.some.inj hm
      obtain ⟨_, -, hset⟩ := Option.bind_eq_some_iff.mp h
      exact Registry.lt_of_setConnection hset
    | counted m' =>
      obtain rfl := Option.some.inj hm
      exact Registry.lt_of_setConnection h
  obtain ⟨reg₁, hreg₁, hfinished⟩ := exists_finish reg hlt
  obtain rfl := Option.some.inj (hreg₁.symm.trans h)
  exact ⟨hfinished, hlt⟩

/-- A store to another slot does not get in the way of those to come. -/
theorem finish_setConnection {g i : ℕ} {fd : ℤ} {reg₁ reg₂ : Registry}
    (h : j.finish reg = some reg₁) (hset : reg.setConnection g i fd = some reg')
    (hset₁ : reg₁.setConnection g i fd = some reg₂)
    (hne : ∀ m ∈ j.member?, ¬(m.groupId = g ∧ m.id = i)) : j.finish reg' = some reg₂ := by
  obtain ⟨hfin, hlt⟩ := finished_of_finish h
  obtain ⟨hnames, hcounts, hgroups, hslots⟩ := Registry.of_setConnection hset
  obtain ⟨hnames₁, hcounts₁, hgroups₁, hslots₁⟩ := Registry.of_setConnection hset₁
  obtain ⟨reg₃, hreg₃, hfin₃⟩ := exists_finish reg' hlt
  rw [hreg₃]
  congr 1
  refine Registry.ext_entries ?_ ?_ (fun g' => ?_) fun g' i' => ?_
  · rw [hfin₃.groupNames, hnames, hnames₁, hfin.groupNames]
  · rw [hfin₃.groupCount, hgroups, hgroups₁, hfin.groupCount]
  · rw [hfin₃.counts, hcounts₁, hfin.counts, hcounts]
  · rw [hfin₃.slots, hslots₁, hfin.slots, hslots]
    cases hm : j.member? with
    | none => rfl
    | some m =>
      -- the slot of the join is not the one that is stored to in between
      by_cases hslot : g' = m.groupId ∧ i' = m.id
      · obtain ⟨rfl, rfl⟩ := hslot
        simp [hne m hm]
      · simp [hslot]

end Joining

/-! ### Slots that nobody has -/

/-- What has not been given to anybody is as it was at the beginning. -/
def Lobby.Blank (l : Lobby) : Prop :=
  ∀ g < maxGroups, ∀ i < maxGroupSize, l.groupSize g ≤ i → l.registry.connection? g i = some 0

theorem Lobby.blank_start : Lobby.start.Blank := by
  intro g hg i hi _
  simp [Lobby.start, Registry.zero, Registry.connection?, hg, hi]

theorem LobbyStep.blank {s t : Lobby} {m : LobbyMove} (h : LobbyStep s m t) (hs : s.Slots)
    (hblank : s.Blank) : t.Blank := by
  intro g' hg' i' hi' hle
  cases h with
  | @join nsfd request g id reg hg hlt hid hcounts hslots =>
    rw [groupSize, List.countP_append] at hle
    refine (hslots g' i').trans ?_
    rw [if_neg ?_]
    · exact hblank g' hg' i' hi' ((Nat.le_add_right _ _).trans hle)
    · -- the slot behind the newcomer's is the first that is free
      rintro ⟨rfl, rfl⟩
      simp [hid, groupSize] at hle
  | respond => exact hblank g' hg' i' hi' (by rwa [groupSize_setPhase] at hle)
  | @depart k m reg hm hphase hnames hcounts hgroups hslots =>
    rw [groupSize_setPhase] at hle
    refine (hslots g' i').trans ?_
    rw [if_neg ?_]
    · exact hblank g' hg' i' hi' hle
    · rintro ⟨rfl, rfl⟩
      exact absurd (hs.numbered.rank_lt (List.mem_of_getElem? hm)) (Nat.not_lt.mpr hle)

/-! ### The invariant -/

/-- A loop is for a group of the tables, and has come to a slot that is in use. -/
def Loop.Fits (reg : Registry) : Loop → Prop
  | idle => True
  | counting message _ => ∃ g < maxGroups, message.InGroup g
  | testing message i => ∃ g, message.InGroup g ∧ reg.InUse g i
  | passing message i => ∃ g, message.InGroup g ∧ reg.InUse g i

theorem Loop.Fits.mono {reg reg' : Registry} {x : Loop} (h : x.Fits reg)
    (hle : reg.CountsLe reg') : x.Fits reg' := by
  cases x with
  | idle => trivial
  | counting message i => exact h
  | testing message i | passing message i =>
    obtain ⟨g, hg, hin⟩ := h
    exact ⟨g, hg, hle.inUse hin⟩

namespace Publication

variable {nc : ℕ} {s t : Publication nc} {l : Lobby}

/-- What concerns those who read the tables. -/
structure Readers (s : Publication nc) : Prop where
  messages : ∀ message ∈ s.messages, ∃ g < maxGroups, message.InGroup g
  loop : ∀ c, (s.loop c).Fits s.lobby.registry
  passed : ∀ p ∈ s.passed, s.lobby.registry.InUse p.groupId p.id

theorem Readers.mono (h : s.Readers) {l : Lobby} {j : Joining}
    (hle : s.lobby.registry.CountsLe l.registry) : Readers { s with lobby := l, joining := j } where
  messages := h.messages
  loop c := (h.loop c).mono hle
  passed p hp := hle.inUse (h.passed p hp)

/-- **The invariant**, with the lobby once the join in progress is done. -/
structure Inv (s : Publication nc) (l : Lobby) : Prop extends s.Readers where
  completed : s.completed = some l
  lobby : l.Inv
  blank : l.Blank
  loaded : ∀ m, s.joining = .loaded m →
    s.lobby.registry.connectionCount[m.groupId]? = some m.id
  /-- The slot of the join in progress is still as it was at the beginning. -/
  unpublished : ∀ m ∈ s.joining.member?,
    s.lobby.registry.connection? m.groupId m.id = some 0

theorem inv_start : (start nc).Inv Lobby.start where
  messages := by simp [start]
  loop := fun _ => trivial
  passed := by simp [start]
  completed := rfl
  lobby := Lobby.inv_start
  blank := Lobby.blank_start
  loaded := by simp [start]
  unpublished := by simp [start, Joining.member?]

theorem completed_eq_some : s.completed = some l ↔
    s.joining.finish s.lobby.registry = some l.registry ∧ l.members = s.assigned := by
  constructor
  · intro h
    obtain ⟨reg, hreg, rfl⟩ := Option.map_eq_some_iff.mp h
    exact ⟨hreg, rfl⟩
  · rintro ⟨hfinish, hmembers⟩
    rw [completed, hfinish, Option.map_some, ← hmembers]

/-- A slot of the join in progress is nobody else's. -/
theorem Inv.slot_ne (h : s.Inv l) {m r : Member} (hm : m ∈ s.joining.member?)
    (hr : r ∈ s.lobby.members) : ¬(m.groupId = r.groupId ∧ m.id = r.id) := by
  rintro ⟨hg, hid⟩
  have hpair := h.lobby.numbered.pairwise_rank_lt
  rw [(completed_eq_some.mp h.completed).2, assigned, Option.mem_def.mp hm,
    Option.toList_some] at hpair
  have hlt := (List.pairwise_append.mp hpair).2.2 r hr m (List.mem_singleton_self m) hg.symm
  omega

/-- A slot in use has been given to somebody. -/
theorem Inv.exists_assigned (h : s.Inv l) {g i : ℕ} (hin : s.lobby.registry.InUse g i) :
    ∃ m ∈ s.assigned, m.groupId = g ∧ m.id = i := by
  obtain ⟨count, hcount, hi⟩ := hin
  have hg : g < maxGroups := (Vector.getElem?_eq_some_iff.mp hcount).1
  obtain ⟨hfinish, hmembers⟩ := completed_eq_some.mp h.completed
  -- the join in progress makes the count larger, if it has not done so
  have hlt : i < l.groupSize g := by
    have hfin := (Joining.finished_of_finish hfinish).1.counts g
    rw [h.lobby.connectionCount g hg] at hfin
    cases hj : s.joining with
    | free | counted =>
      simp only [hj, hcount, Option.some.injEq] at hfin
      omega
    | loaded m =>
      have hloaded := h.loaded m hj
      simp only [hj] at hfin
      split_ifs at hfin with heq
      · rw [← heq, hcount] at hloaded
        simp only [Option.some.injEq] at hloaded hfin
        omega
      · rw [hcount, Option.some.injEq] at hfin
        omega
  obtain ⟨k, m, hm, hg, hid⟩ := h.lobby.exists_member hlt
  exact ⟨m, hmembers ▸ List.mem_of_getElem? hm, hg, hid⟩

/-- **What a slot in use holds.** -/
theorem Inv.connection_eq (h : s.Inv l) {m : Member} (hm : m ∈ s.assigned)
    (hin : s.lobby.registry.InUse m.groupId m.id) :
    s.lobby.registry.connection? m.groupId m.id =
      some (if s.joining = .counted m then 0 else if m.phase = .departed then -1 else m.nsfd) := by
  obtain ⟨hfinish, hmembers⟩ := completed_eq_some.mp h.completed
  have hslot := h.lobby.connection m (hmembers ▸ hm)
  have hfin := (Joining.finished_of_finish hfinish).1.slots m.groupId m.id
  rcases List.mem_append.mp hm with hold | hnew
  · -- the slot of an older client is not the one of the join in progress
    have hne : ∀ m' ∈ s.joining.member?, ¬(m.groupId = m'.groupId ∧ m.id = m'.id) :=
      fun m' hm' heq => h.slot_ne hm' hold ⟨heq.1.symm, heq.2.symm⟩
    have hcounted : s.joining ≠ .counted m := fun hj => hne m (by rw [hj]; rfl) ⟨rfl, rfl⟩
    rw [if_neg hcounted, ← hslot, hfin]
    cases hj : s.joining.member? with
    | none => rfl
    | some m' => simp [hne m' hj]
  · have hj : s.joining.member? = some m := Option.mem_toList.mp hnew
    rw [h.unpublished m hj]
    cases hcase : s.joining with
    | free => simp [hcase, Joining.member?] at hj
    | loaded m' =>
      -- the count has not been stored, so the slot is not in use
      obtain rfl : m' = m := by simpa [hcase, Joining.member?] using hj
      obtain ⟨count, hcount, hi⟩ := hin
      rw [h.loaded m' hcase, Option.some.injEq] at hcount
      omega
    | counted m' =>
      obtain rfl : m' = m := by simpa [hcase, Joining.member?] using hj
      simp

/-! ### Moves -/

/-- A join in one move is the search, the load and the two stores. -/
theorem exists_accesses {l l' : Lobby} {nsfd : ℤ} {request : JoinRequest}
    (h : GroupChat.lobby.exec l (.join nsfd request) = some l') :
    ∃ reg g id, l.registry.locate request = some (reg, g) ∧ reg.connectionCount[g]? = some id ∧
      (Joining.loaded ⟨request, nsfd, g, id, .joined⟩).finish reg = some l'.registry ∧
      l'.members = l.members ++ [⟨request, nsfd, g, id, .joined⟩] := by
  obtain ⟨-, heff⟩ := StepSystem.exec_eq_some.mp h
  obtain ⟨⟨reg', g, id⟩, hjoin, rfl⟩ := Option.map_eq_some_iff.mp heff
  rw [Registry.join_eq_locate] at hjoin
  obtain ⟨⟨reg, g₁⟩, hlocate, hjoin⟩ := Option.bind_eq_some_iff.mp hjoin
  obtain ⟨id₁, hcount, hjoin⟩ := Option.bind_eq_some_iff.mp hjoin
  obtain ⟨reg₁, hset, hjoin⟩ := Option.bind_eq_some_iff.mp hjoin
  obtain ⟨reg₂, hslot, heq⟩ := Option.map_eq_some_iff.mp hjoin
  obtain ⟨rfl, rfl, rfl⟩ : reg₂ = reg' ∧ g₁ = g ∧ id₁ = id := by simpa using heq
  refine ⟨reg, g₁, id₁, hlocate, hcount, ?_, rfl⟩
  rw [Joining.finish, hset]
  exact hslot

/-- A join takes the lock. -/
theorem Inv.lock (h : s.Inv l) {nsfd : ℤ} {request : JoinRequest} (hfree : s.joining = .free)
    (hlim : WithinLimits (l.members.map Member.request ++ [request])) :
    ∃ t l', (publication nc).exec s (.lock nsfd request) = some t ∧ t.Inv l' ∧
      GroupChat.lobby.exec l (.join nsfd request) = some l' := by
  obtain ⟨hfinish, hmembers⟩ := completed_eq_some.mp h.completed
  rw [hfree] at hfinish
  have hl : s.lobby.registry = l.registry := Option.some.inj hfinish
  have hs : l.members = s.lobby.members := by
    rw [hmembers, assigned, hfree]
    exact List.append_nil _
  obtain ⟨l', hl'⟩ := h.lobby.exists_exec (m := .join nsfd request) trivial hlim
  have hterm : ∀ r ∈ requests [.join nsfd request], r.Terminated := fun r hr =>
    hlim.terminated r (List.mem_append_right _ hr)
  have hinv := h.lobby.step hterm hl'
  have hstep := h.lobby.toSlots.step hl'
  obtain ⟨reg, g, id, hlocate, hcount, hdone, hmembers'⟩ := exists_accesses hl'
  rw [← hl] at hlocate
  obtain ⟨hconns, hcounts⟩ := Registry.of_locate hlocate
  refine ⟨{ s with
    lobby := ⟨reg, s.lobby.members⟩
    joining := .loaded ⟨request, nsfd, g, id, .joined⟩ }, l',
    StepSystem.exec_eq_some.mpr ⟨hfree, ?_⟩,
    ⟨h.toReaders.mono (.of_eq hcounts), ?_, hinv, hstep.blank h.lobby.toSlots h.blank, ?_, ?_⟩, hl'⟩
  · simp only [publication, hlocate, hcount, Option.bind_eq_bind, Option.bind_some]
    rfl
  · refine completed_eq_some.mpr ⟨hdone, hmembers'.trans ?_⟩
    rw [hs]
    rfl
  · intro m hm
    obtain rfl := Joining.loaded.inj hm
    exact hcount
  · intro m hm
    obtain rfl := Option.some.inj hm
    -- its id is the size of its group, so nobody has had the slot
    have hlt := hinv.toSlots.lt_of_mem (m := ⟨request, nsfd, g, id, .joined⟩) (by simp [hmembers'])
    rw [hcounts, hl, h.lobby.connectionCount g hlt.1, Option.some.injEq] at hcount
    have hblank := h.blank g hlt.1 id hlt.2 hcount.le
    rw [← hl] at hblank
    simpa only [Registry.connection?, hconns] using hblank

/-- The store of the count. -/
theorem Inv.storeCount (h : s.Inv l) {m : Member} (hj : s.joining = .loaded m) :
    ∃ t, (publication nc).exec s .storeCount = some t ∧ t.Inv l := by
  obtain ⟨hfinish, hmembers⟩ := completed_eq_some.mp h.completed
  have hm : s.joining.member? = some m := by rw [hj]; rfl
  have hunpublished := h.unpublished m hm
  have hloaded := h.loaded m hj
  rw [hj] at hfinish
  obtain ⟨reg, hset, hslot⟩ := Option.bind_eq_some_iff.mp hfinish
  obtain ⟨hlt, heq⟩ := Option.ite_none_right_eq_some.mp hset
  obtain rfl := Option.some.inj heq
  refine ⟨_, StepSystem.exec_eq_some.mpr ⟨⟨m, hm, hj⟩,
    by simp only [publication, hm, Option.bind_eq_bind, Option.bind_some, hset]; rfl⟩,
    ⟨h.toReaders.mono fun g count hcount => ?_, ?_, h.lobby, h.blank, by simp, ?_⟩⟩
  · -- the count of the group becomes larger by one, the others stay
    simp only [Vector.getElem?_setIfInBounds]
    by_cases hg : m.groupId = g
    · subst hg
      rw [hloaded, Option.some.injEq] at hcount
      exact ⟨m.id + 1, by simp [hlt], by omega⟩
    · exact ⟨count, by simpa [hg] using hcount, Nat.le_refl _⟩
  · refine completed_eq_some.mpr ⟨hslot, hmembers.trans ?_⟩
    rw [assigned, hm]
    rfl
  · intro m' hm'
    obtain rfl := Option.some.inj hm'
    exact hunpublished

/-- The store of the descriptor. -/
theorem Inv.storeSlot (h : s.Inv l) {m : Member} (hj : s.joining = .counted m) :
    ∃ t, (publication nc).exec s .storeSlot = some t ∧ t.Inv l := by
  obtain ⟨hfinish, hmembers⟩ := completed_eq_some.mp h.completed
  have hm : s.joining.member? = some m := by rw [hj]; rfl
  rw [hj] at hfinish
  have hset : s.lobby.registry.setConnection m.groupId m.id m.nsfd = some l.registry := hfinish
  obtain ⟨-, hcounts, -, -⟩ := Registry.of_setConnection hset
  refine ⟨{ s with lobby := ⟨l.registry, s.lobby.members ++ [m]⟩, joining := .free },
    StepSystem.exec_eq_some.mpr ⟨⟨m, hm, hj⟩,
      by simp only [publication, hm, Option.bind_eq_bind, Option.bind_some, hset]; rfl⟩,
    ⟨h.toReaders.mono (.of_eq hcounts), ?_, h.lobby, h.blank, by simp, by simp [Joining.member?]⟩⟩
  refine completed_eq_some.mpr ⟨rfl, ?_⟩
  rw [hmembers, assigned, assigned, hm]
  exact (List.append_nil _).symm

/-- A phase of a member of the tables, with the join in progress behind it. -/
theorem setPhase_append {l : Lobby} {j : Option Member}
    (h : l.members = s.lobby.members ++ j.toList) {k : ℕ} {m : Member}
    (hk : s.lobby.members[k]? = some m) (p : Phase) :
    l.setPhase k p = s.lobby.setPhase k p ++ j.toList := by
  have hlt := (List.getElem?_eq_some_iff.mp hk).1
  refine List.ext_getElem? fun i => ?_
  simp only [Lobby.setPhase, h, List.getElem?_modify, List.getElem?_append, List.length_modify]
  by_cases hi : i < s.lobby.members.length
  · simp [hi]
  · -- the member is not one of those behind
    have hne : k ≠ i := by omega
    simp [hi, hne]

/-- A response. -/
theorem Inv.respond (h : s.Inv l) {k : ℕ} (hk : s.lobby.phase? k = some .joined) :
    ∃ t l', (publication nc).exec s (.respond k) = some t ∧ t.Inv l' ∧
      GroupChat.lobby.exec l (.respond k) = some l' := by
  obtain ⟨hfinish, hmembers⟩ := completed_eq_some.mp h.completed
  obtain ⟨m, hm, hphase⟩ := exists_of_phase? hk
  have hm' : l.members[k]? = some m := by
    rw [hmembers, assigned, List.getElem?_append_left (List.getElem?_eq_some_iff.mp hm).1, hm]
  have hk' : l.phase? k = some .joined := by rw [Lobby.phase?, hm', Option.map_some, hphase]
  have hexec : GroupChat.lobby.exec l (.respond k) = some ⟨l.registry, l.setPhase k .serving⟩ :=
    StepSystem.exec_eq_some.mpr ⟨hk', rfl⟩
  refine ⟨{ s with lobby := ⟨s.lobby.registry, s.lobby.setPhase k .serving⟩ },
    ⟨l.registry, l.setPhase k .serving⟩,
    StepSystem.exec_eq_some.mpr ⟨hk, rfl⟩,
    ⟨h.toReaders.mono (.of_eq rfl), completed_eq_some.mpr ⟨hfinish, setPhase_append hmembers hm _⟩,
      h.lobby.step (by simp [requests]) hexec,
      (h.lobby.toSlots.step hexec).blank h.lobby.toSlots h.blank, h.loaded, h.unpublished⟩, hexec⟩

/-- A departure. -/
theorem Inv.depart (h : s.Inv l) {k : ℕ} (hk : s.lobby.phase? k = some .serving) :
    ∃ t l', (publication nc).exec s (.depart k) = some t ∧ t.Inv l' ∧
      GroupChat.lobby.exec l (.depart k) = some l' := by
  obtain ⟨hfinish, hmembers⟩ := completed_eq_some.mp h.completed
  obtain ⟨m, hm, hphase⟩ := exists_of_phase? hk
  have hm' : l.members[k]? = some m := by
    rw [hmembers, assigned, List.getElem?_append_left (List.getElem?_eq_some_iff.mp hm).1, hm]
  have hk' : l.phase? k = some .serving := by rw [Lobby.phase?, hm', Option.map_some, hphase]
  obtain ⟨reg₁, hset₁, -⟩ := h.lobby.exists_depart hm'
  obtain ⟨hg, hid⟩ := h.lobby.lt_of_mem (List.mem_of_getElem? hm')
  obtain ⟨reg, hset, hnames, hcounts, hgroups, hslots⟩ :=
    s.lobby.registry.exists_setConnection hg hid (-1)
  have hexec : GroupChat.lobby.exec l (.depart k) = some ⟨reg₁, l.setPhase k .departed⟩ :=
    StepSystem.exec_eq_some.mpr ⟨hk', by
      simp only [GroupChat.lobby, hm', Option.bind_eq_bind, Option.bind_some, hset₁]; rfl⟩
  have hne : ∀ m' ∈ s.joining.member?, ¬(m'.groupId = m.groupId ∧ m'.id = m.id) :=
    fun m' hm' => h.slot_ne hm' (List.mem_of_getElem? hm)
  refine ⟨{ s with lobby := ⟨reg, s.lobby.setPhase k .departed⟩ },
    ⟨reg₁, l.setPhase k .departed⟩,
    StepSystem.exec_eq_some.mpr ⟨hk, ?_⟩,
    ⟨h.toReaders.mono (.of_eq hcounts), completed_eq_some.mpr
        ⟨Joining.finish_setConnection hfinish hset hset₁ hne, setPhase_append hmembers hm _⟩,
      h.lobby.step (by simp [requests]) hexec,
      (h.lobby.toSlots.step hexec).blank h.lobby.toSlots h.blank, ?_, ?_⟩, hexec⟩
  · have hdepart : s.lobby.registry.depart m.groupId m.id = some reg := hset
    simp only [publication, GroupChat.lobby, hm, Option.bind_eq_bind, Option.bind_some, hdepart]
    rfl
  · intro m' hj
    rw [hcounts]
    exact h.loaded m' hj
  · intro m' hj
    rw [hslots, if_neg (hne m' hj)]
    exact h.unpublished m' hj

/-- The next access of a delivery loop. -/
theorem Inv.exists_load (h : s.Inv l) {c : Fin nc} (hc : s.loop c ≠ .idle) :
    ∃ x ps, s.load c = some { s with
        loop := Function.update s.loop c x
        passed := s.passed ++ ps } ∧
      x.Fits s.lobby.registry ∧ ∀ p ∈ ps, s.lobby.registry.InUse p.groupId p.id := by
  have hfits := h.loop c
  -- a slot in use can be read, and its group is one of the tables
  have hread : ∀ {g i : ℕ}, s.lobby.registry.InUse g i →
      g < maxGroups ∧ ∃ fd, s.lobby.registry.connection? g i = some fd := by
    rintro g i hin
    obtain ⟨m, hm, rfl, rfl⟩ := h.exists_assigned hin
    have hslot := h.connection_eq hm hin
    exact ⟨(Registry.lt_of_connection? hslot).1, _, hslot⟩
  cases hloop : s.loop c with
  | idle => exact absurd hloop hc
  | counting message i =>
    obtain ⟨g, hg, hgroup⟩ := hloop ▸ hfits
    have hcount : s.lobby.registry.connectionCount[g]? =
        some s.lobby.registry.connectionCount[g] := Vector.getElem?_eq_getElem hg
    refine ⟨if i < s.lobby.registry.connectionCount[g] then .testing message i else .idle, [], ?_,
      ?_, by simp⟩
    · rw [load_counting hloop (Int.mem_toNat?.mpr hgroup) hcount, List.append_nil]
    · split_ifs with hlt
      · exact ⟨g, hgroup, _, hcount, hlt⟩
      · trivial
  | testing message i =>
    obtain ⟨g, hgroup, hin⟩ := hloop ▸ hfits
    obtain ⟨hg, fd, hfd⟩ := hread hin
    refine ⟨if fd ≠ -1 ∧ (i : ℤ) ≠ message.id.toInt then .passing message i
      else .counting message (i + 1), [], ?_, ?_, by simp⟩
    · rw [load_testing hloop (Int.mem_toNat?.mpr hgroup) hfd, List.append_nil]
    · split_ifs
      · exact ⟨g, hgroup, hin⟩
      · exact ⟨g, hg, hgroup⟩
  | passing message i =>
    obtain ⟨g, hgroup, hin⟩ := hloop ▸ hfits
    obtain ⟨hg, fd, hfd⟩ := hread hin
    refine ⟨.counting message (i + 1), [⟨g, i, fd⟩],
      load_passing hloop (Int.mem_toNat?.mpr hgroup) hfd, ⟨g, hg, hgroup⟩, fun p hp => ?_⟩
    obtain rfl := List.mem_singleton.mp hp
    exact hin

/-- Loops and what they pass do not enter the tables. -/
theorem Inv.setLoop (h : s.Inv l) {ms : List Message} {c : Fin nc} {x : Loop} (ps : List Passed)
    (hms : ∀ message ∈ ms, ∃ g < maxGroups, message.InGroup g) (hx : x.Fits s.lobby.registry)
    (hps : ∀ p ∈ ps, s.lobby.registry.InUse p.groupId p.id) :
    Inv { s with
      messages := ms
      loop := Function.update s.loop c x
      passed := s.passed ++ ps } l where
  messages := hms
  loop c' := by
    rcases eq_or_ne c' c with rfl | hne
    · simpa using hx
    · simpa [hne] using h.loop c'
  passed p hp := (List.mem_append.mp hp).elim (h.passed p) (hps p)
  completed := h.completed
  lobby := h.lobby
  blank := h.blank
  loaded := h.loaded
  unpublished := h.unpublished

/-- **Every move** within the limits has an effect, and is a move or none of the lobby as
it will be. -/
theorem Inv.exists_exec (h : s.Inv l) {m : PublicationMove nc} (hen : (publication nc).enabled s m)
    (hlim : WithinLimits (l.members.map Member.request ++ requests m.lobbyMoves))
    (hmessage : ∀ message ∈ m.message?, ∃ g < maxGroups, message.InGroup g) :
    ∃ t l', (publication nc).exec s m = some t ∧ t.Inv l' ∧
      GroupChat.lobby.run l m.lobbyMoves = some l' := by
  have single : ∀ {a : LobbyMove} {l' : Lobby}, GroupChat.lobby.exec l a = some l' →
      GroupChat.lobby.run l [a] = some l' := by
    intro a l' ha
    rw [StepSystem.run_cons, ha]
    rfl
  cases m with
  | lock nsfd request =>
    obtain ⟨t, l', ht, hinv, hl'⟩ := h.lock hen hlim
    exact ⟨t, l', ht, hinv, single hl'⟩
  | storeCount =>
    obtain ⟨m, -, hj⟩ := hen
    obtain ⟨t, ht, hinv⟩ := h.storeCount hj
    exact ⟨t, l, ht, hinv, rfl⟩
  | storeSlot =>
    obtain ⟨m, -, hj⟩ := hen
    obtain ⟨t, ht, hinv⟩ := h.storeSlot hj
    exact ⟨t, l, ht, hinv, rfl⟩
  | respond k =>
    obtain ⟨t, l', ht, hinv, hl'⟩ := h.respond hen
    exact ⟨t, l', ht, hinv, single hl'⟩
  | send k message =>
    refine ⟨_, l, StepSystem.exec_eq_some.mpr ⟨hen, rfl⟩, ⟨⟨?_, h.loop, h.passed⟩, h.completed,
      h.lobby, h.blank, h.loaded, h.unpublished⟩, rfl⟩
    intro message' hmem
    rcases List.mem_append.mp hmem with hold | hnew
    · exact h.messages message' hold
    · exact hmessage message' (List.mem_singleton.mp hnew ▸ rfl)
  | depart k =>
    obtain ⟨t, l', ht, hinv, hl'⟩ := h.depart hen
    exact ⟨t, l', ht, hinv, single hl'⟩
  | pop c =>
    obtain ⟨message, rest, hms⟩ := List.exists_cons_of_ne_nil hen.2
    have hrest := h.messages
    rw [hms] at hrest
    have hinv := h.setLoop (c := c) (x := .counting message 0) []
      (fun m hm => hrest m (List.mem_cons_of_mem _ hm)) (hrest message List.mem_cons_self) (by simp)
    rw [List.append_nil] at hinv
    refine ⟨_, l, StepSystem.exec_eq_some.mpr ⟨hen, ?_⟩, hinv, rfl⟩
    simp only [publication, hms, List.head?_cons, Option.bind_eq_bind, Option.bind_some,
      List.tail_cons]
    rfl
  | load c =>
    obtain ⟨x, ps, hload, hx, hps⟩ := h.exists_load hen
    exact ⟨_, l, StepSystem.exec_eq_some.mpr ⟨hen, hload⟩, h.setLoop ps h.messages hx hps, rfl⟩

/-- A load for the call of `write` passes what it finds, and nothing else is passed. -/
theorem passed_of_exec {m : PublicationMove nc} (hexec : (publication nc).exec s m = some t) :
    (t.passed = s.passed ∧ ∀ c message i, m = .load c → s.loop c ≠ .passing message i) ∨
      ∃ c message i g fd, m = .load c ∧ s.loop c = .passing message i ∧ message.InGroup g ∧
        s.lobby.registry.connection? g i = some fd ∧ t.passed = s.passed ++ [⟨g, i, fd⟩] := by
  obtain ⟨-, heff⟩ := StepSystem.exec_eq_some.mp hexec
  cases m with
  | lock nsfd request =>
    obtain ⟨_, -, heff⟩ := Option.bind_eq_some_iff.mp heff
    obtain ⟨_, -, heff⟩ := Option.bind_eq_some_iff.mp heff
    obtain rfl := Option.some.inj heff
    exact Or.inl ⟨rfl, nofun⟩
  | storeCount | storeSlot =>
    obtain ⟨_, -, heff⟩ := Option.bind_eq_some_iff.mp heff
    obtain ⟨_, -, heff⟩ := Option.bind_eq_some_iff.mp heff
    obtain rfl := Option.some.inj heff
    exact Or.inl ⟨rfl, nofun⟩
  | depart k =>
    obtain ⟨_, -, rfl⟩ := Option.map_eq_some_iff.mp heff
    exact Or.inl ⟨rfl, nofun⟩
  | respond k | send k message =>
    obtain rfl := Option.some.inj heff
    exact Or.inl ⟨rfl, nofun⟩
  | pop c =>
    obtain ⟨_, -, heff⟩ := Option.bind_eq_some_iff.mp heff
    obtain rfl := Option.some.inj heff
    exact Or.inl ⟨rfl, nofun⟩
  | load c =>
    simp only [publication, Publication.load] at heff
    cases hloop : s.loop c with
    | idle =>
      rw [hloop] at heff
      exact absurd heff (by simp)
    | counting message i | testing message i =>
      rw [hloop] at heff
      obtain ⟨_, -, heff⟩ := Option.bind_eq_some_iff.mp heff
      obtain ⟨_, -, heff⟩ := Option.bind_eq_some_iff.mp heff
      obtain rfl := Option.some.inj heff
      refine Or.inl ⟨rfl, ?_⟩
      rintro c' message' i' hc hpassing
      obtain rfl := PublicationMove.load.inj hc
      exact absurd (hloop.symm.trans hpassing) (by simp)
    | passing message i =>
      rw [hloop] at heff
      obtain ⟨g, hg, heff⟩ := Option.bind_eq_some_iff.mp heff
      obtain ⟨fd, hfd, heff⟩ := Option.bind_eq_some_iff.mp heff
      obtain rfl := Option.some.inj heff
      exact Or.inr ⟨c, message, i, g, fd, rfl, hloop, Int.mem_toNat?.mp hg, hfd, rfl⟩

end Publication

end GroupChat
