import GroupChat.Registry.Names

/-!
# What the registry guarantees

Everything a run of joins and departures leaves in the tables, as long as the
totals stay within `MAX_GROUPS` and `MAX_GROUP_SIZE`
(`GroupChat.registry_follows_joins`). The totals are those of the whole run, since
neither counter ever goes down.
-/

namespace GroupChat

/-- The string in `groupNames[i]`. -/
def Registry.name? (reg : Registry) (i : ℕ) : Option (List UInt8) := do
  let groupName ← reg.groupName? i
  CString.read groupName

/-- The joins of a whole run stay within the sizes of the tables. -/
structure WithinLimits (rs : List JoinRequest) : Prop where
  terminated : ∀ r ∈ rs, r.Terminated
  groups : (rs.map JoinRequest.groupHandle).eraseDups.length ≤ maxGroups
  sizes : ∀ handle, (rs.map JoinRequest.groupHandle).count handle ≤ maxGroupSize

theorem WithinLimits.of_append {rs rs' : List JoinRequest} (h : WithinLimits (rs ++ rs')) :
    WithinLimits rs where
  terminated r hr := h.terminated r (List.mem_append_left _ hr)
  groups := by
    have := h.groups
    rw [List.map_append] at this
    exact (Enrolment.length_eraseDups_le_append _ _).trans this
  sizes handle := by
    have := h.sizes handle
    rw [List.map_append, List.count_append] at this
    omega

namespace Lobby

variable {s t u : Lobby} {ms : List LobbyMove}

/-- **What the tables say.** -/
structure Registered (s : Lobby) : Prop where
  /-- The stored names are different strings. -/
  names : ∃ names : List (List UInt8), names.Nodup ∧ names.length = s.registry.groupCount ∧
    ∀ i < s.registry.groupCount, s.registry.name? i = names[i]?
  sameGroup : ∀ m ∈ s.members, ∀ m' ∈ s.members,
    m.groupId = m'.groupId ↔ m.groupHandle = m'.groupHandle
  /-- The ids given out in a group, in the order of the joins. -/
  ids : ∀ g c, s.registry.connectionCount[g]? = some c →
    (s.members.filter fun m => m.groupId = g).map Member.id = List.range c
  connection : ∀ m ∈ s.members, s.registry.connection? m.groupId m.id =
    some (if m.phase = .departed then -1 else m.nsfd)
  /-- The group of a member has the name it asked for. -/
  named : ∀ m ∈ s.members, m.groupId < s.registry.groupCount ∧
    s.registry.name? m.groupId = some m.groupHandle

theorem Inv.name?_eq (h : s.Inv) {g : ℕ} (hg : g < s.registry.groupCount) :
    s.registry.name? g = s.handles.eraseDups[g]? := by
  have hlt : g < s.handles.eraseDups.length := h.groupCount ▸ hg
  have hname := List.getElem?_eq_getElem hlt
  have hmax : g < maxGroups := hg.trans_le h.groupCount_le
  rw [hname, Registry.name?, Registry.groupName?, if_pos hmax]
  exact (h.stored g _ hname).2

theorem Inv.registered (h : s.Inv) : s.Registered where
  names := ⟨s.handles.eraseDups, Enrolment.nodup_eraseDups _, h.groupCount.symm,
    fun _ hi => h.name?_eq hi⟩
  sameGroup _ hm _ hm' := h.grouped.group_eq_iff hm hm'
  ids g c hc := by
    have hg : g < maxGroups := (Vector.getElem?_eq_some_iff.mp hc).1
    rw [h.connectionCount g hg, Option.some.injEq] at hc
    rw [h.numbered.map_rank_filter g, ← hc, groupSize]
  connection := h.connection
  named m hm := by
    have hlt := h.grouped.group_lt hm
    rw [← handles, ← h.groupCount] at hlt
    exact ⟨hlt, (h.name?_eq hlt).trans (h.grouped.getElem?_group hm)⟩

/-- Nothing outside slot `i`, count and name of group `g` is different. -/
structure OnlyOwn (g i : ℕ) (reg reg' : Registry) : Prop where
  connection : ∀ g' i', (g', i') ≠ (g, i) → reg'.connection? g' i' = reg.connection? g' i'
  connectionCount : ∀ g' ≠ g, reg'.connectionCount[g']? = reg.connectionCount[g']?
  groupNames : ∀ j, (j < g * nameSize ∨ g * nameSize + nameSize ≤ j) →
    reg'.groupNames.toList[j]? = reg.groupNames.toList[j]?

/-- A move touches what belongs to the member that makes it: a join the slot, the
count and the name of the newcomer, a departure the slot. -/
def TouchesOwn (s : Lobby) (m : LobbyMove) (t : Lobby) : Prop :=
  match m with
  | .join _ _ => ∃ m, t.members = s.members ++ [m] ∧ OnlyOwn m.groupId m.id s.registry t.registry
  | .respond _ => t.registry = s.registry
  | .depart k => ∃ m, s.members[k]? = some m ∧ OnlyOwn m.groupId m.id s.registry t.registry ∧
      t.registry.connectionCount = s.registry.connectionCount ∧
      t.registry.groupNames = s.registry.groupNames ∧
      t.registry.groupCount = s.registry.groupCount

theorem Inv.touchesOwn (h : s.Inv) {m : LobbyMove} (hterm : ∀ r ∈ requests [m], r.Terminated)
    (hexec : lobby.exec s m = some t) : s.TouchesOwn m t := by
  have hstep := h.toSlots.step hexec
  cases m with
  | join nsfd request =>
    obtain ⟨reg, hreg, rfl, -⟩ := h.step_join (hterm request (by simp [requests])) hexec
    refine ⟨_, rfl, ⟨fun g' i' hne => ?_, fun g' hne => ?_, hreg.groupNames⟩⟩
    · exact (hreg.connection g' i').trans (if_neg fun heq => hne (Prod.ext heq.1 heq.2))
    · exact (hreg.connectionCount g').trans (if_neg hne)
  | respond k =>
    cases hstep with
    | respond => rfl
  | depart k =>
    cases hstep with
    | depart hm hphase hnames hcounts hgroups hslots =>
      refine ⟨_, hm, ⟨fun g' i' hne => ?_, fun g' _ => by rw [hcounts], fun j _ => by rw [hnames]⟩,
        hcounts, hnames, hgroups⟩
      exact (hslots g' i').trans (if_neg fun heq => hne (Prod.ext heq.1 heq.2))

theorem requests_append (ms ns : List LobbyMove) :
    requests (ms ++ ns) = requests ms ++ requests ns := List.filterMap_append

/-- A move within the limits has an effect. -/
theorem Inv.exists_exec (h : s.Inv) {m : LobbyMove} (hen : lobby.enabled s m)
    (hlim : WithinLimits (s.members.map Member.request ++ requests [m])) :
    ∃ t, lobby.exec s m = some t := by
  simp only [StepSystem.exec_eq_some, hen, true_and]
  cases m with
  | join nsfd request =>
    have hterm : request.Terminated := hlim.terminated _ (by simp [requests])
    -- the newcomer is in the totals, so there is room for its name and its slot
    have hhandles : (s.members.map Member.request ++ requests [.join nsfd request]).map
        JoinRequest.groupHandle = s.handles ++ [request.groupHandle] := by
      simp [requests, handles, Member.groupHandle, Function.comp_def]
    have hgroups := hlim.groups
    have hsizes := hlim.sizes request.groupHandle
    rw [hhandles] at hgroups hsizes
    have hg : s.newGroup request < maxGroups := by
      rw [newGroup, ← Enrolment.idxOf_eraseDups_concat]
      exact (List.idxOf_lt_length_iff.mpr (by simp)).trans_le hgroups
    have hid : s.newId request < maxGroupSize := by
      rw [List.count_append, List.count_singleton_self, ← h.newId_eq request] at hsizes
      exact hsizes
    obtain ⟨reg, hjoin, -⟩ := h.join_eq_some hterm nsfd hg hid
    exact ⟨_, by simp only [lobby, hjoin, Option.map_some]; rfl⟩
  | respond k => exact ⟨_, rfl⟩
  | depart k =>
    obtain ⟨m, hm, -⟩ := Option.map_eq_some_iff.mp hen
    obtain ⟨reg, hdepart, -⟩ := h.exists_depart hm
    exact ⟨_, by simp only [lobby, hm, Option.bind_eq_bind, Option.bind_some, hdepart]; rfl⟩

end Lobby

open Lobby

/-- The members are the requests so far. -/
theorem LobbyStep.map_request {s t : Lobby} {m : LobbyMove} (h : LobbyStep s m t) :
    t.members.map Member.request = s.members.map Member.request ++ requests [m] := by
  cases h with
  | join => simp [requests]
  | respond => simpa [requests] using map_setPhase _ (fun _ _ => rfl) _ _
  | depart => simpa [requests] using map_setPhase _ (fun _ _ => rfl) _ _

namespace Lobby

variable {s t u : Lobby} {ms : List LobbyMove}

/-- A schedule within the limits goes through, under the invariant. -/
theorem exists_run_inv (hen : lobby.Always lobby.enabled start ms)
    (hlim : WithinLimits (requests ms)) :
    ∃ t, lobby.run start ms = some t ∧ t.Inv ∧ t.members.map Member.request = requests ms := by
  refine StepSystem.run_schedule (Q := fun ms => WithinLimits (requests ms))
    (P := fun ms t => t.Inv ∧ t.members.map Member.request = requests ms)
    (fun ms m h => ?_) ⟨inv_start, rfl⟩ (fun ms m t ⟨hinv, hreq⟩ hlim hen => ?_) hen hlim
  · rw [requests_append] at h
    exact h.of_append
  · rw [requests_append] at hlim ⊢
    obtain ⟨u, hu⟩ := hinv.exists_exec hen (hreq ▸ hlim)
    have hstep := hinv.toSlots.step hu
    have hinv' := hinv.step (fun r hr => hlim.terminated r (List.mem_append_right _ hr)) hu
    exact ⟨u, hu, hinv', by rw [hstep.map_request, hreq]⟩

/-- A run that goes through keeps the invariant, whatever the totals. -/
theorem inv_of_run (hrun : lobby.run start ms = some t)
    (hterm : ∀ r ∈ requests ms, r.Terminated) :
    t.Inv ∧ t.members.map Member.request = requests ms := by
  refine StepSystem.run_history (S := lobby) (s := start)
    (P := fun ms t => (∀ r ∈ requests ms, r.Terminated) →
      t.Inv ∧ t.members.map Member.request = requests ms)
    (fun _ => ⟨inv_start, rfl⟩) (fun ms m t u _ ih hexec hterm => ?_) hrun hterm
  rw [requests_append] at hterm ⊢
  obtain ⟨hinv, hreq⟩ := ih fun r hr => hterm r (List.mem_append_left _ hr)
  have hinv' := hinv.step (fun r hr => hterm r (List.mem_append_right _ hr)) hexec
  exact ⟨hinv', by rw [(hinv.toSlots.step hexec).map_request, hreq]⟩

/-- The tables have no room for more. -/
theorem Slots.groupSize_le (h : s.Slots) (g : ℕ) : s.groupSize g ≤ maxGroupSize := by
  by_contra hlt
  obtain ⟨k, m, hm, -, hid⟩ := h.exists_member (g := g) (i := maxGroupSize) (by omega)
  exact absurd (h.lt_of_mem (List.mem_of_getElem? hm)).2 (by omega)

/-- What has been possible was within the limits. -/
theorem Inv.withinLimits (h : s.Inv) (hterm : ∀ m ∈ s.members, m.request.Terminated) :
    WithinLimits (s.members.map Member.request) := by
  have hhandles : (s.members.map Member.request).map JoinRequest.groupHandle = s.handles := by
    simp [handles, Member.groupHandle, Function.comp_def]
  refine ⟨?_, ?_, ?_⟩
  · intro r hr
    obtain ⟨m, hm, rfl⟩ := List.mem_map.mp hr
    exact hterm m hm
  · rw [hhandles, ← h.groupCount]
    exact h.groupCount_le
  · intro handle
    rw [hhandles]
    -- how often a name was asked for is the number of the slots given out in its group
    by_cases hmem : handle ∈ s.handles
    · obtain ⟨m, -, rfl⟩ := List.mem_map.mp hmem
      exact (h.newId_eq m.request).symm.trans_le (h.groupSize_le _)
    · rw [List.count_eq_zero_of_not_mem hmem]
      exact Nat.zero_le _

/-- From a state on, nobody is forgotten. -/
theorem Slots.grows_of_run (h : s.Slots) (hrun : lobby.run s ms = some t) :
    Grows s.members t.members := by
  refine (StepSystem.run_invariant' (I := fun u => u.Slots ∧ Grows s.members u.members)
    (fun u m v hu hexec => ?_) ⟨h, .refl _⟩ hrun).2
  have hstep := hu.1.step hexec
  exact ⟨hstep.slots hu.1, hu.2.trans hstep.grows⟩

/-- From a state on, the members are those that were there and the requests since. -/
theorem Slots.map_request_of_run (h : s.Slots) (hrun : lobby.run s ms = some t) :
    t.members.map Member.request = s.members.map Member.request ++ requests ms := by
  refine (StepSystem.run_history (P := fun ms u => u.Slots ∧
    u.members.map Member.request = s.members.map Member.request ++ requests ms)
    ⟨h, by simp [requests]⟩ (fun ms m u v _ hu hexec => ?_) hrun).2
  have hstep := hu.1.step hexec
  refine ⟨hstep.slots hu.1, ?_⟩
  rw [hstep.map_request, hu.2, requests_append, List.append_assoc]

end Lobby

/-- **The registry follows the joins.** Any schedule of joins, responses and
departures whose joins stay within the limits goes through; it leaves a registry
in which the stored names are different, clients share a group exactly if they
asked for the same name, the ids of a group are `0, 1, 2, …` in the order of the
joins, and a slot holds the descriptor of the member it was given to until that
member departs, and `-1` from then on. No move on the way touches what is not its
own, and every member of the state behind it is still there at the end, with its
numbers, and departed if it was. -/
theorem registry_follows_joins {ms : List LobbyMove}
    (hen : lobby.Always lobby.enabled Lobby.start ms) (hlim : WithinLimits (requests ms)) :
    ∃ t, lobby.run Lobby.start ms = some t ∧ t.members.map Member.request = requests ms ∧
      t.Registered ∧
      ∀ pre m post, ms = pre ++ m :: post → ∃ s u, lobby.run Lobby.start pre = some s ∧
        lobby.exec s m = some u ∧ s.TouchesOwn m u ∧ Grows u.members t.members := by
  obtain ⟨t, hrun, hinv, hreq⟩ := exists_run_inv hen hlim
  refine ⟨t, hrun, hreq, hinv.registered, ?_⟩
  rintro pre m post rfl
  rw [List.append_cons] at hrun hlim hen
  obtain ⟨u, hu, hpost⟩ := StepSystem.run_append_eq_some.mp hrun
  obtain ⟨s, hs, hm⟩ := StepSystem.run_concat_eq_some.mp hu
  rw [requests_append, requests_append] at hlim
  have hterm : ∀ r ∈ requests [m], r.Terminated := fun r hr =>
    hlim.terminated r (List.mem_append_left _ (List.mem_append_right _ hr))
  obtain ⟨s', hs', hinvs, -⟩ := exists_run_inv
    (StepSystem.always_append.mp (StepSystem.always_append.mp hen).1).1 hlim.of_append.of_append
  obtain rfl := Option.some.inj (hs.symm.trans hs')
  exact ⟨s, u, hs, hm, hinvs.touchesOwn hterm hm,
    (hinvs.step hterm hm).toSlots.grows_of_run hpost⟩

/-- A request for a group with a name of one letter. -/
def JoinRequest.letter (c : UInt8) : JoinRequest where
  groupName := (Vector.replicate 20 0).set 0 c
  name := Vector.replicate 20 0

/-- Two clients of one group and one of another, and the first departs. -/
def threeJoins : List LobbyMove :=
  [.join 5 (.letter 97), .join 6 (.letter 98), .respond 0, .join 7 (.letter 97), .depart 0]

/-- The third client comes to the group of the first. -/
theorem registry_follows_joins_threeJoins :
    ∃ t, lobby.run Lobby.start threeJoins = some t ∧ t.Registered ∧
      t.members.map (fun m => (m.nsfd, m.groupId, m.id)) = [(5, 0, 0), (6, 1, 0), (7, 0, 1)] := by
  obtain ⟨t, hrun, hmembers⟩ : ∃ t, lobby.run Lobby.start threeJoins = some t ∧
      t.members.map (fun m => (m.nsfd, m.groupId, m.id)) = [(5, 0, 0), (6, 1, 0), (7, 0, 1)] :=
    StepSystem.exists_run (by decide +kernel)
  obtain ⟨t', hrun', -, hreg, -⟩ := registry_follows_joins
    (show lobby.Always lobby.enabled Lobby.start threeJoins by decide +kernel)
    ⟨by decide +kernel, by decide +kernel,
      fun _ => List.count_le_length.trans (by decide +kernel)⟩
  obtain rfl := Option.some.inj (hrun.symm.trans hrun')
  exact ⟨t, hrun, hreg, hmembers⟩

end GroupChat
