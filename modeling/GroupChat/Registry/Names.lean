import GroupChat.Registry.Slots

/-!
# The names of the registry

`groupNames` holds the requested names in the order of their first appearance,
and a client is assigned to the group with the number of its name
(`GroupChat.Lobby.Inv`). The linear search finds this number
(`GroupChat.Lobby.Inv.findGroup_eq`), because the stored names are the different
names and so the first match is the only one.

All of this is for group names that end within their twenty bytes, which is what
a join must promise to keep the invariant (`GroupChat.Lobby.Inv.step`).
-/

namespace GroupChat

open Enrolment

/-! ### Requests -/

/-- The join request, read from its beginning: the group handle. -/
theorem JoinRequest.read_bytes {r : JoinRequest} (h : r.Terminated) :
    CString.read r.bytes = some r.groupHandle :=
  CString.read_append_of_mem h _

theorem JoinRequest.length_groupHandle_lt {r : JoinRequest} (h : r.Terminated) :
    r.groupHandle.length < nameSize := by
  have := CString.length_text_lt h
  rwa [Vector.length_toList] at this

namespace Lobby

/-- The group handles asked for, in the order of the joins. -/
def handles (s : Lobby) : List (List UInt8) := s.members.map Member.groupHandle

/-- **The invariant of the registry.** -/
structure Inv (s : Lobby) : Prop extends s.Slots where
  grouped : Grouped Member.groupId Member.groupHandle s.members
  groupCount : s.registry.groupCount = s.handles.eraseDups.length
  groupCount_le : s.registry.groupCount ≤ maxGroups
  /-- A stored name, with its NUL, keeps to its twenty bytes. -/
  stored : ∀ g name, s.handles.eraseDups[g]? = some name → name.length < nameSize ∧
    CString.read (s.registry.groupNames.toList.drop (g * nameSize)) = some name

variable {s : Lobby}

theorem inv_start : start.Inv where
  toSlots := slots_start
  grouped := .nil
  groupCount := rfl
  groupCount_le := Nat.zero_le _
  stored g name h := by simp [handles, start] at h

/-! ### The join -/

/-- **The search** finds the number of the requested name, if the name is stored. -/
theorem Inv.findGroup_eq (h : s.Inv) {request : JoinRequest} (hterm : request.Terminated) {k i : ℕ}
    (hk : k + i = s.registry.groupCount) :
    s.registry.findGroup request k i =
      some (if request.groupHandle ∈ s.handles.eraseDups.drop i
        then some (i + (s.handles.eraseDups.drop i).idxOf request.groupHandle) else none) := by
  induction k generalizing i with
  | zero =>
    rw [List.drop_of_length_le (by rw [← h.groupCount]; omega)]
    simp [Registry.findGroup]
  | succ k ih =>
    have hi : i < s.handles.eraseDups.length := by rw [← h.groupCount]; omega
    have hlt : i < maxGroups := by have := h.groupCount_le; omega
    obtain ⟨-, hread⟩ := h.stored i _ (List.getElem?_eq_getElem hi)
    obtain ⟨c, hc, hiff⟩ := CString.strcmp_of_read (request.read_bytes hterm) hread
    simp only [Registry.findGroup, Registry.groupName?, if_pos hlt, Option.bind_eq_bind,
      Option.bind_some, hc, hiff]
    rw [List.drop_eq_getElem_cons hi]
    -- `strcmp` is zero on the stored name alone, so the loop stops here or goes on behind it
    generalize s.handles.eraseDups[i] = name
    by_cases heq : request.groupHandle = name
    · simp [heq]
    · rw [if_neg heq, ih (by omega)]
      simp only [List.mem_cons, heq, false_or]
      rw [List.idxOf_cons_ne _ (Ne.symm heq)]
      congr 2
      rw [Nat.succ_eq_add_one]
      congr 1
      omega

/-- The group number a newcomer gets. -/
def newGroup (s : Lobby) (request : JoinRequest) : ℕ :=
  s.handles.eraseDups.idxOf request.groupHandle

/-- The id a newcomer gets. -/
def newId (s : Lobby) (request : JoinRequest) : ℕ := s.groupSize (s.newGroup request)

/-- The lobby once a newcomer has joined. -/
def enroll (s : Lobby) (reg : Registry) (request : JoinRequest) (nsfd : ℤ) : Lobby where
  registry := reg
  members := s.members ++ [⟨request, nsfd, s.newGroup request, s.newId request, .joined⟩]

theorem handles_enroll (s : Lobby) (reg : Registry) (request : JoinRequest) (nsfd : ℤ) :
    (s.enroll reg request nsfd).handles = s.handles ++ [request.groupHandle] := by
  simp [handles, enroll, Member.groupHandle]

/-- What a join does to the tables. -/
structure Joined (s : Lobby) (request : JoinRequest) (nsfd : ℤ) (reg : Registry) : Prop where
  groupCount : reg.groupCount = (s.handles ++ [request.groupHandle]).eraseDups.length
  stored : CString.read (reg.groupNames.toList.drop (s.newGroup request * nameSize)) =
    some request.groupHandle
  groupNames : ∀ j, (j < s.newGroup request * nameSize ∨
    s.newGroup request * nameSize + nameSize ≤ j) →
      reg.groupNames.toList[j]? = s.registry.groupNames.toList[j]?
  connectionCount : ∀ g, reg.connectionCount[g]? =
    if g = s.newGroup request then some (s.newId request + 1) else s.registry.connectionCount[g]?
  connection : ∀ g i, reg.connection? g i =
    if g = s.newGroup request ∧ i = s.newId request then some nsfd
    else s.registry.connection? g i

/-- The id of a newcomer is the number of those that asked for its name before. -/
theorem Inv.newId_eq (h : s.Inv) (request : JoinRequest) :
    s.newId request = s.handles.count request.groupHandle := by
  have hgrouped : Grouped Member.groupId Member.groupHandle
      (s.enroll s.registry request 0).members := h.grouped.concat rfl
  rw [newId, groupSize, handles, List.count, List.countP_map]
  refine List.countP_congr fun m hm => ?_
  simpa [Member.groupHandle] using hgrouped.group_eq_iff (List.mem_append_left _ hm)
    (List.mem_append_right s.members (List.mem_singleton.mpr rfl))

/-- A group without a number gets the next one. -/
theorem Inv.newGroup_of_notMem (h : s.Inv) {request : JoinRequest}
    (hnew : request.groupHandle ∉ s.handles) : s.newGroup request = s.registry.groupCount := by
  rw [newGroup, List.idxOf_of_notMem (fun hmem => hnew (List.mem_eraseDups.mp hmem)), h.groupCount]

/-- What the search returns. -/
theorem Inv.findGroup_zero (h : s.Inv) {request : JoinRequest} (hterm : request.Terminated) :
    s.registry.findGroup request s.registry.groupCount 0 =
      some (if request.groupHandle ∈ s.handles then some (s.newGroup request) else none) := by
  rw [h.findGroup_eq hterm (Nat.add_zero _)]
  simp [newGroup]

/-- **A join within the limits.** -/
theorem Inv.join_eq_some (h : s.Inv) {request : JoinRequest} (hterm : request.Terminated) (nsfd : ℤ)
    (hg : s.newGroup request < maxGroups) (hid : s.newId request < maxGroupSize) :
    ∃ reg, s.registry.join request nsfd = some (reg, s.newGroup request, s.newId request) ∧
      s.Joined request nsfd reg := by
  have hcount : s.registry.connectionCount[s.newGroup request]? = some (s.newId request) :=
    h.connectionCount _ hg
  -- the group is known and only a client is added, or its name is copied behind the others
  by_cases hmem : request.groupHandle ∈ s.handles
  · obtain ⟨reg, hassign, hreg⟩ := Registry.assign_eq_some s.registry hcount hid nsfd
    refine ⟨reg, ?_, ?_, ?_, ?_, hreg.connectionCount, hreg.connection⟩
    · rw [Registry.join, h.findGroup_zero hterm, if_pos hmem]
      exact hassign
    · rw [hreg.groupCount, h.groupCount, eraseDups_concat, if_pos hmem]
    · rw [hreg.groupNames]
      exact (h.stored _ _ (List.getElem?_idxOf (List.mem_eraseDups.mpr hmem))).2
    · exact fun j _ => by rw [hreg.groupNames]
  · have hnew := h.newGroup_of_notMem hmem
    have hlen := request.length_groupHandle_lt hterm
    obtain ⟨names, hcopy, hread, hframe⟩ := CString.strcpy_of_read
      s.registry.groupNames (s.newGroup request * nameSize)
      (request.read_bytes hterm) (by simp only [maxGroups, nameSize] at *; omega)
    obtain ⟨reg, hassign, hreg⟩ := Registry.assign_eq_some
      { s.registry with groupNames := names, groupCount := s.registry.groupCount + 1 }
      hcount hid nsfd
    refine ⟨reg, ?_, ?_, ?_, ?_, hreg.connectionCount, hreg.connection⟩
    · rw [Registry.join, h.findGroup_zero hterm, if_neg hmem]
      simp only [Option.bind_eq_bind, Option.bind_some, Registry.groupName?, ← hnew, if_pos hg,
        hcopy]
      rw [← hnew] at hassign
      exact hassign
    · rw [hreg.groupCount, h.groupCount, eraseDups_concat, if_neg hmem]
      simp
    · rw [hreg.groupNames]
      exact hread
    · intro j hj
      rw [hreg.groupNames]
      exact hframe j (by omega)

/-- Beyond the limits a join has no defined meaning. -/
theorem Inv.of_join_eq_some (h : s.Inv) {request : JoinRequest} (hterm : request.Terminated)
    {nsfd : ℤ} {reg : Registry} {p : ℕ × ℕ} (hjoin : s.registry.join request nsfd = some (reg, p)) :
    s.newGroup request < maxGroups ∧ s.newId request < maxGroupSize := by
  have key : ∀ {reg' : Registry}, reg'.connectionCount = s.registry.connectionCount →
      reg'.assign (s.newGroup request) nsfd = some (reg, p) →
      s.newGroup request < maxGroups ∧ s.newId request < maxGroupSize := by
    intro reg' hcounts hassign
    obtain ⟨-, hcount, hid, -⟩ := Registry.of_assign_eq_some hassign
    have hlt : s.newGroup request < maxGroups := (Vector.getElem?_eq_some_iff.mp hcount).1
    rw [hcounts, h.connectionCount _ hlt, Option.some.injEq] at hcount
    exact ⟨hlt, (show s.newId request = p.2 from hcount) ▸ hid⟩
  rw [Registry.join, h.findGroup_zero hterm] at hjoin
  by_cases hmem : request.groupHandle ∈ s.handles
  · rw [if_pos hmem] at hjoin
    exact key rfl hjoin
  · rw [if_neg hmem, Option.bind_eq_bind, Option.bind_some] at hjoin
    obtain ⟨_, -, hjoin⟩ := Option.bind_eq_some_iff.mp hjoin
    obtain ⟨names, -, hjoin⟩ := Option.bind_eq_some_iff.mp hjoin
    rw [← h.newGroup_of_notMem hmem] at hjoin
    refine key ?_ hjoin
    rfl

/-- **A join keeps the invariant.** -/
theorem Inv.enroll (h : s.Inv) {request : JoinRequest} (hterm : request.Terminated) {nsfd : ℤ}
    (hg : s.newGroup request < maxGroups) {reg : Registry} (hreg : s.Joined request nsfd reg) :
    (s.enroll reg request nsfd).Inv where
  toSlots := h.toSlots.enroll rfl hreg.connectionCount hreg.connection
  grouped := h.grouped.concat rfl
  groupCount := by rw [handles_enroll]; exact hreg.groupCount
  groupCount_le := by
    have hle := h.groupCount_le
    refine hreg.groupCount.trans_le ?_
    rw [eraseDups_concat]
    split_ifs with hmem
    · rwa [← h.groupCount]
    · rw [List.length_append, ← h.groupCount, ← h.newGroup_of_notMem hmem]
      exact hg
  stored g name hname := by
    rw [handles_enroll] at hname
    -- the twenty bytes of the other names are outside what `strcpy` has written
    rcases eq_or_ne g (s.newGroup request) with rfl | hne
    · rw [newGroup, ← idxOf_eraseDups_concat, List.getElem?_idxOf (by simp),
        Option.some.injEq] at hname
      exact hname ▸ ⟨request.length_groupHandle_lt hterm, hreg.stored⟩
    · have hold : s.handles.eraseDups[g]? = some name := by
        rw [eraseDups_concat] at hname
        split_ifs at hname with hmem
        · exact hname
        · have hlen := h.newGroup_of_notMem hmem
          rw [h.groupCount] at hlen
          have hlt := (List.getElem?_eq_some_iff.mp hname).1
          rw [List.length_append, List.length_singleton] at hlt
          rwa [List.getElem?_append_left (by omega)] at hname
      obtain ⟨hlen, hread⟩ := h.stored g name hold
      refine ⟨hlen, CString.read_congr (List.ext_getElem? fun j => ?_) hread hlen⟩
      by_cases hj : j < nameSize
      · rw [List.getElem?_take_of_lt hj, List.getElem?_take_of_lt hj, List.getElem?_drop,
          List.getElem?_drop]
        refine hreg.groupNames _ ?_
        rcases Nat.lt_or_gt_of_ne hne with hlt | hlt <;> simp only [nameSize] at * <;> omega
      · rw [List.getElem?_take_eq_none (by omega), List.getElem?_take_eq_none (by omega)]

/-- Phases do not enter the names. -/
theorem Inv.setPhase (h : s.Inv) {k : ℕ} {p : Phase} {reg : Registry}
    (hslots : Slots ⟨reg, s.setPhase k p⟩) (hnames : reg.groupNames = s.registry.groupNames)
    (hgroups : reg.groupCount = s.registry.groupCount) : Inv ⟨reg, s.setPhase k p⟩ where
  toSlots := hslots
  grouped := h.grouped.congr (map_setPhase _ (fun _ _ => rfl) k p)
  groupCount := by
    rw [handles, map_setPhase _ (fun _ _ => rfl) k p, hgroups, h.groupCount, handles]
  groupCount_le := hgroups.trans_le h.groupCount_le
  stored g name := by
    rw [handles, map_setPhase _ (fun _ _ => rfl) k p, hnames]
    exact h.stored g name

end Lobby

open Lobby

/-- The requests of a list of moves, in their order. -/
def requests (ms : List LobbyMove) : List JoinRequest :=
  ms.filterMap fun
    | .join _ request => some request
    | _ => none

namespace Lobby

variable {s t : Lobby}

/-- A join by its request. -/
theorem Inv.step_join (h : s.Inv) {nsfd : ℤ} {request : JoinRequest} (hterm : request.Terminated)
    (hexec : lobby.exec s (.join nsfd request) = some t) :
    ∃ reg, s.Joined request nsfd reg ∧ t = s.enroll reg request nsfd ∧
      s.newGroup request < maxGroups := by
  obtain ⟨-, heff⟩ := StepSystem.exec_eq_some.mp hexec
  obtain ⟨⟨reg, p⟩, hjoin, rfl⟩ := Option.map_eq_some_iff.mp heff
  obtain ⟨hg, hid⟩ := h.of_join_eq_some hterm hjoin
  obtain ⟨reg', hjoin', hreg⟩ := h.join_eq_some hterm nsfd hg hid
  obtain ⟨rfl, rfl⟩ := Prod.mk.inj (Option.some.inj (hjoin'.symm.trans hjoin))
  exact ⟨reg', hreg, rfl, hg⟩

/-- **Every move keeps the invariant**, if the names that join are terminated. -/
theorem Inv.step (h : s.Inv) {m : LobbyMove} (hterm : ∀ r ∈ requests [m], r.Terminated)
    (hexec : lobby.exec s m = some t) : t.Inv := by
  have hstep := h.toSlots.step hexec
  have hslots := hstep.slots h.toSlots
  cases m with
  | join nsfd request =>
    have hr : request.Terminated := hterm request (by simp [requests])
    obtain ⟨reg, hreg, rfl, hg⟩ := h.step_join hr hexec
    exact h.enroll hr hg hreg
  | respond k =>
    cases hstep with
    | respond => exact h.setPhase hslots rfl rfl
  | depart k =>
    cases hstep with
    | depart _ _ hnames _ hgroups => exact h.setPhase hslots hnames hgroups

end Lobby

end GroupChat
