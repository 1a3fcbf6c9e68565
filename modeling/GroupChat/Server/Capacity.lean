import GroupChat.Registry.Guarantees
import GroupChat.Server.Invariant

/-!
# What the arrays can take

`producer_threads`, `groupNames`, `connectionCount` and `connections` are filled from
their beginning and never emptied: the three counters only grow. So what has to stay
within their sizes are totals over the whole run – connections ever accepted, names
ever asked for, joins of a group ever made – and not what is there at a time
(`GroupChat.WithinCapacity`). With that, and with messages for groups that the tables
have (`GroupChat.Server.AddressesGroup`), every access of every run is inside its array,
and so are those of `killServer` in every state; without it some access is not
(`GroupChat.capacity_iff`). The README promises more: twenty groups, and two hundred
clients for each at a time (`GroupChat.exists_run_eleven_groups`).
-/

namespace GroupChat

open Lobby Server

variable {nc n : ℕ}

/-! ### The lobby in a run of the server -/

namespace ServerMove

/-- What a move does in the lobby. -/
def lobbyMoves : ServerMove nc → List LobbyMove
  | .join fd request => [.join fd request]
  | .respond k => [.respond k]
  | .depart k => [.depart k]
  | _ => []

/-- The move is a turn of the accept loop. -/
def isAccept : ServerMove nc → Bool
  | .accept _ => true
  | _ => false

end ServerMove

open ServerMove

/-- The requests of a run, in the order of the joins. -/
def joinRequests (ms : List (ServerMove nc)) : List JoinRequest :=
  requests (ms.flatMap lobbyMoves)

@[simp] theorem joinRequests_concat (ms : List (ServerMove nc)) (m : ServerMove nc) :
    joinRequests (ms ++ [m]) = joinRequests ms ++ requests m.lobbyMoves := by
  simp [joinRequests, requests_append]

namespace Server

variable {s t : Server nc} {ms : List (ServerMove nc)}

/-- A move of the server is one of the lobby, or leaves it alone. -/
theorem lobby_run_of_exec {m : ServerMove nc} (hexec : (server nc).exec s m = some t) :
    GroupChat.lobby.run s.lobby m.lobbyMoves = some t.lobby := by
  obtain ⟨hen, heff⟩ := StepSystem.exec_eq_some.mp hexec
  cases m with
  | accept fd =>
    obtain ⟨-, heq⟩ := Option.ite_none_right_eq_some.mp heff
    obtain rfl := Option.some.inj heq
    rfl
  | join fd request =>
    obtain ⟨l, hl, rfl⟩ := Option.map_eq_some_iff.mp heff
    have hjoin : GroupChat.lobby.exec s.lobby (.join fd request) = some l :=
      StepSystem.exec_eq_some.mpr ⟨trivial, hl⟩
    rw [lobbyMoves, StepSystem.run_cons, hjoin]
    rfl
  | respond k =>
    obtain ⟨m, -, heff⟩ := Option.bind_eq_some_iff.mp heff
    obtain rfl := Option.some.inj heff
    have hrespond : GroupChat.lobby.exec s.lobby (.respond k) =
        some ⟨s.lobby.registry, s.lobby.setPhase k .serving⟩ :=
      StepSystem.exec_eq_some.mpr ⟨hen, rfl⟩
    rw [lobbyMoves, StepSystem.run_cons, hrespond]
    rfl
  | depart k =>
    obtain ⟨l, hl, rfl⟩ := Option.map_eq_some_iff.mp heff
    have hdepart : GroupChat.lobby.exec s.lobby (.depart k) = some l :=
      StepSystem.exec_eq_some.mpr ⟨hen, hl⟩
    rw [lobbyMoves, StepSystem.run_cons, hdepart]
    rfl
  | enqueue k message now =>
    obtain ⟨_, -, rfl⟩ := Option.map_eq_some_iff.mp heff
    rfl
  | pop c =>
    obtain ⟨_, -, rfl⟩ := Option.map_eq_some_iff.mp heff
    rfl
  | turn c =>
    simp only [server, deliver] at heff
    cases hc : s.consumer c with
    | idle => exact absurd hc hen
    | delivering ticket message i =>
      rw [hc] at heff
      obtain ⟨⟨reads, turn⟩, -, heff⟩ := Option.bind_eq_some_iff.mp heff
      cases turn <;> (obtain rfl := Option.some.inj heff; rfl)

/-- **The lobby of a run of the server** goes through a run of its own. -/
theorem lobby_run_of_run (hrun : (server nc).run s ms = some t) :
    GroupChat.lobby.run s.lobby (ms.flatMap lobbyMoves) = some t.lobby := by
  induction ms using List.reverseRecOn generalizing t with
  | nil =>
    obtain rfl := Option.some.inj hrun
    rfl
  | append_singleton ms m ih =>
    obtain ⟨u, hu, hexec⟩ := StepSystem.run_concat_eq_some.mp hrun
    rw [List.flatMap_append, List.flatMap_singleton]
    exact StepSystem.run_append_eq_some.mpr ⟨u.lobby, ih hu, lobby_run_of_exec hexec⟩

/-! ### Accesses -/

/-- A delivery loop is for a group that the tables have. -/
def AddressesGroup (s : Server nc) : ServerMove nc → Prop
  | .turn c =>
    match s.consumer c with
    | .idle => True
    | .delivering _ m _ => 0 ≤ m.groupId.toInt ∧ m.groupId.toInt < maxGroups
  | _ => True

instance (s : Server nc) : (mv : ServerMove nc) → Decidable (s.AddressesGroup mv)
  | .turn c =>
    match h : s.consumer c with
    | .idle => isTrue (by simp only [AddressesGroup, h])
    | .delivering _ m _ => decidable_of_iff
        (0 ≤ m.groupId.toInt ∧ m.groupId.toInt < maxGroups) (by simp only [AddressesGroup, h])
  | .accept _ | .join _ _ | .respond _ | .enqueue _ _ _ | .depart _ | .pop _ => isTrue trivial

/-- Only a turn for a group of the tables has a meaning. -/
theorem addressesGroup_of_exec {m : ServerMove nc} (hexec : (server nc).exec s m = some t) :
    s.AddressesGroup m := by
  obtain ⟨hen, heff⟩ := StepSystem.exec_eq_some.mp hexec
  cases m with
  | turn c =>
    simp only [server, deliver, AddressesGroup] at heff ⊢
    cases hc : s.consumer c with
    | idle => trivial
    | delivering ticket message i =>
      rw [hc] at heff
      obtain ⟨p, hturn, -⟩ := Option.bind_eq_some_iff.mp heff
      obtain ⟨g, hg, hturn⟩ := Option.bind_eq_some_iff.mp hturn
      obtain ⟨count, hcount, -⟩ := Option.bind_eq_some_iff.mp hturn
      have hlt : g < maxGroups := (Vector.getElem?_eq_some_iff.mp hcount).1
      have heq : message.groupId.toInt = g := Int.mem_toNat?.mp hg
      simp only
      omega
  | _ => trivial

/-- A move within the limits has an effect. -/
theorem Inv.exists_exec (h : s.Inv n) (hl : s.lobby.Inv) {m : ServerMove nc}
    (hen : (server nc).enabled s m) (haccept : m.isAccept = true → s.clientCount < maxClients)
    (hlim : WithinLimits (s.lobby.members.map Member.request ++ requests m.lobbyMoves))
    (hgroup : s.AddressesGroup m) : ∃ t, (server nc).exec s m = some t := by
  simp only [StepSystem.exec_eq_some, hen, true_and]
  cases m with
  | accept fd => exact ⟨_, if_pos (haccept rfl)⟩
  | join fd request =>
    obtain ⟨l, hexec⟩ := hl.exists_exec (m := .join fd request) trivial hlim
    obtain ⟨-, heff⟩ := StepSystem.exec_eq_some.mp hexec
    exact ⟨_, by simp only [server, heff]; rfl⟩
  | respond k =>
    obtain ⟨m, hm, -⟩ := exists_of_phase? hen
    exact ⟨_, by simp only [server, hm]; rfl⟩
  | depart k =>
    obtain ⟨l, hexec⟩ := hl.exists_exec (m := .depart k) hen hlim
    obtain ⟨-, heff⟩ := StepSystem.exec_eq_some.mp hexec
    exact ⟨_, by simp only [server, heff]; rfl⟩
  | enqueue k message now =>
    obtain ⟨q, hq, -⟩ := Queue.insertQueue_of_lt h.wf (h.room hen.2) message now
    exact ⟨_, by simp only [server, hq]; rfl⟩
  | pop c =>
    obtain ⟨e, es, hcontents⟩ := h.exists_entry hen.2
    obtain ⟨q, hq, -⟩ := Queue.popQueue_of_ne_nil h.wf hcontents
    exact ⟨_, by simp only [server, hq]; rfl⟩
  | turn c =>
    simp only [server, deliver, AddressesGroup] at hgroup ⊢
    -- whatever the slot, the count and the row of the group are there
    cases hc : s.consumer c with
    | idle => exact absurd hc hen
    | delivering ticket message i =>
      rw [hc] at hgroup
      have hg : message.InGroup message.groupId.toInt.toNat := by
        rw [Message.InGroup]
        omega
      obtain ⟨⟨reads, turn⟩, hturn⟩ := h.slots.exists_deliverTurn hg (by omega) i
      simp only [hturn, Option.bind_eq_bind, Option.bind_some]
      cases turn <;> exact ⟨_, rfl⟩

/-- `clientCount` counts the accepts, and none has been one too many. -/
theorem clientCount_of_run (hs : s.Initial n) (hrun : (server nc).run s ms = some t) :
    t.clientCount = ms.countP isAccept ∧ t.clientCount ≤ maxClients := by
  refine StepSystem.run_history (S := server nc)
    (P := fun ms t => t.clientCount = ms.countP isAccept ∧ t.clientCount ≤ maxClients)
    ?_ (fun ms m u v hu ih hexec => ?_) hrun
  · rw [hs.clientCount]
    exact ⟨rfl, Nat.zero_le _⟩
  · rw [List.countP_append, ← ih.1]
    cases (hs.inv.inv_of_run hu).step hexec with
    | accept hlt => exact ⟨rfl, hlt⟩
    | _ => exact ⟨rfl, ih.2⟩

/-- The row of a group can be gone through. -/
theorem exists_row? {l : Lobby} (h : l.Slots) {g : ℕ} (hg : g < maxGroups) :
    ∃ fds, l.registry.row? g = some fds := by
  simp only [Registry.row?, h.connectionCount g hg, Option.bind_eq_bind, Option.bind_some]
  refine CInt.exists_mapM _ fun i hi => ?_
  -- every slot below the count belongs to a member
  obtain ⟨k, m, hm, rfl, rfl⟩ := h.exists_member (List.mem_range.mp hi)
  exact ⟨_, h.connection m (List.mem_of_getElem? hm)⟩

/-- The loops of `killServer` stay inside the arrays. -/
theorem exists_killServer (hl : s.lobby.Inv) (hclients : s.clientCount ≤ maxClients) :
    ∃ p, s.killServer = some p := by
  obtain ⟨killed, hkilled⟩ := CInt.exists_mapM
    (f := fun i => if i < maxClients then some i else none)
    (List.range (s.clientCount - 1)) fun i hi => by
      have hlt := List.mem_range.mp hi
      exact ⟨i, if_pos (by omega)⟩
  obtain ⟨closed, hclosed⟩ := CInt.exists_mapM (f := s.lobby.registry.row?)
    (List.range s.lobby.registry.groupCount) fun g hg =>
      exists_row? hl.toSlots ((List.mem_range.mp hg).trans_le hl.groupCount_le)
  exact ⟨_, by simp only [killServer, hkilled, hclosed, Option.bind_eq_bind, Option.bind_some]; rfl⟩

end Server

/-! ### Totals -/

/-- The totals of a whole run stay within the sizes of the arrays. -/
structure WithinCapacity (ms : List (ServerMove nc)) : Prop where
  accepts : ms.countP isAccept ≤ maxClients
  joins : WithinLimits (joinRequests ms)

theorem WithinCapacity.of_concat {ms : List (ServerMove nc)} {m : ServerMove nc}
    (h : WithinCapacity (ms ++ [m])) : WithinCapacity ms where
  accepts := by
    have := h.accepts
    rw [List.countP_append] at this
    omega
  joins := by
    have := h.joins
    rw [joinRequests_concat] at this
    exact this.of_append

namespace Server

variable {s t : Server nc} {ms : List (ServerMove nc)}

theorem lobby_of_run (hs : s.Initial n) (hterm : ∀ r ∈ joinRequests ms, r.Terminated)
    (hrun : (server nc).run s ms = some t) :
    t.lobby.Inv ∧ t.lobby.members.map Member.request = joinRequests ms :=
  Lobby.inv_of_run (by rw [← hs.lobby]; exact lobby_run_of_run hrun) hterm

/-- A run that goes through was within the totals. -/
theorem withinCapacity_of_run (hs : s.Initial n) (hterm : ∀ r ∈ joinRequests ms, r.Terminated)
    (hrun : (server nc).run s ms = some t) : WithinCapacity ms := by
  obtain ⟨hinv, hreq⟩ := lobby_of_run hs hterm hrun
  obtain ⟨hcount, hle⟩ := clientCount_of_run hs hrun
  refine ⟨hcount ▸ hle, ?_⟩
  rw [← hreq]
  refine hinv.withinLimits fun m hm => hterm _ ?_
  rw [← hreq]
  exact List.mem_map_of_mem hm

/-- A schedule within the totals goes through. -/
theorem exists_run_of_withinCapacity (hs : s.Initial n)
    (hen : (server nc).Always (server nc).enabled s ms) (hcap : WithinCapacity ms)
    (hgroups : (server nc).Always AddressesGroup s ms) : ∃ t, (server nc).run s ms = some t := by
  have hboth := (StepSystem.always_and (G := (server nc).enabled)).mpr ⟨hen, hgroups⟩
  refine (StepSystem.run_schedule (P := fun ms t => (server nc).run s ms = some t)
    (fun _ _ => WithinCapacity.of_concat) rfl (fun ms m t hrun hcap hG => ?_) hboth hcap).imp
    fun _ => And.left
  have hjoins := hcap.joins
  rw [joinRequests_concat] at hjoins
  obtain ⟨hinv, hreq⟩ := lobby_of_run hs
    (fun r hr => hjoins.terminated r (List.mem_append_left _ hr)) hrun
  have hroom : m.isAccept = true → t.clientCount < maxClients := fun haccept => by
    have haccepts := hcap.accepts
    rw [List.countP_append, ← (clientCount_of_run hs hrun).1, List.countP_singleton,
      if_pos haccept] at haccepts
    exact haccepts
  obtain ⟨u, hu⟩ := (hs.inv.inv_of_run hrun).exists_exec hinv hG.1 hroom (hreq ▸ hjoins) hG.2
  exact ⟨u, hu, StepSystem.run_concat_eq_some.mpr ⟨t, hrun, hu⟩⟩

end Server

/-- **Capacity.** Take any schedule of the server whose clients ask for group names that
end within their field. All its accesses are inside their arrays, those of `killServer` in
each of its states included, if and only if over the whole run it accepts at most
`MAX_CLIENTS` connections, its joins ask for at most `MAX_GROUPS` names, each of them at
most `MAX_GROUP_SIZE` times, and all delivery loops are for groups that the tables have. -/
theorem capacity_iff {s : Server nc} {ms : List (ServerMove nc)} (hs : s.Initial n)
    (hen : (server nc).Always (server nc).enabled s ms)
    (hterm : ∀ r ∈ joinRequests ms, r.Terminated) :
    (∀ pre, pre <+: ms → ∃ t p, (server nc).run s pre = some t ∧ t.killServer = some p) ↔
      WithinCapacity ms ∧ (server nc).Always AddressesGroup s ms := by
  constructor
  · intro hall
    -- the counters only grow, so what the last state holds bounds the whole run
    obtain ⟨t, -, hrun, -⟩ := hall ms (List.prefix_refl ms)
    refine ⟨withinCapacity_of_run hs hterm hrun, StepSystem.always_iff_prefixes.mpr ?_⟩
    intro pre m u hpre hu
    obtain ⟨v, -, hv, -⟩ := hall _ hpre
    obtain ⟨u', hu', hexec⟩ := StepSystem.run_concat_eq_some.mp hv
    obtain rfl := Option.some.inj (hu.symm.trans hu')
    exact addressesGroup_of_exec hexec
  · rintro ⟨hcap, hgroups⟩ pre ⟨post, rfl⟩
    obtain ⟨v, hv⟩ := exists_run_of_withinCapacity hs hen hcap hgroups
    obtain ⟨t, hrun, -⟩ := StepSystem.run_append_eq_some.mp hv
    have hpre : ∀ r ∈ joinRequests pre, r.Terminated := fun r hr => by
      refine hterm r ?_
      rw [joinRequests, List.flatMap_append, requests_append]
      exact List.mem_append_left _ hr
    obtain ⟨p, hp⟩ := exists_killServer (lobby_of_run hs hpre hrun).1
      (clientCount_of_run hs hrun).2
    exact ⟨t, p, hrun, hp⟩

/-- One client after the other, each for a group of its own. -/
def groupOfItsOwn (k : ℕ) : List (ServerMove consumerThreadCount) :=
  (List.range k).flatMap fun i : ℕ =>
    [.accept (5 + (i : ℤ)), .join (5 + (i : ℤ)) (.letter (UInt8.ofNat (97 + i)))]

/-- Two groups fit in. One of the two clients sends a message, and the other one leaves while
a loop delivers it. -/
theorem capacity_iff_two :
    ∃ t p, (server consumerThreadCount).run (start consumerThreadCount (newQueue 1))
        (groupOfItsOwn 2 ++ [.respond 0, .respond 1, .enqueue 0 (.blank 7 0) ⟨0, 0⟩, .pop 0,
          .turn 0, .depart 1, .turn 0]) = some t ∧ t.killServer = some p :=
  (capacity_iff (initial_start (exists_initQueue_newQueue (by decide))) (by decide +kernel)
    (by decide +kernel)).mpr ⟨⟨by decide +kernel, by decide +kernel, by decide +kernel,
      fun _ => List.count_le_length.trans (by decide +kernel)⟩, by decide +kernel⟩ _
    (List.prefix_refl _)

/-- **Eleven groups.** That all accesses are inside their arrays for up to twenty names and
up to two hundred clients of a group at a time is not so: the eleventh name has no place in
`groupNames`. -/
theorem exists_run_eleven_groups :
    ¬∀ (s : Server consumerThreadCount) ms, s.Initial messageQueueSize →
      (server consumerThreadCount).Always (server consumerThreadCount).enabled s ms →
      (server consumerThreadCount).Always FreshAccept s ms →
      (∀ r ∈ joinRequests ms, r.Terminated) →
      ((joinRequests ms).map JoinRequest.groupHandle).eraseDups.length ≤ 20 →
      (∀ pre t, pre <+: ms → (server consumerThreadCount).run s pre = some t → ∀ handle,
        t.lobby.members.countP (fun m => m.groupHandle = handle ∧ m.phase ≠ .departed) ≤ 200) →
      ∀ pre, pre <+: ms → ∃ t p, (server consumerThreadCount).run s pre = some t ∧
        t.killServer = some p := by
  intro hall
  have hs : (start consumerThreadCount (newQueue messageQueueSize)).Initial messageQueueSize :=
    initial_start (exists_initQueue_newQueue (by decide))
  have hterm : ∀ r ∈ joinRequests (groupOfItsOwn 11), r.Terminated := by decide +kernel
  have hpresent : ∀ pre t, pre <+: groupOfItsOwn 11 →
      (server consumerThreadCount).run (start _ (newQueue messageQueueSize)) pre = some t →
      ∀ handle, t.lobby.members.countP
        (fun m => m.groupHandle = handle ∧ m.phase ≠ .departed) ≤ 200 := by
    rintro pre t ⟨post, hpost⟩ hrun handle
    -- there are no more clients than eleven at any time
    have hsplit : joinRequests (groupOfItsOwn 11) =
        joinRequests pre ++ requests (post.flatMap lobbyMoves) := by
      rw [← hpost, joinRequests, List.flatMap_append, requests_append]
      rfl
    have hmembers := (lobby_of_run hs
      (fun r hr => hterm r (hsplit ▸ List.mem_append_left _ hr)) hrun).2
    have hlength := congrArg List.length hsplit
    rw [List.length_append, ← hmembers, List.length_map] at hlength
    have heleven : (joinRequests (groupOfItsOwn 11)).length = 11 := by decide +kernel
    refine List.countP_le_length.trans ?_
    omega
  obtain ⟨t, -, hrun, -⟩ := hall _ (groupOfItsOwn 11) hs (by decide +kernel) (by decide +kernel)
    hterm (by decide +kernel) hpresent _ (List.prefix_refl _)
  exact absurd (withinCapacity_of_run hs hterm hrun).joins.groups (by decide +kernel)

end GroupChat
