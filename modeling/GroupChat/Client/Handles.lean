import GroupChat.Client.Model
import GroupChat.Registry.Guarantees

/-!
# The handles on their way

The two handles of a command line, from the client's `strcpy` into its join request to
the group tables of the server. The request is forty bytes with the group handle in the
first twenty and the user handle in the others, and the client copies the user handle
first (lines 86 and 87 of `client.c`); `groupNames` has a name every twenty bytes, which
are all copied from the request again.

Nobody looks at a length. Handles of at most nineteen bytes arrive and stay what they
are, whoever else joins (`GroupChat.names_survive_iff`). A longer user handle has no place
in the request. A longer group handle first runs over the user handle, and in
`groupNames` over the place of the next group, which is taken when the next group is
created (`GroupChat.not_survive_of_long`).
-/

namespace GroupChat

open CString

/-- The two handles of a command line. -/
structure Handles where
  name : List UInt8
  groupName : List UInt8
  name_clean : (0 : UInt8) ∉ name
  groupName_clean : (0 : UInt8) ∉ groupName

/-- Both handles fit their fields. -/
def Handles.Short (h : Handles) : Prop := h.name.length < nameSize ∧ h.groupName.length < nameSize

/-- Handles with what is accidental about the client that has them: what its local
`request` held, and the descriptor it gets on the server. -/
structure Entrant extends Handles where
  memory : Vector UInt8 40
  nsfd : ℤ

namespace Entrant

/-- Lines 85 to 89 of `client.c`: the join request, as it is written. -/
def requestBytes (e : Entrant) : Option (Vector UInt8 40) := do
  let request ← strcpy e.memory 20 (e.name ++ [0])
  strcpy request 0 (e.groupName ++ [0])

/-- The request that the server reads. -/
def request (e : Entrant) : Option JoinRequest :=
  e.requestBytes.map fun bytes => joinRequestCodec.decode bytes.toList

variable {e : Entrant} {bytes : Vector UInt8 40} {r : JoinRequest}

/-- The request is that of the client's two statements. -/
theorem requestBytes_eq_main {args : Arguments} {s t u : Client} {now : Timeval}
    {response : JoinResponse} (hs : s.next = .copyName) (he : e.memory = s.request)
    (hname : e.name = args.name) (hgroup : e.groupName = args.groupName)
    (ht : s.main args now response = some t) (hu : t.main args now response = some u) :
    e.requestBytes = some u.request := by
  simp only [Client.main, hs] at ht
  obtain ⟨request, hcopy, rfl⟩ := Option.map_eq_some_iff.mp ht
  simp only [Client.main, Client.next_goto] at hu
  obtain ⟨request', hcopy', rfl⟩ := Option.map_eq_some_iff.mp hu
  rw [requestBytes, he, hname, hgroup, hcopy]
  exact hcopy'

/-- What is written, one handle after the other. -/
theorem requestBytes_eq (e : Entrant) :
    e.requestBytes = (put e.memory 20 e.name).bind fun request => put request 0 e.groupName := by
  rw [requestBytes, Option.bind_eq_bind,
    strcpy_eq_put e.memory 20 (read_append_cons e.name_clean [])]
  congr
  funext request
  exact strcpy_eq_put request 0 (read_append_cons e.groupName_clean [])

/-- What is asked of the lengths for the request to be written at all. -/
theorem lengths_of_requestBytes (h : e.requestBytes = some bytes) :
    e.name.length < 20 ∧ e.groupName.length < 40 := by
  rw [requestBytes_eq] at h
  obtain ⟨request, hname, hgroup⟩ := Option.bind_eq_some_iff.mp h
  have hname := (put_spec hname).1
  have hgroup := (put_spec hgroup).1
  constructor <;> omega

/-- The group handle stands at the start of the request. -/
theorem read_requestBytes (h : e.requestBytes = some bytes) :
    read bytes.toList = some e.groupName := by
  rw [requestBytes_eq] at h
  obtain ⟨request, -, hgroup⟩ := Option.bind_eq_some_iff.mp h
  exact read_of_put hgroup e.groupName_clean

/-- Short handles are both in their places. -/
theorem exists_requestBytes (h : e.Short) :
    ∃ bytes, e.requestBytes = some bytes ∧ read (bytes.toList.drop 20) = some e.name := by
  obtain ⟨hname, hgroup⟩ : e.name.length < 20 ∧ e.groupName.length < 20 := h
  obtain ⟨request, hcopy, hread, -⟩ := strcpy_of_read e.memory 20
    (read_append_cons e.name_clean []) (by omega)
  obtain ⟨bytes, hcopy', -, hframe⟩ := strcpy_of_read request 0
    (read_append_cons e.groupName_clean []) (by omega)
  refine ⟨bytes, by rw [requestBytes, Option.bind_eq_bind, hcopy]; exact hcopy', ?_⟩
  -- the second copy ends in front of the first one
  rw [← hread]
  congr 1
  refine List.ext_getElem? fun j => ?_
  rw [List.getElem?_drop, List.getElem?_drop]
  exact hframe _ (Or.inr (by omega))

/-- The server has the bytes that the client has written. -/
theorem bytes_decode (bytes : Vector UInt8 40) :
    (joinRequestCodec.decode bytes.toList).bytes = bytes.toList ∧
      (joinRequestCodec.decode bytes.toList).groupName.toList = bytes.toList.take 20 ∧
      (joinRequestCodec.decode bytes.toList).name.toList = bytes.toList.drop 20 := by
  have hgroup : (joinRequestCodec.decode bytes.toList).groupName.toList = bytes.toList.take 20 :=
    ByteLayout.toList_chars (by simp)
  have hname : (joinRequestCodec.decode bytes.toList).name.toList = bytes.toList.drop 20 := by
    refine (ByteLayout.toList_chars (by simp)).trans ?_
    exact List.take_of_length_le (by simp)
  refine ⟨?_, hgroup, hname⟩
  rw [JoinRequest.bytes, hgroup, hname, List.take_append_drop]

/-- Whatever is sent is read from its beginning as the group handle. -/
theorem read_request (h : e.request = some r) :
    read r.bytes = some e.groupName ∧ e.name.length < 20 ∧ e.groupName.length < 40 := by
  obtain ⟨bytes, hbytes, rfl⟩ := Option.map_eq_some_iff.mp h
  rw [(bytes_decode bytes).1]
  exact ⟨read_requestBytes hbytes, lengths_of_requestBytes hbytes⟩

/-- A request with the two handles of an entrant. -/
structure Carries (e : Entrant) (r : JoinRequest) : Prop where
  request : e.request = some r
  terminated : r.Terminated
  groupHandle : r.groupHandle = e.groupName
  name : read r.name.toList = some e.name

/-- **Short handles** are what the server reads. -/
theorem exists_carries (h : e.Short) : ∃ r, e.Carries r := by
  obtain ⟨bytes, hbytes, hname⟩ := exists_requestBytes h
  obtain ⟨-, hgroup', hname'⟩ := bytes_decode bytes
  have hread := read_take (read_requestBytes hbytes) h.2
  obtain ⟨hmem, htext⟩ := read_eq_some.mp hread
  refine ⟨_, by rw [request, hbytes]; rfl, ?_, ?_, ?_⟩
  · rw [JoinRequest.Terminated, hgroup']
    exact hmem
  · rw [JoinRequest.groupHandle, hgroup']
    exact htext
  · rw [hname']
    exact hname

end Entrant

/-! ### Trips -/

/-- A move of the server's handlers, where a join comes from a command line. -/
inductive TripMove where
  | join (e : Entrant)
  | respond (k : ℕ)
  | depart (k : ℕ)

/-- The registry, fed by clients. -/
def trip : StepSystem Lobby TripMove where
  enabled s
    | .join _ => True
    | .respond k => lobby.enabled s (.respond k)
    | .depart k => lobby.enabled s (.depart k)
  effect s
    | .join e => e.request.bind fun r => lobby.effect s (.join e.nsfd r)
    | .respond k => lobby.effect s (.respond k)
    | .depart k => lobby.effect s (.depart k)
  decEnabled s m := by
    cases m <;> simp only <;> infer_instance

/-- Those who join, in their order. -/
def entrants (ms : List TripMove) : List Entrant :=
  ms.filterMap fun
    | .join e => some e
    | _ => none

theorem entrants_append (ms ns : List TripMove) :
    entrants (ms ++ ns) = entrants ms ++ entrants ns := List.filterMap_append

/-- The command lines ask for no more than the tables have. -/
structure TripLimits (es : List Entrant) : Prop where
  groups : (es.map fun e => e.groupName).eraseDups.length ≤ maxGroups
  sizes : ∀ handle, (es.map fun e => e.groupName).count handle ≤ maxGroupSize

/-- **What has become of the handles**: the members' names and the names of their groups
are those of the command lines, and groups are shared by equal handles. -/
structure Arrived (es : List Entrant) (t : Lobby) : Prop where
  names : List.Forall₂ (fun e (m : Member) => read m.request.name.toList = some e.name ∧
    t.registry.name? m.groupId = some e.groupName) es t.members
  sameGroup : ∀ p ∈ es.zip t.members, ∀ q ∈ es.zip t.members,
    p.2.groupId = q.2.groupId ↔ p.1.groupName = q.1.groupName

/-- The groups that were there keep their names. -/
def KeepsNames (s t : Lobby) : Prop :=
  ∀ g < s.registry.groupCount, t.registry.name? g = s.registry.name? g

/-- **Names survive the trip**: at every point of the schedule the handles have arrived,
and no move changes the name of a group. -/
def NamesSurvive (ms : List TripMove) : Prop :=
  trip.Always trip.enabled Lobby.start ms →
    (∀ pre, pre <+: ms → ∃ t, trip.run Lobby.start pre = some t ∧ Arrived (entrants pre) t) ∧
    ∀ pre m s t, pre ++ [m] <+: ms → trip.run Lobby.start pre = some s →
      trip.exec s m = some t → KeepsNames s t

/-- Names survive whenever clients with these handles join among clients with short ones. -/
def Handles.Survive (h : Handles) : Prop :=
  ∀ ms, (∀ e ∈ entrants ms, e.toHandles = h ∨ e.Short) → TripLimits (entrants ms) →
    NamesSurvive ms

/-! ### Short handles -/

theorem map_groupHandle {es : List Entrant} {rs : List JoinRequest}
    (h : List.Forall₂ Entrant.Carries es rs) :
    rs.map JoinRequest.groupHandle = es.map fun e => e.groupName := by
  induction h with
  | nil => rfl
  | cons hcarries _ ih => rw [List.map_cons, List.map_cons, ih, hcarries.groupHandle]

/-- Limits on the command lines are limits on the requests. -/
theorem TripLimits.withinLimits {es : List Entrant} {rs : List JoinRequest} (h : TripLimits es)
    (hrs : List.Forall₂ Entrant.Carries es rs) : WithinLimits rs where
  terminated r hr := by
    obtain ⟨k, hk⟩ := List.mem_iff_getElem?.mp hr
    obtain ⟨hlt, rfl⟩ := List.getElem?_eq_some_iff.mp hk
    exact (hrs.get (hrs.length_eq ▸ hlt) hlt).terminated
  groups := by
    rw [map_groupHandle hrs]
    exact h.groups
  sizes := by
    rw [map_groupHandle hrs]
    exact h.sizes

theorem TripLimits.of_append {es es' : List Entrant} (h : TripLimits (es ++ es')) :
    TripLimits es where
  groups := by
    have := h.groups
    rw [List.map_append] at this
    exact (Enrolment.length_eraseDups_le_append _ _).trans this
  sizes handle := by
    have := h.sizes handle
    rw [List.map_append, List.count_append] at this
    omega

namespace Lobby

variable {s t : Lobby} {es : List Entrant} {m : TripMove}

/-- The members have come with the requests of the entrants. -/
structure CameAs (t : Lobby) (es : List Entrant) : Prop extends t.Inv where
  requests : List.Forall₂ Entrant.Carries es (t.members.map Member.request)

theorem CameAs.arrived (h : t.CameAs es) : Arrived es t := by
  obtain ⟨hlen, hzip⟩ := List.forall₂_iff_zip.mp (List.forall₂_map_right_iff.mp h.requests)
  have hreg := h.registered
  constructor
  · refine List.forall₂_iff_zip.mpr ⟨hlen, fun {e m} hem => ⟨(hzip hem).name, ?_⟩⟩
    rw [(hreg.named m (List.of_mem_zip hem).2).2, Member.groupHandle, (hzip hem).groupHandle]
  · rintro ⟨e, m⟩ hem ⟨e', m'⟩ hem'
    have hiff := hreg.sameGroup m (List.of_mem_zip hem).2 m' (List.of_mem_zip hem').2
    rw [Member.groupHandle, Member.groupHandle, (hzip hem).groupHandle,
      (hzip hem').groupHandle] at hiff
    exact hiff

/-- Later requests are stored behind those that were there. -/
theorem Inv.keepsNames (h : s.Inv) (h' : t.Inv) (handles : List (List UInt8))
    (heq : t.handles = s.handles ++ handles) : KeepsNames s t := by
  intro g hg
  have hlt : g < s.handles.eraseDups.length := h.groupCount ▸ hg
  obtain ⟨names, hpre⟩ : ∃ names, t.handles.eraseDups = s.handles.eraseDups ++ names :=
    ⟨_, by rw [heq, List.eraseDups_append]⟩
  have hle : g < t.registry.groupCount := by
    rw [h'.groupCount, hpre, List.length_append]
    omega
  rw [h.name?_eq hg, h'.name?_eq hle, hpre, List.getElem?_append_left hlt]

/-- A move that brings short handles is a move of the registry. -/
theorem exists_move (hshort : ∀ e ∈ entrants [m], e.Short) (hen : trip.enabled s m) :
    ∃ a, trip.exec s m = lobby.exec s a ∧ lobby.enabled s a ∧
      List.Forall₂ Entrant.Carries (entrants [m]) (requests [a]) := by
  cases m with
  | join e =>
    obtain ⟨r, hr⟩ := Entrant.exists_carries (hshort e (by simp [entrants]))
    refine ⟨.join e.nsfd r, ?_, trivial, .cons hr .nil⟩
    simp only [StepSystem.exec, trip, hr.request, Option.bind_some]
    rfl
  | respond k => exact ⟨.respond k, rfl, hen, .nil⟩
  | depart k => exact ⟨.depart k, rfl, hen, .nil⟩

/-- **Every move** of a schedule within the limits has an effect, and the handles arrive. -/
theorem CameAs.exists_exec (h : s.CameAs es) (hshort : ∀ e ∈ entrants [m], e.Short)
    (hlim : TripLimits (es ++ entrants [m])) (hen : trip.enabled s m) :
    ∃ t, trip.exec s m = some t ∧ t.CameAs (es ++ entrants [m]) ∧ KeepsNames s t := by
  obtain ⟨a, hexec, hen', hcarries⟩ := exists_move hshort hen
  have hreq := List.rel_append h.requests hcarries
  have hlim' := hlim.withinLimits hreq
  obtain ⟨t, ht⟩ := h.toInv.exists_exec hen' hlim'
  have hterm : ∀ r ∈ GroupChat.requests [a], r.Terminated := fun r hr =>
    hlim'.terminated r (List.mem_append_right _ hr)
  have hinv := h.toInv.step hterm ht
  have hmap := (h.toSlots.step ht).map_request
  refine ⟨t, hexec.trans ht, ⟨hinv, hmap ▸ hreq⟩,
    h.toInv.keepsNames hinv ((GroupChat.requests [a]).map JoinRequest.groupHandle) ?_⟩
  have hhandles : ∀ u : Lobby, u.handles = (u.members.map Member.request).map
      JoinRequest.groupHandle := fun u => by simp [handles, Member.groupHandle, Function.comp_def]
  rw [hhandles t, hhandles s, hmap, List.map_append]

end Lobby

/-- Schedules of short handles go through. -/
theorem exists_cameAs {ms : List TripMove} (hshort : ∀ e ∈ entrants ms, e.Short)
    (hlim : TripLimits (entrants ms)) (hen : trip.Always trip.enabled Lobby.start ms) :
    ∃ t, trip.run Lobby.start ms = some t ∧ t.CameAs (entrants ms) := by
  refine StepSystem.run_schedule
    (Q := fun ms => (∀ e ∈ entrants ms, e.Short) ∧ TripLimits (entrants ms))
    (P := fun ms t => t.CameAs (entrants ms)) (fun ms m h => ?_) ⟨Lobby.inv_start, .nil⟩
    (fun ms m t hcame h hen => ?_) hen ⟨hshort, hlim⟩
  · rw [entrants_append] at h
    exact ⟨fun e he => h.1 e (List.mem_append_left _ he), h.2.of_append⟩
  · rw [entrants_append] at h ⊢
    obtain ⟨u, hu, hcame', -⟩ := hcame.exists_exec
      (fun e he => h.1 e (List.mem_append_right _ he)) h.2 hen
    exact ⟨u, hu, hcame'⟩

/-- **Names survive** where all handles are short. -/
theorem namesSurvive_of_short {ms : List TripMove} (hshort : ∀ e ∈ entrants ms, e.Short)
    (hlim : TripLimits (entrants ms)) : NamesSurvive ms := by
  intro hen
  -- what is asked of the schedule is asked of its prefixes
  have hpre : ∀ pre, pre <+: ms → (∀ e ∈ entrants pre, e.Short) ∧ TripLimits (entrants pre) ∧
      trip.Always trip.enabled Lobby.start pre := by
    rintro pre ⟨post, rfl⟩
    rw [entrants_append] at hshort hlim
    exact ⟨fun e he => hshort e (List.mem_append_left _ he), hlim.of_append,
      (StepSystem.always_append.mp hen).1⟩
  constructor
  · intro pre h
    obtain ⟨hshort, hlim, hen⟩ := hpre pre h
    obtain ⟨t, ht, hcame⟩ := exists_cameAs hshort hlim hen
    exact ⟨t, ht, hcame.arrived⟩
  · intro pre m s t h hs ht
    obtain ⟨hshort, hlim, hen⟩ := hpre _ h
    rw [entrants_append] at hshort hlim
    obtain ⟨hen, hm⟩ := StepSystem.always_concat.mp hen
    obtain ⟨s', hs', hcame⟩ := exists_cameAs
      (fun e he => hshort e (List.mem_append_left _ he)) hlim.of_append hen
    obtain rfl := Option.some.inj (hs.symm.trans hs')
    obtain ⟨t', ht', -, hkeeps⟩ := hcame.exists_exec
      (fun e he => hshort e (List.mem_append_right _ he)) hlim (hm s hs)
    obtain rfl := Option.some.inj (ht.symm.trans ht')
    exact hkeeps

/-! ### Long handles -/

/-- The search finds a group that there is. -/
theorem Registry.lt_of_findGroup {reg : Registry} {request : JoinRequest} {k i g : ℕ}
    (h : reg.findGroup request k i = some (some g)) : g < i + k := by
  induction k generalizing i with
  | zero => simp [Registry.findGroup] at h
  | succ k ih =>
    obtain ⟨groupName, -, h⟩ := Option.bind_eq_some_iff.mp h
    obtain ⟨c, -, h⟩ := Option.bind_eq_some_iff.mp h
    split_ifs at h
    · obtain rfl := Option.some.inj (Option.some.inj h)
      omega
    · have := ih h
      omega

/-- A client that is not sent to an old group has its group's name copied behind the
others. -/
theorem Registry.join_cases {reg reg' : Registry} {request : JoinRequest} {nsfd : ℤ} {p : ℕ × ℕ}
    (h : reg.join request nsfd = some (reg', p)) :
    p.1 < reg.groupCount ∨ p.1 = reg.groupCount ∧ reg'.groupCount = reg.groupCount + 1 ∧
      strcpy reg.groupNames (reg.groupCount * nameSize) request.bytes = some reg'.groupNames := by
  obtain ⟨found, hfound, h⟩ := Option.bind_eq_some_iff.mp h
  cases found with
  | some i =>
    obtain ⟨hp, -⟩ := Registry.of_assign_eq_some h
    have := Registry.lt_of_findGroup hfound
    left
    omega
  | none =>
    obtain ⟨_, -, h⟩ := Option.bind_eq_some_iff.mp h
    obtain ⟨names, hcopy, h⟩ := Option.bind_eq_some_iff.mp h
    obtain ⟨hp, -, -, hassigned⟩ := Registry.of_assign_eq_some h
    exact Or.inr ⟨hp, hassigned.groupCount, by rw [hassigned.groupNames]; exact hcopy⟩

/-- A join by its request. -/
theorem exists_of_join {s t : Lobby} {e : Entrant} (h : trip.exec s (.join e) = some t) :
    ∃ r reg p, e.request = some r ∧ s.registry.join r e.nsfd = some (reg, p) ∧
      t = ⟨reg, s.members ++ [⟨r, e.nsfd, p.1, p.2, .joined⟩]⟩ := by
  obtain ⟨-, heff⟩ := StepSystem.exec_eq_some.mp h
  obtain ⟨r, hr, heff⟩ := Option.bind_eq_some_iff.mp heff
  obtain ⟨⟨reg, p⟩, hjoin, rfl⟩ := Option.map_eq_some_iff.mp heff
  exact ⟨r, reg, p, hr, hjoin, rfl⟩

/-- A client with a short group handle, which is one letter. -/
def Entrant.letter (c : UInt8) (hc : c ≠ 0) : Entrant where
  name := []
  groupName := [c]
  name_clean := by simp
  groupName_clean := by simpa using hc.symm
  memory := Vector.replicate 40 0
  nsfd := 4

/-- The client with these handles that comes first. -/
def Handles.first (h : Handles) : Entrant := ⟨h, Vector.replicate 40 0, 3⟩

variable {h : Handles}

/-- A letter behind a group handle, in a world where names survive. -/
theorem exists_of_survive (hsurv : h.Survive) (c : UInt8) (hc : c ≠ 0) :
    ∃ s t, trip.exec Lobby.start (.join h.first) = some s ∧
      trip.exec s (.join (.letter c hc)) = some t ∧ Arrived [h.first, .letter c hc] t := by
  have hothers : ∀ e ∈ [h.first, .letter c hc], e.toHandles = h ∨ e.Short := by
    intro e he
    rcases List.mem_cons.mp he with rfl | he
    · exact Or.inl rfl
    · obtain rfl := List.mem_singleton.mp he
      exact Or.inr ⟨Nat.zero_lt_succ _, show 1 < 20 by omega⟩
  have hlim : TripLimits [h.first, .letter c hc] := by
    constructor
    · rw [show [h.first, .letter c hc] = [h.first] ++ [.letter c hc] from rfl, List.map_append,
        List.map_singleton, List.map_singleton, Enrolment.eraseDups_concat]
      split_ifs <;> simp [List.eraseDups_cons, maxGroups]
    · exact fun handle => List.count_le_length.trans (by simp [maxGroupSize])
  have hen : trip.Always trip.enabled Lobby.start [.join h.first, .join (.letter c hc)] :=
    ⟨trivial, fun _ _ => ⟨trivial, fun _ _ => trivial⟩⟩
  obtain ⟨t, ht, harrived⟩ := (hsurv [.join h.first, .join (.letter c hc)] hothers hlim hen).1 _
    (List.prefix_refl _)
  rw [StepSystem.run_cons, Option.bind_eq_some_iff] at ht
  obtain ⟨s, hs, ht⟩ := ht
  rw [StepSystem.run_cons, Option.bind_eq_some_iff] at ht
  obtain ⟨_, ht, hrun⟩ := ht
  obtain rfl := Option.some.inj hrun
  exact ⟨s, _, hs, ht, harrived⟩

/-- **What a long group handle has behind its first twenty bytes** is what the next group
puts there. -/
theorem drop_groupName_of_survive (hsurv : h.Survive) (hlong : 20 ≤ h.groupName.length) (c : UInt8)
    (hc : c ≠ 0) : h.groupName.drop 20 = [c] := by
  obtain ⟨s, t, hs, ht, harrived⟩ := exists_of_survive hsurv c hc
  obtain ⟨r, reg, p, hr, hjoin, rfl⟩ := exists_of_join hs
  obtain ⟨r', reg', p', hr', hjoin', rfl⟩ := exists_of_join ht
  -- the first client founds group 0, and its handle runs into the place of group 1
  obtain ⟨hp, hcount, hcopy⟩ := (Registry.join_cases hjoin).resolve_left (Nat.not_lt_zero _)
  rw [strcpy_eq_put _ _ (Entrant.read_request hr).1] at hcopy
  obtain ⟨-, hmem⟩ := put_spec hcopy
  have hp : p.1 = 0 := hp
  have hcount : reg.groupCount = 1 := hcount
  -- the second one is not in its group, so it founds group 1
  have hne : p'.1 ≠ 0 := by
    intro heq
    have hsame := (harrived.sameGroup (h.first, ⟨r, h.first.nsfd, p.1, p.2, .joined⟩)
      (by simp [Lobby.start]) (.letter c hc, ⟨r', (Entrant.letter c hc).nsfd, p'.1, p'.2, .joined⟩)
      (by simp [Lobby.start])).mp (hp.trans heq.symm)
    have hlen : h.groupName.length = 1 := congrArg List.length hsame
    omega
  obtain ⟨-, -, hcopy'⟩ := (Registry.join_cases hjoin').resolve_left fun hlt => hne
    (Nat.lt_one_iff.mp (hlt.trans_eq hcount))
  have hcopy' := (strcpy_eq_put _ _ (Entrant.read_request hr').1).symm.trans hcopy'
  rw [hcount] at hcopy'
  obtain ⟨-, hmem'⟩ := put_spec hcopy'
  -- so the string in the place of group 0 ends in the letter
  have htake : reg.groupNames.toList.take (1 * nameSize) = h.groupName.take 20 := by
    rw [hmem]
    exact List.take_append_of_le_length hlong
  have hread : reg'.name? 0 = some (h.groupName.take 20 ++ [c]) := by
    have hclean : (0 : UInt8) ∉ h.groupName.take 20 ++ [c] := fun h0 =>
      (List.mem_append.mp h0).elim (fun h0 => h.groupName_clean (List.mem_of_mem_take h0))
        fun h0 => hc (List.mem_singleton.mp h0).symm
    rw [htake, ← List.append_assoc] at hmem'
    exact (congrArg read hmem').trans (read_append_cons hclean _)
  obtain _ | ⟨⟨-, hname⟩, -⟩ := harrived.names
  have hname := (hp ▸ hname : reg'.name? 0 = some h.groupName)
  have heq := Option.some.inj (hread.symm.trans hname)
  rw [← heq, List.drop_left' (List.length_take_of_le hlong)]

/-- **Longer handles do not survive.** -/
theorem not_survive_of_long (hlong : ¬ h.Short) : ¬ h.Survive := by
  intro hsurv
  -- the request has been sent, so only the group handle may be too long
  obtain ⟨s, -, hs, -⟩ := exists_of_survive hsurv 97 (by decide)
  obtain ⟨r, -, -, hr, -⟩ := exists_of_join hs
  obtain ⟨-, hname, -⟩ := Entrant.read_request hr
  have hgroup : 20 ≤ h.groupName.length := by
    by_contra hlt
    exact hlong ⟨hname, Nat.lt_of_not_le hlt⟩
  have ha := drop_groupName_of_survive hsurv hgroup 97 (by decide)
  have hb := drop_groupName_of_survive hsurv hgroup 98 (by decide)
  exact absurd (ha.symm.trans hb) (by decide)

/-- **Names survive exactly if they fit.** The handles of a command line come through the
request and the group tables unharmed, then and after every later join, whoever else with
short handles joins before and after and in whatever state the tables are, exactly if
both have at most nineteen bytes. -/
theorem names_survive_iff (h : Handles) : h.Survive ↔ h.Short := by
  constructor
  · intro hsurv
    by_contra hlong
    exact not_survive_of_long hlong hsurv
  · intro hshort ms hothers hlim
    refine namesSurvive_of_short (fun e he => ?_) hlim
    rcases hothers e he with heq | hother
    · exact heq ▸ hshort
    · exact hother

/-- A group handle of twenty bytes. -/
def twentyLetters : Handles where
  name := [97, 110, 110]
  groupName := List.replicate 20 103
  name_clean := by decide
  groupName_clean := by decide

/-- The NUL of a group handle of twenty bytes is written over the user handle. -/
theorem exists_run_name_lost : ¬ twentyLetters.Survive ∧
    ∃ t, trip.run Lobby.start [.join twentyLetters.first] = some t ∧
      t.members.map (fun m => read m.request.name.toList) = [some []] :=
  ⟨not_survive_of_long fun hshort => absurd hshort.2 (by decide),
    StepSystem.exists_run (by decide +kernel)⟩

end GroupChat
