import GroupChat.Registry.Guarantees
import GroupChat.Server.Invariant

/-!
# Store by store

The joins and the delivery loops once more, now so finely that a move makes at most one
access to `connectionCount` and `connections`: the consumers read these tables without
`newConnectionLock`, so what they see depends on the order of single stores.

A join takes the lock and searches the names, or adds one, and loads the count of its
group (`lock`); it stores the count (`storeCount`); it stores its descriptor and leaves
(`storeSlot`). A turn of a delivery loop loads the count, loads the slot, and loads the
slot again for the call of `write`.

The lobby as it will be when the join in progress is done is
`GroupChat.Publication.completed`. The stores of a join do not change it, since a join in
one move is these accesses one after the other (`GroupChat.Registry.join_eq_locate`).
-/

namespace GroupChat

namespace Registry

/-- Lines 194 to 208: the group of a newcomer, with its name stored if it is new. -/
def locate (reg : Registry) (request : JoinRequest) : Option (Registry × ℕ) := do
  match ← reg.findGroup request reg.groupCount 0 with
  | some i => return (reg, i)
  | none =>
    let i := reg.groupCount
    let _ ← reg.groupName? i
    let groupNames ← CString.strcpy reg.groupNames (i * nameSize) request.bytes
    return ({ reg with groupNames := groupNames, groupCount := i + 1 }, i)

/-- The registry after `connectionCount[g] = count`. -/
def setCount (reg : Registry) (g count : ℕ) : Option Registry :=
  if g < maxGroups then
    some { reg with connectionCount := reg.connectionCount.setIfInBounds g count }
  else none

variable {reg reg' : Registry} {g i : ℕ}

/-- **A join**, access by access. -/
theorem join_eq_locate (reg : Registry) (request : JoinRequest) (nsfd : ℤ) :
    reg.join request nsfd = (reg.locate request).bind fun (reg, i) =>
      reg.connectionCount[i]?.bind fun id => (reg.setCount i (id + 1)).bind fun reg =>
        (reg.setConnection i id nsfd).map fun reg => (reg, i, id) := by
  have hassign : ∀ (reg : Registry) (i : ℕ), reg.assign i nsfd =
      reg.connectionCount[i]?.bind fun id => (reg.setCount i (id + 1)).bind fun reg =>
        (reg.setConnection i id nsfd).map fun reg => (reg, i, id) := by
    intro reg i
    rw [assign, Option.bind_eq_bind]
    refine Option.bind_congr fun id hid => ?_
    have hi : i < maxGroups := (Vector.getElem?_eq_some_iff.mp hid).1
    rw [setCount, if_pos hi, Option.bind_some, Option.map_eq_bind]
    rfl
  rw [join, locate]
  cases reg.findGroup request reg.groupCount 0 with
  | none => rfl
  | some found =>
    cases found with
    | some i => exact hassign reg i
    | none =>
      simp only [Option.bind_eq_bind, Option.bind_assoc, Option.pure_def, Option.bind_some, hassign]

end Registry

/-- The handler that has `newConnectionLock`, with the numbers of its client. -/
inductive Joining where
  /-- Nobody has the lock. -/
  | free
  /-- Before its store of the count. -/
  | loaded (m : Member)
  /-- Before its store of the descriptor. -/
  | counted (m : Member)
deriving DecidableEq

/-- The client that has been given a slot by the handler with the lock. -/
def Joining.member? : Joining → Option Member
  | free => none
  | loaded m => some m
  | counted m => some m

/-- What the handler with the lock has still to store. -/
def Joining.finish (reg : Registry) : Joining → Option Registry
  | free => some reg
  | loaded m => (reg.setCount m.groupId (m.id + 1)).bind fun reg =>
      reg.setConnection m.groupId m.id m.nsfd
  | counted m => reg.setConnection m.groupId m.id m.nsfd

/-- Where a consumer is in a delivery loop. -/
inductive Loop where
  | idle
  /-- Before the load of `connectionCount[groupId]`. -/
  | counting (message : Message) (i : ℕ)
  /-- Before the load of `connections[groupId][i]` for the test. -/
  | testing (message : Message) (i : ℕ)
  /-- Before the load of `connections[groupId][i]` for the call of `write`. -/
  | passing (message : Message) (i : ℕ)
deriving DecidableEq

/-- A descriptor that has been passed to `write`, for slot `id` of a group. -/
structure Passed where
  groupId : ℕ
  id : ℕ
  fd : ℤ
deriving DecidableEq

/-- The tables with those who read and write them. The last field is a record of the run
that no statement reads. -/
structure Publication (nc : ℕ) where
  lobby : Lobby
  joining : Joining
  /-- The messages that wait to be delivered. -/
  messages : List Message
  loop : Fin nc → Loop
  passed : List Passed

/-- An access to the tables, or a move that makes none. -/
inductive PublicationMove (nc : ℕ) where
  | lock (nsfd : ℤ) (request : JoinRequest)
  | storeCount
  | storeSlot
  | respond (k : ℕ)
  | send (k : ℕ) (message : Message)
  | depart (k : ℕ)
  | pop (c : Fin nc)
  | load (c : Fin nc)

/-- The moves of the lobby that a move makes, once the join in progress is done. -/
def PublicationMove.lobbyMoves {nc : ℕ} : PublicationMove nc → List LobbyMove
  | lock nsfd request => [.join nsfd request]
  | respond k => [.respond k]
  | depart k => [.depart k]
  | _ => []

/-- The message that a move takes from a client. -/
def PublicationMove.message? {nc : ℕ} : PublicationMove nc → Option Message
  | send _ message => some message
  | _ => none

namespace Publication

variable {nc : ℕ}

/-- Nobody has joined. -/
def start (nc : ℕ) : Publication nc where
  lobby := Lobby.start
  joining := .free
  messages := []
  loop _ := .idle
  passed := []

/-- The clients that have a slot, in the order in which they got it. -/
def assigned (s : Publication nc) : List Member := s.lobby.members ++ s.joining.member?.toList

/-- The lobby once the join in progress is done. -/
def completed (s : Publication nc) : Option Lobby :=
  (s.joining.finish s.lobby.registry).map fun reg => ⟨reg, s.assigned⟩

/-- The next access of a delivery loop, lines 264 to 266. -/
def load (s : Publication nc) (c : Fin nc) : Option (Publication nc) :=
  match s.loop c with
  | .idle => none
  | .counting message i => do
    let groupId ← message.groupId.toInt.toNat?
    let count ← s.lobby.registry.connectionCount[groupId]?
    return { s with
      loop := Function.update s.loop c (if i < count then .testing message i else .idle) }
  | .testing message i => do
    let groupId ← message.groupId.toInt.toNat?
    let fd ← s.lobby.registry.connection? groupId i
    return { s with
      loop := Function.update s.loop c
        (if fd ≠ -1 ∧ (i : ℤ) ≠ message.id.toInt then .passing message i
          else .counting message (i + 1)) }
  | .passing message i => do
    let groupId ← message.groupId.toInt.toNat?
    let fd ← s.lobby.registry.connection? groupId i
    return { s with
      loop := Function.update s.loop c (.counting message (i + 1))
      passed := s.passed ++ [⟨groupId, i, fd⟩] }

end Publication

open Publication in
/-- The threads of the server, access by access. -/
def publication (nc : ℕ) : StepSystem (Publication nc) (PublicationMove nc) where
  enabled s
    | .lock _ _ => s.joining = .free
    | .storeCount => ∃ m ∈ s.joining.member?, s.joining = .loaded m
    | .storeSlot => ∃ m ∈ s.joining.member?, s.joining = .counted m
    | .respond k => s.lobby.phase? k = some .joined
    | .send k _ => s.lobby.phase? k = some .serving ∧ s.messages.length < messageQueueSize
    | .depart k => s.lobby.phase? k = some .serving
    | .pop c => s.loop c = .idle ∧ s.messages ≠ []
    | .load c => s.loop c ≠ .idle
  effect s
    | .lock nsfd request => do
      let (reg, groupId) ← s.lobby.registry.locate request
      let id ← reg.connectionCount[groupId]?
      return { s with
        lobby := ⟨reg, s.lobby.members⟩
        joining := .loaded ⟨request, nsfd, groupId, id, .joined⟩ }
    | .storeCount => do
      let m ← s.joining.member?
      let reg ← s.lobby.registry.setCount m.groupId (m.id + 1)
      return { s with lobby := ⟨reg, s.lobby.members⟩, joining := .counted m }
    | .storeSlot => do
      let m ← s.joining.member?
      let reg ← s.lobby.registry.setConnection m.groupId m.id m.nsfd
      return { s with lobby := ⟨reg, s.lobby.members ++ [m]⟩, joining := .free }
    | .respond k => (GroupChat.lobby.effect s.lobby (.respond k)).map fun l => { s with lobby := l }
    | .send _ message => some { s with messages := s.messages ++ [message] }
    | .depart k => (GroupChat.lobby.effect s.lobby (.depart k)).map fun l => { s with lobby := l }
    | .pop c => do
      let message ← s.messages.head?
      return { s with
        messages := s.messages.tail
        loop := Function.update s.loop c (.counting message 0) }
    | .load c => s.load c
  decEnabled s m := by
    cases m <;> simp only <;> infer_instance

namespace Publication

variable {nc : ℕ} {s : Publication nc} {c : Fin nc} {message : Message} {i g : ℕ}

theorem load_counting (hloop : s.loop c = .counting message i)
    (hg : message.groupId.toInt.toNat? = some g) {count : ℕ}
    (hcount : s.lobby.registry.connectionCount[g]? = some count) :
    s.load c = some { s with
      loop := Function.update s.loop c (if i < count then .testing message i else .idle) } := by
  simp only [load, hloop, hg, hcount, Option.bind_eq_bind, Option.bind_some]
  rfl

theorem load_testing (hloop : s.loop c = .testing message i)
    (hg : message.groupId.toInt.toNat? = some g) {fd : ℤ}
    (hfd : s.lobby.registry.connection? g i = some fd) :
    s.load c = some { s with
      loop := Function.update s.loop c
        (if fd ≠ -1 ∧ (i : ℤ) ≠ message.id.toInt then .passing message i
          else .counting message (i + 1)) } := by
  simp only [load, hloop, hg, hfd, Option.bind_eq_bind, Option.bind_some]
  rfl

theorem load_passing (hloop : s.loop c = .passing message i)
    (hg : message.groupId.toInt.toNat? = some g) {fd : ℤ}
    (hfd : s.lobby.registry.connection? g i = some fd) :
    s.load c = some { s with
      loop := Function.update s.loop c (.counting message (i + 1))
      passed := s.passed ++ [⟨g, i, fd⟩] } := by
  simp only [load, hloop, hg, hfd, Option.bind_eq_bind, Option.bind_some]
  rfl

theorem exec_load {t : Publication nc} (hload : s.load c = some t) :
    (publication nc).exec s (.load c) = some t := by
  refine StepSystem.exec_eq_some.mpr ⟨fun hidle => ?_, hload⟩
  simp [load, hidle] at hload

/-- **Loads in a row**, with nothing in between, are one turn of the delivery loop. -/
theorem run_loads {reads : List TableRead} {turn : Turn} (hloop : s.loop c = .counting message i)
    (hturn : s.lobby.registry.deliverTurn message i = some (reads, turn)) :
    ∃ x ps, (publication nc).run s (List.replicate reads.length (.load c)) =
        some { s with loop := Function.update s.loop c x, passed := s.passed ++ ps } ∧
      match turn with
      | .stop => x = .idle ∧ ps = []
      | .skip => x = .counting message (i + 1) ∧ ps = []
      | .write fd => x = .counting message (i + 1) ∧ ps.map Passed.fd = [fd] := by
  obtain ⟨g, hg, hturn⟩ := Option.bind_eq_some_iff.mp hturn
  obtain ⟨count, hcount, hturn⟩ := Option.bind_eq_some_iff.mp hturn
  have hfirst := exec_load (load_counting hloop hg hcount)
  by_cases hi : i < count
  · rw [if_pos hi] at hturn hfirst
    obtain ⟨fd, hfd, hturn⟩ := Option.bind_eq_some_iff.mp hturn
    have hsecond := exec_load (load_testing (s := { s with
      loop := Function.update s.loop c (.testing message i) }) (Function.update_self _ _ _) hg hfd)
    by_cases hcond : fd ≠ -1 ∧ (i : ℤ) ≠ message.id.toInt
    · rw [if_pos hcond] at hturn hsecond
      obtain ⟨rfl, rfl⟩ := Prod.mk.inj (Option.some.inj hturn)
      have hthird := exec_load (load_passing
        (s := { s with loop := Function.update s.loop c (.passing message i) })
        (Function.update_self _ _ _) hg hfd)
      refine ⟨.counting message (i + 1), [⟨g, i, fd⟩], ?_, rfl, rfl⟩
      simp only [List.length_cons, List.length_nil, List.replicate_succ, List.replicate_zero,
        StepSystem.run_cons, hfirst, hsecond, Function.update_idem, hthird, Option.bind_some,
        StepSystem.run_nil]
    · rw [if_neg hcond] at hturn hsecond
      obtain ⟨rfl, rfl⟩ := Prod.mk.inj (Option.some.inj hturn)
      refine ⟨.counting message (i + 1), [], ?_, rfl, rfl⟩
      simp only [List.length_cons, List.length_nil, List.replicate_succ, List.replicate_zero,
        StepSystem.run_cons, hfirst, hsecond, Function.update_idem, Option.bind_some,
        StepSystem.run_nil, List.append_nil]
  · rw [if_neg hi] at hturn hfirst
    obtain ⟨rfl, rfl⟩ := Prod.mk.inj (Option.some.inj hturn)
    refine ⟨.idle, [], ?_, rfl, rfl⟩
    simp only [List.length_cons, List.length_nil, List.replicate_succ, List.replicate_zero,
      StepSystem.run_cons, hfirst, Option.bind_some, StepSystem.run_nil, List.append_nil]

end Publication

end GroupChat
