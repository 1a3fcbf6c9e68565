import GroupChat.Library.CString
import GroupChat.Library.StepSystem
import GroupChat.Messages

/-!
# The registry

The global tables in which the server keeps its groups, and the two places of
`connection_handler` that write them: the section between
`pthread_mutex_lock(&newConnectionLock)` and the matching unlock (lines 193 to
213), which assigns a group and an id, and the store of `-1` when the client has
gone (line 243). Every access to an array is checked, and a computation is
`none` when an index is outside its array or a string runs off its memory.

A descriptor is whatever `accept` returned, so any integer. `groupNames` is one
piece of memory, as it is in C, with a name every twenty bytes.

In `GroupChat.lobby` any number of handlers pass through these two places in any
order. Each also sends its join response in between, which does not touch the
registry; the members stay in the list for good, in the order of their joins.
-/

namespace GroupChat

/-- `MAX_GROUPS`. -/
abbrev maxGroups : ℕ := 10

/-- `MAX_GROUP_SIZE`. -/
abbrev maxGroupSize : ℕ := 200

/-- The size of a name in `groupNames` and in a `JoinRequest`. -/
abbrev nameSize : ℕ := 20

/-- The globals of `server.c` that describe the groups. -/
structure Registry where
  connections : Vector (Vector ℤ maxGroupSize) maxGroups
  groupNames : Vector UInt8 (maxGroups * nameSize)
  connectionCount : Vector ℕ maxGroups
  groupCount : ℕ
deriving DecidableEq

namespace Registry

/-- The globals as the program starts. -/
def zero : Registry where
  connections := Vector.replicate _ (Vector.replicate _ 0)
  groupNames := Vector.replicate _ 0
  connectionCount := Vector.replicate _ 0
  groupCount := 0

/-- The value of `connections[g][i]`. -/
def connection? (reg : Registry) (g i : ℕ) : Option ℤ := do
  let row ← reg.connections[g]?
  row[i]?

/-- The registry after `connections[g][i] = fd`. -/
def setConnection (reg : Registry) (g i : ℕ) (fd : ℤ) : Option Registry := do
  let row ← reg.connections[g]?
  if i < maxGroupSize then
    return { reg with
      connections := reg.connections.setIfInBounds g (row.setIfInBounds i fd) }
  else none

/-- The memory from `groupNames[i]` on. -/
def groupName? (reg : Registry) (i : ℕ) : Option (List UInt8) :=
  if i < maxGroups then some (reg.groupNames.toList.drop (i * nameSize)) else none

/-- The search for the requested group, from group `i` on with `k` groups to go. -/
def findGroup (reg : Registry) (request : JoinRequest) : ℕ → ℕ → Option (Option ℕ)
  | 0, _ => some none
  | k + 1, i => do
    let groupName ← reg.groupName? i
    let c ← CString.strcmp request.bytes groupName
    if c = 0 then return some i else findGroup reg request k (i + 1)

/-- The two statements both branches end with: `id = connectionCount[i]++` and
`connections[groupId][id] = nsfd`. -/
def assign (reg : Registry) (i : ℕ) (nsfd : ℤ) : Option (Registry × ℕ × ℕ) := do
  let id ← reg.connectionCount[i]?
  let reg := { reg with connectionCount := reg.connectionCount.setIfInBounds i (id + 1) }
  let reg ← reg.setConnection i id nsfd
  return (reg, i, id)

/-- The join critical section, lines 193 to 213: the registry it leaves, the
`groupId` and the `id`. -/
def join (reg : Registry) (request : JoinRequest) (nsfd : ℤ) : Option (Registry × ℕ × ℕ) := do
  match ← reg.findGroup request reg.groupCount 0 with
  | some i => reg.assign i nsfd
  | none =>
    let i := reg.groupCount
    -- `groupNames[i]` has to be a row of the table, whatever is copied to it
    let _ ← reg.groupName? i
    let groupNames ← CString.strcpy reg.groupNames (i * nameSize) request.bytes
    { reg with groupNames := groupNames, groupCount := i + 1 }.assign i nsfd

/-- The store of a handler that ends, line 243. -/
def depart (reg : Registry) (groupId id : ℕ) : Option Registry := reg.setConnection groupId id (-1)

end Registry

/-! ### The handlers -/

/-- How far the handler of a client has come, once it has its id. -/
inductive Phase where
  /-- Before it has written the join response. -/
  | joined
  /-- In its read loop. -/
  | serving
  /-- Behind line 243. -/
  | departed
deriving DecidableEq

/-- A client that has been given an id, with the locals of its handler. -/
structure Member where
  request : JoinRequest
  nsfd : ℤ
  groupId : ℕ
  id : ℕ
  phase : Phase
deriving DecidableEq

/-- The member in another phase. -/
def Member.atPhase (m : Member) (p : Phase) : Member := { m with phase := p }

/-- The group handle that a request asks for. -/
def JoinRequest.groupHandle (r : JoinRequest) : List UInt8 := CString.text r.groupName.toList

/-- The group handle ends within its field. -/
def JoinRequest.Terminated (r : JoinRequest) : Prop := 0 ∈ r.groupName.toList

instance (r : JoinRequest) : Decidable r.Terminated := inferInstanceAs (Decidable (_ ∈ _))

/-- The group handle a member has asked for. -/
def Member.groupHandle (m : Member) : List UInt8 := m.request.groupHandle

/-- The registry with everybody who has ever joined, in the order of the joins. -/
structure Lobby where
  registry : Registry
  members : List Member
deriving DecidableEq

/-- A move of one of the handlers. -/
inductive LobbyMove where
  | join (nsfd : ℤ) (request : JoinRequest)
  /-- The member with this number writes its join response. -/
  | respond (k : ℕ)
  /-- The member with this number departs. -/
  | depart (k : ℕ)
deriving DecidableEq

namespace Lobby

/-- Nobody has joined. -/
def start : Lobby := ⟨Registry.zero, []⟩

/-- The phase of the member with number `k`. -/
def phase? (s : Lobby) (k : ℕ) : Option Phase := s.members[k]?.map Member.phase

/-- The member with number `k` comes to another phase. -/
def setPhase (s : Lobby) (k : ℕ) (p : Phase) : List Member :=
  s.members.modify k fun m => m.atPhase p

end Lobby

/-- The moves of the handlers. -/
def lobby : StepSystem Lobby LobbyMove where
  enabled s
    | .join _ _ => True
    | .respond k => s.phase? k = some .joined
    | .depart k => s.phase? k = some .serving
  effect s
    | .join nsfd request => (s.registry.join request nsfd).map fun (reg, groupId, id) =>
        { registry := reg, members := s.members ++ [⟨request, nsfd, groupId, id, .joined⟩] }
    | .respond k => some { s with members := s.setPhase k .serving }
    | .depart k => do
        let m ← s.members[k]?
        let reg ← s.registry.depart m.groupId m.id
        return { registry := reg, members := s.setPhase k .departed }
  decEnabled s m := by
    cases m <;> simp only <;> infer_instance

end GroupChat
