import GroupChat.Server.Pending

/-!
# Clients that close their connections

The server of `GroupChat.server`, with the other ends of its connections and with a turn
of the delivery loop taken apart. A client closes its connection whenever it likes, and
some time after that the connection is reset (`GroupChat.Peer`). A handler reads the end
of the stream only after the client has closed, and stores `-1` later still.

A turn that writes makes three accesses (`GroupChat.Access`): the tests of lines 264 and
265, the load of the descriptor for the call in line 266, and the call itself. Between any
two of them everybody else moves, the client and its handler too. The count of a group
only grows, so it does not matter that it is read at the same moment as the slot.

A `write` to a connection that has been reset raises `SIGPIPE`. The server installs a
handler for `SIGINT` only (lines 81 and 82), so the process ends, and with it everything the
server does. There is a second place where this can happen, the join response of lines 216
to 219.

What clients send is any record at all, also after they have closed: there may be records
that have not been read yet, and a `read` that fails with `-1` is not `0`.
-/

namespace GroupChat

open Server

/-- The other end of a connection. -/
inductive Peer where
  | connected
  | closed
  /-- Closed, and the connection has been reset. -/
  | reset
deriving DecidableEq

/-- Where a consumer is within a turn of its delivery loop. -/
inductive Access where
  /-- At the loop condition and the test of the slot. -/
  | check
  /-- The slot is to be written to; its descriptor has to be loaded for this. -/
  | load
  /-- In the call of `write`. -/
  | write (fd : ℤ)
deriving DecidableEq

/-- What a consumer passes to `write`. -/
def Access.fd? : Access → Option ℤ
  | check | load => none
  | write fd => some fd

/-- The write that has ended the process. -/
inductive Ending (nc : ℕ) where
  | response (k : ℕ)
  | delivery (c : Fin nc)
deriving DecidableEq

/-- The server with `nc` consumers, and its clients. -/
structure Network (nc : ℕ) where
  server : Server nc
  access : Fin nc → Access
  peer : ℤ → Peer
  ended : Option (Ending nc)

/-- A move of one of the threads, or of a client. -/
inductive NetworkMove (nc : ℕ) where
  /-- A move of the server other than a turn of a delivery loop. -/
  | server (mv : ServerMove nc)
  | check (c : Fin nc)
  | load (c : Fin nc)
  | write (c : Fin nc)
  /-- The client of this connection closes it. -/
  | close (fd : ℤ)
  | reset (fd : ℤ)

namespace Network

variable {nc : ℕ}

/-- The server before it accepts anybody. A client may have closed its connection even
before it is accepted. -/
structure Initial (n : ℕ) (w : Network nc) : Prop where
  server : w.server.Initial n
  access : ∀ c, w.access c = .check
  ended : w.ended = none

/-- The server before it accepts anybody, around a given queue. -/
def start (nc : ℕ) (q : Queue) : Network nc where
  server := Server.start nc q
  access _ := .check
  peer _ := .connected
  ended := none

theorem initial_start {n : ℕ} {q : Queue} (h : ∃ block, initQueue n block = some q) :
    (start nc q).Initial n :=
  ⟨Server.initial_start h, fun _ => rfl, rfl⟩

/-- Lines 264 and 265. If there is nothing to write, this is the whole turn. -/
def checkSlot (w : Network nc) (c : Fin nc) : Option (Network nc) :=
  match w.server.consumer c with
  | .idle => none
  | .delivering _ message i => do
    let (_, turn) ← w.server.lobby.registry.deliverTurn message i
    match turn with
    | .write _ => return { w with access := Function.update w.access c .load }
    | .stop | .skip =>
      let s ← w.server.deliver c
      return { w with server := s }

/-- The first argument of the call in line 266. -/
def loadSlot (w : Network nc) (c : Fin nc) : Option (Network nc) :=
  match w.server.consumer c with
  | .idle => none
  | .delivering _ message i => do
    let groupId ← message.groupId.toInt.toNat?
    let fd ← w.server.lobby.registry.connection? groupId i
    return { w with access := Function.update w.access c (.write fd) }

/-- The call of `write` in line 266, and `i++`. -/
def writeSlot (w : Network nc) (c : Fin nc) : Option (Network nc) :=
  match w.server.consumer c, w.access c with
  | .delivering ticket message i, .write fd =>
    let consumer := Function.update w.server.consumer c (.delivering ticket message (i + 1))
    let access := Function.update w.access c .check
    -- a handler may have stored its `-1` since the test, and that is no descriptor
    if fd < 0 then some { w with
      server := { w.server with consumer := consumer }
      access := access }
    else if w.peer fd = .reset then some { w with ended := some (.delivery c) }
    else some { w with
      server := { w.server with
        consumer := consumer
        written := w.server.written ++ [.message fd ticket message] }
      access := access }
  | _, _ => none

/-- Lines 216 to 219. -/
def respond (w : Network nc) (k : ℕ) : Option (Network nc) := do
  let m ← w.server.lobby.members[k]?
  if w.peer m.nsfd = .reset then return { w with ended := some (.response k) }
  else
    let s ← (GroupChat.server nc).effect w.server (.respond k)
    return { w with server := s }

/-- `read` returns `0` to the handler of member `k`, which it does only after the client
has closed its connection. -/
def EndOfStream (w : Network nc) (k : ℕ) : Prop :=
  ∀ m ∈ w.server.lobby.members[k]?, w.peer m.nsfd ≠ .connected

instance (w : Network nc) (k : ℕ) : Decidable (w.EndOfStream k) :=
  inferInstanceAs (Decidable (∀ m ∈ w.server.lobby.members[k]?, _))

/-- What a move waits for. -/
def Enabled (w : Network nc) : NetworkMove nc → Prop
  | .server (.turn _) => False
  | .server (.depart k) => w.ended = none ∧
      (GroupChat.server nc).enabled w.server (.depart k) ∧ w.EndOfStream k
  | .server mv => w.ended = none ∧ (GroupChat.server nc).enabled w.server mv
  | .check c => w.ended = none ∧ w.server.consumer c ≠ .idle ∧ w.access c = .check
  | .load c => w.ended = none ∧ w.access c = .load
  | .write c => w.ended = none ∧ (w.access c).fd?.isSome
  | .close fd => fd ∈ w.server.descriptors ∧ w.peer fd = .connected
  | .reset fd => w.peer fd = .closed

instance (w : Network nc) : (mv : NetworkMove nc) → Decidable (w.Enabled mv)
  | .server (.turn _) => isFalse not_false
  | .server (.depart _) => inferInstanceAs (Decidable (_ ∧ _ ∧ _))
  | .server (.accept _) | .server (.join _ _) | .server (.respond _) | .server (.enqueue _ _ _)
  | .server (.pop _) => inferInstanceAs (Decidable (_ ∧ _))
  | .check _ => inferInstanceAs (Decidable (_ ∧ _ ∧ _))
  | .load _ | .write _ | .close _ => inferInstanceAs (Decidable (_ ∧ _))
  | .reset _ => inferInstanceAs (Decidable (_ = _))

end Network

open Network in
/-- The moves of the server and its clients. -/
def network (nc : ℕ) : StepSystem (Network nc) (NetworkMove nc) where
  enabled w mv := w.Enabled mv
  effect w
    | .server (.respond k) => w.respond k
    | .server mv => do
      let s ← (server nc).effect w.server mv
      return { w with server := s }
    | .check c => w.checkSlot c
    | .load c => w.loadSlot c
    | .write c => w.writeSlot c
    | .close fd => some { w with peer := Function.update w.peer fd .closed }
    | .reset fd => some { w with peer := Function.update w.peer fd .reset }
  decEnabled _ _ := inferInstance

end GroupChat
