import GroupChat.Queue.Cyclic
import GroupChat.Registry.Model

/-!
# The server

All threads of `server.c` together: the accept loop of `main`, one
`connection_handler` for each client, and the consumer threads that run
`messageDeliver`. A move is a critical section, or a statement that touches what
other threads see (`GroupChat.ServerMove`):

| move | source |
|---|---|
| `accept` | one turn of the loop of `main`, lines 122 to 125 |
| `join` | `connection_handler`, lines 193 to 213 |
| `respond` | `connection_handler`, lines 216 to 219 |
| `enqueue` | `connection_handler`, lines 229 to 237, for one message |
| `depart` | `connection_handler`, line 243 |
| `pop` | `messageDeliver`, lines 251 to 261 |
| `turn` | `messageDeliver`, line 264 once, with the loop body or the end of the loop |

That the sections of `enqueue` and `pop` behave as one move each is what
`GroupChat.pipeline` is about: there the lock is taken and released, threads
wait and are signalled.

Every turn of the delivery loop reads the tables as they are then
(`GroupChat.Registry.deliverTurn`), without a lock. That it can be taken for one move
although it makes several accesses is shown with `GroupChat.network`, where clients
close their connections in between. What a client sends is any record at all.

The last three fields of `GroupChat.Server` are a record of the run that no
statement of the program reads: the messages inserted, each with the member from
whose connection it was read; the consumers that have removed a message, in this
order; and everything written to clients. A removal is named by the number of
removals before it, its ticket, so that the message with ticket `t` is the one
inserted after `t` others.
-/

namespace GroupChat

/-- `MAX_CLIENTS`. -/
abbrev maxClients : ℕ := 1000

/-- `MESSAGE_QUEUE_SIZE`. -/
abbrev messageQueueSize : ℕ := 10000

/-- `CONSUMER_THREAD_COUNT`. -/
abbrev consumerThreadCount : ℕ := 3

/-! ### The delivery loop -/

/-- A read of one of the tables. -/
inductive TableRead where
  | connectionCount (g : ℕ)
  | connection (g i : ℕ)
deriving DecidableEq

/-- What one turn of the delivery loop comes to. -/
inductive Turn where
  /-- The loop condition is false. -/
  | stop
  /-- Nothing is written for this slot. -/
  | skip
  | write (fd : ℤ)
deriving DecidableEq

/-- One turn of the delivery loop, lines 264 to 268, for slot `i`: the tables it
reads, in their order, and what it comes to. The `int` in the message is taken
for an index as it is. -/
def Registry.deliverTurn (reg : Registry) (message : Message) (i : ℕ) :
    Option (List TableRead × Turn) := do
  let groupId ← message.groupId.toInt.toNat?
  let count ← reg.connectionCount[groupId]?
  if i < count then
    let fd ← reg.connection? groupId i
    -- `~fd` is zero exactly for `-1`; the descriptor is read once more for the call of `write`
    if fd ≠ -1 ∧ (i : ℤ) ≠ message.id.toInt then
      return ([.connectionCount groupId, .connection groupId i, .connection groupId i], .write fd)
    else return ([.connectionCount groupId, .connection groupId i], .skip)
  else return ([.connectionCount groupId], .stop)

/-- The slots of a group that are in use, `connections[i][0]` to
`connections[i][connectionCount[i] - 1]`. -/
def Registry.row? (reg : Registry) (i : ℕ) : Option (List ℤ) := do
  let count ← reg.connectionCount[i]?
  (List.range count).mapM fun j => reg.connection? i j

/-! ### The threads -/

/-- Where a consumer is. -/
inductive Consumer where
  /-- At the lock, with the last message done. -/
  | idle
  /-- In its delivery loop. -/
  | delivering (ticket : ℕ) (message : Message) (i : ℕ)
deriving DecidableEq

/-- A write to a client. -/
inductive Written where
  | response (fd : ℤ) (response : JoinResponse)
  | message (fd : ℤ) (ticket : ℕ) (message : Message)
deriving DecidableEq

/-- The server with `nc` consumers. -/
structure Server (nc : ℕ) where
  clientCount : ℕ
  /-- The descriptors whose handlers have not joined yet. -/
  waiting : List ℤ
  lobby : Lobby
  messageQueue : Queue
  consumer : Fin nc → Consumer
  sent : List (ℕ × Message)
  popped : List (Fin nc)
  written : List Written

/-- A move of one of the threads. -/
inductive ServerMove (nc : ℕ) where
  /-- `accept` returns a descriptor, and a handler is started. -/
  | accept (fd : ℤ)
  | join (fd : ℤ) (request : JoinRequest)
  | respond (k : ℕ)
  /-- `read` returns a message, and it is inserted, with what `getTime()` returns. -/
  | enqueue (k : ℕ) (message : Message) (now : Timeval)
  | depart (k : ℕ)
  | pop (c : Fin nc)
  | turn (c : Fin nc)

namespace Server

variable {nc : ℕ}

/-- The server before it accepts anybody. -/
structure Initial (n : ℕ) (s : Server nc) : Prop where
  clientCount : s.clientCount = 0
  waiting : s.waiting = []
  lobby : s.lobby = Lobby.start
  messageQueue : ∃ block, initQueue n block = some s.messageQueue
  consumer : ∀ c, s.consumer c = .idle
  sent : s.sent = []
  popped : s.popped = []
  written : s.written = []

/-- The server before it accepts anybody, around a given queue. -/
def start (nc : ℕ) (q : Queue) : Server nc where
  clientCount := 0
  waiting := []
  lobby := Lobby.start
  messageQueue := q
  consumer _ := .idle
  sent := []
  popped := []
  written := []

theorem initial_start {n : ℕ} {q : Queue} (h : ∃ block, initQueue n block = some q) :
    (start nc q).Initial n :=
  ⟨rfl, rfl, rfl, h, fun _ => rfl, rfl, rfl, rfl⟩

/-- The response that the handler of a member writes. -/
def response (m : Member) : JoinResponse := ⟨Int32.ofNat m.id, Int32.ofNat m.groupId⟩

/-- One turn of the delivery loop of consumer `c`. -/
def deliver (s : Server nc) (c : Fin nc) : Option (Server nc) :=
  match s.consumer c with
  | .idle => none
  | .delivering ticket message i => do
    let (_, turn) ← s.lobby.registry.deliverTurn message i
    match turn with
    | .stop => return { s with consumer := Function.update s.consumer c .idle }
    | .skip => return { s with
        consumer := Function.update s.consumer c (.delivering ticket message (i + 1)) }
    | .write fd => return { s with
        consumer := Function.update s.consumer c (.delivering ticket message (i + 1))
        written := s.written ++ [.message fd ticket message] }

/-- The loops of `killServer`, lines 149 to 157, each access checked: the threads it
kills by their place in `producer_threads`, and the descriptors it closes. The loop over
`consumer_threads` has the size of its array for a bound. -/
def killServer (s : Server nc) : Option (List ℕ × List ℤ) := do
  -- the bound is one less than the number of threads, and none for the last client
  let killed ← (List.range (s.clientCount - 1)).mapM fun i =>
    if i < maxClients then some i else none
  let closed ← (List.range s.lobby.registry.groupCount).mapM s.lobby.registry.row?
  return (killed, closed.flatten)

end Server

open Server in
/-- The moves of the server. -/
def server (nc : ℕ) : StepSystem (Server nc) (ServerMove nc) where
  enabled s
    | .accept _ => True
    | .join fd _ => fd ∈ s.waiting
    | .respond k => s.lobby.phase? k = some .joined
    | .enqueue k _ _ => s.lobby.phase? k = some .serving ∧
        queueIsFull s.messageQueue = some false
    | .depart k => s.lobby.phase? k = some .serving
    | .pop c => s.consumer c = .idle ∧ queueIsEmpty s.messageQueue = false
    | .turn c => s.consumer c ≠ .idle
  effect s
    | .accept fd =>
      -- the thread is stored in `producer_threads[clientCount++]`
      if s.clientCount < maxClients then
        some { s with clientCount := s.clientCount + 1, waiting := s.waiting ++ [fd] }
      else none
    | .join fd request => (lobby.effect s.lobby (.join fd request)).map fun l =>
        { s with lobby := l, waiting := s.waiting.erase fd }
    | .respond k => do
        let m ← s.lobby.members[k]?
        let l ← lobby.effect s.lobby (.respond k)
        return { s with lobby := l, written := s.written ++ [.response m.nsfd (response m)] }
    | .enqueue k message now => (insertQueue s.messageQueue message now).map fun (_, q) =>
        { s with messageQueue := q, sent := s.sent ++ [(k, message)] }
    | .depart k => (lobby.effect s.lobby (.depart k)).map fun l => { s with lobby := l }
    | .pop c => (popQueue s.messageQueue).map fun (messageWrapper, q) =>
        { s with
          messageQueue := q
          consumer := Function.update s.consumer c
            (.delivering s.popped.length messageWrapper.message 0)
          popped := s.popped ++ [c] }
    | .turn c => s.deliver c
  decEnabled s m := by
    cases m <;> simp only <;> infer_instance

end GroupChat
