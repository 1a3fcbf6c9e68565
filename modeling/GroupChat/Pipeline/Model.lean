import GroupChat.Library.Monitor
import GroupChat.Queue.Cyclic

/-!
# The producer-consumer pipeline

The message loop of `connection_handler` (lines 229 to 238) and the loop of
`messageDeliver` (lines 250 to 283), run by any number of threads of each kind
against one `messageLock` and the condition variables `c_prod` and `c_cons`. A
move of the scheduler is one call: taking or releasing the lock, one evaluation
of a `while` condition, one call of `insert_queue` or `pop_queue`, one
`pthread_cond_signal`.

The two loops pass through the same stages (`Stage`):

| stage | `connection_handler` | `messageDeliver` |
|---|---|---|
| `outside` | `read`, line 229 | delivery loop and log, lines 263–282 |
| `locking` | `pthread_mutex_lock`, line 230 | `pthread_mutex_lock`, line 251 |
| `testing` | `queue_is_full`, line 232 | `queue_is_empty`, line 253 |
| `asleep` | `pthread_cond_wait`, line 233 | `pthread_cond_wait`, line 254 |
| `acting` | `insert_queue`, line 235 | `pop_queue`, line 257 |
| `unlocking` | `pthread_mutex_unlock`, line 236 | `pthread_mutex_unlock`, line 260 |
| `signalling` | signal of `c_cons`, line 237 | signal of `c_prod`, line 261 |

The pthread functions do what is documented of them. `pthread_cond_wait`
releases the lock and puts the thread to sleep in one step; a sleeper becomes
runnable when a signal picks it or for no reason at all, and takes the lock again
before the call returns, which brings it back to the `while` condition.
`pthread_cond_signal` picks at least one sleeper if there is one.

The last three fields of `GroupChat.Pipeline` are a record of the run that no
statement of the program reads: what was handed to `insert_queue` with the value
it returned, what `pop_queue` returned with whether the queue was empty, and
which removals have had their delivery loop finished. A removal is named by the
number of removals before it, its ticket.
-/

namespace GroupChat

/-- The threads: producers on the left, consumers on the right. -/
abbrev Thread (np nc : ℕ) : Type := Fin np ⊕ Fin nc

/-- The pipeline with `np` producers and `nc` consumers. -/
structure Pipeline (np nc : ℕ) where
  /-- `messageQueue`. -/
  queue : Queue
  /-- Who holds `messageLock`. -/
  messageLock : Option (Thread np nc)
  stage : Thread np nc → Stage
  /-- The local `message` of each `connection_handler`. -/
  message : Fin np → Message
  /-- The local `messageWrapper` of each `messageDeliver`. -/
  messageWrapper : Fin nc → MessageQ
  /-- The ticket of the entry in `messageWrapper`. -/
  ticket : Fin nc → ℕ
  inserted : List (Message × ℤ)
  popped : List (MessageQ × Bool)
  finished : List ℕ

/-- A move of the scheduler. -/
inductive PipelineMove (np nc : ℕ) where
  /-- `read` returns a message. -/
  | read (p : Fin np) (m : Message)
  /-- `read` returns `0`, and the loop ends. -/
  | readEnd (p : Fin np)
  | lock (i : Thread np nc)
  | test (i : Thread np nc)
  /-- A sleeper wakes for no reason. -/
  | wake (i : Thread np nc)
  /-- `insert_queue`, with what `getTime()` returns in it. -/
  | insert (p : Fin np) (now : Timeval)
  | pop (c : Fin nc)
  | unlock (i : Thread np nc)
  /-- `pthread_cond_signal`, with the sleepers it picks. -/
  | signal (i : Thread np nc) (picked : Finset (Thread np nc))
  /-- The delivery loop and the log end. -/
  | finish (c : Fin nc)

namespace Pipeline

variable {np nc : ℕ}

/-- One thread moves to another stage. -/
def setStage (s : Pipeline np nc) (i : Thread np nc) (x : Stage) : Pipeline np nc :=
  { s with stage := Function.update s.stage i x }

@[simp] theorem setStage_self (s : Pipeline np nc) (i : Thread np nc) (x : Stage) :
    (s.setStage i x).stage i = x := by simp [setStage]

theorem setStage_of_ne (s : Pipeline np nc) {i j : Thread np nc} (x : Stage) (h : j ≠ i) :
    (s.setStage i x).stage j = s.stage j := by simp [setStage, h]

/-- The `while` condition of a thread: `queue_is_full` for a producer,
`queue_is_empty` for a consumer. -/
def mustWait (s : Pipeline np nc) : Thread np nc → Option Bool
  | .inl _ => queueIsFull s.queue
  | .inr _ => some (queueIsEmpty s.queue)

/-- The sleepers on the condition variable that thread `i` signals: those of the
other kind. -/
def Sleeper (s : Pipeline np nc) (i j : Thread np nc) : Prop :=
  Monitor.Sleeper Sum.isRight s.stage i j

instance (s : Pipeline np nc) (i j : Thread np nc) : Decidable (s.Sleeper i j) :=
  inferInstanceAs (Decidable (_ ∧ _))

/-- The removal whose entry a consumer has in its hands, by its ticket. -/
def handling (s : Pipeline np nc) (c : Fin nc) : Option ℕ :=
  if s.stage (.inr c) = .unlocking ∨ s.stage (.inr c) = .signalling ∨ s.stage (.inr c) = .outside
  then some (s.ticket c) else none

/-- The pipeline at the start: a new queue, the producers at `read`, the
consumers at the lock. The locals hold anything. -/
structure Initial (n : ℕ) (s : Pipeline np nc) : Prop where
  queue : ∃ block, initQueue n block = some s.queue
  messageLock : s.messageLock = none
  producer : ∀ p, s.stage (.inl p) = .outside
  consumer : ∀ c, s.stage (.inr c) = .locking .fresh
  inserted : s.inserted = []
  popped : s.popped = []
  finished : s.finished = []

/-- The pipeline at the start, around a given queue and with blank locals. -/
def start (np nc : ℕ) (q : Queue) : Pipeline np nc where
  queue := q
  messageLock := none
  stage i := if i.isRight then .locking .fresh else .outside
  message _ := Message.blank 0 0
  messageWrapper _ := ⟨Message.blank 0 0, ⟨0, 0⟩⟩
  ticket _ := 0
  inserted := []
  popped := []
  finished := []

theorem initial_start {n : ℕ} {q : Queue} (h : ∃ block, initQueue n block = some q) :
    (start np nc q).Initial n :=
  ⟨h, rfl, fun _ => rfl, fun _ => rfl, rfl, rfl, rfl⟩

end Pipeline

open Pipeline in
/-- The moves of the pipeline. -/
def pipeline (np nc : ℕ) : StepSystem (Pipeline np nc) (PipelineMove np nc) where
  enabled s
    | .read p _ => s.stage (.inl p) = .outside
    | .readEnd p => s.stage (.inl p) = .outside
    | .lock i => (s.stage i).AtLock ∧ s.messageLock = none
    | .test i => s.stage i = .testing
    | .wake i => s.stage i = .asleep
    | .insert p _ => s.stage (.inl p) = .acting
    | .pop c => s.stage (.inr c) = .acting
    | .unlock i => s.stage i = .unlocking
    | .signal i picked => s.stage i = .signalling ∧ (∀ j ∈ picked, s.Sleeper i j) ∧
        ((∃ j, s.Sleeper i j) → picked.Nonempty)
    | .finish c => s.stage (.inr c) = .outside
  effect s
    | .read p m =>
      some { s.setStage (.inl p) (.locking .fresh) with message := Function.update s.message p m }
    | .readEnd p => some (s.setStage (.inl p) .departed)
    | .lock i => some { s.setStage i .testing with messageLock := some i }
    | .test i => (s.mustWait i).map fun wait =>
        if wait then { s.setStage i .asleep with messageLock := none } else s.setStage i .acting
    | .wake i => some (s.setStage i (.locking .spurious))
    | .insert p now => (insertQueue s.queue (s.message p) now).map fun (rc, q) =>
        { s.setStage (.inl p) .unlocking with
          queue := q
          inserted := s.inserted ++ [(s.message p, rc)] }
    | .pop c => (popQueue s.queue).map fun (e, q) =>
        { s.setStage (.inr c) .unlocking with
          queue := q
          messageWrapper := Function.update s.messageWrapper c e
          ticket := Function.update s.ticket c s.popped.length
          popped := s.popped ++ [(e, queueIsEmpty s.queue)] }
    | .unlock i => some { s.setStage i .signalling with messageLock := none }
    | .signal i picked =>
      some { s with stage := Monitor.notify (Function.update s.stage i .outside) picked }
    | .finish c =>
      some { s.setStage (.inr c) (.locking .fresh) with finished := s.finished ++ [s.ticket c] }
  decEnabled s m := by
    cases m <;> simp only <;> infer_instance

end GroupChat
