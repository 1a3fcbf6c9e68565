import GroupChat.Library.BoundedFifo
import GroupChat.Library.StepSystem
import GroupChat.Queue.Cyclic

/-!
# The cyclic queue is a bounded queue

The calls of `insert_queue` and `pop_queue` as a step system
(`GroupChat.cyclicQueue`), next to the same calls on a bounded list
(`GroupChat.fifoQueue`). A removal is enabled only while `queue_is_empty` is
false, which is how `messageDeliver` calls it. The two answer alike, call by
call, and stay related by `GroupChat.Queue.Represents`, which also says what the
other functions of `queue.h` then return
(`GroupChat.cyclicQueue_refines_fifoQueue`).
-/

namespace GroupChat

/-- A call of one of the two functions that change the queue. -/
inductive QueueCall where
  /-- `insert_queue`, with the message and what `getTime()` returns. -/
  | insert (msg : Message) (now : Timeval)
  /-- `pop_queue`. -/
  | pop
deriving DecidableEq

/-- What a call returns. -/
inductive QueueReply where
  /-- The `int` of `insert_queue`. -/
  | code (rc : ℤ)
  /-- The entry of `pop_queue`. -/
  | entry (e : MessageQ)
deriving DecidableEq

/-- A call on the cyclic queue. -/
def Queue.call (q : Queue) : QueueCall → Option (QueueReply × Queue)
  | .insert msg now => (insertQueue q msg now).map fun p => (.code p.1, p.2)
  | .pop => (popQueue q).map fun p => (.entry p.1, p.2)

/-- Calls on the cyclic queue, with the replies so far. -/
def cyclicQueue : StepSystem (List QueueReply × Queue) QueueCall where
  enabled s c := c matches .pop → queueIsEmpty s.2 = false
  effect s c := (s.2.call c).map fun p => (s.1 ++ [p.1], p.2)
  decEnabled _ _ := inferInstance

/-- A call on a bounded list: a full list refuses an insertion with `-1`, an
empty one has nothing to remove. -/
def fifoCall {n : ℕ} (q : BoundedFifo MessageQ n) :
    QueueCall → Option (QueueReply × BoundedFifo MessageQ n)
  | .insert msg now =>
    match q.push? ⟨msg, now⟩ with
    | some q' => some (.code 0, q')
    | none => some (.code (-1), q)
  | .pop => q.pop?.map fun p => (.entry p.1, p.2)

/-- Calls on a bounded list, with the replies so far. -/
def fifoQueue (n : ℕ) : StepSystem (List QueueReply × BoundedFifo MessageQ n) QueueCall where
  enabled _ _ := True
  effect s c := (fifoCall s.2 c).map fun p => (s.1 ++ [p.1], p.2)
  decEnabled _ _ := inferInstance

namespace Queue

/-- **A cyclic queue represents a bounded list** when it holds the entries of the
list, has both positions in range, and its tests and its size are those of the
list; an insertion it refuses leaves it as it is. -/
structure Represents (n : ℕ) (q : Queue) (f : BoundedFifo MessageQ n) : Prop where
  /-- The same entries in the same order. -/
  contents_eq : q.contents = f.items
  /-- `l` is a cell. -/
  l_mem : 0 ≤ q.l ∧ q.l < q.size
  /-- `r` is a cell. -/
  r_mem : 0 ≤ q.r ∧ q.r < q.size
  /-- `queue_is_empty`. -/
  empty_iff : queueIsEmpty q = true ↔ f.items = []
  /-- `queue_is_full`. -/
  full_eq : queueIsFull q = some (decide (f.items.length = n))
  /-- `getSize`. -/
  size_eq : getSize q = some f.items.length
  /-- A refused insertion changes neither position and no cell. -/
  refused : f.items.length = n → ∀ msg now, insertQueue q msg now = some (-1, q)

variable {n : ℕ} {q : Queue}

theorem Wf.represents (h : q.Wf n) (hn : 2 * (n + 1) ≤ 2 ^ 31) {f : BoundedFifo MessageQ n}
    (hc : q.contents = f.items) : q.Represents n f where
  contents_eq := hc
  l_mem := h.l_mem
  r_mem := h.r_mem
  empty_iff := hc ▸ queueIsEmpty_iff h
  full_eq := hc ▸ queueIsFull_eq h
  size_eq := hc ▸ getSize_eq h hn
  refused heq := insertQueue_of_full h (hc ▸ heq)

/-- The relation the simulation keeps: equal replies so far, and the invariant. -/
def Sim (n : ℕ) (s : List QueueReply × Queue) (t : List QueueReply × BoundedFifo MessageQ n) :
    Prop :=
  s.1 = t.1 ∧ s.2.Wf n ∧ s.2.contents = t.2.items

/-- **One call.** The cyclic queue and the bounded list answer alike and stay
related. -/
theorem Sim.step {s : List QueueReply × Queue} {t : List QueueReply × BoundedFifo MessageQ n}
    {c : QueueCall} (h : Sim n s t) (hen : cyclicQueue.enabled s c) :
    ∃ s' t', cyclicQueue.exec s c = some s' ∧ (fifoQueue n).exec t c = some t' ∧ Sim n s' t' := by
  obtain ⟨rs, q⟩ := s
  obtain ⟨rs', f⟩ := t
  obtain ⟨rfl, hwf, hc⟩ := h
  simp only at hwf hc
  simp only [StepSystem.exec_eq_some]
  cases c with
  | insert msg now =>
    rcases Nat.lt_or_ge f.items.length n with hlt | hge
    · obtain ⟨q', hq', hwf', hc'⟩ := insertQueue_of_lt hwf (hc ▸ hlt) msg now
      obtain ⟨f', hpush, hf'⟩ := BoundedFifo.exists_push? hlt ⟨msg, now⟩
      refine ⟨(rs ++ [.code 0], q'), (rs ++ [.code 0], f'), ⟨hen, ?_⟩, ⟨trivial, ?_⟩, rfl, hwf', ?_⟩
      · simp [cyclicQueue, call, hq']
      · simp only [fifoQueue, fifoCall, hpush, Option.map_some]
      · exact hc'.trans (hc ▸ hf'.symm)
    · have heq : f.items.length = n := Nat.le_antisymm f.bounded hge
      have hins := insertQueue_of_full hwf (hc ▸ heq) msg now
      have hpush : f.push? ⟨msg, now⟩ = none := BoundedFifo.push?_eq_none_iff.mpr heq
      refine ⟨(rs ++ [.code (-1)], q), (rs ++ [.code (-1)], f), ⟨hen, ?_⟩, ⟨trivial, ?_⟩, rfl,
        hwf, hc⟩
      · simp [cyclicQueue, call, hins]
      · simp only [fifoQueue, fifoCall, hpush, Option.map_some]
  | pop =>
    have hne : queueIsEmpty q = false := hen rfl
    cases hitems : f.items with
    | nil =>
      rw [(queueIsEmpty_iff hwf).mpr (hc.trans hitems)] at hne
      exact absurd hne (by decide)
    | cons e es =>
      obtain ⟨q', hq', hwf', hc'⟩ := popQueue_of_ne_nil hwf (hc.trans hitems)
      obtain ⟨f', hpop, hf'⟩ := BoundedFifo.exists_pop? hitems
      refine ⟨(rs ++ [.entry e], q'), (rs ++ [.entry e], f'), ⟨hen, ?_⟩, ⟨trivial, ?_⟩, rfl,
        hwf', hc'.trans hf'.symm⟩
      · simp [cyclicQueue, call, hq']
      · simp [fifoQueue, fifoCall, hpop]

end Queue

open Queue

/-- **The cyclic queue refines the bounded list**: after any calls from a new
queue of capacity `n`, every call so far has returned, with what the list returns
for it, and the queue represents the list. -/
theorem cyclicQueue_refines_fifoQueue (n : ℕ) (hn : 2 * (n + 1) ≤ 2 ^ 31) (block : ℕ → MessageQ) :
    ∃ q₀, initQueue n block = some q₀ ∧ ∀ calls,
      cyclicQueue.Always cyclicQueue.enabled ([], q₀) calls →
      ∃ replies q f, cyclicQueue.run ([], q₀) calls = some (replies, q) ∧
        (fifoQueue n).run ([], BoundedFifo.empty) calls = some (replies, f) ∧
        q.Represents n f := by
  have hfit : CInt.Fits CInt.intBits ((n + 1 : ℕ) : ℤ) := ⟨by norm_num; omega, by norm_num; omega⟩
  obtain ⟨q₀, hq₀, hwf, hc⟩ := initQueue_eq_some block hfit
  refine ⟨q₀, hq₀, ?_⟩
  intro calls hcalls
  have hsim : Sim n ([], q₀) ([], BoundedFifo.empty) := ⟨rfl, hwf, hc⟩
  obtain ⟨⟨replies, q⟩, ⟨replies', f⟩, hrun, hrun', rfl, hwf', hc'⟩ :=
    StepSystem.run_lockstep (fun _ _ _ h hen => h.step hen) hsim hcalls
  exact ⟨replies, q, f, hrun, hrun', hwf'.represents hn hc'⟩

/-- The queue of capacity one: the second insertion is refused, and the removal
returns the first message. -/
theorem cyclicQueue_refines_fifoQueue_one :
    ∃ q₀ q f, initQueue 1 (fun _ => ⟨Message.blank 0 0, ⟨0, 0⟩⟩) = some q₀ ∧
      cyclicQueue.run ([], q₀)
          [.insert (Message.blank 1 0) ⟨5, 0⟩, .insert (Message.blank 2 0) ⟨6, 0⟩, .pop] =
        some ([.code 0, .code (-1), .entry ⟨Message.blank 1 0, ⟨5, 0⟩⟩], q) ∧
      q.Represents 1 f := by
  obtain ⟨q₀, hq₀, h⟩ := cyclicQueue_refines_fifoQueue 1 (by decide)
    fun _ => ⟨Message.blank 0 0, ⟨0, 0⟩⟩
  obtain rfl := Option.some.inj hq₀
  obtain ⟨replies, q, f, hrun, -, hrep⟩ := h
    [.insert (Message.blank 1 0) ⟨5, 0⟩, .insert (Message.blank 2 0) ⟨6, 0⟩, .pop] (by decide)
  refine ⟨_, q, f, hq₀, ?_, hrep⟩
  obtain ⟨rfl, -⟩ := Prod.mk.inj (Option.some.inj hrun)
  exact hrun

end GroupChat
