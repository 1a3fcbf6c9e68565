import GroupChat.Pipeline.Guarantees
import GroupChat.Queue.Refinement

/-!
# One call at a time

What the lock is for. A critical section of `connection_handler` or `messageDeliver`
consists of many moves between which other threads run, but to the queue it is a single
call: a run of the pipeline is matched by a run of the bounded list
(`GroupChat.fifoQueue`) with one call for each `insert_queue` and `pop_queue`, none of
which is refused or finds nothing (`GroupChat.pipeline_refines_fifoQueue`). This is why the
server can be modelled with sections for moves (`GroupChat.server`).
-/

namespace GroupChat

/-- The entry that a call has returned. -/
def QueueReply.entry? : QueueReply → Option MessageQ
  | .code _ => none
  | .entry e => some e

namespace Pipeline

variable {np nc n : ℕ} {s t : Pipeline np nc}

/-- **A pipeline matches a bounded list** with its replies: the same entries, every
insertion accepted, and the removals those of the run. -/
structure Matches (n : ℕ) (s : Pipeline np nc) (f : List QueueReply × BoundedFifo MessageQ n) :
    Prop where
  inv : s.Inv n
  contents : s.queue.contents = f.2.items
  accepted : ∀ rc, .code rc ∈ f.1 → rc = 0
  removed : f.1.filterMap QueueReply.entry? = s.popped.map Prod.fst

/-- A move that does not call the queue leaves it alone. -/
theorem queue_eq_of_exec {m : PipelineMove np nc} (hexec : (pipeline np nc).exec s m = some t)
    (hinsert : ∀ p now, m ≠ .insert p now) (hpop : ∀ c, m ≠ .pop c) :
    t.queue = s.queue ∧ t.popped = s.popped := by
  have heff := (StepSystem.exec_eq_some.mp hexec).2
  cases m with
  | insert p now => exact absurd rfl (hinsert p now)
  | pop c => exact absurd rfl (hpop c)
  | test i =>
    obtain ⟨wait, -, rfl⟩ := Option.map_eq_some_iff.mp heff
    cases wait <;> exact ⟨rfl, rfl⟩
  | _ =>
    obtain rfl := Option.some.inj heff
    exact ⟨rfl, rfl⟩

/-- **One move is at most one call.** -/
theorem Matches.step {f : List QueueReply × BoundedFifo MessageQ n} (h : Matches n s f)
    {m : PipelineMove np nc} (hexec : (pipeline np nc).exec s m = some t) :
    ∃ calls f', (fifoQueue n).run f calls = some f' ∧ Matches n t f' := by
  have hinv := h.inv.step hexec
  have hcontents := h.contents
  by_cases hinsert : ∃ p now, m = .insert p now
  · obtain ⟨p, now, rfl⟩ := hinsert
    obtain ⟨q, -, -, hq, rfl⟩ := h.inv.insert_cases hexec
    have hroom := h.inv.room (StepSystem.exec_eq_some.mp hexec).1
    rw [hcontents] at hroom
    obtain ⟨f', hpush, hitems⟩ := BoundedFifo.exists_push? hroom ⟨s.message p, now⟩
    refine ⟨[.insert (s.message p) now], (f.1 ++ [.code 0], f'), ?_, hinv, ?_, ?_, ?_⟩
    · rw [StepSystem.run_cons, StepSystem.exec_eq_some.mpr ⟨trivial, ?_⟩]
      · rfl
      · simp only [fifoQueue, fifoCall, hpush, Option.map_some]
    · exact hq.trans (hcontents ▸ hitems.symm)
    · intro rc hrc
      rcases List.mem_append.mp hrc with hold | hnew
      · exact h.accepted rc hold
      · exact QueueReply.code.inj (List.mem_singleton.mp hnew)
    · rw [List.filterMap_append, h.removed]
      exact List.append_nil _
  by_cases hpop : ∃ c, m = .pop c
  · obtain ⟨c, rfl⟩ := hpop
    obtain ⟨e, q, -, -, hq, rfl⟩ := h.inv.pop_cases hexec
    obtain ⟨f', hpop, hitems⟩ := BoundedFifo.exists_pop? (hcontents.symm.trans hq)
    refine ⟨[.pop], (f.1 ++ [.entry e], f'), ?_, hinv, hitems.symm, ?_, ?_⟩
    · rw [StepSystem.run_cons, StepSystem.exec_eq_some.mpr ⟨trivial, ?_⟩]
      · rfl
      · simp only [fifoQueue, fifoCall, hpop, Option.map_some]
    · intro rc hrc
      rcases List.mem_append.mp hrc with hold | hnew
      · exact h.accepted rc hold
      · exact absurd (List.mem_singleton.mp hnew) (by simp)
    · rw [List.filterMap_append, h.removed, List.map_append]
      rfl
  -- the other moves are none of the queue's business
  obtain ⟨hqueue, hpopped⟩ := queue_eq_of_exec hexec
    (fun p now heq => hinsert ⟨p, now, heq⟩) (fun c heq => hpop ⟨c, heq⟩)
  refine ⟨[], f, rfl, hinv, ?_, h.accepted, ?_⟩
  · rw [hqueue, hcontents]
  · rw [hpopped, h.removed]

end Pipeline

open Pipeline

/-- **The pipeline refines the bounded list.** Whatever the scheduler chooses goes
through, and there is a list of calls, one after the other, that leaves the bounded list
with the entries that are in the queue; no insertion among them is refused, and the
removals among them return what the removals of the pipeline have returned. -/
theorem pipeline_refines_fifoQueue {np nc n : ℕ} {s : Pipeline np nc} (hs : s.Initial n)
    {ms : List (PipelineMove np nc)}
    (hen : (pipeline np nc).Always (pipeline np nc).enabled s ms) :
    ∃ t calls f, (pipeline np nc).run s ms = some t ∧
      (fifoQueue n).run ([], BoundedFifo.empty) calls = some f ∧ t.Matches n f := by
  obtain ⟨t, hrun⟩ := hs.exists_run hen
  obtain ⟨block, hblock⟩ := hs.queue
  have hstart : s.Matches n ([], BoundedFifo.empty) :=
    ⟨hs.inv, (Queue.wf_of_initQueue hblock).2, by simp, by simp [hs.popped]⟩
  obtain ⟨calls, f, hf, hmatches⟩ :=
    StepSystem.run_simulation (fun _ _ _ _ h hexec => h.step hexec) hstart hrun
  exact ⟨t, calls, f, hrun, hf, hmatches⟩

end GroupChat
