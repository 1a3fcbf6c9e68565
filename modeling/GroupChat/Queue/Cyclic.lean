import GroupChat.Library.CInt
import GroupChat.Library.CyclicWindow
import GroupChat.Messages

/-!
# The message queue

The functions of `queue.h`, as the code computes them: a heap block of
`capacity + 1` entries with two `int` positions `l` and `r` that wrap at its
end. Every addition and remainder is checked (`CInt`), every access to the block
is bounds-checked, and a function returns `none` where the C code would run into
undefined behaviour.

Two things stand outside the functions and are parameters of the model. What
`malloc` returns is a block of the requested size whose cells hold anything
(`block` in `GroupChat.initQueue`). What `getTime()` returns at the insertion of
a message is a value the caller passes (`now` in `GroupChat.insertQueue`).

What the queue holds is its window `GroupChat.Queue.contents`, the entries from
`l` up to `r`. Under the invariant `GroupChat.Queue.Wf` each function has one
specification theorem in terms of it, and everything later uses those.
-/

namespace GroupChat

open CInt

/-- `struct MessageQ`: a message and the time of its insertion. -/
structure MessageQ where
  /-- The message. -/
  message : Message
  /-- When it was inserted. -/
  insertTime : Timeval
deriving DecidableEq

/-- `struct Queue`. -/
structure Queue where
  /-- The position of the oldest entry. -/
  l : ℤ
  /-- The position behind the newest entry. -/
  r : ℤ
  /-- The number of cells, one more than the capacity. -/
  size : ℤ
  /-- The cells. -/
  queue : List MessageQ
deriving DecidableEq

/-- `init_queue`, on a block of memory that holds `block` when `malloc` returns it. -/
def initQueue (size : ℤ) (block : ℕ → MessageQ) : Option Queue := do
  let cells ← add intBits size 1
  return { l := 0, r := 0, size := cells, queue := (List.range cells.toNat).map block }

/-- `next`: the next index with cyclic wrap around. -/
def next (i : ℤ) (q : Queue) : Option ℤ := do
  let j ← add intBits i 1
  rem intBits j q.size

/-- `queue_is_full`. -/
def queueIsFull (q : Queue) : Option Bool := do
  let j ← next q.r q
  return j == q.l

/-- `queue_is_empty`. -/
def queueIsEmpty (q : Queue) : Bool := q.l == q.r

/-- `insert_queue`: the returned `int`, and the queue it leaves. -/
def insertQueue (q : Queue) (msg : Message) (now : Timeval) : Option (ℤ × Queue) := do
  if ← queueIsFull q then
    return (-1, q)
  let messageWrapper : MessageQ := { message := msg, insertTime := now }
  let cells ← store q.queue q.r messageWrapper
  let r ← next q.r q
  return (0, { q with queue := cells, r := r })

/-- `pop_queue`: the returned entry, and the queue it leaves. On an empty queue
the code only prints a message and goes on. -/
def popQueue (q : Queue) : Option (MessageQ × Queue) := do
  let response ← load q.queue q.l
  let l ← next q.l q
  return (response, { q with l := l })

/-- `getSize`. -/
def getSize (q : Queue) : Option ℤ := do
  let d ← sub intBits q.r q.l
  let e ← add intBits d q.size
  rem intBits e q.size

namespace Queue

/-- The entries from `l` up to `r`, oldest first. -/
def contents (q : Queue) : List MessageQ :=
  CyclicWindow.window q.queue q.l.toNat q.r.toNat

/-- **The invariant of a queue of capacity `n`**: one cell more than the
capacity, and both positions inside the block. -/
structure Wf (n : ℕ) (q : Queue) : Prop where
  /-- The cells can be counted by an `int`. -/
  fits : Fits intBits ((n + 1 : ℕ) : ℤ)
  /-- The recorded size. -/
  size_eq : q.size = ((n + 1 : ℕ) : ℤ)
  /-- The allocated size. -/
  length_eq : q.queue.length = n + 1
  /-- The oldest position is inside. -/
  l_mem : 0 ≤ q.l ∧ q.l < q.size
  /-- The newest position is inside. -/
  r_mem : 0 ≤ q.r ∧ q.r < q.size

variable {n : ℕ} {q : Queue}

/-- A queue under the invariant has natural numbers for positions. -/
theorem Wf.exists_eq (h : q.Wf n) :
    ∃ (l r : ℕ) (cells : List MessageQ), q = ⟨l, r, (n + 1 : ℕ), cells⟩ ∧
      cells.length = n + 1 ∧ l < n + 1 ∧ r < n + 1 := by
  obtain ⟨l, r, size, cells⟩ := q
  obtain ⟨-, hsize, hlen, ⟨hl, hl'⟩, ⟨hr, hr'⟩⟩ := h
  simp only at hsize hlen hl hl' hr hr'
  refine ⟨l.toNat, r.toNat, cells, ?_, hlen, by omega, by omega⟩
  rw [Int.toNat_of_nonneg hl, Int.toNat_of_nonneg hr, hsize]

theorem wf_mk {l r : ℕ} {cells : List MessageQ} (hn : Fits intBits ((n + 1 : ℕ) : ℤ))
    (hlen : cells.length = n + 1) (hl : l < n + 1) (hr : r < n + 1) :
    Wf n ⟨l, r, (n + 1 : ℕ), cells⟩ :=
  ⟨hn, rfl, hlen, ⟨by simp, Nat.cast_lt.mpr hl⟩, ⟨by simp, Nat.cast_lt.mpr hr⟩⟩

@[simp] theorem contents_mk (l r : ℕ) (size : ℤ) (cells : List MessageQ) :
    contents ⟨l, r, size, cells⟩ = CyclicWindow.window cells l r := by
  simp [contents]

/-! ### The functions under the invariant -/

theorem next_eq {l r i : ℕ} {cells : List MessageQ} (hn : Fits intBits ((n + 1 : ℕ) : ℤ))
    (hi : i < n + 1) :
    next i ⟨l, r, (n + 1 : ℕ), cells⟩ = some (((i + 1) % (n + 1) : ℕ) : ℤ) := by
  rw [next, ← add_one_rem_eq_some hi hn]
  rfl

/-- The capacity bounds the number of entries. -/
theorem length_contents_le (h : q.Wf n) : q.contents.length ≤ n := by
  obtain ⟨l, r, cells, rfl, hlen, hl, hr⟩ := h.exists_eq
  rw [contents_mk]
  rw [← hlen] at hl hr
  have hlt := CyclicWindow.length_window_lt hl hr
  omega

/-- A new queue holds nothing. -/
theorem initQueue_eq_some (block : ℕ → MessageQ) (hn : Fits intBits ((n + 1 : ℕ) : ℤ)) :
    ∃ q, initQueue n block = some q ∧ q.Wf n ∧ q.contents = [] := by
  have hadd : add intBits (n : ℤ) 1 = some ((n + 1 : ℕ) : ℤ) := by
    push_cast at hn ⊢
    exact add_eq_some hn
  refine ⟨⟨((0 : ℕ) : ℤ), ((0 : ℕ) : ℤ), (n + 1 : ℕ), (List.range (n + 1)).map block⟩, ?_,
    wf_mk hn (by simp) (by omega) (by omega), ?_⟩
  · rw [initQueue, hadd]
    rfl
  · rw [contents_mk, CyclicWindow.window_of_le (Nat.le_refl 0)]
    rfl

/-- A new queue can only be had for a capacity whose cells an `int` counts. -/
theorem wf_of_initQueue {block : ℕ → MessageQ} (h : initQueue n block = some q) :
    q.Wf n ∧ q.contents = [] := by
  have hn : Fits intBits ((n + 1 : ℕ) : ℤ) := by
    by_contra hcon
    push_cast at hcon
    simp [initQueue, add, checked, hcon] at h
  obtain ⟨q', hq', hwf, hc⟩ := initQueue_eq_some block hn
  rw [h, Option.some.injEq] at hq'
  exact hq' ▸ ⟨hwf, hc⟩

/-- **Full is `n` entries.** -/
theorem queueIsFull_eq (h : q.Wf n) : queueIsFull q = some (decide (q.contents.length = n)) := by
  have hn := h.fits
  obtain ⟨l, r, cells, rfl, hlen, hl, hr⟩ := h.exists_eq
  have hl' : l < cells.length := hlen ▸ hl
  have hr' : r < cells.length := hlen ▸ hr
  have hiff := CyclicWindow.length_window_add_one_iff hl' hr'
  rw [hlen] at hiff
  rw [queueIsFull, next_eq hn hr, contents_mk, Option.bind_eq_bind, Option.bind_some]
  refine congrArg some (Bool.eq_iff_iff.mpr ?_)
  rw [beq_iff_eq, decide_eq_true_iff, Nat.cast_inj, ← hiff]
  omega

/-- **Empty is no entries.** -/
theorem queueIsEmpty_iff (h : q.Wf n) : queueIsEmpty q = true ↔ q.contents = [] := by
  obtain ⟨l, r, cells, rfl, hlen, hl, hr⟩ := h.exists_eq
  rw [queueIsEmpty, beq_iff_eq, Nat.cast_inj, contents_mk, ← List.length_eq_zero_iff,
    CyclicWindow.length_window_eq_zero_iff (hlen ▸ hl) (hlen ▸ hr)]

/-- **Insertion with room** returns `0` and appends the stamped message. -/
theorem insertQueue_of_lt (h : q.Wf n) (hlt : q.contents.length < n) (msg : Message)
    (now : Timeval) :
    ∃ q', insertQueue q msg now = some (0, q') ∧ q'.Wf n ∧
      q'.contents = q.contents ++ [⟨msg, now⟩] := by
  have hfull := queueIsFull_eq h
  rw [decide_eq_false (by omega)] at hfull
  have hn := h.fits
  obtain ⟨l, r, cells, rfl, hlen, hl, hr⟩ := h.exists_eq
  rw [contents_mk] at hlt ⊢
  -- with room, `r` is not one step before `l`, and so no live cell is written
  have hne : (r + 1) % cells.length ≠ l := fun hcon => by
    have := (CyclicWindow.length_window_add_one_iff (hlen ▸ hl) (hlen ▸ hr)).mpr hcon
    omega
  have hpush := CyclicWindow.window_push (hlen ▸ hl) (hlen ▸ hr) hne ⟨msg, now⟩
  rw [hlen] at hpush
  refine ⟨⟨l, ((r + 1) % (n + 1) : ℕ), (n + 1 : ℕ), cells.set r ⟨msg, now⟩⟩, ?_,
    wf_mk hn (by simpa using hlen) hl (Nat.mod_lt _ (by omega)), ?_⟩
  · simp only [insertQueue, hfull, Option.bind_eq_bind, Option.bind_some, Bool.false_eq_true,
      if_false, store_natCast (hlen ▸ hr : r < cells.length), next_eq hn hr]
    rfl
  · rw [contents_mk, hpush]

/-- **Insertion without room** returns `-1` and changes nothing. -/
theorem insertQueue_of_full (h : q.Wf n) (heq : q.contents.length = n) (msg : Message)
    (now : Timeval) : insertQueue q msg now = some (-1, q) := by
  have hfull := queueIsFull_eq h
  rw [decide_eq_true heq] at hfull
  simp [insertQueue, hfull]

/-- **Removal** takes the oldest entry as it was inserted. -/
theorem popQueue_of_ne_nil (h : q.Wf n) {e : MessageQ} {es : List MessageQ}
    (hc : q.contents = e :: es) :
    ∃ q', popQueue q = some (e, q') ∧ q'.Wf n ∧ q'.contents = es := by
  have hn := h.fits
  obtain ⟨l, r, cells, rfl, hlen, hl, hr⟩ := h.exists_eq
  rw [contents_mk] at hc
  have hne : l ≠ r := fun hcon => by
    have := (CyclicWindow.length_window_eq_zero_iff (hlen ▸ hl) (hlen ▸ hr)).mpr hcon
    rw [hc] at this
    simp at this
  have hl' : l < cells.length := hlen ▸ hl
  have hpop := CyclicWindow.window_pop hl' (hlen ▸ hr) hne
  rw [hc, hlen] at hpop
  obtain ⟨rfl, rfl⟩ := List.cons.inj hpop
  refine ⟨⟨((l + 1) % (n + 1) : ℕ), r, (n + 1 : ℕ), cells⟩, ?_,
    wf_mk hn hlen (Nat.mod_lt _ (by omega)) hr, contents_mk _ _ _ _⟩
  simp only [popQueue, load_natCast, List.getElem?_eq_getElem hl', Option.bind_eq_bind,
    Option.bind_some, next_eq hn hl]
  rfl

/-- What `getSize` returns it has computed without an overflow. -/
theorem fits_of_getSize {x : ℤ} (h : getSize q = some x) : Fits intBits (q.r - q.l + q.size) := by
  obtain ⟨d, hd, h⟩ := Option.bind_eq_some_iff.mp h
  obtain ⟨e, he, -⟩ := Option.bind_eq_some_iff.mp h
  obtain rfl := Option.some.inj (Option.ite_none_right_eq_some.mp hd).2
  exact (Option.ite_none_right_eq_some.mp he).1

/-- **The size** is the number of entries, where the sum of both positions and the
number of cells fits an `int`. -/
theorem getSize_eq_of_fits (h : q.Wf n) (hfit : Fits intBits (q.r - q.l + q.size)) :
    getSize q = some (q.contents.length : ℤ) := by
  have hn := h.fits
  obtain ⟨l, r, cells, rfl, hlen, hl, hr⟩ := h.exists_eq
  have hl' : l < cells.length := hlen ▸ hl
  have hr' : r < cells.length := hlen ▸ hr
  have hlen' := CyclicWindow.length_window hl' hr'
  change Fits intBits ((r : ℤ) - l + (n + 1 : ℕ)) at hfit
  have hsub : Fits intBits ((r : ℤ) - l) := ⟨by have := hn.2; omega, by have := hn.2; omega⟩
  -- the sum is not negative, so the remainder of C is that of the natural numbers
  have hcast : (r : ℤ) - l + (n + 1 : ℕ) = ((r + (n + 1) - l : ℕ) : ℤ) := by omega
  rw [getSize, sub_eq_some hsub, Option.bind_eq_bind, Option.bind_some, add_eq_some hfit,
    Option.bind_some, rem_eq_some (by omega) (Nat.cast_pos.mpr n.succ_pos), contents_mk, hlen',
    hlen, hcast]
  push_cast
  rfl

/-- For a capacity below `2 ^ 30` the sum always fits. -/
theorem getSize_eq (h : q.Wf n) (hn : 2 * (n + 1) ≤ 2 ^ 31) :
    getSize q = some q.contents.length := by
  refine getSize_eq_of_fits h ?_
  obtain ⟨l, r, cells, rfl, -, hl, hr⟩ := h.exists_eq
  change Fits intBits ((r : ℤ) - l + (n + 1 : ℕ))
  exact ⟨by norm_num; omega, by norm_num; omega⟩

end Queue

/-- A new queue of capacity `n`, in memory that was cleared. -/
def newQueue (n : ℕ) : Queue where
  l := 0
  r := 0
  size := (n + 1 : ℕ)
  queue := List.replicate (n + 1) ⟨Message.blank 0 0, ⟨0, 0⟩⟩

theorem exists_initQueue_newQueue {n : ℕ} (hn : Fits intBits ((n + 1 : ℕ) : ℤ)) :
    ∃ block, initQueue n block = some (newQueue n) := by
  have hadd : add intBits (n : ℤ) 1 = some ((n + 1 : ℕ) : ℤ) := by
    push_cast at hn ⊢
    exact add_eq_some hn
  refine ⟨fun _ => ⟨Message.blank 0 0, ⟨0, 0⟩⟩, ?_⟩
  rw [initQueue, hadd, Option.bind_eq_bind, Option.bind_some, Int.toNat_natCast, List.map_const',
    List.length_range]
  rfl

end GroupChat
