import GroupChat.Library.ByteLayout

/-!
# Reading records from a stream

A program that reads one record into a variable and then, over and over, records of
another kind into a second one, with one call of `read` for each and a loop that goes
on as long as the result is not `0` (`Framing.readRecords`). A call may return fewer
bytes than it was asked for, and what it does not return stays in the variable as it
was; `-1` is not `0`.

Against this stands what ought to be handled: the records that have been received as a
whole, in their order (`Framing.wholeFirst`, `Framing.wholeRecords`). The two agree,
after every call, exactly as long as every call returns all it was asked for, up to
the `0` that ends the loop (`Framing.first_eq_iff`, `Framing.records_eq_iff`): a short
count or an error is taken for a record, so from there on one record too many has been
handled.
-/

namespace Framing

open ByteLayout

/-- What a call of `read` comes to. -/
inductive ReadResult where
  /-- Some bytes, as many as there are. -/
  | data (bytes : List UInt8)
  /-- `0`, at the end of the stream. -/
  | eof
  /-- `-1`. -/
  | error
deriving DecidableEq

/-- The value that the call returns. -/
def ReadResult.count : ReadResult → ℤ
  | data bytes => bytes.length
  | eof => 0
  | error => -1

/-- A call that returns a positive count has returned bytes. -/
theorem ReadResult.exists_of_count {n : ℕ} (hn : 0 < n) {r : ReadResult} (h : r.count = n) :
    ∃ bytes, r = data bytes ∧ bytes.length = n := by
  cases r with
  | data bytes => exact ⟨bytes, rfl, Int.ofNat.inj h⟩
  | eof =>
    rw [count] at h
    omega
  | error =>
    rw [count] at h
    omega

/-- The call was for `n` bytes. -/
def ReadResult.Within (n : ℕ) : ReadResult → Prop
  | data bytes => 1 ≤ bytes.length ∧ bytes.length ≤ n
  | _ => True

instance (n : ℕ) (r : ReadResult) : Decidable (r.Within n) := by
  cases r <;> simp only [ReadResult.Within] <;> infer_instance

/-- The bytes that the call returns. -/
def ReadResult.bytes : ReadResult → List UInt8
  | data bytes => bytes
  | _ => []

/-- What a call for `n` bytes may come to when these bytes are waiting: some of them, the
end of the stream where nothing is waiting and the other end is closed, or an error. -/
def ReadResult.Possible (n : ℕ) (waiting : List UInt8) (closed : Bool) : ReadResult → Prop
  | data bytes => (data bytes).Within n ∧ bytes <+: waiting
  | eof => waiting = [] ∧ closed
  | error => True

instance (n : ℕ) (waiting : List UInt8) (closed : Bool) (r : ReadResult) :
    Decidable (r.Possible n waiting closed) := by
  cases r <;> simp only [ReadResult.Possible] <;> infer_instance

/-- A variable after a call that reads into it. -/
def deposit (memory : List UInt8) : ReadResult → List UInt8
  | .data bytes => bytes ++ memory.drop bytes.length
  | _ => memory

/-- The bytes received before the first call that returns `0` or `-1`. -/
def received : List ReadResult → List UInt8
  | .data bytes :: results => bytes ++ received results
  | _ => []

@[simp] theorem received_nil : received [] = [] := rfl

@[simp] theorem received_data (bytes : List UInt8) (results : List ReadResult) :
    received (.data bytes :: results) = bytes ++ received results := rfl

@[simp] theorem received_eof (results : List ReadResult) : received (.eof :: results) = [] := rfl

@[simp] theorem received_error (results : List ReadResult) :
    received (.error :: results) = [] := rfl

/-- The calls of a loop that stops at `0`, as far as they enter its body. -/
def untilEnd : List ReadResult → List ReadResult
  | [] => []
  | .eof :: _ => []
  | result :: results => result :: untilEnd results

@[simp] theorem untilEnd_eof (results : List ReadResult) : untilEnd (.eof :: results) = [] := rfl

section Readers

variable {α β : Type*} (H : RecordCodec α) (R : RecordCodec β)

/-- `while (read(fd, &record, sizeof(record)))`, with what the body finds in the
variable each time. Where the list of results ends, the next call has not returned. -/
def readLoop (memory : List UInt8) : List ReadResult → List β
  | [] => []
  | .eof :: _ => []
  | result :: results =>
    R.decode (deposit memory result) :: readLoop (deposit memory result) results

@[simp] theorem readLoop_data (memory bytes : List UInt8) (results : List ReadResult) :
    readLoop R memory (.data bytes :: results) =
      R.decode (deposit memory (.data bytes)) ::
        readLoop R (deposit memory (.data bytes)) results := rfl

/-- One call for a first record, whatever it returns, and the loop after it: what is
found in the two variables. -/
def readRecords (firstMemory memory : List UInt8) : List ReadResult → Option α × List β
  | [] => (none, [])
  | result :: results =>
    (some (H.decode (deposit firstMemory result)), readLoop R memory results)

/-- The first record, once `n` bytes of the stream have been received. -/
def wholeFirst (first : α) (n : ℕ) : Option α := if H.size ≤ n then some first else none

/-- The records behind the first that are complete in `n` bytes of the stream. -/
def wholeRecords (records : List β) (n : ℕ) : List β := records.take ((n - H.size) / R.size)

/-- **Fragmentation.** What the calls may return when a first record and a list of
records have been written: the bytes in their order, at least one and at most as many
as asked for at a time. -/
structure Fragments (first : α) (records : List β) (results : List ReadResult) : Prop where
  inOrder : received results <+: H.encode first ++ R.encodeAll records
  first : ∀ result ∈ results.head?, result.Within H.size
  later : ∀ result ∈ results.tail, result.Within R.size

end Readers

/-! ### Prefixes -/

theorem received_mono {pre results : List ReadResult} (h : pre <+: results) :
    received pre <+: received results := by
  induction pre generalizing results with
  | nil => exact List.nil_prefix
  | cons result pre ih =>
    obtain ⟨results, rfl, hpre⟩ := List.cons_prefix_iff.mp h
    cases result with
    | data bytes => exact (List.prefix_append_right_inj bytes).mpr (ih hpre)
    | eof => exact List.nil_prefix
    | error => exact List.nil_prefix

theorem untilEnd_mono {pre results : List ReadResult} (h : pre <+: results) :
    untilEnd pre <+: untilEnd results := by
  induction pre generalizing results with
  | nil => exact List.nil_prefix
  | cons result pre ih =>
    obtain ⟨results, rfl, hpre⟩ := List.cons_prefix_iff.mp h
    cases result with
    | eof => exact List.nil_prefix
    | data bytes => exact List.cons_prefix_cons.mpr ⟨rfl, ih hpre⟩
    | error => exact List.cons_prefix_cons.mpr ⟨rfl, ih hpre⟩

theorem untilEnd_prefix_self (results : List ReadResult) : untilEnd results <+: results := by
  induction results with
  | nil => exact List.prefix_refl _
  | cons result results ih =>
    cases result with
    | eof => exact List.nil_prefix
    | data bytes => exact List.cons_prefix_cons.mpr ⟨rfl, ih⟩
    | error => exact List.cons_prefix_cons.mpr ⟨rfl, ih⟩

theorem untilEnd_idem (results : List ReadResult) :
    untilEnd (untilEnd results) = untilEnd results := by
  induction results with
  | nil => rfl
  | cons result results ih => cases result <;> simp [untilEnd, ih]

section Readers

variable {α β : Type*} {H : RecordCodec α} {R : RecordCodec β}

theorem Fragments.mono {first : α} {records : List β} {pre results : List ReadResult}
    (h : Fragments H R first records results) (hpre : pre <+: results) :
    Fragments H R first records pre where
  inOrder := (received_mono hpre).trans h.inOrder
  first result hresult := by
    cases pre with
    | nil => simp at hresult
    | cons r pre =>
      obtain ⟨results, rfl, -⟩ := List.cons_prefix_iff.mp hpre
      exact h.first result hresult
  later result hresult := by
    obtain ⟨post, rfl⟩ := hpre
    cases pre with
    | nil => simp at hresult
    | cons r pre => exact h.later result (List.mem_append_left post hresult)

/-! ### Whole calls -/

/-- One record for each turn of the loop, whatever was received. -/
theorem length_readLoop (memory : List UInt8) (results : List ReadResult) :
    (readLoop R memory results).length = (untilEnd results).length := by
  induction results generalizing memory with
  | nil => rfl
  | cons result results ih => cases result <;> simp [readLoop, untilEnd, ih]

theorem length_received_le {n : ℕ} {results : List ReadResult}
    (hwithin : ∀ result ∈ results, result.Within n) :
    (received results).length ≤ n * results.length := by
  induction results with
  | nil => simp [received]
  | cons result results ih =>
    have hrest := ih fun r hr => hwithin r (List.mem_cons_of_mem result hr)
    cases result with
    | data bytes =>
      have hbytes : bytes.length ≤ n := (hwithin _ (List.mem_cons_self ..)).2
      simp only [received, List.length_append, List.length_cons, Nat.mul_succ]
      omega
    | eof => simp [received]
    | error => simp [received]

/-- A loop whose calls have not entered its body. -/
theorem readLoop_eq_nil {memory : List UInt8} {results : List ReadResult}
    (h : untilEnd results = []) : readLoop R memory results = [] := by
  rw [← List.length_eq_zero_iff, length_readLoop, h, List.length_nil]

theorem received_eq_nil {results : List ReadResult} (h : untilEnd results = []) :
    received results = [] := by
  cases results with
  | nil => rfl
  | cons result results =>
    cases result with
    | eof => rfl
    | data bytes => simp [untilEnd] at h
    | error => rfl

/-- Calls that return no more than they were asked for, and altogether as much, have
all returned as much. -/
theorem count_eq_of_length {n : ℕ} (hn : 0 < n) {results : List ReadResult}
    (hwithin : ∀ result ∈ results, result.Within n)
    (h : n * results.length ≤ (received results).length) :
    ∀ result ∈ results, result.count = n := by
  induction results with
  | nil => simp
  | cons result results ih =>
    have hwithin' : ∀ r ∈ results, r.Within n :=
      fun r hr => hwithin r (List.mem_cons_of_mem result hr)
    rw [List.length_cons, Nat.mul_succ] at h
    cases result with
    | data bytes =>
      -- neither the head nor the rest can make up for what the other lacks
      have hbytes : bytes.length ≤ n := (hwithin _ (List.mem_cons_self ..)).2
      have hrest := length_received_le hwithin'
      rw [received_data, List.length_append] at h
      intro r hr
      rcases List.mem_cons.mp hr with rfl | hr
      · rw [ReadResult.count]
        omega
      · exact ih hwithin' (by omega) r hr
    | eof =>
      rw [received_eof, List.length_nil] at h
      omega
    | error =>
      rw [received_error, List.length_nil] at h
      omega

/-- A variable that is read as a whole holds what was read. -/
theorem deposit_of_length {memory bytes : List UInt8} (h : bytes.length = memory.length) :
    deposit memory (.data bytes) = bytes := by
  rw [deposit, h, List.drop_length, List.append_nil]

/-- **A whole call** takes the next bytes of the stream, and leaves nothing else in the
variable. -/
theorem ReadResult.Possible.whole {n : ℕ} {taken stream memory : List UInt8} {closed : Bool}
    {r : ReadResult} (h : r.Possible n (stream.drop taken.length) closed) (hn : 0 < n)
    (hcount : r.count = n) (hmemory : memory.length = n) (htaken : taken <+: stream) :
    r.bytes.length = n ∧ deposit memory r = r.bytes ∧ taken ++ r.bytes <+: stream := by
  obtain ⟨bytes, rfl, hbytes⟩ := ReadResult.exists_of_count hn hcount
  refine ⟨hbytes, deposit_of_length (hbytes.trans hmemory.symm), ?_⟩
  obtain ⟨rest, rfl⟩ := htaken
  rw [List.drop_left] at h
  exact List.prefix_append_right_inj taken |>.mpr h.2

/-- A loop whose calls are whole handles the records that are received as a whole. -/
theorem readLoop_eq_take (hR : 0 < R.size) {memory : List UInt8} (hmemory : memory.length = R.size)
    {results : List ReadResult} (hwhole : ∀ result ∈ untilEnd results, result.count = R.size)
    {records : List β} (hreceived : received results <+: R.encodeAll records) :
    readLoop R memory results = records.take ((received results).length / R.size) := by
  induction results generalizing memory records with
  | nil => simp [readLoop, received]
  | cons result results ih =>
    by_cases heof : result = .eof
    · simp [heof, readLoop]
    · have hloop : untilEnd (result :: results) = result :: untilEnd results := by
        cases result <;> simp [untilEnd] at heof ⊢
      rw [hloop] at hwhole
      obtain ⟨bytes, rfl, hlength⟩ :=
        ReadResult.exists_of_count hR (hwhole result (List.mem_cons_self ..))
      rw [received_data] at hreceived ⊢
      -- what the call returned is the next record of the stream
      cases records with
      | nil =>
        have hnil := List.prefix_nil.mp hreceived
        rw [List.append_eq_nil_iff.mp hnil |>.1, List.length_nil] at hlength
        omega
      | cons record records =>
        rw [R.encodeAll_cons] at hreceived
        obtain ⟨rfl, hrest⟩ :=
          (List.prefix_append_inj_of_length_eq (hlength.trans (R.length_encode record).symm)).mp
            hreceived
        have hdeposit : deposit memory (.data (R.encode record)) = R.encode record :=
          deposit_of_length (hlength.trans hmemory.symm)
        rw [readLoop_data, hdeposit, R.decode_encode, List.length_append, hlength,
          Nat.add_div_left _ hR, List.take_succ_cons]
        exact congrArg _ (ih hlength (fun r hr => hwhole r (List.mem_cons_of_mem _ hr)) hrest)

/-! ### What is handled -/

variable {first : α} {records : List β} {results : List ReadResult}

/-- Of a stream that is received to its end all records are complete. -/
theorem wholeFirst_length (first : α) (rest : List UInt8) :
    wholeFirst H first (H.encode first ++ rest).length = some first := by
  rw [wholeFirst, if_pos (by simp)]

theorem wholeRecords_length (hR : 0 < R.size) (first : α) (records : List β) :
    wholeRecords H R records (H.encode first ++ R.encodeAll records).length = records := by
  rw [wholeRecords, List.length_append, H.length_encode, Nat.add_sub_cancel_left,
    R.length_encodeAll, Nat.mul_div_cancel_left _ hR, List.take_length]

/-- A first call that is whole has read the first record. -/
theorem Fragments.split {bytes : List UInt8}
    (h : Fragments H R first records (.data bytes :: results)) (hbytes : bytes.length = H.size) :
    bytes = H.encode first ∧ received results <+: R.encodeAll records :=
  (List.prefix_append_inj_of_length_eq (hbytes.trans (H.length_encode first).symm)).mp h.inOrder

/-- **The first record** that is handled is the one received as a whole, after every
call, if and only if the first call is whole. -/
theorem first_eq_iff (firstMemory memory : List UInt8) (hH : 0 < H.size)
    (hmemory : firstMemory.length = H.size)
    (h : Fragments H R first records results) :
    (∀ pre, pre <+: results →
      (readRecords H R firstMemory memory pre).1 = wholeFirst H first (received pre).length) ↔
      ∀ result ∈ results.head?, result.count = H.size := by
  constructor
  · intro hall result hresult
    obtain ⟨results, rfl⟩ := List.head?_eq_some_iff.mp hresult
    -- after the first call something has been handled
    have hone := hall [result] (List.prefix_append [result] results)
    have hle : H.size ≤ (received [result]).length := by
      by_contra hlt
      rw [wholeFirst, if_neg hlt] at hone
      exact absurd hone (by simp [readRecords])
    have hwithin := h.first result (by simp)
    cases result with
    | data bytes =>
      have hbytes : bytes.length ≤ H.size := hwithin.2
      rw [received_data, received_nil, List.append_nil] at hle
      rw [ReadResult.count]
      omega
    | eof => exact absurd hle (by simp [hH.ne'])
    | error => exact absurd hle (by simp [hH.ne'])
  · intro hwhole pre hpre
    cases pre with
    | nil => simp [readRecords, wholeFirst, hH.ne']
    | cons result pre =>
      obtain ⟨results, rfl, -⟩ := List.cons_prefix_iff.mp hpre
      obtain ⟨bytes, rfl, hbytes⟩ := ReadResult.exists_of_count hH (hwhole result (by simp))
      obtain ⟨rfl, -⟩ := h.split hbytes
      rw [readRecords, deposit_of_length (hbytes.trans hmemory.symm), H.decode_encode, wholeFirst,
        if_pos (by simp)]

/-- Where enough has been received for a record after every call of the loop, all calls
have been whole. -/
theorem Fragments.count_eq_of_length_le {call : ReadResult}
    (h : Fragments H R first records (call :: results)) (hR : 0 < R.size)
    (hle : R.size * (untilEnd results).length ≤
      (received (call :: untilEnd results)).length - H.size) :
    ∀ result ∈ untilEnd results, result.count = R.size ∧ call.count = H.size := by
  intro result hresult
  have hwithin : ∀ r ∈ untilEnd results, r.Within R.size :=
    fun r hr => h.later r ((untilEnd_prefix_self results).subset hr)
  have hsize := Nat.mul_pos hR (List.length_pos_of_mem hresult)
  cases call with
  | data bytes =>
    -- the first call returns at most a first record, so the loop has received the rest
    have hbytes : bytes.length ≤ H.size := (h.first (.data bytes) (by simp)).2
    have hreceived := length_received_le hwithin
    rw [received_data, List.length_append] at hle
    constructor
    · exact count_eq_of_length hR hwithin (by omega) result hresult
    · rw [ReadResult.count]
      omega
  | eof =>
    rw [received_eof, List.length_nil] at hle
    omega
  | error =>
    rw [received_error, List.length_nil] at hle
    omega

/-- Calls that are whole handle the records that are received as a whole. -/
theorem Fragments.records_eq {call : ReadResult} (firstMemory memory : List UInt8)
    (h : Fragments H R first records (call :: results)) (hH : 0 < H.size) (hR : 0 < R.size)
    (hmemory : memory.length = R.size)
    (hwhole : ∀ result ∈ untilEnd results, result.count = R.size ∧ call.count = H.size) :
    (readRecords H R firstMemory memory (call :: results)).2 =
      wholeRecords H R records (received (call :: results)).length := by
  rw [readRecords, wholeRecords]
  by_cases hloop : untilEnd results = []
  · -- no call of the loop has entered its body, and the first has not returned too much
    have hle : (received (call :: results)).length ≤ H.size := by
      cases call with
      | data bytes =>
        rw [received_data, received_eq_nil hloop, List.append_nil]
        exact (h.first (.data bytes) (by simp)).2
      | eof => simp
      | error => simp
    rw [readLoop_eq_nil hloop, Nat.sub_eq_zero_of_le hle, Nat.zero_div, List.take_zero]
  · obtain ⟨r, hr⟩ := List.exists_mem_of_ne_nil _ hloop
    obtain ⟨bytes, rfl, hbytes⟩ := ReadResult.exists_of_count hH (hwhole r hr).2
    obtain ⟨-, hreceived⟩ := h.split hbytes
    rw [readLoop_eq_take hR hmemory (fun r hr => (hwhole r hr).1) hreceived, received_data,
      List.length_append, hbytes, Nat.add_sub_cancel_left]

/-- **The records** that are handled are those received as a whole, after every call, if
and only if no call of the loop has entered its body, or all that have, and the first
call, are whole. -/
theorem records_eq_iff (firstMemory memory : List UInt8) (hH : 0 < H.size) (hR : 0 < R.size)
    (hmemory : memory.length = R.size) (h : Fragments H R first records results) :
    (∀ pre, pre <+: results →
      (readRecords H R firstMemory memory pre).2 =
        wholeRecords H R records (received pre).length) ↔
      ∀ result ∈ untilEnd results.tail, result.count = R.size ∧
        ∀ result ∈ results.head?, result.count = H.size := by
  cases results with
  | nil => simp [readRecords, wholeRecords, untilEnd]
  | cons call results =>
    simp only [List.tail_cons, List.head?_cons, Option.mem_some_iff, forall_eq']
    constructor
    · intro hall
      -- as soon as the last call has entered the body, there is a record for each of them
      have hlength := congrArg List.length
        (hall (call :: untilEnd results) (List.cons_prefix_cons.mpr ⟨rfl, untilEnd_prefix_self _⟩))
      rw [readRecords, length_readLoop, untilEnd_idem, wholeRecords, List.length_take] at hlength
      refine h.count_eq_of_length_le hR ?_
      rw [Nat.mul_comm, ← Nat.le_div_iff_mul_le hR]
      omega
    · intro hwhole pre hpre
      cases pre with
      | nil => simp [readRecords, wholeRecords]
      | cons call' pre =>
        obtain ⟨rfl, hrest⟩ := List.cons_prefix_cons.mp hpre
        exact (h.mono hpre).records_eq firstMemory memory hH hR hmemory
          fun r hr => hwhole r ((untilEnd_mono hrest).subset hr)

end Readers

end Framing
