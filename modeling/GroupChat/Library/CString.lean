import Mathlib.Data.List.TakeWhile
import Mathlib.Data.List.Basic

/-!
# C strings

The functions of `string.h` on a memory of bytes that has an end. A string is
what stands before the first NUL (`CString.text`); where the memory has no NUL,
a function that looks for one runs off its end and has no defined meaning, which
is `none` here (`CString.read`, `CString.strcmp`, `CString.strcpy`).
-/

namespace CString

/-- The bytes before the first NUL, or all of them. -/
def text (mem : List UInt8) : List UInt8 := mem.takeWhile (· ≠ 0)

/-- The string at the beginning of a memory. -/
def read (mem : List UInt8) : Option (List UInt8) :=
  if 0 ∈ mem then some (text mem) else none

/-- `strcmp`, on the memory behind its two arguments. -/
def strcmp : List UInt8 → List UInt8 → Option ℤ
  | a :: as, b :: bs =>
    if a = b then (if a = 0 then some 0 else strcmp as bs) else some ((a.toNat : ℤ) - b.toNat)
  | _, _ => none

/-- `strcpy` to the position `off` of a memory: the string with its NUL. -/
def strcpy {n : ℕ} (mem : Vector UInt8 n) (off : ℕ) (src : List UInt8) :
    Option (Vector UInt8 n) := do
  let s ← read src
  if h : off + (s.length + 1) ≤ n then
    return ⟨(mem.toList.take off ++ (s ++ 0 :: mem.toList.drop (off + (s.length + 1)))).toArray,
      by simp; omega⟩
  else none

variable {mem mem' s t : List UInt8} {off : ℕ}

theorem read_eq_some : read mem = some s ↔ 0 ∈ mem ∧ text mem = s := by
  unfold read
  split_ifs with h <;> simp [h]

theorem read_cons (b : UInt8) (mem : List UInt8) :
    read (b :: mem) = if b = 0 then some [] else (read mem).map (b :: ·) := by
  by_cases hb : b = 0
  · simp [read, text, hb]
  · by_cases hmem : (0 : UInt8) ∈ mem <;> simp [read, text, hb, hmem, Ne.symm hb]

/-- A string that ends within a memory is not changed by what comes after. -/
theorem read_append_of_mem (h : 0 ∈ mem) (post : List UInt8) :
    read (mem ++ post) = some (text mem) := by
  induction mem with
  | nil => simp at h
  | cons b mem ih =>
    rw [List.cons_append, read_cons]
    by_cases hb : b = 0
    · simp [hb, text]
    · rw [if_neg hb, ih ((List.mem_cons.mp h).resolve_left (Ne.symm hb))]
      simp [text, hb]

theorem not_mem_of_read (h : read mem = some s) : (0 : UInt8) ∉ s := by
  obtain ⟨-, rfl⟩ := read_eq_some.mp h
  intro hmem
  simpa using List.mem_takeWhile_imp hmem

/-- What is read is followed by its NUL. -/
theorem read_append_cons (h : (0 : UInt8) ∉ s) (post : List UInt8) :
    read (s ++ 0 :: post) = some s := by
  refine read_eq_some.mpr ⟨by simp, ?_⟩
  rw [text, List.takeWhile_append_of_pos fun b hb => by
    simpa using fun hb0 : b = 0 => h (hb0 ▸ hb)]
  simp

/-- The text of a memory with a NUL in it is shorter than the memory. -/
theorem length_text_lt (h : 0 ∈ mem) : (text mem).length < mem.length := by
  refine lt_of_le_of_ne (List.takeWhile_prefix _).length_le fun hlen => ?_
  have hall := (List.takeWhile_prefix (l := mem) (· ≠ (0 : UInt8))).eq_of_length hlen
  have := List.takeWhile_eq_self_iff.mp hall 0 h
  simp at this

/-- A string is read from as many bytes as it has, and its NUL. -/
theorem read_take {n : ℕ} (hs : read mem = some s) (hn : s.length < n) :
    read (mem.take n) = some s := by
  induction mem generalizing s n with
  | nil => simp [read] at hs
  | cons b mem ih =>
    obtain ⟨n, rfl⟩ := Nat.exists_eq_succ_of_ne_zero (Nat.ne_of_gt (Nat.zero_lt_of_lt hn))
    rw [List.take_succ_cons, read_cons]
    rw [read_cons] at hs
    by_cases hb : b = 0
    · rwa [if_pos hb] at hs ⊢
    · rw [if_neg hb, Option.map_eq_some_iff] at hs ⊢
      obtain ⟨s', hs', rfl⟩ := hs
      exact ⟨s', ih hs' (by simpa using hn), rfl⟩

/-- Memories that agree as far as a string goes have the same string. -/
theorem read_congr {n : ℕ} (h : mem'.take n = mem.take n) (hs : read mem = some s)
    (hn : s.length < n) : read mem' = some s := by
  have htake := read_take hs hn
  obtain ⟨hmem, htext⟩ := read_eq_some.mp (h ▸ htake)
  rw [← List.take_append_drop n mem', read_append_of_mem hmem, htext]

/-- **Comparison** of two strings: the result is zero on equal strings only. -/
theorem strcmp_of_read (hs : read mem = some s) (ht : read mem' = some t) :
    ∃ c, strcmp mem mem' = some c ∧ (c = 0 ↔ s = t) := by
  induction mem generalizing mem' s t with
  | nil => simp [read] at hs
  | cons a mem ih =>
    cases mem' with
    | nil => simp [read] at ht
    | cons b mem' =>
      rw [read_cons] at hs ht
      by_cases hab : a = b
      · subst hab
        by_cases ha : a = 0
        · simp only [ha, if_true, Option.some.injEq] at hs ht
          exact ⟨0, by simp [strcmp, ha], by simp [← hs, ← ht]⟩
        · rw [if_neg ha, Option.map_eq_some_iff] at hs ht
          obtain ⟨s', hs', rfl⟩ := hs
          obtain ⟨t', ht', rfl⟩ := ht
          obtain ⟨c, hc, hiff⟩ := ih hs' ht'
          exact ⟨c, by simp [strcmp, ha, hc], by simp [hiff]⟩
      · have hne : (a.toNat : ℤ) - b.toNat ≠ 0 := fun h =>
          hab (UInt8.toNat_inj.mp (by omega))
        refine ⟨_, by simp [strcmp, hab], iff_of_false hne ?_⟩
        -- at the first difference at most one of the two strings ends
        rintro rfl
        by_cases ha : a = 0
        · rw [if_pos ha, Option.some.injEq] at hs
          rw [if_neg (fun hb => hab (ha.trans hb.symm)), ← hs, Option.map_eq_some_iff] at ht
          obtain ⟨_, -, h⟩ := ht
          exact absurd h (by simp)
        · rw [if_neg ha, Option.map_eq_some_iff] at hs
          obtain ⟨s', -, rfl⟩ := hs
          by_cases hb : b = 0
          · rw [if_pos hb] at ht
            simp at ht
          · rw [if_neg hb, Option.map_eq_some_iff] at ht
            obtain ⟨t', -, h⟩ := ht
            exact hab (List.cons.inj h).1.symm

/-! ### Copying -/

/-- **Copying** a string into a memory that has room for it. -/
theorem strcpy_of_read {n : ℕ} (dst : Vector UInt8 n) (off : ℕ) (hs : read mem = some s)
    (h : off + (s.length + 1) ≤ n) :
    ∃ dst', strcpy dst off mem = some dst' ∧ read (dst'.toList.drop off) = some s ∧
      ∀ i, (i < off ∨ off + (s.length + 1) ≤ i) → dst'.toList[i]? = dst.toList[i]? := by
  have hlen : dst.toList.length = n := dst.length_toList
  have htake : (dst.toList.take off).length = off := List.length_take_of_le (by omega)
  refine ⟨_, by simp only [strcpy, hs, Option.bind_eq_bind, Option.bind_some, dif_pos h]; rfl,
    ?_, ?_⟩
  · rw [Vector.toList_mk, List.toList_toArray, List.drop_append_of_le_length (by omega),
      List.drop_of_length_le (by omega), List.nil_append]
    exact read_append_cons (not_mem_of_read hs) _
  · intro i hi
    rw [Vector.toList_mk, List.toList_toArray]
    rcases hi with hi | hi
    · rw [List.getElem?_append_left (by omega), List.getElem?_take_of_lt hi]
    · rw [List.getElem?_append_right (by omega), List.getElem?_append_right (by omega), htake,
        show i - off - s.length = (i - (off + (s.length + 1))) + 1 by omega,
        List.getElem?_cons_succ, List.getElem?_drop]
      congr 1
      omega

/-- Bytes and a NUL, written to the position `off` of a memory that has room for them. -/
def put {n : ℕ} (mem : Vector UInt8 n) (off : ℕ) (s : List UInt8) : Option (Vector UInt8 n) :=
  if h : off + (s.length + 1) ≤ n then
    some ⟨(mem.toList.take off ++ (s ++ 0 :: mem.toList.drop (off + (s.length + 1)))).toArray,
      by simp; omega⟩
  else none

theorem strcpy_eq_put {n : ℕ} (dst : Vector UInt8 n) (off : ℕ) (hs : read mem = some s) :
    strcpy dst off mem = put dst off s := by
  simp only [strcpy, hs, Option.bind_eq_bind, Option.bind_some]
  rfl

/-- **Where bytes are put** they stand, with their NUL, and nothing else has changed. -/
theorem put_spec {n : ℕ} {dst dst' : Vector UInt8 n} (h : put dst off s = some dst') :
    off + (s.length + 1) ≤ n ∧
      dst'.toList = dst.toList.take off ++ (s ++ 0 :: dst.toList.drop (off + (s.length + 1))) := by
  unfold put at h
  split_ifs at h with hle
  obtain rfl := Option.some.inj h
  exact ⟨hle, List.toList_toArray⟩

/-- A string put at the start is what is read there. -/
theorem read_of_put {n : ℕ} {dst dst' : Vector UInt8 n} (h : put dst 0 s = some dst')
    (hs : (0 : UInt8) ∉ s) : read dst'.toList = some s := by
  obtain ⟨-, heq⟩ := put_spec h
  rw [heq, List.take_zero, List.nil_append]
  exact read_append_cons hs _

/-- Bytes put at the start stand there, followed by a NUL. -/
theorem take_of_put {n : ℕ} {dst dst' : Vector UInt8 n} (h : put dst 0 s = some dst') :
    dst'.toList.take (s.length + 1) = s ++ [0] := by
  obtain ⟨-, heq⟩ := put_spec h
  rw [heq, List.take_zero, List.nil_append, show s ++ 0 :: dst.toList.drop (0 + (s.length + 1)) =
    (s ++ [0]) ++ dst.toList.drop (0 + (s.length + 1)) by simp, List.take_left' (by simp)]

end CString
