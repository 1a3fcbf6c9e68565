import Mathlib.Algebra.Order.Group.Nat
import Mathlib.Data.List.Basic
import Mathlib.Tactic.Common
import Mathlib.Tactic.Ring

/-!
# Records as bytes

The bytes of a C struct on a little-endian machine: integer fields by their
digits to base `256`, least significant first (`ByteLayout.lowBytes`), arrays
of characters as they stand, fields one after the other. A
`ByteLayout.RecordCodec` packages a record type with its size and the two
directions of the translation, and carries the proof that a record survives the
trip.
-/

namespace ByteLayout

/-! ### Integers -/

/-- The `k` lowest digits of `n` to base `256`, least significant first. -/
def lowBytes : ℕ → ℕ → List UInt8
  | 0, _ => []
  | k + 1, n => UInt8.ofNat n :: lowBytes k (n / 256)

/-- The number whose digits to base `256` are the given bytes. -/
def ofBytes : List UInt8 → ℕ
  | [] => 0
  | b :: bs => b.toNat + 256 * ofBytes bs

@[simp] theorem length_lowBytes (k n : ℕ) : (lowBytes k n).length = k := by
  induction k generalizing n with
  | zero => rfl
  | succ k ih => simp [lowBytes, ih]

theorem ofBytes_lowBytes {k n : ℕ} (h : n < 256 ^ k) : ofBytes (lowBytes k n) = n := by
  induction k generalizing n with
  | zero => exact (Nat.lt_one_iff.mp h).symm
  | succ k ih =>
    have hdiv : n / 256 < 256 ^ k := by
      rw [Nat.div_lt_iff_lt_mul (by omega)]
      rwa [pow_succ] at h
    rw [lowBytes, ofBytes, ih hdiv, UInt8.toNat_ofNat']
    omega

theorem ofBytes_lt (bs : List UInt8) : ofBytes bs < 256 ^ bs.length := by
  induction bs with
  | nil => decide
  | cons b bs ih =>
    have hb : b.toNat < 256 := b.toNat_lt
    rw [ofBytes, List.length_cons, pow_succ]
    omega

theorem lowBytes_ofBytes (bs : List UInt8) : lowBytes bs.length (ofBytes bs) = bs := by
  induction bs with
  | nil => rfl
  | cons b bs ih =>
    have hb : b.toNat < 256 := b.toNat_lt
    have hlow : UInt8.ofNat (b.toNat + 256 * ofBytes bs) = b := by
      rw [← UInt8.toNat_inj, UInt8.toNat_ofNat']
      omega
    rw [List.length_cons, ofBytes, lowBytes, hlow, Nat.add_mul_div_left _ _ (by norm_num),
      Nat.div_eq_of_lt hb, zero_add, ih]

/-- The four bytes of an `int`. -/
def encodeInt (x : Int32) : List UInt8 := lowBytes 4 x.toUInt32.toNat

/-- The `int` of four bytes. -/
def decodeInt (bs : List UInt8) : Int32 := (UInt32.ofNat (ofBytes bs)).toInt32

/-- The eight bytes of a `long`. -/
def encodeLong (x : Int64) : List UInt8 := lowBytes 8 x.toUInt64.toNat

/-- The `long` of eight bytes. -/
def decodeLong (bs : List UInt8) : Int64 := (UInt64.ofNat (ofBytes bs)).toInt64

@[simp] theorem length_encodeInt (x : Int32) : (encodeInt x).length = 4 := length_lowBytes 4 _

@[simp] theorem length_encodeLong (x : Int64) : (encodeLong x).length = 8 := length_lowBytes 8 _

@[simp] theorem decodeInt_encodeInt (x : Int32) : decodeInt (encodeInt x) = x := by
  have h : x.toUInt32.toNat < 256 ^ 4 := x.toUInt32.toNat_lt
  rw [decodeInt, encodeInt, ofBytes_lowBytes h, UInt32.ofNat_toNat, Int32.toInt32_toUInt32]

@[simp] theorem decodeLong_encodeLong (x : Int64) : decodeLong (encodeLong x) = x := by
  have h : x.toUInt64.toNat < 256 ^ 8 := x.toUInt64.toNat_lt
  rw [decodeLong, encodeLong, ofBytes_lowBytes h, UInt64.ofNat_toNat, Int64.toInt64_toUInt64]

/-! ### Fields -/

/-- The `n` bytes of a record from offset `off` on. -/
def field (bs : List UInt8) (off n : ℕ) : List UInt8 := (bs.drop off).take n

/-- A field lies behind the bytes in front of it and before those after it. -/
theorem field_append {off n : ℕ} {pre mid post : List UInt8} (hpre : pre.length = off)
    (hmid : mid.length = n) : field (pre ++ (mid ++ post)) off n = mid := by
  rw [field, List.drop_left' hpre, List.take_left' hmid]

/-- A field of characters; bytes the record does not have read as `0`. -/
def chars (bs : List UInt8) (off n : ℕ) : Vector UInt8 n :=
  Vector.ofFn fun i => (field bs off n).getD i 0

theorem chars_append {off n : ℕ} {pre post : List UInt8} {v : Vector UInt8 n}
    (hpre : pre.length = off) : chars (pre ++ (v.toList ++ post)) off n = v := by
  ext i hi
  rw [chars, Vector.getElem_ofFn, field_append hpre (by simp)]
  simp [hi]

/-- The characters of a field that a record has are its bytes. -/
theorem toList_chars {bs : List UInt8} {off n : ℕ} (h : off + n ≤ bs.length) :
    (chars bs off n).toList = field bs off n := by
  have hlen : (field bs off n).length = n := by
    rw [field, List.length_take, List.length_drop]
    omega
  refine List.ext_getElem (by simp [hlen]) fun i hi hi' => ?_
  simp [chars, hi']

/-! ### Codecs -/

/-- A record type with its size in bytes and its translation to and from bytes. -/
structure RecordCodec (α : Type*) where
  /-- The size of the record. -/
  size : ℕ
  /-- The bytes of a record. -/
  encode : α → List UInt8
  /-- The record in the given bytes. -/
  decode : List UInt8 → α
  /-- Every record takes up its size. -/
  length_encode : ∀ a, (encode a).length = size
  /-- A record survives the trip. -/
  decode_encode : ∀ a, decode (encode a) = a

namespace RecordCodec

attribute [simp] length_encode decode_encode

variable {α : Type*} (C : RecordCodec α)

/-- The bytes of a list of records, one after the other. -/
def encodeAll (as : List α) : List UInt8 := as.flatMap C.encode

@[simp] theorem encodeAll_nil : C.encodeAll [] = [] := rfl

@[simp] theorem encodeAll_cons (a : α) (as : List α) :
    C.encodeAll (a :: as) = C.encode a ++ C.encodeAll as := rfl

@[simp] theorem encodeAll_append (as bs : List α) :
    C.encodeAll (as ++ bs) = C.encodeAll as ++ C.encodeAll bs := List.flatMap_append

@[simp] theorem length_encodeAll (as : List α) :
    (C.encodeAll as).length = C.size * as.length := by
  induction as with
  | nil => rfl
  | cons a as ih =>
    rw [encodeAll_cons, List.length_append, ih, C.length_encode, List.length_cons]
    ring

/-- The first record of a stream is read from its first bytes. -/
theorem take_encode_append (a : α) (rest : List UInt8) :
    (C.encode a ++ rest).take C.size = C.encode a := by
  rw [← C.length_encode a, List.take_left]

theorem drop_encode_append (a : α) (rest : List UInt8) :
    (C.encode a ++ rest).drop C.size = rest := by
  rw [← C.length_encode a, List.drop_left]

variable {C}

/-- Different records have different bytes. -/
theorem encode_inj {a b : α} : C.encode a = C.encode b ↔ a = b := by
  refine ⟨fun h => ?_, congrArg _⟩
  rw [← C.decode_encode a, h, C.decode_encode]

/-- Records that begin with the same bytes are the same, and so is what follows. -/
theorem encode_append_prefix {a b : α} {xs ys : List UInt8}
    (h : C.encode a ++ xs <+: C.encode b ++ ys) : a = b ∧ xs <+: ys := by
  obtain ⟨rest, hrest⟩ := h
  rw [List.append_assoc] at hrest
  obtain ⟨hfirst, hlater⟩ := List.append_inj hrest (by simp)
  exact ⟨encode_inj.mp hfirst, rest, hlater⟩

/-- **The boundaries of records**: records and bytes at the start of a stream of records are
its first records, and bytes of the others. -/
theorem exists_of_encodeAll_prefix (hsize : 0 < C.size) {as bs : List α} {bytes : List UInt8}
    (h : C.encodeAll as ++ bytes <+: C.encodeAll bs) :
    ∃ cs, bs = as ++ cs ∧ bytes <+: C.encodeAll cs := by
  induction as generalizing bs with
  | nil => exact ⟨bs, rfl, h⟩
  | cons a as ih =>
    cases bs with
    | nil =>
      have hlen := h.length_le
      simp only [encodeAll_cons, encodeAll_nil, List.length_append, C.length_encode,
        List.length_nil] at hlen
      omega
    | cons b bs =>
      rw [encodeAll_cons, encodeAll_cons, List.append_assoc] at h
      obtain ⟨rfl, hrest⟩ := encode_append_prefix h
      obtain ⟨cs, rfl, hbytes⟩ := ih hrest
      exact ⟨cs, rfl, hbytes⟩

/-- Records whose bytes come first are the first ones. -/
theorem prefix_of_encodeAll_prefix (hsize : 0 < C.size) {as bs : List α}
    (h : C.encodeAll as <+: C.encodeAll bs) : as <+: bs := by
  rw [← List.append_nil (C.encodeAll as)] at h
  obtain ⟨cs, rfl, -⟩ := exists_of_encodeAll_prefix hsize h
  exact List.prefix_append as cs

/-- Records have been told apart if their bytes have. -/
theorem encodeAll_inj (hsize : 0 < C.size) {as bs : List α}
    (h : C.encodeAll as = C.encodeAll bs) : as = bs := by
  have hleft : as <+: bs := prefix_of_encodeAll_prefix hsize (h ▸ List.prefix_refl _)
  have hright : bs <+: as := prefix_of_encodeAll_prefix hsize (h ▸ List.prefix_refl _)
  exact hleft.eq_of_length_le hright.length_le

/-- **The next record**: as many bytes as a record has, behind records at the start of a
stream of records, are those of the next one. -/
theorem exists_next (hsize : 0 < C.size) {as bs : List α} {bytes : List UInt8}
    (hbytes : bytes.length = C.size) (h : C.encodeAll as ++ bytes <+: C.encodeAll bs) :
    ∃ b, bytes = C.encode b ∧ as ++ [b] <+: bs := by
  obtain ⟨cs, rfl, hcs⟩ := exists_of_encodeAll_prefix hsize h
  cases cs with
  | nil =>
    have hlen := hcs.length_le
    rw [encodeAll_nil, List.length_nil] at hlen
    omega
  | cons b cs =>
    obtain ⟨rest, hrest⟩ := hcs
    obtain ⟨rfl, -⟩ := List.append_inj hrest (by rw [hbytes, C.length_encode])
    exact ⟨b, rfl, cs, by simp⟩

end RecordCodec

end ByteLayout
