import GroupChat.Library.TwoPlaces
import GroupChat.Messages
import Mathlib.Algebra.Order.Floor.Ring
import Mathlib.Data.Rat.Floor

/-!
# The clock

`ntp.h`: the two offsets, `getTime()`, which corrects a reading of `gettimeofday` by
them, and the computation with which `runNTP` sets them from an NTP reply; and the
expression in which server and client compute a delay from two results of `getTime()`.

Times are compared as numbers of microseconds (`GroupChat.Timeval.total`).
`GroupChat.getTime` is exact in that measure (`GroupChat.getTime_spec`), it is defined
as soon as its three sums fit a `long` (`GroupChat.getTime_eq`), and it is monotone in
the reading. A delay is the difference of two totals as long as that difference stays
a carry's width away from the limits of a `long` (`GroupChat.delay_eq`), and in
wrapping arithmetic it is the difference modulo `2 ^ 64` whatever they are
(`GroupChat.wrappingDelay_eq`).
-/

namespace GroupChat

open CInt

/-! ### Readings and offsets -/

/-- A time as a number of microseconds. -/
def Timeval.total (t : Timeval) : ℤ := TwoPlaces.total 1000000 t.tv_sec.toInt t.tv_usec.toInt

/-- The microseconds of `gettimeofday` are less than a second. -/
def Timeval.Normalized (t : Timeval) : Prop := 0 ≤ t.tv_usec.toInt ∧ t.tv_usec.toInt < 1000000

instance (t : Timeval) : Decidable t.Normalized := inferInstanceAs (Decidable (_ ∧ _))

/-- The globals `secondOffset` and `usecondOffset`. -/
structure Offsets where
  secondOffset : Int64
  usecondOffset : Int64
deriving DecidableEq, Repr

/-- Both offsets as a number of microseconds. -/
def Offsets.total (o : Offsets) : ℤ :=
  TwoPlaces.total 1000000 o.secondOffset.toInt o.usecondOffset.toInt

/-- A time from the values of two `long`s. -/
def Timeval.ofInts (sec usec : ℤ) : Timeval := ⟨Int64.ofInt sec, Int64.ofInt usec⟩

/-- `getTime()`, from what `gettimeofday` stores in `timestamp`. -/
def getTime (o : Offsets) (timestamp : Timeval) : Option Timeval := do
  let seconds ← add longBits timestamp.tv_sec.toInt o.secondOffset.toInt
  let microseconds ← add longBits timestamp.tv_usec.toInt o.usecondOffset.toInt
  let (seconds, microseconds) ← TwoPlaces.borrow longBits 1000000 seconds microseconds
  let (seconds, microseconds) ← TwoPlaces.carry longBits 1000000 seconds microseconds
  some (Timeval.ofInts seconds microseconds)

/-- Where the sums of a reading and the offsets are values of a `long`. -/
structure SumsFit (o : Offsets) (t : Timeval) : Prop where
  seconds : Fits longBits (t.tv_sec.toInt + o.secondOffset.toInt)
  microseconds : Fits longBits (t.tv_usec.toInt + o.usecondOffset.toInt)

instance (o : Offsets) (t : Timeval) : Decidable (SumsFit o t) :=
  decidable_of_iff (_ ∧ _) ⟨fun h => ⟨h.1, h.2⟩, fun h => ⟨h.1, h.2⟩⟩

/-- Where the seconds still are one after the carry. -/
def CarryFits (o : Offsets) (t : Timeval) : Prop :=
  Fits longBits (t.tv_sec.toInt + o.secondOffset.toInt +
    (t.tv_usec.toInt + o.usecondOffset.toInt) / 1000000)

instance (o : Offsets) (t : Timeval) : Decidable (CarryFits o t) :=
  inferInstanceAs (Decidable (Fits _ _))

/-! ### `getTime` is exact -/

theorem toInt_ofInt_of_fits {x : ℤ} (h : Fits longBits x) : (Int64.ofInt x).toInt = x :=
  Int64.toInt_ofInt_of_le h.1 h.2

theorem fits_microseconds {x : ℤ} (h : 0 ≤ x ∧ x < 1000000) : Fits longBits x := by
  constructor
  · exact le_trans (by norm_num) h.1
  · exact lt_trans h.2 (by norm_num)

/-- The second part of `getTime`, when the two sums fit. -/
theorem getTime_eq_normalize {o : Offsets} {t : Timeval} (h : SumsFit o t) :
    getTime o t = (TwoPlaces.normalize longBits 1000000 (t.tv_sec.toInt + o.secondOffset.toInt)
      (t.tv_usec.toInt + o.usecondOffset.toInt)).map fun p => Timeval.ofInts p.1 p.2 := by
  rw [getTime, add_eq_some h.seconds, add_eq_some h.microseconds, TwoPlaces.normalize,
    Option.map_bind]
  simp only [Option.bind_eq_bind, Option.bind_some]
  congr 1
  funext p
  rw [Function.comp_apply, Option.map_eq_bind]
  rfl

/-- **`getTime`, when the two sums fit**: it is defined where the carry fits. -/
theorem getTime_eq {o : Offsets} {t : Timeval} (h : SumsFit o t) :
    getTime o t =
      if CarryFits o t then
        some (Timeval.ofInts (t.tv_sec.toInt + o.secondOffset.toInt +
          (t.tv_usec.toInt + o.usecondOffset.toInt) / 1000000)
          ((t.tv_usec.toInt + o.usecondOffset.toInt) % 1000000))
      else none := by
  rw [getTime_eq_normalize h, TwoPlaces.normalize_eq (by decide) h.seconds h.microseconds]
  rw [show ((1000000 : ℕ) : ℤ) = 1000000 from rfl]
  by_cases hcarry : CarryFits o t
  · rw [if_pos hcarry, if_pos (show Fits _ _ from hcarry)]
    rfl
  · rw [if_neg hcarry, if_neg (show ¬Fits _ _ from hcarry)]
    rfl

/-- What `getTime` takes to be defined. -/
theorem sumsFit_of_getTime {o : Offsets} {t r : Timeval} (h : getTime o t = some r) :
    SumsFit o t ∧ CarryFits o t := by
  have hsums : SumsFit o t := by
    unfold getTime at h
    obtain ⟨seconds, hsec, h⟩ := Option.bind_eq_some_iff.mp h
    obtain ⟨microseconds, husec, -⟩ := Option.bind_eq_some_iff.mp h
    exact ⟨(checked_eq_some_iff.mp hsec).1, (checked_eq_some_iff.mp husec).1⟩
  rw [getTime_eq hsums] at h
  split_ifs at h with hcarry
  exact ⟨hsums, hcarry⟩

/-- **`getTime` is exact**: what it returns is normalized and has the total of the
reading and the offsets. -/
theorem getTime_spec {o : Offsets} {t r : Timeval} (h : getTime o t = some r) :
    r.Normalized ∧ r.total = t.total + o.total := by
  obtain ⟨hsums, hcarry⟩ := sumsFit_of_getTime h
  rw [getTime_eq hsums, if_pos hcarry, Option.some.injEq] at h
  subst h
  have hrange : 0 ≤ (t.tv_usec.toInt + o.usecondOffset.toInt) % 1000000 ∧
      (t.tv_usec.toInt + o.usecondOffset.toInt) % 1000000 < 1000000 :=
    ⟨Int.emod_nonneg _ (by norm_num), Int.emod_lt_of_pos _ (by norm_num)⟩
  have hsec := toInt_ofInt_of_fits hcarry
  have husec := toInt_ofInt_of_fits (fits_microseconds hrange)
  constructor
  · rwa [Timeval.Normalized, Timeval.ofInts, husec]
  · have htotal := TwoPlaces.total_ediv_emod 1000000 (t.tv_sec.toInt + o.secondOffset.toInt)
      (t.tv_usec.toInt + o.usecondOffset.toInt)
    rw [Timeval.total, Timeval.ofInts, hsec, husec]
    refine htotal.trans ?_
    rw [Timeval.total, Offsets.total, TwoPlaces.total, TwoPlaces.total, TwoPlaces.total]
    ring

/-- A normalized time is determined by its total. -/
theorem Timeval.eq_of_total_eq {t u : Timeval} (ht : t.Normalized) (hu : u.Normalized)
    (h : t.total = u.total) : t = u := by
  obtain ⟨hsec, husec⟩ := TwoPlaces.eq_of_total_eq h ht hu
  obtain ⟨_, _⟩ := t
  obtain ⟨_, _⟩ := u
  rw [Timeval.mk.injEq]
  exact ⟨Int64.toInt_inj.mp hsec, Int64.toInt_inj.mp husec⟩

/-! ### The delay -/

/-- The delay expression of `messageDeliver` and of the client's receiver, lines 274
and 176: a `long`, converted to `unsigned long`. -/
def delay (exitTime insertTime : Timeval) : Option UInt64 := do
  let seconds ← sub longBits exitTime.tv_sec.toInt insertTime.tv_sec.toInt
  let product ← mul longBits seconds 1000000
  let sum ← add longBits product exitTime.tv_usec.toInt
  let difference ← sub longBits sum insertTime.tv_usec.toInt
  some (UInt64.ofInt difference)

/-- The same expression where overflow wraps around, as the machine's instructions
evaluate it. -/
def wrappingDelay (exitTime insertTime : Timeval) : UInt64 :=
  ((exitTime.tv_sec - insertTime.tv_sec) * 1000000 + exitTime.tv_usec
    - insertTime.tv_usec).toUInt64

theorem toNat_ofInt (x : ℤ) : ((UInt64.ofInt x).toNat : ℤ) = x % 2 ^ 64 := by
  have hnonneg : 0 ≤ x % 2 ^ 64 := Int.emod_nonneg x (by norm_num)
  have hlt : x % 2 ^ 64 < 2 ^ 64 := Int.emod_lt_of_pos x (by norm_num)
  rw [UInt64.ofInt, UInt64.toNat_ofNat_of_lt' ((Int.toNat_lt hnonneg).mpr hlt),
    Int.toNat_of_nonneg hnonneg]

theorem toUInt64_ofInt (x : ℤ) : (Int64.ofInt x).toUInt64 = UInt64.ofInt x := by
  rw [← UInt64.toNat_inj]
  have hleft : (Int64.ofInt x).toUInt64.toNat = (BitVec.ofInt 64 x).toNat := rfl
  have hright := toNat_ofInt x
  rw [hleft, BitVec.toNat_ofInt]
  omega

theorem total_sub_total (a b : Timeval) : a.total - b.total =
    (a.tv_sec.toInt - b.tv_sec.toInt) * 1000000 + a.tv_usec.toInt - b.tv_usec.toInt := by
  rw [Timeval.total, Timeval.total, TwoPlaces.total, TwoPlaces.total]
  push_cast
  ring

/-- **In wrapping arithmetic** the expression is the difference of the two times,
modulo `2 ^ 64`, whatever the times are. -/
theorem wrappingDelay_eq (a b : Timeval) :
    wrappingDelay a b = UInt64.ofInt (a.total - b.total) := by
  rw [← toUInt64_ofInt, total_sub_total, Int64.ofInt_sub, Int64.ofInt_add, Int64.ofInt_mul,
    Int64.ofInt_sub, Int64.ofInt_toInt, Int64.ofInt_toInt, Int64.ofInt_toInt, Int64.ofInt_toInt]
  rfl

/-- Where the expression is defined, the difference is a value of a `long`, and the
result is the wrapped one. -/
theorem fits_of_delay {a b : Timeval} {d : UInt64} (h : delay a b = some d) :
    Fits longBits (a.total - b.total) ∧ d = wrappingDelay a b := by
  unfold delay at h
  obtain ⟨_, hseconds, h⟩ := Option.bind_eq_some_iff.mp h
  obtain ⟨_, hproduct, h⟩ := Option.bind_eq_some_iff.mp h
  obtain ⟨_, hsum, h⟩ := Option.bind_eq_some_iff.mp h
  obtain ⟨_, hdifference, h⟩ := Option.bind_eq_some_iff.mp h
  obtain ⟨-, rfl⟩ := checked_eq_some_iff.mp hseconds
  obtain ⟨-, rfl⟩ := checked_eq_some_iff.mp hproduct
  obtain ⟨-, rfl⟩ := checked_eq_some_iff.mp hsum
  obtain ⟨hfits, rfl⟩ := checked_eq_some_iff.mp hdifference
  rw [wrappingDelay_eq, ← Option.some.inj h, total_sub_total]
  exact ⟨hfits, rfl⟩

/-- **A delay that is not negative is exact**, where the expression is defined. -/
theorem toNat_delay {a b : Timeval} {d : UInt64} (h : delay a b = some d)
    (hle : b.total ≤ a.total) : (d.toNat : ℤ) = a.total - b.total := by
  obtain ⟨hfits, rfl⟩ := fits_of_delay h
  rw [wrappingDelay_eq, toNat_ofInt]
  exact Int.emod_eq_of_lt (sub_nonneg.mpr hle) (hfits.2.trans (by norm_num))

/-- **Nothing overflows** while the difference stays a second away from the limits. -/
theorem delay_eq {a b : Timeval} (ha : a.Normalized) (hb : b.Normalized)
    (h : |a.total - b.total| + 1000000 ≤ 2 ^ 63) : delay a b = some (wrappingDelay a b) := by
  obtain ⟨ha0, ha1⟩ := ha
  obtain ⟨hb0, hb1⟩ := hb
  obtain ⟨hlo, hhi⟩ := abs_le.mp (le_sub_iff_add_le.mpr h)
  have hfits : ∀ {x : ℤ}, -9223372036854775808 ≤ x → x < 9223372036854775808 →
      Fits longBits x := fun h h' => ⟨h, h'⟩
  rw [total_sub_total] at hlo hhi
  norm_num at hlo hhi
  rw [delay, sub_eq_some (hfits (by omega) (by omega)), Option.bind_eq_bind, Option.bind_some,
    mul_eq_some (hfits (by omega) (by omega)), Option.bind_some,
    add_eq_some (hfits (by omega) (by omega)), Option.bind_some,
    sub_eq_some (hfits (by omega) (by omega)), Option.bind_some, wrappingDelay_eq,
    total_sub_total]

/-- **The clock is exact**: two readings whose sums and carries fit give two normalized
times with the totals of the readings and the offsets, and the delay expression gives
their difference modulo `2 ^ 64`, from which equal offsets cancel. It is undefined
only where a difference comes within a second of the limits of a `long`. -/
theorem getTime_delay_exact {o₁ o₂ : Offsets} {t₁ t₂ : Timeval} (h₁ : SumsFit o₁ t₁)
    (h₂ : SumsFit o₂ t₂) (hcarry₁ : CarryFits o₁ t₁) (hcarry₂ : CarryFits o₂ t₂) :
    ∃ r₁ r₂, getTime o₁ t₁ = some r₁ ∧ getTime o₂ t₂ = some r₂ ∧
      (r₁.Normalized ∧ r₁.tv_sec.toInt * 1000000 + r₁.tv_usec.toInt =
        (t₁.tv_sec.toInt + o₁.secondOffset.toInt) * 1000000 +
          (t₁.tv_usec.toInt + o₁.usecondOffset.toInt)) ∧
      (r₂.Normalized ∧ r₂.tv_sec.toInt * 1000000 + r₂.tv_usec.toInt =
        (t₂.tv_sec.toInt + o₂.secondOffset.toInt) * 1000000 +
          (t₂.tv_usec.toInt + o₂.usecondOffset.toInt)) ∧
      ((wrappingDelay r₁ r₂).toNat : ℤ) =
        ((t₁.total - t₂.total) + (o₁.total - o₂.total)) % 2 ^ 64 ∧
      (o₁ = o₂ → ((wrappingDelay r₁ r₂).toNat : ℤ) = (t₁.total - t₂.total) % 2 ^ 64) ∧
      (∀ d, delay r₁ r₂ = some d → d = wrappingDelay r₁ r₂) ∧
      (|(t₁.total - t₂.total) + (o₁.total - o₂.total)| + 1000000 ≤ 2 ^ 63 →
        delay r₁ r₂ = some (wrappingDelay r₁ r₂)) := by
  obtain ⟨r₁, hr₁⟩ : ∃ r₁, getTime o₁ t₁ = some r₁ := ⟨_, by rw [getTime_eq h₁, if_pos hcarry₁]⟩
  obtain ⟨r₂, hr₂⟩ : ∃ r₂, getTime o₂ t₂ = some r₂ := ⟨_, by rw [getTime_eq h₂, if_pos hcarry₂]⟩
  obtain ⟨hnorm₁, htotal₁⟩ := getTime_spec hr₁
  obtain ⟨hnorm₂, htotal₂⟩ := getTime_spec hr₂
  have hdiff : r₁.total - r₂.total = (t₁.total - t₂.total) + (o₁.total - o₂.total) := by
    rw [htotal₁, htotal₂]
    ring
  have hvalue : ((wrappingDelay r₁ r₂).toNat : ℤ) =
      ((t₁.total - t₂.total) + (o₁.total - o₂.total)) % 2 ^ 64 := by
    rw [wrappingDelay_eq, toNat_ofInt, hdiff]
  refine ⟨r₁, r₂, hr₁, hr₂, ⟨hnorm₁, ?_⟩, ⟨hnorm₂, ?_⟩, hvalue, ?_, ?_, ?_⟩
  · rw [Timeval.total, Timeval.total, Offsets.total, TwoPlaces.total, TwoPlaces.total,
      TwoPlaces.total] at htotal₁
    push_cast at htotal₁
    linarith
  · rw [Timeval.total, Timeval.total, Offsets.total, TwoPlaces.total, TwoPlaces.total,
      TwoPlaces.total] at htotal₂
    push_cast at htotal₂
    linarith
  · rintro rfl
    rw [hvalue, sub_self, add_zero]
  · exact fun d hd => (fits_of_delay hd).2
  · intro hle
    exact delay_eq hnorm₁ hnorm₂ (by rwa [hdiff])

/-- A second reading a second after the first, under offsets that borrow. -/
theorem getTime_delay_exact_borrow :
    ∃ r₁ r₂, getTime ⟨-1, -5⟩ ⟨8, 3⟩ = some r₁ ∧ getTime ⟨2, 999999⟩ ⟨7, 3⟩ = some r₂ ∧
      ((wrappingDelay r₁ r₂).toNat : ℤ) = -3000004 % 2 ^ 64 := by
  obtain ⟨r₁, r₂, h₁, h₂, -, -, hdelay, -⟩ :=
    @getTime_delay_exact ⟨-1, -5⟩ ⟨2, 999999⟩ ⟨8, 3⟩ ⟨7, 3⟩ (by decide) (by decide) (by decide)
      (by decide)
  refine ⟨r₁, r₂, h₁, h₂, ?_⟩
  rw [hdelay]
  decide

/-- **The carry may leave the type**: here both sums fit a `long`, and the seconds have
no successor. And two times may be too far apart for a difference. -/
theorem getTime_overflow :
    (Timeval.Normalized ⟨9223372036854775807, 999999⟩ ∧
        SumsFit ⟨0, 1⟩ ⟨9223372036854775807, 999999⟩) ∧
      getTime ⟨0, 1⟩ ⟨9223372036854775807, 999999⟩ = none ∧
      getTime ⟨0, 0⟩ ⟨4611686018427387904, 0⟩ = some ⟨4611686018427387904, 0⟩ ∧
      getTime ⟨0, 0⟩ ⟨-4611686018427387904, 0⟩ = some ⟨-4611686018427387904, 0⟩ ∧
      delay ⟨4611686018427387904, 0⟩ ⟨-4611686018427387904, 0⟩ = none := by
  refine ⟨by decide, ?_, ?_, ?_, by decide⟩
  · rw [getTime_eq (by decide)]
    decide
  · rw [getTime_eq (by decide)]
    decide
  · rw [getTime_eq (by decide)]
    decide

end GroupChat
