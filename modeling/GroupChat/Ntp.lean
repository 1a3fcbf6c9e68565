import GroupChat.Clock

/-!
# Setting the clock

`runNTP`, lines 181 to 199 of `ntp.h`: what an NTP reply and a reading of the local
clock make of the two offsets. The transmit time-stamp of a reply is a fixed-point
number, seconds since 1900 and a fraction in units of `2 ^ (-32)` seconds.

The program converts the fraction with the factor `10 ^ 6 / 2 ^ 31`, which is twice
the number of microseconds in a unit. The fraction it takes is therefore worth up to
two seconds (`GroupChat.runNTP_getTime`), and right only where there is nothing to
double (`GroupChat.runNTP_exact_iff`).
-/

namespace GroupChat

open CInt ByteLayout

/-- The transmit time-stamp of `ntp_packet`, in network byte order as `read` stores it. -/
structure NtpPacket where
  /-- Seconds since 1900. -/
  txTm_s : UInt32
  /-- Fraction of a second. -/
  txTm_f : UInt32
deriving DecidableEq

/-- `NTP_TIMESTAMP_DELTA`. -/
def ntpTimestampDelta : UInt64 := 2208988800

/-- `ntohl`, on a little-endian machine. -/
def ntohl (x : UInt32) : UInt32 := UInt32.ofNat (ofBytes (lowBytes 4 x.toNat).reverse)

/-- The local `conversion`: a quotient by a power of two, so exact as a `double`. -/
def conversion : ℚ := (1000 * 1000) / 2 ^ 31

/-- `runNTP`, from the reply in `packet` and what `gettimeofday` stores in `tv`. -/
def runNTP (packet : NtpPacket) (tv : Timeval) : Option Offsets := do
  let seconds := ntohl packet.txTm_s
  let fraction := ntohl packet.txTm_f
  let txTm_s := (seconds.toUInt64 - ntpTimestampDelta).toInt64
  let txTm_f := Int64.ofInt ⌊(fraction.toNat : ℚ) * conversion⌋
  let secondOffset ← sub longBits txTm_s.toInt tv.tv_sec.toInt
  let usecondOffset ← sub longBits txTm_f.toInt tv.tv_usec.toInt
  some ⟨Int64.ofInt secondOffset, Int64.ofInt usecondOffset⟩

/-! ### The conversions -/

/-- Every value of the two fields is one after `ntohl`. -/
theorem ntohl_ntohl (x : UInt32) : ntohl (ntohl x) = x := by
  have hlen : (lowBytes 4 x.toNat).reverse.length = 4 := by
    rw [List.length_reverse, length_lowBytes]
  have hlt : ofBytes (lowBytes 4 x.toNat).reverse < 2 ^ 32 := by
    have := ofBytes_lt (lowBytes 4 x.toNat).reverse
    rw [hlen] at this
    exact this
  have hx : x.toNat < 256 ^ 4 := x.toNat_lt
  have hback := lowBytes_ofBytes (lowBytes 4 x.toNat).reverse
  rw [hlen] at hback
  rw [ntohl, ntohl, UInt32.toNat_ofNat_of_lt' hlt, hback, List.reverse_reverse, ofBytes_lowBytes hx,
    UInt32.ofNat_toNat]

/-- The product is a number of `53` bits over a power of two, so exact as a `double`. -/
theorem mul_conversion (F : UInt32) :
    (F.toNat : ℚ) * conversion = (F.toNat * 15625 : ℕ) / 2 ^ 25 ∧ F.toNat * 15625 < 2 ^ 53 := by
  have hF : F.toNat < 2 ^ 32 := F.toNat_lt
  constructor
  · rw [conversion]
    push_cast
    ring
  · omega

/-- The conversion to `time_t` cuts off the fraction. -/
theorem floor_mul_conversion (F : UInt32) :
    ⌊(F.toNat : ℚ) * conversion⌋ = (F.toNat * 1000000 / 2 ^ 31 : ℕ) := by
  have hquot : (F.toNat : ℚ) * conversion =
      ((F.toNat * 1000000 : ℕ) : ℚ) / ((2 ^ 31 : ℕ) : ℚ) := by
    rw [conversion]
    push_cast
    ring
  rw [hquot, Rat.floor_natCast_div_natCast, Int.natCast_ediv]

/-- The epoch shift, in unsigned arithmetic, from a time that is not before 1970. -/
theorem toInt_sub_delta {S : UInt32} (h : 2208988800 ≤ S.toNat) :
    (S.toUInt64 - ntpTimestampDelta).toInt64.toInt = S.toNat - 2208988800 := by
  have hS : S.toNat < 2 ^ 32 := S.toNat_lt
  have hsub : (S.toUInt64 - ntpTimestampDelta).toNat = S.toNat - 2208988800 := by
    rw [UInt64.toNat_sub_of_le]
    · rfl
    · rw [UInt64.le_iff_toNat_le]
      exact h
  have hint : (S.toUInt64 - ntpTimestampDelta).toInt64.toInt =
      (S.toUInt64 - ntpTimestampDelta).toBitVec.toInt := rfl
  have hnat : (S.toUInt64 - ntpTimestampDelta).toBitVec.toNat = S.toNat - 2208988800 := hsub
  rw [hint, BitVec.toInt_eq_toNat_of_lt (by omega), hnat]
  omega

/-! ### What the offsets give -/

/-- The microseconds that `runNTP` takes the fraction for. -/
def convertedFraction (packet : NtpPacket) : ℕ :=
  (ntohl packet.txTm_f).toNat * 1000000 / 2 ^ 31

/-- The seconds since 1970 of a reply. -/
def unixSeconds (packet : NtpPacket) : ℤ := (ntohl packet.txTm_s).toNat - 2208988800

theorem convertedFraction_lt (packet : NtpPacket) : convertedFraction packet < 2000000 := by
  have hF : (ntohl packet.txTm_f).toNat < 2 ^ 32 := (ntohl packet.txTm_f).toNat_lt
  rw [convertedFraction]
  omega

variable {packet : NtpPacket} {tv : Timeval}

theorem unixSeconds_range (hS : 2208988800 ≤ (ntohl packet.txTm_s).toNat) :
    0 ≤ unixSeconds packet ∧ unixSeconds packet < 2 ^ 32 := by
  have hlt : (ntohl packet.txTm_s).toNat < 2 ^ 32 := (ntohl packet.txTm_s).toNat_lt
  rw [unixSeconds]
  constructor <;> omega

theorem fits_of_range {x : ℤ} (h : 0 ≤ x ∧ x < 2 ^ 33) : Fits longBits x := by
  constructor
  · exact le_trans (by norm_num) h.1
  · exact lt_trans h.2 (by norm_num)

/-- **What `runNTP` stores**: the time of the reply less the local one, in each place. -/
theorem runNTP_eq (hS : 2208988800 ≤ (ntohl packet.txTm_s).toNat) (htv : tv.Normalized) :
    runNTP packet tv =
      if Fits longBits (unixSeconds packet - tv.tv_sec.toInt) then
        some ⟨Int64.ofInt (unixSeconds packet - tv.tv_sec.toInt),
          Int64.ofInt (convertedFraction packet - tv.tv_usec.toInt)⟩
      else none := by
  have hlt := convertedFraction_lt packet
  have hfraction : (Int64.ofInt ⌊((ntohl packet.txTm_f).toNat : ℚ) * conversion⌋).toInt =
      convertedFraction packet := by
    rw [floor_mul_conversion]
    exact toInt_ofInt_of_fits (fits_of_range (by rw [← convertedFraction]; omega))
  have hseconds : ((ntohl packet.txTm_s).toUInt64 - ntpTimestampDelta).toInt64.toInt =
      unixSeconds packet := toInt_sub_delta hS
  have husec : Fits longBits (convertedFraction packet - tv.tv_usec.toInt) := by
    obtain ⟨h0, h1⟩ := htv
    exact ⟨le_trans (by norm_num : _ ≤ (-1000000 : ℤ)) (by omega),
      lt_trans (by omega : _ < (2000000 : ℤ)) (by norm_num)⟩
  simp only [runNTP, hfraction, hseconds, sub_eq_some husec, Option.bind_eq_bind, Option.bind_some]
  rw [sub, checked]
  split_ifs <;> rfl

/-- **What `getTime` returns** on the reading from which `runNTP` set the offsets: the
seconds of the reply and the converted fraction, with its carry. -/
theorem runNTP_getTime (hS : 2208988800 ≤ (ntohl packet.txTm_s).toNat) (htv : tv.Normalized) :
    ((runNTP packet tv).bind fun o => getTime o tv) =
      if Fits longBits (unixSeconds packet - tv.tv_sec.toInt) then
        some (Timeval.ofInts (unixSeconds packet + convertedFraction packet / 1000000)
          (convertedFraction packet % 1000000))
      else none := by
  rw [runNTP_eq hS htv]
  split_ifs with hfits
  · have hrange := unixSeconds_range hS
    have hlt := convertedFraction_lt packet
    obtain ⟨h0, h1⟩ := htv
    have hsec : tv.tv_sec.toInt + (Int64.ofInt (unixSeconds packet - tv.tv_sec.toInt)).toInt =
        unixSeconds packet := by
      rw [toInt_ofInt_of_fits hfits]
      ring
    have husec : tv.tv_usec.toInt +
        (Int64.ofInt (convertedFraction packet - tv.tv_usec.toInt)).toInt =
        convertedFraction packet := by
      rw [toInt_ofInt_of_fits]
      · ring
      · exact ⟨le_trans (by norm_num : _ ≤ (-1000000 : ℤ)) (by omega),
          lt_trans (by omega : _ < (2000000 : ℤ)) (by norm_num)⟩
    have hsums : SumsFit ⟨Int64.ofInt (unixSeconds packet - tv.tv_sec.toInt),
        Int64.ofInt (convertedFraction packet - tv.tv_usec.toInt)⟩ tv := by
      constructor
      · rw [hsec]
        exact fits_of_range (by omega)
      · rw [husec]
        exact fits_of_range (by omega)
    have hcarry : CarryFits ⟨Int64.ofInt (unixSeconds packet - tv.tv_sec.toInt),
        Int64.ofInt (convertedFraction packet - tv.tv_usec.toInt)⟩ tv := by
      unfold CarryFits
      rw [hsec, husec]
      exact fits_of_range (by omega)
    rw [Option.bind_some, getTime_eq hsums, if_pos hcarry, hsec, husec]
  · rfl

/-- **When the clock is the server's**: `getTime` then returns the seconds and the
fraction of the reply exactly when the fraction is less than half a microsecond, where
doubling it changes nothing, and the local clock is not out of reach. -/
theorem runNTP_exact_iff (hS : 2208988800 ≤ (ntohl packet.txTm_s).toNat) (htv : tv.Normalized) :
    ((runNTP packet tv).bind fun o => getTime o tv) =
        some (Timeval.ofInts ((ntohl packet.txTm_s).toNat - 2208988800)
          ((ntohl packet.txTm_f).toNat * 1000000 / 2 ^ 32)) ↔
      (ntohl packet.txTm_f).toNat < 2148 ∧
        Fits longBits ((ntohl packet.txTm_s).toNat - 2208988800 - tv.tv_sec.toInt) := by
  rw [runNTP_getTime hS htv, ← unixSeconds]
  have hrange := unixSeconds_range hS
  have hlt := convertedFraction_lt packet
  have hF : (ntohl packet.txTm_f).toNat < 2 ^ 32 := (ntohl packet.txTm_f).toNat_lt
  have hdef : convertedFraction packet = (ntohl packet.txTm_f).toNat * 1000000 / 2 ^ 31 := rfl
  constructor
  · intro h
    split_ifs at h with hfits
    have hinj := Timeval.mk.inj (Option.some.inj h)
    have hsec := congrArg Int64.toInt hinj.1
    have husec := congrArg Int64.toInt hinj.2
    rw [toInt_ofInt_of_fits (fits_of_range (by omega)),
      toInt_ofInt_of_fits (fits_of_range (by omega))] at hsec husec
    exact ⟨by omega, hfits⟩
  · rintro ⟨hsmall, hfits⟩
    -- fewer than `2148` units are less than half a microsecond
    have hzero : convertedFraction packet = 0 := by omega
    have hzero' : ((ntohl packet.txTm_f).toNat : ℤ) * 1000000 / 2 ^ 32 = 0 := by omega
    rw [if_pos hfits, hzero, hzero']
    simp

/-- A reply just behind the second, at a local time that is ahead in both its parts. -/
theorem runNTP_exact_iff_second :
    ((runNTP ⟨ntohl 2208988801, ntohl 2147⟩ ⟨3, 999999⟩).bind fun o => getTime o ⟨3, 999999⟩) =
      some (Timeval.ofInts ((ntohl (ntohl 2208988801)).toNat - 2208988800)
        ((ntohl (ntohl 2147)).toNat * 1000000 / 2 ^ 32)) :=
  (@runNTP_exact_iff ⟨ntohl 2208988801, ntohl 2147⟩ ⟨3, 999999⟩ (by decide) (by decide)).mpr
    ⟨by decide, by decide⟩

/-- **Half a second becomes a second**: a reply of half past gives the next full second. -/
theorem runNTP_half_second :
    ((runNTP ⟨ntohl 2208988801, ntohl 2147483648⟩ ⟨0, 0⟩).bind fun o => getTime o ⟨0, 0⟩) =
        some ⟨2, 0⟩ ∧
      Timeval.ofInts ((ntohl (ntohl 2208988801)).toNat - 2208988800)
        ((ntohl (ntohl 2147483648)).toNat * 1000000 / 2 ^ 32) = ⟨1, 500000⟩ := by
  constructor
  · rw [runNTP_getTime (by decide) (by decide)]
    decide
  · decide

end GroupChat
