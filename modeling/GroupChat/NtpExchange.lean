import GroupChat.Library.Framing
import GroupChat.Ntp

/-!
# The reply of the NTP server

`runNTP` from the packet that it sends to the clock that it sets, lines 118 to 199 of
`ntp.h`. The reply is a datagram of any length with anything in it. It is read into the
packet that has been sent, and nobody looks at how long it is, so what it does not have is
still `0` there (`GroupChat.stamp_of_reply`). Nobody looks at what it has in front of its
transmit time-stamp either.

| length of the reply | transmit time-stamp |
|---|---|
| `48` | bytes `40` to `47`, most significant first |
| up to `47` | the same, with `0` for what is missing |
| up to `40` | `0`, the beginning of 1900 |

From then on the clock runs with the local one, from the time of the reply as `runNTP`
takes it (`GroupChat.clock_of_reply`): with the fraction doubled, and seconds counted from
1900, modulo `2 ^ 32`.
-/

namespace GroupChat

open CInt ByteLayout Framing

/-- Lines 118 to 126: the packet that is sent. -/
def ntpRequest : List UInt8 := 0x1b :: List.replicate 47 0

/-- The number of a field in network byte order. -/
def bigEndian (bs : List UInt8) : ℕ := ofBytes bs.reverse

/-- The transmit time-stamp among the bytes of a packet. -/
def ntpPacketOf (bytes : List UInt8) : NtpPacket where
  txTm_s := UInt32.ofNat (ofBytes (field bytes 40 4))
  txTm_f := UInt32.ofNat (ofBytes (field bytes 44 4))

/-- How `runNTP` ends. -/
inductive NtpEnd where
  /-- In `error`, which ends the process. -/
  | exited
  | set (offsets : Offsets)
deriving DecidableEq

/-- Lines 172 to 199, from what `read` and `gettimeofday` come to. -/
def exchange (result : ReadResult) (tv : Timeval) : Option NtpEnd :=
  match result with
  | .error => some .exited
  | result => (runNTP (ntpPacketOf (deposit ntpRequest result)) tv).map .set

/-! ### Bytes of the time-stamp -/

/-- Bytes `40` to `43` of a reply, with `0` for those that it does not have. -/
def stampSeconds (reply : List UInt8) : ℕ := bigEndian (chars reply 40 4).toList

/-- Bytes `44` to `47`. -/
def stampFraction (reply : List UInt8) : ℕ := bigEndian (chars reply 44 4).toList

theorem bigEndian_lt {bs : List UInt8} (h : bs.length = 4) : bigEndian bs < 2 ^ 32 := by
  have hlt := ofBytes_lt bs.reverse
  rw [List.length_reverse, h] at hlt
  exact hlt

/-- `ntohl` takes the bytes of a field in the other order. -/
theorem toNat_ntohl {bs : List UInt8} (h : bs.length = 4) :
    (ntohl (UInt32.ofNat (ofBytes bs))).toNat = bigEndian bs := by
  have hlt : ofBytes bs < 2 ^ 32 := by
    have hlt := ofBytes_lt bs
    rwa [h] at hlt
  have hbytes : lowBytes 4 (ofBytes bs) = bs := by
    rw [← h]
    exact lowBytes_ofBytes bs
  rw [ntohl, UInt32.toNat_ofNat_of_lt' hlt, hbytes]
  exact UInt32.toNat_ofNat_of_lt' (bigEndian_lt h)

/-- Behind a reply the packet that has been sent is still there. -/
theorem field_deposit {reply : List UInt8} (hlen : reply.length ≤ 48) {off : ℕ} (hoff : 0 < off)
    (hend : off + 4 ≤ 48) :
    field (deposit ntpRequest (.data reply)) off 4 = (chars reply off 4).toList := by
  have hzero : ∀ i, 0 < i → i < 48 → ntpRequest[i]? = some 0 := by
    intro i hi hlt
    obtain ⟨i, rfl⟩ := Nat.exists_eq_succ_of_ne_zero (Nat.ne_of_gt hi)
    rw [ntpRequest, List.getElem?_cons_succ, List.getElem?_replicate, if_pos (by omega)]
  refine List.ext_getElem? fun i => ?_
  by_cases hi : i < 4
  · have hright : (chars reply off 4).toList[i]? = some ((reply[off + i]?).getD 0) := by
      simp [chars, field, hi]
    rw [hright, field, List.getElem?_take_of_lt hi, List.getElem?_drop, deposit]
    by_cases hlt : off + i < reply.length
    · rw [List.getElem?_append_left hlt, List.getElem?_eq_getElem hlt, Option.getD_some]
    · rw [List.getElem?_append_right (by omega), List.getElem?_drop,
        show reply.length + (off + i - reply.length) = off + i by omega,
        hzero _ (by omega) (by omega), List.getElem?_eq_none (by omega), Option.getD_none]
  · rw [List.getElem?_eq_none (by simp [field]; omega), List.getElem?_eq_none (by simp; omega)]

/-- **What is taken for the time-stamp** of a reply. -/
theorem stamp_of_reply {reply : List UInt8} (hlen : reply.length ≤ 48) :
    (ntohl (ntpPacketOf (deposit ntpRequest (.data reply))).txTm_s).toNat = stampSeconds reply ∧
      (ntohl (ntpPacketOf (deposit ntpRequest (.data reply))).txTm_f).toNat =
        stampFraction reply := by
  simp only [ntpPacketOf, field_deposit hlen (show 0 < 40 by omega) (by omega),
    field_deposit hlen (show 0 < 44 by omega) (by omega)]
  exact ⟨toNat_ntohl (by simp), toNat_ntohl (by simp)⟩

/-- A reply that ends before its time-stamp has the time-stamp `0`. -/
theorem stamp_of_short {reply : List UInt8} (h : reply.length ≤ 40) :
    stampSeconds reply = 0 ∧ stampFraction reply = 0 := by
  have hchars : ∀ off, 40 ≤ off → (chars reply off 4).toList = List.replicate 4 0 := by
    intro off hoff
    refine List.ext_getElem (by simp) fun i hi hi' => ?_
    rw [List.getElem_replicate]
    simp [chars, field, List.getElem?_eq_none (show reply.length ≤ off + i by omega)]
  rw [stampSeconds, stampFraction, hchars 40 le_rfl, hchars 44 (by omega)]
  exact ⟨by decide, by decide⟩

/-! ### The clock -/

/-- The epoch shift, in unsigned arithmetic that wraps around, and as a `time_t`. -/
theorem toInt_shift (S : UInt32) :
    (S.toUInt64 - ntpTimestampDelta).toInt64.toInt = S.toNat - 2208988800 := by
  have hS : S.toNat < 2 ^ 32 := S.toNat_lt
  by_cases h : 2208988800 ≤ S.toNat
  · exact toInt_sub_delta h
  · have hwrap : (S.toUInt64 - ntpTimestampDelta).toBitVec.toNat =
        2 ^ 64 - 2208988800 + S.toNat := by
      have hsub : (S.toUInt64 - ntpTimestampDelta).toNat =
          (2 ^ 64 - ntpTimestampDelta.toNat + S.toUInt64.toNat) % 2 ^ 64 := rfl
      have hdelta : ntpTimestampDelta.toNat = 2208988800 := rfl
      have hcast : S.toUInt64.toNat = S.toNat := rfl
      rw [hdelta, hcast] at hsub
      exact hsub.trans (Nat.mod_eq_of_lt (by omega))
    have hint : (S.toUInt64 - ntpTimestampDelta).toInt64.toInt =
        (S.toUInt64 - ntpTimestampDelta).toBitVec.toInt := rfl
    rw [hint, BitVec.toInt_eq_toNat_cond, if_neg (by omega), hwrap]
    omega

variable {reply : List UInt8} {tv r t : Timeval} {o : Offsets}

/-- The fraction, in microseconds as `runNTP` counts them. -/
def stampMicroseconds (reply : List UInt8) : ℕ := stampFraction reply * 1000000 / 2 ^ 31

theorem stampMicroseconds_lt (reply : List UInt8) : stampMicroseconds reply < 2000000 := by
  have hF : stampFraction reply < 2 ^ 32 := bigEndian_lt (by simp)
  rw [stampMicroseconds]
  omega

/-- The microseconds never leave their type. -/
theorem fits_sub_usec (htv : tv.Normalized) :
    Fits longBits (stampMicroseconds reply - tv.tv_usec.toInt) := by
  have hlt := stampMicroseconds_lt reply
  obtain ⟨h0, h1⟩ := htv
  constructor <;> norm_num [longBits] <;> omega

/-- **What `runNTP` stores**, for any reply. -/
theorem exchange_eq (hlen : reply.length ≤ 48) (htv : tv.Normalized) :
    exchange (.data reply) tv =
      if Fits longBits ((stampSeconds reply : ℤ) - 2208988800 - tv.tv_sec.toInt) then
        some (.set ⟨Int64.ofInt ((stampSeconds reply : ℤ) - 2208988800 - tv.tv_sec.toInt),
          Int64.ofInt (stampMicroseconds reply - tv.tv_usec.toInt)⟩)
      else none := by
  obtain ⟨hseconds, hfraction⟩ := stamp_of_reply hlen
  have hlt := stampMicroseconds_lt reply
  have hmicroseconds : (Int64.ofInt ⌊((ntohl (ntpPacketOf
      (deposit ntpRequest (.data reply))).txTm_f).toNat : ℚ) * conversion⌋).toInt =
        stampMicroseconds reply := by
    rw [floor_mul_conversion, hfraction, ← stampMicroseconds]
    exact toInt_ofInt_of_fits (fits_of_range (by omega))
  simp only [exchange, runNTP, toInt_shift, hseconds, hmicroseconds, Option.bind_eq_bind]
  split_ifs with hfits
  · rw [sub_eq_some hfits, Option.bind_some, sub_eq_some (fits_sub_usec htv)]
    rfl
  · rw [sub, checked, if_neg hfits]
    rfl

/-- **The clock that a reply sets.** Whatever the reply is, `runNTP` sets the offsets unless
the seconds are further apart than a `long` counts, and from then on a time of `getTime` is
ahead of the time-stamp of the reply, as `runNTP` takes it, by what the local clock has gone
on since. A reply without a time-stamp sets the clock to the beginning of 1900. -/
theorem clock_of_reply (hlen : reply.length ≤ 48) (htv : tv.Normalized) :
    ((∃ o, exchange (.data reply) tv = some (.set o)) ↔
      Fits longBits ((stampSeconds reply : ℤ) - 2208988800 - tv.tv_sec.toInt)) ∧
    ∀ o, exchange (.data reply) tv = some (.set o) → ∀ r t, getTime o r = some t →
      t.Normalized ∧
      t.total = ((stampSeconds reply : ℤ) - 2208988800) * 1000000 + stampMicroseconds reply +
        (r.total - tv.total) ∧
      (reply.length ≤ 40 → t.total = -2208988800 * 1000000 + (r.total - tv.total)) := by
  rw [exchange_eq hlen htv]
  constructor
  · split_ifs with hfits <;> simp [hfits]
  · intro o hset r t ht
    split_ifs at hset with hfits
    obtain rfl := NtpEnd.set.inj (Option.some.inj hset)
    obtain ⟨hnormalized, htotal⟩ := getTime_spec ht
    -- the offsets are the time-stamp less the local time
    simp only [Offsets.total, Timeval.total, TwoPlaces.total, toInt_ofInt_of_fits hfits,
      toInt_ofInt_of_fits (fits_sub_usec htv)] at htotal ⊢
    refine ⟨hnormalized, by rw [htotal]; push_cast; ring, fun hshort => ?_⟩
    obtain ⟨hS, hF⟩ := stamp_of_short hshort
    rw [htotal, stampMicroseconds, hS, hF]
    push_cast
    ring

/-- A reply of half past the first second of 1970. -/
def halfPast : List UInt8 := List.replicate 40 0 ++ [0x83, 0xaa, 0x7e, 0x81, 0x80, 0, 0, 0]

/-- At the local time `0`: the clock is set to two seconds. -/
theorem clock_of_reply_halfPast :
    ∃ o, exchange (.data halfPast) ⟨0, 0⟩ = some (.set o) ∧
      ∀ r t, getTime o r = some t → t.Normalized ∧ t.total = 2000000 + r.total := by
  have hseconds : stampSeconds halfPast = 2208988801 := by decide +kernel
  have hmicroseconds : stampMicroseconds halfPast = 1000000 := by decide +kernel
  have hlocal : Timeval.total ⟨0, 0⟩ = 0 := by decide
  have hclock := clock_of_reply (show halfPast.length ≤ 48 by decide)
    (show Timeval.Normalized ⟨0, 0⟩ by decide)
  rw [hseconds, hmicroseconds, hlocal] at hclock
  obtain ⟨o, ho⟩ := hclock.1.mpr (by decide)
  refine ⟨o, ho, fun r t ht => ?_⟩
  obtain ⟨hnormalized, htotal, -⟩ := hclock.2 o ho r t ht
  exact ⟨hnormalized, by rw [htotal]; ring⟩

end GroupChat
