import Mathlib.Data.Nat.Notation
import Mathlib.Data.Set.Basic
import Mathlib.Order.Bounds.Defs

/-!
# Conversion between times and jiffies (`kernel/time.c`)

A `long` has 32 bits, and there are 100 jiffies in a second. The divisions are replaced by
multiplications with constants of 25 and 54 more bits.
-/
namespace BooxKernel.Jiffies
open Nat BitVec

/-- `NSEC_PER_SEC`. -/
def nsecPerSec : ℕ := 1000000000

/-- `TICK_NSEC`. -/
def tickNsec : ℕ := 10000000

/-- `SHIFT_HZ`. -/
def shiftHz : ℕ := 7

/-- `SEC_JIFFIE_SC`. -/
def secJiffieSc : ℕ :=
  if (nsecPerSec <<< 2 / tickNsec) <<< (31 - shiftHz - 2) &&& 0x80000000 = 0 then 32 - shiftHz
  else 31 - shiftHz

/-- `NSEC_JIFFIE_SC`. -/
def nsecJiffieSc : ℕ := secJiffieSc + 29

/-- `SEC_CONVERSION`. -/
def secConversion : BitVec 32 := .ofNat 32 ((nsecPerSec <<< secJiffieSc + tickNsec - 1) / tickNsec)

/-- `NSEC_CONVERSION`. -/
def nsecConversion : BitVec 32 := .ofNat 32 ((1 <<< nsecJiffieSc + tickNsec - 1) / tickNsec)

/-- `MAX_JIFFY_OFFSET`. -/
def maxJiffyOffset : ℕ := 0x7FFFFFFF >>> 1 - 1

/-- `MAX_SEC_IN_JIFFIES`. -/
def maxSecInJiffies : ℕ := maxJiffyOffset * tickNsec / nsecPerSec

/-- `struct timespec`. -/
@[ext]
structure Timespec where
  tvSec : BitVec 32
  tvNsec : BitVec 32

/-- `timespec_to_jiffies`. -/
def timespecToJiffies (value : Timespec) : BitVec 32 :=
  let late := maxSecInJiffies ≤ value.tvSec.toNat
  let sec := if late then .ofNat 32 maxSecInJiffies else value.tvSec
  let nsec := if late then 0 else value.tvNsec + .ofNat 32 tickNsec - 1
  ((sec.setWidth 64 * secConversion.setWidth 64 +
    (nsec.signExtend 64 * nsecConversion.setWidth 64) >>> (nsecJiffieSc - secJiffieSc)) >>>
      secJiffieSc).setWidth 32

/-- `jiffies_to_timespec`. -/
def jiffiesToTimespec (jiffies : BitVec 32) : Timespec :=
  let nsecs := jiffies.toNat * tickNsec
  ⟨.ofNat 32 (nsecs / nsecPerSec), .ofNat 32 (nsecs % nsecPerSec)⟩

lemma toNat_timespecToJiffies {value : Timespec} (hsec : value.tvSec.toNat < maxSecInJiffies)
    (hnsec : value.tvNsec.toNat < nsecPerSec) :
    (timespecToJiffies value).toNat =
      value.tvSec.toNat * 100 + (value.tvNsec.toNat + 9999999) / 10000000 := by
  have hscale : secJiffieSc = 25 ∧ nsecJiffieSc = 54 := by decide
  have hconv : secConversion.toNat = 3355443200 ∧ nsecConversion.toNat = 1801439851 := by decide
  have hbound : value.tvNsec.toNat < 1000000000 := hnsec
  have hround : (value.tvNsec + .ofNat 32 tickNsec - 1).toNat = value.tvNsec.toNat + 9999999 := by
    rw [toNat_sub, toNat_add, tickNsec]
    simp
    omega
  have hsign : (value.tvNsec + .ofNat 32 tickNsec - 1).msb = false := by
    rw [msb_eq_false_iff_two_mul_lt]
    omega
  simp only [timespecToJiffies, if_neg (not_le.2 hsec)]
  rw [signExtend_eq_setWidth_of_msb_false hsign, hscale.1, hscale.2, toNat_setWidth,
    toNat_ushiftRight, toNat_add, toNat_mul, toNat_ushiftRight,
    toNat_mul, shiftRight_eq_div_pow, shiftRight_eq_div_pow]
  simp only [toNat_setWidth]
  rw [hconv.1, hconv.2, hround]
  have hsec : value.tvSec.toNat < 10737418 := hsec
  have hnsec : value.tvNsec.toNat + 9999999 < 1010000000 := by omega
  generalize value.tvNsec.toNat + 9999999 = nsec at hnsec ⊢
  simp (disch := omega) only [mod_eq_of_lt]
  omega

/-- `timespec_to_jiffies` returns the least number of ticks that is not shorter than the time, and
takes back what `jiffies_to_timespec` makes of a number of ticks. -/
theorem timespec_to_jiffies_ceil :
    (∀ value : Timespec, 0 ≤ value.tvSec.toInt → value.tvSec.toInt < maxSecInJiffies →
        0 ≤ value.tvNsec.toInt → value.tvNsec.toInt < nsecPerSec →
      IsLeast {n : ℕ | value.tvSec.toInt * nsecPerSec + value.tvNsec.toInt ≤ n * tickNsec}
        (timespecToJiffies value).toNat) ∧
    ∀ j, (jiffiesToTimespec j).tvSec.toInt < maxSecInJiffies →
      timespecToJiffies (jiffiesToTimespec j) = j := by
  refine ⟨fun value hsec0 hsec hnsec0 hnsec => ?_, fun j hj => ?_⟩
  · have hsecs := toInt_eq_toNat_cond value.tvSec
    have hnsecs := toInt_eq_toNat_cond value.tvNsec
    have hjiffies := @toNat_timespecToJiffies value (by omega) (by omega)
    simp only [IsLeast, lowerBounds, Set.mem_ofPred_eq, nsecPerSec, tickNsec] at hnsec ⊢
    exact ⟨by omega, fun n hn => by omega⟩
  · have hsec : (jiffiesToTimespec j).tvSec.toNat = j.toNat / 100 := by
      simp only [jiffiesToTimespec, toNat_ofNat, nsecPerSec, tickNsec]
      omega
    have hnsec : (jiffiesToTimespec j).tvNsec.toNat = j.toNat % 100 * 10000000 := by
      simp only [jiffiesToTimespec, toNat_ofNat, nsecPerSec, tickNsec]
      rw [mod_eq_of_lt (by omega)]
      omega
    have hint := toInt_eq_toNat_cond (jiffiesToTimespec j).tvSec
    apply eq_of_toNat_eq
    rw [toNat_timespecToJiffies (by omega) (by rw [hnsec, nsecPerSec]; omega), hsec, hnsec]
    omega

theorem timespec_to_jiffies_ceil_short :
    IsLeast {n : ℕ | (0 : BitVec 32).toInt * nsecPerSec + (1 : BitVec 32).toInt ≤ n * tickNsec}
      (timespecToJiffies ⟨0, 1⟩).toNat :=
  timespec_to_jiffies_ceil.1 ⟨0, 1⟩ (by decide) (by decide) (by decide) (by decide)

end BooxKernel.Jiffies
