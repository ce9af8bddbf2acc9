import Mathlib.Data.BitVec

/-!
# Shift registers with feedback

A register is clocked towards its low or its high end, and the bit that leaves it decides
whether the feedback polynomial is added. Clocking respects exclusive or, so the bits that
leave within `n` clocks and the bits that only move can be treated apart.
-/
namespace BooxKernel.ShiftRegisters
open Function BitVec

variable {w n k : ℕ} {f : BitVec w → BitVec w} {poly x : BitVec w}

/-- A clock towards the low end. -/
def clockDown (poly x : BitVec w) : BitVec w := (x >>> 1) ^^^ if x.getLsbD 0 then poly else 0

/-- A clock towards the high end. -/
def clockUp (poly x : BitVec w) : BitVec w := (x <<< 1) ^^^ if x.getMsbD 0 then poly else 0

/-- A map that respects exclusive or. -/
def Additive (f : BitVec w → BitVec w) : Prop := ∀ x y, f (x ^^^ y) = f x ^^^ f y

lemma Additive.iterate (hf : Additive f) (n : ℕ) : Additive f^[n] := by
  induction n with
  | zero => exact fun _ _ => rfl
  | succ n ih =>
    intro x y
    rw [iterate_succ_apply', iterate_succ_apply', iterate_succ_apply', ih, hf]

lemma Additive.map_zero (hf : Additive f) : f 0 = 0 := by
  have h := hf 0 0
  rwa [BitVec.xor_self, BitVec.xor_self] at h

lemma feedback_xor (a b : Bool) (poly : BitVec w) :
    (if a ^^ b then poly else 0) = (if a then poly else 0) ^^^ if b then poly else 0 := by
  cases a <;> cases b <;> simp

lemma xor_xor_comm (a b c d : BitVec w) : (a ^^^ b) ^^^ (c ^^^ d) = (a ^^^ c) ^^^ (b ^^^ d) := by
  ac_rfl

lemma additive_clockDown (poly : BitVec w) : Additive (clockDown poly) := by
  intro x y
  rw [clockDown, getLsbD_xor, feedback_xor, ushiftRight_xor_distrib, xor_xor_comm]
  rfl

lemma additive_clockUp (poly : BitVec w) : Additive (clockUp poly) := by
  intro x y
  rw [clockUp, getMsbD_xor, feedback_xor, shiftLeft_xor_distrib, xor_xor_comm]
  rfl

lemma clockDown_iterate (h : ∀ i < n, x.getLsbD i = false) : (clockDown poly)^[n] x = x >>> n := by
  induction n with
  | zero => simp
  | succ n ih =>
    have hbit : (x >>> n).getLsbD 0 = false := by simpa using h n (Nat.lt_succ_self n)
    rw [iterate_succ_apply', ih fun i hi => h i (by omega), clockDown, hbit, ← shiftRight_add]
    simp

lemma clockUp_iterate (h : ∀ i < n, x.getMsbD i = false) : (clockUp poly)^[n] x = x <<< n := by
  induction n with
  | zero => simp
  | succ n ih =>
    have hbit : (x <<< n).getMsbD 0 = false := by simpa using h n (Nat.lt_succ_self n)
    rw [iterate_succ_apply', ih fun i hi => h i (by omega), clockUp, hbit, ← shiftLeft_add]
    simp

lemma clockDown_twoPow (poly : BitVec w) (hk : k ≤ n) (hw : k < w) :
    (clockDown poly)^[n] (twoPow w k) = (clockDown poly)^[n - k] (twoPow w 0) := by
  have hzero : ∀ i < k, (twoPow w k).getLsbD i = false := by
    simp
    omega
  have hone : twoPow w k >>> k = twoPow w 0 := by
    apply eq_of_getLsbD_eq
    intro i hi
    rw [Bool.eq_iff_iff]
    simp
    omega
  rw [← Nat.sub_add_cancel hk, iterate_add_apply, clockDown_iterate hzero, hone, Nat.add_sub_cancel]

lemma clockUp_twoPow (poly : BitVec w) (hk : w ≤ k + 1 + n) (hw : k < w) :
    (clockUp poly)^[n] (twoPow w k) = (clockUp poly)^[k + 1 + n - w] (twoPow w (w - 1)) := by
  have hzero : ∀ i < w - 1 - k, (twoPow w k).getMsbD i = false := by
    simp [getMsbD_eq_getLsbD]
    omega
  have htop : twoPow w k <<< (w - 1 - k) = twoPow w (w - 1) := by
    rw [shiftLeft_eq_mul_twoPow, twoPow_mul_twoPow_eq]
    congr 1
    omega
  rw [show n = k + 1 + n - w + (w - 1 - k) by omega, iterate_add_apply, clockUp_iterate hzero]
  congr 1
  omega

/-- The bits below `n`. -/
def low (n : ℕ) (x : BitVec w) : BitVec w := (x.setWidth n).setWidth w

/-- The `n` highest bits, in place. -/
def high (n : ℕ) (x : BitVec w) : BitVec w := (x >>> (w - n)) <<< (w - n)

lemma getLsbD_low (n : ℕ) (x : BitVec w) (i : ℕ) :
    (low n x).getLsbD i = (decide (i < n) && x.getLsbD i) := by
  rw [low]
  by_cases hi : i < w
  · simp [hi]
  · simp [getLsbD_of_ge x i (not_lt.1 hi)]

lemma getMsbD_high (hn : n ≤ w) (x : BitVec w) (i : ℕ) :
    (high n x).getMsbD i = (decide (i < n) && x.getMsbD i) := by
  rw [high]
  by_cases hi : i < n
  · simp [hi, show i + (w - n) < w by omega]
  · simp [hi, show ¬ i + (w - n) < w by omega]

/-- After `n` clocks, the low bits have been replaced by their feedback. -/
lemma clockDown_split (poly x : BitVec w) (n : ℕ) :
    (clockDown poly)^[n] x = (clockDown poly)^[n] (low n x) ^^^ (x >>> n) := by
  have hsplit : x = low n x ^^^ (x ^^^ low n x) := by
    rw [BitVec.xor_comm x, ← xor_assoc, BitVec.xor_self, zero_xor]
  have hzero : ∀ i < n, (x ^^^ low n x).getLsbD i = false := by
    intro i hi
    simp [getLsbD_low, hi]
  have hgone : low n x >>> n = 0#w := by
    apply eq_of_getLsbD_eq
    simp [getLsbD_low]
  conv_lhs => rw [hsplit]
  rw [(additive_clockDown poly).iterate, clockDown_iterate hzero,
    ushiftRight_xor_distrib, hgone, BitVec.xor_zero]

lemma clockUp_split (poly x : BitVec w) (hn : n ≤ w) :
    (clockUp poly)^[n] x = (clockUp poly)^[n] (high n x) ^^^ (x <<< n) := by
  have hsplit : x = high n x ^^^ (x ^^^ high n x) := by
    rw [BitVec.xor_comm x, ← xor_assoc, BitVec.xor_self, zero_xor]
  have hzero : ∀ i < n, (x ^^^ high n x).getMsbD i = false := by
    intro i hi
    simp [getMsbD_high hn, hi]
  have hgone : high n x <<< n = 0#w := by
    apply eq_of_getMsbD_eq
    simp [getMsbD_high hn]
  conv_lhs => rw [hsplit]
  rw [(additive_clockUp poly).iterate, clockUp_iterate hzero,
    shiftLeft_xor_distrib, hgone, BitVec.xor_zero]

end BooxKernel.ShiftRegisters
