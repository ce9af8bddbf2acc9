import Mathlib.Data.Nat.Bitwise
import Mathlib.Tactic

/-!
# The digits of an index

A tree with `2 ^ b` slots in each node finds an index by its digits of `b` bits.
`high b l i` is what is left of `i` above its `l` lowest digits: the number of the
subtree of level `l` that `i` belongs to.
-/
namespace BooxKernel.Digits
open Nat

variable {b l i j base : ℕ}

/-- The index without its `l` lowest digits. -/
def high (b l i : ℕ) : ℕ := i >>> (l * b)

/-- The digit of level `l`. -/
def digit (b l i : ℕ) : Fin (2 ^ b) :=
  ⟨high b l i &&& (2 ^ b - 1), by
    rw [and_two_pow_sub_one_eq_mod]
    exact mod_lt _ (by positivity)⟩

lemma high_eq_div (b l i : ℕ) : high b l i = i / 2 ^ (l * b) := shiftRight_eq_div_pow i (l * b)

@[simp] lemma high_zero (b i : ℕ) : high b 0 i = i := by simp [high]

lemma high_succ (b l i : ℕ) : high b (l + 1) i = high b l i / 2 ^ b := by
  rw [high_eq_div, high_eq_div, Nat.div_div_eq_div_mul]
  congr 2
  ring

lemma digit_val (b l i : ℕ) : (digit b l i).val = high b l i % 2 ^ b := by
  simp only [digit, and_two_pow_sub_one_eq_mod]

lemma digit_mod {k : ℕ} (hk : l * b + b ≤ k) : digit b l (i % 2 ^ k) = digit b l i := by
  apply Fin.ext
  rw [digit_val, digit_val, high_eq_div, high_eq_div]
  apply eq_of_testBit_eq
  intro j
  simp only [testBit_mod_two_pow, testBit_div_two_pow]
  by_cases hj : j < b
  · simp [hj, show j + l * b < k by omega]
  · simp [hj]

lemma high_digit {d : Fin (2 ^ b)} :
    high b l i = 2 ^ b * base + d ↔ high b (l + 1) i = base ∧ digit b l i = d := by
  have hpos : 0 < 2 ^ b := by positivity
  rw [Fin.ext_iff, digit_val, high_succ]
  constructor
  · intro h
    rw [h, mul_add_div hpos, div_eq_of_lt d.isLt, mul_add_mod, mod_eq_of_lt d.isLt]
    exact ⟨rfl, rfl⟩
  · rintro ⟨hbase, hd⟩
    rw [← hbase, ← hd, div_add_mod]

lemma high_eq_zero : high b l i = 0 ↔ i < 2 ^ (l * b) := by
  rw [high_eq_div, Nat.div_eq_zero_iff]
  have hpos : 2 ^ (l * b) ≠ 0 := by positivity
  tauto

lemma high_eq_zero_mono {l' : ℕ} (h : high b l i = 0) (hle : l ≤ l') : high b l' i = 0 := by
  rw [high_eq_zero] at h ⊢
  exact lt_of_lt_of_le h (Nat.pow_le_pow_right (by norm_num) (mul_le_mul_right b hle))

lemma high_eq_iff : high b l i = base ↔ base * 2 ^ (l * b) ≤ i ∧ i < (base + 1) * 2 ^ (l * b) := by
  have hpos : 0 < 2 ^ (l * b) := by positivity
  rw [high_eq_div, Nat.div_eq_iff hpos]
  rw [add_mul]
  omega

lemma high_mono (h : i ≤ j) : high b l i ≤ high b l j := by
  rw [high_eq_div, high_eq_div]
  exact Nat.div_le_div_right h

/-- Going on by a whole subtree of a lower level stays in the subtree of level `j`,
unless it reaches its end. -/
lemma high_add_block (hlt : l < j) (hfirst : 2 ^ (l * b) ∣ i)
    (hinside : ¬ 2 ^ (j * b) ∣ i + 2 ^ (l * b)) : high b j (i + 2 ^ (l * b)) = high b j i := by
  obtain ⟨x, rfl⟩ := hfirst
  have hpow : 2 ^ (j * b) = 2 ^ (l * b) * 2 ^ ((j - l) * b) := by
    rw [← pow_add, ← add_mul, Nat.add_sub_cancel' hlt.le]
  have hpos : 0 < 2 ^ (l * b) := by positivity
  have hnext : 2 ^ (l * b) * x + 2 ^ (l * b) = 2 ^ (l * b) * (x + 1) := by ring
  rw [hpow, hnext, Nat.mul_dvd_mul_iff_left hpos] at hinside
  rw [high_eq_div, high_eq_div, hpow, hnext, Nat.mul_div_mul_left _ _ hpos,
    Nat.mul_div_mul_left _ _ hpos, succ_div_of_not_dvd hinside]

lemma xor_digit {x m : ℕ} (hm : m < 2 ^ b) : x ^^^ x % 2 ^ b ^^^ m = 2 ^ b * (x / 2 ^ b) + m := by
  apply eq_of_testBit_eq
  intro k
  rw [testBit_two_pow_mul_add _ hm, testBit_xor, testBit_xor, testBit_mod_two_pow]
  by_cases hk : k < b
  · simp [hk]
  · have hhigh : m.testBit k = false :=
      testBit_lt_two_pow (lt_of_lt_of_le hm (Nat.pow_le_pow_right (by norm_num) (by omega)))
    rw [hhigh, testBit_div_two_pow, Nat.sub_add_cancel (Nat.le_of_not_lt hk)]
    simp [hk]

lemma or_low_add_one (k i : ℕ) : (i ||| (2 ^ k - 1)) + 1 = (i / 2 ^ k + 1) * 2 ^ k := by
  have hpos : 0 < 2 ^ k := by positivity
  have hor : i ||| (2 ^ k - 1) = 2 ^ k * (i / 2 ^ k) + (2 ^ k - 1) := by
    apply eq_of_testBit_eq
    intro j
    rw [testBit_two_pow_mul_add _ (by omega)]
    by_cases hj : j < k
    · simp [hj]
    · rw [testBit_div_two_pow, Nat.sub_add_cancel (Nat.le_of_not_lt hj)]
      simp [hj]
  rw [hor, add_mul, one_mul, mul_comm, add_assoc, Nat.sub_add_cancel hpos]

lemma not_dvd_next (hb : 0 < b) (hi : 2 ^ ((l + 1) * b) ∣ i) :
    ¬ 2 ^ ((l + 1) * b) ∣ (high b l i + 1) * 2 ^ (l * b) := by
  obtain ⟨x, rfl⟩ := hi
  have hpow : 2 ^ ((l + 1) * b) = 2 ^ b * 2 ^ (l * b) := by
    rw [← pow_add]
    congr 1
    ring
  have hpos : 0 < 2 ^ (l * b) := by positivity
  have htwo : 2 ≤ 2 ^ b := by
    calc 2 = 2 ^ 1 := rfl
      _ ≤ 2 ^ b := Nat.pow_le_pow_right (by norm_num) hb
  rw [high_eq_div, hpow, mul_right_comm, Nat.mul_div_cancel _ hpos,
    Nat.mul_dvd_mul_iff_right hpos]
  intro hdvd
  have hone := (Nat.dvd_add_right (dvd_mul_right (2 ^ b) x)).1 hdvd
  have hle := le_of_dvd one_pos hone
  omega

end BooxKernel.Digits
