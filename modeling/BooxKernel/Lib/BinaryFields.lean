import Mathlib.Algebra.Field.ZMod
import Mathlib.Data.LawfulXor.Basic
import Mathlib.RingTheory.AdjoinRoot

/-!
# Words as elements of a binary field

The bits of a word are the coefficients of a polynomial over the field with two
elements; words are added by exclusive or, and a shift to the left, with the modulus
taken off when a bit is shifted out, multiplies by the variable. When the shifts of 1
go through as many words as possible before they come back to 1, the polynomials
modulo the modulus form a field, and every element other than 0 is a power of the
variable.
-/
namespace BooxKernel.BinaryFields
open Polynomial Finset AdjoinRoot

section Values
variable {R : Type*} [CommRing R] {n r : ℕ} {x : R}

/-- The value at `x` of the polynomial with the `n` bits of `a` as coefficients. -/
def value (n : ℕ) (x : R) (a : ℕ) : R := ∑ i ∈ range n, if a.testBit i then x ^ i else 0

/-- A shift of an `n`-bit word to the left, with `r` added when a bit is shifted out. -/
def shift (n r a : ℕ) : ℕ := 2 * a % 2 ^ n ^^^ if a.testBit (n - 1) then r else 0

@[simp] lemma value_zero : value n x 0 = 0 := by simp [value]

lemma value_one (hn : 0 < n) : value n x 1 = 1 := by
  unfold value
  rw [sum_eq_single 0]
  · simp
  · intro i _ hi
    have hbit : Nat.testBit 1 i = false := by
      rw [Nat.testBit_two_pow_of_ne (Ne.symm hi)]
    rw [hbit]
    rfl
  · intro h
    exact absurd (mem_range.2 hn) h

lemma value_double (hn : 0 < n) (a : ℕ) :
    value n x (2 * a % 2 ^ n) + (if a.testBit (n - 1) then x ^ n else 0) = x * value n x a := by
  obtain ⟨k, rfl⟩ := Nat.exists_eq_succ_of_ne_zero hn.ne'
  have hterm : ∀ i ∈ range k, (if (2 * a % 2 ^ (k + 1)).testBit (i + 1) then x ^ (i + 1) else 0) =
      x * if a.testBit i then x ^ i else 0 := by
    intro i hi
    have hlt : i + 1 < k + 1 := by
      rw [mem_range] at hi
      omega
    rw [Nat.testBit_mod_two_pow, Nat.testBit_succ, Nat.mul_div_cancel_left a (by norm_num)]
    simp only [hlt, decide_true, Bool.true_and]
    split_ifs
    · rw [pow_succ, mul_comm]
    · rw [mul_zero]
  unfold value
  rw [Nat.succ_eq_add_one, sum_range_succ', sum_congr rfl hterm, sum_range_succ,
    mul_add, mul_sum, Nat.add_sub_cancel]
  have hzero : (2 * a % 2 ^ (k + 1)).testBit 0 = false := by
    simp
  rw [hzero]
  simp only [Bool.false_eq_true, if_false, add_zero, mul_ite, mul_zero, pow_succ']

lemma shift_lt (hn : r < 2 ^ n) (a : ℕ) : shift n r a < 2 ^ n := by
  refine Nat.xor_lt_two_pow (Nat.mod_lt _ (by positivity)) ?_
  split_ifs
  · exact hn
  · positivity

variable [CharP R 2]

lemma value_xor (a b : ℕ) : value n x (a ^^^ b) = value n x a + value n x b := by
  unfold value
  rw [← sum_add_distrib]
  refine sum_congr rfl fun i _ => ?_
  rw [Nat.testBit_xor]
  cases a.testBit i <;> cases b.testBit i <;> simp [CharTwo.add_self_eq_zero]

/-- A shift multiplies by `x` when `x` is a root of the modulus. -/
lemma value_shift (hn : 0 < n) (hroot : x ^ n = value n x r) (a : ℕ) :
    value n x (shift n r a) = x * value n x a := by
  unfold shift
  rw [value_xor, ← value_double hn, hroot]
  split_ifs <;> simp

end Values

section Modulus
variable {n r : ℕ}

/-- The polynomial by which the words are reduced. -/
noncomputable def modulus (n r : ℕ) : (ZMod 2)[X] := X ^ n + value n X r

lemma coeff_value (n a i : ℕ) :
    (value n X a : (ZMod 2)[X]).coeff i = if i < n ∧ a.testBit i = true then 1 else 0 := by
  unfold value
  rw [finsetSum_coeff]
  have hterm : ∀ j ∈ range n, (if a.testBit j = true then X ^ j else 0 : (ZMod 2)[X]).coeff i =
      if j = i then (if a.testBit i = true then 1 else 0) else 0 := by
    intro j _
    by_cases hj : j = i
    · subst hj
      rw [if_pos rfl]
      split_ifs <;> simp
    · split_ifs
      · rw [coeff_X_pow, if_neg (Ne.symm hj)]
      · simp
  rw [sum_congr rfl hterm]
  by_cases hi : i < n
  · simp [hi]
  · simp [hi]

lemma degree_value_lt (n a : ℕ) : (value n X a : (ZMod 2)[X]).degree < n := by
  rw [degree_lt_iff_coeff_zero]
  intro i hi
  rw [coeff_value, if_neg fun h => absurd h.1 (not_lt.2 hi)]

lemma monic_modulus (n r : ℕ) : (modulus n r).Monic :=
  monic_X_pow_add (degree_value_lt n r)

lemma degree_modulus (n r : ℕ) : (modulus n r).degree = n := by
  have hlt : (value n X r : (ZMod 2)[X]).degree < ((X : (ZMod 2)[X]) ^ n).degree := by
    rw [degree_X_pow]
    exact degree_value_lt n r
  rw [modulus, degree_add_eq_left_of_degree_lt hlt, degree_X_pow]

lemma mk_value (n r a : ℕ) : mk (modulus n r) (value n X a) = value n (root (modulus n r)) a := by
  unfold value
  rw [map_sum]
  refine sum_congr rfl fun i _ => ?_
  split_ifs
  · rw [map_pow, mk_X]
  · exact map_zero _

lemma value_root_eq_zero {a : ℕ} (ha : a < 2 ^ n)
    (h : value n (root (modulus n r)) a = 0) : a = 0 := by
  rw [← mk_value, mk_eq_zero] at h
  have hdeg : (value n X a : (ZMod 2)[X]).degree < (modulus n r).degree := by
    rw [degree_modulus]
    exact degree_value_lt n a
  have hzero : (value n X a : (ZMod 2)[X]) = 0 := by
    by_contra hne
    exact (monic_modulus n r).not_dvd_of_degree_lt hne hdeg h
  refine Nat.eq_of_testBit_eq fun i => ?_
  rw [Nat.zero_testBit]
  by_cases hi : i < n
  · have hcoeff := coeff_value n a i
    rw [hzero] at hcoeff
    by_contra hbit
    rw [Bool.not_eq_false] at hbit
    rw [if_pos ⟨hi, hbit⟩] at hcoeff
    exact zero_ne_one hcoeff
  · exact Nat.testBit_lt_two_pow (lt_of_lt_of_le ha (Nat.pow_le_pow_right (by norm_num) (not_lt.1 hi)))

lemma exists_value (n r : ℕ) (y : AdjoinRoot (modulus n r)) :
    ∃ a < 2 ^ n, y = value n (root (modulus n r)) a := by
  obtain ⟨f, rfl⟩ := mk_surjective y
  set g := f %ₘ modulus n r with hg
  have hdeg : g.degree < n := by
    rw [← degree_modulus n r]
    exact degree_modByMonic_lt f (monic_modulus n r)
  refine ⟨Nat.ofBits fun i : Fin n => decide (g.coeff i = 1), Nat.ofBits_lt_two_pow _, ?_⟩
  have hword : g = value n X (Nat.ofBits fun i : Fin n => decide (g.coeff i = 1)) := by
    ext i
    rw [coeff_value]
    by_cases hi : i < n
    · rw [Nat.testBit_ofBits_lt _ i hi]
      have hbit : ∀ c : ZMod 2, c = if i < n ∧ decide (c = 1) = true then 1 else 0 := by
        simp only [hi, true_and]
        decide
      exact hbit (g.coeff i)
    · rw [if_neg fun h => hi h.1]
      exact coeff_eq_zero_of_degree_lt
        (lt_of_lt_of_le hdeg (by exact_mod_cast not_lt.1 hi))
  rw [← mk_value, ← hword, hg]
  exact (mk_eq_mk.2 (modByMonic_eq_sub_mul_div f (modulus n r) ▸ by simp))

lemma nontrivial_residues (hn : 0 < n) : Nontrivial (AdjoinRoot (modulus n r)) := by
  refine ⟨1, 0, ?_⟩
  rw [← value_one hn]
  exact fun h => one_ne_zero (value_root_eq_zero (Nat.one_lt_two_pow hn.ne') h)

lemma charP_residues (hn : 0 < n) : CharP (AdjoinRoot (modulus n r)) 2 := by
  have := nontrivial_residues (r := r) hn
  refine CharTwo.of_one_ne_zero_of_two_eq_zero one_ne_zero ?_
  rw [← map_ofNat (of (modulus n r)) 2, show (OfNat.ofNat 2 : ZMod 2) = 0 from rfl,
    map_zero]

lemma root_pow (hn : 0 < n) : (root (modulus n r)) ^ n = value n (root (modulus n r)) r := by
  have := charP_residues (r := r) hn
  have hroot : mk (modulus n r) (X ^ n + value n X r) = 0 := mk_self
  rw [map_add, mk_value] at hroot
  exact CharTwo.add_eq_zero.1 hroot

end Modulus

section Primitive
variable {n r : ℕ}

/-- The shifts of 1 come back to 1 after all words but 0 were visited. -/
structure Primitive (n r : ℕ) : Prop where
  pos : 0 < n
  small : r < 2 ^ n
  back : (shift n r)^[2 ^ n - 1] 1 = 1
  first : ∀ i, 0 < i → i < 2 ^ n - 1 → (shift n r)^[i] 1 ≠ 1

/-- A field whose elements are the `n`-bit words, in which a shift multiplies by `x`. -/
structure Realizes (n r : ℕ) (K : Type*) [Field K] (x : K) : Prop where
  pos : 0 < n
  char : CharP K 2
  root : x ^ n = value n x r
  eq_zero : ∀ a < 2 ^ n, value n x a = 0 → a = 0
  order : orderOf x = 2 ^ n - 1
  powers : ∀ y : K, y ≠ 0 → ∃ i < 2 ^ n - 1, y = x ^ i

lemma value_iterate {R : Type*} [CommRing R] [CharP R 2] {x : R} (hn : 0 < n)
    (hroot : x ^ n = value n x r) (i : ℕ) : value n x ((shift n r)^[i] 1) = x ^ i := by
  induction i with
  | zero => rw [Function.iterate_zero_apply, value_one hn, pow_zero]
  | succ i ih => rw [Function.iterate_succ_apply', value_shift hn hroot, ih, pow_succ']

lemma value_inj {R : Type*} [CommRing R] [CharP R 2] {x : R}
    (hzero : ∀ a < 2 ^ n, value n x a = 0 → a = 0) {a b : ℕ} (ha : a < 2 ^ n) (hb : b < 2 ^ n)
    (h : value n x a = value n x b) : a = b := by
  rw [← xor_eq_zero_iff]
  refine hzero _ (Nat.xor_lt_two_pow ha hb) ?_
  rw [value_xor, h, CharTwo.add_self_eq_zero]

namespace Primitive

section
variable (h : Primitive n r)
include h

lemma iterate_shift_lt (i : ℕ) : (shift n r)^[i] 1 < 2 ^ n := by
  cases i with
  | zero => exact Nat.one_lt_two_pow h.pos.ne'
  | succ i =>
    rw [Function.iterate_succ_apply']
    exact shift_lt h.small _

lemma root_pow_eq_one (i : ℕ) : root (modulus n r) ^ i = 1 ↔ (shift n r)^[i] 1 = 1 := by
  have := charP_residues (r := r) h.pos
  rw [← value_iterate h.pos (root_pow h.pos), ← value_one h.pos]
  refine ⟨fun heq => ?_, fun heq => by rw [heq]⟩
  exact value_inj (fun a => value_root_eq_zero) (h.iterate_shift_lt i)
    (Nat.one_lt_two_pow h.pos.ne') heq

lemma orderOf_root : orderOf (root (modulus n r)) = 2 ^ n - 1 := by
  have hlong := Nat.one_lt_two_pow h.pos.ne'
  rw [orderOf_eq_iff (by omega)]
  refine ⟨(h.root_pow_eq_one _).2 h.back, fun i hi hpos heq => ?_⟩
  exact h.first i hpos hi ((h.root_pow_eq_one i).1 heq)

lemma isUnit_root : IsUnit (root (modulus n r)) := by
  have hlong := Nat.one_lt_two_pow h.pos.ne'
  exact IsUnit.of_pow_eq_one ((h.root_pow_eq_one _).2 h.back) (by omega)

lemma exists_iterate {a : ℕ} (hpos : 0 < a) (ha : a < 2 ^ n) :
    ∃ i < 2 ^ n - 1, (shift n r)^[i] 1 = a := by
  have := charP_residues (r := r) h.pos
  have := nontrivial_residues (r := r) h.pos
  have hvalue := value_iterate h.pos (root_pow (r := r) h.pos)
  have hinj : Set.InjOn (fun i => (shift n r)^[i] 1) (range (2 ^ n - 1)) := by
    intro i hi j hj heq
    simp only [coe_range, Set.mem_Iio, ← h.orderOf_root] at hi hj
    refine pow_injOn_Iio_orderOf hi hj ?_
    exact (hvalue i).symm.trans ((congrArg _ heq).trans (hvalue j))
  have hsub : (range (2 ^ n - 1)).image (fun i => (shift n r)^[i] 1) ⊆ Ioo 0 (2 ^ n) := by
    intro b hb
    obtain ⟨i, -, rfl⟩ := mem_image.1 hb
    refine mem_Ioo.2 ⟨pos_of_ne_zero fun hzero => ?_, h.iterate_shift_lt i⟩
    refine (h.isUnit_root.pow i).ne_zero ?_
    rw [← hvalue i, hzero, value_zero]
  have himage := eq_of_subset_of_card_le hsub (by
    rw [card_image_of_injOn hinj, Nat.card_Ioo, card_range]
    omega)
  obtain ⟨i, hi, heq⟩ := mem_image.1 (himage ▸ mem_Ioo.2 ⟨hpos, ha⟩)
  exact ⟨i, mem_range.1 hi, heq⟩

lemma residue_eq_pow {y : AdjoinRoot (modulus n r)} (hy : y ≠ 0) :
    ∃ i < 2 ^ n - 1, y = root (modulus n r) ^ i := by
  have := charP_residues (r := r) h.pos
  obtain ⟨a, ha, rfl⟩ := exists_value n r y
  have hpos : 0 < a := by
    refine pos_of_ne_zero fun hzero => hy ?_
    rw [hzero, value_zero]
  obtain ⟨i, hi, rfl⟩ := h.exists_iterate hpos ha
  exact ⟨i, hi, value_iterate h.pos (root_pow h.pos) i⟩

/-- The words with a primitive modulus are a field. -/
lemma exists_field : ∃ (K : Type) (_ : Field K) (x : K), Realizes n r K x := by
  have hfield : IsField (AdjoinRoot (modulus n r)) := by
    have := nontrivial_residues (r := r) h.pos
    refine ⟨exists_pair_ne _, mul_comm, fun {y} hy => ?_⟩
    obtain ⟨i, -, rfl⟩ := h.residue_eq_pow hy
    obtain ⟨u, hu⟩ := h.isUnit_root.pow i
    exact ⟨u⁻¹.val, hu ▸ u.mul_inv⟩
  let K := hfield.toField
  exact ⟨AdjoinRoot (modulus n r), K, root (modulus n r), h.pos,
    charP_residues h.pos, root_pow h.pos, fun a ha => value_root_eq_zero ha, h.orderOf_root,
    fun y hy => h.residue_eq_pow hy⟩

end

end Primitive
end Primitive

end BooxKernel.BinaryFields
