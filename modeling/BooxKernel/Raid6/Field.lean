import BooxKernel.Lib.BinaryFields
import BooxKernel.Raid6.Model

/-!
# The tables of RAID-6 as operations of a field

The bytes are the field with 256 elements, in which the byte 2 is a generator `x`:
`gfmul` is the product, `gfexp` the powers of `x`, `gfinv` the inverse and `gfexi` the
inverse of `x ^ i + 1`.
-/
namespace BooxKernel.Raid6

open BinaryFields

/-- The generator of the field of bytes: its shifts with `0x1d` visit every byte but 0. -/
lemma primitive_byte : Primitive 8 0x1d where
  pos := by decide
  small := by decide
  back := by decide +kernel
  first := by
    have h : ∀ i < 255, 0 < i → (shift 8 0x1d)^[i] 1 ≠ 1 := by decide +kernel
    exact fun i hpos hi => h i hi hpos

variable {K : Type*} [Field K] {x : K}

/-- The element of the field that a byte stands for. -/
def val (x : K) (b : Byte) : K := value 8 x b.toNat

lemma val_zero : val x 0 = 0 := value_zero

lemma val_one : val x 1 = 1 := value_one (by decide)

lemma shiftLeft_toNat (a : Byte) :
    (a <<< 1 ^^^ (if a &&& 0x80 ≠ 0 then 0x1d else 0)).toNat = shift 8 0x1d a.toNat := by
  revert a
  decide +kernel

section
variable (hx : Realizes 8 0x1d K x) {i a b : ℕ}
include hx

lemma val_xor (a b : Byte) : val x (a ^^^ b) = val x a + val x b := by
  have := hx.char
  rw [val, BitVec.toNat_xor, value_xor]
  rfl

lemma val_inj {a b : Byte} (h : val x a = val x b) : a = b := by
  have := hx.char
  exact BitVec.eq_of_toNat_eq (value_inj hx.eq_zero a.isLt b.isLt h)

lemma val_ne_zero {a : Byte} (h : a ≠ 0) : val x a ≠ 0 := by
  intro hzero
  exact h (val_inj hx (hzero.trans val_zero.symm))

lemma val_mul_half (a : K) (b : Byte) :
    a * val x b = (if b &&& 1 ≠ 0 then a else 0) + x * a * val x (b >>> 1) := by
  have := hx.char
  have hhalf : b = (if b &&& 1 ≠ 0 then (1 : Byte) else 0) ^^^ (b >>> 1) <<< 1 := by
    revert b
    decide +kernel
  have hdouble : val x ((b >>> 1) <<< 1) = x * val x (b >>> 1) := by
    have hshift : ((b >>> 1) <<< 1).toNat = shift 8 0x1d (b >>> 1).toNat := by
      revert b
      decide +kernel
    rw [val, hshift, value_shift hx.pos hx.root]
    rfl
  conv_lhs => rw [hhalf, val_xor hx, hdouble]
  split_ifs
  · rw [val_one]
    ring
  · rw [val_zero]
    ring

lemma val_gfmulLoop (a b v : Byte) : val x (gfmulLoop a b v) = val x v + val x a * val x b := by
  have := hx.char
  induction hn : b.toNat using Nat.strong_induction_on generalizing a b v with
  | _ n ih =>
    rw [gfmulLoop]
    by_cases hb : b = 0
    · rw [if_pos hb, hb, val_zero, mul_zero, add_zero]
    · have hlt : (b >>> 1).toNat < n := by
        have hpos : b.toNat ≠ 0 := fun hzero => hb (BitVec.eq_of_toNat_eq hzero)
        rw [BitVec.toNat_ushiftRight]
        omega
      have hshift : val x (a <<< 1 ^^^ (if a &&& 0x80 ≠ 0 then 0x1d else 0)) = x * val x a := by
        rw [val, shiftLeft_toNat, value_shift hx.pos hx.root]
        rfl
      rw [if_neg hb]
      rw [ih _ hlt _ _ _ rfl, hshift, val_mul_half hx (val x a) b, ← add_assoc]
      split_ifs
      · rw [val_xor hx]
      · rw [add_zero]

lemma val_gfmul (a b : Byte) : val x (gfmul a b) = val x a * val x b := by
  rw [gfmul, val_gfmulLoop hx, val_zero, zero_add]

lemma val_gfpowLoop (a : Byte) (b : ℕ) (v : Byte) :
    val x (gfpowLoop a b v) = val x v * val x a ^ b := by
  induction b using Nat.strong_induction_on generalizing a v with
  | _ b ih =>
    rw [gfpowLoop]
    by_cases hb : b = 0
    · rw [if_pos hb, hb, pow_zero, mul_one]
    · have hv : val x (if b % 2 ≠ 0 then gfmul v a else v) = val x v * val x a ^ (b % 2) := by
        split_ifs with hodd
        · rw [val_gfmul hx, Nat.mod_two_ne_zero.1 hodd, pow_one]
        · rw [not_not.1 hodd, pow_zero, mul_one]
      rw [if_neg hb]
      rw [ih _ (by omega), hv, val_gfmul hx, ← sq, ← pow_mul, mul_assoc, ← pow_add, Nat.mod_add_div]

lemma val_two : val x 2 = x := by
  have := hx.char
  have hshift : (2 : Byte).toNat = shift 8 0x1d 1 := by decide
  rw [val, hshift, value_shift hx.pos hx.root, value_one hx.pos, mul_one]

lemma pow_eq_one_iff (i : ℕ) : x ^ i = 1 ↔ 255 ∣ i := by
  rw [← orderOf_dvd_iff_pow_eq_one, hx.order]
  norm_num

lemma generator_ne_zero : x ≠ 0 := by
  intro hzero
  have hone := (pow_eq_one_iff hx 255).2 dvd_rfl
  rw [hzero, zero_pow (by norm_num)] at hone
  exact zero_ne_one hone

/-- The table of powers, up to the entry that is not a real one. -/
lemma val_gfexp (hi : i < 255) : val x (gfexp i) = x ^ i := by
  induction i with
  | zero => rw [gfexp, val_one, pow_zero]
  | succ i ih =>
    have hmul : val x (gfmul (gfexp i) 2) = x ^ (i + 1) := by
      rw [val_gfmul hx, ih (by omega), val_two hx, pow_succ]
    have hone : gfmul (gfexp i) 2 ≠ 1 := by
      intro hone
      rw [hone, val_one] at hmul
      have := Nat.le_of_dvd (by omega) ((pow_eq_one_iff hx _).1 hmul.symm)
      omega
    rw [gfexp, if_neg hone, hmul]

lemma val_gfinv {i : Byte} (hi : i ≠ 0) : val x (gfinv i) = (val x i)⁻¹ := by
  have hne := val_ne_zero hx hi
  have hpow : val x i ^ 255 = 1 := by
    obtain ⟨k, -, hk⟩ := hx.powers _ hne
    rw [hk, ← pow_mul, pow_eq_one_iff hx]
    exact Dvd.intro_left k rfl
  have hinv : val x (gfinv i) = val x i ^ 254 := by
    exact (val_gfpowLoop hx i 254 1).trans (by rw [val_one, one_mul])
  rw [hinv]
  exact eq_inv_of_mul_eq_one_left ((pow_succ _ _).symm.trans hpow)

lemma pow_add_pow_ne_zero (hab : a < b) (hb : b < 255) : x ^ a + x ^ b ≠ 0 := by
  have := hx.char
  intro h
  have hlt : ∀ i < 255, i ∈ Set.Iio (orderOf x) := by
    intro i hi
    rw [hx.order]
    exact hi
  have heq := pow_injOn_Iio_orderOf (hlt a (by omega)) (hlt b hb) (CharTwo.add_eq_zero.1 h)
  omega

lemma gfexp_xor_ne_zero (hab : a < b) (hb : b < 255) : gfexp a ^^^ gfexp b ≠ 0 := by
  intro h
  have hval := val_xor hx (gfexp a) (gfexp b)
  rw [h, val_zero, val_gfexp hx (by omega), val_gfexp hx hb] at hval
  exact pow_add_pow_ne_zero hx hab hb hval.symm

lemma val_gfexi (hpos : 0 < i) (hi : i < 255) : val x (gfexi i) = (x ^ i + 1)⁻¹ := by
  have hne : gfexp i ^^^ 1 ≠ 0 := by
    rw [BitVec.xor_comm]
    exact gfexp_xor_ne_zero hx hpos hi
  rw [gfexi, val_gfinv hx hne, val_xor hx, val_gfexp hx hi, val_one]

/-- The two factors of `raid6_2data_recov` take a lost block out of the differences of the
two parities. -/
lemma recover_two (hab : a < b) (hb : b < 255) (A B : K) :
    (x ^ (b - a) + 1)⁻¹ * (A + B) + (x ^ a + x ^ b)⁻¹ * (x ^ a * A + x ^ b * B) = B := by
  have := hx.char
  have hne := pow_add_pow_ne_zero hx hab hb
  have hfactor : x ^ a + x ^ b = x ^ a * (x ^ (b - a) + 1) := by
    rw [mul_add, ← pow_add, Nat.add_sub_cancel' hab.le, mul_one, add_comm]
  have hquot : (x ^ (b - a) + 1)⁻¹ = (x ^ a + x ^ b)⁻¹ * x ^ a := by
    rw [hfactor, mul_inv, mul_comm (x ^ a)⁻¹, mul_assoc,
      inv_mul_cancel₀ (pow_ne_zero a (generator_ne_zero hx)), mul_one]
  have hsum : x ^ a * (A + B) + (x ^ a * A + x ^ b * B) = (x ^ a + x ^ b) * B := by
    have htwo : x ^ a * A + x ^ a * A = 0 := CharTwo.add_self_eq_zero _
    linear_combination htwo
  rw [hquot, mul_assoc, ← mul_add, hsum, inv_mul_cancel_left₀ hne]

end

end BooxKernel.Raid6
