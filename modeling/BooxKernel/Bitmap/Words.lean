import BooxKernel.Lib.Words
import BooxKernel.Lib.Loops
import Mathlib.Algebra.Order.Group.Nat

/-!
# Bitmaps

A bitmap is an array of `unsigned long`s of 32 or 64 bits. An access to a word that the
array does not have has no value.
-/
namespace BooxKernel.Bitmap
open BitVec BitWords Loops Nat

/-- The two sizes of an `unsigned long`. -/
inductive Arch
  | bits32
  | bits64
  deriving Repr, DecidableEq

/-- `BITS_PER_LONG`. -/
def Arch.bitsPerLong : Arch → ℕ
  | bits32 => 32
  | bits64 => 64

lemma Arch.bitsPerLong_pos (a : Arch) : 0 < a.bitsPerLong := by cases a <;> decide

variable {w : ℕ}

/-- `BITS_TO_LONGS`. -/
def bitsToLongs (w n : ℕ) : ℕ := (n + w - 1) / w

lemma toNat_one_shiftLeft {n : ℕ} (hn : n < w) : (1#w <<< n).toNat = 2 ^ n := by
  have hlt : 2 ^ n < 2 ^ w := Nat.pow_lt_pow_right (by decide) hn
  rw [toNat_shiftLeft, toNat_ofNat, mod_eq_of_lt (Nat.one_lt_two_pow (by omega)),
    Nat.shiftLeft_eq, one_mul, mod_eq_of_lt hlt]

lemma toNat_one_shiftLeft_sub {n : ℕ} (hn : n < w) : (1#w <<< n - 1#w).toNat = 2 ^ n - 1 := by
  have hone : (1#w).toNat = 1 := by simpa using toNat_one_shiftLeft (show 0 < w by omega)
  rw [toNat_sub_of_le, toNat_one_shiftLeft hn, hone]
  rw [le_def, toNat_one_shiftLeft hn, hone]
  exact Nat.two_pow_pos n

/-! ## Areas -/

/-- The bits from `i` on and below `i + n` are free. -/
def Clear (ws : List (BitVec w)) (i n : ℕ) : Prop := ∀ j, i ≤ j → j < i + n → bit ws j = false

variable {ws : List (BitVec w)} {i n : ℕ}

lemma modifyWords_spec {index : ℕ} {f : BitVec w → BitVec w} {g : ℕ → Bool → Bool} (hw : 0 < w)
    (hf : ∀ v, ∀ i < w, (f v).getLsbD i = g i (v.getLsbD i)) (h : index + n ≤ ws.length) :
    ∃ ws', forUpto (fun i ws => modifyWord ws (index + i) f) n 0 ws = some ws' ∧
      ws'.length = ws.length ∧ ∀ j, bit ws' j =
        if index ≤ j / w ∧ j / w < index + n then g (j % w) (bit ws j) else bit ws j := by
  have hround : ∀ k (ws1 : List (BitVec w)), k < n → (ws1.length = ws.length ∧ ∀ j, bit ws1 j =
        if index ≤ j / w ∧ j / w < index + k then g (j % w) (bit ws j) else bit ws j) →
      ∃ ws2, modifyWord ws1 (index + k) f = some ws2 ∧ ws2.length = ws.length ∧ ∀ j, bit ws2 j =
        if index ≤ j / w ∧ j / w < index + (k + 1) then g (j % w) (bit ws j) else bit ws j := by
    rintro k ws1 hk ⟨hlen, hbits⟩
    have hlt : index + k < ws1.length := by omega
    obtain ⟨ws2, hset, hlen2, hbits2⟩ := modifyWord_spec hlt f
    refine ⟨ws2, hset, hlen2.trans hlen, fun j => ?_⟩
    rw [hbits2]
    by_cases hj : j / w = index + k
    · rw [if_pos hj, if_pos (by omega), hf _ _ (mod_lt j hw),
        ← bit_word (by rw [hj]; exact List.getElem?_eq_getElem hlt), hbits, if_neg (by omega)]
    · rw [if_neg hj, hbits]
      exact if_congr (by omega) rfl rfl
  exact forUpto_rule hround (zero_add n) ⟨rfl, fun j => by rw [if_neg (by omega)]⟩

end BooxKernel.Bitmap
