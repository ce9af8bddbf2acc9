import Mathlib.Data.Nat.Bitwise
import Mathlib.Tactic

/-!
# Words in parts, and words as parts

A word is taken as lanes of `w` bits, the lowest first. Exclusive or and conjunction
work on each lane alone; so does a product whose partial results fit into the lanes.

A list of words is read as one sequence of bits, the lowest bit of the first word first. A
bit behind the last word is clear. A change of one word changes bits of that word only.
-/
namespace BooxKernel.Lanes
open Nat

variable {w k n v : ℕ}

/-- The lane `k` of a word. -/
def lane (w k v : ℕ) : ℕ := v / 2 ^ (w * k) % 2 ^ w

lemma lane_zero (w v : ℕ) : lane w 0 v = v % 2 ^ w := by simp [lane]

lemma lane_succ (w k v : ℕ) : lane w (k + 1) v = lane w k (v / 2 ^ w) := by
  rw [lane, lane, Nat.div_div_eq_div_mul, ← pow_add, mul_succ, add_comm]

lemma testBit_lane (w k v i : ℕ) :
    (lane w k v).testBit i = (decide (i < w) && v.testBit (w * k + i)) := by
  rw [lane, testBit_mod_two_pow, testBit_div_two_pow, add_comm]

lemma lane_xor (w k a b : ℕ) : lane w k (a ^^^ b) = lane w k a ^^^ lane w k b := by
  rw [lane, lane, lane, xor_div_two_pow, xor_mod_two_pow]

lemma lane_and (w k a b : ℕ) : lane w k (a &&& b) = lane w k a &&& lane w k b := by
  rw [lane, lane, lane, and_div_two_pow, and_mod_two_pow]

lemma lane_mod (hk : k < n) : lane w k (v % 2 ^ (w * n)) = lane w k v := by
  refine eq_of_testBit_eq fun i => ?_
  rw [testBit_lane, testBit_lane]
  by_cases hi : i < w
  · have hlt : w * k + i < w * n := by
      calc w * k + i < w * (k + 1) := by rw [mul_succ]; omega
        _ ≤ w * n := mul_le_mul_left w hk
    simp [hi, hlt]
  · simp [hi]

lemma lane_ofDigits {l : List ℕ} (hl : ∀ a ∈ l, a < 2 ^ w) (hk : k < l.length) :
    lane w k (Nat.ofDigits (2 ^ w) l) = l[k] := by
  have hpos : 0 < 2 ^ w := by positivity
  induction l generalizing k with
  | nil => exact absurd hk (not_lt_zero k)
  | cons a l ih =>
    have ha := hl a (List.mem_cons_self)
    rw [ofDigits_cons]
    cases k with
    | zero =>
      rw [lane_zero]
      exact (add_mul_mod_self_left _ _ _).trans (mod_eq_of_lt ha)
    | succ k =>
      rw [lane_succ, add_mul_div_left _ _ hpos, div_eq_of_lt ha, zero_add]
      exact ih (fun b hb => hl b (List.mem_cons_of_mem a hb)) (lt_of_succ_lt_succ hk)

lemma lane_mul {c : ℕ} (hfit : ∀ j, c * lane w j v < 2 ^ w) (k : ℕ) :
    lane w k (c * v) = c * lane w k v := by
  have hpos : 0 < 2 ^ w := by positivity
  have hsplit : ∀ v, c * v = c * lane w 0 v + 2 ^ w * (c * (v / 2 ^ w)) := by
    intro v
    conv_lhs => rw [← mod_add_div v (2 ^ w)]
    rw [lane_zero]
    ring
  induction k generalizing v with
  | zero =>
    rw [lane_zero, hsplit, add_mul_mod_self_left, mod_eq_of_lt (hfit 0)]
  | succ k ih =>
    rw [lane_succ, lane_succ, hsplit, add_mul_div_left _ _ hpos, div_eq_of_lt (hfit 0),
      zero_add]
    refine ih fun j => ?_
    rw [← lane_succ]
    exact hfit (j + 1)

end BooxKernel.Lanes

namespace BooxKernel.BitWords
open List

variable {w : ℕ} {ws ws' : List (BitVec w)} {i j k : ℕ}

/-- The bit `i` of the words. -/
def bit (ws : List (BitVec w)) (i : ℕ) : Bool := (ws[i / w]?.getD 0).getLsbD (i % w)

/-- The words with `f` applied to the word `k`, if there is one. -/
def modifyWord (ws : List (BitVec w)) (k : ℕ) (f : BitVec w → BitVec w) :
    Option (List (BitVec w)) :=
  ws[k]?.map fun v => ws.set k (f v)

lemma bit_of_getElem? {v : BitVec w} (hv : ws[k]? = some v) (hj : j < w) :
    bit ws (k * w + j) = v.getLsbD j := by
  have hw : 0 < w := by omega
  rw [bit, Nat.mul_comm, Nat.mul_add_div hw, Nat.div_eq_of_lt hj, Nat.add_zero, hv,
    Nat.mul_add_mod, Nat.mod_eq_of_lt hj]
  rfl

lemma bit_word {v : BitVec w} (hv : ws[i / w]? = some v) : bit ws i = v.getLsbD (i % w) := by
  rw [bit, hv]
  rfl

lemma modifyWord_spec (hk : k < ws.length) (f : BitVec w → BitVec w) :
    ∃ ws', modifyWord ws k f = some ws' ∧ ws'.length = ws.length ∧
      ∀ i, bit ws' i = if i / w = k then (f ws[k]).getLsbD (i % w) else bit ws i := by
  refine ⟨ws.set k (f ws[k]), by rw [modifyWord, getElem?_eq_getElem hk, Option.map_some],
    length_set, fun i => ?_⟩
  by_cases hi : i / w = k
  · rw [if_pos hi, bit, hi, getElem?_set_self hk]
    rfl
  · rw [if_neg hi, bit, getElem?_set_ne (Ne.symm hi), bit]

end BooxKernel.BitWords
