import Mathlib.Data.Nat.Bitwise
import Mathlib.Tactic

/-!
# Blocks of two power size

A set of numbers is tiled by aligned blocks whose sizes are powers of two. Two buddies
of one order are the halves of an aligned block of the next order, and the bit of their
size tells them apart.
-/
namespace BooxKernel.Buddies
open Nat Set

/-- The numbers from `start` on, `2 ^ order` of them. -/
@[ext]
structure Block where
  start : ℕ
  order : ℕ
  deriving DecidableEq

def Block.pages (b : Block) : Finset ℕ := Finset.Ico b.start (b.start + 2 ^ b.order)

lemma Block.mem_pages {b : Block} {x : ℕ} :
    x ∈ b.pages ↔ b.start ≤ x ∧ x < b.start + 2 ^ b.order := Finset.mem_Ico

@[simp] lemma Block.start_mem_pages (b : Block) : b.start ∈ b.pages := by
  rw [Block.mem_pages]
  have : 0 < 2 ^ b.order := by positivity
  omega

@[simp] lemma Block.card_pages (b : Block) : b.pages.card = 2 ^ b.order := by
  simp [Block.pages]

/-- The block that makes a block of the next order together with `b`. -/
def Block.buddy (b : Block) : Block := ⟨b.start ^^^ 2 ^ b.order, b.order⟩

section Bits
variable {p k : ℕ}

lemma two_pow_mul_xor (k m : ℕ) : 2 ^ k * m ^^^ 2 ^ k = 2 ^ k * (m ^^^ 1) := by
  apply eq_of_testBit_eq
  intro j
  simp only [testBit_xor, testBit_two_pow_mul, testBit_two_pow]
  by_cases hj : k ≤ j
  · simp only [hj, decide_true, Bool.true_and]
    congr 1
    rw [show (1 : ℕ) = 2 ^ 0 from rfl, testBit_two_pow]
    exact decide_eq_decide.2 (by omega)
  · simp only [hj, decide_false, Bool.false_and, Bool.false_xor]
    exact decide_eq_false (by omega)

lemma two_pow_mul_ldiff (k m : ℕ) : Nat.ldiff (2 ^ k * m) (2 ^ k) = 2 ^ k * (m - m % 2) := by
  have hm : m - m % 2 = 2 ^ 1 * (m / 2) := by omega
  rw [hm]
  apply eq_of_testBit_eq
  intro j
  rw [testBit_ldiff, testBit_two_pow_mul, testBit_two_pow, testBit_two_pow_mul, testBit_two_pow_mul]
  by_cases hj : k ≤ j
  · by_cases heq : k = j
    · simp [heq]
    · have h1 : 1 ≤ j - k := by omega
      simp only [hj, heq, h1, decide_true, decide_false, Bool.true_and, Bool.not_false,
        Bool.and_true, testBit_div_two]
      congr 1
      omega
  · simp [hj]

section
variable (h : 2 ^ (k + 1) ∣ p)
include h

lemma xor_of_first : p ^^^ 2 ^ k = p + 2 ^ k := by
  obtain ⟨m, rfl⟩ := h
  rw [pow_succ, mul_assoc, two_pow_mul_xor, xor_one_of_even (even_two_mul m)]
  ring

lemma xor_of_second : (p + 2 ^ k) ^^^ 2 ^ k = p := by
  obtain ⟨m, rfl⟩ := h
  have hodd : Odd (2 * m + 1) := ⟨m, rfl⟩
  rw [show 2 ^ (k + 1) * m + 2 ^ k = 2 ^ k * (2 * m + 1) by ring, two_pow_mul_xor,
    xor_one_of_odd hodd, Nat.add_sub_cancel]
  ring

lemma ldiff_of_first : ldiff p (2 ^ k) = p := by
  obtain ⟨m, rfl⟩ := h
  rw [pow_succ, mul_assoc, two_pow_mul_ldiff, mul_mod_right, Nat.sub_zero]

lemma ldiff_of_second : ldiff (p + 2 ^ k) (2 ^ k) = p := by
  obtain ⟨m, rfl⟩ := h
  rw [show 2 ^ (k + 1) * m + 2 ^ k = 2 ^ k * (2 * m + 1) by ring, two_pow_mul_ldiff,
    show 2 * m + 1 - (2 * m + 1) % 2 = 2 * m by omega]
  ring

end

lemma first_or_second (h : 2 ^ k ∣ p) : 2 ^ (k + 1) ∣ p ∨ ∃ q, 2 ^ (k + 1) ∣ q ∧ p = q + 2 ^ k := by
  obtain ⟨m, rfl⟩ := h
  rcases even_or_odd' m with ⟨n, rfl | rfl⟩
  · exact .inl ⟨n, by ring⟩
  · exact .inr ⟨2 ^ (k + 1) * n, dvd_mul_right _ _, by ring⟩

end Bits

/-- The blocks of `L` tile the set `P`. -/
structure Tiling (P : Finset ℕ) (L : Set Block) : Prop where
  aligned : ∀ b ∈ L, 2 ^ b.order ∣ b.start
  unique : ∀ b ∈ L, ∀ b' ∈ L, ∀ x ∈ b.pages, x ∈ b'.pages → b = b'
  cover : ∀ x, x ∈ P ↔ ∃ b ∈ L, x ∈ b.pages

section Tiling
variable {P : Finset ℕ} {L : Set Block} {p k : ℕ}

lemma Tiling.replace {A B L : Set Block} (h : Tiling P (A ∪ L)) (hA : ∀ b ∈ A, b ∉ L)
    (halign : ∀ b ∈ B, 2 ^ b.order ∣ b.start)
    (hunique : ∀ b ∈ B, ∀ b' ∈ B, ∀ x ∈ b.pages, x ∈ b'.pages → b = b')
    (hcover : ∀ x, (∃ b ∈ B, x ∈ b.pages) ↔ ∃ b ∈ A, x ∈ b.pages) : Tiling P (B ∪ L) where
  aligned := by
    rintro b (hb | hb)
    · exact halign b hb
    · exact h.aligned b (.inr hb)
  unique := by
    have hcross : ∀ b ∈ B, ∀ b' ∈ L, ∀ x ∈ b.pages, x ∉ b'.pages := by
      intro b hb b' hb' x hx hx'
      obtain ⟨a, ha, hxa⟩ := (hcover x).1 ⟨b, hb, hx⟩
      have heq := h.unique a (.inl ha) b' (.inr hb') x hxa hx'
      exact hA a ha (heq ▸ hb')
    rintro b (hb | hb) b' (hb' | hb') x hx hx'
    · exact hunique b hb b' hb' x hx hx'
    · exact absurd hx' (hcross b hb b' hb' x hx)
    · exact absurd hx (hcross b' hb' b hb x hx')
    · exact h.unique b (.inr hb) b' (.inr hb') x hx hx'
  cover x := by
    rw [h.cover x]
    simp only [mem_union, or_and_right, exists_or, hcover]

lemma mem_halves {x : ℕ} :
    (x ∈ (⟨p, k⟩ : Block).pages ∨ x ∈ (⟨p + 2 ^ k, k⟩ : Block).pages) ↔
      x ∈ (⟨p, k + 1⟩ : Block).pages := by
  simp only [Block.mem_pages, pow_succ]
  omega

lemma halves_disjoint {x : ℕ} (h : x ∈ (⟨p, k⟩ : Block).pages) :
    x ∉ (⟨p + 2 ^ k, k⟩ : Block).pages := by
  simp only [Block.mem_pages] at h ⊢
  omega

lemma halves_ne : (⟨p, k⟩ : Block) ≠ ⟨p + 2 ^ k, k⟩ := by
  have : 0 < 2 ^ k := by positivity
  simp only [ne_eq, Block.mk.injEq, not_and, not_true_eq_false]
  omega

lemma insert_halves : insert ⟨p, k⟩ (insert ⟨p + 2 ^ k, k⟩ L) =
    ({⟨p, k⟩, ⟨p + 2 ^ k, k⟩} : Set Block) ∪ L := by
  rw [insert_union, singleton_union]

lemma exists_halves {x : ℕ} :
    (∃ b ∈ ({⟨p, k⟩, ⟨p + 2 ^ k, k⟩} : Set Block), x ∈ b.pages) ↔
      ∃ b ∈ ({⟨p, k + 1⟩} : Set Block), x ∈ b.pages := by
  simp only [mem_insert_iff, mem_singleton_iff, exists_eq_or_imp, exists_eq_left, mem_halves]

lemma Tiling.split (h : Tiling P (insert ⟨p, k + 1⟩ L)) (hout : ⟨p, k + 1⟩ ∉ L) :
    Tiling P (insert ⟨p, k⟩ (insert ⟨p + 2 ^ k, k⟩ L)) := by
  have halign : 2 ^ k ∣ p :=
    (pow_dvd_pow 2 (le_succ k)).trans (h.aligned ⟨p, k + 1⟩ (mem_insert _ _))
  rw [insert_halves]
  apply Tiling.replace (A := {⟨p, k + 1⟩})
  · exact h
  · rintro b rfl
    exact hout
  · rintro b (rfl | rfl)
    · exact halign
    · exact (Nat.dvd_add_right halign).2 dvd_rfl
  · rintro b (rfl | rfl) b' (rfl | rfl) x hx hx'
    · rfl
    · exact absurd hx' (halves_disjoint hx)
    · exact absurd hx (halves_disjoint hx')
    · rfl
  · exact fun x => exists_halves

lemma Tiling.join (h : Tiling P (insert ⟨p, k⟩ (insert ⟨p + 2 ^ k, k⟩ L)))
    (halign : 2 ^ (k + 1) ∣ p) (hfirst : ⟨p, k⟩ ∉ L) (hsecond : ⟨p + 2 ^ k, k⟩ ∉ L) :
    Tiling P (insert ⟨p, k + 1⟩ L) := by
  rw [insert_halves] at h
  apply h.replace (B := {⟨p, k + 1⟩})
  · rintro b (rfl | rfl)
    · exact hfirst
    · exact hsecond
  · rintro b rfl
    exact halign
  · rintro b rfl b' rfl x _ _
    rfl
  · exact fun x => exists_halves.symm

lemma Tiling.join_buddy {b : Block} (h : Tiling P (insert b (insert b.buddy L))) (hb : b ∉ L)
    (hbuddy : b.buddy ∉ L) : Tiling P (insert ⟨ldiff b.start (2 ^ b.order), b.order + 1⟩ L) := by
  obtain ⟨p, k⟩ := b
  simp only [Block.buddy] at h hbuddy ⊢
  have halign : 2 ^ k ∣ p := h.aligned ⟨p, k⟩ (mem_insert _ _)
  rcases first_or_second halign with hp | ⟨q, hq, rfl⟩
  · rw [xor_of_first hp] at h hbuddy
    rw [ldiff_of_first hp]
    exact h.join hp hb hbuddy
  · rw [xor_of_second hq, insert_comm] at h
    rw [xor_of_second hq] at hbuddy
    rw [ldiff_of_second hq]
    exact h.join hq hbuddy hb

end Tiling

end BooxKernel.Buddies
