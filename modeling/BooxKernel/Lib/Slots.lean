import Mathlib.Tactic

/-!
# Counting the filled slots of a node

A node keeps the number of its slots that hold something. `isNull` tells which
values of a slot are empty.
-/
namespace BooxKernel.Slots
open Function Finset

variable {ι β : Type*} [Fintype ι] {isNull : β → Bool} {slots : ι → β} {d : ι} {p : β}

/-- The number of filled slots. -/
def filled (isNull : β → Bool) (slots : ι → β) : ℕ :=
  (Finset.univ.filter fun d => isNull (slots d) = false).card

lemma filled_eq_zero (h : filled isNull slots = 0) (d : ι) : isNull (slots d) = true := by
  have hempty := card_eq_zero.1 h
  by_contra hd
  have hmem : d ∈ univ.filter fun d => isNull (slots d) = false := by simpa using hd
  rw [hempty] at hmem
  exact notMem_empty d hmem

lemma filled_empty (h : ∀ d, isNull (slots d) = true) : filled isNull slots = 0 := by
  simp [filled, h]

lemma isNull_of_filled_one (h : filled isNull slots = 1) (hd : isNull (slots d) = false) {e : ι}
    (he : e ≠ d) : isNull (slots e) = true := by
  obtain ⟨f, hf⟩ := card_eq_one.1 h
  have hdf : d ∈ ({f} : Finset ι) := by
    rw [← hf]
    simp [hd]
  rw [mem_singleton] at hdf
  by_contra hne
  have hef : e ∈ ({f} : Finset ι) := by
    rw [← hf]
    simpa using hne
  rw [mem_singleton] at hef
  exact he (hef.trans hdf.symm)

lemma filled_one (hd : isNull (slots d) = false) (h : ∀ e, e ≠ d → isNull (slots e) = true) :
    filled isNull slots = 1 := by
  have hset : (univ.filter fun e => isNull (slots e) = false) = {d} := by
    ext e
    by_cases he : e = d
    · simp [he, hd]
    · simp [he, h e he]
  unfold filled
  rw [hset, card_singleton]

variable [DecidableEq ι]

lemma filled_update_fill (hd : isNull (slots d) = true) (hp : isNull p = false) :
    filled isNull (update slots d p) = filled isNull slots + 1 := by
  have hset : (univ.filter fun e => isNull (update slots d p e) = false) =
      insert d (univ.filter fun e => isNull (slots e) = false) := by
    ext e
    by_cases he : e = d
    · simp [he, hp]
    · simp [he]
  unfold filled
  rw [hset, card_insert_of_notMem (by simp [hd])]

lemma filled_update_clear (hd : isNull (slots d) = false) (hp : isNull p = true) :
    filled isNull (update slots d p) + 1 = filled isNull slots := by
  have hnull : isNull (update slots d p d) = true := by simpa using hp
  have hback := filled_update_fill (p := slots d) hnull hd
  rw [update_idem, update_eq_self] at hback
  exact hback.symm

lemma filled_update_same (h : isNull (slots d) = isNull p) :
    filled isNull (update slots d p) = filled isNull slots := by
  have hset : (univ.filter fun e => isNull (update slots d p e) = false) =
      univ.filter fun e => isNull (slots e) = false := by
    ext e
    by_cases he : e = d
    · simp [he, h]
    · simp [he]
  unfold filled
  rw [hset]

/-! ## Numbered slots -/

end BooxKernel.Slots
