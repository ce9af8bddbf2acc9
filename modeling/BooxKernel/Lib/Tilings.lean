import Mathlib.Algebra.BigOperators.Group.List.Basic
import Mathlib.Tactic.Linarith

/-!
# Pieces of a line

Lists of pieces, each with a start and a size, that follow one another between two points: with
gaps between them (`Spread`), or without (`Tiles`).
-/
namespace BooxKernel.Tilings
open List

variable {ι : Type*} (start size : ι → ℕ)

/-- The pieces come one after the other, between `lo` and `hi`. -/
def Spread (lo hi : ℕ) : List ι → Prop
  | [] => lo ≤ hi
  | f :: l => lo ≤ start f ∧ Spread (start f + size f) hi l

/-- The pieces follow one another without a gap, from `lo` to `hi`. -/
def Tiles (lo hi : ℕ) : List ι → Prop
  | [] => lo = hi
  | f :: l => start f = lo ∧ Tiles (lo + size f) hi l

/-- How much the pieces cover together. -/
def total (l : List ι) : ℕ := (l.map size).sum

/-- The piece contains `x`. -/
def Covers (x : ℕ) (f : ι) : Prop := start f ≤ x ∧ x < start f + size f

instance (x : ℕ) : DecidablePred (Covers start size x) := fun f =>
  inferInstanceAs (Decidable (start f ≤ x ∧ x < start f + size f))

section Basic

variable {start size} {lo hi mid : ℕ} {l m : List ι} {f : ι}

@[simp]
lemma spread_nil : Spread start size lo hi [] ↔ lo ≤ hi := Iff.rfl

@[simp]
lemma spread_cons :
    Spread start size lo hi (f :: l) ↔ lo ≤ start f ∧ Spread start size (start f + size f) hi l :=
  Iff.rfl

@[simp]
lemma tiles_nil : Tiles start size lo hi [] ↔ lo = hi := Iff.rfl

@[simp]
lemma tiles_cons :
    Tiles start size lo hi (f :: l) ↔ start f = lo ∧ Tiles start size (lo + size f) hi l :=
  Iff.rfl

@[simp]
lemma total_nil : total size [] = 0 := rfl

@[simp]
lemma total_cons : total size (f :: l) = size f + total size l := by
  simp [total]

@[simp]
lemma total_append : total size (l ++ m) = total size l + total size m := by
  simp [total]

end Basic

section Spread

variable {start size} {lo hi : ℕ} {l m : List ι} {f : ι}

section
variable (h : Spread start size lo hi l)
include h

lemma Spread.mono {lo' hi' : ℕ} (hlo : lo' ≤ lo) (hhi : hi ≤ hi')
    : Spread start size lo' hi' l := by
  induction l generalizing lo lo' with
  | nil => exact (hlo.trans h).trans hhi
  | cons f l ih => exact ⟨hlo.trans h.1, ih h.2 le_rfl⟩

lemma Spread.total_le : lo + total size l ≤ hi := by
  induction l generalizing lo with
  | nil => simpa using h
  | cons f l ih =>
    have hl := ih h.2
    have hf := h.1
    simp only [total_cons]
    omega

lemma Spread.lower (hf : f ∈ l) : lo ≤ start f := by
  induction l generalizing lo with
  | nil => simp at hf
  | cons g l ih =>
    rcases mem_cons.1 hf with rfl | hf
    · exact h.1
    · have hg := h.1
      have hrest := ih h.2 hf
      omega

lemma Spread.upper (hf : f ∈ l) : start f + size f ≤ hi := by
  induction l generalizing lo with
  | nil => simp at hf
  | cons g l ih =>
    rcases mem_cons.1 hf with rfl | hf
    · have hrest := h.2.total_le
      omega
    · exact ih h.2 hf

lemma Spread.pairwise : l.Pairwise fun f g => start f + size f ≤ start g := by
  induction l generalizing lo with
  | nil => exact .nil
  | cons f l ih => exact .cons (fun g hg => h.2.lower hg) (ih h.2)

end

lemma spread_append :
    Spread start size lo hi (l ++ m) ↔
      ∃ mid, Spread start size lo mid l ∧ Spread start size mid hi m := by
  induction l generalizing lo with
  | nil =>
    constructor
    · exact fun h => ⟨lo, le_rfl, h⟩
    · rintro ⟨mid, hle, hm⟩
      exact hm.mono hle le_rfl
  | cons f l ih =>
    simp only [cons_append, spread_cons, ih]
    constructor
    · rintro ⟨hf, mid, hl, hm⟩
      exact ⟨mid, ⟨hf, hl⟩, hm⟩
    · rintro ⟨mid, ⟨hf, hl⟩, hm⟩
      exact ⟨hf, mid, hl, hm⟩

lemma Spread.tiles (h : Spread start size lo hi l) (htotal : lo + total size l = hi) :
    Tiles start size lo hi l := by
  induction l generalizing lo with
  | nil => simpa using htotal
  | cons f l ih =>
    have hf := h.1
    have hl := h.2.total_le
    simp only [total_cons] at htotal
    obtain rfl : start f = lo := by omega
    exact ⟨rfl, ih h.2 (by omega)⟩

lemma Spread.tiles_of_cover (h : Spread start size lo hi l)
    (hcover : ∀ x, lo ≤ x → x < hi → ∃ f ∈ l, Covers start size x f) :
    Tiles start size lo hi l := by
  induction l generalizing lo with
  | nil =>
    refine le_antisymm h (Nat.le_of_not_lt fun hlt => ?_)
    obtain ⟨f, hf, -⟩ := hcover lo le_rfl hlt
    simp at hf
  | cons f l ih =>
    have hroom := h.2.total_le
    obtain rfl : start f = lo := by
      by_contra hne
      have hle := h.1
      obtain ⟨g, hg, hcov⟩ := hcover lo le_rfl (by omega)
      have hself : Spread start size (start f) hi (f :: l) := ⟨le_rfl, h.2⟩
      have hstart := hself.lower hg
      have hg' := hcov.1
      omega
    refine ⟨rfl, ih h.2 fun x hlo hhi => ?_⟩
    obtain ⟨g, hg, hcov⟩ := hcover x (by omega) hhi
    rcases mem_cons.1 hg with rfl | hg
    · have hlt := hcov.2
      omega
    · exact ⟨g, hg, hcov⟩

end Spread

section Tiles

variable {start size} {lo hi : ℕ} {l m : List ι} {f : ι}

lemma Tiles.spread (h : Tiles start size lo hi l) : Spread start size lo hi l := by
  induction l generalizing lo with
  | nil => exact le_of_eq h
  | cons f l ih =>
    obtain ⟨rfl, hl⟩ := h
    exact ⟨le_rfl, ih hl⟩

lemma Tiles.total_eq (h : Tiles start size lo hi l) : lo + total size l = hi := by
  induction l generalizing lo with
  | nil => simpa using h
  | cons f l ih =>
    have hl := ih h.2
    simp only [total_cons]
    omega

lemma tiles_append :
    Tiles start size lo hi (l ++ m) ↔
      ∃ mid, Tiles start size lo mid l ∧ Tiles start size mid hi m := by
  induction l generalizing lo with
  | nil => exact ⟨fun h => ⟨lo, rfl, h⟩, fun ⟨_, hmid, h⟩ => hmid ▸ h⟩
  | cons f l ih =>
    simp only [cons_append, tiles_cons, ih]
    constructor
    · rintro ⟨hf, mid, hl, hm⟩
      exact ⟨mid, ⟨hf, hl⟩, hm⟩
    · rintro ⟨mid, ⟨hf, hl⟩, hm⟩
      exact ⟨hf, mid, hl, hm⟩

section
variable (h : Tiles start size lo hi l)
include h

lemma Tiles.le_of_forall {x : ℕ} (hlo : lo ≤ x) (hl : ∀ f ∈ l, start f + size f ≤ x) : hi ≤ x := by
  induction l generalizing lo with
  | nil => exact (show lo = hi from h) ▸ hlo
  | cons f l ih =>
    obtain ⟨rfl, hrest⟩ := h
    exact ih hrest (hl f mem_cons_self) fun g hg => hl g (mem_cons_of_mem f hg)

lemma Tiles.exists_covers {x : ℕ} (hlo : lo ≤ x) (hhi : x < hi) :
    ∃ f ∈ l, Covers start size x f := by
  induction l generalizing lo with
  | nil =>
    have hlohi : lo = hi := h
    omega
  | cons f l ih =>
    obtain ⟨rfl, hl⟩ := h
    by_cases hf : x < start f + size f
    · exact ⟨f, by simp, hlo, hf⟩
    · obtain ⟨g, hg, hcov⟩ := ih hl (Nat.le_of_not_lt hf)
      exact ⟨g, mem_cons_of_mem f hg, hcov⟩

/-- Every point is in exactly one of the pieces. -/
lemma Tiles.countP {x : ℕ} (hlo : lo ≤ x) (hhi : x < hi) : l.countP (Covers start size x) = 1 := by
  induction l generalizing lo with
  | nil =>
    have hlohi : lo = hi := h
    omega
  | cons f l ih =>
    obtain ⟨rfl, hl⟩ := h
    by_cases hf : x < start f + size f
    · have hrest : l.countP (Covers start size x) = 0 := by
        rw [countP_eq_zero]
        intro g hg hcover
        have hstart := hl.spread.lower hg
        have hle := (of_decide_eq_true hcover).1
        omega
      rw [countP_cons_of_pos (by simpa using ⟨hlo, hf⟩), hrest]
    · have hnot : ¬ Covers start size x f := fun hcover => hf hcover.2
      rw [countP_cons_of_neg (by simpa using hnot)]
      exact ih hl (Nat.le_of_not_lt hf)

end

end Tiles

end BooxKernel.Tilings
