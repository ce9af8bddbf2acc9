import BooxKernel.Lib.Slots
import BooxKernel.RadixTree.Model

/-!
# What a radix tree represents

The abstract state of a tree is a finite map from indices to items and, for each
tag, the set of tagged indices. `Rep a level base p` says that the pointer `p`
represents the part of `a` whose indices lie in subtree `base` of the given level:
its nodes know their height and the number of their filled slots, and each tag bit
says whether a tagged index lies below its slot.
-/
namespace BooxKernel.RadixTree
open Digits Slots Function

/-- The abstract state of a radix tree. -/
structure Spec (α : Type*) where
  map : ℕ → Option α
  tagged : Fin maxTags → Set ℕ

namespace Spec
variable {α : Type*}

def empty (α : Type*) : Spec α := ⟨fun _ => none, fun _ => ∅⟩

def insert (a : Spec α) (i : ℕ) (x : α) : Spec α := { a with map := update a.map i (some x) }

def erase (a : Spec α) (i : ℕ) : Spec α :=
  { map := update a.map i none, tagged := fun t => a.tagged t \ {i} }

def tag (a : Spec α) (t : Fin maxTags) (i : ℕ) : Spec α :=
  { a with tagged := update a.tagged t (Insert.insert i (a.tagged t)) }

def untag (a : Spec α) (t : Fin maxTags) (i : ℕ) : Spec α :=
  { a with tagged := update a.tagged t (a.tagged t \ {i}) }

end Spec

variable {α : Type*} {c : Config}

lemma isNull_iff {n : ℕ} {p : Ptr α n} : p.isNull = true ↔ p = .null := by
  cases p <;> simp [Ptr.isNull]

section Subtrees

lemma mapSize_pos (c : Config) : 0 < c.mapSize := by
  unfold Config.mapSize
  positivity

lemma high_slot {level i base : ℕ} {d : Fin c.mapSize} :
    high c.mapShift level i = c.mapSize * base + d ↔
      high c.mapShift (level + 1) i = base ∧ offset c level i = d := high_digit

/-- The pointer represents the part of `a` in subtree `base` of the level. -/
def Rep (a : Spec α) : (level base : ℕ) → Ptr α c.mapSize → Prop
  | 0, base, p => p = .ofOption (a.map base)
  | level + 1, base, .null => ∀ i, high c.mapShift (level + 1) i = base → a.map i = none
  | _ + 1, _, .item _ => False
  | level + 1, base, .node h count tags slots =>
    h = level + 1 ∧ count = filled Ptr.isNull slots ∧
      (∀ d : Fin c.mapSize, Rep a level (c.mapSize * base + d) (slots d)) ∧
      ∀ (t : Fin maxTags) (d : Fin c.mapSize), tags t d = true ↔
        ∃ i ∈ a.tagged t, high c.mapShift level i = c.mapSize * base + d

variable {a a' : Spec α} {level base i h count : ℕ} {p : Ptr α c.mapSize}
  {tags : Fin maxTags → Fin c.mapSize → Bool} {slots : Fin c.mapSize → Ptr α c.mapSize}

lemma Rep.congr (h : Rep a level base p) (hsame : ∀ i, high c.mapShift level i = base →
      a'.map i = a.map i ∧ ∀ t, i ∈ a'.tagged t ↔ i ∈ a.tagged t) : Rep a' level base p := by
  induction level generalizing base p with
  | zero =>
    unfold Rep at h ⊢
    rw [h, (hsame base (by simp)).1]
  | succ level ih =>
    cases p with
    | null =>
      intro i hi
      rw [(hsame i hi).1]
      exact h i hi
    | item x => exact h
    | node ht count tags slots =>
      obtain ⟨hht, hcount, hslots, htags⟩ := h
      refine ⟨hht, hcount, ?_, ?_⟩
      · intro d
        apply ih (hslots d)
        intro i hi
        exact hsame i (high_slot.1 hi).1
      · intro t d
        refine (htags t d).trans (exists_congr fun i => and_congr_left fun hhigh => ?_)
        exact ((hsame i (high_slot.1 hhigh).1).2 t).symm

lemma rep_null : Rep a level base (.null : Ptr α c.mapSize) ↔
    ∀ i, high c.mapShift level i = base → a.map i = none := by
  cases level with
  | zero =>
    unfold Rep
    simp only [high_zero]
    constructor
    · intro h i hi
      subst hi
      cases hm : a.map i with
      | none => rfl
      | some x => simp [hm, Ptr.ofOption] at h
    · intro h
      rw [h base rfl]
      rfl
  | succ level => rfl

/-- Two abstract states that differ at most at index `i`. -/
def SameExcept (i : ℕ) (a a' : Spec α) : Prop :=
  ∀ j, j ≠ i → a'.map j = a.map j ∧ ∀ t, j ∈ a'.tagged t ↔ j ∈ a.tagged t

lemma sameExcept_insert (i : ℕ) (x : α) : SameExcept i a (a.insert i x) := by
  intro j hj
  exact ⟨update_of_ne hj _ _, fun t => Iff.rfl⟩

lemma sameExcept_update {t : Fin maxTags} {i : ℕ} {S : Set ℕ}
    (h : ∀ j ≠ i, j ∈ S ↔ j ∈ a.tagged t) :
    SameExcept i a { a with tagged := update a.tagged t S } := by
  intro j hj
  refine ⟨rfl, fun t' => ?_⟩
  by_cases ht : t' = t
  · subst ht
    simp [h j hj]
  · simp [ht]

lemma sameExcept_untag (t : Fin maxTags) (i : ℕ) : SameExcept i a (a.untag t i) :=
  sameExcept_update fun j hj => by simp [hj]

lemma sameExcept_erase (i : ℕ) : SameExcept i a (a.erase i) := by
  intro j hj
  simp [Spec.erase, hj]

lemma high_offset (hi : high c.mapShift (level + 1) i = base) :
    high c.mapShift level i = c.mapSize * base + (offset c level i).val :=
  high_slot.2 ⟨hi, rfl⟩

lemma Rep.notNull (hrep : Rep a level base p) (hi : high c.mapShift level i = base)
    (hthere : a.map i ≠ none) : p.isNull = false := by
  by_contra hnull
  rw [Bool.not_eq_false, isNull_iff] at hnull
  rw [hnull, rep_null] at hrep
  exact hthere (hrep i hi)

lemma Rep.exists_node (hrep : Rep a (level + 1) base p) (hp : p.isNull = false) :
    ∃ h count tags slots, p = .node h count tags slots := by
  cases p with
  | null => simp [Ptr.isNull] at hp
  | item x => exact absurd hrep id
  | node h count tags slots => exact ⟨h, count, tags, slots, rfl⟩

lemma Rep.absent {d : Fin c.mapSize} (hrep : Rep a (level + 1) base (.node h count tags slots))
    (hd : (slots d).isNull = true)
    (hi : high c.mapShift level i = c.mapSize * base + d) : a.map i = none := by
  have hslot := hrep.2.2.1 d
  rw [isNull_iff.1 hd, rep_null] at hslot
  exact hslot i hi

/-- A node after a change at index `i`, which concerns only the slot of `i`. -/
lemma Rep.update {count' : ℕ} {tags' : Fin maxTags → Fin c.mapSize → Bool} {q : Ptr α c.mapSize}
    (hrep : Rep a (level + 1) base (.node h count tags slots)) (hsame : SameExcept i a a')
    (hq : Rep a' level (c.mapSize * base + (offset c level i).val) q)
    (hcount : count' = filled Ptr.isNull (update slots (offset c level i) q))
    (htags : ∀ (t : Fin maxTags) (d : Fin c.mapSize), tags' t d = true ↔
      ∃ j ∈ a'.tagged t, high c.mapShift level j = c.mapSize * base + d) :
    Rep a' (level + 1) base (.node h count' tags' (update slots (offset c level i) q)) := by
  obtain ⟨hh, _, hslots, _⟩ := hrep
  refine ⟨hh, hcount, ?_, htags⟩
  intro d
  by_cases hd : d = offset c level i
  · subst hd
    rw [update_self]
    exact hq
  · rw [update_of_ne hd]
    apply (hslots d).congr
    intro j hj
    apply hsame j
    rintro rfl
    exact hd (high_slot.1 hj).2.symm

lemma lookupLoop_spec (h : Rep a level base p) (hi : high c.mapShift level i = base)
    (hp : p.isNull = false) : lookupLoop c i level p = some (.ofOption (a.map i)) := by
  induction level generalizing base p with
  | zero =>
    rw [high_zero] at hi
    rw [lookupLoop, h, hi]
  | succ level ih =>
    obtain ⟨ht, count, tags, slots, rfl⟩ := h.exists_node hp
    have hslot := h.2.2.1 (offset c level i)
    have hhigh := high_offset hi
    unfold lookupLoop
    cases hs : slots (offset c level i) with
    | null =>
      rw [h.absent (isNull_iff.2 hs) hhigh]
      rfl
    | _ =>
      rw [hs] at hslot
      exact ih hslot hhigh rfl

end Subtrees

end BooxKernel.RadixTree
