import BooxKernel.Idr.Model
import BooxKernel.Lib.Slots

/-!
# What an id tree represents

The abstract state is the map from ids to stored pointers; an id is allocated when
the map has a pointer for it. `Tree a f l base p` says that the pointer `p` represents
the ids of block `base` of level `l`: a layer knows the number of its filled slots,
and the bit of a slot is set when every id below the slot is marked. A layer may be
empty: a failed allocation leaves such layers behind.
-/
namespace BooxKernel.Idr
open Digits Slots Function

variable {α : Type*} {c : Config}
variable {a : ℕ → Option α} {bitmap : Fin c.idrSize → Bool} {ary : Fin c.idrSize → Ptr α c.idrSize}

lemma isNull_iff {n : ℕ} {p : Ptr α n} : p.isNull = true ↔ p = .null := by
  cases p <;> simp [Ptr.isNull]

lemma two_le_maxLevel (c : Config) : 2 ≤ c.maxLevel := by
  have hpos := c.idrBits_pos
  have hlt := c.idrBits_lt
  unfold Config.maxLevel
  rw [Nat.le_div_iff_mul_le hpos]
  omega

lemma maxLevel_shift (c : Config) : (c.maxLevel - 1) * c.idrBits < c.maxIdShift := by
  have hlt := c.idrBits_lt
  have hle : c.maxLevel * c.idrBits ≤ c.maxIdShift + c.idrBits - 1 := Nat.div_mul_le_self _ _
  rw [Nat.sub_mul]
  omega

section Blocks

/-- Every id of the block is marked. -/
def Marked (c : Config) (f : ℕ → Prop) (l base : ℕ) : Prop := ∀ i, high c.idrBits l i = base → f i

variable {f f' : ℕ → Prop} {l base i : ℕ}

lemma high_slot {d : Fin c.idrSize} :
    high c.idrBits l i = c.idrSize * base + d ↔
      high c.idrBits (l + 1) i = base ∧ slot c l i = d := high_digit

lemma high_down (hi : high c.idrBits (l + 1) i = base) :
    high c.idrBits l i = c.idrSize * base + (slot c l i).val :=
  high_slot.2 ⟨hi, rfl⟩

lemma high_first (c : Config) (l base : ℕ) :
    high c.idrBits l (base * 2 ^ (l * c.idrBits)) = base := by
  rw [high_eq_div]
  exact Nat.mul_div_cancel _ (by positivity)

lemma marked_zero : Marked c f 0 base ↔ f base := by
  unfold Marked
  simp only [high_zero]
  constructor
  · intro h
    exact h base rfl
  · rintro h i rfl
    exact h

lemma marked_succ :
    Marked c f (l + 1) base ↔ ∀ d : Fin c.idrSize, Marked c f l (c.idrSize * base + d) := by
  constructor
  · intro h d i hi
    exact h i (high_slot.1 hi).1
  · intro h i hi
    exact h (slot c l i) i (high_slot.2 ⟨hi, rfl⟩)

lemma marked_congr (hsame : ∀ i, high c.idrBits l i = base → (f' i ↔ f i)) :
    Marked c f' l base ↔ Marked c f l base := forall₂_congr hsame

lemma not_marked_of_absent (hmarks : ∀ i, f i → a i ≠ none)
    (h : ∀ i, high c.idrBits l i = base → a i = none) : ¬ Marked c f l base := by
  intro hall
  exact hmarks _ (hall _ (high_first c l base)) (h _ (high_first c l base))

end Blocks

section Subtrees

/-- The pointer represents block `base` of level `l`, with bits that tell which ids
are marked: those whose slot is not to be found by a search. In a map from ids to
pointers these are the allocated ids. -/
def Tree (a : ℕ → Option α) (f : ℕ → Prop) : (l base : ℕ) → Ptr α c.idrSize → Prop
  | 0, base, p => p = .ofOption (a base)
  | l + 1, base, .null => ∀ i, high c.idrBits (l + 1) i = base → a i = none
  | _ + 1, _, .item _ => False
  | l + 1, base, .layer bitmap count ary =>
    count = filled Ptr.isNull ary ∧
      (∀ d : Fin c.idrSize, Tree a f l (c.idrSize * base + d) (ary d)) ∧
      ∀ d : Fin c.idrSize, bitmap d = true ↔ Marked c f l (c.idrSize * base + d)

variable {a' : ℕ → Option α} {f f' : ℕ → Prop} {l base i count count' : ℕ} {p q : Ptr α c.idrSize}
  {bitmap' : Fin c.idrSize → Bool} {n : Fin c.idrSize}

lemma tree_null : Tree a f l base (.null : Ptr α c.idrSize) ↔
    ∀ i, high c.idrBits l i = base → a i = none := by
  cases l with
  | zero =>
    unfold Tree
    simp only [high_zero]
    constructor
    · rintro h i rfl
      cases hm : a i with
      | none => rfl
      | some x => simp [hm, Ptr.ofOption] at h
    · intro h
      rw [h base rfl]
      rfl
  | succ l => rfl

lemma Tree.congr (h : Tree a f l base p) (hsame : ∀ i, high c.idrBits l i = base → a' i = a i)
    (hmarks : ∀ i, high c.idrBits l i = base → (f' i ↔ f i)) : Tree a' f' l base p := by
  induction l generalizing base p with
  | zero =>
    unfold Tree at h ⊢
    rw [h, hsame base (by simp)]
  | succ l ih =>
    cases p with
    | null =>
      intro i hi
      rw [hsame i hi]
      exact h i hi
    | item x => exact h
    | layer bitmap count ary =>
      obtain ⟨hcount, hary, hbits⟩ := h
      refine ⟨hcount, fun d => ?_, fun d => ?_⟩
      · exact ih (hary d) (fun i hi => hsame i (high_slot.1 hi).1)
          fun i hi => hmarks i (high_slot.1 hi).1
      · rw [hbits d]
        exact (marked_congr fun i hi => hmarks i (high_slot.1 hi).1).symm

/-- The slots of a layer other than `n`. -/
def Elsewhere (a : ℕ → Option α) (f : ℕ → Prop) (l base : ℕ) (n : Fin c.idrSize)
    (bitmap : Fin c.idrSize → Bool) (ary : Fin c.idrSize → Ptr α c.idrSize) : Prop :=
  ∀ d, d ≠ n → Tree a f l (c.idrSize * base + d) (ary d) ∧
    (bitmap d = true ↔ Marked c f l (c.idrSize * base + d))

lemma Tree.elsewhere (h : Tree a f (l + 1) base (.layer bitmap count ary)) (n : Fin c.idrSize) :
    Elsewhere a f l base n bitmap ary := fun d _ => ⟨h.2.1 d, h.2.2 d⟩

lemma Elsewhere.update (h : Elsewhere a f l base n bitmap ary)
    (hsame : ∀ j, high c.idrBits l j ≠ c.idrSize * base + n → a' j = a j)
    (hmarks : ∀ j, high c.idrBits l j ≠ c.idrSize * base + n → (f' j ↔ f j))
    (hq : Tree a' f' l (c.idrSize * base + n) q)
    (hcount : count' = filled Ptr.isNull (update ary n q))
    (hother : ∀ d, d ≠ n → bitmap' d = bitmap d)
    (hbit : bitmap' n = true ↔ Marked c f' l (c.idrSize * base + n)) :
    Tree a' f' (l + 1) base (.layer bitmap' count' (update ary n q)) := by
  have hblock : ∀ d : Fin c.idrSize, d ≠ n → ∀ j,
      high c.idrBits l j = c.idrSize * base + d → high c.idrBits l j ≠ c.idrSize * base + n := by
    intro d hd j hj hn
    exact hd (Fin.ext (by omega))
  refine ⟨hcount, ?_, ?_⟩
  · intro d
    by_cases hd : d = n
    · subst hd
      rw [update_self]
      exact hq
    · rw [update_of_ne hd]
      exact (h d hd).1.congr (fun j hj => hsame j (hblock d hd j hj))
        fun j hj => hmarks j (hblock d hd j hj)
  · intro d
    by_cases hd : d = n
    · subst hd
      exact hbit
    · rw [hother d hd, (h d hd).2]
      exact (marked_congr fun j hj => hmarks j (hblock d hd j hj)).symm

lemma tree_zero (hmarks : ∀ i, f i → a i ≠ none)
    (h : ∀ i, high c.idrBits (l + 1) i = base → a i = none) :
    Tree a f (l + 1) base (.zero : Ptr α c.idrSize) := by
  have habsent : ∀ (d : Fin c.idrSize) (i : ℕ), high c.idrBits l i = c.idrSize * base + d →
      a i = none := fun d i hi => h i (high_slot.1 hi).1
  refine ⟨(filled_empty fun _ => rfl).symm, fun d => tree_null.2 (habsent d), fun d => ?_⟩
  simp [not_marked_of_absent hmarks (habsent d)]

lemma Tree.exists_layer (h : Tree a f (l + 1) base p) (hnull : p.isNull = false) :
    ∃ bitmap count ary, p = .layer bitmap count ary := by
  cases p with
  | null => simp [Ptr.isNull] at hnull
  | item x => exact absurd h id
  | layer bitmap count ary => exact ⟨bitmap, count, ary, rfl⟩

lemma Tree.isFull (hmarks : ∀ i, f i → a i ≠ none) (htree : Tree a f (l + 1) base p) :
    p.isFull = true ↔ Marked c f (l + 1) base := by
  cases p with
  | null =>
    have hno := not_marked_of_absent hmarks htree
    simp [Ptr.isFull, hno]
  | item x => exact absurd htree id
  | layer bitmap count ary =>
    rw [marked_succ]
    simp only [Ptr.isFull, decide_eq_true_eq]
    exact forall_congr' htree.2.2

lemma findLoop_spec (htree : Tree a f l base p) (hi : high c.idrBits l i = base) :
    findLoop c i l p = some (.ofOption (a i)) := by
  induction l generalizing base p with
  | zero =>
    rw [high_zero] at hi
    subst hi
    exact congrArg some htree
  | succ l ih =>
    cases p with
    | null =>
      rw [htree i hi]
      rfl
    | item x => exact absurd htree id
    | layer bitmap count ary => exact ih (htree.2.1 _) (high_down hi)

end Subtrees

/-- The invariant of a tree in which some of the ids with a pointer are marked. Its free
layers are zeroed. -/
structure Holds (a : ℕ → Option α) (f : ℕ → Prop) (s : IdrHandle α c.idrSize) : Prop where
  tree : Tree a f s.layers 0 s.top
  marks : ∀ i, f i → a i ≠ none
  range : ∀ i, a i ≠ none → high c.idrBits s.layers i = 0
  layers : s.layers ≤ c.maxLevel - 1
  empty : s.top = .null ↔ s.layers = 0
  free : ∀ p ∈ s.idFree, p = .zero

/-- The invariant of an id tree: the marked ids are the allocated ones. -/
abbrev Inv (a : ℕ → Option α) (s : IdrHandle α c.idrSize) : Prop := Holds a (fun i => a i ≠ none) s

section Handles
variable {f : ℕ → Prop} {s : IdrHandle α c.idrSize} {layers i l base count : ℕ}

section
variable (hrange : ∀ i, a i ≠ none → high c.idrBits layers i = 0)
include hrange

lemma absent_of_range (hbig : 2 ^ (layers * c.idrBits) ≤ i) : a i = none := by
  by_contra hne
  exact absurd (high_eq_zero.1 (hrange i hne)) (not_lt.2 hbig)

lemma range_update (hi : high c.idrBits layers i = 0) (x : Option α) :
    ∀ j, update a i x j ≠ none → high c.idrBits layers j = 0 := by
  intro j hj
  by_cases hji : j = i
  · rw [hji, hi]
  · rw [update_of_ne hji] at hj
    exact hrange j hj

end

lemma Holds.small (h : Holds a f s) (hi : a i ≠ none) : i < 2 ^ c.maxIdShift := by
  have hlt := high_eq_zero.1 (h.range i hi)
  refine lt_of_lt_of_le hlt (Nat.pow_le_pow_right (by norm_num) ?_)
  exact (Nat.mul_le_mul_right _ h.layers).trans (maxLevel_shift c).le

lemma Holds.idrFind (h : Holds a f s) (id : ℕ) :
    idrFind c s id = some (.ofOption (a (id % 2 ^ c.maxIdShift))) := by
  unfold Idr.idrFind
  generalize id % 2 ^ c.maxIdShift = i
  by_cases hbig : i ≥ 2 ^ (s.layers * c.idrBits)
  · rw [if_pos hbig, absent_of_range h.range hbig]
    rfl
  · rw [if_neg hbig]
    exact findLoop_spec h.tree (high_eq_zero.2 (by omega))

lemma Tree.replace {q : Ptr α c.idrSize} (ptr : α)
    (h : Tree a (fun j => a j ≠ none) (l + 1) base (.layer bitmap count ary))
    (hi : high c.idrBits (l + 1) i = base) (hthere : a i ≠ none)
    (hq : Tree (update a i (some ptr)) (fun j => update a i (some ptr) j ≠ none) l
      (high c.idrBits l i) q) (hnull : q.isNull = (ary (slot c l i)).isNull) :
    Tree (update a i (some ptr)) (fun j => update a i (some ptr) j ≠ none) (l + 1)
      base (.layer bitmap count (update ary (slot c l i) q)) := by
  have hdown := high_down hi
  have hmarks : ∀ j, update a i (some ptr) j ≠ none ↔ a j ≠ none := by
    intro j
    by_cases hj : j = i
    · simp [hj, hthere]
    · rw [update_of_ne hj]
  refine (h.elsewhere _).update (fun j hj => ?_) (fun j _ => hmarks j) (hdown ▸ hq) ?_
    (fun _ _ => rfl) ?_
  · exact update_of_ne (fun he => hj (by rw [he, hdown])) _ _
  · rw [filled_update_same hnull.symm]
    exact h.1
  · rw [h.2.2 _]
    exact (marked_congr fun j _ => hmarks j).symm

lemma replaceLoop_spec {p : Ptr α c.idrSize} (ptr : α)
    (htree : Tree a (fun j => a j ≠ none) (l + 1) base p) (hi : high c.idrBits (l + 1) i = base) :
    (∃ x, a i = some x ∧ (replaceLoop c i ptr l p).1 = .old (.item x) ∧
      Tree (update a i (some ptr)) (fun j => update a i (some ptr) j ≠ none) (l + 1) base
        (replaceLoop c i ptr l p).2 ∧
      (replaceLoop c i ptr l p).2.isNull = p.isNull) ∨
    (a i = none ∧ (replaceLoop c i ptr l p).1 = .enoent ∧ (replaceLoop c i ptr l p).2 = p) := by
  induction l generalizing base p with
  | zero =>
    cases p with
    | null => exact .inr ⟨htree i hi, by simp [replaceLoop]⟩
    | item x => exact absurd htree id
    | layer bitmap count ary =>
      have hbit := htree.2.2 (slot c 0 i)
      have hslot := htree.2.1 (slot c 0 i)
      rw [← high_down hi, high_zero, marked_zero] at hbit
      rw [← high_down hi, high_zero, Tree] at hslot
      cases hm : a i with
      | none =>
        rw [hm] at hbit
        simp [replaceLoop, hbit]
      | some x =>
        have hthere : a i ≠ none := by simp [hm]
        refine .inl ⟨x, rfl, ?_⟩
        rw [hm] at hslot
        simp only [replaceLoop, hbit.2 hthere, if_true, hslot, Ptr.ofOption, Ptr.isNull, and_true,
          true_and]
        exact htree.replace ptr hi hthere (by simp [Tree, Ptr.ofOption]) (by rw [hslot]; rfl)
  | succ l ih =>
    cases p with
    | null => exact .inr ⟨htree i hi, by simp [replaceLoop]⟩
    | item x => exact absurd htree id
    | layer bitmap count ary =>
      rcases ih (htree.2.1 _) (high_down hi) with
        ⟨x, hx, hold, hbelow, hnull⟩ | ⟨hnone, herror, hkeep⟩
      · refine .inl ⟨x, hx, hold, ?_, rfl⟩
        exact htree.replace ptr hi (by simp [hx]) (high_down hi ▸ hbelow) hnull
      · refine .inr ⟨hnone, herror, ?_⟩
        simp only [replaceLoop, hkeep, update_eq_self]

/-- `idr_replace` stores the pointer when the id is allocated, and otherwise changes
nothing. -/
lemma idrReplace_spec (hinv : Inv a s) (ptr : α) (id : ℕ) :
    (∃ x, a (id % 2 ^ c.maxIdShift) = some x ∧ (idrReplace c s ptr id).1 = .old (.item x) ∧
      Inv (update a (id % 2 ^ c.maxIdShift) (some ptr)) (idrReplace c s ptr id).2) ∨
    (a (id % 2 ^ c.maxIdShift) = none ∧
      ((idrReplace c s ptr id).1 = .einval ∨ (idrReplace c s ptr id).1 = .enoent) ∧
      (idrReplace c s ptr id).2 = s) := by
  unfold idrReplace
  generalize id % 2 ^ c.maxIdShift = i
  by_cases hbig : i ≥ 2 ^ (s.layers * c.idrBits)
  · rw [if_pos hbig]
    exact .inr ⟨absent_of_range hinv.range hbig, .inl rfl, rfl⟩
  rw [if_neg hbig]
  have hi : high c.idrBits s.layers i = 0 := high_eq_zero.2 (by omega)
  obtain ⟨top, layers, idFree⟩ := s
  obtain ⟨htree, _, hrange, hlayers, hempty, hfree⟩ := hinv
  dsimp only at *
  cases layers with
  | zero =>
    rw [high_zero] at hi
    subst hi
    rw [hempty.2 rfl] at htree ⊢
    refine .inr ⟨tree_null.1 htree 0 (by simp), .inr ?_, ?_⟩ <;> simp [replaceLoop]
  | succ l =>
    rw [Nat.add_sub_cancel]
    rcases replaceLoop_spec ptr htree hi with ⟨x, hx, hold, htree', hnull⟩ | ⟨hnone, herror, hkeep⟩
    · refine .inl ⟨x, hx, hold, htree', fun _ hj => hj, range_update hrange hi _, hlayers, ?_, hfree⟩
      rw [← isNull_iff, hnull, isNull_iff]
      exact hempty
    · exact .inr ⟨hnone, .inr herror, by rw [hkeep]⟩

end Handles

end BooxKernel.Idr
