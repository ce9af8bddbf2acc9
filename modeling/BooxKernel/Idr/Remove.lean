import BooxKernel.Idr.Alloc

/-!
# Removal of an id

Removing an id clears the bits on its path, empties its slot and frees the layers that
became empty. The bits on the path are not looked at before, except the one in the
lowest layer. A top layer left with its first slot only is dropped. All layers that are
freed go to the free list zeroed.
-/
namespace BooxKernel.Idr
open Digits Slots Function Nat

variable {α : Type*} {c : Config} {a : ℕ → Option α} {f : ℕ → Prop}

section Layers
variable {l base id count : ℕ} {bitmap : Fin c.idrSize → Bool}
  {ary : Fin c.idrSize → Ptr α c.idrSize} {p : Ptr α c.idrSize}

/-- A tree in which nothing is known of the bits on the path of `id`. -/
def Along (a : ℕ → Option α) (f : ℕ → Prop) (id : ℕ) : (l base : ℕ) → Ptr α c.idrSize → Prop
  | l + 1, base, .layer bitmap count ary =>
    count = filled Ptr.isNull ary ∧
      (∀ d, d ≠ slot c l id → Tree a f l (c.idrSize * base + d) (ary d)) ∧
      (∀ d, d ≠ slot c l id → (bitmap d = true ↔ Marked c f l (c.idrSize * base + d))) ∧
      Along a f id l (c.idrSize * base + slot c l id) (ary (slot c l id))
  | l, base, p => Tree a f l base p

lemma Tree.along (h : Tree a f l base p) : Along a f id l base p := by
  induction l generalizing base p with
  | zero => exact h
  | succ l ih =>
    cases p with
    | null => exact h
    | item x => exact h
    | layer bitmap count ary =>
      exact ⟨h.1, fun d _ => h.2.1 d, fun d _ => h.2.2 d, ih (h.2.1 _)⟩

/-- The layers on the path exist, and the bit of `id` is set in the lowest one. -/
def BitSet (c : Config) (id : ℕ) : ℕ → Ptr α c.idrSize → Prop
  | 0, .layer bitmap _ _ => bitmap (slot c 0 id) = true
  | l + 1, .layer _ _ ary => BitSet c id l (ary (slot c (l + 1) id))
  | _, _ => False

lemma BitSet.exists_layer (h : BitSet c id l p) : ∃ bitmap count ary, p = .layer bitmap count ary := by
  cases p with
  | layer bitmap count ary => exact ⟨bitmap, count, ary, rfl⟩
  | _ => cases l <;> exact absurd h fun h => h

lemma Tree.bitSet (hmarks : ∀ i, f i → a i ≠ none) (h : Tree a f (l + 1) base p)
    (hid : high c.idrBits (l + 1) id = base) (hf : f id) : BitSet c id l p := by
  induction l generalizing base p with
  | zero =>
    cases p with
    | null => exact hmarks id hf (h id hid)
    | item x => exact h
    | layer bitmap count ary =>
      have hbit := h.2.2 (slot c 0 id)
      rw [← high_down hid, high_zero, marked_zero] at hbit
      exact hbit.2 hf
  | succ l ih =>
    cases p with
    | null => exact hmarks id hf (h id hid)
    | item x => exact h
    | layer bitmap count ary => exact ih (h.2.1 _) (high_down hid)

lemma tree_removed {q : Ptr α c.idrSize} {count' : ℕ}
    (h : Along a f id (l + 1) base (.layer bitmap count ary))
    (hid : high c.idrBits (l + 1) id = base)
    (hq : Tree (update a id none) (fun i => i ≠ id ∧ f i) l
      (c.idrSize * base + (slot c l id).val) q)
    (hcount : count' = filled Ptr.isNull (update ary (slot c l id) q)) :
    Tree (update a id none) (fun i => i ≠ id ∧ f i) (l + 1) base
      (.layer (update bitmap (slot c l id) false) count' (update ary (slot c l id) q)) := by
  have hdown := high_down hid
  have hother : ∀ j, high c.idrBits l j ≠ c.idrSize * base + (slot c l id).val → j ≠ id := by
    intro j hj heq
    exact hj (by rw [heq, hdown])
  have hold : Elsewhere a f l base (slot c l id) bitmap ary := fun d hd => ⟨h.2.1 d hd, h.2.2.1 d hd⟩
  refine hold.update (fun j hj => update_of_ne (hother j hj) _ _)
    (fun j hj => and_iff_right (hother j hj)) hq hcount
    (fun d hd => update_of_ne hd _ _) ?_
  exact iff_of_false (by simp) fun hall => (hall id hdown).1 rfl

section
variable (hmarks : ∀ i, f i → a i ≠ none)
include hmarks

lemma tree_emptied (h : Tree a f (l + 1) base (.layer bitmap 0 ary)) :
    Tree a f (l + 1) base (.null : Ptr α c.idrSize) ∧
      (.layer bitmap 0 ary : Ptr α c.idrSize) = .zero := by
  have hempty : ∀ d, ary d = .null := fun d => isNull_iff.1 (filled_eq_zero h.1.symm d)
  have habsent : ∀ d : Fin c.idrSize, ∀ i, high c.idrBits l i = c.idrSize * base + d → a i = none := by
    intro d
    have hslot := h.2.1 d
    rw [hempty d, tree_null] at hslot
    exact hslot
  constructor
  · intro i hi
    exact habsent _ i (high_down hi)
  · simp only [Ptr.zero, Ptr.layer.injEq, true_and]
    refine ⟨funext fun d => ?_, funext hempty⟩
    rw [← Bool.not_eq_true, h.2.2]
    exact not_marked_of_absent hmarks (habsent d)

lemma marks_removed : ∀ i, (i ≠ id ∧ f i) → update a id none i ≠ none := by
  intro i hi
  rw [update_of_ne hi.1]
  exact hmarks i hi.2

lemma emptySlot_spec (h : Along a f id (l + 1) base (.layer bitmap count ary))
    (hid : high c.idrBits (l + 1) id = base) (hfull : (ary (slot c l id)).isNull = false)
    (hq : Tree (update a id none) (fun i => i ≠ id ∧ f i) l
      (c.idrSize * base + (slot c l id).val) (.null : Ptr α c.idrSize)) :
    let r := emptySlot c (update bitmap (slot c l id) false) count ary (slot c l id)
    Tree (update a id none) (fun i => i ≠ id ∧ f i) (l + 1) base r.1 ∧ ∀ q ∈ r.2, q = .zero := by
  have hcount : count - 1 = filled Ptr.isNull (update ary (slot c l id) .null) := by
    have hclear := filled_update_clear hfull (p := .null) rfl
    have hold := h.1
    omega
  have hnew := tree_removed h hid hq hcount
  unfold emptySlot
  by_cases hzero : count - 1 = 0
  · rw [if_pos hzero]
    rw [hzero] at hnew ⊢
    obtain ⟨hnull, hz⟩ := tree_emptied (marks_removed hmarks) hnew
    refine ⟨hnull, fun q hq => ?_⟩
    rw [List.mem_singleton.1 hq, hz]
  · rw [if_neg hzero]
    exact ⟨hnew, fun q hq => absurd hq (by simp)⟩

lemma subRemove_spec (h : Along a f id (l + 1) base p) (hid : high c.idrBits (l + 1) id = base)
    (hbit : BitSet c id l p) (hthere : a id ≠ none) :
    (subRemove c id l p).1 = true ∧
    Tree (update a id none) (fun i => i ≠ id ∧ f i) (l + 1) base (subRemove c id l p).2.1 ∧
    ∀ q ∈ (subRemove c id l p).2.2, q = .zero := by
  induction l generalizing base p with
  | zero =>
    obtain ⟨bitmap, count, ary, rfl⟩ := hbit.exists_layer
    have hdown := high_down hid
    have hslot : ary (slot c 0 id) = .ofOption (a (c.idrSize * base + (slot c 0 id).val)) := h.2.2.2
    rw [← hdown, high_zero] at hslot
    have hfull : (ary (slot c 0 id)).isNull = false := by
      cases hm : a id with
      | none => exact absurd hm hthere
      | some x =>
        rw [hslot, hm]
        rfl
    have hspec := emptySlot_spec hmarks h hid hfull (by
      rw [tree_null, ← hdown]
      simp)
    have hset : bitmap (slot c 0 id) = true := hbit
    simp only [subRemove, hset, if_true]
    exact ⟨trivial, hspec⟩
  | succ l ih =>
    obtain ⟨bitmap, count, ary, rfl⟩ := hbit.exists_layer
    have hdown := high_down hid
    obtain ⟨hfound, hbelow, hzero⟩ := ih h.2.2.2 hdown hbit
    have hfull : (ary (slot c (l + 1) id)).isNull = false := by
      obtain ⟨_, _, _, hs⟩ : ∃ bitmap count ary', ary (slot c (l + 1) id) = .layer bitmap count ary' :=
        BitSet.exists_layer hbit
      rw [hs]
      rfl
    simp only [subRemove]
    rw [hfound, Bool.true_and]
    by_cases hnull : (subRemove c id l (ary (slot c (l + 1) id))).2.1.isNull = true
    · rw [if_pos hnull]
      rw [isNull_iff.1 hnull] at hbelow
      obtain ⟨hnew, hfreed⟩ := emptySlot_spec hmarks h hid hfull hbelow
      exact ⟨rfl, hnew, List.forall_mem_append.2 ⟨hzero, hfreed⟩⟩
    · rw [if_neg hnull]
      refine ⟨rfl, tree_removed h hid hbelow ?_, hzero⟩
      rw [filled_update_same (hfull.trans (by simpa using hnull))]
      exact h.1

/-- `sub_remove` of an id that is not allocated: the bits that it clears are clear. -/
lemma subRemove_absent (h : Tree a f (l + 1) base p) (hid : high c.idrBits (l + 1) id = base)
    (habsent : a id = none) : subRemove c id l p = (false, p, []) := by
  have hclear : ∀ {l base : ℕ}, high c.idrBits l id = base → ¬ Marked c f l base :=
    fun hblock hall => hmarks id (hall id hblock) habsent
  induction l generalizing base p with
  | zero =>
    cases p with
    | null => rfl
    | item x => exact absurd h (fun h => h)
    | layer bitmap count ary =>
      have hbit : bitmap (slot c 0 id) = false := by
        rw [← Bool.not_eq_true, h.2.2]
        exact hclear (high_down hid)
      simp only [subRemove, hbit, Bool.false_eq_true, if_false]
  | succ l ih =>
    cases p with
    | null => rfl
    | item x => exact absurd h (fun h => h)
    | layer bitmap count ary =>
      have hbit : bitmap (slot c (l + 1) id) = false := by
        rw [← Bool.not_eq_true, h.2.2]
        exact hclear (high_down hid)
      have hbelow := ih (h.2.1 (slot c (l + 1) id)) (high_down hid)
      simp only [subRemove, hbelow, Bool.false_and, Bool.false_eq_true, if_false, update_eq_self]
      rw [← hbit, update_eq_self]

end

end Layers

section Handles
variable {s : IdrHandle α c.idrSize} {freed free : List (Ptr α c.idrSize)}

lemma foldl_freeLayer_zero (hfreed : ∀ q ∈ freed, q = .zero) (hfree : ∀ q ∈ free, q = .zero)
    : ∀ q ∈ freed.foldl (freeLayer c) free, q = .zero := by
  induction freed generalizing free with
  | nil => exact hfree
  | cons p freed ih =>
    obtain rfl := hfreed p (by simp)
    exact ih (fun q hq => hfreed q (by simp [hq]))
      (freeLayer_zero (fun _ => rfl) (fun _ _ => rfl) hfree)

lemma trimFree_subset (free : List (Ptr α c.idrSize)) : trimFree c free ⊆ free := by
  induction free with
  | nil => exact List.Subset.refl _
  | cons p free ih =>
    unfold trimFree
    split_ifs
    · exact List.Subset.trans ih (List.subset_cons_self _ _)
    · exact List.Subset.refl _

lemma dropLayer_holds (h : Holds a f s) : Holds a f (dropLayer c s) := by
  obtain ⟨top, layers, idFree⟩ := s
  cases top with
  | null => exact h
  | item x => exact h
  | layer bitmap count ary =>
    unfold dropLayer
    dsimp only
    split_ifs with hdrop
    · obtain ⟨hone, hlayers, hfirst⟩ := hdrop
      obtain ⟨htree, hmarks, hrange, hle, _, hfree⟩ := h
      dsimp only at *
      obtain ⟨l, rfl⟩ : ∃ l, layers = l + 2 := ⟨layers - 2, by omega⟩
      have hother : ∀ d, d ≠ c.first → ary d = .null := fun d hd =>
        isNull_iff.1 (isNull_of_filled_one (htree.1.symm.trans hone) hfirst hd)
      refine ⟨htree.2.1 c.first, hmarks, ?_, ?_, ?_, freeLayer_zero (fun _ => rfl) hother hfree⟩
      · intro i hi
        have hslot := htree.2.1 (slot c (l + 1) i)
        have hdown := high_down (hrange i hi)
        by_cases hd : slot c (l + 1) i = c.first
        · rw [hd] at hdown
          exact hdown
        · rw [hother _ hd] at hslot
          exact absurd (hslot i hdown) hi
      · show l + 1 ≤ c.maxLevel - 1
        omega
      · show ary c.first = .null ↔ l + 1 = 0
        rw [← isNull_iff, hfirst]
        simp
    · exact h

lemma trimFree_holds (h : Holds a f s) : Holds a f { s with idFree := trimFree c s.idFree } :=
  ⟨h.tree, h.marks, h.range, h.layers, h.empty, fun q hq => h.free q (trimFree_subset _ hq)⟩

section
variable {l i : ℕ} (hmarks : ∀ i, f i → a i ≠ none)
  (hrange : ∀ j, a j ≠ none → high c.idrBits (l + 1) j = 0)
include hmarks hrange

lemma holds_removed {p : Ptr α c.idrSize} (hlayers : l + 1 ≤ c.maxLevel - 1)
    (hfree : ∀ q ∈ free, q = .zero)
    (hnew : Tree (update a i none) (fun j => j ≠ i ∧ f j) (l + 1) 0 p)
    (hzero : ∀ q ∈ freed, q = .zero) :
    Holds (update a i none) (fun j => j ≠ i ∧ f j)
      (⟨p, if (true && p.isNull) = true then 0 else l + 1, freed.foldl (freeLayer c) free⟩ :
        IdrHandle α c.idrSize) := by
  have hrange' : ∀ j, update a i none j ≠ none → high c.idrBits (l + 1) j = 0 := by
    intro j hj
    by_cases hji : j = i
    · simp [hji] at hj
    · rw [update_of_ne hji] at hj
      exact hrange j hj
  have hfree' := foldl_freeLayer_zero hzero hfree
  rw [Bool.true_and]
  by_cases hnull : p.isNull = true
  · have habsent : ∀ j, update a i none j = none := by
      intro j
      by_contra hne
      rw [isNull_iff.1 hnull] at hnew
      exact hne (hnew j (hrange' j hne))
    rw [if_pos hnull, isNull_iff.1 hnull]
    exact ⟨tree_null.2 fun j _ => habsent j, marks_removed hmarks,
      fun j hj => absurd (habsent j) hj, zero_le _, Iff.rfl.trans (by simp), hfree'⟩
  · rw [if_neg hnull]
    refine ⟨hnew, marks_removed hmarks, hrange', hlayers, ?_, hfree'⟩
    rw [← isNull_iff]
    exact iff_of_false hnull (by simp)

lemma idrRemove_along (hlayers : s.layers = l + 1) (hle : l + 1 ≤ c.maxLevel - 1)
    (hfree : ∀ q ∈ s.idFree, q = .zero) (hi : i < 2 ^ c.maxIdShift) (hthere : a i ≠ none)
    (halong : Along a f i (l + 1) 0 s.top) (hbit : BitSet c i l s.top) :
    Holds (update a i none) (fun j => j ≠ i ∧ f j) (idrRemove c s i) := by
  obtain ⟨top, layers, idFree⟩ := s
  subst hlayers
  obtain ⟨hfound, hnew, hzero⟩ := subRemove_spec hmarks halong (hrange i hthere) hbit hthere
  unfold idrRemove
  dsimp only
  rw [mod_eq_of_lt hi, Nat.add_sub_cancel]
  generalize subRemove c i l top = r at hfound hnew hzero
  obtain ⟨found, p, freed⟩ := r
  subst hfound
  exact trimFree_holds (dropLayer_holds (holds_removed hmarks hrange hle hfree hnew hzero))

end

lemma idrRemove_absent (hinv : Inv a s) {i : ℕ} (hlt : i < 2 ^ (s.layers * c.idrBits))
    (habsent : a i = none) : Inv a (idrRemove c s i) := by
  have hsmall : i < 2 ^ c.maxIdShift :=
    hlt.trans_le (Nat.pow_le_pow_right (by norm_num) (mul_idrBits_le c hinv.layers))
  have hsub : subRemove c i (s.layers - 1) s.top = (false, s.top, []) := by
    by_cases hzero : s.layers = 0
    · rw [hinv.empty.2 hzero, hzero]
      rfl
    · obtain ⟨l, hl⟩ := exists_eq_succ_of_ne_zero hzero
      have htree := hinv.tree
      rw [hl] at htree hlt ⊢
      exact subRemove_absent hinv.marks htree (high_eq_zero.2 hlt) habsent
  unfold idrRemove
  dsimp only
  rw [mod_eq_of_lt hsmall, hsub]
  exact trimFree_holds (dropLayer_holds hinv)

lemma idrRemove_there (hinv : Inv a s) {i : ℕ} (hthere : a i ≠ none) :
    Inv (update a i none) (idrRemove c s i) := by
  have hne : s.layers ≠ 0 := by
    intro hzero
    have htree := hinv.tree
    rw [hinv.empty.2 hzero, tree_null] at htree
    exact hthere (htree i (hinv.range i hthere))
  obtain ⟨l, hl⟩ := exists_eq_succ_of_ne_zero hne
  have htree := hinv.tree
  have hrange := hinv.range
  have hle := hinv.layers
  rw [hl] at htree hrange hle
  have hremoved := idrRemove_along hinv.marks hrange hl hle hinv.free (hinv.small hthere) hthere
    htree.along (htree.bitSet hinv.marks (hrange i hthere) hthere)
  refine ⟨hremoved.tree.congr (fun _ _ => rfl) fun j _ => ?_, fun j hj => hj,
    hremoved.range, hremoved.layers, hremoved.empty, hremoved.free⟩
  by_cases hj : j = i
  · simp [hj]
  · simp [hj]

lemma subRemove_congr {id id' l : ℕ} {p : Ptr α c.idrSize}
    (h : ∀ k ≤ l, slot c k id = slot c k id') : subRemove c id l p = subRemove c id' l p := by
  induction l generalizing p with
  | zero =>
    cases p with
    | layer bitmap count ary => rw [subRemove, subRemove, h 0 le_rfl]
    | _ => rfl
  | succ l ih =>
    cases p with
    | layer bitmap count ary =>
      simp only [subRemove, h (l + 1) le_rfl, ih fun k hk => h k (le_succ_of_le hk)]
    | _ => rfl

/-- `idr_remove` of any id removes the id that it has in the layers of the tree. -/
lemma idrRemove_spec (hinv : Inv a s) (id : ℕ) :
    Inv (update a (id % 2 ^ (s.layers * c.idrBits)) none) (idrRemove c s id) := by
  have hfit := mul_idrBits_le c hinv.layers
  have hlow : ∀ l, s.layers = l + 1 → ∀ k ≤ l,
      slot c k (id % 2 ^ c.maxIdShift) = slot c k (id % 2 ^ (s.layers * c.idrBits)) := by
    intro l hl k hk
    have hbits : (k + 1) * c.idrBits ≤ s.layers * c.idrBits := mul_le_mul_right _ (by omega)
    rw [add_mul, one_mul] at hbits
    exact (digit_mod (hbits.trans hfit)).trans (digit_mod hbits).symm
  have hsub : subRemove c (id % 2 ^ c.maxIdShift) (s.layers - 1) s.top =
      subRemove c (id % 2 ^ (s.layers * c.idrBits)) (s.layers - 1) s.top := by
    rcases eq_zero_or_eq_succ_pred s.layers with hzero | hsucc
    · rw [hinv.empty.2 hzero, hzero]
      rfl
    · exact subRemove_congr (hlow (s.layers - 1) hsucc)
  have hsame : idrRemove c s id = idrRemove c s (id % 2 ^ (s.layers * c.idrBits)) := by
    have hmod : id % 2 ^ (s.layers * c.idrBits) % 2 ^ c.maxIdShift =
        id % 2 ^ (s.layers * c.idrBits) := mod_eq_of_lt
      (lt_of_lt_of_le (mod_lt _ (by positivity)) (Nat.pow_le_pow_right (by norm_num) hfit))
    unfold idrRemove
    dsimp only
    rw [hmod, hsub]
  have hlt : id % 2 ^ (s.layers * c.idrBits) < 2 ^ (s.layers * c.idrBits) :=
    mod_lt _ (by positivity)
  rw [hsame]
  generalize id % 2 ^ (s.layers * c.idrBits) = i at hlt
  by_cases hthere : a i = none
  · rw [← hthere, update_eq_self]
    exact idrRemove_absent hinv hlt hthere
  · exact idrRemove_there hinv hthere

lemma idrPreGet_holds (alloc : List Bool) (h : Holds a f s) : Holds a f (idrPreGet c s alloc).2 := by
  induction alloc generalizing s with
  | nil => exact h
  | cons answer alloc ih =>
    cases answer with
    | false => exact h
    | true =>
      unfold idrPreGet
      split_ifs
      · refine ih ⟨h.tree, h.marks, h.range, h.layers, h.empty, ?_⟩
        exact freeLayer_zero (fun _ => rfl) (fun _ _ => rfl) h.free
      · exact h

end Handles

end BooxKernel.Idr
