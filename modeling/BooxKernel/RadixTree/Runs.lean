import BooxKernel.Lib.Runs
import BooxKernel.RadixTree.Delete

/-!
# Runs of the radix tree

A history of calls determines the abstract state: the item of the last successful
insertion at each index that was not deleted since, and the indices tagged since.
After every run the tree represents the abstract state of its history, whichever
allocations failed on the way.
-/
namespace BooxKernel.RadixTree
open Digits Runs

variable {α : Type*} {c : Config}

/-- The calls, with the error of an insertion. -/
inductive Event (α : Type*)
  | insert (index : ℕ) (item : α) (error : Errno)
  | delete (index : ℕ)
  | tagSet (index : ℕ) (tag : Fin maxTags)
  | tagClear (index : ℕ) (tag : Fin maxTags)

/-- One call with an `unsigned long` index. Only a present index is tagged. -/
def Step (c : Config) (root : Root α c.mapSize) : Event α → Root α c.mapSize → Prop
  | .insert index item error, root' =>
    index < 2 ^ c.indexBits ∧ ∃ alloc, radixTreeInsert c root index item alloc = (error, root')
  | .delete index, root' =>
    index < 2 ^ c.indexBits ∧ root' = (radixTreeDelete c root index).2.2
  | .tagSet index tag, root' =>
    index < 2 ^ c.indexBits ∧ (∃ x, radixTreeLookup c root index = some (.item x)) ∧
      root' = (radixTreeTagSet c root index tag).2.2
  | .tagClear index tag, root' =>
    index < 2 ^ c.indexBits ∧ root' = (radixTreeTagClear c root index tag).2.2

/-- What one call does to the abstract state. -/
def Spec.after (a : Spec α) : Event α → Spec α
  | .insert index item .ok => a.insert index item
  | .insert _ _ _ => a
  | .delete index => a.erase index
  | .tagSet index tag => a.tag tag index
  | .tagClear index tag => a.untag tag index

/-- The abstract state that a history of calls leads to. -/
def history (es : List (Event α)) : Spec α := es.foldl Spec.after (Spec.empty α)

section Steps
variable {a : Spec α} {root root' : Root α c.mapSize} {i : ℕ} {es : List (Event α)}

section
variable (hinv : RootInv a root)
include hinv

lemma RootInv.rnode_cases :
    (root.rnode = .null ∧ ∀ i, a.map i = none) ∨
    (∃ x, root.rnode = .item x ∧ a.map 0 = some x ∧ ∀ i, a.map i ≠ none → i = 0) ∨
    ∃ level count tags slots, root.rnode = .node (level + 1) count tags slots ∧
      root.height = level + 1 ∧ Rep a (level + 1) 0 (.node (level + 1) count tags slots) := by
  have hrep := hinv.rep
  have hrange := hinv.range
  cases hroot : root.rnode with
  | null => exact .inl ⟨rfl, hinv.absent_of_null (by rw [hroot]; rfl)⟩
  | item x =>
    cases hheight : root.height with
    | zero =>
      rw [hroot, hheight] at hrep
      rw [hheight] at hrange
      simp only [high_zero] at hrange
      cases hm : a.map 0 with
      | none => simp [Rep, hm, Ptr.ofOption] at hrep
      | some y =>
        obtain rfl : x = y := by simpa [Rep, hm, Ptr.ofOption] using hrep
        exact .inr (.inl ⟨x, rfl, rfl, hrange⟩)
    | succ level =>
      rw [hroot, hheight] at hrep
      exact absurd hrep id
  | node h count tags slots =>
    cases hheight : root.height with
    | zero =>
      rw [hroot, hheight] at hrep
      unfold Rep at hrep
      cases hm : a.map 0 <;> simp [hm, Ptr.ofOption] at hrep
    | succ level =>
      rw [hroot, hheight] at hrep
      obtain rfl : h = level + 1 := hrep.1
      exact .inr (.inr ⟨level, count, tags, slots, rfl, rfl, hrep⟩)

lemma RootInv.le_maxindex (hi : a.map i ≠ none) : i ≤ maxindex c root.height := by
  by_contra hbig
  exact hi (hinv.absent (not_le.1 hbig))

lemma radixTreeLookup_spec (hindex : i < 2 ^ c.indexBits) :
    radixTreeLookup c root i = some (.ofOption (a.map i)) := by
  unfold radixTreeLookup
  obtain ⟨hroot, hnone⟩ | ⟨x, hroot, hzero, honly⟩ | ⟨level, count, tags, slots, hroot, hheight, hrep⟩ :=
    hinv.rnode_cases
  · rw [hroot, hnone]
    rfl
  · rw [hroot]
    by_cases hpos : i > 0
    · have habsent : a.map i = none := by
        by_contra hne
        exact hpos.ne' (honly i hne)
      simp only [hpos, if_true, habsent, Ptr.ofOption]
    · obtain rfl : i = 0 := by omega
      rw [hzero]
      rfl
  · rw [hroot]
    by_cases hbig : i > maxindex c (level + 1)
    · have habsent := hinv.absent (i := i) (hheight ▸ hbig)
      simp only [hbig, if_true, habsent, Ptr.ofOption]
    · simp only [hbig, if_false]
      rw [maxindex_lt hindex, not_not] at hbig
      exact lookupLoop_spec hrep hbig rfl

lemma step_spec {e : Event α} (hstep : Step c root e root') : RootInv (a.after e) root' := by
  cases e with
  | insert index item error =>
    obtain ⟨hindex, alloc, hcall⟩ := hstep
    have hspec := radixTreeInsert_spec (x := item) alloc hinv hindex
    rw [hcall] at hspec
    rcases hspec with ⟨rfl, _, hinv'⟩ | ⟨rfl, _, hinv'⟩ | ⟨rfl, _, hinv'⟩ <;> exact hinv'
  | delete index =>
    obtain ⟨hindex, rfl⟩ := hstep
    exact (radixTreeDelete_spec hinv hindex).2.2
  | tagSet index tag =>
    obtain ⟨hindex, ⟨x, hx⟩, rfl⟩ := hstep
    rw [radixTreeLookup_spec hinv hindex] at hx
    cases hm : a.map index with
    | none => simp [hm, Ptr.ofOption] at hx
    | some y => exact (radixTreeTagSet_spec hinv hm).2.2
  | tagClear index tag =>
    obtain ⟨hindex, rfl⟩ := hstep
    exact (radixTreeTagClear_spec hinv hindex).2.2.1

end

lemma run_spec (hrun : Run (Step c) (Root.empty α c.mapSize) es root) :
    RootInv (history es) root := by
  refine hrun.simulates (R := fun root a => RootInv a root) ?_ fun _ _ _ _ hinv hs =>
    step_spec hinv hs
  exact rootInv_empty (fun _ => rfl) fun _ _ hi => absurd hi id

/-- The nodes that a deletion frees go back to the slab zeroed, as they came from it. -/
theorem freed_nodes_zeroed (hrun : Run (Step c) (Root.empty α c.mapSize) es root)
    (hindex : i < 2 ^ c.indexBits) :
    ∀ q ∈ deleteFreed c root i, Zeroed q := deleteFreed_zeroed (run_spec hrun) hindex

/-- The only item goes with its node. -/
theorem freed_nodes_zeroed_one : ∃ (c : Config) (root : Root ℕ c.mapSize),
    (∀ q ∈ deleteFreed c root 1, Zeroed q) ∧ deleteFreed c root 1 ≠ [] := by
  have hrun : Run (Step ⟨1, 3, by decide⟩) (Root.empty ℕ 2) [.insert 1 7 .ok] _ :=
    .snoc .nil ⟨by decide, [true], Prod.ext (by decide) rfl⟩
  exact ⟨_, _, freed_nodes_zeroed hrun (by decide), List.cons_ne_nil _ _⟩

end Steps

/-- The radix tree is a finite map. -/
theorem radix_tree_finite_map {es : List (Event α)} {root : Root α c.mapSize}
    (hrun : Run (Step c) (Root.empty α c.mapSize) es root) :
    (∀ i < 2 ^ c.indexBits, radixTreeLookup c root i = some (.ofOption ((history es).map i))) ∧
    (∀ i < 2 ^ c.indexBits, ∀ (x : α) (alloc : List Bool),
      ((radixTreeInsert c root i x alloc).1 = .ok ∨
        (radixTreeInsert c root i x alloc).1 = .enomem ∨
        (radixTreeInsert c root i x alloc).1 = .eexist) ∧
      ((radixTreeInsert c root i x alloc).1 = .eexist ↔ radixTreeLookup c root i ≠ some .null) ∧
      ((radixTreeInsert c root i x alloc).1 ≠ .ok → ∀ j < 2 ^ c.indexBits,
        radixTreeLookup c (radixTreeInsert c root i x alloc).2 j = radixTreeLookup c root j)) ∧
    (∀ i < 2 ^ c.indexBits,
      (radixTreeDelete c root i).1 = .ok ∧
      radixTreeLookup c root i = some (radixTreeDelete c root i).2.1 ∧
      radixTreeLookup c (radixTreeDelete c root i).2.2 i = some .null ∧
      ∀ j < 2 ^ c.indexBits, j ≠ i →
        radixTreeLookup c (radixTreeDelete c root i).2.2 j = radixTreeLookup c root j) := by
  have hinv := run_spec hrun
  generalize history es = a at hinv
  refine ⟨fun i hi => radixTreeLookup_spec hinv hi, ?_, ?_⟩
  · intro i hi x alloc
    have hlookup : radixTreeLookup c root i ≠ some .null ↔ a.map i ≠ none := by
      rw [radixTreeLookup_spec hinv hi]
      cases a.map i <;> simp [Ptr.ofOption]
    have hsame : RootInv a (radixTreeInsert c root i x alloc).2 → ∀ j < 2 ^ c.indexBits,
        radixTreeLookup c (radixTreeInsert c root i x alloc).2 j = radixTreeLookup c root j := by
      intro hinv' j hj
      rw [radixTreeLookup_spec hinv' hj, radixTreeLookup_spec hinv hj]
    rw [hlookup]
    rcases radixTreeInsert_spec (x := x) alloc hinv hi with
      ⟨herror, habsent, _⟩ | ⟨herror, habsent, hinv'⟩ | ⟨herror, hthere, hinv'⟩
    · exact ⟨.inl herror, by simp [herror, habsent], fun hne => absurd herror hne⟩
    · exact ⟨.inr (.inl herror), by simp [herror, habsent], fun _ => hsame hinv'⟩
    · exact ⟨.inr (.inr herror), by simp [herror, hthere], fun _ => hsame hinv'⟩
  · intro i hi
    obtain ⟨hok, hfound, hinv'⟩ := radixTreeDelete_spec hinv hi
    refine ⟨hok, ?_, ?_, ?_⟩
    · rw [radixTreeLookup_spec hinv hi, hfound]
    · rw [radixTreeLookup_spec hinv' hi]
      simp [Spec.erase, Ptr.ofOption]
    · intro j hj hne
      rw [radixTreeLookup_spec hinv' hj, radixTreeLookup_spec hinv hj, (sameExcept_erase i j hne).1]

/-- An item at index 1 stays when the tree grows for index 6 and then no node is left. -/
theorem finite_map_after_enomem :
    radixTreeLookup ⟨1, 3, by decide⟩
      (radixTreeInsert ⟨1, 3, by decide⟩
        (radixTreeInsert ⟨1, 3, by decide⟩ (Root.empty ℕ 2) 1 7 [true]).2 6 9 [true]).2 1 =
      some (.item 7) := by
  have hrun : Run (Step ⟨1, 3, by decide⟩) (Root.empty ℕ 2)
      [.insert 1 7 .ok, .insert 6 9 .enomem] _ :=
    .snoc (.snoc .nil ⟨by decide, [true], Prod.ext (by decide) rfl⟩)
      ⟨by decide, [true], Prod.ext (by decide) rfl⟩
  exact (radix_tree_finite_map hrun).1 1 (by decide)

/-- Every node of the subtree `base` of a level has the tag bit of a slot set exactly
when some present item below the slot is tagged. Items are on the lowest level only. -/
def TagsCoherent (a : Spec α) : (level base : ℕ) → Ptr α c.mapSize → Prop
  | _, _, .null => True
  | 0, _, .item _ => True
  | level + 1, base, .node _ _ tags slots =>
    (∀ (t : Fin maxTags) (d : Fin c.mapSize), tags t d = true ↔
      ∃ i ∈ a.tagged t, a.map i ≠ none ∧ high c.mapShift level i = c.mapSize * base + d) ∧
    ∀ d : Fin c.mapSize, TagsCoherent a level (c.mapSize * base + d) (slots d)
  | _, _, _ => False

lemma Rep.tagsCoherent {a : Spec α} {level base : ℕ} {p : Ptr α c.mapSize}
    (hrep : Rep a level base p) (hpresent : ∀ t, ∀ i ∈ a.tagged t, a.map i ≠ none) :
    TagsCoherent a level base p := by
  induction level generalizing base p with
  | zero =>
    subst hrep
    cases a.map base <;> simp [Ptr.ofOption, TagsCoherent]
  | succ level ih =>
    cases p with
    | null => simp [TagsCoherent]
    | item x => exact absurd hrep id
    | node h count tags slots =>
      refine ⟨fun t d => ?_, fun d => ih (hrep.2.2.1 d)⟩
      rw [hrep.2.2.2 t d]
      exact exists_congr fun i => and_congr_right fun hi => (and_iff_right (hpresent t i hi)).symm

/-- The tags of all nodes and of the root are right after every run, and no insertion
finds a tag bit set for its new item. -/
theorem radix_tree_tag_coherence {es : List (Event α)} {root : Root α c.mapSize}
    (hrun : Run (Step c) (Root.empty α c.mapSize) es root) :
    TagsCoherent (history es) root.height 0 root.rnode ∧
    (∀ t, radixTreeTagged c root t = true ↔
      ∃ i ∈ (history es).tagged t, (history es).map i ≠ none) ∧
    ∀ i < 2 ^ c.indexBits, ∀ (x : α) (alloc : List Bool),
      (radixTreeInsert c root i x alloc).1 ≠ .bug := by
  have hinv := run_spec hrun
  refine ⟨hinv.rep.tagsCoherent hinv.present, ?_, ?_⟩
  · intro t
    refine (hinv.rootTags t).trans ⟨?_, ?_⟩
    · rintro ⟨i, hi⟩
      exact ⟨i, hi, hinv.present t i hi⟩
    · rintro ⟨i, hi, _⟩
      exact ⟨i, hi⟩
  · intro i hi x alloc
    rcases radixTreeInsert_spec (x := x) alloc hinv hi with
      ⟨herror, _⟩ | ⟨herror, _⟩ | ⟨herror, _⟩ <;> simp [herror]

/-- A tag stays in the root while the tree grows above the tagged item, and is gone
when the item is deleted. -/
theorem tag_coherence_delete :
    radixTreeTagged ⟨1, 3, by decide⟩
      (radixTreeDelete ⟨1, 3, by decide⟩
        (radixTreeInsert ⟨1, 3, by decide⟩
          (radixTreeTagSet ⟨1, 3, by decide⟩
            (radixTreeInsert ⟨1, 3, by decide⟩ (Root.empty ℕ 2) 0 7 []).2 0 1).2.2
          6 9 [true, true, true, true, true]).2 0).2.2 1 = false := by
  have hrun : Run (Step ⟨1, 3, by decide⟩) (Root.empty ℕ 2)
      [.insert 0 7 .ok, .tagSet 0 1, .insert 6 9 .ok, .delete 0] _ :=
    .snoc (.snoc (.snoc (.snoc .nil ⟨by decide, [], Prod.ext (by decide) rfl⟩)
      ⟨by decide, ⟨7, rfl⟩, rfl⟩)
      ⟨by decide, [true, true, true, true, true], Prod.ext (by decide) rfl⟩)
      ⟨by decide, rfl⟩
  refine Bool.eq_false_iff.2 fun htagged => ?_
  obtain ⟨i, hi, _⟩ := ((radix_tree_tag_coherence hrun).2.1 1).1 htagged
  simp [history, Spec.after, Spec.empty, Spec.insert, Spec.erase, Spec.tag] at hi

end BooxKernel.RadixTree
