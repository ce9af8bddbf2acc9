import BooxKernel.RadixTree.Tags

/-!
# Deletion from a radix tree

Deletion clears the item's tags, empties its slot, frees the nodes that became
empty, and shrinks the tree while the root node has nothing but its first slot.
-/
namespace BooxKernel.RadixTree
open Digits Slots Function

variable {α : Type*} {c : Config} {a : Spec α} {i level base h count : ℕ} {p : Ptr α c.mapSize}
  {tags : Fin maxTags → Fin c.mapSize → Bool} {slots : Fin c.mapSize → Ptr α c.mapSize}

lemma findLoop_spec (hrep : Rep a level base p) (hi : high c.mapShift level i = base) :
    (findLoop c i level p).1 = .ok ∧ (findLoop c i level p).2.1 = .ofOption (a.map i) ∧
    (a.map i ≠ none → 0 < level → ∀ t, (findLoop c i level p).2.2 t = true ↔ i ∈ a.tagged t) := by
  induction level generalizing base p with
  | zero =>
    rw [high_zero] at hi
    subst hi
    exact ⟨rfl, hrep, fun _ h => absurd h (lt_irrefl 0)⟩
  | succ level ih =>
    cases p with
    | item y => exact absurd hrep id
    | null =>
      have habsent := rep_null.1 hrep i hi
      exact ⟨rfl, by rw [habsent]; rfl, fun hthere => absurd habsent hthere⟩
    | node h count tags slots =>
      obtain ⟨hok, hfound, htags⟩ := ih (hrep.2.2.1 (offset c level i)) (high_offset hi)
      unfold findLoop
      refine ⟨hok, hfound, ?_⟩
      intro hthere _ t
      cases level with
      | zero =>
        dsimp only
        rw [if_pos rfl, hrep.2.2.2 t, ← high_offset hi]
        simp only [high_zero, exists_eq_right]
      | succ level =>
        dsimp only
        exact htags hthere (Nat.succ_pos level) t

lemma rep_emptied {a' : Spec α}
    (hrep : Rep a (level + 1) base (.node h count tags slots)) (hsame : SameExcept i a a')
    (hq : Rep a' level (c.mapSize * base + (offset c level i).val) (.null : Ptr α c.mapSize))
    (hfull : (slots (offset c level i)).isNull = false) (hone : count - 1 = 0) :
    Rep a' (level + 1) base (.null : Ptr α c.mapSize) := by
  have hcount : filled Ptr.isNull slots = 1 := by
    have hpos := filled_update_clear hfull (p := .null) rfl
    have hc := hrep.2.1
    omega
  intro j hj
  by_cases hd : offset c level j = offset c level i
  · rw [rep_null] at hq
    exact hq j (high_slot.2 ⟨hj, hd⟩)
  · rw [(hsame j (by rintro rfl; exact hd rfl)).1]
    exact hrep.absent (isNull_of_filled_one hcount hfull hd) (high_offset hj)

lemma erase_tagged {t : Fin maxTags} (h : i ∉ a.tagged t) : (a.erase i).tagged t = a.tagged t :=
  Set.sdiff_singleton_eq_self h

lemma removeLoop_spec (hrep : Rep a level base p) (hi : high c.mapShift level i = base)
    (hthere : a.map i ≠ none) (huntagged : ∀ t, i ∉ a.tagged t) :
    Rep (a.erase i) level base (removeLoop c i level p).1 := by
  induction level generalizing base p with
  | zero =>
    subst hi
    simp [removeLoop, Rep, Spec.erase, Ptr.ofOption]
  | succ level ih =>
    obtain ⟨h, count, tags, slots, rfl⟩ := hrep.exists_node (hrep.notNull hi hthere)
    have hslot := hrep.2.2.1 (offset c level i)
    have hfull := hslot.notNull (high_offset hi) hthere
    have hbelow := ih hslot (high_offset hi)
    have htags : ∀ (t : Fin maxTags) (d : Fin c.mapSize), tags t d = true ↔
        ∃ j ∈ (a.erase i).tagged t, high c.mapShift level j = c.mapSize * base + d := by
      intro t d
      rw [erase_tagged (huntagged t)]
      exact hrep.2.2.2 t d
    unfold removeLoop
    by_cases hnull : (removeLoop c i level (slots (offset c level i))).1.isNull = true
    · rw [if_pos hnull]
      by_cases hone : count - 1 = 0
      · rw [if_pos hone]
        rw [isNull_iff.1 hnull] at hbelow
        exact rep_emptied hrep (sameExcept_erase i) hbelow hfull hone
      · rw [if_neg hone]
        apply hrep.update (sameExcept_erase i) hbelow _ htags
        have hclear := filled_update_clear hfull hnull
        have hc := hrep.2.1
        omega
    · rw [if_neg hnull]
      apply hrep.update (sameExcept_erase i) hbelow _ htags
      rw [filled_update_same (hfull.trans (by simpa using hnull))]
      exact hrep.2.1

lemma shrinkLoop_spec (hrep : Rep a level 0 p)
    (hrange : ∀ j, a.map j ≠ none → high c.mapShift level j = 0) (hfull : p.isNull = false) :
    (shrinkLoop c level p).1 = .ok ∧
    (shrinkLoop c level p).2.1 ≤ level ∧
    Rep a (shrinkLoop c level p).2.1 0 (shrinkLoop c level p).2.2 ∧
    ∀ j, a.map j ≠ none → high c.mapShift (shrinkLoop c level p).2.1 j = 0 := by
  induction level generalizing p with
  | zero => exact ⟨rfl, le_rfl, hrep, hrange⟩
  | succ level ih =>
    obtain ⟨h, count, tags, slots, rfl⟩ := hrep.exists_node hfull
    have hkeep : (Errno.ok = Errno.ok) ∧ level + 1 ≤ level + 1 ∧
        Rep a (level + 1) 0 (.node h count tags slots) ∧
        ∀ j, a.map j ≠ none → high c.mapShift (level + 1) j = 0 := ⟨rfl, le_rfl, hrep, hrange⟩
    unfold shrinkLoop
    by_cases hcount : count ≠ 1
    · rw [if_pos hcount]
      exact hkeep
    rw [if_neg hcount]
    by_cases hnull : (slots ⟨0, mapSize_pos c⟩).isNull = true
    · rw [if_pos hnull]
      exact hkeep
    · rw [if_neg hnull]
      rw [Bool.not_eq_true] at hnull
      have hone : filled Ptr.isNull slots = 1 := by
        have hc := hrep.2.1
        omega
      have hfirst : ∀ j, a.map j ≠ none → high c.mapShift level j = 0 := by
        intro j hj
        have hhigh := high_offset (hrange j hj)
        by_cases hd : offset c level j = ⟨0, mapSize_pos c⟩
        · rw [hhigh, hd]
          simp
        · exact absurd (hrep.absent (isNull_of_filled_one hone hnull hd) hhigh) hj
      obtain ⟨hok, hle, hrep', hrange'⟩ := ih (hrep.2.2.1 ⟨0, mapSize_pos c⟩) hfirst hnull
      exact ⟨hok, by omega, hrep', hrange'⟩

section Roots
variable {root : Root α c.mapSize}

lemma erase_eq_self (habsent : a.map i = none) (huntagged : ∀ t, i ∉ a.tagged t) :
    a.erase i = a := by
  unfold Spec.erase
  congr
  · rw [← habsent, update_eq_self]
  · funext t
    exact erase_tagged (huntagged t)

lemma RootInv.present_erase (hinv : RootInv a root) (i : ℕ) (t : Fin maxTags) :
    ∀ j ∈ (a.erase i).tagged t, (a.erase i).map j ≠ none := by
  intro j hj
  rw [(sameExcept_erase i j hj.2).1]
  exact hinv.present t j hj.1

lemma rootInv_empty (habsent : ∀ j, a.map j = none)
    (hpresent : ∀ t, ∀ j ∈ a.tagged t, a.map j ≠ none) :
    RootInv (c := c) a ⟨0, fun _ => false, .null⟩ := by
  refine ⟨rep_null.2 fun j _ => habsent j, fun j hj => absurd (habsent j) hj,
    fun j hj => absurd (habsent j) hj, by simp, ?_, hpresent⟩
  intro t
  simp only [Bool.false_eq_true, false_iff]
  rintro ⟨j, hj⟩
  exact hpresent t j hj (habsent j)

/-- The abstract state after the item's tags were cleared. -/
def untagAll (a : Spec α) (i : ℕ) : Spec α := { a with tagged := fun t => a.tagged t \ {i} }

lemma mem_untagAll {j : ℕ} {t : Fin maxTags} :
    j ∈ (untagAll a i).tagged t ↔ j ∈ a.tagged t ∧ j ≠ i := by
  simp [untagAll]

lemma untagAll_eq : untagAll a i = (a.untag 0 i).untag 1 i := by
  have htagged : (untagAll a i).tagged = ((a.untag 0 i).untag 1 i).tagged := by
    funext t
    ext j
    rw [mem_untagAll, mem_untag, mem_untag]
    rcases Fin.exists_fin_two.1 ⟨t, rfl⟩ with h | h
    · subst h
      simp
    · subst h
      simp
  show Spec.mk a.map (untagAll a i).tagged = Spec.mk a.map _
  rw [htagged]
  rfl

lemma erase_untagAll : (untagAll a i).erase i = a.erase i := by
  simp [untagAll, Spec.erase]

lemma clearTag_spec {bit : Bool} {t : Fin maxTags} (hinv : RootInv a root)
    (hindex : i < 2 ^ c.indexBits) (hbit : ¬bit → i ∉ a.tagged t) :
    RootInv (a.untag t i) (if bit then (radixTreeTagClear c root i t).2.2 else root) ∧
      (if bit then (radixTreeTagClear c root i t).2.2 else root).height = root.height := by
  split_ifs with hset
  · exact (radixTreeTagClear_spec hinv hindex).2.2
  · rw [untag_eq_self (hbit hset)]
    exact ⟨hinv, rfl⟩

lemma clearTags_spec {bits : Fin maxTags → Bool} (hinv : RootInv a root)
    (hindex : i < 2 ^ c.indexBits) (hbits : ∀ t, bits t = true ↔ i ∈ a.tagged t) :
    RootInv (untagAll a i) (clearTags c root i bits) ∧
    (clearTags c root i bits).height = root.height := by
  have hfirst := clearTag_spec hinv hindex (mt (hbits 0).2)
  have hsecond := clearTag_spec (t := 1) hfirst.1 hindex
    (fun hset hi => hset ((hbits 1).2 (mem_untag.1 hi).1))
  rw [untagAll_eq]
  exact ⟨hsecond.1, hsecond.2.trans hfirst.2⟩

lemma remove_step (hinv : RootInv a root) (hthere : a.map i ≠ none)
    (huntagged : ∀ t, i ∉ a.tagged t) :
    let removed := removeLoop c i root.height root.rnode
    let shrunk := shrinkLoop c root.height removed.1
    (removed.1.isNull = true → RootInv (c := c) (a.erase i) ⟨0, fun _ => false, .null⟩) ∧
    (removed.1.isNull = false → RootInv (a.erase i) { root with rnode := removed.1 } ∧
      shrunk.1 = .ok ∧ RootInv (a.erase i) ⟨shrunk.2.1, root.tags, shrunk.2.2⟩) := by
  intro removed shrunk
  have hrep : Rep (a.erase i) root.height 0 removed.1 :=
    removeLoop_spec hinv.rep (hinv.range i hthere) hthere huntagged
  have hpart : ∀ j, (a.erase i).map j ≠ none → a.map j ≠ none := by
    intro j hj
    by_cases hji : j = i
    · subst hji
      exact hthere
    · rwa [(sameExcept_erase i j hji).1] at hj
  have hrange : ∀ j, (a.erase i).map j ≠ none → high c.mapShift root.height j = 0 :=
    fun j hj => hinv.range j (hpart j hj)
  have hpresent := hinv.present_erase i
  have htags : ∀ t, root.tags t = true ↔ ((a.erase i).tagged t).Nonempty := by
    intro t
    rw [erase_tagged (huntagged t)]
    exact hinv.rootTags t
  constructor
  · intro hnull
    rw [isNull_iff.1 hnull, rep_null] at hrep
    apply rootInv_empty _ hpresent
    intro j
    by_contra hj
    exact hj (hrep j (hrange j hj))
  · intro hfull
    obtain ⟨hok, hle, hrep', hrange'⟩ := shrinkLoop_spec hrep hrange hfull
    refine ⟨⟨hrep, hrange, fun j hj => hinv.small j (hpart j hj), hinv.shift, htags, hpresent⟩, hok,
      ⟨hrep', hrange', fun j hj => hinv.small j (hpart j hj), ?_, htags, hpresent⟩⟩
    intro level hlevel
    have hheight : level + 1 ≤ root.height := hlevel ▸ hle
    have hold := hinv.shift (root.height - 1) (by omega)
    exact lt_of_le_of_lt (Nat.mul_le_mul_right _ (by omega)) hold

lemma radixTreeDelete_spec (hinv : RootInv a root) (hindex : i < 2 ^ c.indexBits) :
    (radixTreeDelete c root i).1 = .ok ∧
    (radixTreeDelete c root i).2.1 = .ofOption (a.map i) ∧
    RootInv (a.erase i) (radixTreeDelete c root i).2.2 := by
  have hself : a.map i = none → RootInv (a.erase i) root := by
    intro habsent
    rw [erase_eq_self habsent fun t hi => hinv.present t i hi habsent]
    exact hinv
  unfold radixTreeDelete
  by_cases hbig : i > maxindex c root.height
  · rw [if_pos hbig]
    have habsent := hinv.absent hbig
    exact ⟨rfl, by rw [habsent]; rfl, hself habsent⟩
  rw [if_neg hbig]
  rw [maxindex_lt hindex, not_not] at hbig
  by_cases hzero : root.height = 0
  · rw [if_pos hzero]
    have hrep := hinv.rep
    have hrange := hinv.range
    rw [hzero] at hrep hrange hbig
    simp only [high_zero] at hrange hbig
    subst hbig
    refine ⟨rfl, hrep, rootInv_empty (fun j => ?_) (hinv.present_erase 0)⟩
    by_cases hj : j = 0
    · subst hj
      simp [Spec.erase]
    · rw [(sameExcept_erase 0 j hj).1]
      by_contra hne
      exact hj (hrange j hne)
  rw [if_neg hzero]
  obtain ⟨hok, hfound, hbits⟩ := findLoop_spec hinv.rep hbig
  rw [if_neg (by simp [hok])]
  cases hm : a.map i with
  | none =>
    rw [hm] at hfound
    rw [if_pos (by rw [hfound]; rfl)]
    exact ⟨rfl, rfl, hself hm⟩
  | some x =>
    have hthere : a.map i ≠ none := by simp [hm]
    rw [hm] at hfound
    rw [if_neg (by rw [hfound]; simp [Ptr.ofOption, Ptr.isNull])]
    obtain ⟨hcleared, _⟩ := clearTags_spec hinv hindex (hbits hthere (pos_of_ne_zero hzero))
    have hstep := remove_step hcleared hthere fun t hi => (mem_untagAll.1 hi).2 rfl
    rw [erase_untagAll] at hstep
    generalize clearTags c root i (findLoop c i root.height root.rnode).2.2 = cleared at hstep ⊢
    by_cases hnull : (removeLoop c i cleared.height cleared.rnode).1.isNull = true
    · rw [if_pos hnull]
      exact ⟨rfl, hfound, hstep.1 hnull⟩
    · rw [if_neg hnull]
      obtain ⟨hkeep, hshrink, hsmall⟩ := hstep.2 (by simpa using hnull)
      by_cases hroot : (removeLoop c i cleared.height cleared.rnode).2 = true
      · rw [if_pos hroot]
        exact ⟨hshrink, hfound, hsmall⟩
      · rw [if_neg hroot]
        exact ⟨rfl, hfound, hkeep⟩

end Roots

/-- A freed node goes back to the slab with no count, no tag bit and no slot. -/
def Zeroed (p : Ptr α c.mapSize) : Prop :=
  ∃ h, radixTreeNodeRcuFree c p = .node h 0 (fun _ _ => false) fun _ => .null

lemma Rep.zeroed (hpresent : ∀ t, ∀ j ∈ a.tagged t, a.map j ≠ none)
    (hrep : Rep a (level + 1) base (.node h count tags slots))
    (hnull : ∀ d ≠ ⟨0, mapSize_pos c⟩, (slots d).isNull = true) :
    Zeroed (.node h count tags slots) := by
  refine ⟨h, ?_⟩
  simp only [radixTreeNodeRcuFree, Ptr.node.injEq, true_and]
  constructor
  · funext t d
    simp only [putTag_apply]
    by_cases hd : d = ⟨0, mapSize_pos c⟩
    · fin_cases t <;> simp [hd]
    · have htag : ¬ tags t d = true := by
        intro hset
        obtain ⟨j, hj, hhigh⟩ := (hrep.2.2.2 t d).1 hset
        exact hpresent t j hj (hrep.absent (hnull d hd) hhigh)
      simp [hd, htag]
  · funext d
    by_cases hd : d = ⟨0, mapSize_pos c⟩
    · rw [hd, update_self]
    · rw [update_of_ne hd, isNull_iff.1 (hnull d hd)]

lemma shrinkFreed_zeroed (hpresent : ∀ t, ∀ j ∈ a.tagged t, a.map j ≠ none)
    (hrep : Rep a level 0 p) : ∀ q ∈ shrinkFreed c level p, Zeroed q := by
  induction level generalizing p with
  | zero => simp [shrinkFreed]
  | succ level ih =>
    cases p with
    | null => simp [shrinkFreed]
    | item y => simp [shrinkFreed]
    | node h count tags slots =>
      intro q hq
      simp only [shrinkFreed, List.mem_ite_nil_left, not_not, Bool.not_eq_true, List.mem_cons] at hq
      obtain ⟨hcount, hfirst, rfl | hq⟩ := hq
      · exact hrep.zeroed hpresent fun d hd =>
          isNull_of_filled_one (hrep.2.1.symm.trans hcount) hfirst hd
      · have hslot := hrep.2.2.1 ⟨0, mapSize_pos c⟩
        exact ih hslot q hq

lemma removeFreed_zeroed (hrep : Rep a level base p) (hi : high c.mapShift level i = base)
    (hthere : a.map i ≠ none) (huntagged : ∀ t, i ∉ a.tagged t)
    (hpresent : ∀ t, ∀ j ∈ (a.erase i).tagged t, (a.erase i).map j ≠ none) :
    ∀ q ∈ removeFreed c i level p, Zeroed q := by
  induction level generalizing base p with
  | zero => simp [removeFreed]
  | succ level ih =>
    obtain ⟨h, count, tags, slots, rfl⟩ := hrep.exists_node (hrep.notNull hi hthere)
    have hslot := hrep.2.2.1 (offset c level i)
    have hbelow := removeLoop_spec hslot (high_offset hi) hthere huntagged
    intro q hq
    simp only [removeFreed, List.mem_append, List.mem_ite_nil_right, Bool.and_eq_true,
      decide_eq_true_eq, List.mem_singleton] at hq
    rcases hq with hq | ⟨⟨hnull, hzero⟩, rfl⟩
    · exact ih hslot (high_offset hi) q hq
    · rw [isNull_iff.1 hnull] at hbelow
      have hcount : count - 1 = filled Ptr.isNull (update slots (offset c level i) .null) := by
        have hfull := hslot.notNull (high_offset hi) hthere
        have hclear := filled_update_clear hfull (p := .null) rfl
        have hc := hrep.2.1
        omega
      refine (hrep.update (sameExcept_erase i) hbelow hcount fun t d => ?_).zeroed hpresent
        fun d _ => filled_eq_zero (hcount.symm.trans hzero) d
      rw [erase_tagged (huntagged t)]
      exact hrep.2.2.2 t d

lemma deleteFreed_zeroed {root : Root α c.mapSize} (hinv : RootInv a root)
    (hindex : i < 2 ^ c.indexBits) : ∀ q ∈ deleteFreed c root i, Zeroed q := by
  intro q hq
  simp only [deleteFreed, List.mem_ite_nil_left, List.mem_ite_nil_right, List.mem_append] at hq
  obtain ⟨hbig, hzero, -, hnull, hq⟩ := hq
  rw [maxindex_lt hindex, not_not] at hbig
  obtain ⟨_, hfound, hbits⟩ := findLoop_spec hinv.rep hbig
  have hthere : a.map i ≠ none := by
    intro habsent
    rw [hfound, habsent] at hnull
    exact hnull rfl
  obtain ⟨hcleared, _⟩ := clearTags_spec hinv hindex (hbits hthere (pos_of_ne_zero hzero))
  have huntagged : ∀ t, i ∉ (untagAll a i).tagged t := fun t hi => (mem_untagAll.1 hi).2 rfl
  have hstep := remove_step hcleared hthere huntagged
  rcases hq with hq | ⟨hgone, -, hq⟩
  · exact removeFreed_zeroed hcleared.rep (hcleared.range i hthere) hthere huntagged
      (hcleared.present_erase i) q hq
  · obtain ⟨hkeep, _⟩ := hstep.2 (by simpa using hgone)
    exact shrinkFreed_zeroed hkeep.present hkeep.rep q hq

end BooxKernel.RadixTree
