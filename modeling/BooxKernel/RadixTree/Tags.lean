import BooxKernel.RadixTree.Insert

/-!
# Setting and clearing tags

Setting a tag sets the bits on the path of the index. Clearing it clears the bits
from the leaf upwards as long as no other bit of the tag is set in the node, so
each bit keeps telling whether a tagged index lies below it.
-/
namespace BooxKernel.RadixTree
open Digits Slots Function

variable {α : Type*} {c : Config} {a : Spec α} {t t' : Fin maxTags} {i j level base h count : ℕ}
  {tags : Fin maxTags → Fin c.mapSize → Bool} {slots : Fin c.mapSize → Ptr α c.mapSize}

lemma mem_tag : j ∈ (a.tag t i).tagged t' ↔ (t' = t ∧ j = i) ∨ j ∈ a.tagged t' := by
  by_cases ht : t' = t
  · subst ht
    simp [Spec.tag]
  · simp [Spec.tag, ht]

lemma mem_untag : j ∈ (a.untag t i).tagged t' ↔ j ∈ a.tagged t' ∧ ¬ (t' = t ∧ j = i) := by
  by_cases ht : t' = t
  · subst ht
    simp [Spec.untag]
  · simp [Spec.untag, ht]

lemma putTag_apply (tags : Fin maxTags → Fin c.mapSize → Bool) (d e : Fin c.mapSize)
    (value : Bool) :
    putTag c tags t d value t' e = if t' = t ∧ e = d then value else tags t' e := by
  unfold putTag
  by_cases ht : t' = t
  · subst ht
    by_cases he : e = d
    · subst he
      simp
    · simp [he]
  · simp [ht]

section Set
variable {p : Ptr α c.mapSize} {x : α}

lemma tags_after_set (hrep : Rep a (level + 1) base (.node h count tags slots))
    (hi : high c.mapShift (level + 1) i = base) (t' : Fin maxTags) (d : Fin c.mapSize) :
    putTag c tags t (offset c level i) true t' d = true ↔
      ∃ j ∈ (a.tag t i).tagged t', high c.mapShift level j = c.mapSize * base + d := by
  have htags := hrep.2.2.2 t' d
  rw [putTag_apply]
  by_cases hd : t' = t ∧ d = offset c level i
  · rw [if_pos hd]
    refine ⟨fun _ => ⟨i, mem_tag.2 (.inl ⟨hd.1, rfl⟩), ?_⟩, fun _ => rfl⟩
    rw [hd.2]
    exact high_offset hi
  · rw [if_neg hd, htags]
    constructor
    · rintro ⟨j, hj, hhigh⟩
      exact ⟨j, mem_tag.2 (.inr hj), hhigh⟩
    · rintro ⟨j, hj, hhigh⟩
      rcases mem_tag.1 hj with ⟨ht, rfl⟩ | hj
      · exact absurd ⟨ht, (high_slot.1 hhigh).2.symm⟩ hd
      · exact ⟨j, hj, hhigh⟩

lemma tagSetLoop_spec (hrep : Rep a level base p) (hi : high c.mapShift level i = base)
    (hx : a.map i = some x) :
    (tagSetLoop c i t level p).1 = .ok ∧ (tagSetLoop c i t level p).2.1 = .item x ∧
    Rep (a.tag t i) level base (tagSetLoop c i t level p).2.2 ∧
    (tagSetLoop c i t level p).2.2.isNull = false := by
  induction level generalizing base p with
  | zero =>
    rw [high_zero] at hi
    subst hi
    unfold Rep at hrep
    rw [hx] at hrep
    subst hrep
    refine ⟨rfl, rfl, ?_, rfl⟩
    show _ = Ptr.ofOption (a.map i)
    rw [hx]
    rfl
  | succ level ih =>
    have hthere : a.map i ≠ none := by simp [hx]
    obtain ⟨h, count, tags, slots, rfl⟩ := hrep.exists_node (hrep.notNull hi hthere)
    have hslot := hrep.2.2.1 (offset c level i)
    have hfull := hslot.notNull (high_offset hi) hthere
    obtain ⟨hok, hfound, hbelow, hkeep⟩ := ih hslot (high_offset hi)
    unfold tagSetLoop
    rw [if_neg (by simp [hfull])]
    refine ⟨hok, hfound, ?_, rfl⟩
    apply hrep.update (sameExcept_update fun j hj => by simp [hj]) hbelow
    · rw [filled_update_same (hfull.trans hkeep.symm)]
      exact hrep.2.1
    · exact tags_after_set hrep hi

lemma radixTreeTagSet_spec {root : Root α c.mapSize} (hinv : RootInv a root)
    (hx : a.map i = some x) :
    (radixTreeTagSet c root i t).1 = .ok ∧ (radixTreeTagSet c root i t).2.1 = .item x ∧
    RootInv (a.tag t i) (radixTreeTagSet c root i t).2.2 := by
  have hthere : a.map i ≠ none := by simp [hx]
  have hfit := hinv.range i hthere
  obtain ⟨hok, hfound, hrep, _⟩ := tagSetLoop_spec (t := t) hinv.rep hfit hx
  unfold radixTreeTagSet
  dsimp only
  rw [if_neg (by rw [maxindex_lt (hinv.small i hthere)]; simpa using hfit)]
  refine ⟨hok, hfound, hrep, hinv.range, hinv.small, hinv.shift, ?_, ?_⟩
  · intro t'
    rw [hfound]
    by_cases ht : t' = t
    · subst ht
      have hne : ((a.tag t' i).tagged t').Nonempty := ⟨i, mem_tag.2 (.inl ⟨rfl, rfl⟩)⟩
      simp [Ptr.isNull, hne]
    · simp [Ptr.isNull, ht, Spec.tag, hinv.rootTags]
  · intro t' j hj
    rcases mem_tag.1 hj with ⟨_, rfl⟩ | hj
    · exact hthere
    · exact hinv.present t' j hj

end Set

section Clear
variable {p : Ptr α c.mapSize} {below : Errno × Ptr α c.mapSize × Bool × Ptr α c.mapSize}
  {root : Root α c.mapSize}

/-- Some index of subtree `base` has the tag. -/
def TaggedBelow (c : Config) (a : Spec α) (t : Fin maxTags) (level base : ℕ) : Prop :=
  ∃ j ∈ a.tagged t, high c.mapShift level j = base

lemma TaggedBelow.of_untag (h : TaggedBelow c (a.untag t i) t' level base) :
    TaggedBelow c a t' level base := by
  obtain ⟨j, hj, hhigh⟩ := h
  exact ⟨j, (mem_untag.1 hj).1, hhigh⟩

lemma taggedBelow_untag_other {d : Fin c.mapSize} (hd : ¬ (t' = t ∧ d = offset c level i)) :
    TaggedBelow c (a.untag t i) t' level (c.mapSize * base + d) ↔
      TaggedBelow c a t' level (c.mapSize * base + d) := by
  refine ⟨TaggedBelow.of_untag, ?_⟩
  rintro ⟨j, hj, hhigh⟩
  refine ⟨j, mem_untag.2 ⟨hj, ?_⟩, hhigh⟩
  rintro ⟨ht, rfl⟩
  exact hd ⟨ht, (high_slot.1 hhigh).2.symm⟩

/-- What the loops of `radix_tree_tag_clear` do below a slot. The way up goes on
exactly when the index is present and the tag is gone from the subtree. -/
structure ClearSpec (a : Spec α) (t : Fin maxTags) (i level base : ℕ) (p : Ptr α c.mapSize)
    (r : Errno × Ptr α c.mapSize × Bool × Ptr α c.mapSize) : Prop where
  ok : r.1 = .ok
  found : r.2.1 = .ofOption (a.map i)
  rep : Rep (a.untag t i) level base r.2.2.2
  same : r.2.2.2.isNull = p.isNull
  up : r.2.2.1 = true → ¬ TaggedBelow c (a.untag t i) t level base
  stay : r.2.2.1 = false → (TaggedBelow c (a.untag t i) t level base ↔ TaggedBelow c a t level base)

section
variable (hrep : Rep a (level + 1) base (.node h count tags slots))
    (hbelow : ClearSpec a t i level (c.mapSize * base + (offset c level i).val)
      (slots (offset c level i)) below)
include hrep hbelow

lemma count_clear : count = filled Ptr.isNull (update slots (offset c level i) below.2.2.2) := by
  rw [filled_update_same hbelow.same.symm]
  exact hrep.2.1

lemma clear_stop (hstop : (below.2.2.1 && tags t (offset c level i)) = false) :
    ClearSpec a t i (level + 1) base (.node h count tags slots)
      (below.1, below.2.1, false,
        .node h count tags (update slots (offset c level i) below.2.2.2)) := by
  have htags : ∀ (t' : Fin maxTags) (d : Fin c.mapSize), tags t' d = true ↔
      TaggedBelow c (a.untag t i) t' level (c.mapSize * base + d) := by
    intro t' d
    have hold : tags t' d = true ↔ TaggedBelow c a t' level (c.mapSize * base + d) :=
      hrep.2.2.2 t' d
    by_cases hd : t' = t ∧ d = offset c level i
    · obtain ⟨rfl, rfl⟩ := hd
      rw [hold]
      cases hup : below.2.2.1 with
      | true =>
        rw [hup, Bool.true_and] at hstop
        rw [hstop] at hold
        refine ⟨fun htagged => absurd (hold.2 htagged) (by simp), fun h => h.of_untag⟩
      | false => exact (hbelow.stay hup).symm
    · rw [hold, taggedBelow_untag_other hd]
  refine ⟨hbelow.ok, hbelow.found, hrep.update (sameExcept_untag t i) hbelow.rep
    (count_clear hrep hbelow) htags, rfl, by simp, fun _ => ?_⟩
  · refine ⟨fun h => h.of_untag, ?_⟩
    rintro ⟨j, hj, hhigh⟩
    have hset : tags t (offset c level j) = true := (hrep.2.2.2 t _).2 ⟨j, hj, high_offset hhigh⟩
    obtain ⟨k, hk, hkhigh⟩ := (htags t _).1 hset
    exact ⟨k, hk, (high_slot.1 hkhigh).1⟩

lemma clear_through (hup : below.2.2.1 = true) :
    ClearSpec a t i (level + 1) base (.node h count tags slots)
      (below.1, below.2.1, !anyTagSet c (putTag c tags t (offset c level i) false) t,
        .node h count (putTag c tags t (offset c level i) false)
          (update slots (offset c level i) below.2.2.2)) := by
  have htags : ∀ (t' : Fin maxTags) (d : Fin c.mapSize),
      putTag c tags t (offset c level i) false t' d = true ↔
        TaggedBelow c (a.untag t i) t' level (c.mapSize * base + d) := by
    intro t' d
    rw [putTag_apply]
    by_cases hd : t' = t ∧ d = offset c level i
    · obtain ⟨rfl, rfl⟩ := hd
      simpa using hbelow.up hup
    · rw [if_neg hd, taggedBelow_untag_other hd]
      exact hrep.2.2.2 t' d
  have hany : anyTagSet c (putTag c tags t (offset c level i) false) t = true ↔
      TaggedBelow c (a.untag t i) t (level + 1) base := by
    unfold anyTagSet
    rw [decide_eq_true_iff]
    constructor
    · rintro ⟨d, hd⟩
      obtain ⟨j, hj, hhigh⟩ := (htags t d).1 hd
      exact ⟨j, hj, (high_slot.1 hhigh).1⟩
    · rintro ⟨j, hj, hhigh⟩
      exact ⟨offset c level j, (htags t _).2 ⟨j, hj, high_offset hhigh⟩⟩
  refine ⟨hbelow.ok, hbelow.found, hrep.update (sameExcept_untag t i) hbelow.rep
    (count_clear hrep hbelow) htags, rfl, ?_, ?_⟩
  · intro hgo
    rw [← hany]
    simpa using hgo
  · intro hstop
    have htagged := hany.1 (by simpa using hstop)
    exact ⟨fun h => h.of_untag, fun _ => htagged⟩

end

lemma tagClearLoop_spec (hpresent : ∀ j ∈ a.tagged t, a.map j ≠ none)
    (hrep : Rep a level base p) (hi : high c.mapShift level i = base) :
    ClearSpec a t i level base p (tagClearLoop c i t level p) := by
  induction level generalizing base p with
  | zero =>
    rw [high_zero] at hi
    subst hi
    have hnot : ¬ TaggedBelow c (a.untag t i) t 0 i := by
      rintro ⟨j, hj, hhigh⟩
      rw [high_zero] at hhigh
      exact (mem_untag.1 hj).2 ⟨rfl, hhigh⟩
    refine ⟨rfl, hrep, ?_, rfl, fun _ => hnot, ?_⟩
    · exact hrep
    · intro hnull
      refine ⟨fun h => absurd h hnot, ?_⟩
      rintro ⟨j, hj, hhigh⟩
      subst hhigh
      have hthere := hpresent j hj
      rw [hrep] at hnull
      cases hm : a.map j with
      | none => exact absurd hm hthere
      | some x => simp [tagClearLoop, hm, Ptr.ofOption, Ptr.isNull] at hnull
  | succ level ih =>
    cases p with
    | item y => exact absurd hrep id
    | null =>
      have hnone : ∀ j ∈ a.tagged t, high c.mapShift (level + 1) j ≠ base :=
        fun j hj hhigh => hpresent j hj (hrep j hhigh)
      refine ⟨rfl, by rw [hrep i hi]; rfl, rep_null.2 hrep, rfl, by simp [tagClearLoop], ?_⟩
      intro _
      refine ⟨fun h => h.of_untag, ?_⟩
      rintro ⟨j, hj, hhigh⟩
      exact absurd hhigh (hnone j hj)
    | node h count tags slots =>
      have hbelow := ih (hrep.2.2.1 (offset c level i)) (high_offset hi)
      unfold tagClearLoop
      by_cases hgo : ((tagClearLoop c i t level (slots (offset c level i))).2.2.1 &&
          tags t (offset c level i)) = true
      · rw [if_pos hgo]
        exact clear_through hrep hbelow (Bool.and_eq_true_iff.1 hgo).1
      · rw [if_neg hgo]
        exact clear_stop hrep hbelow (by simpa using hgo)

lemma untag_eq_self (h : i ∉ a.tagged t) : a.untag t i = a := by
  unfold Spec.untag
  rw [Set.sdiff_singleton_eq_self h, update_eq_self]

lemma taggedBelow_iff (hrange : ∀ j ∈ a.tagged t, high c.mapShift level j = 0) :
    TaggedBelow c a t level 0 ↔ (a.tagged t).Nonempty := by
  constructor
  · rintro ⟨j, hj, _⟩
    exact ⟨j, hj⟩
  · rintro ⟨j, hj⟩
    exact ⟨j, hj, hrange j hj⟩

lemma radixTreeTagClear_spec (hinv : RootInv a root) (hindex : i < 2 ^ c.indexBits) :
    (radixTreeTagClear c root i t).1 = .ok ∧
    (radixTreeTagClear c root i t).2.1 = .ofOption (a.map i) ∧
    RootInv (a.untag t i) (radixTreeTagClear c root i t).2.2 ∧
    (radixTreeTagClear c root i t).2.2.height = root.height := by
  unfold radixTreeTagClear
  dsimp only
  by_cases hbig : i > maxindex c root.height
  · rw [if_pos hbig]
    have habsent := hinv.absent hbig
    rw [untag_eq_self fun hi => hinv.present t i hi habsent, habsent]
    exact ⟨rfl, rfl, hinv, rfl⟩
  · rw [if_neg hbig]
    rw [maxindex_lt hindex, not_not] at hbig
    have hspec := tagClearLoop_spec (hinv.present t) hinv.rep hbig
    generalize tagClearLoop c i t root.height root.rnode = below at hspec
    have hpresent : ∀ t', ∀ j ∈ (a.untag t i).tagged t', (a.untag t i).map j ≠ none :=
      fun t' j hj => hinv.present t' j (mem_untag.1 hj).1
    refine ⟨hspec.ok, hspec.found, ⟨hspec.rep, hinv.range, hinv.small, hinv.shift, ?_, hpresent⟩,
      rfl⟩
    intro t'
    by_cases ht : t' = t
    · subst ht
      rw [← taggedBelow_iff fun j hj => hinv.range j (hpresent t' j hj)]
      cases hup : below.2.2.1 with
      | true => simpa using hspec.up hup
      | false =>
        rw [hspec.stay hup, taggedBelow_iff fun j hj => hinv.range j (hinv.present t' j hj)]
        exact hinv.rootTags t'
    · have hsame : (a.untag t i).tagged t' = a.tagged t' := by simp [Spec.untag, ht]
      rw [hsame, ← hinv.rootTags]
      cases below.2.2.1 <;> simp [ht]

end Clear

end BooxKernel.RadixTree
