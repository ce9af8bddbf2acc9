import BooxKernel.RadixTree.Invariant

/-!
# Insertion into a radix tree

`RootInv` is the invariant of a whole tree. An insertion that succeeds adds one
item, and one that fails may have raised the tree or left empty nodes behind,
which represent the same abstract state.
-/
namespace BooxKernel.RadixTree
open Digits Slots

variable {α : Type*} {c : Config}

lemma maxindex_lt {height index : ℕ} (hindex : index < 2 ^ c.indexBits) :
    index > maxindex c height ↔ high c.mapShift height index ≠ 0 := by
  rw [Ne, high_eq_zero]
  unfold maxindex
  generalize height * c.mapShift = width
  by_cases hbig : c.indexBits < width
  · have hpow : 2 ^ c.indexBits ≤ 2 ^ width := Nat.pow_le_pow_right (by norm_num) hbig.le
    rw [if_pos hbig]
    omega
  · rw [if_neg hbig]
    by_cases hzero : c.indexBits - width ≥ c.indexBits
    · rw [if_pos hzero]
      by_cases hw : width = 0
      · subst hw
        omega
      · omega
    · rw [if_neg hzero]
      have hsplit : 2 ^ c.indexBits = 2 ^ width * 2 ^ (c.indexBits - width) := by
        rw [← pow_add]
        congr 1
        omega
      have hpos : 0 < 2 ^ (c.indexBits - width) := by positivity
      have hdiv : (2 ^ c.indexBits - 1) / 2 ^ (c.indexBits - width) = 2 ^ width - 1 := by
        rw [Nat.div_eq_iff hpos]
        have hmul : (2 ^ width - 1) * 2 ^ (c.indexBits - width) =
            2 ^ width * 2 ^ (c.indexBits - width) - 2 ^ (c.indexBits - width) := by
          rw [Nat.sub_mul, Nat.one_mul]
        omega
      have hle : 1 ≤ 2 ^ width := Nat.one_le_two_pow
      omega

/-- The height that `radix_tree_extend` chooses holds the index, and the shift at
its top level is less than the width of an index. -/
lemma fittingHeight_spec {index : ℕ} (hindex : index < 2 ^ c.indexBits) (fuel height : ℕ)
    (hfuel : c.indexBits ≤ fuel + height) (hshift : height * c.mapShift < c.indexBits) :
    height + 1 ≤ fittingHeight c index fuel (height + 1) ∧
    high c.mapShift (fittingHeight c index fuel (height + 1)) index = 0 ∧
    (fittingHeight c index fuel (height + 1) - 1) * c.mapShift < c.indexBits := by
  induction fuel generalizing height with
  | zero =>
    have hpos := c.mapShift_pos
    have hle : height ≤ height * c.mapShift := Nat.le_mul_of_pos_right _ hpos
    omega
  | succ fuel ih =>
    unfold fittingHeight
    split_ifs with hmax
    · rw [maxindex_lt hindex, Ne, high_eq_zero, not_lt] at hmax
      have hlt : (height + 1) * c.mapShift < c.indexBits :=
        (Nat.pow_lt_pow_iff_right (by norm_num)).1 (lt_of_le_of_lt hmax hindex)
      obtain ⟨h1, h2, h3⟩ := ih (height + 1) (by omega) hlt
      exact ⟨by omega, h2, h3⟩
    · refine ⟨le_rfl, ?_, hshift⟩
      by_contra hne
      exact hmax ((maxindex_lt hindex).2 hne)

/-- The invariant of a radix tree that represents `a`. -/
structure RootInv (a : Spec α) (root : Root α c.mapSize) : Prop where
  rep : Rep a root.height 0 root.rnode
  range : ∀ i, a.map i ≠ none → high c.mapShift root.height i = 0
  small : ∀ i, a.map i ≠ none → i < 2 ^ c.indexBits
  shift : ∀ level, root.height = level + 1 → level * c.mapShift < c.indexBits
  rootTags : ∀ t, root.tags t = true ↔ (a.tagged t).Nonempty
  present : ∀ t, ∀ i ∈ a.tagged t, a.map i ≠ none

section Loop
variable {a : Spec α} {level base i count h : ℕ} {p : Ptr α c.mapSize} {x : α}
  {slots : Fin c.mapSize → Ptr α c.mapSize} {tags : Fin maxTags → Fin c.mapSize → Bool}

/-- What the loop of `radix_tree_insert` can come to, at a slot that represents the
subtree of the index. -/
inductive InsertSpec (a : Spec α) (level base i : ℕ) (x : α) (p : Ptr α c.mapSize) :
    Errno × Ptr α c.mapSize × List Bool → Prop
  | ok {q : Ptr α c.mapSize} {alloc : List Bool} (habsent : a.map i = none)
      (hrep : Rep (a.insert i x) level base q) (hfull : q.isNull = false) :
      InsertSpec a level base i x p (.ok, q, alloc)
  | enomem {q : Ptr α c.mapSize} {alloc : List Bool} (habsent : a.map i = none)
      (hrep : Rep a level base q) (hkeep : p.isNull = false → q.isNull = false) :
      InsertSpec a level base i x p (.enomem, q, alloc)
  | eexist {q : Ptr α c.mapSize} {alloc : List Bool} (hpresent : a.map i ≠ none)
      (hrep : Rep a level base q) (hfull : q.isNull = false) :
      InsertSpec a level base i x p (.eexist, q, alloc)

lemma count_fill {d : Fin c.mapSize} {q : Ptr α c.mapSize}
    (hcount : count = filled Ptr.isNull slots)
    (hkeep : (slots d).isNull = false → q.isNull = false) :
    (if (slots d).isNull && !q.isNull then count + 1 else count) =
      filled Ptr.isNull (Function.update slots d q) := by
  cases hd : (slots d).isNull with
  | true =>
    cases hq : q.isNull with
    | true =>
      rw [filled_update_same (hd.trans hq.symm), hcount]
      rfl
    | false =>
      rw [filled_update_fill hd hq, hcount]
      rfl
  | false =>
    rw [filled_update_same (hd.trans (hkeep hd).symm), hcount]
    rfl

section
variable (hpresent : ∀ t, ∀ i ∈ a.tagged t, a.map i ≠ none)
include hpresent

lemma leaf_tags_clear (hrep : Rep a 1 base (.node h count tags slots))
    (hi : high c.mapShift 1 i = base) (habsent : a.map i = none) (t : Fin maxTags)
    : tags t (offset c 0 i) = false := by
  by_contra hset
  rw [Bool.not_eq_false] at hset
  obtain ⟨j, hj, hhigh⟩ := (hrep.2.2.2 t _).1 hset
  rw [← high_offset hi, high_zero, high_zero] at hhigh
  subst hhigh
  exact hpresent t j hj habsent

lemma fillSlot_spec {below : Errno × Ptr α c.mapSize × List Bool}
    (hrep : Rep a (level + 1) base (.node h count tags slots))
    (hi : high c.mapShift (level + 1) i = base)
    (hbelow : InsertSpec a level (c.mapSize * base + (offset c level i).val) i x
      (slots (offset c level i)) below) :
    InsertSpec a (level + 1) base i x p (fillSlot c level i h count tags slots below) := by
  have hcount := hrep.2.1
  have htags := hrep.2.2.2
  cases hbelow with
  | ok habsent hq hfull =>
    rw [fillSlot, if_neg]
    swap
    · cases level with
      | zero => simp [leaf_tags_clear hpresent hrep hi habsent]
      | succ level => simp
    refine .ok habsent ?_ rfl
    exact hrep.update (sameExcept_insert i x) hq (count_fill hcount fun _ => hfull) htags
  | enomem habsent hq hkeep =>
    rw [fillSlot, if_neg (by simp)]
    refine .enomem habsent ?_ fun _ => rfl
    exact hrep.update (fun _ _ => ⟨rfl, fun _ => Iff.rfl⟩) hq (count_fill hcount hkeep) htags
  | eexist hthere hq hfull =>
    rw [fillSlot, if_neg (by simp)]
    refine .eexist hthere ?_ rfl
    exact hrep.update (fun _ _ => ⟨rfl, fun _ => Iff.rfl⟩) hq (count_fill hcount fun _ => hfull)
      htags

lemma rep_zero (hnull : Rep a (level + 1) base (.null : Ptr α c.mapSize)) :
    Rep a (level + 1) base
      (.node (level + 1) 0 (fun _ _ => false) (fun _ => .null) : Ptr α c.mapSize) := by
  refine ⟨rfl, by simp [filled, Ptr.isNull], ?_, ?_⟩
  · intro d
    rw [rep_null]
    intro j hj
    exact hnull j (high_slot.1 hj).1
  · intro t d
    simp only [Bool.false_eq_true, false_iff]
    rintro ⟨j, hj, hhigh⟩
    exact hpresent t j hj (hnull j (high_slot.1 hhigh).1)

lemma insertLoop_spec (hrep : Rep a level base p) (hi : high c.mapShift level i = base)
    (alloc : List Bool) : InsertSpec a level base i x p (insertLoop c i x level p alloc) := by
  induction level generalizing base p alloc with
  | zero =>
    rw [high_zero] at hi
    subst hi
    unfold Rep at hrep
    cases hm : a.map i with
    | none =>
      rw [hm] at hrep
      subst hrep
      refine .ok hm ?_ rfl
      unfold Rep
      simp [Spec.insert, Ptr.ofOption]
    | some y =>
      rw [hm] at hrep
      subst hrep
      refine .eexist (by simp [hm]) ?_ rfl
      unfold Rep
      rw [hm]
  | succ level ih =>
    cases p with
    | item y => exact absurd hrep id
    | null =>
      have habsent := rep_null.1 hrep i hi
      rcases alloc with _ | ⟨_ | _, alloc⟩
      · exact .enomem habsent hrep id
      · exact .enomem habsent hrep id
      · have hzero := rep_zero hpresent hrep
        have hbelow := ih (hzero.2.2.1 (offset c level i)) (high_offset hi) alloc
        exact fillSlot_spec hpresent hzero hi hbelow
    | node h count tags slots =>
      have hbelow := ih (hrep.2.2.1 (offset c level i)) (high_offset hi) alloc
      exact fillSlot_spec hpresent hrep hi hbelow

end

end Loop

section Roots
variable {a : Spec α} {root : Root α c.mapSize} {i : ℕ} {x : α}

lemma RootInv.absent (hinv : RootInv a root) (h : i > maxindex c root.height) : a.map i = none := by
  by_contra hne
  exact (maxindex_lt (hinv.small i hne)).1 h (hinv.range i hne)

lemma RootInv.absent_of_null (hinv : RootInv a root) (hnull : root.rnode.isNull = true) (j : ℕ) :
    a.map j = none := by
  by_contra hne
  have hrep := hinv.rep
  rw [isNull_iff.1 hnull, rep_null] at hrep
  exact hne (hrep j (hinv.range j hne))

lemma RootInv.grow (hinv : RootInv a root) (hfull : root.rnode.isNull = false)
    (hshift : root.height * c.mapShift < c.indexBits) :
    RootInv a ({ root with height := root.height + 1, rnode := topNode c root } :
      Root α c.mapSize) := by
  have hfirst : ∀ j, a.map j ≠ none → high c.mapShift root.height j = 0 := hinv.range
  refine ⟨⟨rfl, ?_, ?_, ?_⟩, ?_, hinv.small, ?_, hinv.rootTags, hinv.present⟩
  · refine (filled_one (d := ⟨0, mapSize_pos c⟩) (by simpa using hfull) fun e he => ?_).symm
    have hne : e.val ≠ 0 := fun hzero => he (Fin.ext hzero)
    simp [hne, Ptr.isNull]
  · intro d
    by_cases hd : d.val = 0
    · dsimp only
      rw [hd]
      exact hinv.rep
    · dsimp only
      rw [if_neg hd, rep_null]
      intro j hj
      by_contra hne
      have := hfirst j hne
      omega
  · intro t d
    rw [Bool.and_eq_true, decide_eq_true_iff, hinv.rootTags]
    constructor
    · rintro ⟨hd, j, hj⟩
      exact ⟨j, hj, by rw [hfirst j (hinv.present t j hj), hd]; simp⟩
    · rintro ⟨j, hj, hhigh⟩
      rw [hfirst j (hinv.present t j hj)] at hhigh
      exact ⟨by omega, j, hj⟩
  · intro j hj
    exact high_eq_zero_mono (hfirst j hj) (Nat.le_succ _)
  · intro level hlevel
    simp only [add_right_cancel_iff] at hlevel
    rw [← hlevel]
    exact hshift

lemma extendLoop_spec (levels : ℕ) (alloc : List Bool) (hinv : RootInv a root)
    (hfull : root.rnode.isNull = false)
    (hshift : ∀ k < levels, (root.height + k) * c.mapShift < c.indexBits) :
    RootInv a (extendLoop c levels root alloc).2.1 ∧
    (((extendLoop c levels root alloc).1 = .ok ∧
        (extendLoop c levels root alloc).2.1.height = root.height + levels) ∨
      (extendLoop c levels root alloc).1 = .enomem) := by
  induction levels generalizing root alloc with
  | zero => exact ⟨hinv, .inl ⟨rfl, rfl⟩⟩
  | succ levels ih =>
    rcases alloc with _ | ⟨_ | _, alloc⟩
    · exact ⟨hinv, .inr rfl⟩
    · exact ⟨hinv, .inr rfl⟩
    · have hgrow := hinv.grow hfull (by simpa using hshift 0 (by omega))
      have hrest := ih alloc hgrow rfl (by
        intro k hk
        have := hshift (k + 1) (by omega)
        rwa [add_right_comm, ← add_assoc] at *)
      refine ⟨hrest.1, hrest.2.imp_left fun ⟨hok, hheight⟩ => ⟨hok, ?_⟩⟩
      rw [extendLoop, hheight]
      dsimp only
      omega

/-- What a call of `radix_tree_insert` can come to. -/
def Inserted (a : Spec α) (i : ℕ) (x : α) (r : Errno × Root α c.mapSize) : Prop :=
  (r.1 = .ok ∧ a.map i = none ∧ RootInv (a.insert i x) r.2) ∨
    (r.1 = .enomem ∧ a.map i = none ∧ RootInv a r.2) ∨
    (r.1 = .eexist ∧ a.map i ≠ none ∧ RootInv a r.2)

lemma of_map_insert {P : ℕ → Prop} (hi : P i) (h : ∀ j, a.map j ≠ none → P j) (j : ℕ)
    (hj : (a.insert i x).map j ≠ none) : P j := by
  by_cases hji : j = i
  · exact hji ▸ hi
  · exact h j (by rwa [(sameExcept_insert i x j hji).1] at hj)

section
variable (alloc : List Bool) (hinv : RootInv a root) (hindex : i < 2 ^ c.indexBits)
include hinv hindex

lemma radixTreeExtend_spec (hbig : high c.mapShift root.height i ≠ 0) :
    RootInv a (radixTreeExtend c root i alloc).2.1 ∧
    (((radixTreeExtend c root i alloc).1 = .ok ∧
        high c.mapShift (radixTreeExtend c root i alloc).2.1.height i = 0) ∨
      (radixTreeExtend c root i alloc).1 = .enomem) := by
  have hshift : root.height * c.mapShift < c.indexBits := by
    rw [Ne, high_eq_zero, not_lt] at hbig
    exact (Nat.pow_lt_pow_iff_right (by norm_num)).1 (lt_of_le_of_lt hbig hindex)
  obtain ⟨hle, hfit, htop⟩ := fittingHeight_spec hindex c.indexBits root.height (by omega) hshift
  unfold radixTreeExtend
  generalize fittingHeight c i c.indexBits (root.height + 1) = height at hle hfit htop ⊢
  by_cases hnull : root.rnode.isNull = true
  · rw [if_pos hnull]
    have habsent := hinv.absent_of_null hnull
    refine ⟨⟨?_, fun j hj => absurd (habsent j) hj, hinv.small, ?_, hinv.rootTags, hinv.present⟩,
      .inl ⟨rfl, hfit⟩⟩
    · rw [isNull_iff.1 hnull, rep_null]
      exact fun j _ => habsent j
    · intro level hlevel
      dsimp only at hlevel
      rw [hlevel] at htop
      simpa using htop
  · rw [if_neg hnull]
    rw [Bool.not_eq_true] at hnull
    have hloop := extendLoop_spec (height - root.height) alloc hinv hnull (by
      intro k hk
      exact lt_of_le_of_lt (Nat.mul_le_mul_right _ (by omega)) htop)
    refine ⟨hloop.1, hloop.2.imp_left fun ⟨hok, hheight⟩ => ⟨hok, ?_⟩⟩
    rw [hheight, Nat.add_sub_cancel' (by omega)]
    exact hfit

lemma insert_in_range (hfit : high c.mapShift root.height i = 0) :
    let result := insertLoop c i x root.height root.rnode alloc
    let error := if decide (root.height = 0) && decide (result.1 = .ok) &&
      (root.tags 0 || root.tags 1) then Errno.bug else result.1
    Inserted a i x (error, { root with rnode := result.2.1 }) := by
  have hspec := insertLoop_spec (x := x) hinv.present hinv.rep hfit alloc
  generalize insertLoop c i x root.height root.rnode alloc = result at hspec
  cases hspec with
  | ok habsent hrep hfull =>
    have hclear : (decide (root.height = 0) && decide (Errno.ok = Errno.ok) &&
        (root.tags 0 || root.tags 1)) = false := by
      by_cases hzero : root.height = 0
      · have htags : ∀ t, root.tags t = false := by
          intro t
          by_contra hset
          rw [Bool.not_eq_false, hinv.rootTags] at hset
          obtain ⟨j, hj⟩ := hset
          have hjp := hinv.present t j hj
          have hjr := hinv.range j hjp
          rw [hzero, high_zero] at hjr hfit
          rw [hjr, ← hfit] at hjp
          exact hjp habsent
        simp [htags]
      · simp [hzero]
    dsimp only
    rw [hclear]
    refine .inl ⟨rfl, habsent, hrep, of_map_insert hfit hinv.range,
      of_map_insert hindex hinv.small, hinv.shift, hinv.rootTags, fun t j hj => ?_⟩
    have hold := hinv.present t j hj
    have hji : j ≠ i := fun heq => hold (heq ▸ habsent)
    rwa [(sameExcept_insert i x j hji).1]
  | enomem habsent hrep _ =>
    refine .inr (.inl ⟨by simp, habsent, ?_⟩)
    exact { hinv with rep := hrep }
  | eexist hthere hrep _ =>
    refine .inr (.inr ⟨by simp, hthere, ?_⟩)
    exact { hinv with rep := hrep }

lemma radixTreeInsert_spec : Inserted a i x (radixTreeInsert c root i x alloc) := by
  unfold radixTreeInsert
  by_cases hbig : i > maxindex c root.height
  · rw [if_pos hbig]
    obtain ⟨hgrown, hcases⟩ := radixTreeExtend_spec alloc hinv hindex ((maxindex_lt hindex).1 hbig)
    rcases hcases with ⟨hok, hfit⟩ | hmem
    · rw [if_neg (by simp [hok])]
      exact insert_in_range _ hgrown hindex hfit
    · rw [if_pos (by simp [hmem])]
      exact .inr (.inl ⟨hmem, hinv.absent hbig, hgrown⟩)
  · rw [if_neg hbig]
    rw [maxindex_lt hindex, not_not] at hbig
    exact insert_in_range _ hinv hindex hbig

end

end Roots

end BooxKernel.RadixTree
