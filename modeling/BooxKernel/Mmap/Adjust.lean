import BooxKernel.Mmap.Search

/-!
# `vma_adjust`

What `vma_adjust` does to the list of areas and to their bounds, in each of the ways that
`split_vma` and `vma_merge` use it.
-/
namespace BooxKernel.Mmap

open Chains ColoredTrees Rbtree Function
open List hiding after

variable {c : Config} {K : Kinds} {V : Type} {mm mm' : Mm c K V} {v w new : V}
  {vs xs ys : List V} {addr : ℕ}

lemma Split.unique {xs' ys' : List V} (h : Split mm addr xs ys) (h' : Split mm addr xs' ys')
    (heq : xs ++ ys = xs' ++ ys') : xs = xs' ∧ ys = ys' := by
  rcases append_eq_append_iff.1 heq with ⟨zs, rfl, rfl⟩ | ⟨zs, rfl, rfl⟩
  · cases zs with
    | nil => simp
    | cons z zs =>
      have hbelow := h'.below z (by simp)
      have habove := h.above z (by simp)
      omega
  · cases zs with
    | nil => simp
    | cons z zs =>
      have hbelow := h.below z (by simp)
      have habove := h'.above z (by simp)
      omega

lemma above_eq_head? {ctx : List (Frame V)} (h : before ctx = []) :
    above ctx = (after ctx).head? := by
  cases ctx with
  | nil => rfl
  | cons f ctx =>
    cases hside : f.side with
    | left => simp [after, hside]
    | right => simp [before, hside] at h

lemma Linked.after_eq (h : Linked mm (xs ++ ys)) : mm.after xs.getLast? = ys.head? := by
  rcases xs.eq_nil_or_concat' with rfl | ⟨xs, x, rfl⟩
  · exact h.mmap_eq
  · rw [append_assoc] at h
    rw [getLast?_concat]
    exact h.vmNext_eq

variable [DecidableEq V]

@[simp] lemma Mm.setNext_apply (p : Option V) :
    (mm.setNext v p).vmNext w = if w = v then p else mm.vmNext w := by
  simp [Mm.setNext, update_apply]

@[simp] lemma Mm.setNext_mmap (p : Option V) : (mm.setNext v p).mmap = mm.mmap := rfl

@[simp] lemma Mm.setNext_mapCount (p : Option V) : (mm.setNext v p).mapCount = mm.mapCount := rfl

lemma chain_vmaLinkList {p : Option V} (h : Chain mm.vmNext mm.mmap (xs ++ ys) none)
    (hnodup : (xs ++ ys).Nodup) (hnew : new ∉ xs ++ ys) (hp : xs = [] → p = ys.head?) :
    Chain (vmaLinkList new xs.getLast? p mm).vmNext (vmaLinkList new xs.getLast? p mm).mmap
      (xs ++ new :: ys) none := by
  obtain ⟨r, hxs, hys⟩ := chain_append.1 h
  obtain rfl : r = ys.head? := by simpa using hys.head_eq
  simp only [mem_append, not_or] at hnew
  have hne : ∀ y ∈ ys, y ≠ new := by rintro y hy rfl; exact hnew.2 hy
  rcases xs.eq_nil_or_concat' with rfl | ⟨xs, x, rfl⟩
  · refine ⟨rfl, ?_⟩
    simp only [getLast?_nil, vmaLinkList, Mm.setNext_apply, if_true, hp rfl]
    exact hys.congr fun y hy => by simp [hne y hy]
  · obtain ⟨hxs, hx⟩ := chain_concat.1 hxs
    simp only [nodup_append, mem_append, mem_singleton, not_or] at hnodup hnew
    have hxnew : x ≠ new := fun heq => hnew.1.2 heq.symm
    rw [getLast?_concat, vmaLinkList, hx]
    refine chain_append.2 ⟨some new, chain_concat.2 ⟨hxs.congr fun y hy => ?_, by simp⟩, rfl, ?_⟩
    · have h1 : y ≠ x := hnodup.1.2.2 y hy x rfl
      have h2 : y ≠ new := by rintro rfl; exact hnew.1.1 hy
      simp [h1, h2]
    · simp only [Mm.setNext_apply, Ne.symm hxnew, if_false, if_true]
      refine hys.congr fun y hy => ?_
      have h1 : y ≠ x := (hnodup.2.2 x (.inr rfl) y hy).symm
      simp [h1, hne y hy]

/-- What links and searches leave alone. -/
structure SameAreas (mm mm' : Mm c K V) : Prop where
  area : mm'.area = mm.area
  totalVm : mm'.totalVm = mm.totalVm
  lockedVm : mm'.lockedVm = mm.lockedVm

lemma vmaLinkList_fields (new : V) (prev p : Option V) (mm : Mm c K V) :
    SameAreas mm (vmaLinkList new prev p mm) ∧ (vmaLinkList new prev p mm).rb = mm.rb ∧
      (vmaLinkList new prev p mm).mapCount = mm.mapCount ∧
      (vmaLinkList new prev p mm).mmapCache = mm.mmapCache := by
  cases prev <;> exact ⟨⟨rfl, rfl, rfl⟩, rfl, rfl, rfl⟩

lemma insertVmStruct_spec (h : WellFormed mm (xs ++ ys)) (hnew : new ∉ xs ++ ys)
    (hbelow : ∀ x ∈ xs, (mm.area x).vmEnd ≤ (mm.area new).vmStart)
    (habove : ∀ y ∈ ys, (mm.area new).vmEnd ≤ (mm.area y).vmStart)
    (hlt : (mm.area new).vmStart < (mm.area new).vmEnd) :
    ∃ mm', insertVmStruct new mm = some mm' ∧ Linked mm' (xs ++ new :: ys) ∧ SameAreas mm mm' := by
  obtain ⟨t, hrb, horder, n, hbalanced⟩ := h.tree
  have hplace : Split mm (mm.area new).vmStart xs ys := by
    refine ⟨hbelow, fun y hy => ?_⟩
    have hy' := (h.ok (v := y) (by simp [hy])).lt
    have hle := habove y hy
    omega
  have hfree : ∀ v ∈ t.inorder, (mm.area new).vmStart < (mm.area v).vmEnd →
      (mm.area new).vmStart < (mm.area v).vmStart := by
    intro v hv hend
    rw [horder] at hv
    rcases mem_append.1 hv with hv | hv
    · have hle := hbelow v hv
      omega
    · have hle := habove v hv
      omega
  obtain ⟨ctx, rfl, hsplit, hprepare⟩ := findVmaPrepareLoop_spec (t := t) [] (horder ▸ h) hrb
    ⟨by simp [before], by simp [after]⟩ hfree
  have horder' : before ctx ++ after ctx = xs ++ ys := by
    rw [← horder, inorder_plug]
    simp [ColorTree.inorder]
  obtain ⟨rfl, rfl⟩ := hsplit.unique hplace horder'
  have hbug : ((after ctx).head?.any fun b =>
      decide ((mm.area b).vmStart < (mm.area new).vmEnd)) = false := by
    cases hhead : (after ctx).head? with
    | none => rfl
    | some b =>
      have hle := habove b (mem_of_head? hhead)
      simpa using hle
  obtain ⟨rb', t', hrun, hrb', horder'', hbalanced'⟩ :=
    insert_at_hole hrb hbalanced (by rw [horder]; exact hnew)
  obtain ⟨hsame, hrbEq, hcountEq, hcacheEq⟩ :=
    vmaLinkList_fields new (before ctx).getLast? (above ctx) mm
  refine ⟨{ vmaLinkList new (before ctx).getLast? (above ctx) mm with
    rb := rb', mapCount := mm.mapCount + 1 }, ?_, ⟨?_, ⟨t', hrb', horder'', hbalanced'⟩, ?_, ?_⟩,
    ⟨hsame.area, hsame.totalVm, hsame.lockedVm⟩⟩
  · have hprepare' : findVmaPrepare mm (mm.area new).vmStart = _ := hprepare
    simp [insertVmStruct, hprepare', hbug, vmaLinkRb, hrbEq, hrun, hcountEq]
  · exact chain_vmaLinkList h.chain h.nodup hnew above_eq_head?
  · simp [h.count]
    omega
  · intro v hv
    have hmem := h.cache v (hcacheEq ▸ hv)
    simp only [mem_append, mem_cons] at hmem ⊢
    tauto

lemma vmaUnlink_spec (h : Linked mm (xs ++ v :: new :: ys)) :
    ∃ mm', vmaUnlink new v mm = some mm' ∧
      Linked { mm' with mapCount := mm'.mapCount - 1 } (xs ++ v :: ys) ∧ SameAreas mm mm' := by
  obtain ⟨t, hrb, horder, n, hbalanced⟩ := h.tree
  have hnodup := h.nodup
  have hnext : mm.vmNext new = ys.head? := by
    rw [← singleton_append, ← append_assoc] at h
    exact h.vmNext_eq
  obtain ⟨rb', t', hrun, hrb', horder', hbalanced'⟩ :=
    rbErase_spec hrb hbalanced (a := new) (by simp [horder])
  obtain ⟨hnew, hrest⟩ : new ∉ xs ++ [v] ∧ (xs ++ [v] ++ ys).Nodup := by
    rw [← singleton_append (l := new :: ys), ← append_assoc, nodup_middle,
      nodup_cons, mem_append, not_or] at hnodup
    exact ⟨hnodup.1.1, hnodup.2⟩
  have herase : (xs ++ v :: new :: ys).erase new = xs ++ v :: ys := by
    rw [← singleton_append, ← append_assoc, erase_append_right _ hnew]
    simp
  refine ⟨{ mm.setNext v (mm.vmNext new) with
    rb := rb'
    mmapCache := if mm.mmapCache = some new then some v else mm.mmapCache },
    by simp [vmaUnlink, Mm.setNext, hrun]; rfl, ⟨?_, ⟨t', hrb', ?_, hbalanced'⟩, ?_, ?_⟩,
    ⟨rfl, rfl, rfl⟩⟩
  · rw [← singleton_append, ← append_assoc]
    have hchain := h.chain
    rw [← singleton_append, ← append_assoc] at hchain
    obtain ⟨r, hfront, -, hback⟩ := chain_append.1 hchain
    rw [hnext] at hback
    refine chain_append.2 ⟨ys.head?, ?_, ?_⟩
    · refine hfront.redirect (nodup_append.1 hrest).1 (by simp) (fun x hx => ?_) fun x hx hxv => ?_
      · obtain rfl : v = x := by simpa using hx
        simp [hnext]
      · have hne : x ≠ v := by rintro rfl; simp at hxv
        simp [hne]
    · refine hback.congr fun y hy => ?_
      have hne : y ≠ v := by
        rintro rfl
        exact (nodup_append.1 hrest).2.2 y (by simp) y hy rfl
      simp [hne]
  · rw [horder', horder, herase]
  · simp [h.count]
  · intro w hw
    by_cases hcache : mm.mmapCache = some new
    · simp [hcache] at hw
      simp [hw]
    · simp only [if_neg hcache] at hw
      have hmem := h.cache w hw
      have hne : w ≠ new := by rintro rfl; exact hcache hw
      simp only [mem_append, mem_cons] at hmem ⊢
      tauto

/-! ## Bounds -/

/-- The regions when `v` has other bounds and another file offset. -/
@[simp] def Mm.bounded (mm : Mm c K V) (v : V) (start stop : ℕ) (pgoff : BitVec c.bits) :
    V → Region c K.File :=
  update mm.region v { mm.region v with vmStart := start, vmEnd := stop, vmPgoff := pgoff }

/-- The start of a region moves by `k` pages, and its file offset with it. -/
def Region.moved (r : Region c K.File) (k : ℤ) : Region c K.File :=
  { r with
    vmStart := (r.vmStart + k * c.pageSize).toNat
    vmPgoff := r.vmPgoff + BitVec.ofInt c.bits k }

lemma Region.moved_zero (r : Region c K.File) : r.moved 0 = r := by
  simp [Region.moved]

/-- `mm'` links the areas `vs` and their regions are as `g` says. -/
structure Adjusted (mm mm' : Mm c K V) (vs : List V) (g : V → Region c K.File) : Prop where
  linked : Linked mm' vs
  region : mm'.region = g
  totalVm : mm'.totalVm = mm.totalVm

variable {next importer : Option V} {start stop : ℕ} {pgoff : BitVec c.bits} {adjust : ℤ} {n x : V}

lemma setBounds_eq : setBounds v next start stop pgoff adjust importer mm =
    { mm with area := (setBounds v next start stop pgoff adjust importer mm).area } := by
  cases next with
  | none => cases importer <;> rfl
  | some n =>
    cases importer <;> simp only [setBounds] <;> split_ifs <;> rfl

lemma Linked.setBounds (h : Linked mm vs) :
    Linked (setBounds v next start stop pgoff adjust importer mm) vs := by
  rw [setBounds_eq]
  exact ⟨h.chain, h.tree, h.count, h.cache⟩

lemma Mm.region_setArea (a : Area c K) :
    (mm.setArea v a).region = update mm.region v a.toRegion := by
  funext w
  by_cases hw : w = v
  · subst hw
    simp [Mm.setArea, Mm.region]
  · simp [Mm.setArea, Mm.region, hw]

lemma setBounds_import (mm : Mm c K V) : ∃ mm1 : Mm c K V, mm1.region = mm.region ∧
    setBounds v next start stop pgoff adjust importer mm =
      setBounds v next start stop pgoff adjust none mm1 := by
  cases importer with
  | none => exact ⟨mm, rfl, rfl⟩
  | some i =>
    refine ⟨mm.setArea i { mm.area i with anonVma := (mm.area i).anonVma.or ((mm.area v).anonVma.or
      (next.bind fun next => (mm.area next).anonVma)) }, ?_, rfl⟩
    exact (Mm.region_setArea _).trans (update_eq_self ..)

lemma region_setBounds :
    (setBounds v next start stop pgoff 0 importer mm).region = mm.bounded v start stop pgoff := by
  obtain ⟨mm1, hregion, heq⟩ := setBounds_import mm
  rw [heq, Mm.bounded, ← hregion]
  cases next <;> exact Mm.region_setArea _

lemma region_setBounds_adjust (importer : Option V) (hne : n ≠ v) :
    (setBounds v (some n) start stop pgoff adjust importer mm).region =
      update (mm.bounded v start stop pgoff) n ((mm.region n).moved adjust) := by
  by_cases hadjust : adjust = 0
  · rw [hadjust, Region.moved_zero, region_setBounds, eq_update_iff]
    simp [hne]
  · obtain ⟨mm1, hregion, heq⟩ := setBounds_import mm
    rw [heq, Mm.bounded, ← hregion]
    simp only [setBounds, if_neg hadjust, Mm.region_setArea]
    simp [Mm.setArea, Mm.region, Region.moved, hne]

lemma totalVm_setBounds :
    (setBounds v next start stop pgoff adjust importer mm).totalVm = mm.totalVm := by
  rw [setBounds_eq]

section
variable (pgoff : BitVec c.bits) (start : ℕ)

omit [DecidableEq V] in
lemma Linked.next_ne (h : Linked mm (xs ++ v :: n :: ys)) : n ≠ v := by
  rintro rfl
  simpa using (nodup_append.1 h.nodup).2.1

/-- The `anon_vma`s of the areas let them be merged. -/
def Mm.Mergeable (mm : Mm c K V) (v n : V) : Prop :=
  isMergeableAnonVma (mm.area v).anonVma (mm.area n).anonVma = true

section
variable {a b d : Option K.AnonVma}

lemma isMergeableAnonVma_comm : isMergeableAnonVma a b = isMergeableAnonVma b a := by
  simp [isMergeableAnonVma, or_left_comm, eq_comm]

/-- The `BUG_ON` of `__anon_vma_merge` does not strike. -/
lemma isMergeableAnonVma_or (h : isMergeableAnonVma a b = true) : ¬(¬b = none ∧ ¬a.or b = b) := by
  rcases of_decide_eq_true h with rfl | rfl | rfl <;> simp

lemma or_isMergeableAnonVma (h : isMergeableAnonVma a d = true) (h' : isMergeableAnonVma b d = true) :
    isMergeableAnonVma (a.or b) d = true := by
  cases a with
  | none => exact h'
  | some x => exact h

end

lemma anonVma_setBounds (w : V) :
    ((setBounds v (some n) start stop pgoff 0 (some v) mm).area w).anonVma =
      if w = v then (mm.area v).anonVma.or (mm.area n).anonVma else (mm.area w).anonVma := by
  by_cases hw : w = v
  · subst hw
    cases hanon : (mm.area w).anonVma <;> simp [setBounds, Mm.setArea, hanon]
  · simp [setBounds, Mm.setArea, hw]

lemma unlink_setBounds (h : Linked mm (xs ++ v :: n :: ys)) (start stop : ℕ)
    (hanon : mm.Mergeable v n) :
    ∃ mm', vmaUnlink n v (setBounds v (some n) start stop pgoff 0 (some v) mm) = some mm' ∧
      ¬(¬(mm'.area n).anonVma = none ∧ ¬(mm'.area v).anonVma = (mm'.area n).anonVma) ∧
      (∀ w, (mm'.area w).anonVma =
        if w = v then (mm.area v).anonVma.or (mm.area n).anonVma else (mm.area w).anonVma) ∧
      Adjusted mm { mm' with mapCount := mm'.mapCount - 1 } (xs ++ v :: ys)
        (mm.bounded v start stop pgoff) := by
  obtain ⟨mm', hrun, hlinked, hsame⟩ := vmaUnlink_spec (h.setBounds (v := v))
  refine ⟨mm', hrun, ?_, fun w => ?_, hlinked, ?_, hsame.totalVm.trans totalVm_setBounds⟩
  · rw [hsame.area, anonVma_setBounds, anonVma_setBounds, if_neg h.next_ne, if_pos rfl]
    exact isMergeableAnonVma_or hanon
  · rw [hsame.area, anonVma_setBounds]
  · rw [← region_setBounds]
    funext w
    rw [Mm.region, Mm.region, ← hsame.area]

lemma vmaRemoveNext_one (h : Linked mm (xs ++ v :: n :: ys)) (hanon : mm.Mergeable v n)
    (hstop : stop ≤ (mm.region n).vmEnd) :
    ∃ mm', vmaRemoveNext v n start stop pgoff mm = some mm' ∧
      Adjusted mm mm' (xs ++ v :: ys) (mm.bounded v start (mm.region n).vmEnd pgoff) := by
  obtain ⟨mm', hrun, hbug, -, hadjusted⟩ := unlink_setBounds pgoff h start (mm.region n).vmEnd hanon
  refine ⟨_, ?_, hadjusted⟩
  rw [Mm.region] at hrun hstop
  rw [vmaRemoveNext_eq, removeNextRound]
  simp [hrun, not_lt.2 hstop, hbug]

lemma vmaRemoveNext_two (h : Linked mm (xs ++ v :: n :: x :: ys))
    (hanon : mm.Mergeable v n) (hanonx : mm.Mergeable v x) (hanonnx : mm.Mergeable n x)
    (hstop : (mm.region n).vmEnd < stop) (hnx : (mm.region n).vmEnd ≤ (mm.region x).vmEnd) :
    ∃ mm', vmaRemoveNext v n start stop pgoff mm = some mm' ∧
      Adjusted mm mm' (xs ++ v :: ys) (mm.bounded v start (mm.region x).vmEnd pgoff) := by
  obtain ⟨mm1, hrun, hbug, hsame, hadjusted⟩ :=
    unlink_setBounds pgoff h start (mm.region n).vmEnd hanon
  have hx : x ≠ v := by
    rintro rfl
    simpa using (nodup_append.1 h.nodup).2.1
  have hregion : ∀ w, ({ mm1 with mapCount := mm1.mapCount - 1 } : Mm c K V).region w = _ :=
    fun w => congrFun hadjusted.region w
  have hnx' : (mm.region n).vmEnd ≤
      (({ mm1 with mapCount := mm1.mapCount - 1 } : Mm c K V).region x).vmEnd := by
    simpa [hregion, hx] using hnx
  have hanon' : mm1.Mergeable v x := by
    rw [Mm.Mergeable, hsame, hsame, if_pos rfl, if_neg hx]
    exact or_isMergeableAnonVma hanonx hanonnx
  obtain ⟨mm2, hrun', hadjusted'⟩ := vmaRemoveNext_one pgoff start hadjusted.linked hanon' hnx'
  refine ⟨mm2, ?_, hadjusted'.linked, ?_, hadjusted'.totalVm.trans hadjusted.totalVm⟩
  · have hnext : mm1.vmNext v = some x := hadjusted.linked.vmNext_eq
    rw [Mm.region] at hrun hstop hrun'
    rw [vmaRemoveNext_eq, removeNextRound]
    simp [hrun, hstop, hbug, hnext, hrun']
  · rw [hadjusted'.region]
    funext w
    by_cases hw : w = v
    · subst hw
      simp [hregion, hx]
    · simp [hregion, hw]

lemma vmaAdjust_remove (h : Linked mm (xs ++ v :: n :: ys)) (hanon : mm.Mergeable v n) :
    ∃ mm', vmaAdjust v start (mm.region n).vmEnd pgoff none mm = some mm' ∧
      Adjusted mm mm' (xs ++ v :: ys) (mm.bounded v start (mm.region n).vmEnd pgoff) := by
  obtain ⟨mm', hrun, hadjusted⟩ := vmaRemoveNext_one pgoff start h hanon le_rfl
  have hnext : mm.vmNext v = some n := h.vmNext_eq
  refine ⟨mm', ?_, hadjusted⟩
  rw [← hrun, vmaAdjust.eq_def, hnext]
  simp [Mm.region]

lemma vmaAdjust_remove_two (h : Linked mm (xs ++ v :: n :: x :: ys))
    (hanon : mm.Mergeable v n) (hanonx : mm.Mergeable v x) (hanonnx : mm.Mergeable n x)
    (hnx : (mm.region n).vmEnd < (mm.region x).vmEnd) :
    ∃ mm', vmaAdjust v start (mm.region x).vmEnd pgoff none mm = some mm' ∧
      Adjusted mm mm' (xs ++ v :: ys) (mm.bounded v start (mm.region x).vmEnd pgoff) := by
  obtain ⟨mm', hrun, hadjusted⟩ := vmaRemoveNext_two pgoff start h hanon hanonx hanonnx hnx hnx.le
  have hnext : mm.vmNext v = some n := h.vmNext_eq
  refine ⟨mm', ?_, hadjusted⟩
  rw [Mm.region, Mm.region] at hnx
  rw [← hrun, vmaAdjust.eq_def, hnext]
  simp [Mm.region, hnx.le]

lemma vmaAdjust_plain (h : Linked mm (xs ++ v :: ys))
    (hstop : ∀ n, ys.head? = some n → stop ≤ (mm.region n).vmStart ∧ stop < (mm.region n).vmEnd)
    (hv : (mm.region v).vmEnd ≤ stop) :
    ∃ mm', vmaAdjust v start stop pgoff none mm = some mm' ∧
      Adjusted mm mm' (xs ++ v :: ys) (mm.bounded v start stop pgoff) := by
  have hnext := h.vmNext_eq
  refine ⟨setBounds v ys.head? start stop pgoff 0 none mm, ?_, h.setBounds,
    region_setBounds, totalVm_setBounds⟩
  simp only [Mm.region] at hstop hv
  rw [vmaAdjust.eq_def, hnext]
  cases hhead : ys.head? with
  | none => rfl
  | some n =>
    obtain ⟨h1, h2⟩ := hstop n hhead
    simp [not_le.2 h2, not_lt.2 h1, not_lt.2 hv]

lemma vmaAdjust_up (h : Linked mm (xs ++ v :: n :: ys))
    (hstart : (mm.region n).vmStart < stop) (hend : stop < (mm.region n).vmEnd) :
    ∃ mm', vmaAdjust v start stop pgoff none mm = some mm' ∧
      Adjusted mm mm' (xs ++ v :: n :: ys) (update (mm.bounded v start stop pgoff) n
        ((mm.region n).moved ((stop - (mm.region n).vmStart) / c.pageSize : ℕ))) := by
  have hnext : mm.vmNext v = some n := h.vmNext_eq
  refine ⟨_, ?_, h.setBounds, region_setBounds_adjust (some v) h.next_ne, totalVm_setBounds⟩
  simp only [Mm.region] at hstart hend
  rw [vmaAdjust.eq_def, hnext]
  simp [not_le.2 hend, hstart, Mm.region]

lemma vmaAdjust_down (h : Linked mm (xs ++ v :: n :: ys))
    (hstart : stop ≤ (mm.region n).vmStart) (hend : stop < (mm.region n).vmEnd)
    (hv : stop < (mm.region v).vmEnd) :
    ∃ mm', vmaAdjust v start stop pgoff none mm = some mm' ∧
      Adjusted mm mm' (xs ++ v :: n :: ys) (update (mm.bounded v start stop pgoff) n
        ((mm.region n).moved (-(((mm.region v).vmEnd - stop) / c.pageSize : ℕ)))) := by
  have hnext : mm.vmNext v = some n := h.vmNext_eq
  refine ⟨_, ?_, h.setBounds, region_setBounds_adjust (some n) h.next_ne, totalVm_setBounds⟩
  simp only [Mm.region] at hstart hend hv
  rw [vmaAdjust.eq_def, hnext]
  simp [not_le.2 hend, not_lt.2 hstart, hv, Mm.region]

end

end BooxKernel.Mmap
