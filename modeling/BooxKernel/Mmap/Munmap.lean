import BooxKernel.Mmap.Splitting

/-!
# `do_munmap`

The areas around both ends of the range are split first, and then all areas inside the range
go. A split does not change what is mapped, so a failure of the second one does no harm.
-/
namespace BooxKernel.Mmap

open Chains ColoredTrees Rbtree List Nat Option

variable {c : Config} {K : Kinds} {V : Type} {mm mm' : Mm c K V} {v w : V}
  {vs vs' xs ms ys zs : List V} {addr start stop : ℕ}

/-! ## The pages of a range -/

/-- The pages that `do_munmap` is to unmap. -/
def InRange (c : Config) (start stop p : ℕ) : Prop := start ≤ p * c.pageSize ∧ p * c.pageSize < stop

instance (p : ℕ) : Decidable (InRange c start stop p) := instDecidableAnd

section Cut

variable {F : Type} {as ms bs : List (Region c F)} {p : ℕ}

/-- `ms` are the regions inside the range, between the others. -/
structure Cut (start stop : ℕ) (as ms bs : List (Region c F)) : Prop where
  below : ∀ a ∈ as, a.vmEnd ≤ start
  inside : ∀ m ∈ ms, start ≤ m.vmStart ∧ m.vmEnd ≤ stop
  above : ∀ b ∈ bs, stop ≤ b.vmStart

namespace Cut

section
variable (h : Cut start stop as ms bs)
include h

lemma below_eq_none (hp : InRange c start stop p) : mapOf as p = none := by
  refine mapOf_eq_none.2 fun a ha hcovers => ?_
  exact absurd (hcovers.2.trans_le (h.below a ha)) (not_lt.2 hp.1)

lemma above_eq_none (hp : InRange c start stop p) : mapOf bs p = none := by
  refine mapOf_eq_none.2 fun b hb hcovers => ?_
  exact absurd hp.2 (not_lt.2 ((h.above b hb).trans hcovers.1))

lemma inside_eq_none (hp : ¬InRange c start stop p) : mapOf ms p = none := by
  refine mapOf_eq_none.2 fun m hm hcovers => hp ?_
  exact ⟨(h.inside m hm).1.trans hcovers.1, hcovers.2.trans_le (h.inside m hm).2⟩

lemma mapOf_eq (p : ℕ) :
    mapOf (as ++ bs) p =
      if InRange c start stop p then none else mapOf (as ++ ms ++ bs) p := by
  by_cases hp : InRange c start stop p
  · simp [hp, h.below_eq_none hp, h.above_eq_none hp]
  · simp [hp, h.inside_eq_none hp]

lemma mapped_eq :
    {p | InRange c start stop p ∧ mapOf (as ++ ms ++ bs) p ≠ none} = {p | mapOf ms p ≠ none} := by
  ext p
  by_cases hp : InRange c start stop p
  · simp [hp, h.below_eq_none hp, h.above_eq_none hp]
  · simp [hp, h.inside_eq_none hp]

end

end Cut

end Cut

/-- What `do_munmap` leaves when it fails. -/
structure Kept (mm : Mm c K V) (vs : List V) (mm' : Mm c K V) (vs' : List V) : Prop where
  wellFormed : WellFormed mm' vs'
  mapping : ∀ p, mapOf (mm'.regions vs') p = mapOf (mm.regions vs) p
  totalVm : mm'.totalVm = mm.totalVm

/-- What `do_munmap` leaves when it succeeds. -/
structure Unmapped (mm : Mm c K V) (vs : List V) (start stop : ℕ) (mm' : Mm c K V)
    (vs' : List V) : Prop where
  wellFormed : WellFormed mm' vs'
  mapping : ∀ p, mapOf (mm'.regions vs') p =
    if InRange c start stop p then none else mapOf (mm.regions vs) p
  totalVm : mm'.totalVm = mm.totalVm - BitVec.ofNat c.bits
    {p | InRange c start stop p ∧ mapOf (mm.regions vs) p ≠ none}.ncard

/-- What `do_munmap` leaves. -/
def Outcome (mm : Mm c K V) (vs : List V) (start stop : ℕ) (e : Option Errno) (mm' : Mm c K V)
    (vs' : List V) : Prop :=
  match e with
  | none => Unmapped mm vs start stop mm' vs'
  | some _ => Kept mm vs mm' vs'

lemma Kept.outcome {mm1 : Mm c K V} {vs1 : List V} {e : Option Errno} (h : Kept mm vs mm1 vs1)
    (hout : Outcome mm1 vs1 start stop e mm' vs') : Outcome mm vs start stop e mm' vs' := by
  cases e with
  | none =>
    refine ⟨hout.wellFormed, fun p => ?_, ?_⟩
    · rw [hout.mapping, h.mapping]
    · simp only [hout.totalVm, h.totalVm, h.mapping]
  | some e =>
    exact ⟨hout.wellFormed, fun p => (hout.mapping p).trans (h.mapping p),
      hout.totalVm.trans h.totalVm⟩

lemma Halved.kept {halves : List V} (h : WellFormed mm (xs ++ v :: ys))
    (hhalved : Halved mm mm' xs v ys addr halves) (hin : (mm.region v).Inside addr) :
    Kept mm (xs ++ v :: ys) mm' (xs ++ halves ++ ys) := by
  refine ⟨hhalved.wellFormed, fun p => ?_, hhalved.totalVm⟩
  have hok : (mm.region v).Ok := h.ok (by simp)
  have hxs : mm'.regions xs = mm.regions xs :=
    Mm.regions_congr mm mm' xs fun w hw => hhalved.others w (by simp [hw])
  have hys : mm'.regions ys = mm.regions ys :=
    Mm.regions_congr mm mm' ys fun w hw => hhalved.others w (by simp [hw])
  simp [hxs, hys, hhalved.halves, Region.mapPage_split hok hin, Option.or_assoc]

lemma outcome_refl (h : WellFormed mm (xs ++ ys)) (hsplit : Split mm start xs ys)
    (hstop : ∀ v, ys.head? = some v → stop ≤ (mm.area v).vmStart) :
    Outcome mm (xs ++ ys) start stop none mm (xs ++ ys) := by
  have habove : ∀ y ∈ ys, stop ≤ (mm.area y).vmStart := by
    cases ys with
    | nil => simp
    | cons v ys => exact h.start_le (hstop v rfl)
  have hcut : Cut start stop (mm.regions xs) [] (mm.regions ys) :=
    ⟨forall_mem_map.2 hsplit.below, by simp, forall_mem_map.2 habove⟩
  have hmapped := hcut.mapped_eq
  refine ⟨h, fun p => by simpa using hcut.mapOf_eq p, ?_⟩
  rw [append_nil, ← Mm.regions_append] at hmapped
  rw [hmapped]
  simp

/-! ## Removing a run of areas -/

lemma sub_ofNat_add {n : ℕ} (x : BitVec n) (k l : ℕ) :
    x - BitVec.ofNat n (k + l) = x - BitVec.ofNat n k - BitVec.ofNat n l := by
  simp only [BitVec.ofNat_add, BitVec.sub_eq_add_neg, BitVec.neg_add, BitVec.add_assoc]

lemma removeVmaList_spec (mm : Mm c K V) (hchain : Chain mm.vmNext (some v) (v :: ys) none) :
    ∃ locked, removeVmaList v mm = some { mm with
      totalVm := mm.totalVm - BitVec.ofNat c.bits ((mm.regions (v :: ys)).map Region.vmaPages).sum
      lockedVm := locked } := by
  induction ys generalizing v mm with
  | nil =>
    have hnext : mm.vmNext v = none := by simpa using hchain
    rw [removeVmaList_eq, removeVmaRound, hnext]
    exact ⟨_, by simp [Mm.unaccount, Mm.region]; rfl⟩
  | cons w ys ih =>
    have hnext : mm.vmNext v = some w := hchain.2.1
    obtain ⟨locked, hrun⟩ := ih (mm.unaccount v) ⟨rfl, hchain.2.2⟩
    refine ⟨locked, ?_⟩
    rw [removeVmaList_eq, removeVmaRound, hnext]
    refine hrun.trans ?_
    have hsum : ((mm.regions (v :: w :: ys)).map Region.vmaPages).sum =
        (mm.region v).vmaPages + ((mm.regions (w :: ys)).map Region.vmaPages).sum := by simp
    rw [hsum, sub_ofNat_add]
    rfl

variable [DecidableEq V] {oracle first second : SplitOracle K V}

lemma InOrder.erase {rb : Rbtree.Mem V} (h : InOrder rb (xs ++ v :: ys)) :
    ∃ rb', rbErase v rb = some rb' ∧ InOrder rb' (xs ++ ys) := by
  obtain ⟨t, hrb, horder, k, hbalanced⟩ := h
  obtain ⟨rb', t', hrun, hrb', horder', hbalanced'⟩ :=
    rbErase_spec hrb hbalanced (a := v) (by simp [horder])
  refine ⟨rb', hrun, t', hrb', ?_, hbalanced'⟩
  have hnodup := hrb.nodup
  rw [horder] at hnodup
  have hv : v ∉ xs := fun hmem =>
    (nodup_cons.1 (nodup_middle.1 hnodup)).1 (mem_append_left _ hmem)
  rw [horder', horder, erase_append_right _ hv, erase_cons_head]

lemma detachLoop_spec (mm : Mm c K V) (htree : InOrder mm.rb (xs ++ v :: ys ++ zs))
    (hchain : Chain mm.vmNext (some v) (v :: ys) zs.head?)
    (hys : ∀ w ∈ ys, (mm.area w).vmStart < stop)
    (hzs : ∀ z, zs.head? = some z → stop ≤ (mm.area z).vmStart) :
    ∃ rb', InOrder rb' (xs ++ zs) ∧
      detachLoop v stop mm = some ((v :: ys).getLast (by simp), zs.head?,
        { mm with rb := rb', mapCount := mm.mapCount - (ys.length + 1) }) := by
  induction ys generalizing v mm with
  | nil =>
    have htree1 : InOrder mm.rb (xs ++ v :: zs) := by simpa using htree
    obtain ⟨rb', hrun, htree'⟩ := htree1.erase
    refine ⟨rb', htree', ?_⟩
    have hnext : mm.vmNext v = zs.head? := by simpa using hchain
    rw [detachLoop_eq, detachRound]
    cases hhead : zs.head? with
    | none => simp [hrun, hnext, hhead]
    | some z => simp [hrun, hnext, hhead, not_lt.2 (hzs z hhead)]
  | cons w ys ih =>
    have htree1 : InOrder mm.rb (xs ++ v :: (w :: ys ++ zs)) := by simpa using htree
    obtain ⟨rb', hrun, htree'⟩ := htree1.erase
    have hnext : mm.vmNext v = some w := hchain.2.1
    obtain ⟨rb'', htree'', hrun'⟩ := ih { mm with rb := rb', mapCount := mm.mapCount - 1 }
      (by simpa using htree') ⟨rfl, hchain.2.2⟩ (fun x hx => hys x (by simp [hx])) hzs
    refine ⟨rb'', htree'', ?_⟩
    rw [detachLoop_eq, detachRound]
    simp [hrun, hnext, hys w, hrun', Nat.sub_sub, add_comm]

@[simp] lemma Mm.setAfter_vmNext (prev p : Option V) :
    (mm.setAfter prev p).vmNext w = if prev = some w then p else mm.vmNext w := by
  cases prev <;> simp [Mm.setAfter, eq_comm]

@[simp] lemma Mm.setAfter_mmap (mm : Mm c K V) (prev p : Option V) :
    (mm.setAfter prev p).mmap = if prev = none then p else mm.mmap := by
  cases prev <;> simp [Mm.setAfter]

lemma Mm.setAfter_fields (mm : Mm c K V) (prev p : Option V) :
    (mm.setAfter prev p).area = mm.area ∧ (mm.setAfter prev p).rb = mm.rb ∧
      (mm.setAfter prev p).mapCount = mm.mapCount ∧ (mm.setAfter prev p).totalVm = mm.totalVm := by
  cases prev <;> exact ⟨rfl, rfl, rfl, rfl⟩

section
variable (hys : ∀ w ∈ ys, (mm.area w).vmStart < stop)
  (hzs : ∀ z, zs.head? = some z → stop ≤ (mm.area z).vmStart)
include hys hzs

/-- The areas `v :: ys` are detached from the tree and from the list, and stay linked. -/
lemma detachVmasToBeUnmapped_spec (h : WellFormed mm (xs ++ v :: ys ++ zs)) :
    ∃ mm', detachVmasToBeUnmapped v xs.getLast? stop mm = some mm' ∧ WellFormed mm' (xs ++ zs) ∧
      Chain mm'.vmNext (some v) (v :: ys) none ∧ mm'.region = mm.region ∧
      mm'.totalVm = mm.totalVm := by
  have hnodup := h.nodup
  simp only [nodup_append, mem_append] at hnodup
  obtain ⟨⟨hxsNodup, hysNodup, hxy⟩, hzsNodup, hxyz⟩ := hnodup
  obtain ⟨r2, hfront, hzsChain⟩ := chain_append.1 h.chain
  obtain ⟨r1, hxsChain, hysChain⟩ := chain_append.1 hfront
  obtain rfl : r2 = zs.head? := by simpa using hzsChain.head_eq
  obtain rfl : r1 = some v := hysChain.1
  obtain ⟨rb', htree, hloop⟩ := detachLoop_spec mm h.tree hysChain hys hzs
  let tail := (v :: ys).getLast (by simp)
  let mm1 : Mm c K V := { mm with rb := rb', mapCount := mm.mapCount - (ys.length + 1) }
  let mm2 : Mm c K V := { (mm1.setAfter xs.getLast? zs.head?).setNext tail none with
    mmapCache := none }
  obtain ⟨harea, hrb, hcount, htotal⟩ := Mm.setAfter_fields mm1 xs.getLast? zs.head?
  have hnext : ∀ w, mm2.vmNext w = if w = tail then none
      else if xs.getLast? = some w then zs.head? else mm.vmNext w := by
    simp [mm2, mm1]
  have hregion : mm2.region = mm.region := by
    funext w
    exact congrArg (fun f => (f w).toRegion) harea
  have htail : tail ∈ v :: ys := getLast_mem _
  have hxs : ∀ x ∈ xs, x ≠ tail := fun x hx => hxy x hx tail htail
  refine ⟨mm2, ?_, ⟨⟨?_, hrb ▸ htree, ?_, by simp [mm2]⟩, ?_⟩, ?_, hregion, htotal⟩
  · simp [detachVmasToBeUnmapped, hloop, mm2, mm1, tail]
  · refine chain_append.2 ⟨zs.head?, hxsChain.redirect hxsNodup (Mm.setAfter_mmap mm1 _ _)
      (fun x hx => ?_) (fun x hx hlast => ?_), hzsChain.congr fun z hz => ?_⟩
    · simp [hnext, hxs x (mem_of_getLast? hx), hx]
    · simp [hnext, hxs x hx, hlast]
    · have hztail : z ≠ tail := (hxyz tail (.inr htail) z hz).symm
      have hzlast : xs.getLast? ≠ some z := fun hmem =>
        hxyz z (.inl (mem_of_getLast? hmem)) z hz rfl
      simp [hnext, hztail, hzlast]
  · have hlen := h.count
    simp only [length_append, length_cons] at hlen ⊢
    rw [show mm2.mapCount = mm.mapCount - (ys.length + 1) from hcount]
    omega
  · have hsorted := h.sorted
    simp only [Mm.regions_append, sorted_append, mem_append] at hsorted
    rw [Mm.regions_congr mm mm2 _ fun w _ => congrFun hregion w, Mm.regions_append, sorted_append]
    exact ⟨hsorted.1.1, hsorted.2.1, fun a ha b hb => hsorted.2.2 a (.inl ha) b hb⟩
  · refine hysChain.redirect hysNodup (by simp) (fun x hx => ?_) (fun x hx hlast => ?_)
    · obtain rfl : tail = x := by simpa [tail, getLast?_eq_some_getLast] using hx
      simp [hnext]
    · have hxtail : x ≠ tail := by
        rintro rfl
        exact hlast (getLast?_eq_some_getLast _)
      have hxlast : xs.getLast? ≠ some x := fun hmem =>
        hxy x (mem_of_getLast? hmem) x hx rfl
      simp [hnext, hxtail, hxlast]

lemma unmapRun_spec (h : WellFormed mm (xs ++ ys ++ zs)) (hne : ys ≠ []) :
    ∃ mm', unmapRun xs.getLast? stop mm = some (none, mm') ∧ WellFormed mm' (xs ++ zs) ∧
      mm'.region = mm.region ∧
      mm'.totalVm = mm.totalVm - BitVec.ofNat c.bits ((mm.regions ys).map Region.vmaPages).sum := by
  obtain ⟨v, ys, rfl⟩ := exists_cons_of_ne_nil hne
  have hafter : mm.after xs.getLast? = some v := by
    have h' := h.toLinked
    rw [append_assoc] at h'
    exact h'.after_eq
  obtain ⟨mm1, hdetach, hwf, hchain, hregion, htotal⟩ :=
    detachVmasToBeUnmapped_spec (fun w hw => hys w (by simp [hw])) hzs h
  obtain ⟨locked, hremove⟩ := removeVmaList_spec mm1 hchain
  refine ⟨{ mm1 with
    totalVm := mm1.totalVm - BitVec.ofNat c.bits ((mm1.regions (v :: ys)).map Region.vmaPages).sum
    lockedVm := locked }, ?_, ⟨⟨hwf.chain, hwf.tree, hwf.count, hwf.cache⟩, hwf.sorted⟩, hregion, ?_⟩
  · simp only [unmapRun, hafter, hdetach, hremove, bind_eq_bind, bind_some]
    rfl
  · simp only [Mm.regions, hregion, htotal]

end

lemma unmapRun_outcome (h : WellFormed mm (xs ++ ys ++ zs)) (hne : ys ≠ [])
    (hcut : Cut start stop (mm.regions xs) (mm.regions ys) (mm.regions zs)) :
    ∃ mm', unmapRun xs.getLast? stop mm = some (none, mm') ∧
      Outcome mm (xs ++ ys ++ zs) start stop none mm' (xs ++ zs) := by
  have hys : ∀ w ∈ ys, (mm.area w).vmStart < stop := by
    intro w hw
    have hlt := (h.ok (v := w) (by simp [hw])).lt
    exact hlt.trans_le (hcut.inside _ (mem_map.2 ⟨w, hw, rfl⟩)).2
  have hzs : ∀ z, zs.head? = some z → stop ≤ (mm.area z).vmStart := fun z hz =>
    hcut.above _ (mem_map.2 ⟨z, mem_of_head? hz, rfl⟩)
  obtain ⟨mm', hrun, hwf, hregion, htotal⟩ := unmapRun_spec hys hzs h hne
  have hsorted : Sorted (mm.regions ys) := by
    have hsorted := h.sorted
    simp only [Mm.regions_append, sorted_append] at hsorted
    exact hsorted.1.2.1
  refine ⟨mm', hrun, hwf, fun p => ?_, ?_⟩
  · rw [Mm.regions_congr mm mm' _ fun w _ => congrFun hregion w]
    simpa using hcut.mapOf_eq p
  · rw [htotal, ← hsorted.ncard_mapped.2, ← hcut.mapped_eq]
    simp

/-! ## The whole function -/

lemma unmapLast_spec (h : WellFormed mm (xs ++ ms ++ ys))
    (hxs : ∀ x ∈ xs, (mm.area x).vmEnd ≤ start)
    (hms : ∀ m ∈ ms, start ≤ (mm.area m).vmStart ∧ (mm.area m).vmEnd ≤ stop)
    (hys : ∀ y ∈ ys, start ≤ (mm.area y).vmStart ∧ stop < (mm.area y).vmEnd)
    (hhead : ∃ v, (ms ++ ys).head? = some v ∧ (mm.area v).vmStart < stop) (hdvd : c.pageSize ∣ stop)
    (hfresh : ∀ new, oracle.vma = some new → new ∉ xs ++ ms ++ ys) :
    ∃ e mm' vs', unmapLast xs.getLast? ys.head? stop oracle mm = some (e, mm') ∧
      Outcome mm (xs ++ ms ++ ys) start stop e mm' vs' := by
  obtain ⟨v, hv, hstop⟩ := hhead
  have hcut : (∀ y ∈ ys, stop ≤ (mm.area y).vmStart) →
      Cut start stop (mm.regions xs) (mm.regions ms) (mm.regions ys) := fun hys' =>
    ⟨forall_mem_map.2 hxs, forall_mem_map.2 hms, forall_mem_map.2 hys'⟩
  cases ys with
  | nil =>
    have hne : ms ≠ [] := by
      rintro rfl
      cases hv
    obtain ⟨mm', hrun, hout⟩ := unmapRun_outcome h hne (hcut (by simp))
    exact ⟨none, mm', _, by simp [unmapLast, hrun], hout⟩
  | cons b ys =>
    obtain ⟨hbstart, hbend⟩ := hys b (by simp)
    by_cases hb : (mm.area b).vmStart < stop
    · have hin : (mm.region b).Inside stop := ⟨hb, hbend, hdvd⟩
      rcases splitVma_spec h hin true hfresh with ⟨e, hrun⟩ | ⟨mm1, new, -, hrun, hhalved⟩
      · exact ⟨some e, mm, _, by simp [unmapLast, hb, hrun], h, fun _ => rfl, rfl⟩
      · have hkept := hhalved.kept h hin
        obtain ⟨hnew, hb'⟩ : mm1.region new = (mm.region b).lower stop ∧
            mm1.region b = (mm.region b).upper stop := by simpa using hhalved.halves
        have hlist : xs ++ ms ++ [new, b] ++ ys = xs ++ (ms ++ [new]) ++ b :: ys := by simp
        simp only [if_true, hlist] at hkept
        have hcut1 : Cut start stop (mm1.regions xs) (mm1.regions (ms ++ [new]))
            (mm1.regions (b :: ys)) := by
          refine ⟨forall_mem_map.2 fun x hx => ?_, forall_mem_map.2 fun m hm => ?_,
            forall_mem_map.2 fun y hy => ?_⟩
          · rw [hhalved.others x (by simp [hx])]
            exact hxs x hx
          · rcases mem_append.1 hm with hm | hm
            · rw [hhalved.others m (by simp [hm])]
              exact hms m hm
            · obtain rfl : m = new := by simpa using hm
              rw [hnew]
              exact ⟨hbstart, le_rfl⟩
          · rcases mem_cons.1 hy with rfl | hy
            · rw [hb']
              exact le_rfl
            · rw [hhalved.others y (by simp [hy])]
              exact hbend.le.trans (h.apart_of_cons y hy)
        obtain ⟨mm', hrun', hout⟩ := unmapRun_outcome hkept.wellFormed (by simp) hcut1
        exact ⟨none, mm', _, by simp [unmapLast, hb, hrun, hrun'], hkept.outcome hout⟩
    · have hne : ms ≠ [] := by
        rintro rfl
        obtain rfl : b = v := by simpa using hv
        exact hb hstop
      obtain ⟨mm', hrun, hout⟩ := unmapRun_outcome h hne (hcut (h.start_le (not_lt.1 hb)))
      exact ⟨none, mm', _, by simp [unmapLast, hb, hrun], hout⟩

lemma unmapUpTo_spec (h : WellFormed mm (xs ++ v :: ys))
    (hxs : ∀ x ∈ xs, (mm.area x).vmEnd ≤ start) (hv : start ≤ (mm.area v).vmStart)
    (hstop : (mm.area v).vmStart < stop) (hdvd : c.pageSize ∣ stop) (oracle : SplitOracle K V)
    (hfresh : ∀ new, oracle.vma = some new → new ∉ xs ++ v :: ys) :
    ∃ e mm' vs', unmapUpTo xs.getLast? stop oracle mm = some (e, mm') ∧
      Outcome mm (xs ++ v :: ys) start stop e mm' vs' := by
  obtain ⟨as, bs, cache, hvs, hsplit, hcache, hfind⟩ := findVma_spec h stop
  have hge := h.start_le hv
  obtain ⟨ms, rfl, hms⟩ : ∃ ms, as = xs ++ ms ∧ v :: ys = ms ++ bs := by
    rcases append_eq_append_iff.1 hvs with hfront | ⟨zs, hzs, hbs⟩
    · exact hfront
    · rcases zs with _ | ⟨z, zs⟩
      · exact ⟨[], by simpa using hzs.symm, by simpa using hbs.symm⟩
      · have hbelow := h.below_of_append le_rfl z (by simp [hzs])
        have habove := hsplit.above z (by simp [hbs])
        omega
  have hhead : (ms ++ bs).head? = some v := by rw [← hms]; rfl
  rw [hms] at hge
  rw [hvs] at hfresh h hcache ⊢
  have hwf : WellFormed ({ mm with mmapCache := cache }) (xs ++ ms ++ bs) :=
    ⟨⟨h.chain, h.tree, h.count, hcache⟩, h.sorted⟩
  obtain ⟨e, mm', vs', hrun, hout⟩ := unmapLast_spec hwf hxs
    (fun m hm => ⟨hge m (by simp [hm]), hsplit.below m (by simp [hm])⟩)
    (fun b hb => ⟨hge b (by simp [hb]), hsplit.above b hb⟩) ⟨v, hhead, hstop⟩ hdvd hfresh
  have hkept : Kept mm (xs ++ ms ++ bs) _ (xs ++ ms ++ bs) := ⟨hwf, fun _ => rfl, rfl⟩
  exact ⟨e, mm', vs', by simp [unmapUpTo, hfind, hrun], hkept.outcome hout⟩

lemma unmapFrom_spec (h : WellFormed mm (xs ++ v :: ys)) (hsplit : Split mm start xs (v :: ys))
    (hstart : c.pageSize ∣ start) (hlt : start < stop) (hstop : (mm.area v).vmStart < stop)
    (hdvd : c.pageSize ∣ stop) (hfirst : ∀ new, first.vma = some new → new ∉ xs ++ v :: ys)
    (hsecond : ∀ new, second.vma = some new → new ∉ xs ++ v :: ys ∧ first.vma ≠ some new) :
    ∃ e mm' vs', unmapFrom v xs.getLast? start stop first second mm = some (e, mm') ∧
      Outcome mm (xs ++ v :: ys) start stop e mm' vs' := by
  by_cases hinside : (mm.area v).vmStart < start
  · have hend := hsplit.above v (by simp)
    have hin : (mm.region v).Inside start := ⟨hinside, hend, hstart⟩
    rcases splitVma_spec h hin false hfirst with ⟨e, hrun⟩ | ⟨mm1, new, hnew, hrun, hhalved⟩
    · exact ⟨some e, mm, _, by simp [unmapFrom, hinside, hrun], h, fun _ => rfl, rfl⟩
    · have hkept := hhalved.kept h hin
      obtain ⟨hv', hnew'⟩ : mm1.region v = (mm.region v).lower start ∧
          mm1.region new = (mm.region v).upper start := by simpa using hhalved.halves
      have hlist : xs ++ [v, new] ++ ys = (xs ++ [v]) ++ new :: ys := by simp
      simp only [Bool.false_eq_true, if_false, hlist] at hkept
      have hstart' : (mm1.area new).vmStart = start := congrArg Region.vmStart hnew'
      have hbelow : ∀ x ∈ xs ++ [v], (mm1.area x).vmEnd ≤ start := by
        refine forall_mem_append.2 ⟨fun x hx => ?_,
          forall_mem_singleton.2 (le_of_eq (congrArg Region.vmEnd hv'))⟩
        have hsame := congrArg Region.vmEnd (hhalved.others x (by simp [hx]))
        exact (le_of_eq hsame).trans (hsplit.below x hx)
      obtain ⟨e, mm', vs', hrun', hout⟩ := unmapUpTo_spec hkept.wellFormed hbelow hstart'.ge
        (hstart'.trans_lt hlt) hdvd second (fun w hw hmem => by
          simp_all)
      refine ⟨e, mm', vs', ?_, hkept.outcome hout⟩
      simpa [unmapFrom, hinside, hrun] using hrun'
  · obtain ⟨e, mm', vs', hrun, hout⟩ := unmapUpTo_spec h hsplit.below (not_lt.1 hinside) hstop
      hdvd second (fun new hnew => (hsecond new hnew).1)
    exact ⟨e, mm', vs', by simp [unmapFrom, hinside, hrun], hout⟩

lemma pageAlign_spec {len : ℕ} (hlen : len ≤ c.taskSize) :
    c.pageSize ∣ pageAlign c len ∧ pageAlign c len < len + c.pageSize := by
  have hpos : 0 < c.pageSize := Nat.two_pow_pos _
  have hle : c.taskSize + c.pageSize ≤ 2 ^ c.bits := c.taskSize_le
  have hmod : (len + c.pageSize - 1) % 2 ^ c.bits = len + c.pageSize - 1 := by
    refine mod_eq_of_lt ?_
    omega
  refine ⟨dvd_mul_left _ _, ?_⟩
  have hmul := div_mul_le_self (len + c.pageSize - 1) c.pageSize
  rw [pageAlign, hmod]
  omega

/-- `do_munmap` unmaps the pages of its range and no others, and when it fails it has not
changed what is mapped. The new areas of the splits are not in use. -/
theorem munmap_removes_range (h : WellFormed mm vs) (start len : ℕ) (first second : SplitOracle K V)
    (hfirst : ∀ new, first.vma = some new → new ∉ vs)
    (hsecond : ∀ new, second.vma = some new → new ∉ vs ∧ first.vma ≠ some new) :
    ∃ e mm' vs', doMunmap start len first second mm = some (e, mm') ∧
      (e = none → Unmapped mm vs start (start + pageAlign c len) mm' vs') ∧
      (e ≠ none → Kept mm vs mm' vs') := by
  suffices hout : ∃ e mm' vs', doMunmap start len first second mm = some (e, mm') ∧
      Outcome mm vs start (start + pageAlign c len) e mm' vs' by
    obtain ⟨e, mm', vs', hrun, hout⟩ := hout
    refine ⟨e, mm', vs', hrun, ?_, fun hne => ?_⟩
    · rintro rfl
      exact hout
    · obtain ⟨e, rfl⟩ := ne_none_iff_exists'.1 hne
      exact hout
  have hkept : ∀ e, Outcome mm vs start (start + pageAlign c len) (some e) mm vs := fun _ =>
    ⟨h, fun _ => rfl, rfl⟩
  rw [doMunmap]
  by_cases hrange : start % c.pageSize ≠ 0 ∨ c.taskSize < start ∨ c.taskSize - start < len
  · exact ⟨_, mm, vs, if_pos hrange, hkept .einval⟩
  rw [if_neg hrange]
  simp only [not_or, not_not, not_lt] at hrange
  obtain ⟨haligned, hstart, hlen⟩ := hrange
  by_cases hzero : pageAlign c len = 0
  · exact ⟨_, mm, vs, if_pos hzero, hkept .einval⟩
  rw [if_neg hzero]
  obtain ⟨hdvd, hlt⟩ := pageAlign_spec (hlen.trans (sub_le _ _))
  have hstop : (start + pageAlign c len) % 2 ^ c.bits = start + pageAlign c len := by
    refine mod_eq_of_lt ?_
    have hle : c.taskSize + c.pageSize ≤ 2 ^ c.bits := c.taskSize_le
    omega
  obtain ⟨xs, ys, rfl, hsplit, hfind⟩ := findVmaPrev_spec h start
  rw [hfind, hstop]
  cases ys with
  | nil => exact ⟨none, mm, _, rfl, outcome_refl h hsplit (by simp)⟩
  | cons v ys =>
    by_cases hbehind : start + pageAlign c len ≤ (mm.area v).vmStart
    · exact ⟨none, mm, _, if_pos hbehind, outcome_refl h hsplit (by simpa using hbehind)⟩
    · obtain ⟨e, mm', vs', hrun, hout⟩ := unmapFrom_spec h hsplit (dvd_of_mod_eq_zero haligned)
        (by omega) (not_le.1 hbehind)
        ((dvd_of_mod_eq_zero haligned).add hdvd) hfirst hsecond
      exact ⟨e, mm', vs', (if_neg hbehind).trans hrun, hout⟩

/-- The page in the middle goes, with a split at both of its ends. -/
theorem munmap_removes_range_middle :
    ∃ e mm' vs', doMunmap 0x2000 0x1000 ⟨some 1, .ok ()⟩ ⟨some 2, .ok ()⟩ threePages =
        some (e, mm') ∧
      (e = none → Unmapped threePages [0] 0x2000 (0x2000 + pageAlign config32 0x1000) mm' vs') ∧
      (e ≠ none → Kept threePages [0] mm' vs') :=
  munmap_removes_range threePages_wellFormed _ _ _ _ (by simp) (by simp)

end BooxKernel.Mmap
