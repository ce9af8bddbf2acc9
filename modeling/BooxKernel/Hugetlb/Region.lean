import Mathlib.Data.Int.Interval
import Mathlib.Data.List.TakeWhile
import Mathlib.Data.Set.Card
import Mathlib.Order.CompletePartialOrder
import Mathlib.Tactic

/-!
# File regions of the huge page reservation map

A hugetlbfs inode records its reserved pages as a sorted list of half-open
regions. Walking the circular list up to its head is recursion on a Lean list;
a walk that ends at the head itself leaves `rg` pointing at no region, and
reading it is the failure value `none`. Page numbers are nonnegative C longs,
so none of the differences below overflows and they are plain integers.
-/
namespace BooxKernel.Hugetlb
open Set
open List hiding Disjoint

/-- `struct file_region`: the pages from `fromPage` up to but excluding `toPage`. -/
structure FileRegion where
  fromPage : ℤ
  toPage : ℤ
  deriving Repr, DecidableEq

def eNOMEM : ℤ := 12

/-- The first loop of every region operation: the regions wholly below `f`, and
the list from the region that `f` is in or before. -/
def locate (f : ℤ) (head : List FileRegion) : List FileRegion × List FileRegion :=
  (head.takeWhile fun rg => decide (rg.toPage < f), head.dropWhile fun rg => decide (rg.toPage < f))

/-- The consuming loop of `region_add` after its first region. -/
def consume (t : ℤ) : List FileRegion → ℤ × List FileRegion
  | [] => (t, [])
  | rg :: rest =>
    if rg.fromPage > t then (t, rg :: rest)
    else consume (if rg.toPage > t then rg.toPage else t) rest

/-- `region_add`. The region found first is the one that is rewritten, even
when the loop stops at it at once. -/
def regionAdd (head : List FileRegion) (f t : ℤ) : Option (List FileRegion) :=
  match locate f head with
  | (_, []) => none
  | (before, rg :: rest) =>
    let f' := if f > rg.fromPage then rg.fromPage else f
    if rg.fromPage > t then some (before ++ ⟨f', t⟩ :: rest)
    else
      let eaten := consume (if rg.toPage > t then rg.toPage else t) rest
      some (before ++ ⟨f', eaten.1⟩ :: eaten.2)

/-- The accounting loop of `region_chg`. -/
def chgLoop (chg t : ℤ) : List FileRegion → ℤ
  | [] => chg
  | rg :: rest =>
    if rg.fromPage > t then chg
    else if rg.toPage > t then chgLoop (chg + (rg.toPage - t) - (rg.toPage - rg.fromPage)) rg.toPage rest
    else chgLoop (chg - (rg.toPage - rg.fromPage)) t rest

/-- `region_chg`: the number of missing pages, and the list with the zero-size
placeholder that a later `region_add` grows. -/
def regionChg (head : List FileRegion) (f t : ℤ) (kmalloc : Bool) : ℤ × List FileRegion :=
  let place := fun before rest =>
    if kmalloc then (t - f, before ++ ⟨f, f⟩ :: rest) else (-eNOMEM, head)
  match locate f head with
  | (before, []) => place before []
  | (before, rg :: rest) =>
    if t < rg.fromPage then place before (rg :: rest)
    else
      let f' := if f > rg.fromPage then rg.fromPage else f
      (chgLoop (t - f') t (rg :: rest), head)

/-- The dropping loop of `region_truncate`. -/
def dropLoop (chg : ℤ) : List FileRegion → ℤ
  | [] => chg
  | rg :: rest => dropLoop (chg + (rg.toPage - rg.fromPage)) rest

/-- `region_truncate`: the pages given back, and the remaining list. -/
def regionTruncate (head : List FileRegion) (end_ : ℤ) : ℤ × List FileRegion :=
  match locate end_ head with
  | (_, []) => (0, head)
  | (before, rg :: rest) =>
    if end_ > rg.fromPage then (dropLoop (rg.toPage - end_) rest, before ++ [⟨rg.fromPage, end_⟩])
    else (dropLoop 0 (rg :: rest), before)

/-- Abstract reading of a region list: the set of its pages. -/
def covered (l : List FileRegion) : Set ℤ := {p | ∃ rg ∈ l, rg.fromPage ≤ p ∧ p < rg.toPage}

/-- Sorted, disjoint and non-touching regions, each with its ends in order. -/
@[mk_iff] structure Sorted (l : List FileRegion) : Prop where
  ordered : ∀ rg ∈ l, rg.fromPage ≤ rg.toPage
  separated : l.Pairwise fun a b => a.toPage < b.fromPage

@[simp] lemma mem_covered (l : List FileRegion) (p : ℤ) :
    p ∈ covered l ↔ ∃ rg ∈ l, rg.fromPage ≤ p ∧ p < rg.toPage := Iff.rfl

@[simp] lemma covered_nil : covered [] = ∅ := by
  ext p
  simp

lemma covered_append (l l' : List FileRegion) : covered (l ++ l') = covered l ∪ covered l' := by
  ext p
  simp only [mem_covered, mem_append, mem_union, or_and_right, exists_or]

lemma covered_cons (rg : FileRegion) (l : List FileRegion) :
    covered (rg :: l) = Set.Ico rg.fromPage rg.toPage ∪ covered l := by
  ext p
  simp

lemma sorted_nil : Sorted [] := ⟨by simp, List.Pairwise.nil⟩

variable {l l' head before rest : List FileRegion} {f t : ℤ}

lemma sorted_append :
    Sorted (l ++ l') ↔ Sorted l ∧ Sorted l' ∧ ∀ a ∈ l, ∀ b ∈ l', a.toPage < b.fromPage := by
  simp only [sorted_iff, forall_mem_append, pairwise_append]
  tauto

lemma sorted_cons {rg : FileRegion} :
    Sorted (rg :: l) ↔ rg.fromPage ≤ rg.toPage ∧ (∀ b ∈ l, rg.toPage < b.fromPage) ∧ Sorted l := by
  simp only [sorted_iff, forall_mem_cons, pairwise_cons]
  tauto

section Bounds
variable {l : List FileRegion} {u : ℤ}

lemma covered_subset_Iio (h : ∀ rg ∈ l, rg.toPage ≤ u) : covered l ⊆ Set.Iio u :=
  fun _ ⟨rg, hrg, hp⟩ => hp.2.trans_le (h rg hrg)

lemma covered_subset_Ici (h : ∀ rg ∈ l, u ≤ rg.fromPage) : covered l ⊆ Set.Ici u :=
  fun _ ⟨rg, hrg, hp⟩ => (h rg hrg).trans hp.1

lemma covered_disjoint_Ici (h : ∀ rg ∈ l, rg.toPage ≤ u) : Disjoint (covered l) (Set.Ici u) :=
  (Set.Iio_disjoint_Ici le_rfl).mono_left (covered_subset_Iio h)

lemma covered_disjoint_Iio (h : ∀ rg ∈ l, u ≤ rg.fromPage) : Disjoint (covered l) (Set.Iio u) :=
  ((Set.Iio_disjoint_Ici le_rfl).mono_right (covered_subset_Ici h)).symm

end Bounds

lemma locate_spec (hs : Sorted head) (h : locate f head = (before, rest)) :
    head = before ++ rest ∧ (∀ rg ∈ before, rg.toPage < f) ∧ ∀ rg ∈ rest, f ≤ rg.toPage := by
  obtain ⟨rfl, rfl⟩ := h
  have happ : head = (head.takeWhile fun rg => decide (rg.toPage < f)) ++
      head.dropWhile fun rg => decide (rg.toPage < f) := takeWhile_append_dropWhile.symm
  refine ⟨happ, fun rg hr => by simpa using mem_takeWhile_imp hr, ?_⟩
  have hrest : Sorted (head.dropWhile fun rg => decide (rg.toPage < f)) := by
    rw [happ] at hs
    exact (sorted_append.1 hs).2.1
  have hhead := head?_dropWhile_not (fun rg : FileRegion => decide (rg.toPage < f)) head
  cases hd : head.dropWhile fun rg => decide (rg.toPage < f) with
  | nil => simp
  | cons a l =>
    rw [hd] at hrest hhead
    have ha : f ≤ a.toPage := by simpa using hhead
    obtain ⟨_, hal, hl⟩ := sorted_cons.1 hrest
    refine forall_mem_cons.2 ⟨ha, fun rg hr => ?_⟩
    exact ha.trans ((hal rg hr).le.trans (hl.ordered rg hr))

/-- The consuming loop removes an initial part of a sorted list, ends below all
that remains, and covers what it removed. -/
lemma consume_spec (t lo : ℤ) (l : List FileRegion) (hs : Sorted l)
    (hlo : ∀ rg ∈ l, lo ≤ rg.fromPage) :
    ∃ eaten, l = eaten ++ (consume t l).2 ∧ t ≤ (consume t l).1 ∧
      (∀ rg ∈ (consume t l).2, (consume t l).1 < rg.fromPage) ∧
      Set.Ico lo (consume t l).1 = Set.Ico lo t ∪ covered eaten := by
  induction l generalizing t with
  | nil => exact ⟨[], by simp [consume]⟩
  | cons rg rest ih =>
    obtain ⟨hrg, hafter, hrest⟩ := sorted_cons.1 hs
    have hrglo := hlo rg (by simp)
    by_cases hstop : rg.fromPage > t
    · simp only [consume, if_pos hstop]
      refine ⟨[], rfl, le_rfl, forall_mem_cons.2 ⟨hstop, fun b hb => ?_⟩, by simp⟩
      have := hafter b hb
      omega
    · obtain ⟨t1, ht1⟩ : ∃ t1, t1 = if rg.toPage > t then rg.toPage else t := ⟨_, rfl⟩
      obtain ⟨eaten, happ, hle, hbelow, hcov⟩ := ih t1 hrest (fun b hb => hlo b (by simp [hb]))
      simp only [consume, if_neg hstop, ← ht1]
      refine ⟨rg :: eaten, by rw [cons_append, ← happ], by omega, hbelow, ?_⟩
      have hjoin : Set.Ico lo t1 = Set.Ico lo t ∪ Set.Ico rg.fromPage rg.toPage := by
        ext p
        simp only [mem_Ico, mem_union]
        omega
      rw [hcov, covered_cons, hjoin, union_assoc]

/-- What `region_add` needs from the `region_chg` before it: some region ends at
or after `f`, and the first such one begins at or before `t`. -/
def Prepared (head : List FileRegion) (f t : ℤ) : Prop :=
  ∃ rg rest, (locate f head).2 = rg :: rest ∧ rg.fromPage ≤ t

lemma regionAdd_spec (hs : Sorted head) (hft : f ≤ t) (hp : Prepared head f t) :
    ∃ l, regionAdd head f t = some l ∧ Sorted l ∧ covered l = covered head ∪ Set.Ico f t ∧
      ∀ rg ∈ l, rg ∈ head ∨ rg.fromPage ≤ f ∧ t ≤ rg.toPage := by
  obtain ⟨rg, rest, hloc, hrt⟩ := hp
  obtain ⟨before, hbefore⟩ : ∃ before, (locate f head).1 = before := ⟨_, rfl⟩
  have hpair : locate f head = (before, rg :: rest) := Prod.ext hbefore hloc
  obtain ⟨rfl, hb, hr⟩ := locate_spec hs hpair
  obtain ⟨hsb, hsr, hbr⟩ := sorted_append.1 hs
  obtain ⟨hrg, hafter, hrest⟩ := sorted_cons.1 hsr
  have hfrg := hr rg (by simp)
  obtain ⟨f', hf'⟩ : ∃ f', f' = if f > rg.fromPage then rg.fromPage else f := ⟨_, rfl⟩
  obtain ⟨t1, ht1⟩ : ∃ t1, t1 = if rg.toPage > t then rg.toPage else t := ⟨_, rfl⟩
  have hf'f : f' ≤ f ∧ f' ≤ rg.fromPage ∧ (f' = f ∨ f' = rg.fromPage) := by
    split_ifs at hf' <;> omega
  obtain ⟨eaten, happ, hle, hbelow, hcov⟩ := consume_spec t1 f' rest hrest
    (fun b hb => by have := hafter b hb; omega)
  refine ⟨before ++ ⟨f', (consume t1 rest).1⟩ :: (consume t1 rest).2, ?_, ?_, ?_, ?_⟩
  · simp only [regionAdd, hpair, if_neg (not_lt.2 hrt), ← hf', ← ht1]
  · refine sorted_append.2 ⟨hsb, sorted_cons.2 ⟨by simp only; omega, hbelow, ?_⟩, ?_⟩
    · rw [happ] at hrest
      exact (sorted_append.1 hrest).2.1
    · refine fun a ha => forall_mem_cons.2 ⟨?_, fun b hbm => hbr a ha b ?_⟩
      · have h1 := hb a ha
        have h2 := hbr a ha rg (by simp)
        simp only
        omega
      · rw [happ]
        simp [hbm]
  · have hjoin : Set.Ico f' t1 = Set.Ico rg.fromPage rg.toPage ∪ Set.Ico f t := by
      ext p
      simp only [mem_Ico, mem_union]
      omega
    rw [covered_append, covered_append, covered_cons, covered_cons, hcov, hjoin]
    conv_rhs => rw [happ, covered_append]
    ac_rfl
  · refine forall_mem_append.2 ⟨fun b hbm => .inl (by simp [hbm]),
      forall_mem_cons.2 ⟨.inr ⟨hf'f.1, by simp only; omega⟩, fun b hbm => .inl ?_⟩⟩
    rw [happ]
    simp [hbm]

/-! ## Counting pages -/

lemma finite_covered (l : List FileRegion) : (covered l).Finite := by
  induction l with
  | nil => simp
  | cons rg l ih =>
    rw [covered_cons]
    exact (finite_Ico _ _).union ih

lemma disjoint_first {rg : FileRegion} (hafter : ∀ b ∈ l, rg.toPage < b.fromPage) :
    Disjoint (Set.Ico rg.fromPage rg.toPage) (covered l) :=
  (covered_disjoint_Iio fun b hb => (hafter b hb).le).symm.mono_left Set.Ico_subset_Iio_self

lemma ncard_covered_inter (hs : Sorted l) (W : Set ℤ) :
    (covered l ∩ W).ncard = (l.map fun rg => (Set.Ico rg.fromPage rg.toPage ∩ W).ncard).sum := by
  induction l with
  | nil => simp
  | cons rg l ih =>
    obtain ⟨_, hafter, hl⟩ := sorted_cons.1 hs
    have hdisj : Disjoint (Set.Ico rg.fromPage rg.toPage ∩ W) (covered l ∩ W) :=
      (disjoint_first hafter).mono inter_subset_left inter_subset_left
    rw [covered_cons, union_inter_distrib_right, ncard_union_eq hdisj
      ((finite_Ico _ _).inter_of_left W) ((finite_covered l).inter_of_left W), ih hl,
      map_cons, sum_cons]

lemma ncard_Ico (a b : ℤ) : (Set.Ico a b).ncard = (b - a).toNat := by
  rw [← Finset.coe_Ico, ncard_coe_finset, Int.card_Ico]

/-- The accounting loop subtracts from its start value the pages of the regions
below `t`. -/
lemma chgLoop_eq (chg t : ℤ) (l : List FileRegion) (hs : Sorted l) :
    chgLoop chg t l = chg - (covered l ∩ Set.Iio t).ncard := by
  induction l generalizing chg t with
  | nil => simp [chgLoop]
  | cons rg rest ih =>
    obtain ⟨hrg, hafter, hrest⟩ := sorted_cons.1 hs
    have hfirst : (Set.Ico rg.fromPage rg.toPage ∩ Set.Iio t).ncard =
        (min rg.toPage t - rg.fromPage).toNat := by
      rw [Set.Ico_inter_Iio, ncard_Ico]
    have hzero : ∀ u, u ≤ rg.toPage → (covered rest ∩ Set.Iio u).ncard = 0 := by
      intro u hu
      rw [(covered_disjoint_Iio fun b hb => hu.trans (hafter b hb).le).inter_eq, ncard_empty]
    have hsum : (covered (rg :: rest) ∩ Set.Iio t).ncard =
        (min rg.toPage t - rg.fromPage).toNat + (covered rest ∩ Set.Iio t).ncard := by
      rw [ncard_covered_inter hs, ncard_covered_inter hrest, map_cons, sum_cons, hfirst]
    simp only [chgLoop]
    split_ifs with hstop hhigh
    · rw [hsum, hzero t (by omega)]
      omega
    · rw [ih _ _ hrest, hsum, hzero t (by omega), hzero rg.toPage le_rfl]
      omega
    · rw [ih _ _ hrest]
      omega

lemma dropLoop_eq (chg : ℤ) (l : List FileRegion) (hs : Sorted l) :
    dropLoop chg l = chg + (covered l).ncard := by
  induction l generalizing chg with
  | nil => simp [dropLoop]
  | cons rg rest ih =>
    obtain ⟨hrg, hafter, hrest⟩ := sorted_cons.1 hs
    have hsum := ncard_covered_inter hs univ
    have hsum' := ncard_covered_inter hrest univ
    simp only [inter_univ, map_cons, sum_cons, ncard_Ico] at hsum hsum'
    rw [dropLoop, ih _ hrest]
    omega

/-- What `region_chg` leaves behind when it does not run out of memory. -/
structure ChgSpec (head : List FileRegion) (f t chg : ℤ) (l : List FileRegion) : Prop where
  count : chg = (Set.Ico f t \ covered head).ncard
  sorted : Sorted l
  same : covered l = covered head
  prepared : Prepared l f t
  placed : ∀ rg ∈ l, rg ∈ head ∨ rg = ⟨f, f⟩

lemma uncovered_count (hft : f ≤ t) :
    ((Set.Ico f t \ covered head).ncard : ℤ) = t - f - (covered head ∩ Set.Ico f t).ncard := by
  have h := ncard_inter_add_ncard_sdiff_eq_ncard (Set.Ico f t) (covered head) (finite_Ico f t)
  rw [inter_comm, ncard_Ico] at h
  omega

lemma place_spec (hs : Sorted (before ++ rest)) (hft : f ≤ t) (hb : ∀ rg ∈ before, rg.toPage < f)
    (hr : ∀ rg ∈ rest, t < rg.fromPage) :
    ChgSpec (before ++ rest) f t (t - f) (before ++ ⟨f, f⟩ :: rest) := by
  obtain ⟨hsb, hsr, hbr⟩ := sorted_append.1 hs
  have hsorted : Sorted (before ++ ⟨f, f⟩ :: rest) := by
    refine sorted_append.2 ⟨hsb, sorted_cons.2 ⟨le_rfl, ?_, hsr⟩, ?_⟩
    · exact fun b hbm => hft.trans_lt (hr b hbm)
    · exact fun a ha => forall_mem_cons.2 ⟨hb a ha, hbr a ha⟩
  have hbelow : Disjoint (covered before) (Set.Ico f t) :=
    (covered_disjoint_Ici fun rg hrg => (hb rg hrg).le).mono_right Set.Ico_subset_Ici_self
  have habove : Disjoint (covered rest) (Set.Ico f t) :=
    (covered_disjoint_Iio fun rg hrg => (hr rg hrg).le).mono_right Set.Ico_subset_Iio_self
  refine ⟨?_, hsorted, ?_, ⟨⟨f, f⟩, rest, ?_, hft⟩, ?_⟩
  · rw [uncovered_count hft, covered_append, (hbelow.union_left habove).inter_eq]
    simp
  · rw [covered_append, covered_append, covered_cons]
    simp
  · rw [locate, dropWhile_append_of_pos (by simpa using hb)]
    simp
  · intro rg hm
    simp only [mem_append, mem_cons] at hm ⊢
    tauto

/-- `region_chg` counts the missing pages of a sorted list. It changes the list
only by a zero-size placeholder, and not at all when that cannot be allocated. -/
lemma regionChg_spec (hs : Sorted head) (hft : f ≤ t) (kmalloc : Bool) :
    (kmalloc = false ∧ regionChg head f t kmalloc = (-eNOMEM, head)) ∨
      ChgSpec head f t (regionChg head f t kmalloc).1 (regionChg head f t kmalloc).2 := by
  obtain ⟨before, rest, hloc⟩ : ∃ before rest, locate f head = (before, rest) := ⟨_, _, rfl⟩
  obtain ⟨rfl, hb, hr⟩ := locate_spec hs hloc
  cases rest with
  | nil =>
    simp only [regionChg, hloc]
    cases kmalloc with
    | false => exact .inl ⟨rfl, by simp⟩
    | true => exact .inr (place_spec hs hft hb (by simp))
  | cons rg rest =>
    obtain ⟨hsb, hsr, hbr⟩ := sorted_append.1 hs
    obtain ⟨hrg, hafter, hrest⟩ := sorted_cons.1 hsr
    by_cases hgap : t < rg.fromPage
    · have habove : ∀ b ∈ rg :: rest, t < b.fromPage :=
        forall_mem_cons.2 ⟨hgap, fun b hbm => by have := hafter b hbm; omega⟩
      simp only [regionChg, hloc, if_pos hgap]
      cases kmalloc with
      | false => exact .inl ⟨rfl, by simp⟩
      | true => exact .inr (place_spec hs hft hb habove)
    · simp only [regionChg, hloc, if_neg hgap]
      refine .inr ⟨?_, hs, rfl, ⟨rg, rest, by rw [hloc], by omega⟩, fun b hbm => .inl hbm⟩
      have hfrg := hr rg (by simp)
      have hbelow : covered (before ++ rg :: rest) ∩ Set.Ico f t =
          covered (rg :: rest) ∩ Set.Ico f t := by
        have hdisj : Disjoint (covered before) (Set.Ico f t) :=
          (covered_disjoint_Ici fun b hbm => (hb b hbm).le).mono_right Set.Ico_subset_Ici_self
        rw [covered_append, union_inter_distrib_right, hdisj.inter_eq, empty_union]
      have htail : covered rest ∩ Set.Ico f t = covered rest ∩ Set.Iio t := by
        have hsub : covered rest ⊆ Set.Ici f :=
          covered_subset_Ici fun b hbm => hfrg.trans (hafter b hbm).le
        rw [← Set.Ici_inter_Iio, ← inter_assoc, inter_eq_left.2 hsub]
      rw [chgLoop_eq _ _ _ hsr, uncovered_count hft, hbelow, ncard_covered_inter hsr,
        ncard_covered_inter hsr, map_cons, sum_cons, map_cons, sum_cons,
        ← ncard_covered_inter hrest, ← ncard_covered_inter hrest, htail, Set.Ico_inter_Iio,
        Set.Ico_inter_Ico, ncard_Ico, ncard_Ico]
      split_ifs <;> omega

lemma regionTruncate_spec (hs : Sorted head) (end_ : ℤ) :
    (regionTruncate head end_).1 = (covered head ∩ Set.Ici end_).ncard ∧
      Sorted (regionTruncate head end_).2 ∧
      covered (regionTruncate head end_).2 = covered head ∩ Set.Iio end_ ∧
      ∀ rg ∈ (regionTruncate head end_).2, rg.fromPage = rg.toPage → rg ∈ head := by
  obtain ⟨before, rest, hloc⟩ : ∃ before rest, locate end_ head = (before, rest) := ⟨_, _, rfl⟩
  obtain ⟨rfl, hb, hr⟩ := locate_spec hs hloc
  obtain ⟨hsb, hsr, hbr⟩ := sorted_append.1 hs
  have hbefore : covered before ⊆ Set.Iio end_ := covered_subset_Iio fun b hbm => (hb b hbm).le
  have hbefore' : covered before ∩ Set.Ici end_ = ∅ :=
    (covered_disjoint_Ici fun b hbm => (hb b hbm).le).inter_eq
  cases rest with
  | nil =>
    simp only [append_nil] at hs hloc ⊢
    simp only [regionTruncate, hloc]
    exact ⟨by simp [hbefore'], hs, (inter_eq_left.2 hbefore).symm, fun rg hm _ => hm⟩
  | cons rg rest =>
    obtain ⟨hrg, hafter, hrest⟩ := sorted_cons.1 hsr
    have hfrg := hr rg (by simp)
    have hend : ∀ b ∈ rest, end_ ≤ b.fromPage := fun b hbm => hfrg.trans (hafter b hbm).le
    have hrest' : covered rest ⊆ Set.Ici end_ := covered_subset_Ici hend
    have hrest'' : covered rest ∩ Set.Iio end_ = ∅ := (covered_disjoint_Iio hend).inter_eq
    have hdisj : Disjoint (Set.Ico rg.fromPage rg.toPage ∩ Set.Ici end_) (covered rest) :=
      (disjoint_first hafter).mono_left inter_subset_left
    have hcount : (covered (before ++ rg :: rest) ∩ Set.Ici end_).ncard =
        (rg.toPage - max rg.fromPage end_).toNat + (covered rest).ncard := by
      rw [covered_append, union_inter_distrib_right, hbefore', empty_union, covered_cons,
        union_inter_distrib_right, inter_eq_left.2 hrest', ncard_union_eq hdisj
        ((finite_Ico _ _).inter_of_left _) (finite_covered rest), Set.Ico_inter_Ici, ncard_Ico]
    have hkeep : covered (before ++ rg :: rest) ∩ Set.Iio end_ =
        covered before ∪ Set.Ico rg.fromPage (min rg.toPage end_) := by
      rw [covered_append, union_inter_distrib_right, inter_eq_left.2 hbefore,
        covered_cons, union_inter_distrib_right, hrest'', union_empty, Set.Ico_inter_Iio]
    by_cases hin : end_ > rg.fromPage
    · simp only [regionTruncate, hloc, if_pos hin]
      refine ⟨?_, ?_, ?_, ?_⟩
      · rw [dropLoop_eq _ _ hrest]
        omega
      · refine sorted_append.2 ⟨hsb, sorted_cons.2 ⟨by simp only; omega, by simp, sorted_nil⟩, ?_⟩
        exact fun a ha => forall_mem_singleton.2 (hbr a ha rg (by simp))
      · rw [hkeep, covered_append, covered_cons, covered_nil, union_empty, min_eq_right hfrg]
      · refine forall_mem_append.2 ⟨fun b hbm _ => by simp [hbm],
          forall_mem_singleton.2 fun hz => absurd hz hin.ne⟩
    · simp only [regionTruncate, hloc, if_neg hin]
      refine ⟨?_, hsb, ?_, fun b hbm _ => by simp [hbm]⟩
      · have hall : covered (rg :: rest) ⊆ Set.Ici end_ :=
          covered_subset_Ici (forall_mem_cons.2 ⟨not_lt.1 hin, hend⟩)
        rw [dropLoop_eq _ _ hsr, covered_append, union_inter_distrib_right, hbefore',
          empty_union, inter_eq_left.2 hall, zero_add]
      · rw [hkeep, Set.Ico_eq_empty (by omega), union_empty]

end BooxKernel.Hugetlb
