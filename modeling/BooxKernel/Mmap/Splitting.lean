import BooxKernel.Mmap.Adjust

/-!
# `split_vma`

A split puts two areas where one stood, and does not change what is mapped.
-/
namespace BooxKernel.Mmap

open Chains ColoredTrees Rbtree Function List Mm

variable {c : Config} {K : Kinds} {V : Type} {mm mm' : Mm c K V} {v w new : V}
  {vs xs ys zs : List V} {addr start stop : ℕ}

lemma Mm.regions_congr (mm mm' : Mm c K V) (vs : List V)
    (h : ∀ w ∈ vs, mm'.region w = mm.region w) : mm'.regions vs = mm.regions vs :=
  map_congr_left h

@[simp] lemma Mm.regions_append : mm.regions (xs ++ ys) = mm.regions xs ++ mm.regions ys :=
  map_append

@[simp] lemma Mm.regions_cons : mm.regions (v :: vs) = mm.region v :: mm.regions vs := rfl

@[simp] lemma Mm.regions_nil : mm.regions [] = [] := rfl

namespace Region

variable {r : Region c K.File}

/-- The part of a region below `addr`. -/
def lower (r : Region c K.File) (addr : ℕ) : Region c K.File := { r with vmEnd := addr }

/-- The part of a region from `addr` on. -/
def upper (r : Region c K.File) (addr : ℕ) : Region c K.File :=
  { r with
    vmStart := addr
    vmPgoff := r.vmPgoff + BitVec.ofNat c.bits ((addr - r.vmStart) / c.pageSize) }

@[simp] lemma lower_vmStart : (r.lower addr).vmStart = r.vmStart := rfl

@[simp] lemma lower_vmEnd : (r.lower addr).vmEnd = addr := rfl

@[simp] lemma upper_vmStart : (r.upper addr).vmStart = addr := rfl

@[simp] lemma upper_vmEnd : (r.upper addr).vmEnd = r.vmEnd := rfl

/-- The addresses at which a region can be split. -/
structure Inside (r : Region c K.File) (addr : ℕ) : Prop where
  start : r.vmStart < addr
  stop : addr < r.vmEnd
  dvd : c.pageSize ∣ addr

lemma Ok.lower (h : r.Ok) (hin : r.Inside addr) : (r.lower addr).Ok :=
  ⟨hin.start, h.start_dvd, hin.dvd, hin.stop.trans h.end_lt⟩

lemma Ok.upper (h : r.Ok) (hin : r.Inside addr) : (r.upper addr).Ok :=
  ⟨hin.stop, hin.dvd, h.end_dvd, h.end_lt⟩

lemma mapPage_split (h : r.Ok) (hin : r.Inside addr) (p : ℕ) :
    r.mapPage p = ((r.lower addr).mapPage p).or ((r.upper addr).mapPage p) := by
  have hfits : Fits (r.lower addr) (r.upper addr) := ⟨rfl, rfl, rfl, rfl⟩
  exact mapPage_join hfits (h.lower hin) (h.upper hin)

end Region

lemma sorted_halves (h : WellFormed mm (xs ++ v :: ys)) (hin : (mm.region v).Inside addr) :
    Sorted (mm.regions xs ++ [(mm.region v).lower addr, (mm.region v).upper addr] ++
      mm.regions ys) := by
  have hok : (mm.region v).Ok := h.ok (by simp)
  have hsorted := h.sorted
  rw [regions_append] at hsorted
  refine hsorted.replace ?_ ?_ ?_
  · simp [sorted_cons, hok.lower hin, hok.upper hin, Sorted.nil]
  · simp [hin.start.le]
  · simp [hin.stop.le]

variable [DecidableEq V]

/-- What a split leaves: the two parts stand where the area `v` stood. -/
structure Halved (mm mm' : Mm c K V) (xs : List V) (v : V) (ys : List V) (addr : ℕ)
    (halves : List V) : Prop where
  wellFormed : WellFormed mm' (xs ++ halves ++ ys)
  halves : mm'.regions halves = [(mm.region v).lower addr, (mm.region v).upper addr]
  others : ∀ w ∈ xs ++ ys, mm'.region w = mm.region w
  totalVm : mm'.totalVm = mm.totalVm

lemma insertVmStruct_sorted (h : Linked mm (xs ++ ys)) (hnew : new ∉ xs ++ ys)
    (hsorted : Sorted (mm.regions (xs ++ new :: ys))) :
    ∃ mm', insertVmStruct new mm = some mm' ∧ WellFormed mm' (xs ++ new :: ys) ∧
      SameAreas mm mm' := by
  have hs := hsorted
  simp only [regions_append, regions_cons, sorted_append, sorted_cons, mem_cons] at hs
  obtain ⟨hxs, ⟨hok, hys, hle⟩, hxn⟩ := hs
  have hwf : WellFormed mm (xs ++ ys) := by
    refine ⟨h, ?_⟩
    rw [regions_append, sorted_append]
    exact ⟨hxs, hys, fun a ha b hb => hxn a ha b (.inr hb)⟩
  obtain ⟨mm', hrun, hlinked, hsame⟩ := insertVmStruct_spec hwf hnew
    (fun x hx => hxn _ (mem_map.2 ⟨x, hx, rfl⟩) _ (.inl rfl))
    (fun y hy => hle _ (mem_map.2 ⟨y, hy, rfl⟩)) hok.lt
  refine ⟨mm', hrun, ⟨hlinked, ?_⟩, hsame⟩
  rwa [regions_congr mm mm' _ fun w _ => by rw [region, hsame.area]; rfl]

lemma insertVmStruct_halves {mm1 : Mm c K V} (h : WellFormed mm (xs ++ v :: ys))
    (hin : (mm.region v).Inside addr) (below : Bool) (hlinked : Linked mm1 (xs ++ v :: ys))
    (hnew : new ∉ xs ++ v :: ys) (hothers : ∀ w ∈ xs ++ ys, mm1.region w = mm.region w)
    (hregions : mm1.regions (if below then [new, v] else [v, new]) =
      [(mm.region v).lower addr, (mm.region v).upper addr]) (htotal : mm1.totalVm = mm.totalVm) :
    ∃ mm', insertVmStruct new mm1 = some mm' ∧
      Halved mm mm' xs v ys addr (if below then [new, v] else [v, new]) := by
  have hsorted : Sorted (mm1.regions (xs ++ (if below then [new, v] else [v, new]) ++ ys)) := by
    rw [regions_append, regions_append, hregions,
      regions_congr mm mm1 xs fun w hw => hothers w (by simp [hw]),
      regions_congr mm mm1 ys fun w hw => hothers w (by simp [hw])]
    exact sorted_halves h hin
  have hinsert : ∃ mm', insertVmStruct new mm1 = some mm' ∧
      WellFormed mm' (xs ++ (if below then [new, v] else [v, new]) ++ ys) ∧ SameAreas mm1 mm' := by
    cases below with
    | false =>
      rw [append_cons] at hlinked hnew
      simpa using insertVmStruct_sorted hlinked hnew (by simpa using hsorted)
    | true => simpa using insertVmStruct_sorted hlinked hnew (by simpa using hsorted)
  obtain ⟨mm', hrun, hwf, hsame⟩ := hinsert
  have hregion : mm'.region = mm1.region := by
    funext w
    rw [region, hsame.area]
    rfl
  refine ⟨mm', hrun, hwf, ?_, fun w hw => ?_, hsame.totalVm.trans htotal⟩
  · rw [← hregions]
    exact regions_congr mm1 mm' _ fun w _ => congrFun hregion w
  · rw [hregion, hothers w hw]

lemma Linked.fresh (h : Linked mm vs) (hnew : new ∉ vs) (a : Area c K) (p : Option V) :
    Linked ((mm.setArea new a).setNext new p) vs := by
  refine ⟨h.chain.congr fun w hw => ?_, h.tree, h.count, h.cache⟩
  have hne : w ≠ new := by rintro rfl; exact hnew hw
  simp [hne, setArea]

lemma Mm.region_fresh (a : Area c K) (p : Option V) :
    ((mm.setArea new a).setNext new p).region = update mm.region new a.toRegion :=
  region_setArea a

lemma vmaAdjust_insert (pgoff : BitVec c.bits) :
    vmaAdjust v start stop pgoff (some new) mm =
      insertVmStruct new (setBounds v (mm.vmNext v) start stop pgoff 0 none mm) := by
  rw [vmaAdjust.eq_def]
  cases mm.vmNext v <;> rfl

section
variable (h : WellFormed mm (xs ++ v :: ys)) (hin : (mm.region v).Inside addr) (below : Bool)
include h hin

lemma splitInto_spec (hnew : new ∉ xs ++ v :: ys) (pol : K.Policy) :
    ∃ mm', splitInto v new addr below pol mm = some mm' ∧
      Halved mm mm' xs v ys addr (if below then [new, v] else [v, new]) := by
  have hne : ∀ w ∈ xs ++ v :: ys, w ≠ new := by
    rintro w hw rfl
    exact hnew hw
  have hvnew : v ≠ new := hne v (by simp)
  have hothers : ∀ {next start stop pgoff a p}, ∀ w ∈ xs ++ ys,
      (setBounds v next start stop pgoff 0 none ((mm.setArea new a).setNext new p)).region w =
        mm.region w := by
    intro next start stop pgoff a p w hw
    have hw' : w ≠ new := hne w (by simp only [mem_append, mem_cons] at hw ⊢; tauto)
    have hv : w ≠ v := by
      rintro rfl
      exact (nodup_cons.1 (nodup_middle.1 h.nodup)).1 hw
    simp [region_setBounds, region_fresh, hv, hw']
  cases below with
  | false =>
    simp only [splitInto, Bool.false_eq_true, if_false, vmaAdjust_insert]
    refine insertVmStruct_halves h hin false (h.fresh hnew _ _).setBounds hnew hothers ?_
      totalVm_setBounds
    simp only [Bool.false_eq_true, if_false, regions_cons, regions_nil,
      region_setBounds, bounded, region_fresh, update_self, update_of_ne hvnew,
      update_of_ne hvnew.symm]
    rfl
  | true =>
    simp only [splitInto, if_true, vmaAdjust_insert]
    refine insertVmStruct_halves h hin true (h.fresh hnew _ _).setBounds hnew hothers ?_
      totalVm_setBounds
    simp only [if_true, regions_cons, regions_nil, region_setBounds, bounded, region_fresh,
      update_self, update_of_ne hvnew, update_of_ne hvnew.symm]
    rfl

lemma splitVma_spec
    {oracle : SplitOracle K V} (hfresh : ∀ new, oracle.vma = some new → new ∉ xs ++ v :: ys) :
    (∃ e, splitVma v addr below oracle mm = some (some e, mm)) ∨
      ∃ mm' new, oracle.vma = some new ∧ splitVma v addr below oracle mm = some (none, mm') ∧
        Halved mm mm' xs v ys addr (if below then [new, v] else [v, new]) := by
  by_cases hhuge : (mm.area v).isVmHugetlbPage ∧ addr % 2 ^ c.hpageShift ≠ 0
  · exact .inl ⟨_, by rw [splitVma, if_pos hhuge]⟩
  by_cases hcount : c.maxMapCount ≤ mm.mapCount
  · exact .inl ⟨_, by rw [splitVma, if_neg hhuge, if_pos hcount]⟩
  rw [splitVma, if_neg hhuge, if_neg hcount]
  cases hvma : oracle.vma with
  | none => exact .inl ⟨_, rfl⟩
  | some new =>
    cases hpol : oracle.mpol with
    | error e => exact .inl ⟨_, rfl⟩
    | ok pol =>
      obtain ⟨mm', hrun, hhalved⟩ := splitInto_spec h hin below (hfresh new hvma) pol
      exact .inr ⟨mm', new, rfl, by simp [hrun], hhalved⟩

end

end BooxKernel.Mmap
