import BooxKernel.Lmb.Model

/-!
# Removing addresses

`lmb_remove` makes a region smaller before it adds what is behind the hole to the table. This fails
only if the table is full, and then the addresses behind the hole are lost.
-/
namespace BooxKernel.Lmb
open Function Int

/-- The region that all of the addresses are in. -/
def findRegion (rgn : Region) (base stop : ℕ) : Option ℕ :=
  (List.range rgn.cnt).find? fun i =>
    (rgn.region i).base ≤ base && stop ≤ add64 (rgn.region i).base (rgn.region i).size

/-- `lmb_remove`, which returns a code and the table. -/
def lmbRemove (rgn : Region) (base size : ℕ) : ℤ × Region :=
  let stop := add64 base size
  match findRegion rgn base stop with
  | none => (-1, rgn)
  | some i =>
    let p := rgn.region i
    let rgnend := add64 p.base p.size
    if p.base = base ∧ rgnend = stop then (0, removeRegion rgn i)
    else if p.base = base then (0, ⟨rgn.cnt, update rgn.region i ⟨stop, sub64 p.size size⟩⟩)
    else if rgnend = stop then (0, ⟨rgn.cnt, update rgn.region i ⟨p.base, sub64 p.size size⟩⟩)
    else lmbAddRegion ⟨rgn.cnt, update rgn.region i ⟨p.base, sub64 base p.base⟩⟩
      ⟨stop, sub64 rgnend stop⟩

variable {rgn : Region} {p q : Property} {i a base size : ℕ}

lemma not_cnt_lt_last (h : maxLmbRegions ≤ rgn.cnt) : ¬ rgn.cnt < rgn.last := by
  simp only [Region.last, sub64, maxLmbRegions] at h ⊢
  omega

/-- A region is added unless the table is full and no region of it can take it up. -/
lemma lmbAddRegion_neg (h : (lmbAddRegion rgn p).1 < 0) :
    maxLmbRegions ≤ rgn.cnt ∧ findNeighbour rgn p = none := by
  unfold lmbAddRegion at h
  split at h
  · contradiction
  split at h
  · split at h
    · contradiction
    · rw [joinRegion] at h
      split at h <;> contradiction
  · split_ifs at h with hlast hfull
    · contradiction
    · exact ⟨hfull, by assumption⟩
    · contradiction

lemma lmbAddRegion_full (hfull : maxLmbRegions ≤ rgn.cnt) (hnone : findNeighbour rgn p = none) :
    lmbAddRegion rgn p = (-1, rgn) := by
  have hone : ¬ (rgn.cnt = 1 ∧ (rgn.region 0).size = 0) := by
    rintro ⟨hcnt, -⟩
    rw [hcnt] at hfull
    exact absurd hfull (by decide)
  rw [lmbAddRegion, if_neg hone, hnone]
  rw [if_neg fun h => not_cnt_lt_last hfull h.1, if_pos hfull]

/-- An address is in some region other than `i`. -/
def Region.HasApart (rgn : Region) (i a : ℕ) : Prop := ∃ j < rgn.cnt, j ≠ i ∧ (rgn.region j).Has a

lemma Region.has_update (hi : i < rgn.cnt) :
    (⟨rgn.cnt, update rgn.region i q⟩ : Region).Has a ↔ q.Has a ∨ rgn.HasApart i a := by
  constructor
  · rintro ⟨j, hj, hhas⟩
    by_cases hji : j = i
    · subst hji
      exact .inl (by simpa using hhas)
    · exact .inr ⟨j, hj, hji, by simpa [hji] using hhas⟩
  · rintro (hhas | ⟨j, hj, hji, hhas⟩)
    · exact ⟨i, hi, by simpa using hhas⟩
    · exact ⟨j, hj, by simpa [hji] using hhas⟩

/-- Both ends of region `i` stay, the table is full, and the part behind the hole is not a region
of the table nor adjacent to one, the part in front of the hole included. -/
structure CutShort (rgn : Region) (base stop i : ℕ) : Prop where
  found : findRegion rgn base stop = some i
  front : (rgn.region i).base ≠ base
  back : add64 (rgn.region i).base (rgn.region i).size ≠ stop
  full : maxLmbRegions ≤ rgn.cnt
  apart : findNeighbour
    ⟨rgn.cnt, update rgn.region i ⟨(rgn.region i).base, sub64 base (rgn.region i).base⟩⟩
    ⟨stop, sub64 (add64 (rgn.region i).base (rgn.region i).size) stop⟩ = none

lemma findRegion_spec {stop : ℕ} (h : findRegion rgn base stop = some i) :
    i < rgn.cnt ∧ (rgn.region i).base ≤ base := by
  have hmem := List.mem_of_find?_eq_some h
  have hin := List.find?_some h
  simp only [Bool.and_eq_true, decide_eq_true_eq] at hin
  exact ⟨List.mem_range.1 hmem, hin.1⟩

/-- A call that fails leaves the table as it was, or cuts region `i` off at `base`. -/
lemma lmbRemove_neg (hneg : (lmbRemove rgn base size).1 < 0) :
    (lmbRemove rgn base size).2 = rgn ∨ ∃ i, CutShort rgn base (add64 base size) i := by
  unfold lmbRemove at hneg ⊢
  dsimp only at hneg ⊢
  split at hneg
  · exact .inl rfl
  · split_ifs at hneg with hboth hfront hback
    any_goals contradiction
    obtain ⟨hfull, hnone⟩ := lmbAddRegion_neg hneg
    exact .inr ⟨_, by assumption, hfront, hback, hfull, hnone⟩

lemma CutShort.lmbRemove_eq (h : CutShort rgn base (add64 base size) i) :
    lmbRemove rgn base size = (-1, ⟨rgn.cnt,
      update rgn.region i ⟨(rgn.region i).base, sub64 base (rgn.region i).base⟩⟩) := by
  simp only [lmbRemove, h.found]
  rw [if_neg fun hboth => h.front hboth.1, if_neg h.front, if_neg h.back]
  exact lmbAddRegion_full (by exact h.full) h.apart

/-- The addresses of the memory are as they were if `lmb_remove` fails, exactly if the region that
it cuts short has no address of its own from `base` on. The ends of a region may be in either order
where a size runs over the end of the addresses. -/
theorem lmb_remove_atomic (rgn : Region) (base size : ℕ) (hbase : base < 2 ^ 64) :
    ((lmbRemove rgn base size).1 < 0 → ∀ a, (lmbRemove rgn base size).2.Has a ↔ rgn.Has a) ↔
      ∀ i, CutShort rgn base (add64 base size) i → ∀ a,
        (base ≤ a ∧ a < (rgn.region i).base + (rgn.region i).size ∨
          (rgn.region i).base + (rgn.region i).size ≤ a ∧ a < base) → rgn.HasApart i a := by
  have hcut : ∀ i, CutShort rgn base (add64 base size) i → ∀ a,
      ((lmbRemove rgn base size).2.Has a ↔
        ((rgn.region i).base ≤ a ∧ a < base) ∨ rgn.HasApart i a) ∧
      (rgn.Has a ↔ (rgn.region i).Has a ∨ rgn.HasApart i a) ∧ (rgn.region i).base ≤ base := by
    intro i h a
    obtain ⟨hi, hle⟩ := findRegion_spec h.found
    have hsub : sub64 base (rgn.region i).base = base - (rgn.region i).base := by
      rw [sub64]
      omega
    have hend : (rgn.region i).base + (base - (rgn.region i).base) = base := by omega
    rw [h.lmbRemove_eq, Region.has_update hi, hsub, Property.Has, hend]
    exact ⟨Iff.rfl, by rw [← Region.has_update hi, update_eq_self], hle⟩
  constructor
  · intro hsame i h a hbetween
    have hneg : (lmbRemove rgn base size).1 < 0 := by
      rw [h.lmbRemove_eq]
      exact negSucc_lt_zero 0
    obtain ⟨hnew, hold, hle⟩ := hcut i h a
    have hiff := hnew.symm.trans ((hsame hneg a).trans hold)
    simp only [Property.Has] at hiff
    rcases hbetween with hlost | hgained
    · rcases hiff.2 (.inl ⟨by omega, hlost.2⟩) with hin | hapart
      · omega
      · exact hapart
    · rcases hiff.1 (.inl ⟨by omega, hgained.2⟩) with hin | hapart
      · omega
      · exact hapart
  · intro hapart hneg a
    rcases lmbRemove_neg hneg with heq | ⟨i, h⟩
    · rw [heq]
    · obtain ⟨hnew, hold, hle⟩ := hcut i h a
      rw [hnew, hold, Property.Has]
      by_cases hbetween : base ≤ a ∧ a < (rgn.region i).base + (rgn.region i).size ∨
          (rgn.region i).base + (rgn.region i).size ≤ a ∧ a < base
      · exact iff_of_true (.inr (hapart i h a hbetween)) (.inr (hapart i h a hbetween))
      · exact or_congr_left (by omega)

/-- A table of 128 regions that do not touch. -/
def fullTable : Region := ⟨128, fun i => ⟨0x10000 * i, 0x3000⟩⟩

/-- Removing what is not there from a full table. -/
theorem lmb_remove_absent :
    (lmbRemove fullTable 0x5000 0x1000).1 < 0 ∧
      ((lmbRemove fullTable 0x5000 0x1000).2.Has 0x2000 ↔ fullTable.Has 0x2000) := by
  have hnone : findRegion fullTable 0x5000 (add64 0x5000 0x1000) = none := by decide +kernel
  have hneg : (lmbRemove fullTable 0x5000 0x1000).1 < 0 := by
    simp only [lmbRemove, hnone]
    decide
  refine ⟨hneg, (lmb_remove_atomic fullTable 0x5000 0x1000 (by decide)).2 (fun i h => ?_) hneg _⟩
  exact absurd (hnone.symm.trans h.found) (by simp)

/-- The address behind the hole is lost, though the call fails. -/
theorem lmb_remove_loses :
    (lmbRemove fullTable 0x1000 0x1000).1 = -1 ∧ fullTable.Has 0x2000 ∧
      ¬(lmbRemove fullTable 0x1000 0x1000).2.Has 0x2000 := by
  have hfind : findNeighbour ⟨128, update fullTable.region 0 ⟨0, 0x1000⟩⟩ ⟨0x2000, 0x1000⟩ = none :=
    by decide +kernel
  have hres : lmbRemove fullTable 0x1000 0x1000 =
      (-1, ⟨128, update fullTable.region 0 ⟨0, 0x1000⟩⟩) := by
    have hregion : findRegion fullTable 0x1000 0x2000 = some 0 := by decide +kernel
    simp only [lmbRemove, show add64 0x1000 0x1000 = 0x2000 from rfl, hregion]
    rw [if_neg (by decide), if_neg (by decide), if_neg (by decide)]
    change lmbAddRegion ⟨128, update fullTable.region 0 ⟨0, 0x1000⟩⟩ ⟨0x2000, 0x1000⟩ = _
    simp only [lmbAddRegion, hfind]
    rfl
  rw [hres]
  refine ⟨rfl, ⟨0, by decide, by decide, by decide⟩, ?_⟩
  rintro ⟨i, -, hbase, hstop⟩
  cases i with
  | zero => exact absurd hstop (by decide)
  | succ i =>
    have hbase : 0x10000 * (i + 1) ≤ 0x2000 := hbase
    omega

end BooxKernel.Lmb
