import Mathlib.Data.List.Sort

/-!
# Ordered enumerations of an interval

A scan of `[lo, hi)` lists the elements of a set there in increasing order. A search that goes
through an interval piece by piece joins the scans of the pieces.
-/
namespace BooxKernel.Scans
open Nat List

variable {P : ℕ → Prop} {lo mid hi : ℕ} {xs ys : List ℕ}

/-- `xs` are the elements of `P` from `lo` on and below `hi`, in increasing order. -/
structure Scan (P : ℕ → Prop) (lo hi : ℕ) (xs : List ℕ) : Prop where
  sorted : xs.Pairwise (· < ·)
  mem : ∀ i, i ∈ xs ↔ lo ≤ i ∧ i < hi ∧ P i

lemma scan_nil (h : ∀ i, lo ≤ i → i < hi → ¬ P i) : Scan P lo hi [] :=
  ⟨List.Pairwise.nil, fun i => ⟨fun hi => absurd hi (by simp), fun ⟨hlo, hhi, hp⟩ =>
    absurd hp (h i hlo hhi)⟩⟩

lemma scan_singleton (h : P lo) : Scan P lo (lo + 1) [lo] := by
  refine ⟨pairwise_singleton _ _, fun i => ?_⟩
  rw [mem_singleton]
  constructor
  · rintro rfl
    exact ⟨le_rfl, lt_succ_self _, h⟩
  · omega

lemma Scan.append (h : Scan P lo mid xs) (h' : Scan P mid hi ys) (hlo : lo ≤ mid)
    (hhi : mid ≤ hi) : Scan P lo hi (xs ++ ys) := by
  refine ⟨pairwise_append.2 ⟨h.sorted, h'.sorted, fun x hx y hy => ?_⟩, fun i => ?_⟩
  · have hx := (h.mem x).1 hx
    have hy := (h'.mem y).1 hy
    omega
  · rw [mem_append, h.mem, h'.mem]
    constructor
    · rintro (⟨h1, h2, hp⟩ | ⟨h1, h2, hp⟩)
      · exact ⟨h1, by omega, hp⟩
      · exact ⟨by omega, h2, hp⟩
    · rintro ⟨h1, h2, hp⟩
      by_cases hmid : i < mid
      · exact .inl ⟨h1, hmid, hp⟩
      · exact .inr ⟨by omega, h2, hp⟩

lemma Scan.skip (h : Scan P mid hi xs) (hlo : lo ≤ mid) (hhi : mid ≤ hi)
    (hnone : ∀ i, lo ≤ i → i < mid → ¬ P i) : Scan P lo hi xs :=
  (scan_nil hnone).append h hlo hhi

lemma exists_scan (P : ℕ → Prop) (lo hi : ℕ) : ∃ xs, Scan P lo hi xs := by
  induction hi with
  | zero => exact ⟨[], scan_nil fun i _ hi => absurd hi (Nat.not_lt_zero i)⟩
  | succ hi ih =>
    obtain ⟨xs, hxs⟩ := ih
    by_cases hle : lo ≤ hi
    · by_cases hp : P hi
      · exact ⟨xs ++ [hi], hxs.append (scan_singleton hp) hle (le_succ hi)⟩
      · have hnil : Scan P hi (hi + 1) [] := scan_nil fun i hi hi' => by
          obtain rfl : i = _ := le_antisymm (Nat.lt_succ_iff.1 hi') hi
          exact hp
        exact ⟨xs ++ [], hxs.append hnil hle (le_succ hi)⟩
    · exact ⟨[], scan_nil fun i hi hi' => by omega⟩

lemma Scan.unique (h : Scan P lo hi xs) (h' : Scan P lo hi ys) : xs = ys := by
  have hnodup : ∀ {zs : List ℕ}, zs.Pairwise (· < ·) → zs.Nodup := fun hz => hz.imp (by omega)
  have hperm : xs.Perm ys := (perm_ext_iff_of_nodup (hnodup h.sorted) (hnodup h'.sorted)).2
    fun i => (h.mem i).trans (h'.mem i).symm
  exact hperm.eq_of_pairwise (fun a b _ _ hab hba => by omega) h.sorted h'.sorted

end BooxKernel.Scans
