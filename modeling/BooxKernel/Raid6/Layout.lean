import BooxKernel.Raid6.Model

/-!
# The order of the disks of a stripe

From `d0_idx` on, the disks of a stripe are the data disks, the disk of P and the disk of Q.
The loops that build a table of pointers list the pages in this order, and `compute_block_2`
computes the places of two disks in it.
-/
namespace BooxKernel.Raid6

open Loops Finset Nat

lemma raid6NextDisk_eq {i disks : ℕ} (hi : i < disks) :
    raid6NextDisk i disks = (i + 1) % disks := by
  unfold raid6NextDisk
  split_ifs with h
  · rw [mod_eq_of_lt h]
  · rw [show i + 1 = disks by omega, mod_self]

namespace StripeHead
variable (sh : StripeHead)

/-- The disk at a place of the order. -/
def disk (k : ℕ) : ℕ := (sh.d0Idx + k) % sh.disks

lemma disk_inj {sh : StripeHead} {k l : ℕ} (hk : k < sh.disks) (hl : l < sh.disks)
    (heq : sh.disk k = sh.disk l) : k = l := by
  have hcancel : k ≡ l [MOD sh.disks] := Nat.ModEq.add_left_cancel' sh.d0Idx heq
  rwa [Nat.ModEq, mod_eq_of_lt hk, mod_eq_of_lt hl] at hcancel

/-- The disks are numbered, and P is on one of them. -/
structure Wf : Prop where
  few : 4 ≤ sh.disks
  many : sh.disks ≤ 257
  pd : sh.pdIdx < sh.disks

variable {sh} (h : sh.Wf)
include h

lemma Wf.qdIdx_eq : sh.qdIdx = (sh.pdIdx + 1) % sh.disks := raid6NextDisk_eq h.pd

lemma Wf.d0Idx_eq : sh.d0Idx = (sh.pdIdx + 2) % sh.disks := by
  have hpos := h.few
  rw [d0Idx, raid6NextDisk_eq, h.qdIdx_eq, mod_add_mod]
  rw [h.qdIdx_eq]
  exact mod_lt _ (by omega)

lemma Wf.disk_eq (k : ℕ) : sh.disk k = (sh.pdIdx + 2 + k) % sh.disks := by
  rw [disk, h.d0Idx_eq, mod_add_mod]

lemma Wf.disk_lt (k : ℕ) : sh.disk k < sh.disks := by
  have := h.few
  exact mod_lt _ (by omega)

lemma Wf.disk_p : sh.disk (sh.disks - 2) = sh.pdIdx := by
  have := h.few
  rw [h.disk_eq, show sh.pdIdx + 2 + (sh.disks - 2) = sh.pdIdx + sh.disks by omega,
    add_mod_right, mod_eq_of_lt h.pd]

lemma Wf.disk_q : sh.disk (sh.disks - 1) = sh.qdIdx := by
  have := h.few
  rw [h.disk_eq, show sh.pdIdx + 2 + (sh.disks - 1) = sh.pdIdx + 1 + sh.disks by omega,
    add_mod_right, h.qdIdx_eq]

lemma Wf.d0Idx_lt : sh.d0Idx < sh.disks := by
  have := h.few
  rw [h.d0Idx_eq]
  exact mod_lt _ (by omega)

lemma Wf.disk_relative {i : ℕ} (hi : i < sh.disks) :
    sh.relative i < sh.disks ∧ sh.disk (sh.relative i) = i := by
  have hd0 := h.d0Idx_lt
  unfold relative disk
  split_ifs with hlt
  · refine ⟨by omega, ?_⟩
    rw [show sh.d0Idx + (i + (sh.disks - sh.d0Idx)) = i + sh.disks by omega, add_mod_right,
      mod_eq_of_lt hi]
  · refine ⟨by omega, ?_⟩
    rw [Nat.add_sub_cancel' (not_lt.1 hlt), mod_eq_of_lt hi]

lemma Wf.tableLoop {count : ℕ} (hcount : count < sh.disks) (ptrs : ℕ → Addr)
    (hptrs : ∀ k < count, ptrs k = .page (sh.disk k)) :
    ∃ ptrs', loop sh.tableRound (sh.disk count, count, ptrs) = some ptrs' ∧
      ∀ k < sh.disks, ptrs' k = .page (sh.disk k) := by
  induction hn : sh.disks - count generalizing count ptrs with
  | zero => omega
  | succ n ih =>
    have hnext : raid6NextDisk (sh.disk count) sh.disks = sh.disk (count + 1) := by
      rw [raid6NextDisk_eq (h.disk_lt count), disk, disk, mod_add_mod, add_assoc]
    have hptrs' : ∀ k < count + 1,
        Function.update ptrs count (.page (sh.disk count)) k = .page (sh.disk k) := by
      intro k hk
      rw [Function.update_apply]
      split_ifs with hkc
      · rw [hkc]
      · exact hptrs k (by omega)
    have hzero : sh.disk 0 = sh.d0Idx := by
      rw [disk, add_zero, mod_eq_of_lt h.d0Idx_lt]
    rw [loop_eq, tableRound, hnext]
    by_cases hlast : count + 1 = sh.disks
    · have hback : sh.disk (count + 1) = sh.d0Idx := by
        rw [hlast, disk, add_mod_right, mod_eq_of_lt h.d0Idx_lt]
      rw [if_neg (not_not.2 hback)]
      exact ⟨_, rfl, fun k hk => hptrs' k (by omega)⟩
    · have hgo : sh.disk (count + 1) ≠ sh.d0Idx := by
        rw [← hzero]
        exact fun heq => absurd (disk_inj (by omega) (by omega) heq) (by omega)
      rw [if_pos hgo]
      exact ih (by omega) _ hptrs' (by omega)

lemma Wf.pointerTable_eq (stack : ℕ → Addr) :
    ∃ ptrs, sh.pointerTable stack = some ptrs ∧ ∀ k < sh.disks, ptrs k = .page (sh.disk k) := by
  have hfew := h.few
  have hzero : sh.disk 0 = sh.d0Idx := by
    rw [disk, add_zero, mod_eq_of_lt h.d0Idx_lt]
  rw [pointerTable, ← hzero]
  exact h.tableLoop (by omega) stack fun k hk => absurd hk (not_lt_zero k)

lemma Wf.sum_disk {M : Type*} [AddCommMonoid M] (f : ℕ → M) :
    ∑ k ∈ range sh.disks, f (sh.disk k) = ∑ i ∈ range sh.disks, f i := by
  refine sum_bij (fun k _ => sh.disk k) ?_ ?_ ?_ fun _ _ => rfl
  · exact fun k _ => mem_range.2 (h.disk_lt k)
  · exact fun k hk l hl => disk_inj (mem_range.1 hk) (mem_range.1 hl)
  · intro i hi
    obtain ⟨hlt, heq⟩ := h.disk_relative (mem_range.1 hi)
    exact ⟨sh.relative i, mem_range.2 hlt, heq⟩

end StripeHead

end BooxKernel.Raid6
