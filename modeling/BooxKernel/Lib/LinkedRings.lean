import Mathlib.Data.List.Cycle

/-!
# Rings of linked nodes

Nodes with links in both directions. A ring goes through some of them, and each of the others is
linked to itself.
-/
namespace BooxKernel.LinkedRings
open Function List Cycle

structure Links (P : Type*) where
  next : P → P
  prev : P → P

namespace Links
variable {P : Type*} [DecidableEq P]

/-- `b` becomes the node behind `a`. -/
def join (l : Links P) (a b : P) : Links P := ⟨update l.next a b, update l.prev b a⟩

/-- `x` is put in front of `y`. -/
def insertBefore (l : Links P) (x y : P) : Links P := (l.join x y).join (l.prev y) x

/-- The neighbours of `x` are joined. -/
def unlink (l : Links P) (x : P) : Links P := l.join (l.prev x) (l.next x)

/-- `b` is the node behind `a`. -/
def Joins (l : Links P) (a b : P) : Prop := l.next a = b ∧ l.prev b = a

/-- The nodes of `c` are a ring, the others are alone. -/
structure Ring (l : Links P) (c : Cycle P) : Prop where
  nodup : c.Nodup
  joins : c.Chain l.Joins
  alone : ∀ x ∉ c, l.Joins x x

variable {l : Links P} {a b c d x y : P} {ws zs : List P}

lemma joins_join (l : Links P) (a b : P) : (l.join a b).Joins a b :=
  ⟨update_self .., update_self ..⟩

lemma Joins.join (h : l.Joins c d) (hc : c ≠ a) (hd : d ≠ b) : (l.join a b).Joins c d :=
  ⟨(update_of_ne hc ..).trans h.1, (update_of_ne hd ..).trans h.2⟩

lemma isChain_join (h : zs.IsChain l.Joins) (ha : a ∉ zs.dropLast) (hb : b ∉ zs.tail) :
    zs.IsChain (l.join a b).Joins := by
  induction zs with
  | nil => exact .nil
  | cons c zs ih =>
    cases zs with
    | nil => exact .singleton c
    | cons d zs =>
      rw [dropLast_cons_cons, mem_cons, not_or] at ha
      rw [tail_cons, mem_cons, not_or] at hb
      obtain ⟨hcd, hzs⟩ := isChain_cons_cons.1 h
      exact isChain_cons_cons.2 ⟨hcd.join (Ne.symm ha.1) (Ne.symm hb.1), ih hzs ha.2 hb.2⟩

omit [DecidableEq P] in
lemma exists_last (h : (y :: zs).Nodup) : ∃ p ∈ y :: zs, p ∉ (y :: zs).dropLast ∧
    ∀ (R : P → P → Prop) x, IsChain R (y :: (zs ++ [x])) ↔ IsChain R (y :: zs) ∧ R p x := by
  have hsplit := dropLast_append_getLast (cons_ne_nil y zs)
  refine ⟨_, getLast_mem (cons_ne_nil y zs), fun hmem => ?_, fun R x => ?_⟩
  · rw [← hsplit, nodup_append] at h
    exact h.2.2 _ hmem _ (mem_singleton_self _) rfl
  · rw [← cons_append, isChain_append, getLast?_eq_some_getLast (cons_ne_nil y zs)]
    simp

omit [DecidableEq P] in
lemma Ring.next_eq (h : l.Ring ↑(x :: y :: zs)) : l.next x = y :=
  (isChain_cons_cons.1 ((chain_coe_cons _ _ _).1 h.joins)).1.1

lemma unlink_of_joins (h : l.Joins x x) : l.unlink x = l := by
  rw [unlink, join, h.1, h.2]
  congr
  · exact update_eq_self_iff.2 h.1.symm
  · exact update_eq_self_iff.2 h.2.symm

lemma join_self_insertBefore (hne : y ≠ x) :
    (l.join x x).insertBefore x y = l.insertBefore x y := by
  have hprev : (l.join x x).prev y = l.prev y := update_of_ne hne ..
  rw [insertBefore, hprev, insertBefore]
  simp only [join, update_idem, update_comm hne]

lemma Ring.insertBefore (h : l.Ring ↑(y :: zs)) (hx : x ∉ y :: zs) :
    (l.insertBefore x y).Ring ↑(y :: (zs ++ [x])) := by
  have hnd := nodup_coe_iff.1 h.nodup
  obtain ⟨p, hp, hp', hconcat⟩ := exists_last hnd
  obtain ⟨hys, hlast⟩ := (hconcat _ y).1 ((chain_coe_cons _ _ _).1 h.joins)
  rw [Links.insertBefore, hlast.2]
  refine ⟨nodup_coe_iff.2 ?_, (chain_coe_cons _ _ _).2 ?_, fun z hz => ?_⟩
  · exact (perm_append_singleton x (y :: zs)).nodup_iff.2 (nodup_cons.2 ⟨hx, hnd⟩)
  · rw [append_assoc, singleton_append, ← cons_append, isChain_append_cons_cons, cons_append,
      hconcat]
    refine ⟨⟨isChain_join (isChain_join hys ?_ (nodup_cons.1 hnd).1) hp' ?_, joins_join ..⟩,
      (joins_join ..).join ?_ ?_, .singleton y⟩
    · exact fun hmem => hx (dropLast_subset _ hmem)
    · exact fun hmem => hx (mem_cons_of_mem y hmem)
    · exact fun heq => hx (heq ▸ hp)
    · exact fun heq => hx (by simp [heq])
  · rw [mem_coe_iff, ← cons_append, mem_append, not_or, mem_singleton] at hz
    exact ((h.alone z hz.1).join hz.2 fun heq => hz.1 (by simp [heq])).join
      (fun heq => hz.1 (heq ▸ hp)) hz.2

lemma Ring.remove (h : l.Ring ↑(x :: zs)) (hzs : zs ≠ []) : ((l.unlink x).join x x).Ring ↑zs := by
  obtain ⟨y, zs, rfl⟩ := exists_cons_of_ne_nil hzs
  obtain ⟨hx, hnd⟩ := nodup_cons.1 (nodup_coe_iff.1 h.nodup)
  obtain ⟨hxy, hchain⟩ := isChain_cons_cons.1 ((chain_coe_cons _ _ _).1 h.joins)
  obtain ⟨p, hp, hp', hconcat⟩ := exists_last hnd
  obtain ⟨hys, hlast⟩ := (hconcat _ x).1 hchain
  rw [unlink, hlast.2, hxy.1]
  refine ⟨nodup_coe_iff.2 hnd, (chain_coe_cons _ _ _).2 ?_, fun z hz => ?_⟩
  · refine (hconcat _ y).2 ⟨isChain_join (isChain_join hys hp' (nodup_cons.1 hnd).1)
      (fun hmem => hx (dropLast_subset _ hmem)) fun hmem => hx (mem_cons_of_mem y hmem), ?_⟩
    exact (joins_join ..).join (fun heq => hx (heq ▸ hp)) fun heq => hx (by simp [heq])
  · by_cases hzx : z = x
    · rw [hzx]
      exact joins_join ..
    · exact ((h.alone z (by simpa [hzx] using hz)).join (fun heq => hz (heq ▸ hp))
        fun heq => hz (by simp [heq])).join hzx hzx

lemma Ring.move (h : l.Ring ↑(x :: zs)) (hzs : (zs : Cycle P) = ↑(y :: ws)) :
    ((l.unlink x).insertBefore x y).Ring ↑(y :: (ws ++ [x])) := by
  have hrot := coe_eq_coe.1 hzs
  have hx : x ∉ y :: ws := fun hmem =>
    (nodup_cons.1 (nodup_coe_iff.1 h.nodup)).1 (hrot.mem_iff.2 hmem)
  rw [← join_self_insertBefore fun heq : y = x => hx (by simp [heq])]
  exact (hzs ▸ h.remove fun hnil => absurd hrot.perm.length_eq (by simp [hnil])).insertBefore hx

end Links

end BooxKernel.LinkedRings
