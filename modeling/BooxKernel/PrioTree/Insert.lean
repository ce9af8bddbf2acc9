import BooxKernel.PrioTree.Invariant

/-!
# Insertion

The node that is carried down swaps with a node that it comes above, and goes on with
that one. A node with the indices of the new one stands on the path of the new node, and
below nothing that the new node comes above, so it is met before any swap.
-/
namespace BooxKernel.PrioTree
open List Nat

variable {α : Type*} {c : Config} {bits d : ℕ} {x y z new : Node α c} {t left right : Tree α c}

/-- The number of the bit that the level `d` looks at. -/
def bitNumber (c : Config) (bits d : ℕ) : ℕ :=
  if d < bits then bits - 1 - d else c.bitsPerLong - 1 - (d - bits) % c.bitsPerLong

lemma add_one_mod {n w : ℕ} (hw : 0 < w) :
    (n + 1) % w = if n % w = w - 1 then 0 else n % w + 1 := by
  have hlt := mod_lt n hw
  have hn := div_add_mod n w
  split_ifs with hlast
  · have : n + 1 = w * (n / w + 1) := by
      rw [mul_add]
      omega
    rw [this, mul_mod_right]
  · have : n + 1 = w * (n / w) + (n % w + 1) := by omega
    rw [this, mul_add_mod, mod_eq_of_lt (by omega)]

lemma bitNumber_succ (c : Config) (bits d : ℕ) :
    bitNumber c bits (d + 1) =
        (if bitNumber c bits d = 0 then c.bitsPerLong - 1 else bitNumber c bits d - 1) ∧
      (bits ≤ d + 1 ↔ bits ≤ d ∨ bitNumber c bits d = 0) := by
  have hpos := c.pos
  unfold bitNumber
  by_cases hd : d < bits
  · rw [if_pos hd]
    by_cases hlast : bits - 1 - d = 0
    · rw [if_pos hlast, if_neg (by omega), show d + 1 - bits = 0 by omega, zero_mod]
      omega
    · rw [if_neg hlast, if_pos (by omega)]
      omega
  · rw [show d + 1 - bits = d - bits + 1 by omega, add_one_mod hpos]
    have hlt := mod_lt (d - bits) hpos
    split_ifs <;> omega

lemma two_pow_shiftRight_one (k : ℕ) : 2 ^ k >>> 1 = if k = 0 then 0 else 2 ^ (k - 1) := by
  rw [shiftRight_eq_div_pow]
  cases k with
  | zero => rfl
  | succ k => simp [pow_succ]

lemma mask_succ (c : Config) (bits d : ℕ) :
    (if (2 ^ bitNumber c bits d >>> 1 == 0) = true then 2 ^ (c.bitsPerLong - 1)
      else 2 ^ bitNumber c bits d >>> 1) = 2 ^ bitNumber c bits (d + 1) ∧
    (decide (bits ≤ d) || 2 ^ bitNumber c bits d >>> 1 == 0) = decide (bits ≤ d + 1) := by
  obtain ⟨hnumber, hflag⟩ := bitNumber_succ c bits d
  rw [two_pow_shiftRight_one, hnumber]
  by_cases hlast : bitNumber c bits d = 0
  · simp [hlast, hflag]
  · simp [hlast, hflag]

lemma and_mask_ne_zero (bits d : ℕ) (x : Node α c) :
    (if decide (bits ≤ d) = true then x.heap - x.radix else x.radix) &&& 2 ^ bitNumber c bits d ≠ 0 ↔
      x.bit bits d = true := by
  have hand : ∀ n k, n &&& 2 ^ k ≠ 0 ↔ n.testBit k = true := by
    intro n k
    rw [and_two_pow]
    cases n.testBit k
    · simp
    · simp
  by_cases hd : d < bits
  · simp only [bitNumber, Node.bit, if_pos hd, hand, decide_eq_true_eq, if_neg (not_le.2 hd)]
  · simp only [bitNumber, Node.bit, if_neg hd, hand, decide_eq_true_eq, if_pos (not_lt.1 hd),
      Node.size]

section Loop
variable (res : α)

/-- The loop at the level `d`. -/
def insertAt (bits d : ℕ) (new : Node α c) (t : Tree α c) : Option α × Tree α c :=
  insertLoop res new (2 ^ bitNumber c bits d) (decide (bits ≤ d)) t

/-- The node that stays and the node that goes down. -/
def ordered (cur new : Node α c) : Node α c × Node α c :=
  if cur.heap < new.heap ∨ cur.heap = new.heap ∧ new.radix < cur.radix then (new, cur)
  else (cur, new)

/-- Going on with one side of a node. -/
def insertBelow (bits d : ℕ) (down : Node α c) (t : Tree α c) : Option α × Tree α c :=
  if t.isEmpty then (some res, .node down .nil .nil) else insertAt res bits d down t

lemma insertAt_node (hindex : x.index ≠ new.index) :
    insertAt res bits d new (.node x left right) =
      if (ordered x new).2.bit bits d = true then
        ((insertBelow res bits (d + 1) (ordered x new).2 right).1,
          .node (ordered x new).1 left (insertBelow res bits (d + 1) (ordered x new).2 right).2)
      else
        ((insertBelow res bits (d + 1) (ordered x new).2 left).1,
          .node (ordered x new).1 (insertBelow res bits (d + 1) (ordered x new).2 left).2 right) := by
  obtain ⟨hmask, hflag⟩ := mask_succ c bits d
  have hne : ¬ (x.radix = new.radix ∧ x.heap = new.heap) := fun h => hindex (Prod.ext h.1 h.2)
  have hpos : 2 ^ bitNumber c bits d ≠ 0 := by positivity
  rw [insertAt, insertLoop, if_neg hpos]
  simp only [hmask, hflag, insertBelow, insertAt, ordered]
  by_cases hswap : x.heap < new.heap ∨ x.heap = new.heap ∧ new.radix < x.radix
  · simp only [if_pos hswap, and_mask_ne_zero]
    split_ifs <;> rfl
  · simp only [if_neg hswap, and_mask_ne_zero]
    split_ifs <;> rfl

lemma ordered_above (x new : Node α c) :
    Above (ordered x new).1 (ordered x new).2 ∧ Above (ordered x new).1 x := by
  unfold ordered
  split_ifs with hswap
  · have habove : Above new x := hswap.imp_right fun h => ⟨h.1, h.2.le⟩
    exact ⟨habove, habove⟩
  · refine ⟨?_, Above.refl x⟩
    show new.heap < x.heap ∨ new.heap = x.heap ∧ x.radix ≤ new.radix
    omega

lemma Branch.grow {b : Bool} {t' : Tree α c} (h : Branch bits d x b t) (hnew : Above x new)
    (hbit : new.bit bits d = b) (hperm : t'.nodes.Perm (new :: t.nodes))
    (hvalid : Valid bits (d + 1) t') : Branch bits d x b t' := by
  refine ⟨fun y hy => ?_, hvalid⟩
  rcases mem_cons.1 (hperm.mem_iff.1 hy) with rfl | hy
  · exact ⟨hnew, hbit⟩
  · exact h.1 y hy

lemma isEmpty_iff : t.isEmpty = true ↔ t = .nil := by
  cases t with
  | nil => exact ⟨fun _ => rfl, fun _ => rfl⟩
  | node x left right => exact ⟨fun h => (Bool.false_ne_true h).elim, fun h => by cases h⟩

lemma insertBelow_of_mem (hy : y ∈ t.nodes) :
    insertBelow res bits d new t = insertAt res bits d new t := by
  apply if_neg
  intro hempty
  rw [isEmpty_iff.1 hempty] at hy
  exact not_mem_nil hy

lemma insertAt_found (h : Valid bits d t) (hy : y ∈ t.nodes) (hindex : y.index = new.index) :
    ∃ z ∈ t.nodes, z.index = new.index ∧ insertAt res bits d new t = (some z.addr, t) := by
  induction t generalizing d with
  | nil => exact absurd hy not_mem_nil
  | node x left right ihl ihr =>
    by_cases hx : x.index = new.index
    · obtain ⟨hradix, hheap⟩ := Prod.mk.inj hx
      have hpos : 2 ^ bitNumber c bits d ≠ 0 := by positivity
      refine ⟨x, mem_nodes_self, hx, ?_⟩
      rw [insertAt, insertLoop, if_neg hpos, if_pos ⟨hradix, hheap⟩]
    · obtain ⟨hl, hr⟩ := valid_node_iff.1 h
      have hkept : Above x y → ordered x new = (x, new) := by
        intro habove
        apply if_neg
        have habove : Above x new := (above_of_index hindex).1 habove
        unfold Above at habove
        omega
      rw [insertAt_node res hx]
      rcases mem_nodes_node.1 hy with rfl | hy | hy
      · exact absurd hindex hx
      · obtain ⟨habove, hbit⟩ := hl.1 y hy
        rw [bit_eq_of_index hindex] at hbit
        obtain ⟨z, hz, hzindex, hloop⟩ := ihl hl.2 hy
        simp only [hkept habove, insertBelow_of_mem res hy, hloop, hbit, Bool.false_eq_true, if_false]
        exact ⟨z, mem_nodes_left hz, hzindex, rfl⟩
      · obtain ⟨habove, hbit⟩ := hr.1 y hy
        rw [bit_eq_of_index hindex] at hbit
        obtain ⟨z, hz, hzindex, hloop⟩ := ihr hr.2 hy
        simp only [hkept habove, insertBelow_of_mem res hy, hloop, hbit, if_true]
        exact ⟨z, mem_nodes_right hz, hzindex, rfl⟩

lemma index_nodup_node (h : ((Tree.node z left right).nodes.map Node.index).Nodup) :
    (∀ y ∈ left.nodes, y.index ≠ z.index) ∧ (∀ y ∈ right.nodes, y.index ≠ z.index) ∧
      (left.nodes.map Node.index).Nodup ∧ (right.nodes.map Node.index).Nodup := by
  simp only [Tree.nodes, map_cons, map_append, nodup_cons, nodup_append,
    mem_append, mem_map, not_or, not_exists, not_and] at h
  obtain ⟨⟨hl, hr⟩, hnl, hnr, -⟩ := h
  exact ⟨hl, hr, hnl, hnr⟩

lemma index_ne_down (hx : y.index ≠ x.index) (hnew : y.index ≠ new.index) :
    y.index ≠ (ordered x new).2.index := by
  unfold ordered
  split_ifs
  · exact hx
  · exact hnew

lemma ordered_perm (x new : Node α c) : [(ordered x new).1, (ordered x new).2].Perm [new, x] := by
  unfold ordered
  split_ifs
  · exact List.Perm.refl _
  · exact List.Perm.swap _ _ _

/-- What `insertAt_stored` says of the tree that it is about. -/
def Stored (bits d : ℕ) (new : Node α c) (t : Tree α c) (r : Option α × Tree α c) : Prop :=
  r.1 = some res ∧ r.2.nodes.Perm (new :: t.nodes) ∧ Valid bits d r.2

lemma insertBelow_stored (h : Valid bits d t) (hnodup : (t.nodes.map Node.index).Nodup)
    (hnew : ∀ y ∈ t.nodes, y.index ≠ new.index) :
    Stored res bits d new t (insertBelow res bits d new t) := by
  induction t generalizing d new with
  | nil => exact ⟨rfl, List.Perm.refl _, valid_node_iff.2 ⟨branch_nil false, branch_nil true⟩⟩
  | node x left right ihl ihr =>
    obtain ⟨hl, hr⟩ := valid_node_iff.1 h
    obtain ⟨hxl, hxr, hnl, hnr⟩ := index_nodup_node hnodup
    obtain ⟨hdown, htop⟩ := ordered_above x new
    have hperm := ordered_perm x new
    have hleft : ∀ d, Valid bits d left → Stored res bits d (ordered x new).2 left
        (insertBelow res bits d (ordered x new).2 left) := fun d hl => ihl hl hnl
      fun y hy => index_ne_down (hxl y hy) (hnew y (mem_nodes_left hy))
    have hright : ∀ d, Valid bits d right → Stored res bits d (ordered x new).2 right
        (insertBelow res bits d (ordered x new).2 right) := fun d hr => ihr hr hnr
      fun y hy => index_ne_down (hxr y hy) (hnew y (mem_nodes_right hy))
    show Stored res bits d new _ (insertAt res bits d new (.node x left right))
    rw [insertAt_node res (hnew x mem_nodes_self)]
    generalize ordered x new = r at hdown htop hperm hleft hright
    obtain ⟨top, down⟩ := r
    have hpair := hperm.append_right (left.nodes ++ right.nodes)
    split_ifs with hbit
    · obtain ⟨hres, hnodes, hvalid⟩ := hright (d + 1) hr.2
      refine ⟨hres, ?_, valid_node_iff.2 ⟨hl.raise htop, ?_⟩⟩
      · have hmoved := ((hnodes.append_left left.nodes).trans perm_middle).cons top
        exact hmoved.trans hpair
      · exact (hr.raise htop).grow hdown hbit hnodes hvalid
    · obtain ⟨hres, hnodes, hvalid⟩ := hleft (d + 1) hl.2
      refine ⟨hres, ?_, valid_node_iff.2 ⟨?_, hr.raise htop⟩⟩
      · exact ((hnodes.append_right right.nodes).cons top).trans hpair
      · exact (hl.raise htop).grow hdown (Bool.not_eq_true _ ▸ hbit) hnodes hvalid

end Loop

end BooxKernel.PrioTree
