import BooxKernel.PrioTree.Model

/-!
# The order and the paths of the tree

A node comes above another one when its heap index is larger, or when the two are equal
and its radix index is not larger. In a valid tree a node comes above all that is below
it, and the bit for its level tells on which side of it a node is.
-/
namespace BooxKernel.PrioTree
open List Nat

variable {α : Type*} {c : Config} {bits d : ℕ} {x y z : Node α c} {t left right : Tree α c}

/-- The indices of a node. -/
def Node.index (x : Node α c) : ℕ × ℕ := (x.radix, x.heap)

/-- The bit of a node that the level `d` of the tree looks at: those of the radix index
first, then those of the size. -/
def Node.bit (bits : ℕ) (x : Node α c) (d : ℕ) : Bool :=
  if d < bits then x.radix.testBit (bits - 1 - d)
  else x.size.testBit (c.bitsPerLong - 1 - (d - bits) % c.bitsPerLong)

def Above (x y : Node α c) : Prop := y.heap < x.heap ∨ y.heap = x.heap ∧ x.radix ≤ y.radix

lemma Above.refl (x : Node α c) : Above x x := Or.inr ⟨rfl, le_rfl⟩

lemma Above.trans (hxy : Above x y) (hyz : Above y z) : Above x z := by
  unfold Above at *
  omega

/-- The tree below a node at the level `d`, on the side `b`, is valid if `Valid` holds of
it. -/
def Valid (bits : ℕ) : ℕ → Tree α c → Prop
  | _, .nil => True
  | d, .node x left right =>
    ((∀ y ∈ left.nodes, Above x y ∧ y.bit bits d = false) ∧ Valid bits (d + 1) left) ∧
    ((∀ y ∈ right.nodes, Above x y ∧ y.bit bits d = true) ∧ Valid bits (d + 1) right)

/-- One side of a node. -/
def Branch (bits d : ℕ) (x : Node α c) (b : Bool) (t : Tree α c) : Prop :=
  (∀ y ∈ t.nodes, Above x y ∧ y.bit bits d = b) ∧ Valid bits (d + 1) t

lemma valid_node_iff : Valid bits d (.node x left right) ↔
    Branch bits d x false left ∧ Branch bits d x true right := Iff.rfl

lemma branch_nil (b : Bool) : Branch bits d x b .nil :=
  ⟨fun _ hy => absurd hy not_mem_nil, trivial⟩

lemma Branch.raise {b : Bool} (h : Branch bits d x b t) (hz : Above z x) :
    Branch bits d z b t := ⟨fun y hy => ⟨hz.trans (h.1 y hy).1, (h.1 y hy).2⟩, h.2⟩

lemma mem_nodes_node : y ∈ (Tree.node x left right).nodes ↔
    y = x ∨ y ∈ left.nodes ∨ y ∈ right.nodes := by
  simp [Tree.nodes]

lemma mem_nodes_self : x ∈ (Tree.node x left right).nodes := mem_nodes_node.2 (.inl rfl)

lemma mem_nodes_left (hy : y ∈ left.nodes) : y ∈ (Tree.node x left right).nodes :=
  mem_nodes_node.2 (.inr (.inl hy))

lemma mem_nodes_right (hy : y ∈ right.nodes) : y ∈ (Tree.node x left right).nodes :=
  mem_nodes_node.2 (.inr (.inr hy))

lemma root_mem_nodes (h : t.root? = some x) : x ∈ t.nodes := by
  cases t with
  | nil => cases h
  | node cur left right =>
    obtain rfl := Option.some.inj h
    exact mem_cons_self

lemma root_eq_none (h : t.root? = none) : t = .nil := by
  cases t with
  | nil => rfl
  | node cur left right => cases h

lemma Valid.above_root (h : Valid bits d t) (hx : t.root? = some x) (hy : y ∈ t.nodes) :
    Above x y := by
  cases t with
  | nil => cases hx
  | node cur left right =>
    obtain rfl := Option.some.inj hx
    rcases mem_nodes_node.1 hy with rfl | hl | hr
    · exact Above.refl y
    · exact (h.1.1 y hl).1
    · exact (h.2.1 y hr).1

lemma pull_cases (z : Node α c) (left right : Tree α c) :
    (left = .nil ∧ right = .nil ∧ pull (.node z left right) = .nil) ∨
    (∃ x, left.root? = some x ∧ (∀ y, right.root? = some y → y.heap ≤ x.heap) ∧
      pull (.node z left right) = .node x (pull left) right) ∨
    (∃ y, right.root? = some y ∧ (∀ x, left.root? = some x → x.heap < y.heap) ∧
      pull (.node z left right) = .node y left (pull right)) := by
  rw [pull]
  cases hl : left.root? with
  | none =>
    cases hr : right.root? with
    | none => exact .inl ⟨root_eq_none hl, root_eq_none hr, rfl⟩
    | some y => exact .inr (.inr ⟨y, rfl, fun x hx => (Option.some_ne_none x hx.symm).elim, rfl⟩)
  | some x =>
    cases hr : right.root? with
    | none => exact .inr (.inl ⟨x, rfl, fun y hy => (Option.some_ne_none y hy.symm).elim, rfl⟩)
    | some y =>
      by_cases hle : y.heap ≤ x.heap
      · refine .inr (.inl ⟨x, rfl, fun y' hy' => ?_, if_pos hle⟩)
        exact Option.some.inj hy' ▸ hle
      · refine .inr (.inr ⟨y, rfl, fun x' hx' => ?_, if_neg hle⟩)
        exact Option.some.inj hx' ▸ not_le.1 hle

lemma nodes_pull (h : t.root? = some x) : t.nodes.Perm (x :: (pull t).nodes) := by
  induction t generalizing x with
  | nil => cases h
  | node z left right ihl ihr =>
    obtain rfl := Option.some.inj h
    apply List.Perm.cons
    rcases pull_cases z left right with ⟨rfl, rfl, hpull⟩ | ⟨x, hx, -, hpull⟩ | ⟨y, hy, -, hpull⟩
    · exact List.Perm.refl _
    · rw [hpull]
      exact (ihl hx).append_right right.nodes
    · rw [hpull]
      exact ((ihr hy).append_left left.nodes).trans perm_middle

lemma mem_nodes_pull (h : y ∈ (pull t).nodes) : y ∈ t.nodes := by
  cases t with
  | nil => exact h
  | node x left right =>
    have hperm := nodes_pull (t := .node x left right) (x := x) rfl
    exact hperm.mem_iff.2 (mem_cons_of_mem _ h)

/-- The nodes are on one path down to the level `d`. -/
def Shared (bits d : ℕ) (t : Tree α c) : Prop :=
  ∀ y ∈ t.nodes, ∀ y' ∈ t.nodes, ∀ i < d, y.bit bits i = y'.bit bits i

/-- The heap indices have at most that many bits. -/
def Small (bits : ℕ) (t : Tree α c) : Prop := ∀ y ∈ t.nodes, y.heap < 2 ^ bits

lemma Shared.below {b : Bool} (h : Shared bits d t) (hbranch : Branch bits d z b left)
    (hsub : ∀ y ∈ left.nodes, y ∈ t.nodes) : Shared bits (d + 1) left := by
  intro y hy y' hy' i hi
  rcases Nat.lt_succ_iff_lt_or_eq.1 hi with hlt | rfl
  · exact h y (hsub y hy) y' (hsub y' hy') i hlt
  · rw [(hbranch.1 y hy).2, (hbranch.1 y' hy').2]

lemma testBit_of_bit (hx : x.heap < 2 ^ bits) (hy : y.heap < 2 ^ bits) {i : ℕ}
    (h : i < bits → x.bit bits (bits - 1 - i) = y.bit bits (bits - 1 - i)) :
    x.radix.testBit i = y.radix.testBit i := by
  by_cases hi : i < bits
  · have hbit := h hi
    simp only [Node.bit, if_pos (show bits - 1 - i < bits by omega),
      show bits - 1 - (bits - 1 - i) = i by omega] at hbit
    exact hbit
  · have hpow := Nat.pow_le_pow_right (show 0 < 2 by decide) (not_lt.1 hi)
    rw [testBit_lt_two_pow (lt_of_le_of_lt x.radix_le (lt_of_lt_of_le hx hpow)),
      testBit_lt_two_pow (lt_of_le_of_lt y.radix_le (lt_of_lt_of_le hy hpow))]

lemma radix_le_of_sides (hx : x.heap < 2 ^ bits) (hy : y.heap < 2 ^ bits)
    (hpath : ∀ i < d, x.bit bits i = y.bit bits i) (hleft : x.bit bits d = false)
    (hright : y.bit bits d = true) : x.radix ≤ y.radix := by
  by_cases hd : d < bits
  · simp only [Node.bit, if_pos hd] at hleft hright
    apply (lt_of_testBit (bits - 1 - d) hleft hright _).le
    intro j hj
    exact testBit_of_bit hx hy fun hlt => hpath _ (by omega)
  · apply le_of_eq
    apply eq_of_testBit_eq
    intro j
    exact testBit_of_bit hx hy fun hlt => hpath _ (by omega)

lemma Branch.pull {b : Bool} (h : Branch bits d z b t) (hx : t.root? = some x)
    (hvalid : Valid bits (d + 1) (pull t)) : Branch bits d x b (PrioTree.pull t) :=
  ⟨fun y hy => ⟨h.2.above_root hx (mem_nodes_pull hy), (h.1 y (mem_nodes_pull hy)).2⟩, hvalid⟩

lemma Branch.beside {b : Bool} (h : Branch bits d z b t)
    (habove : ∀ y, t.root? = some y → Above x y) : Branch bits d x b t := by
  refine ⟨fun y hy => ⟨?_, (h.1 y hy).2⟩, h.2⟩
  cases hroot : t.root? with
  | none =>
    rw [root_eq_none hroot] at hy
    exact absurd hy not_mem_nil
  | some r => exact (habove r hroot).trans (h.2.above_root hroot hy)

/-- Pulling a tree up keeps it valid. With equal heap indices the left child goes up, and
its radix index is not the larger one. -/
lemma Valid.pull (h : Valid bits d t) (hshared : Shared bits d t) (hsmall : Small bits t) :
    Valid bits d (pull t) := by
  induction t generalizing d with
  | nil => exact h
  | node z left right ihl ihr =>
    obtain ⟨hl, hr⟩ := valid_node_iff.1 h
    have hleft := ihl hl.2 (hshared.below hl fun _ => mem_nodes_left) fun y hy => hsmall y
      (mem_nodes_left hy)
    have hright := ihr hr.2 (hshared.below hr fun _ => mem_nodes_right) fun y hy => hsmall y
      (mem_nodes_right hy)
    rcases pull_cases z left right with ⟨-, -, hpull⟩ | ⟨x, hx, hle, hpull⟩ | ⟨y, hy, hlt, hpull⟩
    · rw [hpull]
      trivial
    · rw [hpull]
      refine valid_node_iff.2 ⟨hl.pull hx hleft, hr.beside fun y hy => ?_⟩
      have hxin := root_mem_nodes hx
      have hyin := root_mem_nodes hy
      have hradix := radix_le_of_sides (hsmall x (mem_nodes_left hxin)) (hsmall y (mem_nodes_right hyin))
        (hshared x (mem_nodes_left hxin) y (mem_nodes_right hyin)) (hl.1 x hxin).2 (hr.1 y hyin).2
      exact (hle y hy).lt_or_eq.imp_right fun heq => ⟨heq, hradix⟩
    · rw [hpull]
      exact valid_node_iff.2 ⟨hl.beside fun x hx => .inl (hlt x hx), hr.pull hy hright⟩

section Modify
variable [DecidableEq α] {a : α} {f : Tree α c → Tree α c}

lemma modify_of_not_mem (f : Tree α c → Tree α c) (h : ∀ y ∈ t.nodes, y.addr ≠ a) :
    t.modify f a = t := by
  induction t with
  | nil => rfl
  | node z left right ihl ihr =>
    rw [Tree.modify, if_neg (h z mem_nodes_self),
      ihl fun y hy => h y (mem_nodes_left hy),
      ihr fun y hy => h y (mem_nodes_right hy)]

omit [DecidableEq α] in
lemma addr_nodup_node (h : ((Tree.node z left right).nodes.map Node.addr).Nodup) :
    (∀ y ∈ left.nodes, y.addr ≠ z.addr) ∧ (∀ y ∈ right.nodes, y.addr ≠ z.addr) ∧
      (left.nodes.map Node.addr).Nodup ∧ (right.nodes.map Node.addr).Nodup ∧
      ∀ y ∈ left.nodes, ∀ y' ∈ right.nodes, y.addr ≠ y'.addr := by
  simp only [Tree.nodes, map_cons, map_append, nodup_cons, nodup_append,
    mem_append, mem_map, not_or, not_exists, not_and] at h
  obtain ⟨⟨hl, hr⟩, hnl, hnr, hlr⟩ := h
  exact ⟨hl, hr, hnl, hnr, fun y hy y' hy' => hlr _ ⟨y, hy, rfl⟩ _ ⟨y', hy', rfl⟩⟩

lemma nodes_modify (f : Tree α c → Tree α c) (out : List (Node α c))
    (hf : ∀ left right, (f (.node x left right)).nodes.Perm (out ++ (left.nodes ++ right.nodes)))
    (h : (t.nodes.map Node.addr).Nodup) (hx : x ∈ t.nodes) :
    ∃ rest, t.nodes.Perm (x :: rest) ∧ (t.modify f x.addr).nodes.Perm (out ++ rest) := by
  induction t with
  | nil => exact absurd hx not_mem_nil
  | node z left right ihl ihr =>
    obtain ⟨hzl, hzr, hnl, hnr, hlr⟩ := addr_nodup_node h
    rw [Tree.modify]
    rcases mem_nodes_node.1 hx with rfl | hx | hx
    · rw [if_pos rfl]
      exact ⟨_, List.Perm.refl _, hf left right⟩
    · rw [if_neg (hzl x hx).symm, modify_of_not_mem f fun y hy => (hlr x hx y hy).symm]
      obtain ⟨rest, hold, hnew⟩ := ihl hnl hx
      refine ⟨z :: (rest ++ right.nodes), ?_, ?_⟩
      · exact ((hold.append_right right.nodes).cons z).trans (List.Perm.swap x z _)
      · have := (hnew.append_right right.nodes).cons z
        rw [append_assoc] at this
        exact this.trans perm_middle.symm
    · rw [if_neg (hzr x hx).symm, modify_of_not_mem f fun y hy => hlr y hy x hx]
      obtain ⟨rest, hold, hnew⟩ := ihr hnr hx
      refine ⟨z :: (left.nodes ++ rest), ?_, ?_⟩
      · have := ((hold.append_left left.nodes).trans perm_middle).cons z
        exact this.trans (List.Perm.swap x z _)
      · have := ((hnew.append_left left.nodes).trans (perm_append_comm_assoc _ _ _)).cons z
        exact this.trans perm_middle.symm

/-- What a change at a node has to do for `Valid.modify`: it keeps the subtree valid and
brings in no new indices. -/
structure Keeps (bits : ℕ) (x : Node α c) (f : Tree α c → Tree α c) : Prop where
  valid : ∀ d left right, Valid bits d (.node x left right) → Shared bits d (.node x left right) →
    Small bits (.node x left right) → Valid bits d (f (.node x left right))
  index : ∀ left right, ∀ y ∈ (f (.node x left right)).nodes,
    ∃ y' ∈ (Tree.node x left right).nodes, y.index = y'.index

omit [DecidableEq α] in
lemma bit_eq_of_index (h : x.index = y.index) : x.bit bits d = y.bit bits d := by
  obtain ⟨hradix, hheap⟩ := Prod.mk.inj h
  simp only [Node.bit, Node.size, hradix, hheap]

omit [DecidableEq α] in
lemma above_of_index (h : x.index = y.index) : Above z x ↔ Above z y := by
  obtain ⟨hradix, hheap⟩ := Prod.mk.inj h
  simp only [Above, hradix, hheap]

lemma Keeps.index_modify (hf : Keeps bits x f) (h : (t.nodes.map Node.addr).Nodup)
    (hx : x ∈ t.nodes) (hy : y ∈ (t.modify f x.addr).nodes) :
    ∃ y' ∈ t.nodes, y.index = y'.index := by
  induction t with
  | nil => exact absurd hx not_mem_nil
  | node z left right ihl ihr =>
    obtain ⟨hzl, hzr, hnl, hnr, hlr⟩ := addr_nodup_node h
    rw [Tree.modify] at hy
    rcases mem_nodes_node.1 hx with rfl | hx | hx
    · rw [if_pos rfl] at hy
      exact hf.index left right y hy
    · rw [if_neg (hzl x hx).symm, modify_of_not_mem f fun y hy => (hlr x hx y hy).symm] at hy
      rcases mem_nodes_node.1 hy with rfl | hy | hy
      · exact ⟨y, mem_nodes_self, rfl⟩
      · obtain ⟨y', hy', heq⟩ := ihl hnl hx hy
        exact ⟨y', mem_nodes_left hy', heq⟩
      · exact ⟨y, mem_nodes_right hy, rfl⟩
    · rw [if_neg (hzr x hx).symm, modify_of_not_mem f fun y hy => hlr y hy x hx] at hy
      rcases mem_nodes_node.1 hy with rfl | hy | hy
      · exact ⟨y, mem_nodes_self, rfl⟩
      · exact ⟨y, mem_nodes_left hy, rfl⟩
      · obtain ⟨y', hy', heq⟩ := ihr hnr hx hy
        exact ⟨y', mem_nodes_right hy', heq⟩

lemma Branch.modify {b : Bool} (h : Branch bits d z b t) (hf : Keeps bits x f)
    (hnodup : (t.nodes.map Node.addr).Nodup) (hx : x ∈ t.nodes)
    (hvalid : Valid bits (d + 1) (t.modify f x.addr)) : Branch bits d z b (t.modify f x.addr) := by
  refine ⟨fun y hy => ?_, hvalid⟩
  obtain ⟨y', hy', heq⟩ := hf.index_modify hnodup hx hy
  rw [above_of_index heq, bit_eq_of_index heq]
  exact h.1 y' hy'

lemma Valid.modify (h : Valid bits d t) (hf : Keeps bits x f) (hshared : Shared bits d t)
    (hsmall : Small bits t) (hnodup : (t.nodes.map Node.addr).Nodup) (hx : x ∈ t.nodes)
    : Valid bits d (t.modify f x.addr) := by
  induction t generalizing d with
  | nil => exact h
  | node z left right ihl ihr =>
    obtain ⟨hzl, hzr, hnl, hnr, hlr⟩ := addr_nodup_node hnodup
    obtain ⟨hl, hr⟩ := valid_node_iff.1 h
    rw [Tree.modify]
    rcases mem_nodes_node.1 hx with rfl | hx | hx
    · rw [if_pos rfl]
      exact hf.valid d left right h hshared hsmall
    · rw [if_neg (hzl x hx).symm, modify_of_not_mem f fun y hy => (hlr x hx y hy).symm]
      have hleft := ihl hl.2 (hshared.below hl fun _ => mem_nodes_left)
        (fun y hy => hsmall y (mem_nodes_left hy)) hnl hx
      exact valid_node_iff.2 ⟨hl.modify hf hnl hx hleft, hr⟩
    · rw [if_neg (hzr x hx).symm, modify_of_not_mem f fun y hy => hlr y hy x hx]
      have hright := ihr hr.2 (hshared.below hr fun _ => mem_nodes_right)
        (fun y hy => hsmall y (mem_nodes_right hy)) hnr hx
      exact valid_node_iff.2 ⟨hl, hr.modify hf hnr hx hright⟩

omit [DecidableEq α] in
lemma keeps_pull (x : Node α c) : Keeps bits x pull :=
  ⟨fun _ _ _ h hshared hsmall => h.pull hshared hsmall, fun _ _ y hy => ⟨y, mem_nodes_pull hy, rfl⟩⟩

omit [DecidableEq α] in
lemma keeps_replaceRoot (h : y.index = x.index) : Keeps bits x (replaceRoot y) where
  valid d left right hvalid _ _ := by
    obtain ⟨hl, hr⟩ := valid_node_iff.1 hvalid
    obtain ⟨hradix, hheap⟩ := Prod.mk.inj h
    have habove : Above y x := .inr ⟨hheap.symm, hradix.le⟩
    exact valid_node_iff.2 ⟨hl.raise habove, hr.raise habove⟩
  index left right z hz := by
    rcases mem_nodes_node.1 hz with rfl | hz | hz
    · exact ⟨x, mem_nodes_self, h⟩
    · exact ⟨z, mem_nodes_left hz, rfl⟩
    · exact ⟨z, mem_nodes_right hz, rfl⟩

end Modify

end BooxKernel.PrioTree
