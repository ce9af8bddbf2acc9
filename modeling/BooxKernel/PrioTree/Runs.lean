import BooxKernel.Lib.Runs
import BooxKernel.PrioTree.Insert

/-!
# Runs of the priority search tree

Growing the tree puts the nodes that are torn off the root into a chain of left children,
one for each new bit, since the new bits of the nodes that were there are 0.
-/
namespace BooxKernel.PrioTree
open Runs List Nat Node

variable {α : Type*} {c : Config} {bits d : ℕ} {x y z : Node α c} {t : Tree α c}
  {root root' : Root α c}

lemma shared_zero (bits : ℕ) (t : Tree α c) : Shared bits 0 t :=
  fun _ _ _ _ i hi => absurd hi (not_lt_zero i)

section Expand

lemma Valid.shift (h : Valid bits d t) (k : ℕ) : Valid (bits + k) (d + k) t := by
  have hbit : ∀ (y : Node α c) d, y.bit (bits + k) (d + k) = y.bit bits d := by
    intro y d
    simp only [Node.bit, add_lt_add_iff_right, show bits + k - 1 - (d + k) = bits - 1 - d by omega,
      Nat.add_sub_add_right]
  induction t generalizing d with
  | nil => trivial
  | node x left right ihl ihr =>
    obtain ⟨⟨hl, hvl⟩, hr, hvr⟩ := h
    have hsucc : d + k + 1 = d + 1 + k := by omega
    refine ⟨⟨fun y hy => ?_, hsucc ▸ ihl hvl⟩, fun y hy => ?_, hsucc ▸ ihr hvr⟩
    · exact (hbit y d).symm ▸ hl y hy
    · exact (hbit y d).symm ▸ hr y hy

variable {k i heap bits : ℕ}

lemma bit_eq_false (hy : y.heap < 2 ^ k) (hi : i + k < bits) : y.bit bits i = false := by
  rw [Node.bit, if_pos (by omega)]
  apply testBit_lt_two_pow
  calc y.radix ≤ y.heap := y.radix_le
    _ < 2 ^ k := hy
    _ ≤ 2 ^ (bits - 1 - i) := Nat.pow_le_pow_right (by decide) (by omega)

lemma nodes_chain (spine : List (Node α c)) (t : Tree α c) :
    (chain spine t).nodes = spine ++ t.nodes := by
  induction spine with
  | nil => rfl
  | cons x spine ih => rw [chain, Tree.nodes, ih, Tree.nodes, append_nil, cons_append]

variable {spine nodes : List (Node α c)}

lemma chain_valid (hspine : spine.Pairwise Above) (habove : ∀ x ∈ spine, ∀ y ∈ t.nodes, Above x y)
    (hbit : ∀ y ∈ spine ++ t.nodes, ∀ i < d + spine.length, y.bit bits i = false)
    (h : Valid bits (d + spine.length) t) : Valid bits d (chain spine t) := by
  induction spine generalizing d with
  | nil => exact h
  | cons x spine ih =>
    obtain ⟨hx, hspine⟩ := pairwise_cons.1 hspine
    have hlength : d + (x :: spine).length = d + 1 + spine.length := by
      rw [length_cons]
      omega
    rw [hlength] at hbit h
    refine valid_node_iff.2 ⟨⟨fun y hy => ?_, ?_⟩, branch_nil true⟩
    · rw [nodes_chain] at hy
      refine ⟨?_, hbit y (mem_cons_of_mem _ hy) d (by omega)⟩
      rcases mem_append.1 hy with hy | hy
      · exact hx y hy
      · exact habove x mem_cons_self y hy
    · exact ih hspine (fun x hx => habove x (mem_cons_of_mem _ hx))
        (fun y hy => hbit y (mem_cons_of_mem _ hy)) h

/-- The state of the loop of `prio_tree_expand`; `k` is the number of bits before it. -/
structure Torn (k heap : ℕ) (nodes : List (Node α c)) (root : Root α c)
    (spine : List (Node α c)) : Prop where
  perm : (spine ++ root.tree.nodes).Perm nodes
  valid : Valid k 0 root.tree
  chained : spine.Pairwise Above
  above : ∀ x ∈ spine, ∀ y ∈ root.tree.nodes, Above x y
  room : 2 ^ (k + spine.length) ≤ heap
  bits : root.tree ≠ .nil → root.indexBits = k + 1 + spine.length
  pos : 1 ≤ root.indexBits
  le : root.indexBits ≤ c.bitsPerLong

lemma Torn.tear {left right : Tree α c} (hsmall : ∀ y ∈ nodes, y.heap < 2 ^ k)
    (hlt : heap < 2 ^ c.bitsPerLong) (hcond : maxindex bits < heap)
    (h : Torn k heap nodes ⟨.node x left right, bits⟩ spine) :
    Torn k heap nodes
      (Root.removed ⟨.node x left right, bits + 1⟩ (pull (.node x left right))) (spine ++ [x]) := by
  have hperm := nodes_pull (t := .node x left right) (x := x) rfl
  have hbits : bits = k + 1 + spine.length := h.bits (fun heq => by cases heq)
  have hin : ∀ y ∈ (Tree.node x left right).nodes, y ∈ nodes :=
    fun y hy => h.perm.mem_iff.1 (mem_append_right _ hy)
  have hpull : Valid k 0 (pull (.node x left right)) :=
    h.valid.pull (shared_zero _ _) fun y hy => hsmall y (hin y hy)
  have htree : (Root.removed ⟨.node x left right, bits + 1⟩ (pull (.node x left right))).tree =
      pull (.node x left right) := by
    unfold Root.removed
    split_ifs with hempty
    · exact (isEmpty_iff.1 hempty).symm
    · rfl
  have hnodes : ((spine ++ [x]) ++ (pull (.node x left right)).nodes).Perm nodes := by
    rw [append_assoc]
    exact (hperm.symm.append_left spine).trans h.perm
  refine ⟨by rwa [htree], by rwa [htree], ?_, ?_, ?_, ?_, ?_, ?_⟩
  · rw [pairwise_append]
    refine ⟨h.chained, pairwise_singleton _ _, fun y hy z hz => ?_⟩
    exact mem_singleton.1 hz ▸ h.above y hy x mem_nodes_self
  · rw [htree]
    intro y hy z hz
    rcases mem_append.1 hy with hy | hy
    · exact h.above y hy z (mem_nodes_pull hz)
    · exact mem_singleton.1 hy ▸ h.valid.above_root rfl (mem_nodes_pull hz)
  · rw [length_append, length_singleton]
    unfold maxindex at hcond
    rw [hbits] at hcond
    rw [show k + (spine.length + 1) = k + 1 + spine.length by omega]
    omega
  · rw [htree, length_append, length_singleton]
    intro hne
    unfold Root.removed
    rw [if_neg (mt isEmpty_iff.1 hne)]
    simp only
    omega
  · unfold Root.removed
    split_ifs
    · exact le_refl 1
    · exact le_add_left 1 bits
  · unfold Root.removed
    split_ifs
    · exact c.pos
    · exact maxindex_lt_bits hlt hcond

lemma expandLoop_spec (hlt : heap < 2 ^ c.bitsPerLong) (hsmall : ∀ y ∈ nodes, y.heap < 2 ^ k)
    (h : Torn k heap nodes root spine) :
    let r := expandLoop heap hlt root spine
    Torn k heap nodes r.1 r.2 ∧ heap ≤ maxindex r.1.indexBits := by
  fun_induction expandLoop heap hlt root spine with
  | case1 spine bits hcond ih =>
    apply ih
    exact ⟨h.perm, trivial, h.chained, h.above, h.room, fun hne => absurd rfl hne,
      le_add_left _ _, maxindex_lt_bits hlt hcond⟩
  | case2 spine x left right bits hcond ih =>
    apply ih
    exact h.tear hsmall hlt hcond
  | case3 root spine hcond => exact ⟨h, not_lt.1 hcond⟩

end Expand

/-- What holds between the calls. -/
structure Inv (root : Root α c) : Prop where
  pos : 1 ≤ root.indexBits
  le : root.indexBits ≤ c.bitsPerLong
  valid : Valid root.indexBits 0 root.tree
  small : Small root.indexBits root.tree
  index : (root.tree.nodes.map Node.index).Nodup
  addr : (root.tree.nodes.map Node.addr).Nodup

section Calls

lemma maxindex_lt_iff {bits heap : ℕ} : maxindex bits < heap ↔ 2 ^ bits ≤ heap := by
  have : 0 < 2 ^ bits := by positivity
  unfold maxindex
  omega

lemma nodup_of_perm {β : Type*} {f : Node α c → β} {nodes nodes' : List (Node α c)}
    (hperm : nodes'.Perm (z :: nodes)) (h : (nodes.map f).Nodup) (hz : ∀ y ∈ nodes, f y ≠ f z) :
    (nodes'.map f).Nodup := by
  rw [(hperm.map f).nodup_iff, map_cons, nodup_cons]
  refine ⟨fun hmem => ?_, h⟩
  obtain ⟨y, hy, heq⟩ := mem_map.1 hmem
  exact hz y hy heq

lemma expand_spec (h : Inv root) (hz : root.tree = .nil ∨ 2 ^ root.indexBits ≤ z.heap) :
    let r := expand root z
    (1 ≤ r.indexBits ∧ r.indexBits ≤ c.bitsPerLong) ∧ Valid r.indexBits 0 r.tree ∧
      Small r.indexBits r.tree ∧ r.tree.nodes.Perm (z :: root.tree.nodes) := by
  by_cases hroom : 2 ^ root.indexBits ≤ z.heap
  · have hcond := maxindex_lt_iff.2 hroom
    have hstart : Torn root.indexBits z.heap root.tree.nodes
        { root with indexBits := root.indexBits + 1 } [] :=
      ⟨List.Perm.refl _, h.valid, List.Pairwise.nil, fun x hx => absurd hx not_mem_nil, hroom,
        fun _ => rfl, le_add_left _ _, maxindex_lt_bits z.heap_lt hcond⟩
    obtain ⟨htorn, hle⟩ := expandLoop_spec z.heap_lt h.small hstart
    simp only [expand, if_pos hcond]
    generalize expandLoop z.heap z.heap_lt { root with indexBits := root.indexBits + 1 } [] = r
      at htorn hle
    obtain ⟨r, spine⟩ := r
    simp only at htorn hle ⊢
    have hlt : z.heap < 2 ^ r.indexBits := not_le.1 fun hge => not_lt.2 hle (maxindex_lt_iff.2 hge)
    have hbits : root.indexBits + spine.length < r.indexBits :=
      (Nat.pow_lt_pow_iff_right (by decide)).1 (lt_of_le_of_lt htorn.room hlt)
    have hnodes : (chain spine r.tree).nodes.Perm root.tree.nodes := by
      rw [nodes_chain]
      exact htorn.perm
    have hsmall : ∀ y ∈ (chain spine r.tree).nodes, y.heap < 2 ^ root.indexBits :=
      fun y hy => h.small y (hnodes.mem_iff.1 hy)
    have hbit : ∀ y ∈ (chain spine r.tree).nodes, ∀ i < 1 + spine.length,
        y.bit r.indexBits i = false := fun y hy i hi => bit_eq_false (hsmall y hy) (by omega)
    have hchain : Valid r.indexBits 1 (chain spine r.tree) := by
      apply chain_valid htorn.chained htorn.above (nodes_chain spine r.tree ▸ hbit)
      cases htree : r.tree with
      | nil => trivial
      | node x left right =>
        have hexact := htorn.bits (fun heq => by rw [htree] at heq; cases heq)
        have hshift := htorn.valid.shift (1 + spine.length)
        rw [zero_add, ← add_assoc, ← hexact, htree] at hshift
        exact hshift
    refine ⟨⟨htorn.pos, htorn.le⟩, valid_node_iff.2 ⟨⟨fun y hy => ⟨?_, ?_⟩, hchain⟩,
      branch_nil true⟩, ?_, ?_⟩
    · exact .inl (lt_of_lt_of_le (hsmall y hy) hroom)
    · exact hbit y hy 0 (by omega)
    · intro y hy
      rcases mem_nodes_node.1 hy with rfl | hy | hy
      · exact hlt
      · exact lt_of_lt_of_le (hsmall y hy) (Nat.pow_le_pow_right (by decide) (by omega))
      · exact absurd hy not_mem_nil
    · rw [Tree.nodes, Tree.nodes, append_nil]
      exact hnodes.cons z
  · have hnil := hz.resolve_right hroom
    have hcond : ¬ maxindex root.indexBits < z.heap := mt maxindex_lt_iff.1 hroom
    obtain ⟨tree, bits⟩ := root
    obtain rfl : tree = .nil := hnil
    have hloop : expandLoop z.heap z.heap_lt ⟨.nil, bits⟩ ([] : List (Node α c)) =
      (⟨.nil, bits⟩, []) := by
      rw [expandLoop, dif_neg hcond]
    simp only [expand, if_neg hcond, hloop]
    refine ⟨⟨h.pos, h.le⟩, valid_node_iff.2 ⟨branch_nil false, branch_nil true⟩, ?_,
      List.Perm.refl _⟩
    intro y hy
    rcases mem_nodes_node.1 hy with rfl | hy | hy
    · exact not_le.1 hroom
    · exact absurd hy not_mem_nil
    · exact absurd hy not_mem_nil

/-- `prio_tree_insert` returns the stored node with the same indices, if there is one, and
changes nothing; otherwise it stores the new node. -/
lemma insert_spec (h : Inv root) (z : Node α c) :
    (∃ y ∈ root.tree.nodes, y.index = z.index ∧ insert root z = (some y.addr, root)) ∨
    ((∀ y ∈ root.tree.nodes, y.index ≠ z.index) ∧
      let r := insert root z
      r.1 = some z.addr ∧ (1 ≤ r.2.indexBits ∧ r.2.indexBits ≤ c.bitsPerLong) ∧
        Valid r.2.indexBits 0 r.2.tree ∧ Small r.2.indexBits r.2.tree ∧
        r.2.tree.nodes.Perm (z :: root.tree.nodes)) := by
  unfold insert
  by_cases hgrow : root.tree.isEmpty = true ∨ 2 ^ root.indexBits ≤ z.heap
  · right
    have hnew : ∀ y ∈ root.tree.nodes, y.index ≠ z.index := by
      intro y hy heq
      rcases hgrow with hempty | hroom
      · rw [isEmpty_iff.1 hempty] at hy
        exact not_mem_nil hy
      · have hheap : y.heap = z.heap := congrArg Prod.snd heq
        have := h.small y hy
        omega
    rw [if_pos (by simpa [maxindex_lt_iff] using hgrow)]
    obtain ⟨hbits, hvalid, hsmall, hperm⟩ := expand_spec h (hgrow.imp_left isEmpty_iff.1)
    exact ⟨hnew, rfl, hbits, hvalid, hsmall, hperm⟩
  · rw [if_neg (by simpa [maxindex_lt_iff] using hgrow)]
    obtain ⟨hne, hroom⟩ := not_or.1 hgrow
    have hne : root.tree ≠ .nil := mt isEmpty_iff.2 hne
    have hmask : insertLoop z.addr z (2 ^ (root.indexBits - 1)) false root.tree =
        insertAt z.addr root.indexBits 0 z root.tree := by
      have hpos := h.pos
      unfold insertAt bitNumber
      rw [if_pos (by omega), decide_eq_false (by omega), Nat.sub_zero]
    rw [hmask]
    by_cases hfound : ∃ y ∈ root.tree.nodes, y.index = z.index
    · obtain ⟨y, hy, heq⟩ := hfound
      obtain ⟨w, hw, hindex, hloop⟩ := insertAt_found z.addr h.valid hy heq
      refine .inl ⟨w, hw, hindex, ?_⟩
      rw [hloop]
    · have hnew : ∀ y ∈ root.tree.nodes, y.index ≠ z.index := fun y hy heq => hfound ⟨y, hy, heq⟩
      have hstored := insertBelow_stored z.addr h.valid h.index hnew
      have hbelow : insertBelow z.addr root.indexBits 0 z root.tree =
          insertAt z.addr root.indexBits 0 z root.tree := if_neg (mt isEmpty_iff.1 hne)
      rw [hbelow] at hstored
      obtain ⟨hres, hperm, hvalid⟩ := hstored
      refine .inr ⟨hnew, hres, ⟨h.pos, h.le⟩, hvalid, ?_, hperm⟩
      intro y hy
      rcases mem_cons.1 (hperm.mem_iff.1 hy) with rfl | hy
      · exact not_le.1 hroom
      · exact h.small y hy

lemma insert_inv (h : Inv root) (hz : ¬ root.Holds z.addr) : Inv (insert root z).2 := by
  rcases insert_spec h z with ⟨y, -, -, heq⟩ | ⟨hnew, -, hbits, hvalid, hsmall, hperm⟩
  · rw [heq]
    exact h
  · exact ⟨hbits.1, hbits.2, hvalid, hsmall, nodup_of_perm hperm h.index hnew,
      nodup_of_perm hperm h.addr fun y hy heq => hz ⟨y, hy, heq⟩⟩

variable [DecidableEq α]

lemma remove_spec (h : Inv root) (hx : x ∈ root.tree.nodes) :
    Inv (remove root x.addr) ∧ root.tree.nodes.Perm (x :: (remove root x.addr).tree.nodes) := by
  obtain ⟨rest, hold, hnew⟩ := nodes_modify pull [] (x := x)
    (fun left right => (perm_cons x).1 (nodes_pull (t := .node x left right) rfl).symm)
    h.addr hx
  have hperm : root.tree.nodes.Perm (x :: (root.tree.modify pull x.addr).nodes) :=
    hold.trans (hnew.symm.cons x)
  have hvalid := h.valid.modify (keeps_pull x) (shared_zero _ _) h.small h.addr hx
  have hin : ∀ y ∈ (root.tree.modify pull x.addr).nodes, y ∈ root.tree.nodes :=
    fun y hy => hperm.mem_iff.2 (mem_cons_of_mem _ hy)
  have hindex := (hperm.map index).nodup_iff.1 h.index
  have haddr := (hperm.map addr).nodup_iff.1 h.addr
  rw [map_cons, nodup_cons] at hindex haddr
  unfold remove Root.removed
  split_ifs with hempty
  · rw [isEmpty_iff.1 hempty] at hperm
    refine ⟨⟨le_refl 1, c.pos, trivial, fun y hy => absurd hy not_mem_nil, nodup_nil,
      nodup_nil⟩, hperm⟩
  · exact ⟨⟨h.pos, h.le, hvalid, fun y hy => h.small y (hin y hy), hindex.2, haddr.2⟩, hperm⟩

lemma replace_spec (h : Inv root) (hx : x ∈ root.tree.nodes) (hindex : z.index = x.index)
    (hz : ¬ root.Holds z.addr) :
    Inv (replace root x.addr z) ∧ ∃ rest, root.tree.nodes.Perm (x :: rest) ∧
      (replace root x.addr z).tree.nodes.Perm (z :: rest) := by
  obtain ⟨rest, hold, hnew⟩ := nodes_modify (replaceRoot z) [z] (x := x)
    (fun left right => List.Perm.refl _) h.addr hx
  have hnew : (replace root x.addr z).tree.nodes.Perm (z :: rest) := hnew
  have hkeeps : Keeps root.indexBits x (replaceRoot z) := keeps_replaceRoot hindex
  have hvalid := h.valid.modify hkeeps (shared_zero _ _) h.small h.addr hx
  have hrest : ∀ y ∈ rest, y ∈ root.tree.nodes :=
    fun y hy => hold.mem_iff.2 (mem_cons_of_mem _ hy)
  have holdindex := (hold.map index).nodup_iff.1 h.index
  have holdaddr := (hold.map addr).nodup_iff.1 h.addr
  rw [map_cons, nodup_cons] at holdindex holdaddr
  refine ⟨⟨h.pos, h.le, hvalid, ?_, ?_, ?_⟩, rest, hold, hnew⟩
  · intro y hy
    obtain ⟨y', hy', heq⟩ := hkeeps.index_modify h.addr hx hy
    have hheap : y.heap = y'.heap := congrArg Prod.snd heq
    exact hheap ▸ h.small y' hy'
  · rw [(hnew.map index).nodup_iff, map_cons, hindex, nodup_cons]
    exact holdindex
  · exact nodup_of_perm hnew holdaddr.2 fun y hy heq => hz ⟨y, hrest y hy, heq⟩

end Calls

section Paths

/-- The node at the end of a path from the root; `true` is to the right. -/
def Tree.At : Tree α c → List Bool → Node α c → Prop
  | nil, _, _ => False
  | node x _ _, [], y => y = x
  | node _ left _, false :: path, y => left.At path y
  | node _ _ right, true :: path, y => right.At path y

/-- The path of a node: the bits of its radix index from bit `bits - 1` down, then those of
its size. -/
def Node.path (bits : ℕ) (x : Node α c) : List Bool :=
  (range bits).reverse.map x.radix.testBit ++
    (range c.bitsPerLong).reverse.map x.size.testBit

variable {p : List Bool}

lemma Tree.At.mem (h : t.At p y) : y ∈ t.nodes := by
  induction t generalizing p with
  | nil => exact h.elim
  | node x left right ihl ihr =>
    match p, h with
    | [], h => exact mem_nodes_node.2 (.inl h)
    | false :: _, h => exact mem_nodes_node.2 (.inr (.inl (ihl h)))
    | true :: _, h => exact mem_nodes_node.2 (.inr (.inr (ihr h)))

lemma Valid.above_child {b : Bool} (h : Valid bits d t) (hx : t.At p x)
    (hy : t.At (p ++ [b]) y) : Above x y := by
  induction t generalizing p d with
  | nil => exact hx.elim
  | node z left right ihl ihr =>
    obtain ⟨hl, hr⟩ := valid_node_iff.1 h
    match p, b, hx, hy with
    | [], false, hx, hy => exact hx ▸ (hl.1 y (Tree.At.mem (t := left) hy)).1
    | [], true, hx, hy => exact hx ▸ (hr.1 y (Tree.At.mem (t := right) hy)).1
    | false :: _, _, hx, hy => exact ihl hl.2 hx hy
    | true :: _, _, hx, hy => exact ihr hr.2 hx hy

lemma Valid.path_bits (h : Valid bits d t) (hy : t.At p y) :
    p = (range p.length).map fun i => y.bit bits (d + i) := by
  induction t generalizing p d with
  | nil => exact hy.elim
  | node z left right ihl ihr =>
    obtain ⟨hl, hr⟩ := valid_node_iff.1 h
    have hshift : ∀ n, ((range n).map succ).map (fun i => y.bit bits (d + i)) =
        (range n).map fun i => y.bit bits (d + 1 + i) := by
      intro n
      rw [map_map]
      apply map_congr_left
      intro i _
      show y.bit bits (d + (i + 1)) = _
      rw [show d + (i + 1) = d + 1 + i by omega]
    match p, hy with
    | [], _ => rfl
    | false :: p, hy =>
      have hy : left.At p y := hy
      rw [length_cons, range_succ_eq_map, map_cons, hshift, ← ihl hl.2 hy,
        add_zero, (hl.1 y hy.mem).2]
    | true :: p, hy =>
      have hy : right.At p y := hy
      rw [length_cons, range_succ_eq_map, map_cons, hshift, ← ihr hr.2 hy,
        add_zero, (hr.1 y hy.mem).2]

lemma index_eq_of_bits (hx : x.heap < 2 ^ bits) (hy : y.heap < 2 ^ bits)
    (h : ∀ i < bits + c.bitsPerLong, x.bit bits i = y.bit bits i) : x.index = y.index := by
  have hradix : x.radix = y.radix := by
    apply eq_of_testBit_eq
    intro j
    exact testBit_of_bit hx hy fun _ => h _ (by omega)
  have hsize : x.size = y.size := by
    apply eq_of_testBit_eq
    intro j
    by_cases hj : j < c.bitsPerLong
    · have hbit := h (bits + (c.bitsPerLong - 1 - j)) (by omega)
      simp only [Node.bit, if_neg (show ¬ bits + (c.bitsPerLong - 1 - j) < bits by omega),
        Nat.add_sub_cancel_left, mod_eq_of_lt (show c.bitsPerLong - 1 - j < c.bitsPerLong by omega),
        show c.bitsPerLong - 1 - (c.bitsPerLong - 1 - j) = j by omega] at hbit
      exact hbit
    · have hsmall : ∀ w : Node α c, w.size.testBit j = false := by
        intro w
        apply testBit_lt_two_pow
        calc w.size ≤ w.heap := sub_le _ _
          _ < 2 ^ c.bitsPerLong := w.heap_lt
          _ ≤ 2 ^ j := Nat.pow_le_pow_right (by decide) (not_lt.1 hj)
      rw [hsmall, hsmall]
  have hheap : x.heap = y.heap := by
    have hxle := x.radix_le
    have hyle := y.radix_le
    unfold Node.size at hsize
    omega
  exact Prod.ext hradix hheap

lemma Valid.depth_le (h : Valid bits d t) (hshared : Shared bits d t) (hsmall : Small bits t)
    (hnodup : (t.nodes.map Node.index).Nodup) (hd : d ≤ bits + c.bitsPerLong)
    (hy : t.At p y) : d + p.length ≤ bits + c.bitsPerLong := by
  induction t generalizing p d with
  | nil => exact hy.elim
  | node z left right ihl ihr =>
    obtain ⟨hl, hr⟩ := valid_node_iff.1 h
    obtain ⟨hzl, hzr, hnl, hnr⟩ := index_nodup_node hnodup
    have hz : z ∈ (Tree.node z left right).nodes := mem_nodes_self
    have hlt : ∀ y ∈ (Tree.node z left right).nodes, y.index ≠ z.index →
        d < bits + c.bitsPerLong := by
      intro y hy hne
      by_contra hge
      apply hne
      apply index_eq_of_bits (hsmall y hy) (hsmall z hz)
      exact fun i hi => hshared y hy z hz i (by omega)
    match p, hy with
    | [], _ => exact hd
    | false :: p, hy =>
      have hy : left.At p y := hy
      have := ihl hl.2 (hshared.below hl fun _ => mem_nodes_left)
        (fun y hy => hsmall y (mem_nodes_left hy)) hnl
        (hlt y (mem_nodes_left hy.mem) (hzl y hy.mem)) hy
      rw [length_cons]
      omega
    | true :: p, hy =>
      have hy : right.At p y := hy
      have := ihr hr.2 (hshared.below hr fun _ => mem_nodes_right)
        (fun y hy => hsmall y (mem_nodes_right hy)) hnr
        (hlt y (mem_nodes_right hy.mem) (hzr y hy.mem)) hy
      rw [length_cons]
      omega

lemma path_eq_bits (bits : ℕ) (x : Node α c) :
    x.path bits = (range (bits + c.bitsPerLong)).map (x.bit bits) := by
  apply ext_getElem
  · simp [path]
  · intro i h1 h2
    have hi : i < bits + c.bitsPerLong := by simpa using h2
    simp only [Node.path, getElem_map, getElem_range, Node.bit]
    by_cases hlt : i < bits
    · rw [getElem_append_left (by simpa using hlt), if_pos hlt]
      simp
    · rw [getElem_append_right (by simpa using hlt), if_neg hlt]
      simp [mod_eq_of_lt (show i - bits < c.bitsPerLong by omega)]

end Paths

section Runs
variable [DecidableEq α] {es : List (Event α c)}

lemma step_inv {e : Event α c} (h : Inv root) (hstep : Step root e root') : Inv root' := by
  cases e with
  | insert node result =>
    obtain ⟨hnew, heq⟩ := hstep
    have hinv := insert_inv h hnew
    rw [heq] at hinv
    exact hinv
  | remove a =>
    obtain ⟨⟨x, hx, rfl⟩, rfl⟩ := hstep
    exact (remove_spec h hx).1
  | replace old node =>
    obtain ⟨⟨x, hx, rfl, hradix, hheap⟩, hnew, rfl⟩ := hstep
    exact (replace_spec h hx (Prod.ext hradix.symm hheap.symm) hnew).1

lemma run_inv (hrun : Run Step (Root.init α c) es root) : Inv root := by
  refine hrun.invariant (I := Inv) ?_ fun _ _ _ h hs => step_inv h hs
  exact ⟨le_refl 1, c.pos, trivial, fun y hy => absurd hy not_mem_nil, nodup_nil, nodup_nil⟩

/-- In every tree that the calls make, a node comes above its children, every node is on
the path of its bits, no two nodes have the same indices, and each call does to the set of
nodes what it should. -/
theorem prio_tree_sound (hrun : Run Step (Root.init α c) es root) :
    (∀ path b x y, root.tree.At path x → root.tree.At (path ++ [b]) y → Above x y) ∧
    (∀ path x, root.tree.At path x → path <+: x.path root.indexBits) ∧
    (root.tree.nodes.map Node.index).Nodup ∧
    (∀ z : Node α c, ¬ root.Holds z.addr →
      (∃ y ∈ root.tree.nodes, y.index = z.index ∧ insert root z = (some y.addr, root)) ∨
      ((∀ y ∈ root.tree.nodes, y.index ≠ z.index) ∧ (insert root z).1 = some z.addr ∧
        (insert root z).2.tree.nodes.Perm (z :: root.tree.nodes))) ∧
    (∀ x ∈ root.tree.nodes, root.tree.nodes.Perm (x :: (remove root x.addr).tree.nodes)) ∧
    ∀ x ∈ root.tree.nodes, ∀ z : Node α c, z.index = x.index → ¬ root.Holds z.addr →
      ∃ rest, root.tree.nodes.Perm (x :: rest) ∧
        (replace root x.addr z).tree.nodes.Perm (z :: rest) := by
  have h := run_inv hrun
  refine ⟨fun path b x y hx hy => h.valid.above_child hx hy, fun path x hx => ?_, h.index,
    fun z _ => ?_, fun x hx => (remove_spec h hx).2,
    fun x hx z hindex hz => (replace_spec h hx hindex hz).2⟩
  · have hdepth := h.valid.depth_le (shared_zero _ _) h.small h.index (zero_le _) hx
    have hpath := h.valid.path_bits hx
    simp only [zero_add] at hdepth hpath
    rw [hpath, path_eq_bits]
    exact (prefix_iff_eq_take.2 (by rw [length_range, take_range, min_eq_left hdepth])).map _
  · rcases insert_spec h z with hfound | ⟨hnew, hres, -, -, -, hperm⟩
    · exact .inl hfound
    · exact .inr ⟨hnew, hres, hperm⟩

/-- Two nodes are stored, and the second of two with the same indices is not. -/
theorem prio_tree_sound_duplicate :
    ∃ root : Root ℕ ⟨32, by decide⟩, Run Step (Root.init ℕ ⟨32, by decide⟩)
        [.insert ⟨0, 0, 1, by decide, by decide⟩ (some 0),
          .insert ⟨1, 1, 1, by decide, by decide⟩ (some 1),
          .insert ⟨2, 1, 1, by decide, by decide⟩ (some 1)] root ∧
      root.tree.nodes.length = 2 ∧ (root.tree.nodes.map Node.index).Nodup := by
  have hfirst : insert (Root.init ℕ ⟨32, by decide⟩) ⟨0, 0, 1, by decide, by decide⟩ =
      (some 0, ⟨.node ⟨0, 0, 1, by decide, by decide⟩ .nil .nil, 1⟩) := by
    simp [insert, Root.init, Tree.isEmpty, expand, maxindex, expandLoop, chain]
  have hnew : ∀ (root : Root ℕ ⟨32, by decide⟩) (a : ℕ), (∀ x ∈ root.tree.nodes, x.addr < a) →
      ¬ root.Holds a := by
    rintro root a hlt ⟨x, hx, rfl⟩
    exact lt_irrefl _ (hlt x hx)
  refine Exists.imp (fun root h => ⟨h.1, h.2, (prio_tree_sound h.1).2.2.1⟩)
    (?_ : ∃ root : Root _ _, Run _ _ _ root ∧ root.tree.nodes.length = 2)
  refine ⟨_, .cons ⟨hnew _ _ (by simp [Root.init, Tree.nodes]), hfirst⟩
    (.cons ⟨hnew _ _ (by simp [Tree.nodes]), rfl⟩ (.cons ⟨hnew _ _ ?_, rfl⟩ .nil)), rfl⟩
  decide

end Runs

end BooxKernel.PrioTree
