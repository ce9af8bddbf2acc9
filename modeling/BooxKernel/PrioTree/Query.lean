import BooxKernel.PrioTree.Runs

/-!
# Interval queries

A position of the iterator stands for the nodes that come after it in the preorder of the tree.
Each move drops only nodes that do not overlap the query: a subtree whose root ends before the
query has none that does, and neither has a right subtree whose radix indices begin behind it.
-/
namespace BooxKernel.PrioTree
open Loops List Nat Position

variable {α : Type*} {c : Config} {bits d value : ℕ} {x y z : Node α c}
  {t left right : Tree α c} {q : Query α c} {p : Position α c}

/-- The nodes that overlap the query. -/
def Query.hits (q : Query α c) (nodes : List (Node α c)) : List (Node α c) := nodes.filter q.overlap

@[simp] lemma hits_append (nodes nodes' : List (Node α c)) :
    q.hits (nodes ++ nodes') = q.hits nodes ++ q.hits nodes' := filter_append ..

lemma hits_cons_of_overlap (h : q.overlap x = true) (nodes : List (Node α c)) :
    q.hits (x :: nodes) = x :: q.hits nodes := filter_cons_of_pos h

lemma hits_cons_of_not_overlap (h : ¬ q.overlap x = true) (nodes : List (Node α c)) :
    q.hits (x :: nodes) = q.hits nodes := filter_cons_of_neg h

lemma overlap_iff : q.overlap x = true ↔ x.radix ≤ q.hIndex ∧ q.rIndex ≤ x.heap := by
  simp [Query.overlap]

lemma hits_eq_nil {nodes : List (Node α c)}
    (h : ∀ y ∈ nodes, q.hIndex < y.radix ∨ y.heap < q.rIndex) : q.hits nodes = [] := by
  refine filter_eq_nil_iff.2 fun y hy hover => ?_
  have := overlap_iff.1 hover
  have := h y hy
  omega

/-- A subtree at the level `d`, below right moves that make up the value. -/
structure Sub (bits d value : ℕ) (t : Tree α c) : Prop where
  valid : Valid bits d t
  shared : Shared bits d t
  small : Small bits t
  index : (t.nodes.map Node.index).Nodup
  value : ∀ y ∈ t.nodes, value &&& y.radix = value

/-- The value below a right child. -/
def rightValue (bits d value : ℕ) : ℕ := if d < bits then value ||| 2 ^ (bits - 1 - d) else value

lemma Sub.hits_of_lt_value (h : Sub bits d value t) (hlt : q.hIndex < value) :
    q.hits t.nodes = [] := by
  refine hits_eq_nil fun y hy => .inl ?_
  have hle : value ≤ y.radix := (h.value y hy) ▸ and_le_right
  omega

section
variable (h : Sub bits d value (.node x left right))
include h

lemma Sub.below_left : Sub bits (d + 1) value left := by
  obtain ⟨hl, -⟩ := valid_node_iff.1 h.valid
  exact ⟨hl.2, h.shared.below hl fun _ => mem_nodes_left, fun y hy => h.small y (mem_nodes_left hy),
    (index_nodup_node h.index).2.2.1, fun y hy => h.value y (mem_nodes_left hy)⟩

lemma Sub.below_right : Sub bits (d + 1) (rightValue bits d value) right := by
  obtain ⟨-, hr⟩ := valid_node_iff.1 h.valid
  refine ⟨hr.2, h.shared.below hr fun _ => mem_nodes_right, fun y hy => h.small y (mem_nodes_right hy),
    (index_nodup_node h.index).2.2.2, fun y hy => ?_⟩
  have hvalue := h.value y (mem_nodes_right hy)
  unfold rightValue
  split_ifs with hd
  · have hbit := (hr.1 y hy).2
    rw [Node.bit, if_pos hd] at hbit
    rw [and_or_distrib_right, hvalue, Nat.and_comm, and_two_pow, hbit]
    simp
  · exact hvalue

lemma Sub.hits_of_heap_lt (hlt : x.heap < q.rIndex) :
    q.hits (Tree.node x left right).nodes = [] := by
  refine hits_eq_nil fun y hy => .inr ?_
  have := h.valid.above_root rfl hy
  unfold Above at this
  omega

lemma Sub.hits_right (hy : y ∈ left.nodes) (hlt : q.hIndex < y.radix)
    : q.hits right.nodes = [] := by
  obtain ⟨hl, hr⟩ := valid_node_iff.1 h.valid
  refine hits_eq_nil fun z hz => .inl (hlt.trans_le ?_)
  have hyin : y ∈ (Tree.node x left right).nodes := mem_nodes_left hy
  have hzin : z ∈ (Tree.node x left right).nodes := mem_nodes_right hz
  exact radix_le_of_sides (h.small y hyin) (h.small z hzin) (h.shared y hyin z hzin)
    (hl.1 y hy).2 (hr.1 z hz).2

lemma Sub.depth_lt (hy : y ∈ left.nodes ∨ y ∈ right.nodes) : d < bits + c.bitsPerLong := by
  by_contra hge
  obtain ⟨hl, hr, -⟩ := index_nodup_node h.index
  have hyin : y ∈ (Tree.node x left right).nodes := mem_nodes_node.2 (.inr hy)
  have hxin : x ∈ (Tree.node x left right).nodes := mem_nodes_self
  have hne : y.index ≠ x.index := hy.elim (hl y) (hr y)
  exact hne (index_eq_of_bits (h.small y hyin) (h.small x hxin) fun i hi =>
    h.shared y hyin x hxin i (by omega))

lemma Sub.empty (hd : bits + c.bitsPerLong ≤ d) : left.isEmpty = true ∧ right.isEmpty = true := by
  constructor
  · cases left with
    | nil => rfl
    | node y l r =>
      have := h.depth_lt (.inl mem_nodes_self)
      omega
  · cases right with
    | nil => rfl
    | node y l r =>
      have := h.depth_lt (.inr mem_nodes_self)
      omega

end

section Positions

def Frame.fill (f : Frame α c) (t : Tree α c) : Tree α c :=
  if f.right then .node f.parent f.sibling t else .node f.parent t f.sibling

/-- The tree in which the way up from `t` is the given one. -/
def plug : List (Frame α c) → Tree α c → Tree α c
  | [], t => t
  | f :: path, t => plug path (f.fill t)

/-- The bits of the radix index that the right moves stand for. -/
def pathValue (bits : ℕ) : List (Frame α c) → ℕ
  | [] => 0
  | f :: path =>
    if f.right then rightValue bits path.length (pathValue bits path) else pathValue bits path

/-- The nodes that come after a subtree. -/
def rest : List (Frame α c) → List (Node α c)
  | [] => []
  | f :: path => if f.right then rest path else f.sibling.nodes ++ rest path

/-- The nodes that come after the current one. -/
def Position.todo (p : Position α c) : List (Node α c) := p.left.nodes ++ p.right.nodes ++ rest p.path

variable {path : List (Frame α c)}

lemma sub_of_plug (h : Sub bits 0 0 (plug path t)) :
    Sub bits path.length (pathValue bits path) t := by
  induction path generalizing t with
  | nil => exact h
  | cons f path ih =>
    have hfill := ih h
    unfold Frame.fill at hfill
    rw [pathValue]
    by_cases hf : f.right = true
    · rw [if_pos hf] at hfill ⊢
      exact hfill.below_right
    · rw [if_neg hf] at hfill ⊢
      exact hfill.below_left

/-- The mask at the level `d`; behind the last bit it is `ULONG_MAX`. -/
def maskAt (c : Config) (bits d : ℕ) : ℕ :=
  if d < bits + c.bitsPerLong then 2 ^ bitNumber c bits d else 2 ^ c.bitsPerLong - 1

/-- The value of `size_level` at the level `d`. -/
def levelAt (bits d : ℕ) : ℕ := if d < bits then 0 else d - bits + 1

/-- The iterator is at a node of the tree, and its fields are those for that place. -/
structure Placed (q : Query α c) (p : Position α c) : Prop where
  tree : plug p.path (.node p.cur p.left p.right) = q.root.tree
  mask : p.mask = maskAt c q.root.indexBits p.path.length
  value : p.value = pathValue q.root.indexBits p.path
  level : p.sizeLevel = levelAt q.root.indexBits p.path.length

lemma Placed.sub (h : Placed q p) (hinv : Inv q.root) :
    Sub q.root.indexBits p.path.length p.value (.node p.cur p.left p.right) := by
  rw [h.value]
  apply sub_of_plug
  rw [h.tree]
  exact ⟨hinv.valid, shared_zero _ _, hinv.small, hinv.index, fun y _ => zero_and _⟩

lemma bitNumber_eq (hd : d < bits + c.bitsPerLong) :
    bitNumber c bits d = if d < bits then bits - 1 - d else bits + c.bitsPerLong - 1 - d := by
  unfold bitNumber
  split_ifs with hlt
  · rfl
  · rw [mod_eq_of_lt (by omega)]
    omega

lemma descend_eq (value : ℕ) (frame : Frame α c) (x : Node α c) (hmask : p.mask = maskAt c bits d)
    (hlevel : p.sizeLevel = levelAt bits d) (hd : d < bits + c.bitsPerLong)
    (hlast : bits + c.bitsPerLong ≤ d + 1 → left.isEmpty = true ∧ right.isEmpty = true) :
    descend p value frame x left right =
      some ⟨x, left, right, frame :: p.path, maskAt c bits (d + 1), value, levelAt bits (d + 1)⟩ := by
  have hnumber := bitNumber_eq (c := c) hd
  have hshift : p.mask >>> 1 = if bitNumber c bits d = 0 then 0 else 2 ^ (bitNumber c bits d - 1) := by
    rw [hmask, maskAt, if_pos hd, two_pow_shiftRight_one]
  unfold descend
  rw [hshift, hlevel]
  by_cases hzero : bitNumber c bits d = 0
  · simp only [if_pos hzero, ne_eq, not_true_eq_false, if_false]
    by_cases hlt : d < bits
    · rw [if_pos hlt] at hnumber
      have hnext : d + 1 < bits + c.bitsPerLong := by have := c.pos; omega
      have hnumber' := bitNumber_eq (c := c) hnext
      rw [show bits + c.bitsPerLong - 1 - (d + 1) = c.bitsPerLong - 1 by omega]
        at hnumber'
      simp [levelAt, maskAt, hlt, hnext, hnumber', show ¬ d + 1 < bits by omega,
        show d + 1 - bits = 0 by omega]
    · rw [if_neg hlt] at hnumber
      obtain ⟨hl, hr⟩ := hlast (by omega)
      simp [levelAt, maskAt, hlt, hl, hr, show ¬ d + 1 < bits by omega,
        show ¬ d + 1 < bits + c.bitsPerLong by omega, show d + 1 - bits = d - bits + 1 by omega]
  · have hpow : 2 ^ (bitNumber c bits d - 1) ≠ 0 := by positivity
    have hnext : d + 1 < bits + c.bitsPerLong := by
      have hpos := c.pos
      by_contra hge
      rw [if_neg (by omega)] at hnumber
      omega
    have hnumber' := bitNumber_eq (c := c) hnext
    simp only [if_neg hzero, ne_eq, hpow, not_false_eq_true, if_true]
    by_cases hlt : d < bits
    · rw [if_pos hlt] at hnumber
      simp [levelAt, maskAt, hlt, hnext, hnumber', hnumber, show d + 1 < bits by omega,
        show bits - 1 - d - 1 = bits - 1 - (d + 1) by omega]
    · simp [levelAt, maskAt, hlt, hnext, hnumber', hnumber, show ¬ d + 1 < bits by omega,
        show bits + c.bitsPerLong - 1 - d - 1 = bits + c.bitsPerLong - 1 - (d + 1) by omega,
        show d + 1 - bits = d - bits + 1 by omega]

/-- A move to the child on the side `b`. -/
structure Moved (q : Query α c) (b : Bool) (p p' : Position α c) : Prop where
  placed : Placed q p'
  path : p'.path = ⟨b, p.cur, if b then p.left else p.right⟩ :: p.path
  child : Tree.node p'.cur p'.left p'.right = if b then p.right else p.left
  heap : q.rIndex ≤ p'.cur.heap

lemma prioTreeLeft_spec (h : Placed q p) (hinv : Inv q.root) :
    (prioTreeLeft q p = some none ∧ q.hits p.left.nodes = []) ∨
      ∃ p', prioTreeLeft q p = some (some p') ∧ Moved q false p p' := by
  have hsub := h.sub hinv
  unfold prioTreeLeft
  cases hleft : p.left with
  | nil => exact .inl ⟨rfl, rfl⟩
  | node x l r =>
    rw [hleft] at hsub
    by_cases hheap : q.rIndex ≤ x.heap
    · have hd := hsub.depth_lt (.inl mem_nodes_self)
      have hcall := descend_eq p.value ⟨false, p.cur, p.right⟩ x h.mask h.level hd
        hsub.below_left.empty
      dsimp only
      rw [if_pos hheap, hcall]
      refine .inr ⟨_, rfl, ⟨?_, rfl, h.value, rfl⟩, rfl, hleft.symm, hheap⟩
      rw [← h.tree, hleft]
      rfl
    · exact .inl ⟨if_neg hheap, hsub.below_left.hits_of_heap_lt (not_le.1 hheap)⟩

lemma prioTreeRight_spec (h : Placed q p) (hinv : Inv q.root) :
    (prioTreeRight q p = some none ∧ q.hits p.right.nodes = []) ∨
      ∃ p', prioTreeRight q p = some (some p') ∧ Moved q true p p' := by
  have hsub := h.sub hinv
  unfold prioTreeRight
  cases hright : p.right with
  | nil => exact .inl ⟨rfl, rfl⟩
  | node x l r =>
    rw [hright] at hsub
    have hd := hsub.depth_lt (.inr mem_nodes_self)
    have hvalue : (if p.sizeLevel ≠ 0 then p.value else p.value ||| p.mask) =
        rightValue q.root.indexBits p.path.length p.value := by
      rw [h.level, h.mask, maskAt, bitNumber_eq hd, levelAt, rightValue]
      split_ifs with h1 h2 <;> simp_all
    dsimp only
    rw [hvalue]
    by_cases hbehind : q.hIndex < rightValue q.root.indexBits p.path.length p.value
    · exact .inl ⟨if_pos hbehind, hsub.below_right.hits_of_lt_value hbehind⟩
    · rw [if_neg hbehind]
      by_cases hheap : q.rIndex ≤ x.heap
      · have hcall := descend_eq (rightValue q.root.indexBits p.path.length p.value)
          ⟨true, p.cur, p.left⟩ x h.mask h.level hd hsub.below_right.empty
        rw [if_pos hheap, hcall]
        refine .inr ⟨_, rfl, ⟨?_, rfl, ?_, rfl⟩, rfl, hright.symm, hheap⟩
        · rw [← h.tree, hright]
          rfl
        · rw [h.value]
          rfl
      · exact .inl ⟨if_neg hheap, hsub.below_right.hits_of_heap_lt (not_le.1 hheap)⟩

lemma maskAt_up (hbits : 1 ≤ bits) (hle : bits ≤ c.bitsPerLong) (hd : d < bits + c.bitsPerLong) :
    (if maskAt c bits (d + 1) = 2 ^ c.bitsPerLong - 1 then 1
      else if levelAt bits (d + 1) = 1 then 1
      else (maskAt c bits (d + 1) <<< 1) % 2 ^ c.bitsPerLong) = maskAt c bits d := by
  have hnumber := bitNumber_eq (c := c) hd
  have hmask : maskAt c bits d = 2 ^ bitNumber c bits d := if_pos hd
  by_cases hnext : d + 1 < bits + c.bitsPerLong
  · have hnumber' := bitNumber_eq (c := c) hnext
    have hmask' : maskAt c bits (d + 1) = 2 ^ bitNumber c bits (d + 1) := if_pos hnext
    rw [hmask, hmask']
    by_cases hfull : 2 ^ bitNumber c bits (d + 1) = 2 ^ c.bitsPerLong - 1
    · have hone : bitNumber c bits (d + 1) = 0 := by
        by_contra hne
        obtain ⟨k, hk⟩ := exists_eq_succ_of_ne_zero hne
        obtain ⟨w, hw⟩ := exists_eq_succ_of_ne_zero (by omega : c.bitsPerLong ≠ 0)
        rw [hk, hw] at hfull
        have : 0 < 2 ^ w := by positivity
        omega
      have hw : c.bitsPerLong = 1 := by
        by_contra hne
        obtain ⟨w, hw⟩ := Nat.exists_eq_add_of_le (show 2 ≤ c.bitsPerLong by omega)
        rw [hone, hw, pow_add] at hfull
        omega
      rw [if_pos hfull, hnumber, if_pos (by omega), show bits - 1 - d = 0 by omega, pow_zero]
    · rw [if_neg hfull]
      by_cases hlast : levelAt bits (d + 1) = 1
      · have hd' : d + 1 = bits := by
          unfold levelAt at hlast
          split_ifs at hlast
          omega
        rw [if_pos hlast, hnumber, if_pos (by omega), show bits - 1 - d = 0 by omega, pow_zero]
      · have hsucc : bitNumber c bits d = bitNumber c bits (d + 1) + 1 := by
          unfold levelAt at hlast
          split_ifs at hlast hnumber hnumber' <;> omega
        have hlt : bitNumber c bits d < c.bitsPerLong := by
          split_ifs at hnumber <;> omega
        rw [if_neg hlast, shiftLeft_eq, ← pow_succ, ← hsucc,
          mod_eq_of_lt (Nat.pow_lt_pow_right (by decide) hlt)]
  · rw [maskAt, if_neg hnext, if_pos rfl, hmask, hnumber, if_neg (by omega),
      show bits + c.bitsPerLong - 1 - d = 0 by omega, pow_zero]

lemma testBit_pathValue {k : ℕ} (h : k + path.length < bits) :
    (pathValue bits path).testBit k = false := by
  induction path with
  | nil => exact zero_testBit k
  | cons f path ih =>
    rw [length_cons] at h
    have hold := ih (by omega)
    rw [pathValue]
    split_ifs
    · rw [rightValue, if_pos (by omega), testBit_or, hold, testBit_two_pow_of_ne (by omega)]
      rfl
    · exact hold

lemma pathValue_up {f : Frame α c} :
    (if levelAt bits path.length = 0 ∧
        pathValue bits (f :: path) &&& maskAt c bits path.length ≠ 0 then
      pathValue bits (f :: path) ^^^ maskAt c bits path.length
    else pathValue bits (f :: path)) = pathValue bits path := by
  by_cases hlt : path.length < bits
  · have hmask : maskAt c bits path.length = 2 ^ (bits - 1 - path.length) := by
      rw [maskAt, if_pos (by omega), bitNumber_eq (by omega), if_pos hlt]
    have hlow : (pathValue bits path).testBit (bits - 1 - path.length) = false :=
      testBit_pathValue (by omega)
    rw [hmask, levelAt, if_pos hlt, pathValue, rightValue, if_pos hlt]
    generalize bits - 1 - path.length = k at *
    by_cases hf : f.right = true
    · have hand : (pathValue bits path ||| 2 ^ k) &&& 2 ^ k ≠ 0 := by
        rw [and_two_pow]
        simp
      rw [if_pos hf, if_pos ⟨rfl, hand⟩]
      refine eq_of_testBit_eq fun j => ?_
      by_cases hj : k = j
      · subst hj
        simp [hlow]
      · simp [testBit_two_pow_of_ne hj]
    · have hand : pathValue bits path &&& 2 ^ k = 0 := by
        rw [and_two_pow, hlow]
        simp
      rw [if_neg hf, if_neg (by simp [hand])]
  · have hsame : pathValue bits (f :: path) = pathValue bits path := by
      rw [pathValue, rightValue]
      split_ifs <;> rfl
    rw [if_neg (by simp [levelAt, hlt]), hsame]

lemma prioTreeParent_spec {f : Frame α c} (h : Placed q p) (hinv : Inv q.root)
    (hpath : p.path = f :: path) :
    Placed q (prioTreeParent p) ∧ (prioTreeParent p).path = path ∧
      Tree.node (prioTreeParent p).cur (prioTreeParent p).left (prioTreeParent p).right =
        f.fill (.node p.cur p.left p.right) := by
  have htree : plug path (f.fill (.node p.cur p.left p.right)) = q.root.tree := by
    rw [← h.tree, hpath]
    rfl
  have hd : path.length < q.root.indexBits + c.bitsPerLong := by
    have hsub : Sub q.root.indexBits path.length (pathValue q.root.indexBits path)
        (f.fill (.node p.cur p.left p.right)) := by
      apply sub_of_plug
      rw [htree]
      exact ⟨hinv.valid, shared_zero _ _, hinv.small, hinv.index, fun y _ => zero_and _⟩
    have hcur : p.cur ∈ (Tree.node p.cur p.left p.right).nodes := mem_nodes_self
    unfold Frame.fill at hsub
    split_ifs at hsub
    · exact hsub.depth_lt (.inr hcur)
    · exact hsub.depth_lt (.inl hcur)
  have hup : p.up.path = path ∧ p.up.mask = p.mask ∧ p.up.value = p.value ∧
      p.up.sizeLevel = p.sizeLevel ∧
      Tree.node p.up.cur p.up.left p.up.right = f.fill (.node p.cur p.left p.right) := by
    obtain ⟨right, parent, sibling⟩ := f
    cases right <;> simp [up, hpath, Frame.fill]
  obtain ⟨hpath', hmask, hvalue, hlevel, hnode⟩ := hup
  have hlen : p.path.length = path.length + 1 := by rw [hpath]; rfl
  have hmask' : (prioTreeParent p).mask = maskAt c q.root.indexBits path.length := by
    show (if p.up.mask = _ then _ else _) = _
    rw [hmask, hlevel, h.mask, h.level, hlen, maskAt_up hinv.pos hinv.le hd]
  have hlevel' : (prioTreeParent p).sizeLevel = levelAt q.root.indexBits path.length := by
    show (if p.up.sizeLevel ≠ 0 then _ else _) = _
    rw [hlevel, h.level, hlen, levelAt, levelAt]
    split_ifs <;> omega
  have hvalue' : (prioTreeParent p).value = pathValue q.root.indexBits path := by
    show (if (prioTreeParent p).sizeLevel = 0 ∧ p.up.value &&& (prioTreeParent p).mask ≠ 0 then
      p.up.value ^^^ (prioTreeParent p).mask else p.up.value) = _
    rw [hmask', hlevel', hvalue, h.value, hpath, pathValue_up]
  have hpath'' : (prioTreeParent p).path = path := hpath'
  refine ⟨⟨?_, hpath''.symm ▸ hmask', hpath''.symm ▸ hvalue', hpath''.symm ▸ hlevel'⟩, hpath'', hnode⟩
  rw [← htree, ← hnode, ← hpath'']
  rfl

end Positions

section Loops

/-- A result of the iterator, when the given nodes are left to visit. -/
def NextHit (q : Query α c) (nodes : List (Node α c)) : Option (Position α c) → Prop
  | none => q.hits nodes = []
  | some p => Placed q p ∧ q.hits nodes = q.hits (p.cur :: p.todo) ∧ p.todo.length < nodes.length

variable {nodes nodes' : List (Node α c)} {r : Option (Position α c)} {p' : Position α c}

lemma NextHit.mono (h : NextHit q nodes r) (hhits : q.hits nodes' = q.hits nodes)
    (hlen : nodes.length ≤ nodes'.length) : NextHit q nodes' r := by
  cases r with
  | none => exact hhits.trans h
  | some p => exact ⟨h.1, hhits.trans h.2.1, h.2.2.trans_le hlen⟩

lemma Moved.todo_left (h : Moved q false p p') : p'.cur :: p'.todo = p.todo := by
  have hchild : (Tree.node p'.cur p'.left p'.right).nodes = p.left.nodes := congrArg _ h.child
  rw [todo, h.path, todo, ← hchild]
  simp [rest, Tree.nodes]

lemma Moved.todo_right (h : Moved q true p p') :
    p'.cur :: p'.todo = p.right.nodes ++ rest p.path := by
  have hchild : (Tree.node p'.cur p'.left p'.right).nodes = p.right.nodes := congrArg _ h.child
  rw [todo, h.path, ← hchild]
  simp [rest, Tree.nodes]

/-- Up to a left child, or to the root: nothing is left behind. -/
lemma climb_spec (h : Placed q p) (hinv : Inv q.root) :
    Placed q (climb p) ∧ rest (climb p).path = rest p.path ∧
      (climb p).path.length ≤ p.path.length ∧
      ∀ f path, (climb p).path = f :: path → f.right = false := by
  fun_induction climb p with
  | case1 p hpath => exact ⟨h, rfl, le_rfl, fun f path hf => by simp [hpath] at hf⟩
  | case2 p f path hpath hright ih =>
    obtain ⟨hplaced, hpath', -⟩ := prioTreeParent_spec h hinv hpath
    obtain ⟨hclimb, hrest, hlen, hleft⟩ := ih hplaced
    refine ⟨hclimb, ?_, ?_, hleft⟩
    · rw [hrest, hpath', hpath, rest, if_pos hright]
    · rw [hpath'] at hlen
      rw [hpath, length_cons]
      omega
  | case3 p f path hpath hleft =>
    refine ⟨h, rfl, le_rfl, fun f' path' hf => ?_⟩
    rw [hpath] at hf
    obtain ⟨rfl, rfl⟩ := cons.inj hf
    simpa using hleft

lemma rightLoop_spec (h : Placed q p) (hinv : Inv q.root) :
    ∃ r, loop (rightRound q) p = some r ∧ NextHit q (p.right.nodes ++ rest p.path) r := by
  induction hlen : p.path.length using Nat.strong_induction_on generalizing p with
  | _ n ih =>
    rw [loop_eq, rightRound]
    rcases prioTreeRight_spec h hinv with ⟨hcall, hnone⟩ | ⟨p', hcall, hmoved⟩
    · rw [hcall]
      obtain ⟨hclimb, hrest, hle, hleft⟩ := climb_spec h hinv
      rw [← hrest]
      cases hpath : (climb p).path with
      | nil => exact ⟨none, by simp [hpath], by simp [NextHit, hnone, rest]⟩
      | cons f path =>
        obtain ⟨hplaced, hpath', hnode⟩ := prioTreeParent_spec hclimb hinv hpath
        obtain ⟨r, hloop, hnext⟩ := ih path.length (by rw [hpath, length_cons] at hle; omega)
          hplaced (by rw [hpath'])
        have hright : (prioTreeParent (climb p)).right = f.sibling := by
          rw [Frame.fill, hleft f path hpath] at hnode
          simpa using (Tree.node.inj hnode).2.2
        rw [hright, hpath'] at hnext
        refine ⟨r, by simpa [hpath] using hloop, hnext.mono ?_ ?_⟩
        · simp [hnone, rest, hleft f path hpath]
        · simp [rest, hleft f path hpath]
    · rw [hcall]
      refine ⟨some p', rfl, hmoved.placed, by rw [hmoved.todo_right], ?_⟩
      rw [← hmoved.todo_right]
      simp

/-- The loop over `prio_tree_left`: it ends at a node that overlaps, or at one whose left subtree
has nothing more. -/
lemma leftLoop_spec (h : Placed q p) (hinv : Inv q.root) :
    ∃ p' found, loop (leftRound q) p = some (p', found) ∧ Placed q p' ∧
      if found then q.overlap p'.cur = true ∧ q.hits p.todo = q.hits (p'.cur :: p'.todo) ∧
        p'.todo.length < p.todo.length
      else q.hits p.todo = q.hits (p'.right.nodes ++ rest p'.path) ∧
        (p'.right.nodes ++ rest p'.path).length ≤ p.todo.length := by
  induction hlen : p.todo.length using Nat.strong_induction_on generalizing p with
  | _ n ih =>
    rw [loop_eq, leftRound]
    rcases prioTreeLeft_spec h hinv with ⟨hcall, hnone⟩ | ⟨p', hcall, hmoved⟩
    · rw [hcall]
      refine ⟨p, false, rfl, h, ?_, ?_⟩
      · simp [todo, hnone]
      · rw [← hlen]
        simp [todo]
    · rw [hcall]
      have htodo := hmoved.todo_left
      have hless : p'.todo.length < n := by
        rw [← hlen, ← htodo]
        simp
      by_cases hover : q.overlap p'.cur = true
      · refine ⟨p', true, by simp [hover], hmoved.placed, hover, by rw [htodo], hless⟩
      · obtain ⟨p'', found, hloop, hplaced, hresult⟩ := ih _ hless hmoved.placed rfl
        refine ⟨p'', found, by simpa [hover] using hloop, hplaced, ?_⟩
        rw [← htodo, hits_cons_of_not_overlap hover]
        cases found with
        | true => exact ⟨hresult.1, hresult.2.1, hresult.2.2.trans hless⟩
        | false => exact ⟨hresult.1, hresult.2.trans hless.le⟩

/-- A result of `prio_tree_next`, when the given nodes are left to visit. -/
def Found (q : Query α c) (nodes : List (Node α c)) : Option (Position α c) → Prop
  | none => q.hits nodes = []
  | some p => Placed q p ∧ q.hits nodes = p.cur :: q.hits p.todo ∧ p.todo.length < nodes.length

lemma Found.mono (h : Found q nodes r) (hhits : q.hits nodes' = q.hits nodes)
    (hlen : nodes.length ≤ nodes'.length) : Found q nodes' r := by
  cases r with
  | none => exact hhits.trans h
  | some p => exact ⟨h.1, hhits.trans h.2.1, h.2.2.trans_le hlen⟩

lemma nextLoop_spec (h : Placed q p) (hinv : Inv q.root) :
    ∃ r, loop (nextRound q) p = some r ∧ Found q p.todo r := by
  induction hlen : p.todo.length using Nat.strong_induction_on generalizing p with
  | _ n ih =>
    rw [loop_eq, nextRound]
    obtain ⟨p1, found, hleft, hplaced, hresult⟩ := leftLoop_spec h hinv
    rw [hleft]
    cases found with
    | true =>
      obtain ⟨hover, hhits, hless⟩ := hresult
      refine ⟨some p1, rfl, hplaced, ?_, hless⟩
      rw [hhits, hits_cons_of_overlap hover]
    | false =>
      obtain ⟨hhits, hle⟩ := hresult
      obtain ⟨r, hright, hnext⟩ := rightLoop_spec hplaced hinv
      have hnext := hnext.mono hhits hle
      cases r with
      | none => exact ⟨none, by simp [hright], hnext⟩
      | some p2 =>
        obtain ⟨hplaced2, hhits2, hless⟩ := hnext
        by_cases hover : q.overlap p2.cur = true
        · refine ⟨some p2, by simp [hright, hover], hplaced2, ?_, hless⟩
          rw [hhits2, hits_cons_of_overlap hover]
        · obtain ⟨r, hloop, hfound⟩ := ih _ (hlen ▸ hless) hplaced2 rfl
          refine ⟨r, by simpa [hright, hover] using hloop, ?_⟩
          rw [hits_cons_of_not_overlap hover] at hhits2
          exact hfound.mono hhits2 hless.le

/-- The loop of `prio_tree_first`. It never goes up: where a node does not overlap, nothing that
comes after its subtree does. -/
lemma firstLoop_spec (h : Placed q p) (hinv : Inv q.root) (hheap : q.rIndex ≤ p.cur.heap)
    (hafter : q.overlap p.cur = true ∨ q.hits (rest p.path) = []) :
    ∃ r, loop (firstRound q) p = some r ∧ Found q (p.cur :: p.todo) r := by
  induction hlen : p.todo.length using Nat.strong_induction_on generalizing p with
  | _ n ih =>
    rw [loop_eq, firstRound]
    by_cases hover : q.overlap p.cur = true
    · refine ⟨some p, by simp [hover], h, ?_, by simp⟩
      rw [hits_cons_of_overlap hover]
    · have hafter := hafter.resolve_left hover
      rw [if_neg hover]
      rcases prioTreeLeft_spec h hinv with ⟨hcall, hnone⟩ | ⟨p', hcall, hmoved⟩
      · rw [hcall]
        have hhits : q.hits (p.cur :: p.todo) = q.hits (p.right.nodes ++ rest p.path) := by
          simp [hits_cons_of_not_overlap hover, todo, hnone]
        rcases prioTreeRight_spec h hinv with ⟨hcall', hnone'⟩ | ⟨p', hcall', hmoved⟩
        · exact ⟨none, by simp [hcall'], by rw [Found, hhits, hits_append, hnone', hafter]; rfl⟩
        · have htodo := hmoved.todo_right
          have hlen' : (p'.cur :: p'.todo).length ≤ n := by
            rw [htodo, ← hlen]
            simp [todo]
          have hafter' : q.hits (rest p'.path) = [] := by
            rw [hmoved.path]
            exact hafter
          obtain ⟨r, hloop, hfound⟩ := ih _ hlen' hmoved.placed hmoved.heap (.inr hafter') rfl
          refine ⟨r, by simpa [hcall'] using hloop, hfound.mono (htodo ▸ hhits) ?_⟩
          exact hlen'.trans (hlen ▸ le_succ _)
      · rw [hcall]
        have htodo := hmoved.todo_left
        have hless : p'.todo.length < n := by
          rw [← hlen, ← htodo]
          simp
        have hafter' : q.overlap p'.cur = true ∨ q.hits (rest p'.path) = [] := by
          by_cases hover' : q.overlap p'.cur = true
          · exact .inl hover'
          · have hbehind : q.hIndex < p'.cur.radix := by
              have hheap' := hmoved.heap
              rw [overlap_iff] at hover'
              omega
            have hmem : p'.cur ∈ p.left.nodes := by
              have hchild : Tree.node p'.cur p'.left p'.right = p.left := hmoved.child
              rw [← hchild]
              exact mem_nodes_self
            rw [hmoved.path]
            simp [rest, (h.sub hinv).hits_right hmem hbehind, hafter]
        obtain ⟨r, hloop, hfound⟩ := ih _ hless hmoved.placed hmoved.heap hafter' rfl
        refine ⟨r, hloop, hfound.mono ?_ ?_⟩
        · rw [htodo, hits_cons_of_not_overlap hover]
        · rw [htodo]
          simp

lemma prioTreeFirst_spec (hinv : Inv q.root) :
    ∃ r, prioTreeFirst q = some r ∧ Found q q.root.tree.nodes r := by
  unfold prioTreeFirst
  cases htree : q.root.tree with
  | nil => exact ⟨none, rfl, rfl⟩
  | node x left right =>
    have hmask : 2 ^ (q.root.indexBits - 1) % 2 ^ c.bitsPerLong = maskAt c q.root.indexBits 0 := by
      have hpos := hinv.pos
      have hle := hinv.le
      rw [mod_eq_of_lt (Nat.pow_lt_pow_right (by decide) (by omega)), maskAt, if_pos (by omega),
        bitNumber_eq (by omega), if_pos (by omega), Nat.sub_zero]
    have hplaced : Placed q ⟨x, left, right, [], 2 ^ (q.root.indexBits - 1) % 2 ^ c.bitsPerLong, 0,
      0⟩ := by
      refine ⟨htree.symm, hmask, rfl, ?_⟩
      have hpos := hinv.pos
      rw [levelAt, if_pos (by exact hpos)]
    dsimp only
    by_cases hheap : x.heap < q.rIndex
    · rw [if_pos hheap]
      have hsub := hplaced.sub hinv
      exact ⟨none, rfl, hsub.hits_of_heap_lt hheap⟩
    · rw [if_neg hheap]
      obtain ⟨r, hloop, hfound⟩ := firstLoop_spec hplaced hinv (not_lt.1 hheap) (.inr rfl)
      refine ⟨r, hloop, hfound.mono ?_ ?_⟩ <;> simp [todo, Tree.nodes, rest]

end Loops

lemma collectLoop_spec (hinv : Inv q.root) (found : List (Node α c)) (h : Placed q p) :
    loop (fun s => collectRound q s.1 s.2) (found, some p) = some (found ++ q.hits p.todo) := by
  induction hlen : p.todo.length using Nat.strong_induction_on generalizing p found with
  | _ n ih =>
    obtain ⟨r, hloop, hfound⟩ := nextLoop_spec h hinv
    rw [loop_eq, collectRound, prioTreeNext, hloop]
    cases r with
    | none =>
      have hnone : q.hits p.todo = [] := hfound
      simp [hnone]
    | some p' =>
      obtain ⟨hplaced, hhits, hless⟩ := hfound
      have hrest := ih _ (hlen ▸ hless) (found ++ [p'.cur]) hplaced rfl
      simp [hrest, hhits]

lemma collect_eq (hinv : Inv q.root) : collect q = some (q.hits q.root.tree.nodes) := by
  obtain ⟨r, hfirst, hfound⟩ := prioTreeFirst_spec hinv
  rw [collect, loop_eq, collectRound, prioTreeNext, hfirst]
  cases r with
  | none =>
    have hnone : q.hits q.root.tree.nodes = [] := hfound
    simp [hnone]
  | some p =>
    obtain ⟨hplaced, hhits, -⟩ := hfound
    have hrest := collectLoop_spec hinv [p.cur] hplaced
    simpa [hhits] using hrest

/-- The calls of `prio_tree_next` come to an end without a `BUG_ON`, and have then returned every
node that overlaps the query exactly once, and no other node. -/
theorem prio_tree_query_complete {root : Root α c} (hinv : Inv root) (rIndex hIndex : ℕ) :
    ∃ found, collect ⟨root, rIndex, hIndex⟩ = some found ∧ (found.map Node.addr).Nodup ∧
      ∀ x, x ∈ found ↔ x ∈ root.tree.nodes ∧ x.radix ≤ hIndex ∧ rIndex ≤ x.heap := by
  refine ⟨_, collect_eq (q := ⟨root, rIndex, hIndex⟩) hinv, ?_, fun x => ?_⟩
  · exact hinv.addr.sublist (filter_sublist.map _)
  · rw [Query.hits, mem_filter, overlap_iff]

/-- A tree of two nodes for the interval from 0 to 1 and for 1. -/
def twoIntervals : Root ℕ ⟨32, by decide⟩ :=
  ⟨.node ⟨0, 0, 1, by decide, by decide⟩ .nil (.node ⟨1, 1, 1, by decide, by decide⟩ .nil .nil), 1⟩

/-- The first of them overlaps the query for 0. -/
theorem prio_tree_query_first :
    ∃ found, collect ⟨twoIntervals, 0, 0⟩ = some found ∧ (found.map Node.addr).Nodup ∧
      ∀ x, x ∈ found ↔ x ∈ twoIntervals.tree.nodes ∧ x.radix ≤ 0 ∧ 0 ≤ x.heap := by
  refine prio_tree_query_complete ⟨le_rfl, by decide, ?_, ?_, ?_, ?_⟩ 0 0
  · simp [twoIntervals, Valid, Tree.nodes, Above, Node.bit]
  · simp [twoIntervals, Small, Tree.nodes]
  · simp [twoIntervals, Tree.nodes, Node.index]
  · simp [twoIntervals, Tree.nodes]

end BooxKernel.PrioTree
