import BooxKernel.Lib.Loops
import Mathlib.Data.Nat.Bitwise
import Mathlib.Tactic

/-!
# The radix priority search tree

A node holds a closed interval, whose ends are its radix index and its heap index as
`get_index` gives them, from the node itself or from a `struct vm_area_struct`. The
functions get and leave whole trees here: what they do with the node at an address, they
do to the subtree at that node.
-/
namespace BooxKernel.PrioTree

/-- `BITS_PER_LONG`. -/
structure Config where
  bitsPerLong : ℕ
  pos : 0 < bitsPerLong

/-- A `struct prio_tree_node` with its indices. -/
@[ext]
structure Node (α : Type*) (c : Config) where
  addr : α
  radix : ℕ
  heap : ℕ
  radix_le : radix ≤ heap
  heap_lt : heap < 2 ^ c.bitsPerLong

inductive Tree (α : Type*) (c : Config)
  | nil
  | node (cur : Node α c) (left right : Tree α c)

/-- `struct prio_tree_root`. -/
structure Root (α : Type*) (c : Config) where
  tree : Tree α c
  indexBits : ℕ

variable {α : Type*} {c : Config}

namespace Tree

def isEmpty : Tree α c → Bool
  | nil => true
  | node _ _ _ => false

def root? : Tree α c → Option (Node α c)
  | nil => none
  | node cur _ _ => some cur

def nodes : Tree α c → List (Node α c)
  | nil => []
  | node cur left right => cur :: (left.nodes ++ right.nodes)

end Tree

/-- `INIT_PRIO_TREE_ROOT`. -/
def Root.init (α : Type*) (c : Config) : Root α c := ⟨.nil, 1⟩

/-- `prio_tree_maxindex`: the table has `1, 3, 7, ..., ~0UL`. -/
def maxindex (bits : ℕ) : ℕ := 2 ^ bits - 1

def Node.size (x : Node α c) : ℕ := x.heap - x.radix

section Remove

/-- `prio_tree_remove` of the root of a subtree: its place is taken by the child with the
larger heap index, the left one if they are equal, and so on down to a leaf. -/
def pull : Tree α c → Tree α c
  | .nil => .nil
  | .node _ left right =>
    match left.root?, right.root? with
    | none, none => .nil
    | none, some y => .node y left (pull right)
    | some x, none => .node x (pull left) right
    | some x, some y => if y.heap ≤ x.heap then .node x (pull left) right else .node y left (pull right)

/-- The root after its tree has become `tree`; `prio_tree_remove` initializes it when the
last node goes. -/
def Root.removed (root : Root α c) (tree : Tree α c) : Root α c :=
  if tree.isEmpty then Root.init α c else { root with tree := tree }

variable [DecidableEq α]

/-- A change of the subtree at the node with the address `a`. -/
def Tree.modify (f : Tree α c → Tree α c) (a : α) : Tree α c → Tree α c
  | nil => nil
  | node cur left right =>
    if cur.addr = a then f (node cur left right)
    else node cur (left.modify f a) (right.modify f a)

/-- `prio_tree_remove`. -/
def remove (root : Root α c) (a : α) : Root α c := root.removed (root.tree.modify pull a)

/-- The new node at the place of the old one. -/
def replaceRoot (new : Node α c) : Tree α c → Tree α c
  | .nil => .nil
  | .node _ left right => .node new left right

/-- `prio_tree_replace`. -/
def replace (root : Root α c) (old : α) (new : Node α c) : Root α c :=
  { root with tree := root.tree.modify (replaceRoot new) old }

end Remove

section Expand

/-- The nodes in a chain of left children, with the tree at its end. -/
def chain : List (Node α c) → Tree α c → Tree α c
  | [], tree => tree
  | x :: spine, tree => .node x (chain spine tree) .nil

lemma maxindex_lt_bits {bits heap : ℕ} (hlt : heap < 2 ^ c.bitsPerLong)
    (h : maxindex bits < heap) : bits < c.bitsPerLong := by
  by_contra hle
  have := Nat.pow_le_pow_right (show 0 < 2 by decide) (not_lt.1 hle)
  unfold maxindex at h
  omega

/-- The number of nodes. -/
def Tree.size : Tree α c → ℕ
  | nil => 0
  | node _ left right => left.size + right.size + 1

lemma size_pull (tree : Tree α c) : (pull tree).size = tree.size - 1 := by
  induction tree with
  | nil => rfl
  | node cur left right ihl ihr =>
    cases left with
    | nil =>
      cases right with
      | nil => rfl
      | node y rl rr =>
        simp only [pull, Tree.root?, Tree.size] at ihr ⊢
        omega
    | node x ll lr =>
      cases right with
      | nil =>
        simp only [pull, Tree.root?, Tree.size] at ihl ⊢
        omega
      | node y rl rr =>
        rw [pull]
        simp only [Tree.root?]
        split_ifs
        · simp only [Tree.size] at ihl ⊢
          omega
        · simp only [Tree.size] at ihr ⊢
          omega

/-- The loop of `prio_tree_expand`: the root is taken off for each bit, and goes to the end
of the chain. -/
def expandLoop (heap : ℕ) (hlt : heap < 2 ^ c.bitsPerLong) (root : Root α c)
    (spine : List (Node α c)) : Root α c × List (Node α c) :=
  if h : maxindex root.indexBits < heap then
    match root with
    | ⟨.nil, bits⟩ => expandLoop heap hlt ⟨.nil, bits + 1⟩ spine
    | ⟨.node x left right, bits⟩ =>
      expandLoop heap hlt (Root.removed ⟨.node x left right, bits + 1⟩ (pull (.node x left right)))
        (spine ++ [x])
  else (root, spine)
termination_by (root.tree.size, c.bitsPerLong - root.indexBits)
decreasing_by
  · have := maxindex_lt_bits hlt h
    simp only at this ⊢
    exact Prod.Lex.right _ (by omega)
  · apply Prod.Lex.left
    have hsize : (pull (.node x left right)).size < (Tree.node x left right).size := by
      rw [size_pull]
      simp [Tree.size]
    unfold Root.removed
    split_ifs
    · simp [Root.init, Tree.size]
    · exact hsize

/-- `prio_tree_expand`. -/
def expand (root : Root α c) (node : Node α c) : Root α c :=
  let bits := if maxindex root.indexBits < node.heap then root.indexBits + 1 else root.indexBits
  let (expanded, spine) := expandLoop node.heap node.heap_lt { root with indexBits := bits } []
  { expanded with tree := .node node (chain spine expanded.tree) .nil }

end Expand

section Insert

/-- The loop of `prio_tree_insert`, and the node that it returns; none is the `BUG` behind
the loop. -/
def insertLoop (res : α) : Node α c → ℕ → Bool → Tree α c → Option α × Tree α c
  | _, _, _, .nil => (none, .nil)
  | new, mask, sizeFlag, .node cur left right =>
    if mask = 0 then (none, .node cur left right)
    else if cur.radix = new.radix ∧ cur.heap = new.heap then (some cur.addr, .node cur left right)
    else
      let swap := cur.heap < new.heap ∨ cur.heap = new.heap ∧ new.radix < cur.radix
      let top := if swap then new else cur
      let down := if swap then cur else new
      let index := if sizeFlag then down.heap - down.radix else down.radix
      let last := mask >>> 1 == 0
      let mask' := if last then 2 ^ (c.bitsPerLong - 1) else mask >>> 1
      if index &&& mask ≠ 0 then
        if right.isEmpty then (some res, .node top left (.node down .nil .nil))
        else
          let below := insertLoop res down mask' (sizeFlag || last) right
          (below.1, .node top left below.2)
      else
        if left.isEmpty then (some res, .node top (.node down .nil .nil) right)
        else
          let below := insertLoop res down mask' (sizeFlag || last) left
          (below.1, .node top below.2 right)

/-- `prio_tree_insert`. -/
def insert (root : Root α c) (node : Node α c) : Option α × Root α c :=
  if root.tree.isEmpty || decide (maxindex root.indexBits < node.heap) then
    (some node.addr, expand root node)
  else
    let below := insertLoop node.addr node (2 ^ (root.indexBits - 1)) false root.tree
    (below.1, { root with tree := below.2 })

end Insert

section Iterate
open Loops

/-- The way from a node to its parent: the side that it is on, the parent and the other child. -/
structure Frame (α : Type*) (c : Config) where
  right : Bool
  parent : Node α c
  sibling : Tree α c

/-- The fields of `struct prio_tree_iter` that change. The node `cur` comes with its children and
with the way up to the root. -/
structure Position (α : Type*) (c : Config) where
  cur : Node α c
  left : Tree α c
  right : Tree α c
  path : List (Frame α c)
  mask : ℕ
  value : ℕ
  sizeLevel : ℕ

/-- The other fields of `struct prio_tree_iter`. -/
structure Query (α : Type*) (c : Config) where
  root : Root α c
  rIndex : ℕ
  hIndex : ℕ

section
variable (q : Query α c) (p : Position α c)

/-- `overlap`. -/
def Query.overlap (x : Node α c) : Bool :=
  decide (x.radix ≤ q.hIndex) && decide (q.rIndex ≤ x.heap)

/-- What `prio_tree_left` and `prio_tree_right` do once they go down to a child `x`; none is a
`BUG_ON`. -/
def descend (value : ℕ) (frame : Frame α c) (x : Node α c) (left right : Tree α c) :
    Option (Position α c) :=
  let mask := p.mask >>> 1
  if mask ≠ 0 then
    some ⟨x, left, right, frame :: p.path, mask, value,
      if p.sizeLevel ≠ 0 then p.sizeLevel + 1 else p.sizeLevel⟩
  else if p.sizeLevel ≠ 0 then
    if left.isEmpty && right.isEmpty then
      some ⟨x, left, right, frame :: p.path, 2 ^ c.bitsPerLong - 1, value, p.sizeLevel + 1⟩
    else none
  else some ⟨x, left, right, frame :: p.path, 2 ^ (c.bitsPerLong - 1), value, 1⟩

/-- `prio_tree_left`: `some none` is the result `NULL`. -/
def prioTreeLeft : Option (Option (Position α c)) :=
  match p.left with
  | .nil => some none
  | .node x left right =>
    if q.rIndex ≤ x.heap then
      (descend p p.value ⟨false, p.cur, p.right⟩ x left right).map some
    else some none

/-- `prio_tree_right`. -/
def prioTreeRight : Option (Option (Position α c)) :=
  match p.right with
  | .nil => some none
  | .node x left right =>
    let value := if p.sizeLevel ≠ 0 then p.value else p.value ||| p.mask
    if q.hIndex < value then some none
    else if q.rIndex ≤ x.heap then
      (descend p value ⟨true, p.cur, p.left⟩ x left right).map some
    else some none

/-- The node that `parent` points to; at the root it is the node itself. -/
def Position.up : Position α c :=
  match p.path with
  | [] => p
  | ⟨false, parent, sibling⟩ :: path =>
    { p with cur := parent, left := .node p.cur p.left p.right, right := sibling, path := path }
  | ⟨true, parent, sibling⟩ :: path =>
    { p with cur := parent, left := sibling, right := .node p.cur p.left p.right, path := path }

/-- `prio_tree_parent`. -/
def prioTreeParent : Position α c :=
  let p := p.up
  let mask :=
    if p.mask = 2 ^ c.bitsPerLong - 1 then 1
    else if p.sizeLevel = 1 then 1
    else (p.mask <<< 1) % 2 ^ c.bitsPerLong
  let sizeLevel := if p.sizeLevel ≠ 0 then p.sizeLevel - 1 else p.sizeLevel
  let value := if sizeLevel = 0 ∧ p.value &&& mask ≠ 0 then p.value ^^^ mask else p.value
  { p with mask := mask, sizeLevel := sizeLevel, value := value }

/-- A round of the loop of `prio_tree_first`. -/
def firstRound : Option (Round (Position α c) (Option (Position α c))) :=
  if q.overlap p.cur then some (.done (some p))
  else
    match prioTreeLeft q p with
    | none => none
    | some (some p) => some (.next p)
    | some none =>
      match prioTreeRight q p with
      | none => none
      | some (some p) => some (.next p)
      | some none => some (.done none)

/-- `prio_tree_first`. -/
def prioTreeFirst : Option (Option (Position α c)) :=
  match q.root.tree with
  | .nil => some none
  | .node x left right =>
    if x.heap < q.rIndex then some none
    else
      loop (firstRound q) ⟨x, left, right, [], 2 ^ (q.root.indexBits - 1) % 2 ^ c.bitsPerLong, 0, 0⟩

/-- A round of the loop over `prio_tree_left` in `prio_tree_next`: at its end the flag tells
whether a node is found. -/
def leftRound : Option (Round (Position α c) (Position α c × Bool)) :=
  match prioTreeLeft q p with
  | none => none
  | some none => some (.done (p, false))
  | some (some p) => if q.overlap p.cur then some (.done (p, true)) else some (.next p)

/-- The loop over `prio_tree_parent` in `prio_tree_next`: up from every right child. -/
def climb (p : Position α c) : Position α c :=
  match _h : p.path with
  | [] => p
  | frame :: _ => if frame.right then climb (prioTreeParent p) else p
termination_by p.path.length
decreasing_by
  obtain ⟨right, parent, sibling⟩ := frame
  cases right <;> simp [prioTreeParent, Position.up, _h]

/-- A round of the loop over `prio_tree_right` in `prio_tree_next`. -/
def rightRound : Option (Round (Position α c) (Option (Position α c))) :=
  match prioTreeRight q p with
  | none => none
  | some (some p) => some (.done (some p))
  | some none =>
    let p := climb p
    if p.path.isEmpty then some (.done none) else some (.next (prioTreeParent p))

/-- `prio_tree_next` from the label `repeat` to the `goto`. -/
def nextRound : Option (Round (Position α c) (Option (Position α c))) :=
  match loop (leftRound q) p with
  | none => none
  | some (p, true) => some (.done (some p))
  | some (p, false) =>
    match loop (rightRound q) p with
    | none => none
    | some none => some (.done none)
    | some (some p) => if q.overlap p.cur then some (.done (some p)) else some (.next p)

end

/-- `prio_tree_next`; the position is none while `iter->cur` is `NULL`. -/
def prioTreeNext (q : Query α c) (iter : Option (Position α c)) : Option (Option (Position α c)) :=
  match iter with
  | none => prioTreeFirst q
  | some p => loop (nextRound q) p

/-- One call of `prio_tree_next` by a user who collects the nodes until it returns `NULL`. -/
def collectRound (q : Query α c) (found : List (Node α c)) (iter : Option (Position α c)) :
    Option (Round (List (Node α c) × Option (Position α c)) (List (Node α c))) :=
  match prioTreeNext q iter with
  | none => none
  | some none => some (.done found)
  | some (some p) => some (.next (found ++ [p.cur], some p))

/-- All the nodes that the calls of `prio_tree_next` return after `prio_tree_iter_init`. -/
def collect (q : Query α c) : Option (List (Node α c)) :=
  loop (fun s => collectRound q s.1 s.2) ([], none)

end Iterate

inductive Event (α : Type*) (c : Config)
  | insert (node : Node α c) (result : Option α)
  | remove (a : α)
  | replace (old : α) (node : Node α c)

/-- A node with this address is in the tree. -/
def Root.Holds (root : Root α c) (a : α) : Prop := ∃ x ∈ root.tree.nodes, x.addr = a

variable [DecidableEq α]

/-- One call. A node that is not in the tree is inserted, one that is in the tree is
removed, or replaced by one with the same indices that is not. -/
def Step (root : Root α c) : Event α c → Root α c → Prop
  | .insert node result, root' => ¬ root.Holds node.addr ∧ insert root node = (result, root')
  | .remove a, root' => root.Holds a ∧ root' = remove root a
  | .replace old node, root' =>
    (∃ x ∈ root.tree.nodes, x.addr = old ∧ x.radix = node.radix ∧ x.heap = node.heap) ∧
      ¬ root.Holds node.addr ∧ root' = replace root old node

end BooxKernel.PrioTree
