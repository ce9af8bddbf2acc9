import BooxKernel.Lib.ColoredTrees
import BooxKernel.Lib.Loops

/-!
# The red-black tree of `lib/rbtree.c`

The nodes live in a memory indexed by their addresses. A function returns `none` when it
dereferences a null pointer or when its loop never ends: no loop has a bound on the number of
its rounds. The two mirrored halves of each piece of code are one definition with a side `d`.
-/
namespace BooxKernel.Rbtree

open ColoredTrees Loops

/-- `struct rb_node`; the parent and the colour in `rb_parent_color` are kept apart. -/
@[ext]
structure Node (A : Type*) where
  parent : Option A
  color : Color
  right : Option A
  left : Option A

variable {A : Type*}

namespace Node

def child (n : Node A) : Side → Option A
  | .left => n.left
  | .right => n.right

def setChild (n : Node A) (d : Side) (p : Option A) : Node A :=
  match d with
  | .left => { n with left := p }
  | .right => { n with right := p }

def setParent (n : Node A) (p : Option A) : Node A := { n with parent := p }

def setColor (n : Node A) (c : Color) : Node A := { n with color := c }

end Node

/-- The memory of the nodes, and the pointer in the `struct rb_root`. -/
structure Mem (A : Type*) where
  node : A → Node A
  root : Option A

/-- `!p || rb_is_black(p)`. -/
def Mem.isBlack (m : Mem A) (p : Option A) : Bool :=
  match p with
  | none => true
  | some a => (m.node a).color = .black

variable [DecidableEq A]

namespace Mem

def update (m : Mem A) (a : A) (f : Node A → Node A) : Mem A :=
  { m with node := Function.update m.node a (f (m.node a)) }

/-- `rb_set_parent`. -/
def setParent (m : Mem A) (a : A) (p : Option A) : Mem A := m.update a fun n => n.setParent p

/-- `rb_set_color`, `rb_set_red` and `rb_set_black`. -/
def setColor (m : Mem A) (a : A) (c : Color) : Mem A := m.update a fun n => n.setColor c

def setChild (m : Mem A) (a : A) (d : Side) (p : Option A) : Mem A :=
  m.update a fun n => n.setChild d p

/-- `if (p) rb_set_parent(p, q)`. -/
def setParentOf (m : Mem A) (p q : Option A) : Mem A :=
  match p with
  | none => m
  | some a => m.setParent a q

/-- `if (p) rb_set_color(p, c)`. -/
def setColorOf (m : Mem A) (p : Option A) (c : Color) : Mem A :=
  match p with
  | none => m
  | some a => m.setColor a c

/-- Where `parent`, or the root, points to `old` it points to `new` from now on. The side
`d` is the one that the code looks at first. -/
def replaceChild (d : Side) (m : Mem A) (parent : Option A) (old : A) (new : Option A) : Mem A :=
  match parent with
  | none => { m with root := new }
  | some p =>
    if (m.node p).child d = some old then m.setChild p d new else m.setChild p d.opp new

end Mem

/-- The pointer to a pointer that `rb_link_node` gets: `&root->rb_node`, or the address of
a child pointer. -/
inductive Link (A : Type*)
  | root
  | child (parent : A) (d : Side)

namespace Link

def parent : Link A → Option A
  | root => none
  | child p _ => some p

/-- The pointer that stands there. -/
def deref (m : Mem A) : Link A → Option A
  | root => m.root
  | child p d => (m.node p).child d

end Link

/-- `rb_link_node`: a parent's address without further bits is the colour `RB_RED`. -/
def rbLinkNode (node : A) (parent : Option A) (link : Link A) (m : Mem A) : Mem A :=
  let m := m.update node fun _ => ⟨parent, .red, none, none⟩
  match link with
  | .root => { m with root := some node }
  | .child p d => m.setChild p d (some node)

/-- `__rb_rotate_left` and `__rb_rotate_right`, with the name that the first one has for
the child that comes up. -/
def rbRotate (d : Side) (node : A) (m : Mem A) : Option (Mem A) := do
  let right ← (m.node node).child d.opp
  let parent := (m.node node).parent
  let mid := (m.node right).child d
  let m := m.setChild node d.opp mid
  let m := m.setParentOf mid (some node)
  let m := m.setChild right d (some node)
  let m := m.setParent right parent
  let m := m.replaceChild d parent node (some right)
  return m.setParent node (some right)

/-- `__rb_rotate_left`. -/
abbrev rbRotateLeft (node : A) (m : Mem A) : Option (Mem A) := rbRotate .left node m

/-- `__rb_rotate_right`. -/
abbrev rbRotateRight (node : A) (m : Mem A) : Option (Mem A) := rbRotate .right node m

/-- One round of `rb_insert_color` where `parent` is the child of `gparent` on the side
`d`. It returns the node of the next round. -/
def insertRound (d : Side) (node parent gparent : A) (m : Mem A) : Option (A × Mem A) :=
  let uncle := (m.node gparent).child d.opp
  if m.isBlack uncle then do
    -- `node` and `parent` change their names after the first rotation
    let inner := decide ((m.node parent).child d.opp = some node)
    let m ← if inner then rbRotate d parent m else some m
    let (node, parent) := if inner then (parent, node) else (node, parent)
    let m := m.setColor parent .black
    let m := m.setColor gparent .red
    let m ← rbRotate d.opp gparent m
    return (node, m)
  else
    let m := m.setColorOf uncle .black
    let m := m.setColor parent .black
    let m := m.setColor gparent .red
    some (gparent, m)

/-- The side of `parent` that the code takes `p` for: it compares with `rb_left` only. -/
def Mem.sideOf (m : Mem A) (parent : A) (p : Option A) : Side :=
  if (m.node parent).left = p then .left else .right

/-- The loop of `rb_insert_color` with the colouring of the root behind it. -/
def insertColorRound (node : A) (m : Mem A) : Option (Round (A × Mem A) (Mem A)) :=
  match (m.node node).parent with
  | none => do
    let top ← m.root
    return .done (m.setColor top .black)
  | some parent =>
    if (m.node parent).color = .red then do
      let gparent ← (m.node parent).parent
      let next ← insertRound (m.sideOf gparent (some parent)) node parent gparent m
      return .next next
    else do
      let top ← m.root
      return .done (m.setColor top .black)

/-- `rb_insert_color`. -/
def rbInsertColor (node : A) (m : Mem A) : Option (Mem A) :=
  loop (fun s => insertColorRound s.1 s.2) (node, m)

lemma rbInsertColor_eq (node : A) (m : Mem A) :
    rbInsertColor node m = (insertColorRound node m).bind
      (Round.elim fun s => rbInsertColor s.1 s.2) :=
  loop_eq _ _

/-- How a round of `__rb_erase_color` ends: the loop goes on with the parent, or it breaks. -/
inductive Outcome (A : Type*)
  | up (m : Mem A)
  | break (m : Mem A)

section
variable (d : Side) (parent : A) (m : Mem A)

/-- The end of a round of `__rb_erase_color` that breaks the loop. In this and the next
definitions the node is the child of `parent` on the side `d`, and `other` is read again
whether or not a rotation has just changed it. -/
def eraseBreak : Option (Mem A) := do
  let other ← (m.node parent).child d.opp
  let m := m.setColor other (m.node parent).color
  let m := m.setColor parent .black
  let m := m.setColorOf ((m.node other).child d.opp) .black
  rbRotate d parent m

/-- A round of `__rb_erase_color` from the test of the children of `other` on. -/
def eraseNephews : Option (Outcome A) := do
  let other ← (m.node parent).child d.opp
  if m.isBlack (m.node other).left && m.isBlack (m.node other).right then
    return .up (m.setColor other .red)
  else
    let m ←
      if m.isBlack ((m.node other).child d.opp) then
        rbRotate d.opp other ((m.setColorOf ((m.node other).child d) .black).setColor other .red)
      else some m
    let m ← eraseBreak d parent m
    return .break m

/-- One round of `__rb_erase_color`. -/
def eraseRound : Option (Outcome A) := do
  let other ← (m.node parent).child d.opp
  let m ←
    if (m.node other).color = .red then
      rbRotate d parent ((m.setColor other .black).setColor parent .red)
    else some m
  eraseNephews d parent m

end

section
variable (node parent : Option A) (m : Mem A)

/-- The loop of `__rb_erase_color` with the colouring behind it. -/
def eraseColorRound : Option (Round (Option A × Option A × Mem A) (Mem A)) :=
  if m.isBlack node ∧ node ≠ m.root then do
    let parent ← parent
    match ← eraseRound (m.sideOf parent node) parent m with
    | .up m => return .next (some parent, (m.node parent).parent, m)
    | .break m => return .done (m.setColorOf m.root .black)
  else some (.done (m.setColorOf node .black))

/-- `__rb_erase_color`. -/
def rbEraseColor : Option (Mem A) :=
  loop (fun s => eraseColorRound s.1 s.2.1 s.2.2) (node, parent, m)

lemma rbEraseColor_eq : rbEraseColor node parent m = (eraseColorRound node parent m).bind
      (Round.elim fun s => rbEraseColor s.1 s.2.1 s.2.2) :=
  loop_eq _ _

end

/-- `while ((left = node->rb_left) != NULL) node = left`, or the same to the right. -/
def farthest (d : Side) (m : Mem A) (node : A) : Option A :=
  loop (fun node => match (m.node node).child d with
    | none => some (.done node)
    | some child => some (.next child)) node

omit [DecidableEq A] in
lemma farthest_eq (d : Side) (m : Mem A) (node : A) :
    farthest d m node = match (m.node node).child d with
      | none => some node
      | some child => farthest d m child := by
  rw [farthest, loop_eq]
  cases (m.node node).child d <;> rfl

/-- The end of the next definition, from `node->rb_parent_color = old->rb_parent_color` on:
`node`, which has left its own place, takes the one of `old`. -/
def takeOver (old node : A) (m : Mem A) : Option (Mem A) := do
  let m := m.update node fun _ => m.node old
  let m := m.replaceChild .left (m.node old).parent old (some node)
  let left ← (m.node old).left
  let m := m.setParent left (some node)
  return m.setParentOf (m.node old).right (some node)

/-- The part of `rb_erase` for a node `old` that has both children: its successor `node`
replaces it. -/
def eraseInner (old right : A) (m : Mem A) : Option (Mem A) := do
  let node ← farthest .left m right
  let child := (m.node node).right
  let parent ← (m.node node).parent
  let color := (m.node node).color
  let m := m.setParentOf child (some parent)
  let m := if parent = old then m.setChild parent .right child else m.setChild parent .left child
  let parent := if parent = old then node else parent
  let m ← takeOver old node m
  if color = .black then rbEraseColor child (some parent) m else return m

/-- The part of `rb_erase` for a node that has no child other than `child`. -/
def eraseOuter (node : A) (child : Option A) (m : Mem A) : Option (Mem A) :=
  let parent := (m.node node).parent
  let color := (m.node node).color
  let m := m.setParentOf child parent
  let m := m.replaceChild .left parent node child
  if color = .black then rbEraseColor child parent m else some m

/-- `rb_erase`. -/
def rbErase (node : A) (m : Mem A) : Option (Mem A) :=
  match (m.node node).left, (m.node node).right with
  | none, right => eraseOuter node right m
  | some left, none => eraseOuter node (some left) m
  | some _, some right => eraseInner node right m

end BooxKernel.Rbtree
