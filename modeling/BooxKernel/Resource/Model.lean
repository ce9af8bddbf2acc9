import Mathlib.Data.Nat.Bitwise
import Mathlib.Tactic

/-!
# The resource tree

A pointer to a `struct resource` stands for the structure together with all that
can be reached from it through `child` and `sibling`: a chain of siblings, each
with the chain of its children. The structures carry their address and the
address in their `parent` field. Addresses of the resource space are numbers
below `2 ^ w`, where `w` is the width of `resource_size_t`, and the arithmetic on
them wraps.
-/
namespace BooxKernel.Resource

def eBUSY : ℤ := 16
def eINVAL : ℤ := 22

/-- The fields of a `struct resource` besides the links: `stop` is its `end`, and
`busy` the bit `IORESOURCE_BUSY` of its `flags`. -/
structure Res where
  addr : ℕ
  start : ℕ
  stop : ℕ
  busy : Bool
  parent : Option ℕ
  deriving Repr, DecidableEq

/-- A `struct resource` pointer. -/
inductive Chain
  | null
  | node (res : Res) (child sibling : Chain)
  deriving Repr, DecidableEq

namespace Chain

/-- The structures of the chain itself: one node's children. -/
def siblings : Chain → List Res
  | null => []
  | node res _ sibling => res :: sibling.siblings

/-- All structures that can be reached. -/
def resources : Chain → List Res
  | null => []
  | node res child sibling => res :: (child.resources ++ sibling.resources)

/-- All nodes that can be reached, each with its children. -/
def nodes : Chain → List (Res × Chain)
  | null => []
  | node res child sibling => (res, child) :: (child.nodes ++ sibling.nodes)

/-- Follow the pointer `a` into the tree and replace the node's children. -/
def modifyAt (a : ℕ) (f : Res → Chain → Option Chain) : Chain → Option Chain
  | null => none
  | node res child sibling =>
    if res.addr = a then (f res child).map fun child' => node res child' sibling
    else
      match child.modifyAt a f with
      | some child' => some (node res child' sibling)
      | none => (sibling.modifyAt a f).map fun sibling' => node res child sibling'

end Chain

section Insertion

/-- What a caller of `__request_resource` does with the conflict it returns:
give up, look below the conflicting resource, or put it below the new one. -/
inductive Decision
  | fail
  | descend
  | adopt
  deriving Repr, DecidableEq

/-- The second loop of `insert_resource`, from `next` on: the siblings that go
below `new`, and those that follow them. -/
def takeRun (new : Res) : Chain → Option (Chain × Chain)
  | .null => none
  | .node next child sibling =>
    if next.start < new.start ∨ next.stop > new.stop then none
    else
      match sibling with
      | .null => some (.node { next with parent := some new.addr } child .null, .null)
      | .node sib _ _ =>
        if sib.start > new.stop then
          some (.node { next with parent := some new.addr } child .null, sibling)
        else
          (takeRun new sibling).map fun run =>
            (.node { next with parent := some new.addr } child run.1, run.2)

/-- The loop of `__request_resource` over the children of `parent`, and what the
caller does with a conflict. -/
def placeChain (decision : Res → Decision) (new : Res) : (parent : ℕ) → Chain → Option Chain
  | parent, .null => some (.node { new with parent := some parent } .null .null)
  | parent, .node tmp child sibling =>
    if tmp.start > new.stop then
      some (.node { new with parent := some parent } .null (.node tmp child sibling))
    else if tmp.stop < new.start then
      (placeChain decision new parent sibling).map fun sibling' => .node tmp child sibling'
    else
      match decision tmp with
      | .fail => none
      | .descend =>
        (placeChain decision new tmp.addr child).map fun child' => .node tmp child' sibling
      | .adopt =>
        (takeRun new (.node tmp child sibling)).map fun run =>
          .node { new with parent := some parent } run.1 run.2

/-- `__request_resource` on the children of `root`, with the caller's decision
about a conflict. A new resource outside `root` conflicts with `root` itself. -/
def placeBelow (decision : Res → Decision) (new root : Res) (child : Chain) : Option Chain :=
  if new.stop < new.start then none
  else if new.start < root.start then none
  else if new.stop > root.stop then none
  else placeChain decision new root.addr child

/-- A conflict makes `request_resource` and `allocate_resource` fail. -/
def requestDecision (_ : Res) : Decision := .fail

/-- `insert_resource` looks below a resource that contains `new` and more. -/
def insertDecision (new first : Res) : Decision :=
  if first.start > new.start ∨ first.stop < new.stop then .adopt
  else if first.start = new.start ∧ first.stop = new.stop then .adopt
  else .descend

/-- `__request_region` looks below a resource that is not busy. There, a region
that it does not contain fails. -/
def regionDecision (new conflict : Res) : Decision :=
  if conflict.busy then .fail
  else if new.start < conflict.start ∨ new.stop > conflict.stop then .fail
  else .descend

end Insertion

section Search

variable (w : ℕ)

/-- `ALIGN`. -/
def align (x a : ℕ) : ℕ :=
  let mask := (a + 2 ^ w - 1) % 2 ^ w
  Nat.ldiff ((x + mask) % 2 ^ w) mask

/-- The loop of `find_resource` at the child `this`, with `new->start` at `start`.
The result is the range of `new`. -/
def findLoop (rootStop size min max alignment : ℕ) : (start : ℕ) → Chain → Option (ℕ × ℕ)
  | start, this =>
    let stop := match this with
      | .null => rootStop
      | .node res _ _ => (res.start + 2 ^ w - 1) % 2 ^ w
    let start := if start < min then min else start
    let stop := if stop > max then max else stop
    let start := align w start alignment
    if start < stop ∧ stop - start ≥ (size + 2 ^ w - 1) % 2 ^ w then
      some (start, (start + size + 2 ^ w - 1) % 2 ^ w)
    else
      match this with
      | .null => none
      | .node res _ sibling =>
        findLoop rootStop size min max alignment ((res.stop + 1) % 2 ^ w) sibling

/-- `find_resource` without an `alignf`. -/
def findResource (root : Res) (child : Chain) (size min max alignment : ℕ) : Option (ℕ × ℕ) :=
  match child with
  | .null => findLoop w root.stop size min max alignment root.start .null
  | .node res grandchild sibling =>
    if res.start = 0 then
      findLoop w root.stop size min max alignment ((res.stop + 1) % 2 ^ w) sibling
    else
      findLoop w root.stop size min max alignment root.start (.node res grandchild sibling)

end Search

section Removal

/-- The loop of `__release_resource` over the children of the parent. -/
def unlink (old : ℕ) : Chain → Option Chain
  | .null => none
  | .node tmp child sibling =>
    if tmp.addr = old then some sibling
    else (unlink old sibling).map fun sibling' => .node tmp child sibling'

/-- The loop of `__release_region`. -/
def unlinkRegion (start stop : ℕ) : Chain → Option Chain
  | .null => none
  | .node res child sibling =>
    if res.start ≤ start ∧ res.stop ≥ stop then
      if !res.busy then
        (unlinkRegion start stop child).map fun child' => .node res child' sibling
      else if res.start ≠ start ∨ res.stop ≠ stop then none
      else some sibling
    else (unlinkRegion start stop sibling).map fun sibling' => .node res child sibling'

end Removal

section Adjustment

/-- The checks of `adjust_resource` at `res` in the chain of its siblings, where `prev` is
the sibling before it, and the new range. -/
def adjustChain (res start stop : ℕ) : (prev : Option Res) → Chain → Option Chain
  | _, .null => none
  | prev, .node tmp child sibling =>
    if tmp.addr = res then
      if ∃ x ∈ child.siblings, x.start < start ∨ x.stop > stop then none
      else if ∃ x ∈ sibling.siblings.head?, x.start ≤ stop then none
      else if ∃ x ∈ prev, start ≤ x.stop then none
      else some (.node { tmp with start := start, stop := stop } child sibling)
    else
      (adjustChain res start stop (some tmp) sibling).map fun sibling' => .node tmp child sibling'

/-- `adjust_resource` as a change of the children of `parent`. -/
def adjustBelow (res start stop : ℕ) (parent : Res) (child : Chain) : Option Chain :=
  if start < parent.start ∨ stop > parent.stop then none else adjustChain res start stop none child

end Adjustment

section Calls

/-- A call's return value and the tree it leaves, for a change that may fail. -/
def outcome (error : ℤ) (tree : Chain) : Option Chain → ℤ × Chain
  | none => (-error, tree)
  | some tree' => (0, tree')

def requestResource (tree : Chain) (root : ℕ) (new : Res) : ℤ × Chain :=
  outcome eBUSY tree (tree.modifyAt root (placeBelow requestDecision new))

section
variable (w : ℕ) (tree : Chain)

/-- `allocate_resource` with `alignf` NULL. -/
def allocateResource (root : ℕ) (new : Res) (size min max alignment : ℕ) : ℤ × Chain :=
  outcome eBUSY tree (tree.modifyAt root fun res child =>
    match findResource w res child size min max alignment with
    | none => none
    | some (start, stop) =>
      placeBelow requestDecision { new with start := start, stop := stop } res child)

def insertResource (parent : ℕ) (new : Res) : ℤ × Chain :=
  outcome eBUSY tree (tree.modifyAt parent (placeBelow (insertDecision new) new))

/-- The structure that `__request_region` fills in, at the address that `kzalloc`
returned. -/
def regionRes (w addr start n : ℕ) : Res :=
  ⟨addr, start, (start + n + 2 ^ w - 1) % 2 ^ w, true, none⟩

/-- `__request_region`, where `addr` is what `kzalloc` returned. The result is the
new resource's address or NULL. -/
def requestRegion (parent start n : ℕ) (addr : Option ℕ) : Option ℕ × Chain :=
  match addr with
  | none => (none, tree)
  | some a =>
    let res := regionRes w a start n
    match tree.modifyAt parent (placeBelow (regionDecision res) res) with
    | none => (none, tree)
    | some tree' => (some a, tree')

/-- `release_resource`: `old->parent` is followed to the chain that holds `old`. -/
def releaseResource (old : ℕ) : ℤ × Chain :=
  match tree.resources.find? fun res => res.addr = old with
  | none => (-eINVAL, tree)
  | some res =>
    match res.parent with
    | none => (-eINVAL, tree)
    | some parent => outcome eINVAL tree (tree.modifyAt parent fun _ child => unlink old child)

/-- `adjust_resource`: `res->parent` is followed to the chain that holds `res`, which the
root does not have; `none` is a fault. -/
def adjustResource (res start size : ℕ) : Option (ℤ × Chain) :=
  match tree.resources.find? fun r => r.addr = res with
  | none => none
  | some r => r.parent.map fun parent =>
    outcome eBUSY tree
      (tree.modifyAt parent (adjustBelow res start ((start + size + 2 ^ w - 1) % 2 ^ w)))

def releaseRegion (parent start n : ℕ) : Chain :=
  let stop := (start + n + 2 ^ w - 1) % 2 ^ w
  ((tree.modifyAt parent fun _ child => unlinkRegion start stop child).getD tree)

end

end Calls

end BooxKernel.Resource
