import BooxKernel.Lib.BalancedTrees
import BooxKernel.Lib.Loops

/-!
# The pool of peers of `net/ipv4/inetpeer.c`

The peers live in a memory indexed by their addresses, in which `none` is the address of
`peer_fake_node`: `peer_avl_empty` is a node like any other, that the code never should write.
A function returns `none` where a `BUG()` fires, where it writes behind the end of the stack
and where a loop never ends. The two mirrored halves of `peer_avl_rebalance` are one definition
with a side `d`, under the names of the first half.
-/
namespace BooxKernel.InetPeer

open ColoredTrees (Side)
open Loops

/-- An address as the code compares it: the value of the `__be32` as a `__u32`. -/
abbrev Daddr := Fin (2 ^ 32)

/-- The fields of `struct inet_peer` that the pool uses. -/
structure Node (A : Type*) where
  avlLeft : Option A
  avlRight : Option A
  v4daddr : Daddr
  avlHeight : ℕ
  refcnt : ℤ

variable {A : Type*}

namespace Node

def child (n : Node A) : Side → Option A
  | .left => n.avlLeft
  | .right => n.avlRight

def setChild (n : Node A) (d : Side) (p : Option A) : Node A :=
  match d with
  | .left => { n with avlLeft := p }
  | .right => { n with avlRight := p }

/-- `avl_height` is a `__u16`. -/
def setHeight (n : Node A) (h : ℕ) : Node A := { n with avlHeight := h % 2 ^ 16 }

end Node

/-- `peer_fake_node`. -/
def peerFakeNode : Node A := ⟨none, none, 0, 0, 0⟩

/-- The memory of the peers, `peer_root` and `peer_total`. -/
structure Mem (A : Type*) where
  node : Option A → Node A
  root : Option A
  total : ℤ

/-- A pointer to a pointer: `&peer_root`, or the address of a child pointer. -/
inductive Slot (A : Type*)
  | root
  | child (d : Side) (p : Option A)
  deriving DecidableEq

/-- `PEER_MAXDEPTH`. -/
def peerMaxDepth : ℕ := 40

/-- `*stackptr++ = v`. -/
def push (stack : List (Slot A)) (v : Slot A) : Option (List (Slot A)) :=
  if stack.length < peerMaxDepth then some (stack ++ [v]) else none

namespace Mem

/-- `node_height`. -/
def height (m : Mem A) (p : Option A) : ℕ := (m.node p).avlHeight

/-- `*v`. -/
def deref (m : Mem A) : Slot A → Option A
  | .root => m.root
  | .child d p => (m.node p).child d

variable [DecidableEq A]

def update (m : Mem A) (p : Option A) (f : Node A → Node A) : Mem A :=
  { m with node := Function.update m.node p (f (m.node p)) }

def setChild (m : Mem A) (p : Option A) (d : Side) (q : Option A) : Mem A :=
  m.update p fun n => n.setChild d q

def setHeight (m : Mem A) (p : Option A) (h : ℕ) : Mem A := m.update p fun n => n.setHeight h

/-- `*v = q`. -/
def assign (m : Mem A) (v : Slot A) (q : Option A) : Mem A :=
  match v with
  | .root => { m with root := q }
  | .child d p => m.setChild p d q

end Mem

section Lookup

section
variable (m : Mem A) (daddr : Daddr) (record : Bool) (stack : List (Slot A)) (u : Option A)

/-- A round of `lookup`. The stack is written when `record` says that there is one. -/
def lookupRound : Option (Round (List (Slot A) × Option A) (List (Slot A) × Option A)) :=
  if u = none then some (.done (stack, u))
  else if daddr = (m.node u).v4daddr then some (.done (stack, u))
  else
    let v := if daddr < (m.node u).v4daddr then Slot.child .left u else Slot.child .right u
    if record then (push stack v).map fun stack => .next (stack, m.deref v)
    else some (.next (stack, m.deref v))

/-- The loop of `lookup`. -/
def lookupLoop : Option (List (Slot A) × Option A) :=
  loop (fun s => lookupRound m daddr record s.1 s.2) (stack, u)

lemma lookupLoop_eq :
    lookupLoop m daddr record stack u = (lookupRound m daddr record stack u).bind
      (Round.elim fun s => lookupLoop m daddr record s.1 s.2) := loop_eq _ _

/-- `lookup(daddr, NULL)`. -/
def lookup : Option (Option A) :=
  (lookupLoop m daddr false [] m.root).map Prod.snd

end

/-- `lookup(daddr, stack)`: the stack up to `stackptr`, and the node. -/
def lookupStack (m : Mem A) (daddr : Daddr) : Option (List (Slot A) × Option A) :=
  (push [] .root).bind fun stack => lookupLoop m daddr true stack m.root

section
variable (m : Mem A) (stack : List (Slot A)) (u : Option A)

/-- A round of `lookup_rightempty`. -/
def rightemptyRound : Option (Round (List (Slot A) × Option A) (List (Slot A) × Option A)) :=
  if (m.node u).avlRight = none then some (.done (stack, u))
  else
    let v := Slot.child .right u
    (push stack v).map fun stack => .next (stack, m.deref v)

/-- The loop of `lookup_rightempty`. -/
def rightemptyLoop : Option (List (Slot A) × Option A) :=
  loop (fun s => rightemptyRound m s.1 s.2) (stack, u)

lemma rightemptyLoop_eq : rightemptyLoop m stack u = (rightemptyRound m stack u).bind
      (Round.elim fun s => rightemptyLoop m s.1 s.2) := loop_eq _ _

/-- `lookup_rightempty`. -/
def lookupRightempty (start : Option A) : Option (List (Slot A) × Option A) :=
  let v := Slot.child .left start
  (push stack v).bind fun stack => rightemptyLoop m stack (m.deref v)

end

end Lookup

section Rebalance
variable [DecidableEq A]

/-- The branch of `peer_avl_rebalance` for a subtree `l` on the side `d` that is too high, next
to a subtree `r` of height `rh`. -/
def rotate (d : Side) (nodep : Slot A) (node l r : Option A) (rh : ℕ) (m : Mem A) : Mem A :=
  let ll := (m.node l).child d
  let lr := (m.node l).child d.opp
  let lrh := m.height lr
  if lrh ≤ m.height ll then
    let m := m.setChild node d lr
    let m := m.setChild node d.opp r
    let m := m.setHeight node (lrh + 1)
    let m := m.setChild l d ll
    let m := m.setChild l d.opp node
    let m := m.setHeight l (m.height node + 1)
    m.assign nodep l
  else
    let lrl := (m.node lr).child d
    let lrr := (m.node lr).child d.opp
    let m := m.setChild node d lrr
    let m := m.setChild node d.opp r
    let m := m.setHeight node (rh + 1)
    let m := m.setChild l d ll
    let m := m.setChild l d.opp lrl
    let m := m.setHeight l (rh + 1)
    let m := m.setChild lr d l
    let m := m.setChild lr d.opp node
    let m := m.setHeight lr (rh + 2)
    m.assign nodep lr

/-- A round of `peer_avl_rebalance`. -/
def rebalanceRound (nodep : Slot A) (m : Mem A) : Mem A :=
  let node := m.deref nodep
  let l := (m.node node).avlLeft
  let r := (m.node node).avlRight
  let lh := m.height l
  let rh := m.height r
  if lh > rh + 1 then rotate .left nodep node l r rh m
  else if rh > lh + 1 then rotate .right nodep node r l lh m
  else m.setHeight node ((if lh > rh then lh else rh) + 1)

/-- `peer_avl_rebalance`: the loop takes the entries of the stack from its end. -/
def peerAvlRebalance (stack : List (Slot A)) (m : Mem A) : Mem A := stack.foldr rebalanceRound m

end Rebalance

section Pool
variable [DecidableEq A]

/-- `link_to_pool`, with the stack that `lookup` left. -/
def linkToPool (n : A) (stack : List (Slot A)) (m : Mem A) : Option (Mem A) :=
  let m := m.setHeight n 1
  let m := m.setChild n .left none
  let m := m.setChild n .right none
  stack.getLast?.map fun slot => peerAvlRebalance stack.dropLast (m.assign slot n)

/-- `atomic_inc(&p->refcnt)`. -/
def atomicInc (p : Option A) (m : Mem A) : Mem A :=
  m.update p fun node => { node with refcnt := node.refcnt + 1 }

/-- What `inet_getpeer` does under the read lock: the peer that it found. -/
def getpeerRead (daddr : Daddr) (m : Mem A) : Option (Option A × Mem A) :=
  (lookup m daddr).map fun p => (p, if p ≠ none then atomicInc p m else m)

/-- What `inet_getpeer` does under the write lock, with the peer `n` that it has allocated: the
peer that it returns, and whether it has linked `n`. -/
def getpeerWrite (daddr : Daddr) (n : A) (m : Mem A) : Option (Option A × Bool × Mem A) :=
  let m := m.update n fun node => { node with v4daddr := daddr, refcnt := 1 }
  (lookupStack m daddr).bind fun (stack, p) =>
    if p ≠ none then some (p, false, atomicInc p m)
    else (linkToPool n stack m).map fun m => (some n, true, { m with total := m.total + 1 })

/-- The writes of `unlink_from_pool` that put `t` into the place of `p`, to which `place` points. -/
def takePlace (p : A) (t : Option A) (place : Slot A) (m : Mem A) : Mem A :=
  let m := m.assign place t
  let m := m.setChild t .left (m.node p).avlLeft
  let m := m.setChild t .right (m.node p).avlRight
  m.setHeight t (m.node p).avlHeight

/-- The removal of `p`, which has a left subtree, in `unlink_from_pool`: the rightmost node `t`
of that subtree takes its place. -/
def unlinkInner (p : A) (stack : List (Slot A)) (delp : ℕ) (m : Mem A) :
    Option (List (Slot A) × Mem A) := do
  let (stack, t) ← lookupRightempty m stack p
  let stackptr := stack.length - 1
  let top ← stack[stackptr]?
  if m.deref top ≠ t then failure
  let m := m.assign top (m.node t).avlLeft
  let m := takePlace p t (← stack[delp]?) m
  if stack[delp + 1]? ≠ some (.child .left p) then failure
  let stack := stack.set (delp + 1) (.child .left t)
  return (stack.take stackptr, m)

/-- What `unlink_from_pool` does under the lock: `do_free`. -/
def unlinkFromPool (p : A) (m : Mem A) : Option (Bool × Mem A) := do
  if (m.node p).refcnt = 1 then
    let (stack, u) ← lookupStack m (m.node p).v4daddr
    if u ≠ some p then failure
    let delp := stack.length - 1
    if (m.node p).avlLeft = none then
      let m := m.assign (← stack[delp]?) (m.node p).avlRight
      let m := peerAvlRebalance (stack.take delp) m
      return (true, { m with total := m.total - 1 })
    else
      let (stack, m) ← unlinkInner p stack delp m
      let m := peerAvlRebalance stack m
      return (true, { m with total := m.total - 1 })
  else return (false, m)

end Pool

end BooxKernel.InetPeer
