import BooxKernel.Rbtree.Order

/-!
# The fragment tree of a JFFS2 inode

`fs/jffs2/nodelist.c`: the functions that look up a fragment, add a data node to an inode and
truncate the tree. Fragments and data nodes live in memories indexed by their addresses, and
the `rb` fields of the fragments in the memory of the red-black tree. A `uint32_t` is a number
below `2 ^ 32`. A function returns `none` when it reaches `BUG()`, dereferences a null pointer
or never ends. An allocation hands out the address that is given, or fails.
-/
namespace BooxKernel.Jffs2

open ColoredTrees Loops Rbtree

/-- A `uint32_t` result, cut off. -/
def u32 (x : ℕ) : ℕ := x % 2 ^ 32

/-- A `uint32_t` difference. -/
def sub32 (x y : ℕ) : ℕ := u32 (x + (2 ^ 32 - y))

inductive Errno
  | enomem
  deriving DecidableEq, Repr

/-- The flags in the `flash_offset` of a raw node. -/
inductive RefFlags
  | unchecked
  | obsolete
  | pristine
  | normal
  deriving DecidableEq, Repr

/-- `struct jffs2_full_dnode`; of the raw node only its flags are here. -/
structure FullDnode where
  raw : RefFlags
  ofs : ℕ
  size : ℕ
  /-- The number of fragments that refer to this node. -/
  frags : ℕ
  deriving DecidableEq, Repr

/-- `struct jffs2_node_frag` without its `rb`; a hole has no node. -/
structure NodeFrag (N : Type) where
  node : Option N
  size : ℕ
  ofs : ℕ
  deriving DecidableEq, Repr

/-- `ofs + size`. -/
def NodeFrag.stop {N : Type} (f : NodeFrag N) : ℕ := u32 (f.ofs + f.size)

/-- The fragment tree of an inode with the fragments and nodes. -/
structure Inode (A N : Type) where
  fragtree : Mem A
  frag : A → NodeFrag N
  dnode : N → FullDnode
  /-- The nodes that `jffs2_mark_node_obsolete` was called for, the last one first. -/
  obsoleted : List N
  /-- The nodes that `jffs2_free_full_dnode` was called for, the last one first. -/
  freed : List N

variable {A N : Type} [DecidableEq A] [DecidableEq N]

namespace Inode

section
variable (s : Inode A N)

def setFrag (a : A) (f : NodeFrag N) : Inode A N :=
  { s with frag := Function.update s.frag a f }

def modifyDnode (n : N) (g : FullDnode → FullDnode) : Inode A N :=
  { s with dnode := Function.update s.dnode n (g (s.dnode n)) }

def withTree (m : Mem A) : Inode A N := { s with fragtree := m }

/-- `mark_ref_normal`. -/
def markRefNormal (n : N) : Inode A N :=
  s.modifyDnode n fun d => { d with raw := .normal }

/-- `if (node) mark_ref_normal(node->raw)`. -/
def markRefNormalOf (p : Option N) : Inode A N :=
  match p with
  | none => s
  | some n => s.markRefNormal n

/-- `if (node) node->frags++`. -/
def countFrag (p : Option N) : Inode A N :=
  match p with
  | none => s
  | some n => s.modifyDnode n fun d => { d with frags := u32 (d.frags + 1) }

/-- `jffs2_mark_node_obsolete`, as far as the node itself is concerned. -/
def markNodeObsolete (n : N) : Inode A N :=
  { s.modifyDnode n (fun d => { d with raw := .obsolete }) with obsoleted := n :: s.obsoleted }

/-- `jffs2_free_full_dnode`. -/
def freeFullDnode (n : N) : Inode A N := { s with freed := n :: s.freed }

/-- `jffs2_obsolete_node_frag`. -/
def obsoleteNodeFrag (this : A) : Inode A N :=
  match (s.frag this).node with
  | none => s
  | some n =>
    let s := s.modifyDnode n fun d => { d with frags := sub32 d.frags 1 }
    if (s.dnode n).frags = 0 then (s.markNodeObsolete n).freeFullDnode n
    else s.markRefNormal n

/-! ## Looking up -/

/-- A round of the loop of `jffs2_lookup_node_frag`. -/
def lookupRound (offset : ℕ) (next prev : Option A) :
    Option (Round (Option A × Option A) (Option A)) :=
  match next with
  | none => some (.done prev)
  | some a =>
    if (s.frag a).stop ≤ offset then
      -- the closest smaller match on the way down
      let prev := match prev with
        | none => some a
        | some p => if (s.frag p).ofs < (s.frag a).ofs then some a else some p
      some (.next ((s.fragtree.node a).right, prev))
    else if offset < (s.frag a).ofs then some (.next ((s.fragtree.node a).left, prev))
    else some (.done (some a))

def lookupLoop (offset : ℕ) (next prev : Option A) : Option (Option A) :=
  loop (fun v => s.lookupRound offset v.1 v.2) (next, prev)

/-- `jffs2_lookup_node_frag`. -/
def lookupNodeFrag (offset : ℕ) : Option (Option A) :=
  s.lookupLoop offset s.fragtree.root none

/-! ## Adding a node -/

/-- `rb_link_node` and `rb_insert_color`. -/
def linkColor (a : A) (parent : Option A) (link : Link A) : Option (Inode A N) :=
  (rbInsertColor a (rbLinkNode a parent link s.fragtree)).map s.withTree

/-- A round of `jffs2_fragtree_insert`: the place where it links the new fragment. -/
def insertRound (newfrag base : A) : Option (Round A (A × Side)) :=
  let go (d : Side) : Round A (A × Side) :=
    match (s.fragtree.node base).child d with
    | none => .done (base, d)
    | some next => .next next
  if (s.frag base).ofs < (s.frag newfrag).ofs then some (go .right)
  else if (s.frag newfrag).ofs < (s.frag base).ofs then some (go .left)
  else none

/-- `jffs2_fragtree_insert` and the `rb_insert_color` behind each of its calls. -/
def fragtreeInsert (newfrag base : A) : Option (Inode A N) := do
  let (parent, d) ← loop (s.insertRound newfrag) base
  s.linkColor newfrag (some parent) (.child parent d)

/-- `new_fragment` with the address that the allocation returns. -/
def newFragment (a : A) (fn : Option N) (ofs size : ℕ) : Inode A N :=
  s.setFrag a ⟨fn, size, ofs⟩

/-- What `no_overlapping_node` links to the right of, or else at the root. -/
def linkBehind (a : A) (this : Option A) : Option (Inode A N) :=
  match this with
  | none => s.linkColor a none .root
  | some p => s.linkColor a (some p) (.child p .right)

/-- `no_overlapping_node`; `extra` is for the hole. -/
def noOverlappingNode (newfrag : A) (this : Option A) (lastend : ℕ)
    (extra : Option A) : Option (Inode A N × Option Errno) := do
  let n ← (s.frag newfrag).node
  if lastend < (s.dnode n).ofs then
    match extra with
    | none => return (s, some .enomem)
    | some holefrag =>
      let s := s.newFragment holefrag none lastend (sub32 (s.dnode n).ofs lastend)
      let s ← s.linkBehind holefrag this
      let s ← s.linkBehind newfrag (some holefrag)
      return (s, none)
  else
    let s ← s.linkBehind newfrag this
    return (s, none)

end

/-- A round of the loop that takes the fragments away that are overlapped completely. -/
def swallowRound (newfrag : A) (s : Inode A N) :
    Option (Round (Inode A N) (Inode A N × Option A)) := do
  match ← rbNext newfrag s.fragtree with
  | none => return .done (s, none)
  | some this =>
    if (s.frag this).stop ≤ (s.frag newfrag).stop then
      let m ← rbErase this s.fragtree
      return .next ((s.withTree m).obsoleteNodeFrag this)
    else return .done (s, some this)

section
variable (s : Inode A N)

section
variable (shift : ℕ) (fn : N)

def swallowLoop (newfrag : A) : Option (Inode A N × Option A) :=
  loop (swallowRound newfrag) s

/-- The end of `jffs2_add_frag_to_fragtree`, when the new fragment is in the tree. -/
def trimFollowing (newfrag : A) : Option (Inode A N) := do
  let (s, this) ← s.swallowLoop newfrag
  match this with
  | none => return s
  | some a =>
    if (s.frag newfrag).stop = (s.frag a).ofs then return s
    else
      let f := s.frag a
      let size := sub32 f.stop (s.frag newfrag).stop
      let s := s.setFrag a { f with size := size, ofs := (s.frag newfrag).stop }
      let s := s.markRefNormalOf (s.frag a).node
      return s.markRefNormalOf (s.frag newfrag).node

/-- The new fragment splits `this` into two. -/
def splitFrag (newfrag this : A) (extra : Option A) : Option (Inode A N × Option Errno) :=
  match extra with
  | none => some (s, some .enomem)
  | some newfrag2 => do
    let f := s.frag this
    let new := s.frag newfrag
    let s := s.newFragment newfrag2 f.node new.stop (sub32 f.stop new.stop)
    let s := s.countFrag f.node
    let s := s.setFrag this { f with size := sub32 new.ofs f.ofs }
    let s ← s.fragtreeInsert newfrag this
    let s ← s.fragtreeInsert newfrag2 newfrag
    return (s, none)

/-- The new fragment starts behind the start of `this`. -/
def overlapInside (newfrag this : A) (extra : Option A) : Option (Inode A N × Option Errno) :=
  let s := s.markRefNormalOf (s.frag newfrag).node
  let s := s.markRefNormalOf (s.frag this).node
  if (s.frag newfrag).stop < (s.frag this).stop then s.splitFrag newfrag this extra
  else do
    let f := s.frag this
    let s := s.setFrag this { f with size := sub32 (s.frag newfrag).ofs f.ofs }
    let s ← s.fragtreeInsert newfrag this
    let s ← s.trimFollowing newfrag
    return (s, none)

/-- The new fragment starts where `this` starts, and takes its place in the tree. -/
def overlapStart (newfrag this : A) : Option (Inode A N × Option Errno) := do
  let s := s.withTree (rbReplaceNode this newfrag s.fragtree)
  if (s.frag this).stop ≤ (s.frag newfrag).stop then
    let s := s.obsoleteNodeFrag this
    let s ← s.trimFollowing newfrag
    return (s, none)
  else
    let f := s.frag this
    let size := (s.frag newfrag).size
    let s := s.setFrag this { f with ofs := u32 (f.ofs + size), size := sub32 f.size size }
    let s ← s.fragtreeInsert this newfrag
    return (s, none)

/-- The new fragment and the last one are on one page: both are marked. -/
def markSharedPage (newfrag : A) (this : Option A) (lastend : ℕ) : Option (Inode A N) :=
  if lastend ≠ 0 ∧ (lastend - 1) >>> shift = (s.frag newfrag).ofs >>> shift then do
    let a ← this
    return (s.markRefNormalOf (s.frag a).node).markRefNormalOf (s.frag newfrag).node
  else some s

/-- `jffs2_add_frag_to_fragtree`; `shift` is `PAGE_CACHE_SHIFT`. -/
def addFragToFragtree (newfrag : A) (extra : Option A) : Option (Inode A N × Option Errno) := do
  let n ← (s.frag newfrag).node
  let this ← s.lookupNodeFrag (s.dnode n).ofs
  let lastend := match this with
    | none => 0
    | some a => (s.frag a).stop
  if lastend ≤ (s.frag newfrag).ofs then
    let s ← s.markSharedPage shift newfrag this lastend
    s.noOverlappingNode newfrag this lastend extra
  else
    let a ← this
    if (s.frag a).ofs < (s.frag newfrag).ofs then s.overlapInside newfrag a extra
    else s.overlapStart newfrag a

/-- The nodes on the page on which the new fragment starts are marked. -/
def markPrevious (newfrag : A) : Option (Inode A N) :=
  if (s.frag newfrag).ofs &&& (2 ^ shift - 1) ≠ 0 then do
    let prev ← rbPrev newfrag s.fragtree
    let s := s.markRefNormal fn
    -- there is always a previous one
    let a ← prev
    return s.markRefNormalOf (s.frag a).node
  else some s

/-- The nodes on the page on which the new fragment ends are marked. -/
def markNext (newfrag : A) : Option (Inode A N) :=
  if (s.frag newfrag).stop &&& (2 ^ shift - 1) ≠ 0 then do
    match ← rbNext newfrag s.fragtree with
    | none => return s
    | some a => return (s.markRefNormal fn).markRefNormalOf (s.frag a).node
  else some s

/-- `jffs2_add_full_dnode_to_inode`. -/
def addFullDnodeToInode (new extra : Option A) : Option (Inode A N × Option Errno) :=
  if (s.dnode fn).size = 0 then some (s, none)
  else
    match new with
    | none => some (s, some .enomem)
    | some newfrag => do
      let s := s.newFragment newfrag (some fn) (s.dnode fn).ofs (s.dnode fn).size
      let s := s.modifyDnode fn fun d => { d with frags := 1 }
      let (s, ret) ← s.addFragToFragtree shift newfrag extra
      match ret with
      | some e => return (s, some e)
      | none =>
        let s ← s.markPrevious shift fn newfrag
        let s ← s.markNext shift fn newfrag
        return (s, none)

end

end

/-! ## Truncating -/

/-- A round of the loop of `jffs2_truncate_fragtree`. -/
def truncateRound (size : ℕ) (v : Inode A N × Option A) :
    Option (Round (Inode A N × Option A) (Inode A N)) :=
  match v with
  | (s, none) => some (.done s)
  | (s, some frag) =>
    if size ≤ (s.frag frag).ofs then do
      let next ← rbNext frag s.fragtree
      let m ← rbErase frag s.fragtree
      return .next ((s.withTree m).obsoleteNodeFrag frag, next)
    else some (.done s)

/-- The fragment with the new end is cut off, and the next one is returned. -/
def cutFrag (s : Inode A N) (size : ℕ) (frag : Option A) : Option (Inode A N × Option A) :=
  match frag with
  | none => some (s, none)
  | some a =>
    if (s.frag a).ofs ≠ size then do
      let f := s.frag a
      let s := if size < f.stop then s.setFrag a { f with size := sub32 size f.ofs } else s
      let next ← rbNext a s.fragtree
      return (s, next)
    else some (s, some a)

/-- The end of `jffs2_truncate_fragtree`. -/
def finishTruncate (s : Inode A N) (shift size : ℕ) : Option (Inode A N × ℕ) :=
  if size = 0 then some (s, 0)
  else do
    match ← rbLast s.fragtree with
    | none => return (s, 0)
    | some a =>
      let f := s.frag a
      if f.stop < size then return (s, f.stop)
      else
        match f.node with
        | none => return (s, size)
        | some n =>
          if f.ofs &&& (2 ^ shift - 1) = 0 then
            return (s.modifyDnode n (fun d => { d with raw := .pristine }), size)
          else return (s, size)

/-- `jffs2_truncate_fragtree`. -/
def truncateFragtree (s : Inode A N) (shift size : ℕ) : Option (Inode A N × ℕ) := do
  let frag ← s.lookupNodeFrag size
  let v ← s.cutFrag size frag
  let s ← loop (truncateRound size) v
  s.finishTruncate shift size

end Inode

end BooxKernel.Jffs2
