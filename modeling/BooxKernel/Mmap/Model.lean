import BooxKernel.Rbtree.Model

/-!
# The areas of an address space

`mm/mmap.c`: the areas of a process are in the list of their `vm_next` pointers and in the
red-black tree `mm_rb`. As there, a function returns `none` when it dereferences a null
pointer, when a `BUG_ON` fires or when its loop never ends. Locks, page tables, reference
counts and the search trees of the mapped files are left out.
-/
namespace BooxKernel.Mmap

open Rbtree Loops

/-- Every machine keeps at least one page above `TASK_SIZE`. -/
structure Config where
  /-- `BITS_PER_LONG`. -/
  bits : ℕ
  /-- `PAGE_SHIFT`. -/
  pageShift : ℕ
  /-- `HPAGE_SHIFT`. -/
  hpageShift : ℕ
  /-- `TASK_SIZE`. -/
  taskSize : ℕ
  /-- `sysctl_max_map_count`. -/
  maxMapCount : ℕ
  taskSize_le : taskSize + 2 ^ pageShift ≤ 2 ^ bits

/-- `PAGE_SIZE`. -/
abbrev Config.pageSize (c : Config) : ℕ := 2 ^ c.pageShift

def vmPfnmap : ℕ := 0x00000400
def vmLocked : ℕ := 0x00002000
def vmIo : ℕ := 0x00004000
def vmDontexpand : ℕ := 0x00040000
def vmReserved : ℕ := 0x00080000
def vmHugetlb : ℕ := 0x00400000

/-- `VM_SPECIAL`. -/
def vmSpecial : ℕ := vmIo ||| vmDontexpand ||| vmReserved ||| vmPfnmap

/-- The types of what an area points to. -/
structure Kinds where
  File : Type
  Policy : Type
  AnonVma : Type
  [eqAnonVma : DecidableEq AnonVma]

attribute [instance] Kinds.eqAnonVma

/-- The fields of a `struct vm_area_struct` that say what its pages map. -/
@[ext]
structure Region (c : Config) (F : Type) where
  vmStart : ℕ
  vmEnd : ℕ
  vmFlags : ℕ
  vmFile : Option F
  vmPgoff : BitVec c.bits

/-- The fields of a `struct vm_area_struct`, without its links. -/
structure Area (c : Config) (K : Kinds) extends Region c K.File where
  /-- `vm_ops && vm_ops->close`. -/
  hasClose : Bool
  policy : K.Policy
  anonVma : Option K.AnonVma

/-- A `struct mm_struct` with the areas at their addresses. -/
structure Mm (c : Config) (K : Kinds) (V : Type) where
  area : V → Area c K
  vmNext : V → Option V
  /-- The `vm_rb` fields and the root `mm_rb`. -/
  rb : Rbtree.Mem V
  mmap : Option V
  mmapCache : Option V
  mapCount : ℕ
  totalVm : BitVec c.bits
  lockedVm : BitVec c.bits

inductive Errno
  | einval
  | enomem
  deriving DecidableEq, Repr

variable {c : Config} {K : Kinds} {V : Type}

section
variable (mm : Mm c K V) (addr : ℕ) (node prev : Option V)

/-- `vma_pages`. -/
def Region.vmaPages {F : Type} (a : Region c F) : ℕ := (a.vmEnd - a.vmStart) / c.pageSize

/-- `is_vm_hugetlb_page`. -/
def Area.isVmHugetlbPage (a : Area c K) : Bool := a.vmFlags &&& vmHugetlb ≠ 0

/-! ## Searching -/

/-- A round of the loop of `find_vma`. -/
def findVmaRound (node vma : Option V) : Option (Round (Option V × Option V) (Option V)) :=
  match node with
  | none => some (.done vma)
  | some tmp =>
    if addr < (mm.area tmp).vmEnd then
      if (mm.area tmp).vmStart ≤ addr then some (.done (some tmp))
      else some (.next ((mm.rb.node tmp).left, some tmp))
    else some (.next ((mm.rb.node tmp).right, vma))

/-- The loop of `find_vma`. -/
def findVmaLoop (node vma : Option V) : Option (Option V) :=
  loop (fun s => findVmaRound mm addr s.1 s.2) (node, vma)

lemma findVmaLoop_eq (node vma : Option V) :
    findVmaLoop mm addr node vma = (findVmaRound mm addr node vma).bind
      (Round.elim fun s => findVmaLoop mm addr s.1 s.2) :=
  loop_eq _ _

/-- `find_vma`, which may set the cache. -/
def findVma (mm : Mm c K V) : Option (Option V × Mm c K V) :=
  let hit := mm.mmapCache.filter fun vma =>
    addr < (mm.area vma).vmEnd ∧ (mm.area vma).vmStart ≤ addr
  match hit with
  | some vma => some (some vma, mm)
  | none => do
    let vma ← findVmaLoop mm addr mm.rb.root none
    return (vma, { mm with mmapCache := vma.or mm.mmapCache })

/-- A round of the loop of `find_vma_prev`. -/
def findVmaPrevRound : Option (Round (Option V × Option V) (Option V)) :=
  match node with
  | none => some (.done prev)
  | some tmp =>
    if addr < (mm.area tmp).vmEnd then some (.next ((mm.rb.node tmp).left, prev))
    else
      match mm.vmNext tmp with
      | none => some (.done (some tmp))
      | some next =>
        if addr < (mm.area next).vmEnd then some (.done (some tmp))
        else some (.next ((mm.rb.node tmp).right, some tmp))

/-- The loop of `find_vma_prev`. -/
def findVmaPrevLoop : Option (Option V) :=
  loop (fun s => findVmaPrevRound mm addr s.1 s.2) (node, prev)

lemma findVmaPrevLoop_eq :
    findVmaPrevLoop mm addr node prev = (findVmaPrevRound mm addr node prev).bind
      (Round.elim fun s => findVmaPrevLoop mm addr s.1 s.2) :=
  loop_eq _ _

end

/-- `find_vma_prev`: the area and the one in front of it. -/
def findVmaPrev (mm : Mm c K V) (addr : ℕ) : Option (Option V × Option V) := do
  let prev ← findVmaPrevLoop mm addr mm.rb.root none
  match prev with
  | some p => return (mm.vmNext p, prev)
  | none => return (mm.mmap, prev)

/-- What `find_vma_prepare` returns: an area around the address, with nothing else set, or the
area behind the address and the place for a new one. -/
inductive Prepared (V : Type)
  | inside (vma : V)
  | place (vma prev : Option V) (rbLink : Link V) (rbParent : Option V)

section
variable (mm : Mm c K V) (addr : ℕ) (rbLink : Link V) (rbParent rbPrev vma : Option V)

/-- A round of the loop of `find_vma_prepare`. -/
def findVmaPrepareRound : Option (Round (Link V × Option V × Option V × Option V) (Prepared V)) :=
  match rbLink.deref mm.rb with
  | none => some (.done (.place vma rbPrev rbLink rbParent))
  | some tmp =>
    if addr < (mm.area tmp).vmEnd then
      if (mm.area tmp).vmStart ≤ addr then some (.done (.inside tmp))
      else some (.next (.child tmp .left, some tmp, rbPrev, some tmp))
    else some (.next (.child tmp .right, some tmp, some tmp, vma))

/-- The loop of `find_vma_prepare`. -/
def findVmaPrepareLoop : Option (Prepared V) :=
  loop (fun s => findVmaPrepareRound mm addr s.1 s.2.1 s.2.2.1 s.2.2.2)
    (rbLink, rbParent, rbPrev, vma)

lemma findVmaPrepareLoop_eq : findVmaPrepareLoop mm addr rbLink rbParent rbPrev vma =
      (findVmaPrepareRound mm addr rbLink rbParent rbPrev vma).bind
        (Round.elim fun s => findVmaPrepareLoop mm addr s.1 s.2.1 s.2.2.1 s.2.2.2) :=
  loop_eq _ _

/-- `find_vma_prepare`. -/
def findVmaPrepare : Option (Prepared V) :=
  findVmaPrepareLoop mm addr .root none none none

end

/-! ## Linking and adjusting -/

variable [DecidableEq V]

namespace Mm

def setNext (mm : Mm c K V) (v : V) (p : Option V) : Mm c K V :=
  { mm with vmNext := Function.update mm.vmNext v p }

def setArea (mm : Mm c K V) (v : V) (a : Area c K) : Mm c K V :=
  { mm with area := Function.update mm.area v a }

/-- `*(prev ? &prev->vm_next : &mm->mmap) = p`. -/
def setAfter (mm : Mm c K V) (prev p : Option V) : Mm c K V :=
  match prev with
  | some prev => mm.setNext prev p
  | none => { mm with mmap := p }

/-- `prev ? prev->vm_next : mm->mmap`. -/
def after (mm : Mm c K V) (prev : Option V) : Option V :=
  match prev with
  | some prev => mm.vmNext prev
  | none => mm.mmap

end Mm

/-- `__vma_link_list`. -/
def vmaLinkList (vma : V) (prev rbParent : Option V) (mm : Mm c K V) : Mm c K V :=
  match prev with
  | some p => (mm.setNext vma (mm.vmNext p)).setNext p (some vma)
  | none => ({ mm with mmap := some vma }).setNext vma rbParent

/-- `__vma_link_rb`. -/
def vmaLinkRb (vma : V) (rbLink : Link V) (rbParent : Option V) (mm : Mm c K V) :
    Option (Mm c K V) := do
  let rb ← rbInsertColor vma (rbLinkNode vma rbParent rbLink mm.rb)
  return { mm with rb := rb }

/-- `__insert_vm_struct`. -/
def insertVmStruct (vma : V) (mm : Mm c K V) : Option (Mm c K V) := do
  match ← findVmaPrepare mm (mm.area vma).vmStart with
  -- `BUG_ON(__vma && __vma->vm_start < vma->vm_end)`
  | .inside _ => none
  | .place behind prev rbLink rbParent =>
    if behind.any fun b => (mm.area b).vmStart < (mm.area vma).vmEnd then none
    else
      let mm ← vmaLinkRb vma rbLink rbParent (vmaLinkList vma prev rbParent mm)
      return { mm with mapCount := mm.mapCount + 1 }

/-- `__vma_unlink`. -/
def vmaUnlink (vma prev : V) (mm : Mm c K V) : Option (Mm c K V) := do
  let mm := mm.setNext prev (mm.vmNext vma)
  let rb ← rbErase vma mm.rb
  return { mm with
    rb := rb
    mmapCache := if mm.mmapCache = some vma then some prev else mm.mmapCache }

/-- The assignments of `vma_adjust` to the fields of `vma` and `next`. The `anon_vma` of the
area that grows is set if that of the other area was. -/
def setBounds (vma : V) (next : Option V) (start stop : ℕ) (pgoff : BitVec c.bits)
    (adjustNext : ℤ) (importer : Option V) (mm : Mm c K V) : Mm c K V :=
  let anonVma := (mm.area vma).anonVma.or
    (importer.bind fun _ => next.bind fun next => (mm.area next).anonVma)
  let mm := match importer with
    | some i => mm.setArea i { mm.area i with anonVma := (mm.area i).anonVma.or anonVma }
    | none => mm
  let mm := mm.setArea vma { mm.area vma with vmStart := start, vmEnd := stop, vmPgoff := pgoff }
  match next with
  | some next =>
    if adjustNext = 0 then mm
    else mm.setArea next
      { mm.area next with
        vmStart := ((mm.area next).vmStart + adjustNext * c.pageSize).toNat
        vmPgoff := (mm.area next).vmPgoff + BitVec.ofInt c.bits adjustNext }
  | none => mm

/-- `vma_adjust` from the label `again` to the jump back to it. -/
def removeNextRound (vma : V) (start : ℕ) (pgoff : BitVec c.bits) (next : V) (stop : ℕ)
    (mm : Mm c K V) : Option (Round (V × ℕ × Mm c K V) (Mm c K V)) := do
  let removeTwo := decide ((mm.area next).vmEnd < stop)
  let stop := (mm.area next).vmEnd
  let mm := setBounds vma (some next) start stop pgoff 0 (some vma) mm
  let mm ← vmaUnlink next vma mm
  -- the `BUG_ON` of `__anon_vma_merge`
  if (mm.area next).anonVma ≠ none ∧ (mm.area vma).anonVma ≠ (mm.area next).anonVma then none
  else
    let mm := { mm with mapCount := mm.mapCount - 1 }
    if removeTwo then
      let next ← mm.vmNext vma
      return .next (next, stop, mm)
    else return .done mm

section
variable (vma next : V) (start stop : ℕ) (pgoff : BitVec c.bits) (mm : Mm c K V)

/-- `vma_adjust` from the label `again` on. -/
def vmaRemoveNext : Option (Mm c K V) :=
  loop (fun s => removeNextRound vma start pgoff s.1 s.2.1 s.2.2) (next, stop, mm)

lemma vmaRemoveNext_eq : vmaRemoveNext vma next start stop pgoff mm =
      (removeNextRound vma start pgoff next stop mm).bind
        (Round.elim fun s => vmaRemoveNext vma s.1 start s.2.1 pgoff s.2.2) :=
  loop_eq _ _

end

/-- `vma_adjust`. -/
def vmaAdjust (vma : V) (start stop : ℕ) (pgoff : BitVec c.bits) (insert : Option V)
    (mm : Mm c K V) : Option (Mm c K V) :=
  match mm.vmNext vma, insert with
  | some next, none =>
    if (mm.area next).vmEnd ≤ stop then vmaRemoveNext vma next start stop pgoff mm
    else if (mm.area next).vmStart < stop then
      let adjustNext : ℤ := ((stop - (mm.area next).vmStart) / c.pageSize : ℕ)
      some (setBounds vma (some next) start stop pgoff adjustNext (some vma) mm)
    else if stop < (mm.area vma).vmEnd then
      let adjustNext : ℤ := -(((mm.area vma).vmEnd - stop) / c.pageSize : ℕ)
      some (setBounds vma (some next) start stop pgoff adjustNext (some next) mm)
    else some (setBounds vma (some next) start stop pgoff 0 none mm)
  | none, none => some (setBounds vma none start stop pgoff 0 none mm)
  | next, some new => insertVmStruct new (setBounds vma next start stop pgoff 0 none mm)

/-! ## `do_munmap` -/

/-- What the allocations of `split_vma` return: a `struct vm_area_struct` and a copy of the
memory policy. -/
structure SplitOracle (K : Kinds) (V : Type) where
  vma : Option V
  mpol : Except Errno K.Policy

/-- The part of `split_vma` that nothing stops any more: `new` becomes a copy of `vma`, and each
of them gets its part. -/
def splitInto (vma new : V) (addr : ℕ) (newBelow : Bool) (pol : K.Policy) (mm : Mm c K V) :
    Option (Mm c K V) :=
  let a := mm.area vma
  let shift := BitVec.ofNat c.bits ((addr - a.vmStart) / c.pageSize)
  let b := if newBelow then { a with vmEnd := addr, policy := pol }
    else { a with vmStart := addr, vmPgoff := a.vmPgoff + shift, policy := pol }
  let mm := (mm.setArea new b).setNext new (mm.vmNext vma)
  if newBelow then vmaAdjust vma addr a.vmEnd (a.vmPgoff + shift) (some new) mm
  else vmaAdjust vma a.vmStart addr a.vmPgoff (some new) mm

/-- `split_vma`. -/
def splitVma (vma : V) (addr : ℕ) (newBelow : Bool) (oracle : SplitOracle K V) (mm : Mm c K V) :
    Option (Option Errno × Mm c K V) :=
  if (mm.area vma).isVmHugetlbPage ∧ addr % 2 ^ c.hpageShift ≠ 0 then some (some .einval, mm)
  else if c.maxMapCount ≤ mm.mapCount then some (some .enomem, mm)
  else
    match oracle.vma, oracle.mpol with
    | none, _ => some (some .enomem, mm)
    | some _, .error e => some (some e, mm)
    | some new, .ok pol => do
      let mm ← splitInto vma new addr newBelow pol mm
      return (none, mm)

/-- A round of the loop of `detach_vmas_to_be_unmapped`. -/
def detachRound (stop : ℕ) (vma : V) (mm : Mm c K V) :
    Option (Round (V × Mm c K V) (V × Option V × Mm c K V)) := do
  let rb ← rbErase vma mm.rb
  let mm := { mm with rb := rb, mapCount := mm.mapCount - 1 }
  match mm.vmNext vma with
  | some next =>
    if (mm.area next).vmStart < stop then return .next (next, mm)
    else return .done (vma, some next, mm)
  | none => return .done (vma, none, mm)

section
variable (vma : V) (stop : ℕ) (mm : Mm c K V)

/-- The loop of `detach_vmas_to_be_unmapped`, which ends with `tail_vma` and the area behind. -/
def detachLoop : Option (V × Option V × Mm c K V) :=
  loop (fun s => detachRound stop s.1 s.2) (vma, mm)

lemma detachLoop_eq : detachLoop vma stop mm = (detachRound stop vma mm).bind
      (Round.elim fun s => detachLoop s.1 stop s.2) :=
  loop_eq _ _

/-- `detach_vmas_to_be_unmapped`. -/
def detachVmasToBeUnmapped (prev : Option V) (stop : ℕ) (mm : Mm c K V) : Option (Mm c K V) := do
  let (tail, behind, mm) ← detachLoop vma stop mm
  let mm := (mm.setAfter prev behind).setNext tail none
  return { mm with mmapCache := none }

/-- The counters that `remove_vma_list` lowers for each area. -/
def Mm.unaccount (vma : V) : Mm c K V :=
  let nrpages := BitVec.ofNat c.bits (mm.area vma).vmaPages
  { mm with
    totalVm := mm.totalVm - nrpages
    lockedVm :=
      if (mm.area vma).vmFlags &&& vmLocked ≠ 0 then mm.lockedVm - nrpages else mm.lockedVm }

/-- A round of the loop of `remove_vma_list`. -/
def removeVmaRound : Option (Round (V × Mm c K V) (Mm c K V)) :=
  match mm.vmNext vma with
  | some next => some (.next (next, mm.unaccount vma))
  | none => some (.done (mm.unaccount vma))

/-- `remove_vma_list`. -/
def removeVmaList : Option (Mm c K V) :=
  loop (fun s => removeVmaRound s.1 s.2) (vma, mm)

end

omit [DecidableEq V] in
lemma removeVmaList_eq (vma : V) (mm : Mm c K V) :
    removeVmaList vma mm = (removeVmaRound vma mm).bind
      (Round.elim fun s => removeVmaList s.1 s.2) :=
  loop_eq _ _

/-- `PAGE_ALIGN`. -/
def pageAlign (c : Config) (len : ℕ) : ℕ :=
  (len + c.pageSize - 1) % 2 ^ c.bits / c.pageSize * c.pageSize

/-- The last part of `do_munmap`: all areas behind `prev` up to `stop` go. -/
def unmapRun (prev : Option V) (stop : ℕ) (mm : Mm c K V) : Option (Option Errno × Mm c K V) := do
  let vma ← mm.after prev
  let mm ← detachVmasToBeUnmapped vma prev stop mm
  let mm ← removeVmaList vma mm
  return (none, mm)

/-- `do_munmap` after its second search: `last` is split if it starts inside the range. -/
def unmapLast (prev last : Option V) (stop : ℕ) (oracle : SplitOracle K V) (mm : Mm c K V) :
    Option (Option Errno × Mm c K V) := do
  let (error, mm) ←
    match last with
    | some last =>
      if (mm.area last).vmStart < stop then splitVma last stop true oracle mm else some (none, mm)
    | none => some (none, mm)
  if error.isSome then return (error, mm) else unmapRun prev stop mm

/-- `do_munmap` from its second search on. -/
def unmapUpTo (prev : Option V) (stop : ℕ) (oracle : SplitOracle K V) (mm : Mm c K V) :
    Option (Option Errno × Mm c K V) := do
  let (last, mm) ← findVma stop mm
  unmapLast prev last stop oracle mm

/-- `do_munmap` after its first search: `vma` overlaps the range. -/
def unmapFrom (vma : V) (prev : Option V) (start stop : ℕ) (first second : SplitOracle K V)
    (mm : Mm c K V) : Option (Option Errno × Mm c K V) := do
  let inside := decide ((mm.area vma).vmStart < start)
  let (error, mm) ← if inside then splitVma vma start false first mm else some (none, mm)
  if error.isSome then return (error, mm)
  else unmapUpTo (if inside then some vma else prev) stop second mm

/-- `do_munmap`. -/
def doMunmap (start len : ℕ) (first second : SplitOracle K V) (mm : Mm c K V) :
    Option (Option Errno × Mm c K V) :=
  if start % c.pageSize ≠ 0 ∨ c.taskSize < start ∨ c.taskSize - start < len then
    some (some .einval, mm)
  else
    let len := pageAlign c len
    if len = 0 then some (some .einval, mm)
    else do
      match ← findVmaPrev mm start with
      | (none, _) => return (none, mm)
      | (some vma, prev) =>
        let stop := (start + len) % 2 ^ c.bits
        if stop ≤ (mm.area vma).vmStart then return (none, mm)
        else unmapFrom vma prev start stop first second mm

/-! ## `vma_merge` -/

/-- The arguments of `vma_merge` that say how `[addr, end)` is to be mapped. -/
structure MergeRequest (c : Config) (K : Kinds) extends Region c K.File where
  anonVma : Option K.AnonVma
  policy : K.Policy

/-- The area `prev` is extended to `stop` and returned. -/
def extendPrev (prev : V) (stop : ℕ) (mm : Mm c K V) : Option (Option V × Mm c K V) := do
  let mm ← vmaAdjust prev (mm.area prev).vmStart stop (mm.area prev).vmPgoff none mm
  return (some prev, mm)

/-- `vma_merge` when only `next` can be merged. -/
def mergeNext (prev area : Option V) (next : V) (q : MergeRequest c K) (mm : Mm c K V) :
    Option (Option V × Mm c K V) := do
  let area ← area
  let mm ← match prev.filter fun p => q.vmStart < (mm.area p).vmEnd with
    -- case 4
    | some p => vmaAdjust p (mm.area p).vmStart q.vmStart (mm.area p).vmPgoff none mm
    -- cases 3, 8
    | none =>
      let pglen := BitVec.ofNat c.bits q.vmaPages
      vmaAdjust area q.vmStart (mm.area next).vmEnd ((mm.area next).vmPgoff - pglen) none mm
  return (some area, mm)

variable [DecidableEq K.File]

/-- `is_mergeable_vma`. -/
def isMergeableVma (a : Area c K) (file : Option K.File) (vmFlags : ℕ) : Bool :=
  a.vmFlags = vmFlags ∧ a.vmFile = file ∧ ¬a.hasClose

section
variable (a : Area c K) (vmFlags : ℕ) (anonVma : Option K.AnonVma) (file : Option K.File)
  (vmPgoff : BitVec c.bits)

/-- `is_mergeable_anon_vma`. -/
def isMergeableAnonVma (anonVma1 anonVma2 : Option K.AnonVma) : Bool :=
  anonVma1 = none ∨ anonVma2 = none ∨ anonVma1 = anonVma2

/-- `can_vma_merge_before`. -/
def canVmaMergeBefore : Bool :=
  isMergeableVma a file vmFlags && isMergeableAnonVma anonVma a.anonVma && a.vmPgoff = vmPgoff

/-- `can_vma_merge_after`. -/
def canVmaMergeAfter : Bool :=
  isMergeableVma a file vmFlags && isMergeableAnonVma anonVma a.anonVma &&
    a.vmPgoff + BitVec.ofNat c.bits a.vmaPages = vmPgoff

end

section
variable (mpolEqual : K.Policy → K.Policy → Bool)

/-- The condition on `prev` to merge it with what follows. -/
def mergesAfter (prev : Area c K) (q : MergeRequest c K) : Bool :=
  prev.vmEnd = q.vmStart && mpolEqual prev.policy q.policy &&
    canVmaMergeAfter prev q.vmFlags q.anonVma q.vmFile q.vmPgoff

/-- The condition on `next` to merge it with what comes before it. -/
def mergesBefore (q : MergeRequest c K) (next : Area c K) : Bool :=
  q.vmEnd = next.vmStart && mpolEqual q.policy next.policy &&
    canVmaMergeBefore next q.vmFlags q.anonVma q.vmFile (q.vmPgoff + BitVec.ofNat c.bits q.vmaPages)

/-- `vma_merge`. -/
def vmaMerge (prev : Option V) (q : MergeRequest c K)
    (mm : Mm c K V) : Option (Option V × Mm c K V) :=
  if q.vmFlags &&& vmSpecial ≠ 0 then some (none, mm)
  else
    let area := mm.after prev
    -- cases 6, 7, 8
    let next := area.bind fun a => if (mm.area a).vmEnd = q.vmEnd then mm.vmNext a else some a
    match prev.filter fun p => mergesAfter mpolEqual (mm.area p) q,
      next.filter fun n => mergesBefore mpolEqual q (mm.area n) with
    | some p, some n =>
      -- cases 1, 6
      if isMergeableAnonVma (mm.area p).anonVma (mm.area n).anonVma then
        extendPrev p (mm.area n).vmEnd mm
      else extendPrev p q.vmEnd mm
    -- cases 2, 5, 7
    | some p, none => extendPrev p q.vmEnd mm
    | none, some n => mergeNext prev area n q mm
    | none, none => some (none, mm)

end

end BooxKernel.Mmap
