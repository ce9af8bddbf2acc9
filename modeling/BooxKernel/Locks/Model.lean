import Mathlib.Tactic

/-!
# POSIX record locks

The list `i_flock` of an inode is a Lean list of lock structures. Each carries
the address it was allocated at, because the code keeps pointers into the list:
after a merge `request` points at a lock of the list, and `left` and `right` are
pointers. A store through such a pointer is `store`. A waiter records which lock
it is queued on by the inode whose list holds the lock and the lock's address;
waking up the waiters of a lock takes them off the blocked list.

Owners are compared by `fl_owner`: `fl_lmops` is NULL in every lock here. The
offsets lie between 0 and `OFFSET_MAX`, so `start - 1` and `end + 1` are computed
in the integers without overflow.
-/
namespace BooxKernel.Locks

inductive LockType
  | rdlck
  | wrlck
  | unlck
  deriving Repr, DecidableEq

/-- The bits of `fl_flags` that `__posix_lock_file` reads. -/
structure LockFlags where
  posix : Bool
  access : Bool
  existsFlag : Bool
  sleep : Bool
  deriving Repr, DecidableEq

def offsetMax : ℤ := 2 ^ 63 - 1

/-- The fields of a `struct file_lock` filled in by its caller. -/
structure Request (Owner : Type*) where
  flOwner : Owner
  flFlags : LockFlags
  flType : LockType
  flStart : ℤ
  flEnd : ℤ
  deriving Repr, DecidableEq

/-- A `struct file_lock` in memory. -/
structure FileLock (Owner : Type*) extends Request Owner where
  addr : ℕ
  deriving Repr, DecidableEq

/-- A request on the blocked list, with the lock its `fl_next` points at. -/
structure Waiter (ι Owner : Type*) where
  request : Request Owner
  inode : ι
  flNext : ℕ
  deriving Repr, DecidableEq

/-- All inodes' lock lists, the global blocked list, and the next free address. -/
structure LockState (ι Owner : Type*) where
  iFlock : ι → List (FileLock Owner)
  blockedList : List (Waiter ι Owner)
  fresh : ℕ

inductive Errno
  | success
  | eagain
  | edeadlk
  | enolck
  | enoent
  deriving Repr, DecidableEq

section Conflicts
variable {Owner : Type*} [DecidableEq Owner]

def locksOverlap (fl1 fl2 : Request Owner) : Bool :=
  decide (fl1.flEnd ≥ fl2.flStart) && decide (fl2.flEnd ≥ fl1.flStart)

def posixSameOwner (fl1 fl2 : Request Owner) : Bool := decide (fl1.flOwner = fl2.flOwner)

def locksConflict (callerFl sysFl : Request Owner) : Bool :=
  if sysFl.flType = .wrlck then true
  else if callerFl.flType = .wrlck then true
  else false

def posixLocksConflict (callerFl sysFl : Request Owner) : Bool :=
  if !sysFl.flFlags.posix || posixSameOwner callerFl sysFl then false
  else if !locksOverlap callerFl sysFl then false
  else locksConflict callerFl sysFl

end Conflicts

/-- The lock at an address of a list. -/
def deref {Owner : Type*} (l : List (FileLock Owner)) (a : ℕ) : Option (FileLock Owner) :=
  l.find? fun fl => fl.addr = a

/-- Store `f` of the old contents at address `a`. -/
def store {Owner : Type*} (a : ℕ) (f : FileLock Owner → FileLock Owner)
    (l : List (FileLock Owner)) : List (FileLock Owner) :=
  l.map fun fl => if fl.addr = a then f fl else fl

section Deadlock
variable {ι Owner : Type*} [DecidableEq Owner]

/-- The lock the owner of `blockFl` is blocking on. -/
def whatOwnerIsWaitingFor (s : LockState ι Owner) (blockFl : FileLock Owner) :
    Option (FileLock Owner) :=
  match s.blockedList.find? fun w => posixSameOwner w.request blockFl.toRequest with
  | none => none
  | some w => deref (s.iFlock w.inode) w.flNext

def maxDeadlkIterations : ℕ := 10

/-- The loop of `posix_locks_deadlock`, which has `n` rounds left before
`i++ > MAX_DEADLK_ITERATIONS` bails out. -/
def deadlockLoop (s : LockState ι Owner) (callerFl : Request Owner) : ℕ → FileLock Owner → Bool
  | n, blockFl =>
    match whatOwnerIsWaitingFor s blockFl with
    | none => false
    | some next =>
      match n with
      | 0 => false
      | n + 1 =>
        if posixSameOwner callerFl next.toRequest then true else deadlockLoop s callerFl n next

def posixLocksDeadlock (s : LockState ι Owner) (callerFl : Request Owner)
    (blockFl : FileLock Owner) : Bool :=
  deadlockLoop s callerFl (maxDeadlkIterations + 1) blockFl

end Deadlock

/-- The variables of the pass over the owner's locks. `done` is the part of the
owner's locks up to `*before`, and `woken` the locks whose waiters were woken. -/
structure Pass (Owner : Type*) where
  done : List (FileLock Owner)
  request : FileLock Owner
  added : Bool
  left : Option ℕ
  right : Option ℕ
  woken : List ℕ

section PassLoop
variable {Owner : Type*} [DecidableEq Owner]

/-- The lock yielding from the lower start address of both locks to the higher
end address. -/
def widen (a b : FileLock Owner) : FileLock Owner :=
  { a with
    flStart := if a.flStart > b.flStart then b.flStart else a.flStart
    flEnd := if a.flEnd < b.flEnd then b.flEnd else a.flEnd }

/-- The loop over the locks of the requesting owner, up to its `break` or its
end. Once a lock was added, `request` is a lock among those already passed, and
a store to it is a store into `done`. -/
def processLocks (p : Pass Owner) : List (FileLock Owner) → Pass Owner × List (FileLock Owner)
  | [] => (p, [])
  | fl :: rest =>
    if !posixSameOwner p.request.toRequest fl.toRequest then (p, fl :: rest)
    else if p.request.flType = fl.flType then
      if fl.flEnd < p.request.flStart - 1 then processLocks { p with done := p.done ++ [fl] } rest
      else if fl.flStart - 1 > p.request.flEnd then (p, fl :: rest)
      else if p.added then
        processLocks { p with
          done := store p.request.addr (fun _ => widen p.request fl) p.done
          request := widen p.request fl
          woken := p.woken ++ [fl.addr] } rest
      else
        processLocks { p with
          done := p.done ++ [widen fl p.request]
          request := widen fl p.request
          added := true } rest
    else
      if fl.flEnd < p.request.flStart then processLocks { p with done := p.done ++ [fl] } rest
      else if fl.flStart > p.request.flEnd then (p, fl :: rest)
      else
        let added := p.added || decide (p.request.flType = .unlck)
        let left := if fl.flStart < p.request.flStart then some fl.addr else p.left
        if fl.flEnd > p.request.flEnd then
          ({ p with added := added, left := left, right := some fl.addr }, fl :: rest)
        else if fl.flStart ≥ p.request.flStart then
          if added then
            processLocks { p with
              added := added, left := left, woken := p.woken ++ [fl.addr] } rest
          else
            let fl' := { fl with
              flStart := p.request.flStart, flEnd := p.request.flEnd, flType := p.request.flType }
            processLocks { p with
              done := p.done ++ [fl']
              request := fl'
              added := true
              left := left
              woken := p.woken ++ [fl.addr] } rest
        else processLocks { p with done := p.done ++ [fl], added := added, left := left } rest

/-- The result of one call on one lock list: the list, the locks whose waiters
were woken, and the error. -/
structure ListResult (Owner : Type*) where
  list : List (FileLock Owner)
  woken : List ℕ
  error : Errno

/-- The insertions and the trimming of `left` and `right` at the end of
`__posix_lock_file`, with the new lock `inserted` when one is needed. -/
def placeLocks (skipped rest inserted : List (FileLock Owner)) (p : Pass Owner) (newFl2 : ℕ) :
    ListResult Owner :=
  let split : List (FileLock Owner) :=
    if p.left = p.right then
      ((p.right.bind (deref rest)).map fun right => { right with addr := newFl2 }).toList
    else []
  let left := if p.right.isSome && decide (p.left = p.right) then some newFl2 else p.left
  let whole := skipped ++ p.done ++ split ++ inserted ++ rest
  let trimmed := match p.right with
    | none => whole
    | some r => store r (fun fl => { fl with flStart := p.request.flEnd + 1 }) whole
  let trimmed' := match left with
    | none => trimmed
    | some a => store a (fun fl => { fl with flEnd := p.request.flStart - 1 }) trimmed
  ⟨trimmed', p.woken ++ p.right.toList ++ left.toList, .success⟩

/-- `__posix_lock_file` after the conflict check, on the list of the inode.
The addresses `newFl` and `newFl2` are those of the two structures allocated in
advance, if that succeeded. -/
def applyRequest (l : List (FileLock Owner)) (request : FileLock Owner)
    (newFl newFl2 : Option ℕ) : ListResult Owner :=
  let other := fun fl : FileLock Owner =>
    !fl.flFlags.posix || !posixSameOwner request.toRequest fl.toRequest
  let skipped := l.takeWhile other
  let pass := processLocks ⟨[], request, false, none, none, []⟩ (l.dropWhile other)
  let p := pass.1
  let rest := pass.2
  let same := skipped ++ p.done ++ rest
  if p.right.isSome && decide (p.left = p.right) && newFl2.isNone then
    ⟨same, p.woken, .enolck⟩
  else if !p.added then
    if p.request.flType = .unlck then
      ⟨same, p.woken, if p.request.flFlags.existsFlag then .enoent else .success⟩
    else
      match newFl with
      | none => ⟨same, p.woken, .enolck⟩
      | some a => placeLocks skipped rest [{ p.request with addr := a }] p (newFl2.getD 0)
  else placeLocks skipped rest [] p (newFl2.getD 0)

end PassLoop

section Call
variable {ι Owner : Type*} [DecidableEq ι] [DecidableEq Owner]

/-- What a call returns: the error, the copy made into `conflock`, and the state
it leaves. -/
structure CallResult (ι Owner : Type*) where
  error : Errno
  conflock : Option (FileLock Owner)
  state : LockState ι Owner

section
variable (s : LockState ι Owner) (inode : ι)

/-- `locks_insert_block`. -/
def locksInsertBlock (blocker : FileLock Owner) (waiter : Request Owner) : LockState ι Owner :=
  { s with blockedList := ⟨waiter, inode, blocker.addr⟩ :: s.blockedList }

/-- `__locks_delete_block`, for an interrupted waiter. -/
def locksDeleteBlock (waiter : Waiter ι Owner) : LockState ι Owner :=
  { s with blockedList := s.blockedList.erase waiter }

/-- `__posix_lock_file` on `inode`. The flags `alloc` and `alloc2` say whether
the two preallocations succeed when they are made. -/
def posixLockFile (request : Request Owner) (alloc alloc2 : Bool) : CallResult ι Owner :=
  let needed := !request.flFlags.access && (decide (request.flType ≠ .unlck) ||
    decide (request.flStart ≠ 0) || decide (request.flEnd ≠ offsetMax))
  let newFl := if needed && alloc then some s.fresh else none
  let newFl2 := if needed && alloc2 then some (s.fresh + 1) else none
  let conflict := if request.flType ≠ .unlck then
      (s.iFlock inode).find? fun fl =>
        fl.flFlags.posix && posixLocksConflict request fl.toRequest
    else none
  match conflict with
  | some fl =>
    if !request.flFlags.sleep then ⟨.eagain, some fl, s⟩
    else if posixLocksDeadlock s request fl then ⟨.edeadlk, some fl, s⟩
    else ⟨.eagain, some fl, locksInsertBlock s inode fl request⟩
  | none =>
    if request.flFlags.access then ⟨.success, none, s⟩
    else
      let r := applyRequest (s.iFlock inode) ⟨request, s.fresh + 2⟩ newFl newFl2
      ⟨r.error, none,
        { iFlock := Function.update s.iFlock inode r.list
          blockedList := s.blockedList.filter fun w =>
            !(decide (w.inode = inode) && decide (w.flNext ∈ r.woken))
          fresh := s.fresh + 3 }⟩

end

end Call

end BooxKernel.Locks
