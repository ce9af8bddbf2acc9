import Mathlib.Data.BitVec

/-!
# System V semaphores

One semaphore array that is never removed, with the tasks that use it. Everything
below is done under the lock of the array; `find_undo` lets go of it before the
operation that it is for, so it is a step of its own. A task shares its undo list
with the tasks that were cloned from it with `CLONE_SYSVSEM`, and an undo list has at
most one undo structure for the array, which goes by the name of the list.
-/
namespace BooxKernel.Sem
open Function List

/-- The type of `sem_op` and of the entries of `semadj`. -/
abbrev Short := BitVec 16

def semvmx : ℤ := 32767

def semaem : ℤ := semvmx

section Errors

def eintr : ℤ := -4
def e2big : ℤ := -7
def eagain : ℤ := -11
def enomem : ℤ := -12
def eacces : ℤ := -13
def einval : ℤ := -22
def efbig : ℤ := -27
def erange : ℤ := -34

end Errors

/-- `struct sembuf`, with the flags `IPC_NOWAIT` and `SEM_UNDO` of `sem_flg`. -/
structure Sembuf where
  semNum : ℕ
  semOp : Short
  noWait : Bool
  semUndo : Bool
  deriving DecidableEq

/-- `struct sem_queue`, a request that waits. -/
structure Request (τ υ : Type*) where
  sleeper : τ
  sops : List Sembuf
  undo : Option υ
  pid : ℤ
  alter : Bool
  alter_eq : alter = sops.any fun sop => sop.semOp != 0

/-- The array and its tasks. `status` is the field of a task's own `struct sem_queue`,
and `undo` is the array's list of undo structures. -/
structure State (τ υ : Type*) where
  nsems : ℕ
  semval : ℕ → ℤ
  sempid : ℕ → ℤ
  undo : List υ
  semadj : υ → ℕ → Short
  pending : List (Request τ υ)
  status : τ → ℤ
  undoList : τ → Option υ
  refcnt : υ → ℕ

variable {τ υ : Type*}

section TryAtomicSemop

/-- What the first loop of `try_atomic_semop` leaves: the result, 0 if it got to the
end, and the operations it did, the last one first. -/
structure Attempt where
  code : ℤ
  semval : ℕ → ℤ
  done : List Sembuf

/-- The label `would_block`. -/
def wouldBlock (sop : Sembuf) : ℤ := if sop.noWait then eagain else 1

/-- The first loop of `try_atomic_semop`. The undo range is checked against `semadj` as
it was before the call. -/
def tryLoop (semadj : ℕ → Short) : List Sembuf → List Sembuf → (ℕ → ℤ) → Attempt
  | [], done, semval => ⟨0, semval, done⟩
  | sop :: sops, done, semval =>
    let result := semval sop.semNum
    if sop.semOp = 0 ∧ result ≠ 0 then ⟨wouldBlock sop, semval, done⟩
    else
      let result := result + sop.semOp.toInt
      if result < 0 then ⟨wouldBlock sop, semval, done⟩
      else if semvmx < result then ⟨erange, semval, done⟩
      else
        let undo := (semadj sop.semNum).toInt - sop.semOp.toInt
        if sop.semUndo = true ∧ (undo < -semaem - 1 ∨ semaem < undo) then ⟨erange, semval, done⟩
        else tryLoop semadj sops (sop :: done) (update semval sop.semNum result)

/-- One round of the loop at the label `undo`. -/
def rollBack (semval : ℕ → ℤ) (sop : Sembuf) : ℕ → ℤ :=
  update semval sop.semNum (semval sop.semNum - sop.semOp.toInt)

variable [DecidableEq υ]

/-- One round of the second loop. -/
def record (un : Option υ) (pid : ℤ) (s : State τ υ) (sop : Sembuf) : State τ υ :=
  { s with
    sempid := update s.sempid sop.semNum pid
    semadj := match sop.semUndo, un with
      | true, some u => update s.semadj u
          (update (s.semadj u) sop.semNum (s.semadj u sop.semNum - sop.semOp))
      | _, _ => s.semadj }

/-- The adjustments `un->semadj`, which only operations with `SEM_UNDO` look at. -/
def State.adjustments (s : State τ υ) : Option υ → ℕ → Short
  | some u => s.semadj u
  | none => fun _ => 0

def tryAtomicSemop (s : State τ υ) (sops : List Sembuf) (un : Option υ) (pid : ℤ) : ℤ × State τ υ :=
  let attempt := tryLoop (s.adjustments un) sops [] s.semval
  if attempt.code = 0 then
    (0, attempt.done.foldl (record un pid) { s with semval := attempt.semval })
  else (attempt.code, { s with semval := attempt.done.foldl rollBack attempt.semval })

end TryAtomicSemop

variable [DecidableEq τ] [DecidableEq υ]

section UpdateQueue

/-- The loop of `update_queue`; the queue is `seen ++ rest`, and `q` its first request
behind `seen`. -/
def updateLoop (s : State τ υ) (seen rest : List (Request τ υ)) : State τ υ :=
  match rest with
  | [] => s
  | q :: rest =>
    let tried := tryAtomicSemop s q.sops q.undo q.pid
    if tried.1 ≤ 0 then
      let s := { tried.2 with
        pending := seen ++ rest
        status := update tried.2.status q.sleeper tried.1 }
      if q.alter then updateLoop s [] (seen ++ rest) else updateLoop s seen rest
    else updateLoop tried.2 (seen ++ [q]) rest
termination_by (seen.length + rest.length, rest.length)
decreasing_by
  · simp only [length_nil, length_append, length_cons]
    exact Prod.Lex.left _ _ (by omega)
  · simp only [length_cons]
    exact Prod.Lex.left _ _ (by omega)
  · simp only [length_append, length_cons, length_nil]
    rw [show seen.length + (0 + 1) + rest.length = seen.length + (rest.length + 1) by omega]
    exact Prod.Lex.right _ (by omega)

def updateQueue (s : State τ υ) : State τ υ := updateLoop s [] s.pending

end UpdateQueue

section Semop

section
variable (s : State τ υ) (t : τ) (new : υ)

/-- `get_undo_list`, when its allocation gives `new`. -/
def getUndoList : υ × State τ υ :=
  match s.undoList t with
  | some u => (u, s)
  | none => (new, { s with
      undoList := update s.undoList t (some new)
      refcnt := update s.refcnt new 1 })

/-- `find_undo`, when its allocations succeed. -/
def findUndo : State τ υ :=
  let (u, s) := getUndoList s t new
  if u ∈ s.undo then s
  else { s with undo := u :: s.undo, semadj := update s.semadj u fun _ => 0 }

/-- The undo structure that `find_undo` has found for the operations, if they need one. -/
def undoFor (sops : List Sembuf) : Option (Option υ) :=
  if sops.any Sembuf.semUndo then
    match s.undoList t with
    | some u => if u ∈ s.undo then some (some u) else none
    | none => none
  else some none

/-- What `sys_semtimedop` does under the lock, up to where it returns or sleeps; 1 says
that it sleeps. -/
def lockedSemop (pid : ℤ) (sops : List Sembuf) (un : Option υ) : ℤ × State τ υ :=
  let alter := sops.any fun sop => sop.semOp != 0
  let tried := tryAtomicSemop s sops un pid
  if tried.1 ≤ 0 then
    (tried.1, if alter && tried.1 == 0 then updateQueue tried.2 else tried.2)
  else
    let queue : Request τ υ := ⟨t, sops, un, pid, alter, rfl⟩
    (1, { tried.2 with
      pending := if alter then tried.2.pending ++ [queue] else queue :: tried.2.pending
      status := update tried.2.status t eintr })

end

/-- `sys_semtimedop` up to where it returns or sleeps. -/
def sysSemtimedop (semopm : ℕ) (s : State τ υ) (t : τ) (pid : ℤ) (sops : List Sembuf)
    (permitted : Bool) : ℤ × State τ υ :=
  if sops.length < 1 then (einval, s)
  else if semopm < sops.length then (e2big, s)
  else
    match undoFor s t sops with
    | none => (enomem, s)
    | some un =>
      if s.nsems ≤ sops.foldl (fun top sop => max top sop.semNum) 0 then (efbig, s)
      else if !permitted then (eacces, s)
      else lockedSemop s t pid sops un

/-- The rest of `sys_semtimedop` for a sleeper that a signal or the timeout wakes up. -/
def interrupted (s : State τ υ) (t : τ) : State τ υ :=
  if s.status t = eintr then { s with pending := s.pending.filter fun q => q.sleeper ≠ t } else s

end Semop

section Semctl

/-- `SETVAL` of `semctl_main`. -/
def setval (s : State τ υ) (semnum : ℤ) (val pid : ℤ) (permitted : Bool) : ℤ × State τ υ :=
  if !permitted then (eacces, s)
  else if semnum < 0 ∨ (s.nsems : ℤ) ≤ semnum then (einval, s)
  else if semvmx < val ∨ val < 0 then (erange, s)
  else
    (0, updateQueue { s with
      semadj := fun u =>
        if u ∈ s.undo then update (s.semadj u) semnum.toNat 0 else s.semadj u
      semval := update s.semval semnum.toNat val
      sempid := update s.sempid semnum.toNat pid })

/-- `SETALL` of `semctl_main`; the values are of type `ushort`. -/
def setall (s : State τ υ) (semIo : ℕ → BitVec 16) (permitted : Bool) : ℤ × State τ υ :=
  if !permitted then (eacces, s)
  else if ∃ i < s.nsems, semvmx < (semIo i).toNat then (erange, s)
  else
    (0, updateQueue { s with
      semval := fun i => if i < s.nsems then (semIo i).toNat else s.semval i
      semadj := fun u i => if u ∈ s.undo ∧ i < s.nsems then 0 else s.semadj u i })

end Semctl

section Exit

/-- `copy_semundo`, when the allocation of an undo list gives `new`. -/
def copySemundo (s : State τ υ) (parent child : τ) (share : Bool) (new : υ) : State τ υ :=
  if share then
    let (u, s) := getUndoList s parent new
    { s with
      refcnt := update s.refcnt u (s.refcnt u + 1)
      undoList := update s.undoList child (some u) }
  else { s with undoList := update s.undoList child none }

/-- The value of a semaphore after an adjustment, capped at both ends. -/
def adjusted (semval : ℤ) (semadj : Short) : ℤ :=
  if semadj = 0 then semval
  else
    let semval := semval + semadj.toInt
    let semval := if semval < 0 then 0 else semval
    if semvmx < semval then semvmx else semval

/-- The body of the loop of `exit_sem`, for the undo structure of the array. -/
def exitUndo (s : State τ υ) (u : υ) (pid : ℤ) : State τ υ :=
  if u ∈ s.undo then
    updateQueue { s with
      undo := s.undo.erase u
      semval := fun i => if i < s.nsems then adjusted (s.semval i) (s.semadj u i) else s.semval i
      sempid := fun i => if i < s.nsems ∧ s.semadj u i ≠ 0 then pid else s.sempid i }
  else s

def exitSem (s : State τ υ) (t : τ) (pid : ℤ) : State τ υ :=
  match s.undoList t with
  | none => s
  | some u =>
    let s := { s with
      undoList := update s.undoList t none
      refcnt := update s.refcnt u (s.refcnt u - 1) }
    if s.refcnt u = 0 then exitUndo s u pid else s

end Exit

/-- A new array, which no task has used. -/
def State.new (τ υ : Type*) (nsems : ℕ) : State τ υ where
  nsems := nsems
  semval _ := 0
  sempid _ := 0
  undo := []
  semadj _ _ := 0
  pending := []
  status _ := 0
  undoList _ := none
  refcnt _ := 0

inductive Event (τ υ : Type*)
  | clone (parent child : τ) (share : Bool) (new : υ)
  | findUndo (t : τ) (new : υ)
  | semop (t : τ) (pid : ℤ) (sops : List Sembuf) (permitted : Bool)
  | interrupt (t : τ)
  | setval (semnum val pid : ℤ) (permitted : Bool)
  | setall (semIo : ℕ → BitVec 16) (permitted : Bool)
  | exit (t : τ) (pid : ℤ)

/-- The task does not sleep in the queue. -/
def State.Running (s : State τ υ) (t : τ) : Prop := ∀ q ∈ s.pending, q.sleeper ≠ t

/-- No task has the undo list. -/
def State.Unused (s : State τ υ) (u : υ) : Prop := ∀ t, s.undoList t ≠ some u

/-- One step. A task that sleeps does nothing until it is woken up; what is allocated
is not in use. -/
def Step (semopm : ℕ) (s : State τ υ) : Event τ υ → State τ υ → Prop
  | .clone parent child share new, s' =>
    s.Running parent ∧ s.Running child ∧ s.undoList child = none ∧ parent ≠ child ∧
      s.Unused new ∧ s' = copySemundo s parent child share new
  | .findUndo t new, s' => s.Running t ∧ s.Unused new ∧ s' = findUndo s t new
  | .semop t pid sops permitted, s' =>
    s.Running t ∧ s' = (sysSemtimedop semopm s t pid sops permitted).2
  | .interrupt t, s' => s' = interrupted s t
  | .setval semnum val pid permitted, s' => s' = (setval s semnum val pid permitted).2
  | .setall semIo permitted, s' => s' = (setall s semIo permitted).2
  | .exit t pid, s' => s.Running t ∧ s' = exitSem s t pid

end BooxKernel.Sem
