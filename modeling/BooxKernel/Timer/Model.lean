import BooxKernel.Lib.Queues
import Mathlib.Data.BitVec

/-!
# The timer wheel

One `struct tvec_base` of a 32 bit machine with its timers. The list heads of the
arrays `tv1` to `tv5` are the slots of the levels 0 to 4; the list that an iteration
of `__run_timers` works through is one more list head. A timer is linked into the
lists by its `entry`, and it is pending while `entry.next` is not NULL.

The base is locked except while a handler runs, so a handler's calls, and those of
others, are steps of their own between two timers of the work list. Another base,
to which `__mod_timer` could move a timer, is not there.
-/
namespace BooxKernel.Timer
open Queues Function

abbrev Ulong := BitVec 32

/-- `TVN_BITS` and `TVR_BITS`: 6 and 8, or 4 and 6 with `CONFIG_BASE_SMALL`. The
largest shift of an `int` by these stays below its sign bit. -/
structure Config where
  tvnBits : ℕ
  tvrBits : ℕ
  shift_lt : tvrBits + 3 * tvnBits < 31

/-- A list head. -/
inductive Place
  | vec (level index : ℕ)
  | work
  deriving Repr, DecidableEq

/-- The base and its timers, and `jiffies`. -/
structure State (τ : Type*) where
  jiffies : Ulong
  timerJiffies : Ulong
  expires : τ → Ulong
  pending : τ → Bool
  lists : Place → List τ

variable {τ : Type*} (c : Config)

namespace Config

def tvnMask : Ulong := BitVec.ofNat 32 (2 ^ c.tvnBits - 1)

def tvrMask : Ulong := BitVec.ofNat 32 (2 ^ c.tvrBits - 1)

/-- The number of low bits of `expires` that do not matter on a level above 0. -/
def shift (level : ℕ) : ℕ := c.tvrBits + (level - 1) * c.tvnBits

/-- The index of a time in the arrays above level 0: `INDEX` is this at `timer_jiffies`. -/
def index (level : ℕ) (time : Ulong) : ℕ := (time >>> c.shift level &&& c.tvnMask).toNat

end Config

section Lists

section
variable (timerJiffies : Ulong) (expires : τ → Ulong) (lists : Place → List τ)

/-- The list head that `internal_add_timer` chooses. With 32 bits the distance is
never above `0xffffffff`. -/
def vecOf (timerJiffies expires : Ulong) : Place :=
  let idx := expires - timerJiffies
  if idx.toNat < 2 ^ c.tvrBits then .vec 0 (expires &&& c.tvrMask).toNat
  else if idx.toNat < 2 ^ c.shift 2 then .vec 1 (c.index 1 expires)
  else if idx.toNat < 2 ^ c.shift 3 then .vec 2 (c.index 2 expires)
  else if idx.toNat < 2 ^ c.shift 4 then .vec 3 (c.index 3 expires)
  else if idx.toInt < 0 then .vec 0 (timerJiffies &&& c.tvrMask).toNat
  else .vec 4 (c.index 4 expires)

/-- `internal_add_timer`. -/
def internalAddTimer (t : τ) : Place → List τ :=
  addTail (vecOf c timerJiffies (expires t)) t lists

/-- `cascade`: the timers of one slot are added again. -/
def cascade (level index : ℕ) : Place → List τ :=
  (lists (.vec level index)).foldl (internalAddTimer c timerJiffies expires)
    (update lists (.vec level index) [])

end

/-- The condition of `__run_timers` on the given levels: cascading goes on to the next
level while the index is 0. -/
def cascadeLevels (timerJiffies : Ulong) (expires : τ → Ulong) (lists : Place → List τ) :
    List ℕ → Place → List τ
  | [] => lists
  | level :: rest =>
    let cascaded := cascade c timerJiffies expires lists level (c.index level timerJiffies)
    if c.index level timerJiffies = 0 then
      cascadeLevels timerJiffies expires cascaded rest
    else cascaded

end Lists

variable [DecidableEq τ]

section Calls

section
variable (s : State τ) (t : τ) (expires : Ulong)

/-- `detach_timer`, without what it does to `entry.next`. -/
def detachTimer : State τ := { s with lists := del t s.lists }

/-- `__mod_timer` on the timer's own base. -/
def doModTimer : State τ :=
  let detached := if s.pending t then detachTimer s t else s
  let expires := update s.expires t expires
  { detached with
    expires := expires
    pending := update s.pending t true
    lists := internalAddTimer c s.timerJiffies expires detached.lists t }

def modTimer : State τ :=
  if s.expires t = expires ∧ s.pending t = true then s else doModTimer c s t expires

def delTimer : State τ :=
  if s.pending t then { detachTimer s t with pending := update s.pending t false } else s

end

end Calls

section Run

/-- `time_after_eq`. -/
def timeAfterEq (a b : Ulong) : Bool := decide (0 ≤ (a - b).toInt)

/-- One round of the outer loop of `__run_timers`, up to its inner loop. -/
def startIteration (s : State τ) : State τ :=
  let slot := (s.timerJiffies &&& c.tvrMask).toNat
  let cascaded :=
    if slot = 0 then cascadeLevels c s.timerJiffies s.expires s.lists [1, 2, 3, 4] else s.lists
  { s with
    timerJiffies := s.timerJiffies + 1
    lists := replaceInit (.vec 0 slot) .work cascaded }

/-- One round of the inner loop, up to the handler of the timer. -/
def runFirst (s : State τ) (t : τ) : State τ :=
  { detachTimer s t with pending := update s.pending t false }

end Run

/-- The base after `init_timers_cpu`. -/
def State.boot (τ : Type*) (jiffies : Ulong) : State τ where
  jiffies := jiffies
  timerJiffies := jiffies
  expires _ := 0
  pending _ := false
  lists _ := []

/-- The calls and the steps of `__run_timers`. -/
inductive Event (τ : Type*)
  | arm (t : τ) (expires : Ulong)
  | modify (t : τ) (expires : Ulong)
  | delete (t : τ)
  | tick (n : ℕ)
  | iteration
  | handler (t : τ)
  deriving DecidableEq

/-- One step. A handler starts for the first timer of the work list, and an iteration
starts when the work list is empty. -/
def Step (s : State τ) : Event τ → State τ → Prop
  | .arm t expires, s' => s' = doModTimer c s t expires
  | .modify t expires, s' => s' = modTimer c s t expires
  | .delete t, s' => s' = delTimer s t
  | .tick n, s' => n < 2 ^ 31 ∧ s' = { s with jiffies := s.jiffies + BitVec.ofNat 32 n }
  | .iteration, s' =>
    s.lists .work = [] ∧ timeAfterEq s.jiffies s.timerJiffies = true ∧ s' = startIteration c s
  | .handler t, s' => (s.lists .work).head? = some t ∧ s' = runFirst s t

end BooxKernel.Timer
