import BooxKernel.Lib.Loops
import Mathlib.Data.BitVec

/-!
# The layouts of a RAID-10 array

`drivers/md/raid10.c`: where the copies of a virtual sector are, and which virtual sector a
device has at an address. A `sector_t` is a number below `2 ^ w`, and its arithmetic is done
modulo `2 ^ w`. Of `run`, the part that checks the layout and computes the geometry is here;
its allocations and the search for working mirrors are left out.
-/
namespace BooxKernel.Raid10

open Loops

inductive Errno
  | einval
  | eio
  deriving DecidableEq, Repr

/-- The fields of an `mddev_t` that `run` reads or sets. Sizes are in units of 1024 bytes. -/
structure Mddev where
  layout : ℕ
  raidDisks : ℕ
  chunkSize : BitVec 32
  /-- The part of each device that is used. -/
  size : ℕ
  arraySize : ℕ
  deriving DecidableEq, Repr

/-- The geometry in a `conf_t`. -/
structure Conf where
  raidDisks : ℕ
  nearCopies : ℕ
  farCopies : ℕ
  copies : ℕ
  farOffset : Bool
  chunkMask : ℕ
  chunkShift : ℕ
  stride : ℕ
  deriving DecidableEq, Repr

/-- `ffz`: the lowest bit that is zero. -/
def ffz (x : BitVec 32) : ℕ := ((List.range 32).find? fun i => !x.getLsbD i).getD 32

/-- The part of `run` behind its checks. -/
def geometry (w : ℕ) (mddev : Mddev) (nc fc : ℕ) (fo : Bool) : Conf × Mddev :=
  let copies := nc * fc
  let chunkMask := (mddev.chunkSize.toNat >>> 9) - 1
  let chunkShift := ffz (~~~mddev.chunkSize) - 9
  let size := mddev.size >>> (chunkShift - 1)
  let size := size / fc
  let size := size * mddev.raidDisks % 2 ^ w
  let size := size / nc
  -- `size` is now the number of chunks in the array
  let stride := size * copies % 2 ^ w
  let stride := (stride + (mddev.raidDisks - 1)) % 2 ^ w
  let stride := stride / mddev.raidDisks
  let mddevSize := (stride <<< (chunkShift - 1)) % 2 ^ w
  let stride := if fo then 1 else stride / fc
  ({ raidDisks := mddev.raidDisks, nearCopies := nc, farCopies := fc, copies := copies,
     farOffset := fo, chunkMask := chunkMask, chunkShift := chunkShift,
     stride := (stride <<< chunkShift) % 2 ^ w },
   { mddev with size := mddevSize, arraySize := (size <<< (chunkShift - 1)) % 2 ^ w })

/-- `run`. -/
def run (w : ℕ) (mddev : Mddev) : Except Errno (Conf × Mddev) :=
  if mddev.chunkSize = 0 then .error .einval
  else
    let nc := mddev.layout &&& 255
    let fc := (mddev.layout >>> 8) &&& 255
    let fo := decide (mddev.layout &&& 2 ^ 16 ≠ 0)
    if nc * fc < 2 ∨ mddev.raidDisks < nc * fc ∨ mddev.layout >>> 17 ≠ 0 then .error .eio
    else .ok (geometry w mddev nc fc fo)

/-- An element of `r10bio->devs`. -/
structure Dev where
  devnum : ℕ
  addr : ℕ
  deriving DecidableEq, Repr

/-- The last rounds of the loop over `f` in `raid10_find_phys`. -/
def farLoop (w : ℕ) (conf : Conf) : ℕ → ℕ → ℕ → List Dev
  | 0, _, _ => []
  | k + 1, d, s =>
    let d := d + conf.nearCopies
    let d := if conf.raidDisks ≤ d then d - conf.raidDisks else d
    let s := (s + conf.stride) % 2 ^ w
    ⟨d, s⟩ :: farLoop w conf k d s

/-- The last rounds of the loop over `n` in `raid10_find_phys`. -/
def nearLoop (w : ℕ) (conf : Conf) : ℕ → ℕ → ℕ → List Dev
  | 0, _, _ => []
  | k + 1, dev, sector =>
    let slots := ⟨dev, sector⟩ :: farLoop w conf (conf.farCopies - 1) dev sector
    let dev := dev + 1
    if conf.raidDisks ≤ dev then
      slots ++ nearLoop w conf k 0 ((sector + (conf.chunkMask + 1)) % 2 ^ w)
    else slots ++ nearLoop w conf k dev sector

/-- `raid10_find_phys`, or `none` when its `BUG_ON` fires. -/
def raid10FindPhys (w : ℕ) (conf : Conf) (r10bioSector : ℕ) : Option (List Dev) :=
  let chunk := r10bioSector >>> conf.chunkShift
  let sector := r10bioSector &&& conf.chunkMask
  let chunk := chunk * conf.nearCopies % 2 ^ w
  let dev := chunk % conf.raidDisks
  let stripe := chunk / conf.raidDisks
  let stripe := if conf.farOffset then stripe * conf.farCopies % 2 ^ w else stripe
  let sector := (sector + (stripe <<< conf.chunkShift) % 2 ^ w) % 2 ^ w
  let slots := nearLoop w conf conf.nearCopies dev sector
  if slots.length ≠ conf.copies then none else some slots

section
variable (conf : Conf) (sector : ℕ) (dev : ℤ)

/-- A round of the loop of `raid10_find_virt`. -/
def findVirtRound : Option (Round (ℕ × ℤ) (ℕ × ℤ)) :=
  if conf.stride ≤ sector then
    let sector := sector - conf.stride
    let dev := if dev < conf.nearCopies then dev + (conf.raidDisks - conf.nearCopies)
      else dev - conf.nearCopies
    some (.next (sector, dev))
  else some (.done (sector, dev))

/-- The loop of `raid10_find_virt`. -/
def findVirtLoop : Option (ℕ × ℤ) :=
  loop (fun s => findVirtRound conf s.1 s.2) (sector, dev)

lemma findVirtLoop_eq : findVirtLoop conf sector dev = (findVirtRound conf sector dev).bind
      (Round.elim fun s => findVirtLoop conf s.1 s.2) :=
  loop_eq _ _

end

/-- `raid10_find_virt`, or `none` when its loop does not end. -/
def raid10FindVirt (w : ℕ) (conf : Conf) (sector dev : ℕ) : Option ℕ := do
  let offset := sector &&& conf.chunkMask
  let (chunk, dev) ←
    if conf.farOffset then
      let chunk := sector >>> conf.chunkShift
      let fc := chunk % conf.farCopies
      let chunk := chunk / conf.farCopies
      let dev : ℤ := dev - (fc * conf.nearCopies : ℕ)
      let dev := if dev < 0 then dev + conf.raidDisks else dev
      some (chunk, dev)
    else do
      let (sector, dev) ← findVirtLoop conf sector dev
      some (sector >>> conf.chunkShift, dev)
  let vchunk := (chunk * conf.raidDisks + dev : ℤ).toNat % 2 ^ w
  let vchunk := vchunk / conf.nearCopies
  return ((vchunk <<< conf.chunkShift) % 2 ^ w + offset) % 2 ^ w

end BooxKernel.Raid10
