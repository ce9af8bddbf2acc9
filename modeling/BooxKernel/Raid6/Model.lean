import BooxKernel.Lib.Loops
import Mathlib.Data.BitVec
import Mathlib.Tactic

/-!
# The recovery of a RAID-6 stripe

`drivers/md/mktables.c`, the generator of the multiplication tables; `raid6int.uc`, the
syndrome computed with machine words; `raid6recov.c`, the recovery of two blocks; and of
`raid5.c` the functions `compute_parity6`, `compute_block_1` and `compute_block_2`. The
integer variants of `gen_syndrome` differ in the size and the byte order of a word and in
how far the loop is unrolled. Messages and wake-ups are left out.
-/
namespace BooxKernel.Raid6

open Loops Function BitVec

abbrev Byte := BitVec 8

/-! ## The tables -/

/-- The loop of `gfmul`. -/
def gfmulLoop (a b v : Byte) : Byte :=
  if b = 0 then v
  else
    let v := if b &&& 1 ≠ 0 then v ^^^ a else v
    let a := a <<< 1 ^^^ (if a &&& 0x80 ≠ 0 then 0x1d else 0)
    gfmulLoop a (b >>> 1) v
termination_by b.toNat
decreasing_by
  rename_i h
  rw [toNat_ushiftRight, Nat.shiftRight_eq_div_pow]
  have hb : b.toNat ≠ 0 := fun hzero => h (eq_of_toNat_eq hzero)
  omega

def gfmul (a b : Byte) : Byte := gfmulLoop a b 0

/-- The loop of `gfpow`, for an exponent that is not negative. -/
def gfpowLoop (a : Byte) (b : ℕ) (v : Byte) : Byte :=
  if b = 0 then v
  else
    let v := if b % 2 ≠ 0 then gfmul v a else v
    gfpowLoop (gfmul a a) (b / 2) v
termination_by b

def gfpow (a : Byte) (b : ℤ) : Byte :=
  let b := b.tmod 255
  let b := if b < 0 then b + 255 else b
  gfpowLoop a b.toNat 1

/-- The entries of `exptbl`: `v` after some rounds. -/
def gfexp : ℕ → Byte
  | 0 => 1
  | i + 1 =>
    let v := gfmul (gfexp i) 2
    -- for entry 255, not a real entry
    if v = 1 then 0 else v

def gfinv (i : Byte) : Byte := gfpow i 254

/-- The table of `inv(2^x + 1)`. -/
def gfexi (i : ℕ) : Byte := gfinv (gfexp i ^^^ 1)

/-! ## Pages and words -/

abbrev Page := ℕ → Byte

/-- What a pointer of the table can point to. -/
inductive Addr
  | emptyZeroPage
  | page (i : ℕ)
  deriving DecidableEq, Repr

abbrev Memory := Addr → Page

def Memory.poke (m : Memory) (a : Addr) (o : ℕ) (v : Byte) : Memory := update m a (update (m a) o v)

/-- `unative_t`. -/
inductive Native
  | u32
  | u64
  deriving DecidableEq, Repr

namespace Native

/-- `NSIZE`. -/
def nsize : Native → ℕ
  | u32 => 4
  | u64 => 8

/-- `NBYTES`. -/
def nbytes : Native → ℕ → ℕ
  | u32, x => x * 0x01010101 % 2 ^ 32
  | u64, x => x * 0x0101010101010101 % 2 ^ 64

/-- A word cut off to its size. -/
def wrap (w : Native) (v : ℕ) : ℕ := v % 2 ^ (8 * w.nsize)

/-- `SHLBYTE`. -/
def shlbyte (w : Native) (v : ℕ) : ℕ := w.wrap (v <<< 1) &&& w.nbytes 0xfe

/-- `MASK`. The difference wraps. -/
def mask (w : Native) (v : ℕ) : ℕ :=
  let vv := v &&& w.nbytes 0x80
  w.wrap (w.wrap (vv <<< 1) + (2 ^ (8 * w.nsize) - vv >>> 7))

end Native

/-- The order of the bytes of a word. -/
inductive Endian
  | little
  | big
  deriving DecidableEq, Repr

/-- An integer variant of `gen_syndrome`, and the size of the blocks of a stripe. -/
structure Arch where
  native : Native
  endian : Endian
  /-- The factor `$#`. -/
  unroll : ℕ
  unroll_pos : 0 < unroll
  /-- `STRIPE_SIZE`. -/
  stripeSize : ℕ
  aligned : native.nsize * unroll ∣ stripeSize

namespace Arch

section
variable (x : Arch)

/-- How many bytes of a word are below the byte at an offset in it. -/
def place (k : ℕ) : ℕ :=
  match x.endian with
  | .little => k
  | .big => x.native.nsize - 1 - k

/-- The word at an offset of a page. -/
def load (page : Page) (d : ℕ) : ℕ :=
  Nat.ofDigits (2 ^ 8) ((List.range x.native.nsize).map fun k => (page (d + x.place k)).toNat)

/-- A word is written to an offset of a page. -/
def store (m : Memory) (a : Addr) (d w : ℕ) : Memory :=
  update m a fun o =>
    if d ≤ o ∧ o < d + x.native.nsize then BitVec.ofNat 8 (w >>> (8 * x.place (o - d)))
    else m a o

/-! ## The syndrome -/

/-- The body of the inner loop, for one pair of `wp` and `wq`. -/
def fold (wd : ℕ) (s : ℕ × ℕ) : ℕ × ℕ :=
  let wp := s.1 ^^^ wd
  let w2 := x.native.mask s.2
  let w1 := x.native.shlbyte s.2
  let w2 := w2 &&& x.native.nbytes 0x1d
  let w1 := w1 ^^^ w2
  (wp, w1 ^^^ wd)

/-- The inner loop, over the data disks below `z`. -/
def foldDown (x : Arch) (m : Memory) (ptrs : ℕ → Addr) (o : ℕ) : ℕ → ℕ × ℕ → ℕ × ℕ
  | 0, s => s
  | z + 1, s => x.foldDown m ptrs o z (x.fold (x.load (m (ptrs z)) o) s)

/-- `wp` and `wq` for the words at the offset `o`. -/
def syndrome (m : Memory) (ptrs : ℕ → Addr) (z0 o : ℕ) : ℕ × ℕ :=
  let w := x.load (m (ptrs z0)) o
  x.foldDown m ptrs o z0 (w, w)

/-- Words are written one after the other. -/
def storeAll (x : Arch) (a : Addr) : ℕ → List ℕ → Memory → Memory
  | _, [], m => m
  | d, w :: ws, m => x.storeAll a (d + x.native.nsize) ws (x.store m a d w)

/-- The body of the outer loop: all words of the round are read before one is written. -/
def genRound (ptrs : ℕ → Addr) (z0 d : ℕ) (m : Memory) : Memory :=
  let words := (List.range x.unroll).map fun k => x.syndrome m ptrs z0 (d + k * x.native.nsize)
  let m := x.storeAll (ptrs (z0 + 1)) d (words.map Prod.fst) m
  x.storeAll (ptrs (z0 + 2)) d (words.map Prod.snd) m

lemma nsize_pos (w : Native) : 0 < w.nsize := by
  cases w <;> decide

lemma step_pos : 0 < x.native.nsize * x.unroll :=
  mul_pos (nsize_pos x.native) x.unroll_pos

/-- The outer loop. -/
def genLoop (x : Arch) (ptrs : ℕ → Addr) (z0 bytes d : ℕ) (m : Memory) : Memory :=
  if d < bytes then
    x.genLoop ptrs z0 bytes (d + x.native.nsize * x.unroll) (x.genRound ptrs z0 d m)
  else m
termination_by bytes - d
decreasing_by
  have := x.step_pos
  omega

/-- `raid6_int$#_gen_syndrome`. -/
def genSyndrome (disks bytes : ℕ) (ptrs : ℕ → Addr) (m : Memory) : Memory :=
  x.genLoop ptrs (disks - 3) bytes 0 m

/-! ## The recovery -/

/-- The loop of `raid6_2data_recov` from the offset `o` on. -/
def twoDataLoop (pbmul qmul : Byte → Byte) (p q dp dq : Addr) : ℕ → ℕ → Memory → Memory
  | 0, _, m => m
  | bytes + 1, o, m =>
    let px := m p o ^^^ m dp o
    let qx := qmul (m q o ^^^ m dq o)
    let db := pbmul px ^^^ qx
    let m := m.poke dq o db
    let m := m.poke dp o (db ^^^ px)
    twoDataLoop pbmul qmul p q dp dq bytes (o + 1) m

/-- `raid6_2data_recov`. -/
def twoDataRecov (disks bytes faila failb : ℕ) (ptrs : ℕ → Addr) (m : Memory) : Memory :=
  let p := ptrs (disks - 2)
  let q := ptrs (disks - 1)
  let dp := ptrs faila
  let ptrs := update ptrs faila .emptyZeroPage
  let ptrs := update ptrs (disks - 2) dp
  let dq := ptrs failb
  let ptrs := update ptrs failb .emptyZeroPage
  let ptrs := update ptrs (disks - 1) dq
  let m := x.genSyndrome disks bytes ptrs m
  let pbmul := gfmul (gfexi (failb - faila))
  let qmul := gfmul (gfinv (gfexp faila ^^^ gfexp failb))
  twoDataLoop pbmul qmul p q dp dq bytes 0 m

/-- The loop of `raid6_datap_recov` from the offset `o` on. -/
def dataPLoop (qmul : Byte → Byte) (p q dq : Addr) : ℕ → ℕ → Memory → Memory
  | 0, _, m => m
  | bytes + 1, o, m =>
    let v := qmul (m q o ^^^ m dq o)
    let m := m.poke dq o v
    let m := m.poke p o (m p o ^^^ v)
    dataPLoop qmul p q dq bytes (o + 1) m

/-- `raid6_datap_recov`. -/
def dataPRecov (disks bytes faila : ℕ) (ptrs : ℕ → Addr) (m : Memory) : Memory :=
  let p := ptrs (disks - 2)
  let q := ptrs (disks - 1)
  let dq := ptrs faila
  let ptrs := update ptrs faila .emptyZeroPage
  let ptrs := update ptrs (disks - 1) dq
  let m := x.genSyndrome disks bytes ptrs m
  let qmul := gfmul (gfinv (gfexp faila))
  dataPLoop qmul p q dq bytes 0 m

end

end Arch

/-! ## The stripe -/

/-- A request that was taken for writing. `copyData` is what `copy_data` does to the page of
a device at a sector. -/
structure Bio where
  biSector : ℕ
  biSize : ℕ
  copyData : ℕ → Page → Page

/-- The fields of an `r5dev` that the functions below use; a chain of requests is a list. -/
structure R5dev where
  page : Page
  sector : ℕ
  towrite : List Bio
  written : List Bio
  uptodate : Bool
  locked : Bool
  overlap : Bool

structure StripeHead where
  disks : ℕ
  pdIdx : ℕ
  dev : ℕ → R5dev

inductive Method
  | readModifyWrite
  | reconstructWrite
  | checkParity
  | updateParity
  deriving DecidableEq, Repr

def raid6NextDisk (disk raidDisks : ℕ) : ℕ := if disk + 1 < raidDisks then disk + 1 else 0

namespace StripeHead

section
variable (sh : StripeHead) (x : Arch)

def qdIdx : ℕ := raid6NextDisk sh.pdIdx sh.disks

def d0Idx : ℕ := raid6NextDisk sh.qdIdx sh.disks

section
variable (stack : ℕ → Addr)

def modifyDev (i : ℕ) (f : R5dev → R5dev) : StripeHead :=
  { sh with dev := update sh.dev i (f (sh.dev i)) }

/-- The pages of the stripe, and the page of zeros. -/
def memory : Memory
  | .emptyZeroPage => fun _ => 0
  | .page i => (sh.dev i).page

/-- The stripe after its pages were written. -/
def withPages (m : Memory) : StripeHead :=
  { sh with dev := fun i => { sh.dev i with page := m (.page i) } }

/-- One round of the loop that builds the table of pointers. -/
def tableRound (s : ℕ × ℕ × (ℕ → Addr)) : Option (Round (ℕ × ℕ × (ℕ → Addr)) (ℕ → Addr)) :=
  let (i, count, ptrs) := s
  let ptrs := update ptrs count (.page i)
  let i := raid6NextDisk i sh.disks
  some (if i ≠ sh.d0Idx then .next (i, count + 1, ptrs) else .done ptrs)

/-- The table of pointers, from `d0_idx` on; `stack` is what the array has at first. -/
def pointerTable : Option (ℕ → Addr) :=
  loop sh.tableRound (sh.d0Idx, 0, stack)

/-- The loop over the requests of one device. -/
def copyWritten (stripeSectors sector : ℕ) : List Bio → Page → Page
  | [], page => page
  | wbi :: rest, page =>
    if wbi.biSector < sector + stripeSectors then
      let page := wbi.copyData sector page
      -- `r5_next_bio`
      if wbi.biSector + wbi.biSize >>> 9 < sector + stripeSectors then
        copyWritten stripeSectors sector rest page
      else page
    else page

/-- A device with something to write gets it; `none` is the `BUG_ON`. -/
def chooseWrite (dev : R5dev) : Option R5dev :=
  match dev.towrite with
  | [] => some dev
  | chosen =>
    if dev.written ≠ [] then none
    else some { dev with towrite := [], overlap := false, written := chosen }

/-- The loop of `RECONSTRUCT_WRITE`, over the devices below `i`. -/
def chooseWrites (sh : StripeHead) : ℕ → Option StripeHead
  | 0 => some sh
  | i + 1 =>
    if i ≠ sh.pdIdx ∧ i ≠ sh.qdIdx then do
      let dev ← chooseWrite (sh.dev i)
      chooseWrites (sh.modifyDev i fun _ => dev) i
    else sh.chooseWrites i

/-- What is written to a device is copied into its page. -/
def drainDev (stripeSectors : ℕ) (dev : R5dev) : R5dev :=
  if dev.written = [] then dev
  else
    { dev with
      page := copyWritten stripeSectors dev.sector dev.written dev.page
      locked := true
      uptodate := true }

/-- The loop over the devices below `i` that copies what is written. -/
def drain (sh : StripeHead) (stripeSectors : ℕ) : ℕ → StripeHead
  | 0 => sh
  | i + 1 => (sh.modifyDev i (drainDev stripeSectors)).drain stripeSectors i

def markParity (f : R5dev → R5dev) : StripeHead :=
  (sh.modifyDev sh.pdIdx f).modifyDev sh.qdIdx f

/-- The second `switch` of `compute_parity6`. -/
def finishParity : Method → StripeHead
  | .reconstructWrite => sh.markParity fun dev => { dev with uptodate := true, locked := true }
  | .updateParity => sh.markParity fun dev => { dev with uptodate := true }
  | _ => sh

/-- The first `switch` of `compute_parity6`; `none` is a `BUG`. -/
def startParity : Method → Option StripeHead
  | .readModifyWrite => none
  | .reconstructWrite => sh.chooseWrites sh.disks
  | .checkParity => none
  | .updateParity => some sh

/-- `compute_parity6`. -/
def computeParity6 (sh : StripeHead) (method : Method) : Option StripeHead := do
  let sh ← sh.startParity method
  let sh := sh.drain (x.stripeSize >>> 9) sh.disks
  let ptrs ← sh.pointerTable stack
  let sh := sh.withPages (x.genSyndrome sh.disks x.stripeSize ptrs sh.memory)
  return sh.finishParity method

/-- `xor_blocks`. -/
def xorBlocks (m : Memory) (bytes : ℕ) (dest : Addr) (srcs : List Addr) : Memory :=
  update m dest fun o =>
    if o < bytes then srcs.foldl (fun v src => v ^^^ m src o) (m dest o) else m dest o

/-- `MAX_XOR_BLOCKS`. -/
def maxXorBlocks : ℕ := 4

/-- The loop of `compute_block_1` over the devices below `i`, and the last `xor_blocks`;
`ptr` has the blocks that were gathered. -/
def xorLoop (sh : StripeHead) (bytes ddIdx : ℕ) : ℕ → List Addr → Memory → Memory
  | 0, ptr, m => if ptr.length ≠ 0 then xorBlocks m bytes (.page ddIdx) ptr else m
  | i + 1, ptr, m =>
    if i = ddIdx ∨ i = sh.qdIdx then sh.xorLoop bytes ddIdx i ptr m
    else
      let ptr := if (sh.dev i).uptodate then ptr ++ [.page i] else ptr
      if ptr.length = maxXorBlocks then
        sh.xorLoop bytes ddIdx i [] (xorBlocks m bytes (.page ddIdx) ptr)
      else sh.xorLoop bytes ddIdx i ptr m

/-- `memset` of a page to 0. -/
def clearPage (m : Memory) (bytes : ℕ) (a : Addr) : Memory :=
  update m a fun o => if o < bytes then 0 else m a o

/-- `compute_block_1`. -/
def computeBlock1 (sh : StripeHead) (ddIdx : ℕ) (nozero : Bool) : Option StripeHead :=
  if ddIdx = sh.qdIdx then sh.computeParity6 x stack .updateParity
  else
    let m := if nozero then sh.memory else clearPage sh.memory x.stripeSize (.page ddIdx)
    let m := sh.xorLoop x.stripeSize ddIdx sh.disks [] m
    some ((sh.withPages m).modifyDev ddIdx fun dev => { dev with uptodate := !nozero })

/-- The number of a disk relative to `d0_idx`. -/
def relative (idx : ℕ) : ℕ :=
  if idx < sh.d0Idx then idx + (sh.disks - sh.d0Idx) else idx - sh.d0Idx

/-- The part of `compute_block_2` behind the swap, with `faila < failb`. -/
def rebuild (sh : StripeHead) (ddIdx1 ddIdx2 faila failb : ℕ) : Option StripeHead :=
  if failb = sh.disks - 1 then
    if faila = sh.disks - 2 then sh.computeParity6 x stack .updateParity
    else do
      let sh ← sh.computeBlock1 x stack (if ddIdx1 = sh.qdIdx then ddIdx2 else ddIdx1) false
      sh.computeParity6 x stack .updateParity
  else do
    let ptrs ← sh.pointerTable stack
    let m :=
      if failb = sh.disks - 2 then x.dataPRecov sh.disks x.stripeSize faila ptrs sh.memory
      else x.twoDataRecov sh.disks x.stripeSize faila failb ptrs sh.memory
    let sh := sh.withPages m
    let sh := sh.modifyDev ddIdx1 fun dev => { dev with uptodate := true }
    return sh.modifyDev ddIdx2 fun dev => { dev with uptodate := true }

/-- `compute_block_2`; `none` is its `BUG_ON`. -/
def computeBlock2 (sh : StripeHead) (ddIdx1 ddIdx2 : ℕ) : Option StripeHead :=
  let faila := sh.relative ddIdx1
  let failb := sh.relative ddIdx2
  if faila = failb then none
  else if failb < faila then sh.rebuild x stack ddIdx1 ddIdx2 failb faila
  else sh.rebuild x stack ddIdx1 ddIdx2 faila failb

end

end

end StripeHead

end BooxKernel.Raid6
