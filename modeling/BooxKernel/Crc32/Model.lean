import Mathlib.Data.BitVec

/-!
# The checksums of `lib/crc32.c`

Each checksum is there twice: one bit at a time (`CRC_LE_BITS == 1`, `CRC_BE_BITS == 1`), and
with the tables that `lib/gen_crc32table.c` computes (`CRC_LE_BITS == 8`, `CRC_BE_BITS == 8`).
The buffer is a list of bytes, and its address matters for the alignment only. The two
functions with tables differ in the table and in the byte order they keep `crc` in.
-/
namespace BooxKernel.Crc32

/-- `CRCPOLY_LE`. -/
def crcpolyLe : BitVec 32 := 0xedb88320

/-- `CRCPOLY_BE`. -/
def crcpolyBe : BitVec 32 := 0x04c11db7

/-- `crc = (crc >> 1) ^ ((crc & 1) ? CRCPOLY_LE : 0)`. -/
def bitLe (crc : BitVec 32) : BitVec 32 := (crc >>> 1) ^^^ if crc &&& 1 ≠ 0 then crcpolyLe else 0

/-- `crc = (crc << 1) ^ ((crc & 0x80000000) ? CRCPOLY_BE : 0)`. -/
def bitBe (crc : BitVec 32) : BitVec 32 :=
  (crc <<< 1) ^^^ if crc &&& 0x80000000 ≠ 0 then crcpolyBe else 0

/-! ## One bit at a time -/

namespace Bitwise

section
variable (crc : BitVec 32) (x : BitVec 8) (p : List (BitVec 8))

/-- The body of the loop of `crc32_le`. -/
def byteLe : BitVec 32 := bitLe^[8] (crc ^^^ x.setWidth 32)

/-- `crc32_le`. -/
def crc32Le : BitVec 32 := p.foldl byteLe crc

/-- The body of the loop of `crc32_be`. -/
def byteBe : BitVec 32 :=
  bitBe^[8] (crc ^^^ (x.setWidth 32 <<< (24 : ℕ)))

/-- `crc32_be`. -/
def crc32Be : BitVec 32 := p.foldl byteBe crc

end

end Bitwise

/-! ## The tables -/

/-- An array of words. -/
abbrev Table := Array (BitVec 32)

/-- `table[i]`. -/
def Table.get (table : Table) (i : ℕ) : BitVec 32 := table.getD i 0

/-- `table[i] = x`. -/
def Table.set (table : Table) (i : ℕ) (x : BitVec 32) : Table := table.setIfInBounds i x

/-- The first rounds of the inner loop of `crc32init_le` for `i = 1 << k`. -/
def rowLe (k : ℕ) (crc : BitVec 32) : ℕ → Table → Table
  | 0, table => table
  | n + 1, table =>
    let table := rowLe k crc n table
    let j := n * (2 * 2 ^ k)
    table.set (2 ^ k + j) (crc ^^^ table.get j)

/-- The last rounds of the outer loop of `crc32init_le`. The one before `k` others has
`i = 1 << k`, and its inner loop is left when `j` reaches `1 << bits`. -/
def roundsLe (bits : ℕ) : ℕ → BitVec 32 → Table → Table
  | 0, _, table => table
  | k + 1, crc, table =>
    let crc := bitLe crc
    roundsLe bits k crc (rowLe k crc (2 ^ bits / (2 * 2 ^ k)) table)

/-- `crc32init_le` with `CRC_LE_BITS == bits`; a static array is zero at first. -/
def crc32initLe (bits : ℕ) : Table :=
  roundsLe bits bits 1 (Table.set (Array.replicate (2 ^ bits) 0) 0 0)

/-- The first rounds of the inner loop of `crc32init_be`. -/
def rowBe (i : ℕ) (crc : BitVec 32) : ℕ → Table → Table
  | 0, table => table
  | j + 1, table =>
    let table := rowBe i crc j table
    table.set (i + j) (crc ^^^ table.get j)

/-- The first rounds of the outer loop of `crc32init_be`, in which `i` is `1`, `1 << 1` and so
on. -/
def roundsBe (bits : ℕ) : ℕ → BitVec 32 × Table
  | 0 => (0x80000000, Table.set (Array.replicate (2 ^ bits) 0) 0 0)
  | k + 1 =>
    let (crc, table) := roundsBe bits k
    let crc := bitBe crc
    (crc, rowBe (2 ^ k) crc (2 ^ k) table)

/-- `crc32init_be` with `CRC_BE_BITS == bits`. -/
def crc32initBe (bits : ℕ) : Table := (roundsBe bits bits).2

/-! ## One byte or one word at a time -/

/-- The byte order of the machine. -/
inductive Endian
  | little
  | big
  deriving DecidableEq, Repr

/-- `swab32`. -/
def swab32 (x : BitVec 32) : BitVec 32 :=
  ((x &&& 0x000000ff) <<< 24) ||| ((x &&& 0x0000ff00) <<< 8) |||
    ((x &&& 0x00ff0000) >>> 8) ||| ((x &&& 0xff000000) >>> 24)

/-- `__cpu_to_le32` and `__le32_to_cpu`. -/
def Endian.le32 : Endian → BitVec 32 → BitVec 32
  | .little, x => x
  | .big, x => swab32 x

/-- `__cpu_to_be32` and `__be32_to_cpu`. -/
def Endian.be32 : Endian → BitVec 32 → BitVec 32
  | .little, x => swab32 x
  | .big, x => x

/-- A word in memory. -/
def Endian.load : Endian → BitVec 8 → BitVec 8 → BitVec 8 → BitVec 8 → BitVec 32
  | .little, b0, b1, b2, b3 => b3 ++ b2 ++ b1 ++ b0
  | .big, b0, b1, b2, b3 => b0 ++ b1 ++ b2 ++ b3

/-- `DO_CRC`. -/
def doCrc (e : Endian) (tab : Table) (crc x : BitVec 32) : BitVec 32 :=
  match e with
  | .little => tab.get ((crc ^^^ x) &&& 255).toNat ^^^ (crc >>> 8)
  | .big => tab.get (((crc >>> 24) ^^^ x) &&& 255).toNat ^^^ (crc <<< 8)

/-- The loop that reaches a word boundary, at the address `b`. -/
def alignLoop (e : Endian) (tab : Table) : ℕ → BitVec 32 → List (BitVec 8) →
    BitVec 32 × List (BitVec 8)
  | _, crc, [] => (crc, [])
  | b, crc, x :: p =>
    let crc := doCrc e tab crc (x.setWidth 32)
    if p ≠ [] ∧ (b + 1) % 4 ≠ 0 then alignLoop e tab (b + 1) crc p else (crc, p)

/-- The loop over whole words. -/
def wordLoop (e : Endian) (tab : Table) : BitVec 32 → List (BitVec 8) → BitVec 32 × List (BitVec 8)
  | crc, b0 :: b1 :: b2 :: b3 :: p =>
    let crc := crc ^^^ e.load b0 b1 b2 b3
    let crc := doCrc e tab crc 0
    let crc := doCrc e tab crc 0
    let crc := doCrc e tab crc 0
    let crc := doCrc e tab crc 0
    wordLoop e tab crc p
  | crc, p => (crc, p)

/-- The loop over the last few bytes. -/
def tailLoop (e : Endian) (tab : Table) : BitVec 32 → List (BitVec 8) → BitVec 32
  | crc, [] => crc
  | crc, x :: p => tailLoop e tab (doCrc e tab crc (x.setWidth 32)) p

section
variable (e : Endian) (b : ℕ) (crc : BitVec 32) (p : List (BitVec 8))

/-- The part of `crc32_le` and `crc32_be` between the two conversions. -/
def crcBuffer (tab : Table) (b : ℕ) (crc : BitVec 32) (p : List (BitVec 8)) : BitVec 32 :=
  let (crc, p) := if b % 4 ≠ 0 ∧ p ≠ [] then alignLoop e tab b crc p else (crc, p)
  let (crc, p) := if 4 ≤ p.length then wordLoop e tab crc p else (crc, p)
  tailLoop e tab crc p

/-- `crc32_le`. -/
def crc32Le : BitVec 32 :=
  e.le32 (crcBuffer e ((crc32initLe 8).map e.le32) b (e.le32 crc) p)

/-- `crc32_be`. -/
def crc32Be : BitVec 32 :=
  e.be32 (crcBuffer e ((crc32initBe 8).map e.be32) b (e.be32 crc) p)

end

end BooxKernel.Crc32
