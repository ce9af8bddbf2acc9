import Mathlib.Algebra.Order.Group.Nat

/-!
# Tables of memory regions

The tables of `lib/lmb.c` and the functions that add a region to one and remove one. A table keeps
what is behind its `cnt` regions, which the code reads in one case. Addresses and sizes are numbers
below `2 ^ 64`.
-/
namespace BooxKernel.Lmb
open Function

/-- `struct lmb_property`. -/
structure Property where
  base : ℕ
  size : ℕ
  deriving Repr, DecidableEq

/-- `struct lmb_region`. -/
structure Region where
  cnt : ℕ
  region : ℕ → Property

def add64 (a b : ℕ) : ℕ := (a + b) % 2 ^ 64

def sub64 (a b : ℕ) : ℕ := (a + (2 ^ 64 - b)) % 2 ^ 64

/-- `MAX_LMB_REGIONS`. -/
def maxLmbRegions : ℕ := 128

/-- `lmb_addrs_adjacent`. -/
def addrsAdjacent (base1 size1 base2 size2 : ℕ) : ℤ :=
  if base2 = add64 base1 size1 then 1 else if base1 = add64 base2 size2 then -1 else 0

/-- `lmb_regions_adjacent`. -/
def regionsAdjacent (rgn : Region) (r1 r2 : ℕ) : ℤ :=
  addrsAdjacent (rgn.region r1).base (rgn.region r1).size (rgn.region r2).base (rgn.region r2).size

/-- `cnt - 1`, which is unsigned. -/
def Region.last (rgn : Region) : ℕ := sub64 rgn.cnt 1

/-- The loop of `lmb_remove_region`, with `n` rounds to go from `i` on. -/
def moveDown (region : ℕ → Property) (i : ℕ) : ℕ → ℕ → Property
  | 0 => region
  | n + 1 => moveDown (update region i (region (i + 1))) (i + 1) n

/-- `lmb_remove_region`. -/
def removeRegion (rgn : Region) (r : ℕ) : Region := ⟨rgn.last, moveDown rgn.region r (rgn.last - r)⟩

/-- `lmb_coalesce_regions`. -/
def coalesceRegions (rgn : Region) (r1 r2 : ℕ) : Region :=
  let p := rgn.region r1
  removeRegion ⟨rgn.cnt, update rgn.region r1 ⟨p.base, add64 p.size (rgn.region r2).size⟩⟩ r2

/-- The loop that makes room for a region, with `i` regions to go. -/
def insertLoop (region : ℕ → Property) (p : Property) : ℕ → ℕ → Property
  | 0 => region
  | i + 1 =>
    if p.base < (region i).base then insertLoop (update region (i + 1) (region i)) p i
    else update region (i + 1) p

/-- A region is added to the sorted table. -/
def insertRegion (rgn : Region) (p : Property) : Region :=
  let region := insertLoop rgn.region p rgn.cnt
  ⟨rgn.cnt + 1, if p.base < (region 0).base then update region 0 p else region⟩

/-- Where the loop over the table stops. -/
def findNeighbour (rgn : Region) (p : Property) : Option ℕ :=
  (List.range rgn.cnt).find? fun i => rgn.region i = p ||
    addrsAdjacent p.base p.size (rgn.region i).base (rgn.region i).size ≠ 0

/-- The region `i` with a region that is adjacent to it. -/
def extendRegion (rgn : Region) (p : Property) (i : ℕ) : Region :=
  let q := rgn.region i
  ⟨rgn.cnt, update rgn.region i
    (if addrsAdjacent p.base p.size q.base q.size > 0 then
      ⟨sub64 q.base p.size, add64 q.size p.size⟩
    else ⟨q.base, add64 q.size p.size⟩)⟩

/-- The region `i` with `p`, and with the region behind it if they are adjacent then. -/
def joinRegion (rgn : Region) (p : Property) (i : ℕ) : ℤ × Region :=
  let rgn := extendRegion rgn p i
  if i < rgn.last ∧ regionsAdjacent rgn i (i + 1) ≠ 0 then (2, coalesceRegions rgn i (i + 1))
  else (1, rgn)

/-- `lmb_add_region`, which returns a code and the table. -/
def lmbAddRegion (rgn : Region) (p : Property) : ℤ × Region :=
  if rgn.cnt = 1 ∧ (rgn.region 0).size = 0 then (0, ⟨rgn.cnt, update rgn.region 0 p⟩)
  else
    match findNeighbour rgn p with
    | some i => if rgn.region i = p then (0, rgn) else joinRegion rgn p i
    | none =>
      if rgn.cnt < rgn.last ∧ regionsAdjacent rgn rgn.cnt (rgn.cnt + 1) ≠ 0 then
        (1, coalesceRegions rgn rgn.cnt (rgn.cnt + 1))
      else if rgn.cnt ≥ maxLmbRegions then (-1, rgn)
      else (0, insertRegion rgn p)

/-- The addresses of a region. -/
def Property.Has (p : Property) (a : ℕ) : Prop := p.base ≤ a ∧ a < p.base + p.size

/-- The addresses of the regions of a table. -/
def Region.Has (rgn : Region) (a : ℕ) : Prop := ∃ i < rgn.cnt, (rgn.region i).Has a

end BooxKernel.Lmb
