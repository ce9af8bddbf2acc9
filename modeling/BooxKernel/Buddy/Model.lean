import BooxKernel.Lib.Buddies
import BooxKernel.Lib.Queues

/-!
# The buddy allocator of a zone

Pages go by their page frame numbers. A free block is known by its first page, which is
on the free list of the block's order and of some migrate type, is marked `PageBuddy`,
and keeps the order in `private`.

Everything below is done under the lock of the zone. `NR_FREE_PAGES` is the sum of the
zone's counter and what the processors have not yet added to it.
-/
namespace BooxKernel.Buddy
open Buddies Queues Function

/-- The migrate types, in the order of their numbers. -/
inductive Migratetype
  | unmovable
  | reclaimable
  | movable
  | reserve
  | isolate
  deriving DecidableEq

instance : Fintype Migratetype where
  elems := {.unmovable, .reclaimable, .movable, .reserve, .isolate}
  complete m := by cases m <;> decide

/-- `MAX_ORDER`, the order of a pageblock, and the zone. The pages that span the zone but
are not in it are those that `pfn_valid_within` or `page_zone_id` tell apart; they are in
no free block. -/
structure Config where
  maxOrder : ℕ
  pageblockOrder : ℕ
  groupByMobilityDisabled : Bool
  zoneStartPfn : ℕ
  spannedPages : ℕ
  inZone : ℕ → Bool
  maxOrder_pos : 0 < maxOrder
  pageblockOrder_pos : 0 < pageblockOrder

/-- A zone; the lists of `free_area[order].free_list[migratetype]` are one family. -/
structure Zone where
  freeList : ℕ × Migratetype → List ℕ
  nrFree : ℕ → ℤ
  nrFreePages : ℤ
  buddy : ℕ → Bool
  pageOrder : ℕ → ℕ
  pageblock : ℕ → Migratetype

variable (c : Config)

section Pages

def pageblockIndex (page : ℕ) : ℕ := (page - c.zoneStartPfn) / 2 ^ c.pageblockOrder

section
variable (z : Zone) (page : ℕ)

def getPageblockMigratetype : Migratetype :=
  if c.groupByMobilityDisabled then .unmovable else z.pageblock (pageblockIndex c page)

def setPageblockMigratetype (m : Migratetype) : Zone :=
  { z with pageblock := update z.pageblock (pageblockIndex c page) m }

def setPageOrder (page order : ℕ) : Zone :=
  { z with
    pageOrder := update z.pageOrder page order
    buddy := update z.buddy page true }

def rmvPageOrder : Zone :=
  { z with
    buddy := update z.buddy page false
    pageOrder := update z.pageOrder page 0 }

def incNrFree (order : ℕ) (n : ℤ) : Zone :=
  { z with nrFree := update z.nrFree order (z.nrFree order + n) }

/-- `__mod_zone_page_state` of `NR_FREE_PAGES`. -/
def modFreePages (n : ℤ) : Zone := { z with nrFreePages := z.nrFreePages + n }

def listAdd (page order : ℕ) (m : Migratetype) : Zone :=
  { z with freeList := add (order, m) page z.freeList }

def listDel : Zone := { z with freeList := del page z.freeList }

end

end Pages

section Free

/-- `__page_find_buddy`. -/
def pageFindBuddy (page pageIdx order : ℕ) : ℕ := page + (pageIdx ^^^ 2 ^ order) - pageIdx

/-- `__find_combined_index`. -/
def findCombinedIndex (pageIdx order : ℕ) : ℕ := Nat.ldiff pageIdx (2 ^ order)

def pageIsBuddy (z : Zone) (buddy order : ℕ) : Bool :=
  c.inZone buddy && z.buddy buddy && z.pageOrder buddy == order

/-- The loop of `__free_one_page` and what follows it. -/
def freeLoop (z : Zone) (page pageIdx order : ℕ) (m : Migratetype) : Zone :=
  if order < c.maxOrder - 1 ∧ pageIsBuddy c z (pageFindBuddy page pageIdx order) order = true then
    let z := listDel z (pageFindBuddy page pageIdx order)
    let z := incNrFree z order (-1)
    let z := rmvPageOrder z (pageFindBuddy page pageIdx order)
    let combinedIdx := findCombinedIndex pageIdx order
    freeLoop z (page + combinedIdx - pageIdx) combinedIdx (order + 1) m
  else
    let z := setPageOrder z page order
    let z := listAdd z page order m
    incNrFree z order 1
termination_by c.maxOrder - order

/-- `__free_one_page`. -/
def freeOnePage (z : Zone) (page order : ℕ) : Zone :=
  let m := getPageblockMigratetype c z page
  let pageIdx := page % 2 ^ c.maxOrder
  freeLoop c (modFreePages z (2 ^ order)) page pageIdx order m

end Free

section Expand

/-- `expand`: what is left of a block of the order `high` is put on the free lists. -/
def expand (z : Zone) (page low : ℕ) (m : Migratetype) : ℕ → Zone
  | 0 => z
  | high + 1 =>
    if low < high + 1 then
      let z := listAdd z (page + 2 ^ high) high m
      let z := incNrFree z high 1
      let z := setPageOrder z (page + 2 ^ high) high
      expand z page low m high
    else z

/-- The loop of `__rmqueue_smallest` over the given orders. -/
def smallestLoop (z : Zone) (order : ℕ) (m : Migratetype) : List ℕ → Option (ℕ × Zone)
  | [] => none
  | currentOrder :: orders =>
    match z.freeList (currentOrder, m) with
    | [] => smallestLoop z order m orders
    | page :: _ =>
      let z := listDel z page
      let z := rmvPageOrder z page
      let z := incNrFree z currentOrder (-1)
      let z := modFreePages z (-2 ^ order)
      some (page, expand z page order m currentOrder)

/-- `__rmqueue_smallest`. -/
def rmqueueSmallest (z : Zone) (order : ℕ) (m : Migratetype) : Option (ℕ × Zone) :=
  smallestLoop z order m (List.range' order (c.maxOrder - order))

end Expand

section Fallback

/-- The rows of `fallbacks` have `MIGRATE_TYPES - 1` entries, of which the table gives
three; the last one is 0, and so is the row of `MIGRATE_ISOLATE`. -/
def fallbacks : Migratetype → List Migratetype
  | .unmovable => [.reclaimable, .movable, .reserve, .unmovable]
  | .reclaimable => [.unmovable, .movable, .reserve, .unmovable]
  | .movable => [.reclaimable, .unmovable, .reserve, .unmovable]
  | .reserve => [.reserve, .reserve, .reserve, .unmovable]
  | .isolate => [.unmovable, .unmovable, .unmovable, .unmovable]

/-- `move_freepages`: the number of pages moved, and the lists. -/
def moveFreepages (z : Zone) (page endPage : ℕ) (m : Migratetype) (pagesMoved : ℕ) : ℕ × Zone :=
  if page ≤ endPage then
    if !c.inZone page || !z.buddy page then moveFreepages z (page + 1) endPage m pagesMoved
    else
      let order := z.pageOrder page
      moveFreepages (listAdd (listDel z page) page order m) (page + 2 ^ order) endPage m
        (pagesMoved + 2 ^ order)
  else (pagesMoved, z)
termination_by endPage + 1 - page
decreasing_by
  · omega
  · have : 0 < 2 ^ z.pageOrder page := by positivity
    omega

def moveFreepagesBlock (z : Zone) (page : ℕ) (m : Migratetype) : ℕ × Zone :=
  let startPfn := page / 2 ^ c.pageblockOrder * 2 ^ c.pageblockOrder
  let endPfn := startPfn + 2 ^ c.pageblockOrder - 1
  let startPage := if startPfn < c.zoneStartPfn then page else startPfn
  if c.zoneStartPfn + c.spannedPages ≤ endPfn then (0, z)
  else moveFreepages c z startPage endPfn m 0

/-- The free pages of the pageblock are moved, and the pageblock is claimed if over half of
it is free. -/
def stealBlock (z : Zone) (page : ℕ) (startMigratetype : Migratetype) : Zone :=
  let (pages, z) := moveFreepagesBlock c z page startMigratetype
  if 2 ^ (c.pageblockOrder - 1) ≤ pages then setPageblockMigratetype c z page startMigratetype
  else z

/-- The body of the loops of `__rmqueue_fallback`, for a block of another type. -/
def takeFallback (z : Zone) (page order currentOrder : ℕ)
    (startMigratetype m : Migratetype) : ℕ × Zone :=
  let z := incNrFree z currentOrder (-1)
  let steal := decide (c.pageblockOrder / 2 ≤ currentOrder) || startMigratetype == .reclaimable
  let z := if steal then stealBlock c z page startMigratetype else z
  let m := if steal then startMigratetype else m
  let z := listDel z page
  let z := rmvPageOrder z page
  let z := modFreePages z (-2 ^ order)
  let z := if currentOrder = c.pageblockOrder then setPageblockMigratetype c z page startMigratetype
    else z
  (page, expand z page order m currentOrder)

/-- The inner loop of `__rmqueue_fallback`. -/
def fallbackTypes (z : Zone) (order currentOrder : ℕ) (startMigratetype : Migratetype) :
    List Migratetype → Option (ℕ × Zone)
  | [] => none
  | m :: ms =>
    if m = .reserve then fallbackTypes z order currentOrder startMigratetype ms
    else
      match z.freeList (currentOrder, m) with
      | [] => fallbackTypes z order currentOrder startMigratetype ms
      | page :: _ => some (takeFallback c z page order currentOrder startMigratetype m)

/-- The outer loop of `__rmqueue_fallback` over the given orders. -/
def fallbackLoop (z : Zone) (order : ℕ) (startMigratetype : Migratetype) :
    List ℕ → Option (ℕ × Zone)
  | [] => rmqueueSmallest c z order .reserve
  | currentOrder :: orders =>
    match fallbackTypes c z order currentOrder startMigratetype (fallbacks startMigratetype) with
    | some r => some r
    | none => fallbackLoop z order startMigratetype orders

/-- `__rmqueue_fallback`: the largest order is tried first. -/
def rmqueueFallback (z : Zone) (order : ℕ) (startMigratetype : Migratetype) : Option (ℕ × Zone) :=
  fallbackLoop c z order startMigratetype (List.range' order (c.maxOrder - order)).reverse

/-- `__rmqueue`. -/
def rmqueue (z : Zone) (order : ℕ) (m : Migratetype) : Option (ℕ × Zone) :=
  match rmqueueSmallest c z order m with
  | some r => some r
  | none => rmqueueFallback c z order m

end Fallback

/-- The zone and the blocks that were taken from it. -/
structure State where
  zone : Zone
  outstanding : Set Block

/-- A call with its result. -/
inductive Event
  | rmqueue (order : ℕ) (m : Migratetype) (page : Option ℕ)
  | free (page order : ℕ)

/-- One call: a block of an order below `MAX_ORDER` is taken, if there is one, or a block
that was taken is freed with its order. -/
def Step (s : State) : Event → State → Prop
  | .rmqueue order m result, s' =>
    order < c.maxOrder ∧
      match rmqueue c s.zone order m with
      | none => result = none ∧ s' = s
      | some (page, zone) =>
        result = some page ∧ s' = ⟨zone, insert ⟨page, order⟩ s.outstanding⟩
  | .free page order, s' =>
    ⟨page, order⟩ ∈ s.outstanding ∧
      s' = ⟨freeOnePage c s.zone page order, s.outstanding \ {⟨page, order⟩}⟩

end BooxKernel.Buddy
