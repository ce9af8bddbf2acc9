import BooxKernel.Lib.Digits
import BooxKernel.Lib.Loops

/-!
# The radix tree

A `void *` of the tree is what it points at: nothing, an item, or a node with its
slots. Nothing in the type says on which level a pointer stands; code that uses an
item as a node, or NULL as a node, ends in a fault. A walk down the tree that keeps
the path in an array and then goes back up is a recursion on the height.

An item is a pointer that is not NULL and whose low bit is clear, so `BUG_ON` on an
indirect item does not fire. Nodes come from the slab zeroed: `radix_tree_delete`
is modelled with the nodes it frees, which are shown to go back to the slab zeroed.
Whether each allocation succeeds is given by a list of answers; when the list is
empty, allocations fail.
-/
namespace BooxKernel.RadixTree
open Digits Function

/-- The compile time constants: `RADIX_TREE_MAP_SHIFT` and `RADIX_TREE_INDEX_BITS`. -/
structure Config where
  mapShift : ℕ
  indexBits : ℕ
  mapShift_pos : 0 < mapShift

def Config.mapSize (c : Config) : ℕ := 2 ^ c.mapShift

/-- `RADIX_TREE_MAX_TAGS`. -/
abbrev maxTags : ℕ := 2

/-- A pointer of the tree. A node holds its `height`, `count`, `tags` and `slots`. -/
inductive Ptr (α : Type*) (n : ℕ)
  | null
  | item (a : α)
  | node (height count : ℕ) (tags : Fin maxTags → Fin n → Bool) (slots : Fin n → Ptr α n)

def Ptr.isNull {α : Type*} {n : ℕ} : Ptr α n → Bool
  | .null => true
  | _ => false

/-- The pointer to an item that may be there. -/
def Ptr.ofOption {α : Type*} {n : ℕ} : Option α → Ptr α n
  | none => .null
  | some a => .item a

/-- `struct radix_tree_root`: of `gfp_mask` only the root tags are kept. -/
structure Root (α : Type*) (n : ℕ) where
  height : ℕ
  tags : Fin maxTags → Bool
  rnode : Ptr α n

/-- `INIT_RADIX_TREE`. -/
def Root.empty (α : Type*) (n : ℕ) : Root α n := ⟨0, fun _ => false, .null⟩

/-- What a call can come to: 0, an error code, a `BUG_ON` that fires, or a
dereference of a pointer that is no node. -/
inductive Errno
  | ok
  | enomem
  | eexist
  | bug
  | fault
  deriving Repr, DecidableEq

variable {α : Type*} (c : Config)

/-- `__maxindex`, the contents of `height_to_maxindex`. -/
def maxindex (height : ℕ) : ℕ :=
  let width := height * c.mapShift
  if c.indexBits < width then 2 ^ c.indexBits - 1
  else if c.indexBits - width ≥ c.indexBits then 0
  else (2 ^ c.indexBits - 1) >>> (c.indexBits - width)

/-- The slot of an index in a node at height `level + 1`. -/
def offset (level index : ℕ) : Fin c.mapSize := digit c.mapShift level index

section Lookup

/-- The loop of `radix_tree_lookup` from a node of the given height. -/
def lookupLoop (index : ℕ) : ℕ → Ptr α c.mapSize → Option (Ptr α c.mapSize)
  | 0, node => some node
  | height + 1, .node _ _ _ slots =>
    match slots (offset c height index) with
    | .null => some .null
    | child => lookupLoop index height child
  | _ + 1, _ => none

/-- `radix_tree_lookup`; `none` is a fault. -/
def radixTreeLookup (root : Root α c.mapSize) (index : ℕ) : Option (Ptr α c.mapSize) :=
  match root.rnode with
  | .null => some .null
  | .item a => if index > 0 then some .null else some (.item a)
  | .node height count tags slots =>
    if index > maxindex c height then some .null
    else lookupLoop c index height (.node height count tags slots)

end Lookup

section Insert

/-- The node that `radix_tree_extend` puts on top of the tree. -/
def topNode (root : Root α c.mapSize) : Ptr α c.mapSize :=
  .node (root.height + 1) 1 (fun tag slot => decide (slot.val = 0) && root.tags tag)
    (fun slot => if slot.val = 0 then root.rnode else .null)

/-- The first loop of `radix_tree_extend`: the height from `height` on that holds
`index`. -/
def fittingHeight (index : ℕ) : ℕ → ℕ → ℕ
  | 0, height => height
  | fuel + 1, height =>
    if index > maxindex c height then fittingHeight index fuel (height + 1) else height

/-- The second loop of `radix_tree_extend`, with the number of levels to add. -/
def extendLoop : ℕ → Root α c.mapSize → List Bool → Errno × Root α c.mapSize × List Bool
  | 0, root, alloc => (.ok, root, alloc)
  | levels + 1, root, true :: alloc =>
    extendLoop levels { root with height := root.height + 1, rnode := topNode c root } alloc
  | _ + 1, root, alloc => (.enomem, root, alloc.tail)

def radixTreeExtend (root : Root α c.mapSize) (index : ℕ) (alloc : List Bool) :
    Errno × Root α c.mapSize × List Bool :=
  let height := fittingHeight c index c.indexBits (root.height + 1)
  if root.rnode.isNull then (.ok, { root with height := height }, alloc)
  else extendLoop c (height - root.height) root alloc

/-- Store what the walk below left in the slot of `index`. The node's `count` goes up
when the slot was filled, and the tag bits of a new item must be clear. -/
def fillSlot (level index : ℕ) (h count : ℕ) (tags : Fin maxTags → Fin c.mapSize → Bool)
    (slots : Fin c.mapSize → Ptr α c.mapSize) (below : Errno × Ptr α c.mapSize × List Bool) :
    Errno × Ptr α c.mapSize × List Bool :=
  let i := offset c level index
  (if decide (level = 0) && decide (below.1 = .ok) && (tags 0 i || tags 1 i) then .bug else below.1,
    .node h (if (slots i).isNull && !below.2.1.isNull then count + 1 else count) tags
      (update slots i below.2.1),
    below.2.2)

/-- The loop of `radix_tree_insert` at a slot of the given height, and the store of
the item at height 0. -/
def insertLoop (index : ℕ) (new : α) :
    ℕ → Ptr α c.mapSize → List Bool → Errno × Ptr α c.mapSize × List Bool
  | 0, .null, alloc => (.ok, .item new, alloc)
  | 0, slot, alloc => (.eexist, slot, alloc)
  | height + 1, .null, true :: alloc =>
    fillSlot c height index (height + 1) 0 (fun _ _ => false) (fun _ => .null)
      (insertLoop index new height .null alloc)
  | _ + 1, .null, alloc => (.enomem, .null, alloc.tail)
  | height + 1, .node h count tags slots, alloc =>
    fillSlot c height index h count tags slots
      (insertLoop index new height (slots (offset c height index)) alloc)
  | _ + 1, .item a, alloc => (.fault, .item a, alloc)

def radixTreeInsert (root : Root α c.mapSize) (index : ℕ) (new : α) (alloc : List Bool) :
    Errno × Root α c.mapSize :=
  let grown :=
    if index > maxindex c root.height then radixTreeExtend c root index alloc else (.ok, root, alloc)
  let root := grown.2.1
  if grown.1 ≠ .ok then (grown.1, root)
  else
    let result := insertLoop c index new root.height root.rnode grown.2.2
    (if decide (root.height = 0) && decide (result.1 = .ok) && (root.tags 0 || root.tags 1) then .bug
      else result.1,
      { root with rnode := result.2.1 })

end Insert

section Tags

section
variable (tags : Fin maxTags → Fin c.mapSize → Bool) (tag : Fin maxTags)

/-- `any_tag_set`. -/
def anyTagSet : Bool :=
  decide (∃ slot, tags tag slot = true)

/-- Set or clear one tag bit. -/
def putTag (slot : Fin c.mapSize) (value : Bool) : Fin maxTags → Fin c.mapSize → Bool :=
  update tags tag (update (tags tag) slot value)

end

/-- The loop of `radix_tree_tag_set`: the error, the item found, and the slot. -/
def tagSetLoop (index : ℕ) (tag : Fin maxTags) :
    ℕ → Ptr α c.mapSize → Errno × Ptr α c.mapSize × Ptr α c.mapSize
  | 0, slot => (.ok, slot, slot)
  | height + 1, .node h count tags slots =>
    let i := offset c height index
    if (slots i).isNull then (.bug, .null, .node h count (putTag c tags tag i true) slots)
    else
      let below := tagSetLoop index tag height (slots i)
      (below.1, below.2.1, .node h count (putTag c tags tag i true) (update slots i below.2.2))
  | _ + 1, slot => (.fault, .null, slot)

section
variable (root : Root α c.mapSize) (index : ℕ) (tag : Fin maxTags)

def radixTreeTagSet : Errno × Ptr α c.mapSize × Root α c.mapSize :=
  if index > maxindex c root.height then (.bug, .null, root)
  else
    let below := tagSetLoop c index tag root.height root.rnode
    (below.1, below.2.1,
      { root with
        rnode := below.2.2
        tags := if !below.2.1.isNull then update root.tags tag true else root.tags })

/-- The two loops of `radix_tree_tag_clear`: the error, the item found, whether the
way up goes on above this slot, and the slot. -/
def tagClearLoop (index : ℕ) (tag : Fin maxTags) :
    ℕ → Ptr α c.mapSize → Errno × Ptr α c.mapSize × Bool × Ptr α c.mapSize
  | 0, slot => (.ok, slot, !slot.isNull, slot)
  | _ + 1, .null => (.ok, .null, false, .null)
  | height + 1, .node h count tags slots =>
    let i := offset c height index
    let below := tagClearLoop index tag height (slots i)
    let slots' := update slots i below.2.2.2
    if below.2.2.1 && tags tag i then
      let tags' := putTag c tags tag i false
      (below.1, below.2.1, !anyTagSet c tags' tag, .node h count tags' slots')
    else (below.1, below.2.1, false, .node h count tags slots')
  | _ + 1, .item a => (.fault, .null, false, .item a)

def radixTreeTagClear : Errno × Ptr α c.mapSize × Root α c.mapSize :=
  if index > maxindex c root.height then (.ok, .null, root)
  else
    let below := tagClearLoop c index tag root.height root.rnode
    (below.1, below.2.1,
      { root with
        rnode := below.2.2.2
        tags := if below.2.2.1 then update root.tags tag false else root.tags })

/-- `radix_tree_tagged`. -/
def radixTreeTagged : Bool := root.tags tag

end

end Tags

section Delete

/-- `radix_tree_shrink` on a tree of the given height: the height and the root
pointer it leaves. -/
def shrinkLoop : ℕ → Ptr α c.mapSize → Errno × ℕ × Ptr α c.mapSize
  | 0, rnode => (.ok, 0, rnode)
  | height + 1, .node h count tags slots =>
    if count ≠ 1 then (.ok, height + 1, .node h count tags slots)
    else
      let first := slots ⟨0, by unfold Config.mapSize; positivity⟩
      if first.isNull then (.ok, height + 1, .node h count tags slots)
      else shrinkLoop height first
  | height + 1, rnode => (.bug, height + 1, rnode)

/-- The path of `radix_tree_delete`: the item found, and the leaf's tag bits for it. -/
def findLoop (index : ℕ) : ℕ → Ptr α c.mapSize → Errno × Ptr α c.mapSize × (Fin maxTags → Bool)
  | 0, slot => (.ok, slot, fun _ => false)
  | _ + 1, .null => (.ok, .null, fun _ => false)
  | height + 1, .node _ _ tags slots =>
    let i := offset c height index
    let below := findLoop index height (slots i)
    (below.1, below.2.1, if height = 0 then fun tag => tags tag i else below.2.2)
  | _ + 1, .item _ => (.fault, .null, fun _ => false)

/-- The last loop of `radix_tree_delete` below a slot of the given height: the slot,
which is NULL when its node was freed, and whether the loop changed the node that
the slot points at. -/
def removeLoop (index : ℕ) : ℕ → Ptr α c.mapSize → Ptr α c.mapSize × Bool
  | 0, _ => (.null, true)
  | height + 1, .node h count tags slots =>
    let i := offset c height index
    let below := removeLoop index height (slots i)
    let slots' := update slots i below.1
    if below.1.isNull then
      if count - 1 = 0 then (.null, true) else (.node h (count - 1) tags slots', true)
    else (.node h count tags slots', false)
  | _ + 1, slot => (slot, false)

section
variable (root : Root α c.mapSize) (index : ℕ)

/-- The tags that the item at `index` has are cleared one after the other. -/
def clearTags (tags : Fin maxTags → Bool) : Root α c.mapSize :=
  let root := if tags 0 then (radixTreeTagClear c root index 0).2.2 else root
  if tags 1 then (radixTreeTagClear c root index 1).2.2 else root

def radixTreeDelete : Errno × Ptr α c.mapSize × Root α c.mapSize :=
  if index > maxindex c root.height then (.ok, .null, root)
  else if root.height = 0 then (.ok, root.rnode, ⟨0, fun _ => false, .null⟩)
  else
    let found := findLoop c index root.height root.rnode
    if found.1 ≠ .ok then (found.1, .null, root)
    else if found.2.1.isNull then (.ok, .null, root)
    else
      let cleared := clearTags c root index found.2.2
      let removed := removeLoop c index cleared.height cleared.rnode
      if removed.1.isNull then (.ok, found.2.1, ⟨0, fun _ => false, .null⟩)
      else if removed.2 then
        let shrunk := shrinkLoop c cleared.height removed.1
        (shrunk.1, found.2.1, ⟨shrunk.2.1, cleared.tags, shrunk.2.2⟩)
      else (.ok, found.2.1, { cleared with rnode := removed.1 })

/-- `radix_tree_node_rcu_free`: a node as it goes back to the slab. -/
def radixTreeNodeRcuFree : Ptr α c.mapSize → Ptr α c.mapSize
  | .node h _ tags slots =>
    let first : Fin c.mapSize := ⟨0, by unfold Config.mapSize; positivity⟩
    .node h 0 (putTag c (putTag c tags 0 first false) 1 first false) (update slots first .null)
  | p => p

/-- The nodes that `radix_tree_shrink` frees. -/
def shrinkFreed : ℕ → Ptr α c.mapSize → List (Ptr α c.mapSize)
  | height + 1, .node h count tags slots =>
    if count ≠ 1 then []
    else
      let first := slots ⟨0, by unfold Config.mapSize; positivity⟩
      if first.isNull then [] else .node h count tags slots :: shrinkFreed height first
  | _, _ => []

/-- The nodes that the last loop of `radix_tree_delete` frees. -/
def removeFreed (index : ℕ) : ℕ → Ptr α c.mapSize → List (Ptr α c.mapSize)
  | height + 1, .node h count tags slots =>
    let i := offset c height index
    removeFreed index height (slots i) ++
      if (removeLoop c index height (slots i)).1.isNull && decide (count - 1 = 0) then
        [.node h (count - 1) tags (update slots i .null)]
      else []
  | _, _ => []

/-- The nodes that `radix_tree_delete` frees. -/
def deleteFreed : List (Ptr α c.mapSize) :=
  if index > maxindex c root.height then []
  else if root.height = 0 then []
  else
    let found := findLoop c index root.height root.rnode
    if found.1 ≠ .ok then []
    else if found.2.1.isNull then []
    else
      let cleared := clearTags c root index found.2.2
      let removed := removeLoop c index cleared.height cleared.rnode
      removeFreed c index cleared.height cleared.rnode ++
        if removed.1.isNull then []
        else if removed.2 then shrinkFreed c cleared.height removed.1
        else []

end

end Delete

section Gang
open Loops

/-- How the search of `__lookup` and `__lookup_tag` for a slot ends: in the node, with the index
that is left to look at, or behind it. -/
inductive Sought (n : ℕ)
  | slot (i : Fin n) (index : ℕ)
  | out (index : ℕ)

/-- The inner loop of `__lookup` and `__lookup_tag` from the slot `i` on. -/
def seekLoop (hit : Fin c.mapSize → Bool) (shift i index : ℕ) : Sought c.mapSize :=
  if h : i < c.mapSize then
    if hit ⟨i, h⟩ then .slot ⟨i, h⟩ index
    else
      let index := index - index % 2 ^ shift
      let index := (index + 2 ^ shift) % 2 ^ c.indexBits
      if index = 0 then .out index
      else if i + 1 = c.mapSize then .out index
      else seekLoop hit shift (i + 1) index
  else .out index
termination_by c.mapSize - i

/-- The loop over the slots of a node of height 1, from the slot `i` on. `maxItems` counts the
items that still fit into `results`. -/
def grabLoop (pick : Fin c.mapSize → Option (Ptr α c.mapSize)) (maxItems i index : ℕ) :
    List (Ptr α c.mapSize) × ℕ :=
  if h : i < c.mapSize then
    let index := (index + 1) % 2 ^ c.indexBits
    match pick ⟨i, h⟩ with
    | some node =>
      if maxItems = 1 then ([node], index)
      else
        let rest := grabLoop pick (maxItems - 1) (i + 1) index
        (node :: rest.1, rest.2)
    | none => grabLoop pick maxItems (i + 1) index
  else ([], index)
termination_by c.mapSize - i

/-- The loop of `__lookup` from a node of the given height: the results and `next_index`. -/
def lookupItems (maxItems : ℕ) : ℕ → Ptr α c.mapSize → ℕ → Option (List (Ptr α c.mapSize) × ℕ)
  | 0, _, index => some ([], index)
  | 1, .node _ _ _ slots, index =>
    some (grabLoop c (fun d => if (slots d).isNull then none else some (slots d)) maxItems
      (offset c 0 index) index)
  | height + 2, .node _ _ _ slots, index =>
    match seekLoop c (fun d => !(slots d).isNull) ((height + 1) * c.mapShift)
      (offset c (height + 1) index) index with
    | .out index => some ([], index)
    | .slot i index =>
      if (slots i).isNull then some ([], index)
      else lookupItems maxItems (height + 1) (slots i) index
  | _, _, _ => none

/-- The loop of `__lookup_tag` from a node of the given height. -/
def lookupTagged (tag : Fin maxTags) (maxItems : ℕ) :
    ℕ → Ptr α c.mapSize → ℕ → Option (List (Ptr α c.mapSize) × ℕ)
  | 0, _, index => some ([], index)
  | height + 1, .node _ _ tags slots, index =>
    match seekLoop c (tags tag) (height * c.mapShift) (offset c height index) index with
    | .out index => some ([], index)
    | .slot i index =>
      if height = 0 then
        some (grabLoop c (fun d => if tags tag d && !(slots d).isNull then some (slots d) else none)
          maxItems (offset c 0 index) index)
      else if (slots i).isNull then some ([], index)
      else lookupTagged tag maxItems height (slots i) index
  | _, _, _ => none

section
variable (lookup : ℕ → ℕ → Option (List (Ptr α c.mapSize) × ℕ)) (maxIndex maxItems : ℕ)
    (results : List (Ptr α c.mapSize)) (curIndex : ℕ)

/-- A round of the loop of `radix_tree_gang_lookup`, with `lookup` for the call of `__lookup`. -/
def gangRound : Option (Round (List (Ptr α c.mapSize) × ℕ) (List (Ptr α c.mapSize))) :=
  if results.length < maxItems then
    if curIndex > maxIndex then some (.done results)
    else
      match lookup (maxItems - results.length) curIndex with
      | none => none
      | some (found, nextIndex) =>
        if nextIndex = 0 then some (.done (results ++ found))
        else some (.next (results ++ found, nextIndex))
  else some (.done results)

/-- The loop of `radix_tree_gang_lookup` and `radix_tree_gang_lookup_tag`. -/
def gangLoop : Option (List (Ptr α c.mapSize)) :=
  loop (fun s => gangRound c lookup maxIndex maxItems s.1 s.2) (results, curIndex)

lemma gangLoop_eq : gangLoop c lookup maxIndex maxItems results curIndex =
      (gangRound c lookup maxIndex maxItems results curIndex).bind
        (Round.elim fun s => gangLoop c lookup maxIndex maxItems s.1 s.2) :=
  loop_eq _ _

end

/-- `radix_tree_gang_lookup`: the results, or `none` for a fault or a loop without an end. -/
def radixTreeGangLookup (root : Root α c.mapSize) (firstIndex maxItems : ℕ) :
    Option (List (Ptr α c.mapSize)) :=
  match root.rnode with
  | .null => some []
  | .item a => if firstIndex > 0 then some [] else some [.item a]
  | .node height count tags slots =>
    gangLoop c (fun maxItems => lookupItems c maxItems height (.node height count tags slots))
      (maxindex c height) maxItems [] firstIndex

/-- `radix_tree_gang_lookup_tag`. -/
def radixTreeGangLookupTag (root : Root α c.mapSize) (firstIndex maxItems : ℕ)
    (tag : Fin maxTags) : Option (List (Ptr α c.mapSize)) :=
  if !root.tags tag then some []
  else
    match root.rnode with
    | .null => some []
    | .item a => if firstIndex > 0 then some [] else some [.item a]
    | .node height count tags slots =>
      gangLoop c
        (fun maxItems index =>
          lookupTagged c tag maxItems height (.node height count tags slots) index)
        (maxindex c height) maxItems [] firstIndex

end Gang

end BooxKernel.RadixTree
