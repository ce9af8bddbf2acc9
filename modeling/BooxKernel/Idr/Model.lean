import BooxKernel.Lib.Digits

/-!
# The id allocator

A `struct idr_layer *` is what it points at: nothing, a layer, or below the lowest
layer the pointer that a caller stored. Code that uses a stored pointer as a layer
ends in a fault. The array `pa` of the layers on a path is the way back up of a
recursion on the layer number.

An `int` id is its bit pattern, a number below `2 ^ (maxIdShift + 1)`; patterns from
`2 ^ maxIdShift` on are the negative ids. Loops whose bound is not evident take
fuel, and `timeout` says that it ran out.
-/
namespace BooxKernel.Idr
open Digits Function

/-- The constants `IDR_BITS` and `MAX_ID_SHIFT`. -/
structure Config where
  idrBits : ℕ
  maxIdShift : ℕ
  idrBits_pos : 0 < idrBits
  idrBits_lt : idrBits < maxIdShift

namespace Config

def idrSize (c : Config) : ℕ := 2 ^ c.idrBits

def maxLevel (c : Config) : ℕ := (c.maxIdShift + c.idrBits - 1) / c.idrBits

def idrFreeMax (c : Config) : ℕ := c.maxLevel + c.maxLevel

/-- Slot 0 of a layer. -/
def first (c : Config) : Fin c.idrSize := ⟨0, by unfold idrSize; positivity⟩

/-- The constants of a machine with 32-bit longs. -/
def long32 : Config := ⟨5, 31, by decide, by decide⟩

end Config

inductive Ptr (α : Type*) (n : ℕ)
  | null
  | item (a : α)
  | layer (bitmap : Fin n → Bool) (count : ℕ) (ary : Fin n → Ptr α n)

namespace Ptr
variable {α : Type*} {n : ℕ}

def isNull : Ptr α n → Bool
  | .null => true
  | _ => false

/-- The pointer that a caller may have stored. -/
def ofOption : Option α → Ptr α n
  | none => .null
  | some a => .item a

def count : Ptr α n → ℕ
  | .layer _ count _ => count
  | _ => 0

/-- The pointer of a caller that this is. -/
def value : Ptr α n → Option α
  | .item a => some a
  | _ => none

/-- The test `bitmap == IDR_FULL`. -/
def isFull : Ptr α n → Bool
  | .layer bitmap _ _ => decide (∀ d, bitmap d = true)
  | _ => false

/-- A layer as it comes from the slab. -/
def zero : Ptr α n := .layer (fun _ => false) 0 fun _ => .null

end Ptr

/-- `struct idr`. The free layers are linked through `ary[0]`; the list holds each as
`alloc_layer` returns it, with that link taken off. Its length is `id_free_cnt`. -/
structure IdrHandle (α : Type*) (n : ℕ) where
  top : Ptr α n
  layers : ℕ
  idFree : List (Ptr α n)

/-- `idr_init`. -/
def IdrHandle.init (α : Type*) (n : ℕ) : IdrHandle α n := ⟨.null, 0, []⟩

variable {α : Type*} (c : Config)

/-- `(id >> (IDR_BITS * l)) & IDR_MASK`. -/
def slot (l id : ℕ) : Fin c.idrSize := digit c.idrBits l id

section FreeLayers

def allocLayer {n : ℕ} : List (Ptr α n) → Option (Ptr α n × List (Ptr α n))
  | [] => none
  | p :: free => some (p, free)

def freeLayer (free : List (Ptr α c.idrSize)) : Ptr α c.idrSize → List (Ptr α c.idrSize)
  | .layer bitmap count ary => .layer bitmap count (update ary c.first .null) :: free
  | p => p :: free

/-- `idr_pre_get`, with the answers of the slab. -/
def idrPreGet (s : IdrHandle α c.idrSize) : List Bool → Bool × IdrHandle α c.idrSize
  | true :: alloc =>
    if s.idFree.length < c.idrFreeMax then
      idrPreGet { s with idFree := freeLayer c s.idFree .zero } alloc
    else (true, s)
  | _ => (decide (¬ s.idFree.length < c.idrFreeMax), s)

end FreeLayers

section Alloc

/-- What a search for an empty slot comes to: an id, -2 with the id to go on with
(and the id at which the layer was exhausted), a restart, -1, -3, or no end. -/
inductive Outcome
  | found (id : ℕ)
  | up (oid id : ℕ)
  | restart (id : ℕ)
  | noMem
  | noSpace
  | fault
  | timeout
  deriving Repr, DecidableEq

/-- `find_next_bit` on the complement of a bitmap. -/
def findNextZero {n : ℕ} (bitmap : Fin n → Bool) (start : Fin n) : Option (Fin n) :=
  Fin.find? fun m => decide (start ≤ m) && !bitmap m

/-- `(id | ((1 << (IDR_BITS * l)) - 1)) + 1`. -/
def nextId (l id : ℕ) : ℕ := ((id ||| (2 ^ (l * c.idrBits) - 1)) + 1) % 2 ^ (c.maxIdShift + 1)

/-- `((id >> sh) ^ n ^ m) << sh`. -/
def replaceDigit (l id n m : ℕ) : ℕ :=
  (high c.idrBits l id ^^^ n ^^^ m) <<< (l * c.idrBits) % 2 ^ (c.maxIdShift + 1)

/-- The slot's layer, created when it is missing, with the new `count` of the layer
above. -/
def openSlot {n : ℕ} (free : List (Ptr α n)) (count : ℕ) :
    Ptr α n → Option (Ptr α n × ℕ × List (Ptr α n))
  | .null => (allocLayer free).map fun new => (new.1, count + 1, new.2)
  | p => some (p, count, free)

/-- The loop of `sub_alloc` from layer `p` with number `l` on. -/
def subAllocLoop : ℕ → ℕ → Ptr α c.idrSize → ℕ → List (Ptr α c.idrSize) →
    Outcome × Ptr α c.idrSize × List (Ptr α c.idrSize)
  | 0, _, p, _, free => (.timeout, p, free)
  | fuel + 1, l, .layer bitmap count ary, id, free =>
    let n := slot c l id
    match findNextZero bitmap n with
    | none => (.up id (nextId c (l + 1) id), .layer bitmap count ary, free)
    | some m =>
      let id := if m ≠ n then replaceDigit c l id n m else id
      if id ≥ 2 ^ c.maxIdShift then (.noSpace, .layer bitmap count ary, free)
      else
        match l with
        | 0 => (.found id, .layer bitmap count ary, free)
        | l + 1 =>
          match openSlot free count (ary m) with
          | none => (.noMem, .layer bitmap count ary, free)
          | some (child, count, free) =>
            let below := subAllocLoop fuel l child id free
            let p := .layer bitmap count (update ary m below.2.1)
            match below.1 with
            | .up oid id =>
              if high c.idrBits (l + 2) oid = high c.idrBits (l + 2) id then
                subAllocLoop fuel (l + 1) p id below.2.2
              else (.restart id, p, below.2.2)
            | outcome => (outcome, p, below.2.2)
  | _ + 1, _, p, _, free => (.fault, p, free)

/-- `sub_alloc` with `layers` layers below and including `top`. -/
def subAlloc : ℕ → ℕ → Ptr α c.idrSize → ℕ → List (Ptr α c.idrSize) →
    Outcome × Ptr α c.idrSize × List (Ptr α c.idrSize)
  | 0, _, top, _, free => (.timeout, top, free)
  | fuel + 1, layers, top, id, free =>
    let r := subAllocLoop c fuel (layers - 1) top id free
    match r.1 with
    | .restart id => subAlloc fuel layers r.2.1 id r.2.2
    | _ => r

/-- The layer `new` on top of `p`. -/
def raise (p : Ptr α c.idrSize) : Ptr α c.idrSize → Ptr α c.idrSize
  | .layer bitmap _ ary =>
    .layer (if p.isFull then update bitmap c.first true else bitmap) 1 (update ary c.first p)
  | new => new

/-- Free the given number of layers from the top of what was built. -/
def tearDown : ℕ → Ptr α c.idrSize → List (Ptr α c.idrSize) → List (Ptr α c.idrSize)
  | built + 1, .layer _ _ ary, free =>
    tearDown built (ary c.first)
      (freeLayer c free (.layer (fun _ => false) 0 (update ary c.first .null)))
  | _, _, free => free

/-- The loop of `idr_get_empty_slot` that adds layers, while `layers` is below
`MAX_LEVEL - 1` by the first argument. The layers above `idp->top` are counted in
`built`. It returns whether it succeeded, and the new top, its layers and the free
layers. -/
def growLoop (id : ℕ) : ℕ → Ptr α c.idrSize → ℕ → ℕ → List (Ptr α c.idrSize) →
    Bool × Ptr α c.idrSize × ℕ × List (Ptr α c.idrSize)
  | 0, p, layers, _, free => (true, p, layers, free)
  | left + 1, p, layers, built, free =>
    if 2 ^ (layers * c.idrBits) ≤ id ∧ id < 2 ^ c.maxIdShift then
      if p.count = 0 then growLoop id left p (layers + 1) built free
      else
        match allocLayer free with
        | none => (false, p, layers + 1, tearDown c built p free)
        | some new => growLoop id left (raise c p new.1) (layers + 1) (built + 1) new.2
    else (true, p, layers, free)

/-- The layer that `idr_get_empty_slot` starts with, its number of layers, the number
of layers above `idp->top`, and the free layers. -/
def startLayer (s : IdrHandle α c.idrSize) :
    Option (Ptr α c.idrSize × ℕ × ℕ × List (Ptr α c.idrSize)) :=
  match s.top with
  | .null => (allocLayer s.idFree).map fun new => (new.1, 1, 1, new.2)
  | p => some (p, s.layers, 0, s.idFree)

def idrGetEmptySlot : ℕ → IdrHandle α c.idrSize → ℕ → Outcome × IdrHandle α c.idrSize
  | 0, s, _ => (.timeout, s)
  | fuel + 1, s, id =>
    match startLayer c s with
    | none => (.noMem, s)
    | some (p, layers, built, free) =>
      let grown := growLoop c id (c.maxLevel - 1 - layers) p layers built free
      if !grown.1 then (.noMem, { s with idFree := grown.2.2.2 })
      else
        let r := subAlloc c fuel grown.2.2.1 grown.2.1 id grown.2.2.2
        let s := ⟨r.2.1, grown.2.2.1, r.2.2⟩
        match r.1 with
        | .up _ id => idrGetEmptySlot fuel s id
        | outcome => (outcome, s)

/-- Write the slot of `id` in the lowest layer below a slot of the given height, and
count it there when it is a new one. -/
def storeSlot (id : ℕ) (q : Ptr α c.idrSize) (new : Bool) : ℕ → Ptr α c.idrSize → Ptr α c.idrSize
  | 0, _ => q
  | l + 1, .layer bitmap count ary =>
    let n := slot c l id
    .layer bitmap (if l = 0 ∧ new then count + 1 else count)
      (update ary n (storeSlot id q new l (ary n)))
  | _ + 1, p => p

/-- `idr_mark_full` below a slot of the given height: the slot, and whether the bit for
it is to be set above. -/
def idrMarkFull (id : ℕ) : ℕ → Ptr α c.idrSize → Ptr α c.idrSize × Bool
  | 0, p => (p, true)
  | l + 1, .layer bitmap count ary =>
    let n := slot c l id
    let below := idrMarkFull id l (ary n)
    let bitmap := if below.2 then update bitmap n true else bitmap
    (.layer bitmap count (update ary n below.1), below.2 && decide (∀ d, bitmap d = true))
  | _ + 1, p => (p, false)

def idrGetNewAboveInt (fuel : ℕ) (s : IdrHandle α c.idrSize) (ptr : α) (startingId : ℕ) :
    Outcome × IdrHandle α c.idrSize :=
  let r := idrGetEmptySlot c fuel s startingId
  match r.1 with
  | .found id =>
    let top := storeSlot c id (.item ptr) true r.2.layers r.2.top
    (.found id, { r.2 with top := (idrMarkFull c id r.2.layers top).1 })
  | outcome => (outcome, r.2)

/-- What `idr_get_new` returns, with the id. -/
inductive Ret
  | ok (id : ℕ)
  | eagain
  | enospc
  | fault
  | timeout
  deriving Repr, DecidableEq

def idrGetNewAbove (fuel : ℕ) (s : IdrHandle α c.idrSize) (ptr : α) (startingId : ℕ) :
    Ret × IdrHandle α c.idrSize :=
  let r := idrGetNewAboveInt c fuel s ptr startingId
  (match r.1 with
    | .found id => .ok id
    | .noMem => .eagain
    | .noSpace => .enospc
    | .timeout => .timeout
    | _ => .fault, r.2)

/-- `idr_get_new`, the body of which is that of `idr_get_new_above`. -/
def idrGetNew (fuel : ℕ) (s : IdrHandle α c.idrSize) (ptr : α) : Ret × IdrHandle α c.idrSize :=
  idrGetNewAbove c fuel s ptr 0

end Alloc

section Remove

/-- `--count` of the layer on the path whose slot `n` was emptied: what its own slot
becomes, and the layer if it was freed. -/
def emptySlot (bitmap : Fin c.idrSize → Bool) (count : ℕ) (ary : Fin c.idrSize → Ptr α c.idrSize)
    (n : Fin c.idrSize) : Ptr α c.idrSize × List (Ptr α c.idrSize) :=
  if count - 1 = 0 then (.null, [.layer bitmap (count - 1) (update ary n .null)])
  else (.layer bitmap (count - 1) (update ary n .null), [])

/-- `sub_remove` below a slot that points at a layer with number `l`: whether the id
was allocated, the slot, and the layers freed. -/
def subRemove (id : ℕ) : ℕ → Ptr α c.idrSize → Bool × Ptr α c.idrSize × List (Ptr α c.idrSize)
  | 0, .layer bitmap count ary =>
    let n := slot c 0 id
    if bitmap n then (true, emptySlot c (update bitmap n false) count ary n)
    else (false, .layer bitmap count ary, [])
  | l + 1, .layer bitmap count ary =>
    let n := slot c (l + 1) id
    let bitmap := update bitmap n false
    let below := subRemove id l (ary n)
    if below.1 && below.2.1.isNull then
      let emptied := emptySlot c bitmap count ary n
      (true, emptied.1, below.2.2 ++ emptied.2)
    else (below.1, .layer bitmap count (update ary n below.2.1), below.2.2)
  | _, p => (false, p, [])

/-- Dropping the top layer when its first slot is its only one. -/
def dropLayer (s : IdrHandle α c.idrSize) : IdrHandle α c.idrSize :=
  match s.top with
  | .layer _ count ary =>
    if count = 1 ∧ s.layers > 1 ∧ (ary c.first).isNull = false then
      { top := ary c.first
        layers := s.layers - 1
        idFree := freeLayer c s.idFree (.layer (fun _ => false) 0 ary) }
    else s
  | _ => s

/-- The layers beyond `IDR_FREE_MAX` go back to the slab. -/
def trimFree : List (Ptr α c.idrSize) → List (Ptr α c.idrSize)
  | [] => []
  | p :: free => if (p :: free).length ≥ c.idrFreeMax then trimFree free else p :: free

def idrRemove (s : IdrHandle α c.idrSize) (id : ℕ) : IdrHandle α c.idrSize :=
  let id := id % 2 ^ c.maxIdShift
  let r := subRemove c id (s.layers - 1) s.top
  let s := dropLayer c
    { top := r.2.1
      layers := if r.1 && r.2.1.isNull then 0 else s.layers
      idFree := r.2.2.foldl (freeLayer c) s.idFree }
  { s with idFree := trimFree c s.idFree }

end Remove

section Find

/-- The loop of `idr_find`; `none` is a fault. -/
def findLoop (id : ℕ) : ℕ → Ptr α c.idrSize → Option (Ptr α c.idrSize)
  | 0, p => some p
  | _ + 1, .null => some .null
  | l + 1, .layer _ _ ary => findLoop id l (ary (slot c l id))
  | _ + 1, .item _ => none

def idrFind (s : IdrHandle α c.idrSize) (id : ℕ) : Option (Ptr α c.idrSize) :=
  let id := id % 2 ^ c.maxIdShift
  if id ≥ 2 ^ (s.layers * c.idrBits) then some .null else findLoop c id s.layers s.top

/-- What `idr_replace` returns: the old pointer or an error. -/
inductive Replaced (α : Type*) (n : ℕ)
  | old (p : Ptr α n)
  | einval
  | enoent
  | fault

/-- The loop of `idr_replace` from the layer with number `l` on, and the store. -/
def replaceLoop (id : ℕ) (ptr : α) : ℕ → Ptr α c.idrSize → Replaced α c.idrSize × Ptr α c.idrSize
  | _, .null => (.enoent, .null)
  | 0, .layer bitmap count ary =>
    let n := slot c 0 id
    if bitmap n then (.old (ary n), .layer bitmap count (update ary n (.item ptr)))
    else (.enoent, .layer bitmap count ary)
  | l + 1, .layer bitmap count ary =>
    let n := slot c (l + 1) id
    let below := replaceLoop id ptr l (ary n)
    (below.1, .layer bitmap count (update ary n below.2))
  | _, .item a => (.fault, .item a)

def idrReplace (s : IdrHandle α c.idrSize) (ptr : α) (id : ℕ) :
    Replaced α c.idrSize × IdrHandle α c.idrSize :=
  let id := id % 2 ^ c.maxIdShift
  if id ≥ 2 ^ (s.layers * c.idrBits) then (.einval, s)
  else
    let r := replaceLoop c id ptr (s.layers - 1) s.top
    (r.1, { s with top := r.2 })

end Find

section ForEach
variable {σ : Type*}

/-- The way down of `idr_for_each`: `n` in units of `IDR_BITS`, `p` and the stack. -/
def pushDown (id : ℕ) : ℕ → Ptr α c.idrSize → List (Ptr α c.idrSize) →
    Option (ℕ × Ptr α c.idrSize × List (Ptr α c.idrSize))
  | 0, p, paa => some (0, p, paa)
  | n + 1, .null, paa => some (n + 1, .null, paa)
  | n + 1, .layer bitmap count ary, paa =>
    pushDown id n (ary (slot c n id)) (.layer bitmap count ary :: paa)
  | _ + 1, .item _, _ => none

/-- The way up of `idr_for_each`, with enough rounds. When the walk is over it pops
once more than it pushed and reads the word before `pa`, which is `before`. -/
def popUp (id : ℕ) (before : Ptr α c.idrSize) :
    ℕ → ℕ → Ptr α c.idrSize → List (Ptr α c.idrSize) →
    ℕ × Ptr α c.idrSize × List (Ptr α c.idrSize)
  | 0, n, p, paa => (n, p, paa)
  | rounds + 1, n, p, paa =>
    if n * c.idrBits < id.size then popUp id before rounds (n + 1) (paa.headD before) paa.tail
    else (n, p, paa)

/-- The loop of `idr_for_each`. The function `fn` reads and writes a state, and a
nonzero result of it ends the loop. -/
def forEachLoop (fn : σ → ℕ → α → ℤ × σ) (before : Ptr α c.idrSize) (max : ℕ) :
    ℕ → ℕ → ℕ → Ptr α c.idrSize → List (Ptr α c.idrSize) → σ → Option (ℤ × σ)
  | 0, _, _, _, _, data => some (0, data)
  | rounds + 1, id, n, p, paa, data =>
    if id < max then
      match pushDown c id n p paa with
      | none => none
      | some (n, p, paa) =>
        let next := fun data =>
          let id := id + 2 ^ (n * c.idrBits)
          let popped := popUp c id before id.size n p paa
          forEachLoop fn before max rounds id popped.1 popped.2.1 popped.2.2 data
        match p with
        | .null => next data
        | .item a =>
          let r := fn data id a
          if r.1 ≠ 0 then some r else next r.2
        | .layer _ _ _ => none
    else some (0, data)

/-- `idr_for_each`; `none` is a fault. With fewer than `MAX_LEVEL` layers `1 << n` and
the ids of the loop fit an `int`. -/
def idrForEach (s : IdrHandle α c.idrSize) (fn : σ → ℕ → α → ℤ × σ) (before : Ptr α c.idrSize)
    (data : σ) : Option (ℤ × σ) :=
  let max := 2 ^ (s.layers * c.idrBits)
  forEachLoop c fn before max max 0 s.layers s.top [] data

end ForEach

/-! ## A call that returns with some fuel returns the same with more -/

variable {c} {fuel l id layers fuel' start : ℕ} {s : IdrHandle α c.idrSize}
  {free : List (Ptr α c.idrSize)}

lemma subAllocLoop_succ {p : Ptr α c.idrSize} (h : (subAllocLoop c fuel l p id free).1 ≠ .timeout) :
    subAllocLoop c (fuel + 1) l p id free = subAllocLoop c fuel l p id free := by
  induction fuel generalizing l id p free with
  | zero => exact absurd rfl h
  | succ fuel ih =>
    cases p with
    | null => rfl
    | item x => rfl
    | layer bitmap count ary =>
      rw [subAllocLoop] at h
      rw [subAllocLoop, subAllocLoop]
      cases hm : findNextZero bitmap (slot c l id) with
      | none => rfl
      | some m =>
        rw [hm] at h
        dsimp only at h ⊢
        generalize (if m ≠ slot c l id then replaceDigit c l id (slot c l id) m else id) = next at h ⊢
        by_cases hbig : next ≥ 2 ^ c.maxIdShift
        · rw [if_pos hbig, if_pos hbig]
        · rw [if_neg hbig] at h
          cases l with
          | zero => rfl
          | succ l =>
            cases hopen : openSlot free count (ary m) with
            | none => rfl
            | some opened =>
              obtain ⟨child, count', free'⟩ := opened
              rw [hopen] at h
              dsimp only at h ⊢
              have hbelow : (subAllocLoop c fuel l child next free').1 ≠ .timeout := by
                intro htime
                rw [htime] at h
                exact h rfl
              rw [ih hbelow]
              cases hout : (subAllocLoop c fuel l child next free').1 with
              | up oid id' =>
                rw [hout] at h
                dsimp only at h ⊢
                by_cases hsame : high c.idrBits (l + 2) oid = high c.idrBits (l + 2) id'
                · rw [if_pos hsame] at h
                  rw [if_pos hsame, if_pos hsame, ih h]
                · rw [if_neg hsame, if_neg hsame]
              | _ => rfl

lemma subAlloc_succ {top : Ptr α c.idrSize}
    (h : (subAlloc c fuel layers top id free).1 ≠ .timeout) :
    subAlloc c (fuel + 1) layers top id free = subAlloc c fuel layers top id free := by
  induction fuel generalizing layers id top free with
  | zero => exact absurd rfl h
  | succ fuel ih =>
    rw [subAlloc] at h
    rw [subAlloc, subAlloc]
    have hloop : (subAllocLoop c fuel (layers - 1) top id free).1 ≠ .timeout := by
      intro htime
      rw [htime] at h
      exact h htime
    rw [subAllocLoop_succ hloop]
    cases hout : (subAllocLoop c fuel (layers - 1) top id free).1 with
    | restart id' =>
      rw [hout] at h
      exact ih h
    | _ => rfl

lemma idrGetEmptySlot_succ (h : (idrGetEmptySlot c fuel s id).1 ≠ .timeout) :
    idrGetEmptySlot c (fuel + 1) s id = idrGetEmptySlot c fuel s id := by
  induction fuel generalizing s id with
  | zero => exact absurd rfl h
  | succ fuel ih =>
    rw [idrGetEmptySlot] at h
    rw [idrGetEmptySlot, idrGetEmptySlot]
    cases hstart : startLayer c s with
    | none => rfl
    | some start =>
      obtain ⟨p, layers, built, free⟩ := start
      rw [hstart] at h
      dsimp only at h ⊢
      generalize growLoop c id (c.maxLevel - 1 - layers) p layers built free = grown at h ⊢
      by_cases hok : (!grown.1) = true
      · rw [if_pos hok, if_pos hok]
      · rw [if_neg hok] at h
        rw [if_neg hok, if_neg hok]
        have hsearch : (subAlloc c fuel grown.2.2.1 grown.2.1 id grown.2.2.2).1 ≠ .timeout := by
          intro htime
          rw [htime] at h
          exact h rfl
        rw [subAlloc_succ hsearch]
        cases hout : (subAlloc c fuel grown.2.2.1 grown.2.1 id grown.2.2.2).1 with
        | up oid id' =>
          rw [hout] at h
          exact ih h
        | _ => rfl

lemma idrGetEmptySlot_mono (hle : fuel ≤ fuel') (h : (idrGetEmptySlot c fuel s id).1 ≠ .timeout) :
    idrGetEmptySlot c fuel' s id = idrGetEmptySlot c fuel s id := by
  induction hle with
  | refl => rfl
  | @step fuel' hle ih => rw [← ih, idrGetEmptySlot_succ (by rw [ih]; exact h)]

lemma idrGetNewAbove_mono {ptr : α} (hle : fuel ≤ fuel')
    (h : (idrGetNewAbove c fuel s ptr start).1 ≠ .timeout) :
    idrGetNewAbove c fuel' s ptr start = idrGetNewAbove c fuel s ptr start := by
  have hslot : (idrGetEmptySlot c fuel s start).1 ≠ .timeout := by
    intro htime
    apply h
    simp only [idrGetNewAbove, idrGetNewAboveInt, htime]
  simp only [idrGetNewAbove, idrGetNewAboveInt, idrGetEmptySlot_mono hle hslot]

end BooxKernel.Idr
