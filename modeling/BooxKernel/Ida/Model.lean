import BooxKernel.Idr.Model

/-!
# The id allocator without pointers

An `ida` is an id tree whose pointers are bitmaps: id `i` is bit `i % IDA_BITMAP_BITS`
of the bitmap that is stored at `i / IDA_BITMAP_BITS`. A bitmap is stored in one slot
only, so writing through the pointer to it is writing the slot. The bit of a slot is
set when its bitmap is full.

Products are taken in `unsigned long`, which has the width of an `int` here.
-/
namespace BooxKernel.Ida
open Idr Function

/-- The constants of the id tree, and `IDA_BITMAP_BITS`. -/
structure IdaConfig extends Config where
  bitmapBits : ℕ
  bitmapBits_pos : 0 < bitmapBits
  bitmapBits_le : bitmapBits ≤ 2 ^ maxIdShift
  bitmaps_fit : 2 ^ maxIdShift < bitmapBits * 2 ^ ((toConfig.maxLevel - 1) * idrBits)

namespace IdaConfig

/-- The constants of a machine with 32-bit longs. -/
def long32 : IdaConfig := ⟨.long32, 992, by decide, by decide, by decide⟩

/-- `id % IDA_BITMAP_BITS`. -/
def offset (c : IdaConfig) (id : ℕ) : Fin c.bitmapBits :=
    ⟨id % c.bitmapBits, Nat.mod_lt _ c.bitmapBits_pos⟩

end IdaConfig

/-- `struct ida_bitmap`. -/
structure IdaBitmap (bits : ℕ) where
  nrBusy : ℤ
  bitmap : Fin bits → Bool

namespace IdaBitmap
variable {bits : ℕ}

/-- A bitmap after `memset`. -/
def zero : IdaBitmap bits := ⟨0, fun _ => false⟩

def set (x : IdaBitmap bits) (b : Fin bits) : IdaBitmap bits :=
  ⟨x.nrBusy + 1, update x.bitmap b true⟩

def clear (x : IdaBitmap bits) (b : Fin bits) : IdaBitmap bits :=
  ⟨x.nrBusy - 1, update x.bitmap b false⟩

end IdaBitmap

/-- `struct ida`. -/
structure IdaHandle (c : IdaConfig) where
  idr : IdrHandle (IdaBitmap c.bitmapBits) c.idrSize
  freeBitmap : Option (IdaBitmap c.bitmapBits)

variable (c : IdaConfig)

/-- `ida_init`. -/
def IdaHandle.init : IdaHandle c := ⟨IdrHandle.init _ _, none⟩

variable {c}

def IdaHandle.setTop (s : IdaHandle c) (top : Ptr (IdaBitmap c.bitmapBits) c.idrSize) : IdaHandle c :=
  { s with idr := { s.idr with top := top } }

/-- `free_bitmap`. -/
def keepBitmap (s : IdaHandle c) (bitmap : IdaBitmap c.bitmapBits) : IdaHandle c :=
  match s.freeBitmap with
  | none => { s with freeBitmap := some bitmap }
  | some _ => s

/-- `ida_pre_get`, with the answers of the slab and of `kmalloc`. -/
def idaPreGet (s : IdaHandle c) (alloc : List Bool) (kmalloc : Option (IdaBitmap c.bitmapBits)) :
    Bool × IdaHandle c :=
  let r := idrPreGet c.toConfig s.idr alloc
  let s := { s with idr := r.2 }
  if !r.1 then (false, s)
  else
    match s.freeBitmap, kmalloc with
    | some _, _ => (true, s)
    | none, none => (false, s)
    | none, some bitmap => (true, keepBitmap s bitmap)

section Alloc

/-- The bitmap in the slot of `idrId`, created when it is missing. -/
def openBitmap (s : IdaHandle c) (idrId : ℕ) : Except Ret (IdaHandle c × IdaBitmap c.bitmapBits) :=
  match findLoop c.toConfig idrId s.idr.layers s.idr.top with
  | some (.item x) => .ok (s, x)
  | some .null =>
    match s.freeBitmap with
    | none => .error .eagain
    | some _ =>
      .ok ({ s with freeBitmap := none }.setTop
        (storeSlot c.toConfig idrId (.item .zero) true s.idr.layers s.idr.top), .zero)
  | _ => .error .fault

/-- Set a bit of the bitmap in the slot of `idrId`. -/
def takeBit (s : IdaHandle c) (idrId : ℕ) (x : IdaBitmap c.bitmapBits) (t : Fin c.bitmapBits) :
    IdaHandle c :=
  let top := storeSlot c.toConfig idrId (.item (x.set t)) false s.idr.layers s.idr.top
  s.setTop (if (x.set t).nrBusy = c.bitmapBits then
    (idrMarkFull c.toConfig idrId s.idr.layers top).1 else top)

/-- One extra layer goes back to the slab after a successful allocation. -/
def dropExtra (s : IdaHandle c) : IdaHandle c :=
  if s.idr.idFree ≠ [] ∨ s.freeBitmap.isSome then
    { s with idr := { s.idr with idFree := s.idr.idFree.tail } }
  else s

/-- `ida_get_new_above` from the label `restart` on. -/
def getNewAboveLoop : ℕ → IdaHandle c → ℕ → Fin c.bitmapBits → Ret × IdaHandle c
  | 0, s, _, _ => (.timeout, s)
  | fuel + 1, s, idrId, offset =>
    let r := idrGetEmptySlot c.toConfig fuel s.idr idrId
    let s := { s with idr := r.2 }
    match r.1 with
    | .found t =>
      if t * c.bitmapBits % 2 ^ (c.maxIdShift + 1) ≥ 2 ^ c.maxIdShift then (.enospc, s)
      else
        let offset := if t ≠ idrId then c.offset 0 else offset
        match openBitmap s t with
        | .error e => (e, s)
        | .ok (s, x) =>
          match findNextZero x.bitmap offset with
          | none => getNewAboveLoop fuel s (t + 1) (c.offset 0)
          | some b =>
            let id := (t * c.bitmapBits + b) % 2 ^ (c.maxIdShift + 1)
            if id ≥ 2 ^ c.maxIdShift then (.enospc, s) else (.ok id, dropExtra (takeBit s t x b))
    | .noMem => (.eagain, s)
    | .noSpace => (.enospc, s)
    | .timeout => (.timeout, s)
    | _ => (.fault, s)

def idaGetNewAbove (fuel : ℕ) (s : IdaHandle c) (startingId : ℕ) : Ret × IdaHandle c :=
  getNewAboveLoop fuel s (startingId / c.bitmapBits) (c.offset startingId)

end Alloc

section Remove
variable {α : Type*} (d : Config)

/-- Clear the bits on the path of `id`, from the layer with number `l` on. -/
def clearPath (id : ℕ) : ℕ → Ptr α d.idrSize → Ptr α d.idrSize
  | 0, .layer bitmap count ary => .layer (update bitmap (slot d 0 id) false) count ary
  | l + 1, .layer bitmap count ary =>
    let n := slot d (l + 1) id
    .layer (update bitmap n false) count (update ary n (clearPath id l (ary n)))
  | _, p => p

/-- Set the bit of `id` in its lowest layer. -/
def setLeafBit (id : ℕ) : ℕ → Ptr α d.idrSize → Ptr α d.idrSize
  | 0, .layer bitmap count ary => .layer (update bitmap (slot d 0 id) true) count ary
  | l + 1, .layer bitmap count ary =>
    let n := slot d (l + 1) id
    .layer bitmap count (update ary n (setLeafBit id l (ary n)))
  | _, p => p

/-- The lowest layer on the path of `id`, or what there is in its place. -/
def leafOf (id : ℕ) : ℕ → Ptr α d.idrSize → Ptr α d.idrSize
  | l + 1, .layer _ _ ary => leafOf id l (ary (slot d (l + 1) id))
  | _, p => p

/-- `ida_remove`; `none` is a fault. An id that is not allocated gives a warning, after
the bits on its path have been cleared. -/
def idaRemove (s : IdaHandle c) (id : ℕ) : Option (IdaHandle c) :=
  let idrId := id / c.bitmapBits
  let offset := c.offset id
  let l := s.idr.layers - 1
  let cleared := s.setTop (clearPath c.toConfig idrId l s.idr.top)
  match leafOf c.toConfig idrId l s.idr.top with
  | .null => some cleared
  | .item _ => none
  | .layer _ _ ary =>
    match ary (slot c.toConfig 0 idrId) with
    | .item x =>
      if x.bitmap offset then
        let s := cleared.setTop
          (storeSlot c.toConfig idrId (.item (x.clear offset)) false s.idr.layers cleared.idr.top)
        if (x.clear offset).nrBusy = 0 then
          let s := s.setTop (setLeafBit c.toConfig idrId l s.idr.top)
          some (keepBitmap { s with idr := idrRemove c.toConfig s.idr idrId } (x.clear offset))
        else some s
      else some cleared
    | _ => none

end Remove

/-- The id is allocated: its bit is set. -/
def allocated (s : IdaHandle c) (id : ℕ) : Bool :=
  match idrFind c.toConfig s.idr (id / c.bitmapBits) with
  | some (.item x) => x.bitmap (c.offset id)
  | _ => false

end BooxKernel.Ida
