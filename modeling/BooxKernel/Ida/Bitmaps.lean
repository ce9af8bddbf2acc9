import BooxKernel.Ida.Model
import BooxKernel.Idr.Remove

/-!
# What an id tree of bitmaps represents

The abstract state is the set of allocated ids. Between it and the tree stands the map
from slot numbers to bitmaps: a bitmap knows the number of its set bits, and a slot is
marked when its bitmap is full.
-/
namespace BooxKernel.Ida
open Idr Digits Slots Function Finset

section Paths
variable {α : Type*} {d : Config} {a : ℕ → Option α} {f : ℕ → Prop} {l base id : ℕ}
  {p : Ptr α d.idrSize}

lemma leafOf_spec {x : α} (h : Tree a f (l + 1) base p) (hid : high d.idrBits (l + 1) id = base)
    (hx : a id = some x) :
    Open d id (l + 1) p ∧ ∃ bitmap count ary, leafOf d id l p = .layer bitmap count ary ∧
      ary (slot d 0 id) = .item x := by
  induction l generalizing base p with
  | zero =>
    cases p with
    | null => exact absurd (h id hid) (by simp [hx])
    | item y => exact absurd h (fun h => h)
    | layer bitmap count ary =>
      have hslot : ary (slot d 0 id) = .ofOption (a (d.idrSize * base + (slot d 0 id).val)) := h.2.1 _
      rw [← high_down hid, high_zero, hx] at hslot
      exact ⟨trivial, bitmap, count, ary, rfl, hslot⟩
  | succ l ih =>
    cases p with
    | null => exact absurd (h id hid) (by simp [hx])
    | item y => exact absurd h (fun h => h)
    | layer bitmap count ary => exact ih (h.2.1 _) (high_down hid)

lemma clearPath_spec (h : Tree a f (l + 1) base p) (hid : high d.idrBits (l + 1) id = base)
    (hopen : Open d id (l + 1) p) :
    Tree a (fun i => i ≠ id ∧ f i) (l + 1) base (clearPath d id l p) ∧
      Open d id (l + 1) (clearPath d id l p) := by
  have hclear : ∀ {l base : ℕ}, high d.idrBits l id = base →
      ¬ Marked d (fun i => i ≠ id ∧ f i) l base := fun hblock hall => (hall id hblock).1 rfl
  induction l generalizing base p with
  | zero =>
    obtain ⟨bitmap, count, ary, rfl⟩ := hopen.exists_layer
    have hdown := high_down hid
    refine ⟨?_, trivial⟩
    have hnew : Tree a (fun i => i ≠ id ∧ f i) 1 base
        (.layer (update bitmap (slot d 0 id) false) count
          (update ary (slot d 0 id) (ary (slot d 0 id)))) := by
      refine (h.elsewhere _).update (fun _ _ => rfl)
        (fun j hj => and_iff_right fun heq => hj (by rw [heq, hdown])) (h.2.1 (slot d 0 id)) ?_
        (fun e he => update_of_ne he _ _) ?_
      · rw [update_eq_self]
        exact h.1
      · exact iff_of_false (by simp) (hclear hdown)
    rw [update_eq_self] at hnew
    exact hnew
  | succ l ih =>
    obtain ⟨bitmap, count, ary, rfl⟩ := hopen.exists_layer
    have hdown := high_down hid
    obtain ⟨hbelow, hopen'⟩ := ih (h.2.1 _) hdown hopen
    have hthere : (ary (slot d (l + 1) id)).isNull = false := Open.notNull hopen
    constructor
    · refine (h.elsewhere _).update (fun _ _ => rfl)
        (fun j hj => and_iff_right fun heq => hj (by rw [heq, hdown])) hbelow ?_
        (fun e he => update_of_ne he _ _) ?_
      · rw [filled_update_same (hthere.trans (Open.notNull hopen').symm)]
        exact h.1
      · exact iff_of_false (by simp) (hclear hdown)
    · simp only [clearPath, Open, update_self]
      exact hopen'

lemma setLeafBit_spec (h : Tree a f (l + 1) base p) (hopen : Open d id (l + 1) p) :
    Along a f id (l + 1) base (setLeafBit d id l p) ∧ BitSet d id l (setLeafBit d id l p) ∧
      (setLeafBit d id l p).isNull = false := by
  induction l generalizing base p with
  | zero =>
    obtain ⟨bitmap, count, ary, rfl⟩ := hopen.exists_layer
    refine ⟨⟨h.1, fun e _ => h.2.1 e, fun e he => ?_, h.2.1 _⟩, ?_, rfl⟩
    · rw [update_of_ne he]
      exact h.2.2 e
    · simp [setLeafBit, BitSet]
  | succ l ih =>
    obtain ⟨bitmap, count, ary, rfl⟩ := hopen.exists_layer
    obtain ⟨halong, hbit, hnull⟩ := ih (h.2.1 (slot d (l + 1) id)) hopen
    have hthere : (ary (slot d (l + 1) id)).isNull = false := Open.notNull hopen
    refine ⟨⟨?_, fun e he => ?_, fun e _ => h.2.2 e, ?_⟩, ?_, rfl⟩
    · rw [filled_update_same (hthere.trans hnull.symm)]
      exact h.1
    · rw [update_of_ne he]
      exact h.2.1 e
    · rw [update_self]
      exact halong
    · simp only [setLeafBit, BitSet, update_self]
      exact hbit

end Paths

section Counts
variable {bits : ℕ} {x : IdaBitmap bits} {b i : Fin bits}

/-- The bitmap knows the number of its set bits. -/
def IdaBitmap.Counted (x : IdaBitmap bits) : Prop :=
  x.nrBusy = ((Finset.univ.filter fun b => x.bitmap b = true).card : ℤ)

lemma IdaBitmap.Counted.full_iff (h : x.Counted) : x.nrBusy = bits ↔ ∀ b, x.bitmap b = true := by
  rw [h, Nat.cast_inj]
  have huniv : (univ.filter fun b => x.bitmap b = true).card = bits ↔
      (univ.filter fun b => x.bitmap b = true) = univ := by
    rw [← card_eq_iff_eq_univ, Fintype.card_fin]
  rw [huniv]
  simp

lemma IdaBitmap.Counted.zero_iff (h : x.Counted) : x.nrBusy = 0 ↔ ∀ b, x.bitmap b = false := by
  rw [h, Nat.cast_eq_zero]
  simp

lemma IdaBitmap.Counted.set (h : x.Counted) (hclear : x.bitmap b = false) : (x.set b).Counted := by
  have hset : (univ.filter fun i => update x.bitmap b true i = true) =
      insert b (univ.filter fun i => x.bitmap i = true) := by
    ext i
    by_cases hi : i = b
    · simp [hi]
    · simp [hi]
  unfold Counted IdaBitmap.set
  rw [hset, card_insert_of_notMem (by simp [hclear]), h]
  rfl

lemma IdaBitmap.Counted.clear (h : x.Counted) (hset : x.bitmap b = true) : (x.clear b).Counted := by
  have herase : (univ.filter fun i => update x.bitmap b false i = true) =
      (univ.filter fun i => x.bitmap i = true).erase b := by
    ext i
    by_cases hi : i = b
    · simp [hi]
    · simp [hi]
  have hcard := card_erase_add_one (a := b) (s := univ.filter fun i => x.bitmap i = true)
    (by simp [hset])
  unfold Counted IdaBitmap.clear
  rw [herase, h, ← hcard]
  push_cast
  ring

lemma IdaBitmap.set_bitmap (x : IdaBitmap bits) (b i : Fin bits) :
    (x.set b).bitmap i = true ↔ i = b ∨ x.bitmap i = true := by
  by_cases hi : i = b
  · simp [set, hi]
  · simp [set, hi]

lemma IdaBitmap.clear_bitmap (x : IdaBitmap bits) (b i : Fin bits) :
    (x.clear b).bitmap i = true ↔ i ≠ b ∧ x.bitmap i = true := by
  by_cases hi : i = b
  · simp [clear, hi]
  · simp [clear, hi]

end Counts

section Sets
variable {c : IdaConfig} {a a' : ℕ → Option (IdaBitmap c.bitmapBits)} {s : IdaHandle c}
  {b : Fin c.bitmapBits} {t i id : ℕ} {x : IdaBitmap c.bitmapBits}

/-- The bitmap of the slot is full. -/
def FullAt (a : ℕ → Option (IdaBitmap c.bitmapBits)) (t : ℕ) : Prop :=
  ∃ x, a t = some x ∧ x.nrBusy = c.bitmapBits

/-- The id is in the set. -/
def Mem (a : ℕ → Option (IdaBitmap c.bitmapBits)) (id : ℕ) : Prop :=
  ∃ x, a (id / c.bitmapBits) = some x ∧ x.bitmap (c.offset id) = true

/-- The invariant of an ida. -/
structure IdaInv (a : ℕ → Option (IdaBitmap c.bitmapBits)) (s : IdaHandle c) : Prop where
  holds : Holds a (FullAt a) s.idr
  busy : ∀ t x, a t = some x → x.Counted
  small : ∀ id, Mem a id → id < 2 ^ c.maxIdShift

lemma div_add (t : ℕ) (b : Fin c.bitmapBits) : (t * c.bitmapBits + b) / c.bitmapBits = t := by
  rw [mul_comm, Nat.mul_add_div c.bitmapBits_pos, Nat.div_eq_of_lt b.isLt, add_zero]

lemma offset_add (t : ℕ) (b : Fin c.bitmapBits) : c.offset (t * c.bitmapBits + b) = b := by
  apply Fin.ext
  show (t * c.bitmapBits + b) % c.bitmapBits = b
  rw [mul_comm, Nat.mul_add_mod, Nat.mod_eq_of_lt b.isLt]

lemma div_offset (c : IdaConfig) (id : ℕ) : id / c.bitmapBits * c.bitmapBits + c.offset id = id := by
  rw [mul_comm]
  exact Nat.div_add_mod _ _

lemma eq_add_iff (hi : i / c.bitmapBits = t) : i = t * c.bitmapBits + b ↔ c.offset i = b := by
  constructor
  · intro heq
    rw [heq, offset_add]
  · intro heq
    rw [← div_offset c i, hi, heq]

lemma mem_add : Mem a (t * c.bitmapBits + b) ↔ ∃ x, a t = some x ∧ x.bitmap b = true := by
  unfold Mem
  rw [div_add, offset_add]

lemma not_mem_of_clear (hx : a t = some x) (hclear : x.bitmap b = false)
    : ¬ Mem a (t * c.bitmapBits + b) := by
  rw [mem_add]
  rintro ⟨y, hy, hset⟩
  rw [hx, Option.some.injEq] at hy
  subst hy
  rw [hclear] at hset
  cases hset

lemma IdaInv.full_iff (h : IdaInv a s) :
    FullAt a t ↔ ∀ b : Fin c.bitmapBits, Mem a (t * c.bitmapBits + b) := by
  constructor
  · rintro ⟨x, hx, hfull⟩ b
    exact mem_add.2 ⟨x, hx, (h.busy t x hx).full_iff.1 hfull b⟩
  · intro hall
    obtain ⟨x, hx, _⟩ := mem_add.1 (hall (c.offset 0))
    refine ⟨x, hx, (h.busy t x hx).full_iff.2 fun b => ?_⟩
    obtain ⟨y, hy, hset⟩ := mem_add.1 (hall b)
    rw [hx, Option.some.injEq] at hy
    rw [hy]
    exact hset

lemma FullAt.there (h : FullAt a t) : a t ≠ none := by
  obtain ⟨x, hx, _⟩ := h
  simp [hx]

lemma IdaInv.full_congr {s' : IdaHandle c} (h : IdaInv a s) (h' : IdaInv a' s')
    (hmem : ∀ i, Mem a' i ↔ Mem a i) : FullAt a' = FullAt a := by
  funext t
  rw [h'.full_iff, h.full_iff]
  simp only [hmem]

lemma IdaInv.allocated_iff (h : IdaInv a s) (hid : id / c.bitmapBits < 2 ^ c.maxIdShift) :
    allocated s id = true ↔ Mem a id := by
  unfold allocated Mem
  rw [h.holds.idrFind, Nat.mod_eq_of_lt hid]
  cases a (id / c.bitmapBits) with
  | none => simp [Ptr.ofOption]
  | some x => simp [Ptr.ofOption]

lemma mem_update :
    Mem (update a t (some x)) i ↔
      if i / c.bitmapBits = t then x.bitmap (c.offset i) = true else Mem a i := by
  unfold Mem
  by_cases hi : i / c.bitmapBits = t
  · simp [hi]
  · simp [hi]

lemma mem_update_none : Mem (update a t none) i ↔ i / c.bitmapBits ≠ t ∧ Mem a i := by
  unfold Mem
  by_cases hi : i / c.bitmapBits = t
  · simp [hi]
  · simp [hi]

end Sets

section Handles
variable {α : Type*} {d : Config} {a a' : ℕ → Option α} {f f' : ℕ → Prop} {s : IdrHandle α d.idrSize}

lemma holds_setTop {top : Ptr α d.idrSize} (h : Holds a f s) (htree : Tree a' f' s.layers 0 top)
    (hnull : top.isNull = false) (hpos : 0 < s.layers) (hmarks : ∀ i, f' i → a' i ≠ none)
    (hrange : ∀ i, a' i ≠ none → high d.idrBits s.layers i = 0) :
    Holds a' f' { s with top := top } := by
  refine ⟨htree, hmarks, hrange, h.layers, ?_, h.free⟩
  rw [← isNull_iff, hnull]
  exact iff_of_false (by simp) hpos.ne'

lemma range_update {id : ℕ} {x : Option α} {layers : ℕ}
    (hrange : ∀ i, a i ≠ none → high d.idrBits layers i = 0) (hid : high d.idrBits layers id = 0) :
    ∀ i, update a id x i ≠ none → high d.idrBits layers i = 0 := by
  intro i hi
  by_cases h : i = id
  · rw [h]
    exact hid
  · rw [update_of_ne h] at hi
    exact hrange i hi

lemma marks_update {id : ℕ} {x : α} (hmarks : ∀ i, f i → a i ≠ none) :
    ∀ i, f i → update a id (some x) i ≠ none := by
  intro i hi
  by_cases h : i = id
  · simp [h]
  · rw [update_of_ne h]
    exact hmarks i hi

end Handles

end BooxKernel.Ida
