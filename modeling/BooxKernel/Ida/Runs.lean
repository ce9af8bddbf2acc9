import BooxKernel.Ida.Operations
import BooxKernel.Lib.Runs

/-!
# Runs of the id allocator without pointers

After every run of calls the ida is a set of ids, wherever memory ran out on the way:
`ida_get_new_above` adds the smallest id from its start on that the set does not have,
and `ida_remove` takes its id out. This holds as long as each `ida_get_new_above` has
room for its start.
-/
namespace BooxKernel.Ida
open Idr Digits Runs Function IdaConfig Nat IdaBitmap List Bool

variable {c : IdaConfig}

/-- All ids of a bitmap are allocated. -/
def BitmapFull (s : IdaHandle c) (t : ℕ) : Prop :=
  ∀ b : Fin c.bitmapBits, allocated s (t * c.bitmapBits + b) = true

/-- There is room for the start of `ida_get_new_above`: neither the search for a bitmap
from that of the start on nor, when that one has nothing left, the search from the next
one on overlooks the end of the tree. -/
def IdaRoom (s : IdaHandle c) (start : ℕ) : Prop :=
  ¬ Overlooked c.toConfig (BitmapFull s) (layersFor c.toConfig s.idr (start / c.bitmapBits))
      (start / c.bitmapBits) ∧
  ((∀ id, start ≤ id → id / c.bitmapBits = start / c.bitmapBits → allocated s id = true) →
    ¬ Overlooked c.toConfig (BitmapFull s) (layersFor c.toConfig s.idr (start / c.bitmapBits + 1))
      (start / c.bitmapBits + 1))

/-- The calls, with what `ida_get_new_above` returned. -/
inductive Call
  | preGet
  | getNewAbove (start : ℕ) (ret : Ret)
  | remove (id : ℕ)

/-- One call; `ida_remove` is called for allocated ids. -/
def Step (s : IdaHandle c) : Call → IdaHandle c → Prop
  | .preGet, s' => ∃ alloc kmalloc, s' = (idaPreGet s alloc kmalloc).2
  | .getNewAbove start ret, s' =>
    start < 2 ^ c.maxIdShift ∧ IdaRoom s start ∧ ret ≠ .timeout ∧
      ∃ fuel, idaGetNewAbove fuel s start = (ret, s')
  | .remove id, s' => id < 2 ^ c.maxIdShift ∧ allocated s id = true ∧ idaRemove s id = some s'

section Steps
variable {a : ℕ → Option (IdaBitmap c.bitmapBits)} {s s' : IdaHandle c}

lemma IdaInv.allocated_of_lt (h : IdaInv a s) {id : ℕ} (hid : id < 2 ^ c.maxIdShift) :
    allocated s id = true ↔ Mem a id :=
  h.allocated_iff (lt_of_le_of_lt (div_le_self _ _) hid)

lemma IdaInv.overlooked_iff (h : IdaInv a s) {t : ℕ} (ht : t < 2 ^ ((c.maxLevel - 1) * c.idrBits)) :
    Overlooked c.toConfig (BitmapFull s) (layersFor c.toConfig s.idr t) t ↔
      Overlooked c.toConfig (FullAt a) (layersFor c.toConfig s.idr t) t := by
  have hlevel := two_le_maxLevel c.toConfig
  have hlayers : layersFor c.toConfig s.idr t ≤ c.maxLevel - 1 :=
    max_le (max_le h.holds.layers (by omega)) (lt_pow_iff_layers.1 ht)
  refine overlooked_congr (layersFor_pos _ _) fun i hi => ?_
  rw [h.full_iff]
  refine forall_congr' fun b => h.allocated_iff ?_
  rw [div_add]
  exact hi.trans_le (Nat.pow_le_pow_right (by norm_num) (mul_idrBits_le c.toConfig hlayers))

lemma IdaRoom.set {start : ℕ} (hroom : IdaRoom s start) (h : IdaInv a s)
    (hstart : start < 2 ^ c.maxIdShift) : SetRoom a s start := by
  have hfit := c.bitmaps_fit
  have hslots : ∀ t, t * c.bitmapBits ≤ 2 ^ c.maxIdShift → t < 2 ^ ((c.maxLevel - 1) * c.idrBits) := by
    intro t ht
    have hlt : c.bitmapBits * t < c.bitmapBits * 2 ^ ((c.maxLevel - 1) * c.idrBits) := by
      rw [mul_comm]
      exact lt_of_le_of_lt ht hfit
    exact Nat.lt_of_mul_lt_mul_left hlt
  constructor
  · rw [← h.overlooked_iff (hslots _ ((div_mul_le_self _ _).trans hstart.le))]
    exact hroom.1
  · intro hall
    have hpos := c.bitmapBits_pos
    have hlast : (start / c.bitmapBits + 1) * c.bitmapBits ≤ 2 ^ c.maxIdShift := by
      have hin := h.small (start / c.bitmapBits * c.bitmapBits +
        (⟨c.bitmapBits - 1, by omega⟩ : Fin c.bitmapBits)) (hall _ ?_ (div_add _ _))
      · rw [add_mul]
        dsimp only at hin
        omega
      · have hs := div_offset c start
        dsimp only
        omega
    rw [← h.overlooked_iff (hslots _ hlast)]
    exact hroom.2 fun id hle hdiv =>
      (h.allocated_of_lt (h.small id (hall id hle hdiv))).2 (hall id hle hdiv)

lemma step_inv {e : Call} (h : IdaInv a s) (hstep : Step s e s') : ∃ a', IdaInv a' s' := by
  cases e with
  | preGet =>
    obtain ⟨alloc, kmalloc, rfl⟩ := hstep
    exact ⟨a, idaPreGet_spec alloc kmalloc h⟩
  | getNewAbove start ret =>
    obtain ⟨hstart, hroom, hret, fuel, hcall⟩ := hstep
    have hspec := idaGetNewAbove_spec h hstart (hroom.set h hstart)
      (le_max_right fuel (2 * c.maxLevel + 3))
    have hmono : idaGetNewAbove (max fuel (2 * c.maxLevel + 3)) s start =
        idaGetNewAbove fuel s start :=
      getNewAboveLoop_mono (le_max_left _ _) (by rw [← idaGetNewAbove, hcall]; exact hret)
    rw [hmono, hcall] at hspec
    rcases hspec with ⟨id, a', _, _, _, h', _⟩ | ⟨_, a', h', _⟩
    · exact ⟨a', h'⟩
    · exact ⟨a', h'⟩
  | remove id =>
    obtain ⟨hid, hthere, hcall⟩ := hstep
    obtain ⟨s'', a', hsome, h', _⟩ := idaRemove_spec h ((h.allocated_of_lt hid).1 hthere)
    rw [hcall, Option.some.injEq] at hsome
    subst hsome
    exact ⟨a', h'⟩

lemma run_inv {es : List Call} (hrun : Run Step (IdaHandle.init c) es s) : ∃ a, IdaInv a s :=
  Run.invariant (I := fun s => ∃ a, IdaInv a s) ⟨_, init_spec⟩
    (fun _ _ _ ⟨_, h⟩ hstep => step_inv h hstep) hrun

end Steps

/-- After every run an ida is a set of ids: a new id is the smallest one from the start on
that the set does not have and is added to it, `ida_remove` takes its id out, and a call
that asks for memory changes nothing. -/
theorem ida_is_id_set {es : List Call} {s : IdaHandle c} (hrun : Run Step (IdaHandle.init c) es s) :
    (∀ start < 2 ^ c.maxIdShift, IdaRoom s start → ∀ fuel, 2 * c.maxLevel + 3 ≤ fuel →
      (∃ id, (idaGetNewAbove fuel s start).1 = .ok id ∧
        IsLeast {i | start ≤ i ∧ i < 2 ^ c.maxIdShift ∧ allocated s i = false} id ∧
        ∀ i < 2 ^ c.maxIdShift, allocated (idaGetNewAbove fuel s start).2 i =
          (decide (i = id) || allocated s i)) ∨
      ((idaGetNewAbove fuel s start).1 = .eagain ∨ (idaGetNewAbove fuel s start).1 = .enospc) ∧
        ∀ i < 2 ^ c.maxIdShift, allocated (idaGetNewAbove fuel s start).2 i = allocated s i) ∧
    ∀ id < 2 ^ c.maxIdShift, allocated s id = true →
      ∃ s', idaRemove s id = some s' ∧
        ∀ i < 2 ^ c.maxIdShift, allocated s' i = (decide (i ≠ id) && allocated s i) := by
  obtain ⟨a, h⟩ := run_inv hrun
  have hsame : ∀ {a'} {s' : IdaHandle c} (h' : IdaInv a' s') {i : ℕ} {x : Bool},
      i < 2 ^ c.maxIdShift → (Mem a' i ↔ x = true) → allocated s' i = x := by
    intro a' s' h' i x hi hmem
    rw [Bool.eq_iff_iff, h'.allocated_of_lt hi]
    exact hmem
  constructor
  · intro start hstart hroom fuel hfuel
    rcases idaGetNewAbove_spec h hstart (hroom.set h hstart) hfuel with
      ⟨id, a', hid, hsmall, hleast, h', hmem⟩ | ⟨hret, a', h', hmem⟩
    · refine .inl ⟨id, hid, ⟨⟨hleast.1.1, hsmall, ?_⟩, ?_⟩, fun i hi => hsame h' hi ?_⟩
      · rw [← not_eq_true, h.allocated_of_lt hsmall]
        exact hleast.1.2
      · rintro i ⟨hle, hi, hfree⟩
        rw [← not_eq_true, h.allocated_of_lt hi] at hfree
        exact hleast.2 ⟨hle, hfree⟩
      · rw [hmem, or_eq_true, decide_eq_true_eq, h.allocated_of_lt hi]
    · refine .inr ⟨hret, fun i hi => hsame h' hi ?_⟩
      rw [hmem, h.allocated_of_lt hi]
  · intro id hid hthere
    obtain ⟨s', a', hcall, h', hmem⟩ := idaRemove_spec h ((h.allocated_of_lt hid).1 hthere)
    refine ⟨s', hcall, fun i hi => hsame h' hi ?_⟩
    rw [hmem, and_eq_true, decide_eq_true_eq, h.allocated_of_lt hi]

section OneBitmap
variable {c : IdaConfig} {t : ℕ} {full : Bool} {x y : IdaBitmap c.bitmapBits}
  {free : List (Ptr (IdaBitmap c.bitmapBits) c.idrSize)} {fb : Option (IdaBitmap c.bitmapBits)}
  {b : Fin c.bitmapBits}

/-- A tree of two layers with one bitmap. -/
def single (c : IdaConfig) (t : ℕ) (full : Bool) (x : IdaBitmap c.bitmapBits) :
    Ptr (IdaBitmap c.bitmapBits) c.idrSize :=
  .layer (fun _ => false) 1 (update (fun _ => .null) (slot c.toConfig 1 t)
    (.layer (update (fun _ => false) (slot c.toConfig 0 t) full) 1
      (update (fun _ => .null) (slot c.toConfig 0 t) (.item x))))

lemma single_straight : Straight c.toConfig t 1 (single c t false x) := by
  simp [single, Straight]

lemma single_find : findLoop c.toConfig t 2 (single c t full x) = some (.item x) := by
  simp [single, findLoop]

lemma single_store :
    storeSlot c.toConfig t (.item y) false 2 (single c t full x) = single c t full y := by
  simp [single, storeSlot]

lemma single_mark : (idrMarkFull c.toConfig t 2 (single c t false x)).1 = single c t true x := by
  have htwo : 2 ^ 1 ≤ c.idrSize := Nat.pow_le_pow_right (by norm_num) c.idrBits_pos
  have hother : ∃ d : Fin c.idrSize, d ≠ slot c.toConfig 0 t := by
    by_cases h : slot c.toConfig 0 t = ⟨0, by omega⟩
    · exact ⟨⟨1, by omega⟩, by rw [h]; simp⟩
    · exact ⟨_, Ne.symm h⟩
  have hnot : ¬ ∀ d, update (fun _ : Fin c.idrSize => false) (slot c.toConfig 0 t) true d =
      true := by
    obtain ⟨d, hd⟩ := hother
    intro hall
    have := hall d
    rw [update_of_ne hd] at this
    cases this
  simp [single, idrMarkFull, hnot]

lemma single_take :
    takeBit ⟨⟨single c t false x, 2, free⟩, fb⟩ t x b =
      ⟨⟨single c t (decide ((x.set b).nrBusy = c.bitmapBits)) (x.set b), 2, free⟩, fb⟩ := by
  unfold takeBit IdaHandle.setTop
  dsimp only
  rw [single_store]
  by_cases hfull : (x.set b).nrBusy = c.bitmapBits
  · rw [if_pos hfull, single_mark, decide_eq_true hfull]
  · rw [if_neg hfull, decide_eq_false hfull]

lemma idaGetNewAbove_found {s s' : IdaHandle c} {fuel : ℕ}
    {idr : IdrHandle (IdaBitmap c.bitmapBits) c.idrSize}
    (hslot : idrGetEmptySlot c.toConfig fuel s.idr t = (.found t, idr))
    (hopen : openBitmap { s with idr := idr } t = .ok (s', x))
    (hclear : findNextZero x.bitmap (c.offset 0) = some b)
    (hsmall : t * c.bitmapBits + b < 2 ^ c.maxIdShift) :
    idaGetNewAbove (fuel + 1) s (t * c.bitmapBits) =
      (.ok (t * c.bitmapBits + b), dropExtra (takeBit s' t x b)) := by
  have hdiv : t * c.bitmapBits / c.bitmapBits = t := Nat.mul_div_cancel _ c.bitmapBits_pos
  have hoff : c.offset (t * c.bitmapBits) = c.offset 0 := by
    apply Fin.ext
    show t * c.bitmapBits % c.bitmapBits = 0 % c.bitmapBits
    simp
  unfold idaGetNewAbove
  rw [hdiv, hoff, getNewAboveLoop, hslot]
  dsimp only
  rw [mod_eq_of_lt (by omega), if_neg (by omega), hopen]
  dsimp only
  rw [ite_self, hclear]
  dsimp only
  rw [mod_eq_of_lt (by omega), if_neg (by omega)]

end OneBitmap

section Last

/-- The bitmap with the first `k` bits set. -/
def firstBits (k : ℕ) : IdaBitmap IdaConfig.long32.bitmapBits := ⟨k, fun b => decide (b.val < k)⟩

lemma firstBits_set {k : ℕ} (hk : k < IdaConfig.long32.bitmapBits) :
    (firstBits k).set ⟨k, hk⟩ = firstBits (k + 1) := by
  unfold firstBits IdaBitmap.set
  congr 1
  · funext b
    by_cases hb : b = ⟨k, hk⟩
    · simp [hb]
    · have hne : b.val ≠ k := fun h => hb (Fin.ext h)
      rw [update_of_ne hb, decide_eq_decide]
      omega

lemma firstBits_next {k : ℕ} (hk : k < IdaConfig.long32.bitmapBits) :
    findNextZero (firstBits k).bitmap (IdaConfig.long32.offset 0) = some ⟨k, hk⟩ := by
  unfold findNextZero
  rw [Fin.find?_eq_some_iff]
  refine ⟨?_, fun d hd => ?_⟩
  · simp [firstBits, offset, Fin.le_def]
  · have hlt : d.val < k := hd
    simp [firstBits, hlt]

/-- Bitmap 1023 with the first `k` bits set, and the layers left of 12. -/
def filled (full : Bool) (k : ℕ) : IdaHandle .long32 :=
  ⟨⟨single .long32 1023 full (firstBits k), 2, replicate (12 - k) .zero⟩, none⟩

lemma filled_allocated (k : ℕ) (b : Fin IdaConfig.long32.bitmapBits) :
    allocated (filled false k) (1023 * IdaConfig.long32.bitmapBits + b) = decide (b.val < k) := by
  unfold allocated
  rw [div_add, offset_add]
  have hfind : idrFind long32.toConfig (filled false k).idr 1023 = some (.item (firstBits k)) := by
    unfold idrFind
    exact (if_neg (show ¬ 1023 ≥ 2 ^ (2 * 5) by decide)).trans single_find
  rw [hfind]
  rfl

variable {s s' : IdaHandle .long32}

lemma room_of_free (h : allocated s (1023 * IdaConfig.long32.bitmapBits + 991) = false) :
    IdaRoom s (1023 * IdaConfig.long32.bitmapBits) := by
  constructor
  · intro hover
    have hfull := hover.2.1 1023 le_rfl (lt_pow_iff_layers.2 (le_max_right _ _)) ⟨991, by decide⟩
    exact false_ne_true (h.symm.trans hfull)
  · intro hall
    have hthere := hall (1023 * long32.bitmapBits + 991) (by omega) (by decide)
    exact absurd (h.symm.trans hthere) false_ne_true

lemma freeLayer_of_zero {α : Type*} {d : Config} (free : List (Ptr α d.idrSize)) :
    freeLayer d free .zero = .zero :: free := by
  simp [freeLayer, Ptr.zero]

lemma idrPreGet_fills {α : Type*} {d : Config} {top : Ptr α d.idrSize} {layers : ℕ} (n k : ℕ)
    (hk : k + n = d.idrFreeMax) :
    idrPreGet d ⟨top, layers, replicate k .zero⟩ (replicate n true) =
      (true, ⟨top, layers, replicate (k + n) .zero⟩) := by
  induction n generalizing k with
  | zero => simp [idrPreGet, ← hk]
  | succ n ih =>
    rw [replicate_succ, idrPreGet, if_pos (by simp; omega)]
    rw [freeLayer_of_zero, ← replicate_succ, ih (k + 1) (by omega)]
    rw [add_right_comm, add_assoc]

lemma run_pre {es : List Call}
    {top : Ptr (IdaBitmap IdaConfig.long32.bitmapBits) IdaConfig.long32.idrSize} {layers : ℕ}
    (hrun : Run Step (IdaHandle.init .long32) es ⟨⟨top, layers, []⟩, none⟩) :
    Run Step (IdaHandle.init .long32) (es ++ [.preGet])
      ⟨⟨top, layers, replicate 14 .zero⟩, some .zero⟩ := by
  refine hrun.snoc ⟨replicate 14 true, some .zero, ?_⟩
  have hfill : idrPreGet long32.toConfig ⟨top, layers, []⟩ (replicate 14 true) =
      (true, ⟨top, layers, replicate 14 .zero⟩) := idrPreGet_fills 14 0 rfl
  unfold idaPreGet
  rw [hfill]
  rfl

lemma run_take {es : List Call} {k : ℕ}
    {idr : IdrHandle (IdaBitmap IdaConfig.long32.bitmapBits) IdaConfig.long32.idrSize}
    (hk : k < IdaConfig.long32.bitmapBits) (hrun : Run Step (IdaHandle.init .long32) es s)
    (hfree : allocated s (1023 * IdaConfig.long32.bitmapBits + 991) = false)
    (hslot : idrGetEmptySlot IdaConfig.long32.toConfig 16 s.idr 1023 = (.found 1023, idr))
    (hopen : openBitmap { s with idr := idr } 1023 = .ok (filled false k, firstBits k)) :
    ∃ es, Run Step (IdaHandle.init .long32) es (filled (decide (k + 1 = 992)) (k + 1)) := by
  have hcall := idaGetNewAbove_found hslot hopen (firstBits_next hk) (by
    show 1023 * 992 + k < 2 ^ 31
    have : k < 992 := hk
    omega)
  have hfull : decide ((firstBits (k + 1)).nrBusy = (long32.bitmapBits : ℤ)) =
      decide (k + 1 = 992) := by
    rw [decide_eq_decide]
    exact cast_inj
  have hrest : (replicate (12 - k)
      (.zero : Ptr (IdaBitmap long32.bitmapBits) long32.idrSize)).tail =
      replicate (12 - (k + 1)) .zero := by
    rw [tail_replicate]
    rfl
  have hdrop : dropExtra (takeBit (filled false k) 1023 (firstBits k) ⟨k, hk⟩) =
      filled (decide (k + 1 = 992)) (k + 1) := by
    unfold filled
    rw [single_take, firstBits_set hk, hfull]
    unfold dropExtra
    split_ifs with hextra
    · rw [hrest]
    · have hnil : replicate (12 - k) (.zero : Ptr (IdaBitmap long32.bitmapBits)
          long32.idrSize) = [] := by
        by_contra h
        exact hextra (.inl h)
      rw [hnil, tail_nil] at hrest
      rw [hnil, hrest]
  rw [hdrop] at hcall
  exact ⟨_, hrun.snoc (show Step s (.getNewAbove _ _) _ from
    ⟨by decide +kernel, room_of_free hfree, by simp, 17, hcall⟩)⟩

lemma run_fill (k : ℕ) (hk : 0 < k) (hle : k ≤ 992) :
    ∃ es, Run Step (IdaHandle.init .long32) es (filled (decide (k = 992)) k) := by
  induction k, hk using le_induction with
  | base =>
    have hslot : idrGetEmptySlot long32.toConfig 16
        (⟨.null, 0, replicate 14 .zero⟩ : IdrHandle (IdaBitmap long32.bitmapBits) _) 1023 =
        (.found 1023, ⟨.layer (fun _ => false) 1
          (update (fun _ => .null) (slot long32.toConfig 1 1023) .zero), 2, replicate 12 .zero⟩) := rfl
    refine run_take (by decide) (run_pre .nil) (by decide +kernel) hslot ?_
    simp [openBitmap, findLoop, Ptr.zero, storeSlot, IdaHandle.setTop, single, filled, firstBits,
      IdaBitmap.zero]
  | succ k hk ih =>
    obtain ⟨es, hrun⟩ := ih (by omega)
    have hlt : k < 992 := hle
    rw [decide_eq_false hlt.ne] at hrun
    have hmax : 2 ≤ long32.maxLevel - 1 := by decide
    refine run_take hlt hrun ?_ (idrGetEmptySlot_straight single_straight rfl (by decide)
      (show 1023 < 2 ^ (2 * 5) by decide) hmax) ?_
    · rw [filled_allocated k ⟨991, by decide⟩, decide_eq_false_iff_not]
      dsimp only
      omega
    · unfold openBitmap filled
      rw [single_find]

/-- With two ids taken, the next one is the third, and one of them can be given back. -/
theorem ida_gives_back :
    ∃ s s' : IdaHandle .long32, (idaGetNewAbove 17 s (1023 * 992)).1 = .ok (1023 * 992 + 2) ∧
      IsLeast {i | 1023 * 992 ≤ i ∧ i < 2 ^ 31 ∧ allocated s i = false} (1023 * 992 + 2) ∧
      idaRemove s (1023 * 992) = some s' ∧ allocated s' (1023 * 992) = false ∧
      allocated s' (1023 * 992 + 1) = true := by
  obtain ⟨es, hrun⟩ := run_fill 2 (by decide) (by decide)
  have hnew : (idaGetNewAbove 17 (filled (decide (2 = 992)) 2) (1023 * 992)).1 =
      .ok (1023 * 992 + 2) := by decide +kernel
  obtain ⟨hget, hremove⟩ := ida_is_id_set hrun
  obtain ⟨s', hcall, hset⟩ := hremove (1023 * 992) (by decide +kernel) (by decide +kernel)
  refine ⟨_, s', hnew, ?_, hcall, ?_, ?_⟩
  · rcases hget (1023 * 992) (by decide +kernel) (room_of_free (by decide +kernel)) 17 (by decide)
      with ⟨id, hid, hleast, -⟩ | ⟨hret | hret, -⟩
    · rw [hnew] at hid
      obtain rfl := Ret.ok.inj hid
      exact hleast
    · cases hnew.symm.trans hret
    · cases hnew.symm.trans hret
  · rw [hset _ (by decide +kernel)]
    simp
  · rw [hset _ (by decide +kernel)]
    decide +kernel

/-- With bitmap 1023 full, the search for an id from its first one on wraps around: it
hands out id 1015808 and marks id 0. -/
theorem ida_wraps_around :
    ∃ (es : List Call) (s : IdaHandle .long32), Run Step (IdaHandle.init .long32) es s ∧
      (idaGetNewAbove 17 s (1023 * 992)).1 = .ok (1024 * 992) ∧
      allocated (idaGetNewAbove 17 s (1023 * 992)).2 (1024 * 992) = false ∧
      allocated s 0 = false ∧ allocated (idaGetNewAbove 17 s (1023 * 992)).2 0 = true := by
  obtain ⟨es, hrun⟩ := run_fill 992 (by decide) le_rfl
  exact ⟨_, _, run_pre hrun, by decide +kernel, by decide +kernel, by decide +kernel, by decide +kernel⟩

end Last
end BooxKernel.Ida
