import BooxKernel.Ida.Bitmaps

/-!
# Taking and giving back the ids of an ida

The search for a slot that is not marked finds the first bitmap, from that of the start
on, that is not full. Only in the bitmap of the start there may be no clear bit left from
the start on; then the search is repeated from the next slot on, and ends there.
-/
namespace BooxKernel.Ida
open Idr Digits Slots Function

variable {c : IdaConfig} {a : ℕ → Option (IdaBitmap c.bitmapBits)} {s : IdaHandle c}
variable {t : ℕ} {x : IdaBitmap c.bitmapBits} {b offset : Fin c.bitmapBits}

/-- A slot that the tree has all layers for. -/
structure Reached (s : IdaHandle c) (t : ℕ) : Prop where
  pos : 0 < s.idr.layers
  block : high c.idrBits s.idr.layers t = 0
  path : Open c.toConfig t s.idr.layers s.idr.top

section
variable (h : IdaInv a s)
include h

lemma IdaInv.update {s' : IdaHandle c} {f : ℕ → Prop}
    (hholds : Holds (update a t (some x)) f s'.idr) (hbusy : x.Counted)
    (hsmall : ∀ b, x.bitmap b = true → t * c.bitmapBits + b < 2 ^ c.maxIdShift)
    (hat : f t ↔ x.nrBusy = c.bitmapBits) (hother : ∀ i, i ≠ t → (f i ↔ FullAt a i)) :
    IdaInv (Function.update a t (some x)) s' := by
  have hfull : f = FullAt (Function.update a t (some x)) := by
    funext i
    by_cases hi : i = t
    · subst hi
      rw [hat]
      simp [FullAt]
    · rw [hother i hi]
      simp [FullAt, update_of_ne hi]
  refine ⟨by rw [← hfull]; exact hholds, fun i y hy => ?_, fun id hid => ?_⟩
  · by_cases hi : i = t
    · rw [hi, update_self, Option.some.injEq] at hy
      subst hy
      exact hbusy
    · rw [update_of_ne hi] at hy
      exact h.busy i y hy
  · rw [mem_update] at hid
    split_ifs at hid with hdiv
    · rw [← div_offset c id, hdiv]
      exact hsmall _ hid
    · exact h.small id hid

lemma IdaInv.bit_small (hx : a t = some x) (hset : x.bitmap b = true) :
    t * c.bitmapBits + b < 2 ^ c.maxIdShift :=
  h.small _ (mem_add.2 ⟨x, hx, hset⟩)

lemma openBitmap_spec (ht : Reached s t) :
    openBitmap s t = .error .eagain ∨
    ∃ s' x a', openBitmap s t = .ok (s', x) ∧ IdaInv a' s' ∧ a' t = some x ∧
      (∀ i, Mem a' i ↔ Mem a i) ∧ s'.idr.layers = s.idr.layers ∧ Reached s' t := by
  unfold openBitmap
  rw [findLoop_spec h.holds.tree ht.block]
  cases hx : a t with
  | some x => exact .inr ⟨s, x, a, rfl, h, hx, fun _ => Iff.rfl, rfl, ht⟩
  | none =>
    cases hfree : s.freeBitmap with
    | none => exact .inl rfl
    | some old =>
      obtain ⟨htree, hnull⟩ := storeSlot_spec .zero true h.holds.tree ht.path ht.block (by simp [hx])
      have hholds := holds_setTop h.holds htree hnull ht.pos (marks_update h.holds.marks)
        (range_update h.holds.range ht.block)
      refine .inr ⟨_, _, _, rfl, h.update hholds (by simp [IdaBitmap.Counted, IdaBitmap.zero]) ?_ ?_
        fun _ _ => Iff.rfl, update_self _ _ _, fun i => ?_, rfl, ht.pos, ht.block, ht.path.storeSlot⟩
      · intro b hb
        cases hb
      · have hpos : (0 : ℤ) ≠ c.bitmapBits := by exact_mod_cast c.bitmapBits_pos.ne
        exact iff_of_false (fun hf => hf.there hx) hpos
      · rw [mem_update]
        split_ifs with hi
        · simp [Mem, hi, hx, IdaBitmap.zero]
        · rfl

lemma takeBit_spec (ht : Reached s t) (hx : a t = some x) (hclear : x.bitmap b = false)
    (hsmall : t * c.bitmapBits + b < 2 ^ c.maxIdShift) :
    ∃ a', IdaInv a' (takeBit s t x b) ∧ ∀ i, Mem a' i ↔ i = t * c.bitmapBits + b ∨ Mem a i := by
  have hnotfull : ¬ FullAt a t := fun hfull =>
    not_mem_of_clear hx hclear (h.full_iff.1 hfull b)
  have hcounted := (h.busy t x hx).set hclear
  have hbits : ∀ i, (x.set b).bitmap i = true → t * c.bitmapBits + i < 2 ^ c.maxIdShift := by
    intro i hi
    rcases (x.set_bitmap b i).1 hi with rfl | hi
    · exact hsmall
    · exact h.bit_small hx hi
  obtain ⟨htree, hnull⟩ := storeSlot_spec (x.set b) false h.holds.tree ht.path ht.block (by simp [hx])
  have hmarks : ∀ i, FullAt a i → update a t (some (x.set b)) i ≠ none :=
    marks_update h.holds.marks
  refine ⟨update a t (some (x.set b)), ?_, fun i => ?_⟩
  · unfold takeBit
    dsimp only
    by_cases hfull : (x.set b).nrBusy = c.bitmapBits
    · obtain ⟨hmarked, _, hsame⟩ := idrMarkFull_spec hmarks htree ht.path.storeSlot ht.block (by simp)
      have hholds := holds_setTop h.holds hmarked (hsame.trans hnull) ht.pos
        (marks_or hmarks (by simp)) (range_update h.holds.range ht.block)
      rw [if_pos hfull]
      refine h.update hholds hcounted hbits (iff_of_true (.inl rfl) hfull) fun i hi => ?_
      exact or_iff_right hi
    · have hholds := holds_setTop h.holds htree hnull ht.pos hmarks
        (range_update h.holds.range ht.block)
      rw [if_neg hfull]
      exact h.update hholds hcounted hbits (iff_of_false hnotfull hfull) fun _ _ => Iff.rfl
  · rw [mem_update]
    split_ifs with hi
    · rw [x.set_bitmap, eq_add_iff hi]
      simp [Mem, hi, hx]
    · refine (or_iff_right fun heq => hi ?_).symm
      rw [heq, div_add]

lemma dropExtra_spec : IdaInv a (dropExtra s) := by
  unfold dropExtra
  split_ifs
  · refine ⟨⟨h.holds.tree, h.holds.marks, h.holds.range, h.holds.layers, h.holds.empty, ?_⟩, h.busy,
      h.small⟩
    intro p hp
    exact h.holds.free p (List.mem_of_mem_tail hp)
  · exact h

end

section Alloc
variable {fuel idrId : ℕ}

/-- What `ida_get_new_above` comes to: the smallest free id from the start on is taken,
or the set stays as it is. -/
def AllocSpec (a : ℕ → Option (IdaBitmap c.bitmapBits)) (start : ℕ) (r : Ret × IdaHandle c) : Prop :=
  (∃ id a', r.1 = .ok id ∧ id < 2 ^ c.maxIdShift ∧ IsLeast {i | start ≤ i ∧ ¬ Mem a i} id ∧
    IdaInv a' r.2 ∧ ∀ i, Mem a' i ↔ i = id ∨ Mem a i) ∨
  (r.1 = .eagain ∨ r.1 = .enospc) ∧ ∃ a', IdaInv a' r.2 ∧ ∀ i, Mem a' i ↔ Mem a i

/-- The bitmap in which the ids end is not full: its last bit would be an id that is too
large. -/
lemma IdaInv.last_not_full (h : IdaInv a s) : ¬ FullAt a (2 ^ c.maxIdShift / c.bitmapBits) := by
  intro hfull
  have hpos := c.bitmapBits_pos
  have hlast := h.small _ (h.full_iff.1 hfull ⟨c.bitmapBits - 1, by omega⟩)
  have hdiv := Nat.lt_div_mul_add (a := 2 ^ c.maxIdShift) hpos
  dsimp only at hlast
  omega

lemma IdaInv.space (h : IdaInv a s) (hidr : idrId * c.bitmapBits ≤ 2 ^ c.maxIdShift) :
    ∃ i < 2 ^ ((c.maxLevel - 1) * c.idrBits), idrId ≤ i ∧ ¬ FullAt a i := by
  have hfit := c.bitmaps_fit
  refine ⟨2 ^ c.maxIdShift / c.bitmapBits, ?_, ?_, h.last_not_full⟩
  · exact (Nat.div_lt_iff_lt_mul c.bitmapBits_pos).2 (by rwa [Nat.mul_comm])
  · exact (Nat.le_div_iff_mul_le c.bitmapBits_pos).2 hidr

lemma IdaInv.first_le (h : IdaInv a s) (hidr : idrId * c.bitmapBits ≤ 2 ^ c.maxIdShift)
    (hleast : IsLeast {i | idrId ≤ i ∧ ¬ FullAt a i} t) : t * c.bitmapBits ≤ 2 ^ c.maxIdShift := by
  have hle : idrId ≤ 2 ^ c.maxIdShift / c.bitmapBits :=
    (Nat.le_div_iff_mul_le c.bitmapBits_pos).2 hidr
  have ht : t ≤ 2 ^ c.maxIdShift / c.bitmapBits := hleast.2 ⟨hle, h.last_not_full⟩
  exact (Nat.mul_le_mul_right _ ht).trans (Nat.div_mul_le_self _ _)

/-- The first clear bit of the first bitmap that is not full is the smallest free id. -/
lemma IdaInv.least_free (h : IdaInv a s) (hleast : IsLeast {i | idrId ≤ i ∧ ¬ FullAt a i} t)
    (hge : (if t ≠ idrId then c.offset 0 else offset) ≤ b) (hfree : ¬ Mem a (t * c.bitmapBits + b))
    (hset : ∀ d, (if t ≠ idrId then c.offset 0 else offset) ≤ d → d < b →
      Mem a (t * c.bitmapBits + d)) :
    IsLeast {i | idrId * c.bitmapBits + offset ≤ i ∧ ¬ Mem a i} (t * c.bitmapBits + b) := by
  have hpos := c.bitmapBits_pos
  refine ⟨⟨?_, hfree⟩, ?_⟩
  · by_cases hne : t = idrId
    · subst hne
      rw [if_neg (not_not.2 rfl)] at hge
      omega
    · have hlt : idrId < t := lt_of_le_of_ne hleast.1.1 (Ne.symm hne)
      have hmul := Nat.mul_le_mul_right c.bitmapBits (Nat.succ_le_of_lt hlt)
      rw [Nat.succ_mul] at hmul
      omega
  · rintro i ⟨hi, hfree⟩
    by_contra hlt
    rw [not_le] at hlt
    have hi' := div_offset c i
    have hdiv : i / c.bitmapBits ≤ t := by
      rw [← div_add t b]
      exact Nat.div_le_div_right hlt.le
    apply hfree
    rcases lt_or_eq_of_le hdiv with hless | heq
    · have hle : idrId ≤ i / c.bitmapBits :=
        (Nat.le_div_iff_mul_le hpos).2 ((Nat.le_add_right _ _).trans hi)
      have hfull : FullAt a (i / c.bitmapBits) := by
        by_contra hnot
        exact absurd (hleast.2 ⟨hle, hnot⟩) (not_le.2 hless)
      rw [← hi']
      exact h.full_iff.1 hfull (c.offset i)
    · rw [heq] at hi'
      rw [← hi']
      refine hset _ ?_ (by rw [Fin.lt_def]; omega)
      by_cases hne : t = idrId
      · subst hne
        rw [if_neg (not_not.2 rfl)]
        omega
      · rw [if_pos hne]
        exact (Nat.zero_mod _).le.trans (Nat.zero_le _)

lemma round_spec (offset : Fin c.bitmapBits) (h : IdaInv a s)
    (hidr : idrId * c.bitmapBits ≤ 2 ^ c.maxIdShift)
    (hseen : ¬ Overlooked c.toConfig (FullAt a) (layersFor c.toConfig s.idr idrId) idrId)
    (hfuel : 2 * c.maxLevel + 1 ≤ fuel) :
    AllocSpec a (idrId * c.bitmapBits + offset) (getNewAboveLoop (fuel + 1) s idrId offset) ∨
    ∃ s' a', getNewAboveLoop (fuel + 1) s idrId offset =
        getNewAboveLoop fuel s' (idrId + 1) (c.offset 0) ∧ IdaInv a' s' ∧
      (∀ i, Mem a' i ↔ Mem a i) ∧ s'.idr.layers = layersFor c.toConfig s.idr idrId ∧
      (∀ b, offset ≤ b → Mem a (idrId * c.bitmapBits + b)) ∧ ¬ FullAt a idrId := by
  have hslot := idrGetEmptySlot_spec h.holds (h.space hidr) hseen hfuel
  rw [getNewAboveLoop]
  generalize idrGetEmptySlot c.toConfig fuel s.idr idrId = r at hslot
  obtain ⟨outcome, idr⟩ := r
  rcases hslot with ⟨t, rfl, hleast, hholds, hpos, hblock, hopen, hlayers⟩ | ⟨rfl, hholds⟩
  swap
  · exact .inl (.inr ⟨.inl rfl, a, ⟨hholds, h.busy, h.small⟩, fun _ => Iff.rfl⟩)
  dsimp only at hholds hpos hblock hopen hlayers ⊢
  have hinv : IdaInv a { s with idr := idr } := ⟨hholds, h.busy, h.small⟩
  have hreach : Reached { s with idr := idr } t := ⟨hpos, hblock, hopen⟩
  have ht := h.first_le hidr hleast
  have htwo : 0 < 2 ^ c.maxIdShift := by positivity
  rw [Nat.mod_eq_of_lt (by omega)]
  by_cases hbig : t * c.bitmapBits ≥ 2 ^ c.maxIdShift
  · rw [if_pos hbig]
    exact .inl (.inr ⟨.inr rfl, a, hinv, fun _ => Iff.rfl⟩)
  rw [if_neg hbig]
  rcases openBitmap_spec hinv hreach with herror | ⟨s', x, a', hok, hinv', hx, hmem, hsame, hreach'⟩
  · rw [herror]
    exact .inl (.inr ⟨.inl rfl, a, hinv, fun _ => Iff.rfl⟩)
  rw [hok]
  dsimp only
  have hbit : ∀ b, x.bitmap b = true ↔ Mem a (t * c.bitmapBits + b) := by
    intro b
    rw [← hmem, mem_add, hx]
    simp
  cases hz : findNextZero x.bitmap (if t ≠ idrId then c.offset 0 else offset) with
  | none =>
    have hset := findNextZero_none hz
    by_cases hne : t = idrId
    · subst hne
      rw [if_neg (not_not.2 rfl)] at hset
      refine .inr ⟨s', a', rfl, hinv', hmem, ?_, fun b hb => (hbit b).1 (hset b hb), hleast.1.2⟩
      rw [hsame]
      exact hlayers (lt_pow_iff_layers.2 (le_max_right _ _))
    · refine absurd (h.full_iff.2 fun b => ?_) hleast.1.2
      rw [← hbit]
      refine hset b ?_
      rw [if_pos hne]
      exact (Nat.zero_mod _).le.trans (Nat.zero_le _)
  | some b =>
    obtain ⟨hge, hclear, hset⟩ := findNextZero_some hz
    have hbits := c.bitmapBits_le
    dsimp only
    rw [Nat.mod_eq_of_lt (by omega)]
    by_cases hlarge : t * c.bitmapBits + b ≥ 2 ^ c.maxIdShift
    · rw [if_pos hlarge]
      exact .inl (.inr ⟨.inr rfl, a', hinv', hmem⟩)
    rw [if_neg hlarge]
    obtain ⟨a'', hinv'', hmem'⟩ := takeBit_spec hinv' hreach' hx hclear (not_le.1 hlarge)
    have hfree : ¬ Mem a (t * c.bitmapBits + b) := by
      rw [← hbit, hclear]
      simp
    refine .inl (.inl ⟨_, a'', rfl, not_le.1 hlarge,
      h.least_free hleast hge hfree fun d hd hlt => (hbit d).1 (hset d hd hlt),
      dropExtra_spec hinv'', fun i => ?_⟩)
    rw [hmem', hmem]

/-- There is room for the start of `ida_get_new_above`: neither the search for a bitmap
from that of the start on nor, when that one has nothing left, the search from the next
one on overlooks the end of the tree. -/
def SetRoom (a : ℕ → Option (IdaBitmap c.bitmapBits)) (s : IdaHandle c) (start : ℕ) : Prop :=
  ¬ Overlooked c.toConfig (FullAt a) (layersFor c.toConfig s.idr (start / c.bitmapBits))
      (start / c.bitmapBits) ∧
  ((∀ id, start ≤ id → id / c.bitmapBits = start / c.bitmapBits → Mem a id) →
    ¬ Overlooked c.toConfig (FullAt a) (layersFor c.toConfig s.idr (start / c.bitmapBits + 1))
      (start / c.bitmapBits + 1))

lemma layersFor_next {s s' : IdrHandle (IdaBitmap c.bitmapBits) c.idrSize}
    (h : s'.layers = layersFor c.toConfig s idrId) :
    layersFor c.toConfig s' (idrId + 1) = layersFor c.toConfig s (idrId + 1) := by
  have hmono : (idrId.size + c.idrBits - 1) / c.idrBits ≤
      ((idrId + 1).size + c.idrBits - 1) / c.idrBits := by
    apply Nat.div_le_div_right
    have := Nat.size_le_size (Nat.le_succ idrId)
    simp only [Nat.succ_eq_add_one] at this
    omega
  simp only [layersFor] at h ⊢
  omega

lemma idaGetNewAbove_spec {start : ℕ} (h : IdaInv a s) (hstart : start < 2 ^ c.maxIdShift)
    (hroom : SetRoom a s start) (hfuel : 2 * c.maxLevel + 3 ≤ fuel) :
    AllocSpec a start (idaGetNewAbove fuel s start) := by
  obtain ⟨fuel, rfl⟩ : ∃ n, fuel = n + 2 := ⟨fuel - 2, by omega⟩
  unfold idaGetNewAbove
  have hbound : start / c.bitmapBits * c.bitmapBits ≤ 2 ^ c.maxIdShift :=
    (Nat.div_mul_le_self _ _).trans hstart.le
  have hfuel' : 2 * c.maxLevel + 1 ≤ fuel + 1 := by omega
  rcases round_spec (c.offset start) h hbound hroom.1 hfuel' with hspec |
    ⟨s', a', hnext, hinv, hmem, hlayers, hrest, hspace⟩
  · rwa [div_offset] at hspec
  rw [hnext]
  have hfull := h.full_congr hinv hmem
  have hall : ∀ id, start ≤ id → id / c.bitmapBits = start / c.bitmapBits → Mem a id := by
    intro id hle hdiv
    have hid := div_offset c id
    rw [← hid, hdiv]
    refine hrest _ ?_
    have hs := div_offset c start
    rw [hdiv] at hid
    omega
  have hseen := hroom.2 hall
  have hbound' : (start / c.bitmapBits + 1) * c.bitmapBits ≤ 2 ^ c.maxIdShift := by
    have hpos := c.bitmapBits_pos
    have hlast := h.small _ (hrest ⟨c.bitmapBits - 1, by omega⟩ (by
      rw [Fin.le_def]
      dsimp only
      omega))
    rw [add_mul]
    dsimp only at hlast
    omega
  rw [← hfull, ← layersFor_next hlayers] at hseen
  have hfuel'' : 2 * c.maxLevel + 1 ≤ fuel := by omega
  rcases round_spec (c.offset 0) hinv hbound' hseen hfuel'' with hspec |
    ⟨s'', a'', _, _, _, _, hrest', hspace'⟩
  · have hgap : ∀ i, start ≤ i → i < (start / c.bitmapBits + 1) * c.bitmapBits → Mem a i := by
      intro i hi hlt
      refine hall i hi (le_antisymm ?_ (Nat.div_le_div_right hi))
      exact Nat.lt_succ_iff.1 ((Nat.div_lt_iff_lt_mul c.bitmapBits_pos).2 hlt)
    have hle : start ≤ (start / c.bitmapBits + 1) * c.bitmapBits := by
      have hs := div_offset c start
      rw [add_mul]
      omega
    rcases hspec with ⟨id, b, hid, hsmall, hleast, hinv', hmem'⟩ | ⟨hret, b, hinv', hmem'⟩
    · refine .inl ⟨id, b, hid, hsmall, ⟨⟨hle.trans hleast.1.1, ?_⟩, ?_⟩, hinv', fun i => ?_⟩
      · rw [← hmem]
        exact hleast.1.2
      · rintro i ⟨hi, hfree⟩
        by_cases hlt : i < (start / c.bitmapBits + 1) * c.bitmapBits
        · exact absurd (hgap i hi hlt) hfree
        · exact hleast.2 ⟨not_lt.1 hlt, by rw [hmem]; exact hfree⟩
      · rw [hmem', hmem]
    · refine .inr ⟨hret, b, hinv', fun i => ?_⟩
      rw [hmem', hmem]
  · exfalso
    refine hspace' (hinv.full_iff.2 fun b => hrest' b ?_)
    exact (Nat.zero_mod _).le.trans (Nat.zero_le _)

end Alloc

section Remove
variable {id : ℕ} {s' : IdaHandle c}

lemma IdaInv.layers_pos (h : IdaInv a s) (ht : a t ≠ none) : 0 < s.idr.layers := by
  by_contra hzero
  have htree := h.holds.tree
  have hrange := h.holds.range t ht
  rw [h.holds.empty.2 (by omega), tree_null] at htree
  exact ht (htree t hrange)

lemma keepBitmap_idr (s : IdaHandle c) (x : IdaBitmap c.bitmapBits) :
    (keepBitmap s x).idr = s.idr := by
  unfold keepBitmap
  cases s.freeBitmap with
  | none => rfl
  | some y => rfl

section
variable (h : IdaInv a s) (hx : a t = some x) (hset : x.bitmap b = true)
include h hx hset

lemma IdaInv.keep
    (hholds : Holds (Function.update a t (some (x.clear b))) (fun i => i ≠ t ∧ FullAt a i) s'.idr) :
    IdaInv (Function.update a t (some (x.clear b))) s' ∧
      ∀ i, Mem (Function.update a t (some (x.clear b))) i ↔ i ≠ t * c.bitmapBits + b ∧ Mem a i := by
  have hcounted := (h.busy _ x hx).clear hset
  constructor
  · refine h.update hholds hcounted (fun d hd => ?_) (iff_of_false (fun hf => hf.1 rfl) ?_)
      fun i hi => and_iff_right hi
    · exact h.bit_small hx ((x.clear_bitmap _ d).1 hd).2
    · rw [hcounted.full_iff]
      intro hall
      exact ((x.clear_bitmap _ _).1 (hall b)).1 rfl
  · intro i
    rw [mem_update]
    split_ifs with hi
    · rw [x.clear_bitmap, ne_eq, ne_eq, eq_add_iff hi]
      simp [Mem, hi, hx]
    · exact (and_iff_right fun heq => hi (by rw [heq, div_add])).symm

lemma IdaInv.drop (hzero : (x.clear b).nrBusy = 0)
    (hholds : Holds (Function.update a t none) (fun i => i ≠ t ∧ FullAt a i) s'.idr) :
    IdaInv (Function.update a t none) s' ∧
      ∀ i, Mem (Function.update a t none) i ↔ i ≠ t * c.bitmapBits + b ∧ Mem a i := by
  have hempty := ((h.busy _ x hx).clear hset).zero_iff.1 hzero
  have hfull : (fun i => i ≠ t ∧ FullAt a i) = FullAt (Function.update a t none) := by
    funext i
    by_cases hi : i = t
    · simp [FullAt, hi]
    · simp [FullAt, hi]
  rw [hfull] at hholds
  refine ⟨⟨hholds, fun t' z hz => ?_, fun i hi => h.small i (mem_update_none.1 hi).2⟩, fun i => ?_⟩
  · by_cases ht : t' = t
    · simp [ht] at hz
    · rw [update_of_ne ht] at hz
      exact h.busy t' z hz
  · rw [mem_update_none]
    by_cases hi : i / c.bitmapBits = t
    · refine iff_of_false (fun hf => hf.1 hi) fun hf => ?_
      obtain ⟨z, hz, hzset⟩ := hf.2
      rw [hi, hx, Option.some.injEq] at hz
      subst hz
      have hclear := (x.clear_bitmap b (c.offset i)).2 ⟨mt (eq_add_iff hi).2 hf.1, hzset⟩
      rw [hempty] at hclear
      cases hclear
    · exact and_congr_left fun _ => iff_of_true hi fun heq => hi (by rw [heq, div_add])

end

lemma idaRemove_spec (h : IdaInv a s) (hid : Mem a id) :
    ∃ s' a', idaRemove s id = some s' ∧ IdaInv a' s' ∧ ∀ i, Mem a' i ↔ i ≠ id ∧ Mem a i := by
  obtain ⟨x, hx, hset⟩ := hid
  have hid := div_offset c id
  unfold idaRemove
  generalize id / c.bitmapBits = t, c.offset id = b at hx hset hid ⊢
  subst hid
  have hthere : a t ≠ none := by simp [hx]
  obtain ⟨l, hl⟩ := Nat.exists_eq_add_of_lt (h.layers_pos hthere)
  rw [Nat.zero_add] at hl
  have hrange := h.holds.range
  have htree := h.holds.tree
  have hle := h.holds.layers
  rw [hl] at hrange htree hle
  have hblock := hrange _ hthere
  obtain ⟨hopen, bitmap, count, ary, hleaf, hslot⟩ := leafOf_spec htree hblock hx
  obtain ⟨hcleared, hopen'⟩ := clearPath_spec htree hblock hopen
  obtain ⟨hstored, hnull⟩ := storeSlot_spec (x.clear b) false hcleared hopen' hblock (by simp [hx])
  have hmarks : ∀ i, (i ≠ t ∧ FullAt a i) → update a t (some (x.clear b)) i ≠ none := by
    intro i hi
    rw [update_of_ne hi.1]
    exact hi.2.there
  have hrange' : ∀ i, update a t (some (x.clear b)) i ≠ none → high c.idrBits (l + 1) i = 0 :=
    range_update hrange hblock
  simp only [hl, Nat.add_sub_cancel, hleaf, hslot, hset, if_true]
  by_cases hzero : (x.clear b).nrBusy = 0
  · rw [if_pos hzero]
    obtain ⟨halong, hbit, _⟩ := setLeafBit_spec hstored hopen'.storeSlot
    refine ⟨_, _, rfl, h.drop hx hset hzero ?_⟩
    rw [keepBitmap_idr]
    have hremoved := idrRemove_along
      (s := ⟨setLeafBit c.toConfig t l (storeSlot c.toConfig t (.item (x.clear b)) false (l + 1)
        (clearPath c.toConfig t l s.idr.top)), s.idr.layers, s.idr.idFree⟩)
      hmarks hrange' hl hle h.holds.free (h.holds.small hthere) (by simp) halong hbit
    simp only [update_idem, and_self_left] at hremoved
    exact hremoved
  · rw [if_neg hzero]
    have hholds := holds_setTop h.holds (by rw [hl]; exact hstored) hnull (h.layers_pos hthere)
      hmarks (by rw [hl]; exact hrange')
    exact ⟨_, _, rfl, h.keep hx hset hholds⟩

end Remove

lemma idaPreGet_spec (alloc : List Bool) (kmalloc : Option (IdaBitmap c.bitmapBits))
    (h : IdaInv a s) : IdaInv a (idaPreGet s alloc kmalloc).2 := by
  have hidr : (idaPreGet s alloc kmalloc).2.idr = (idrPreGet c.toConfig s.idr alloc).2 := by
    unfold idaPreGet
    dsimp only
    split_ifs
    · rfl
    · cases hfree : s.freeBitmap with
      | some y => rfl
      | none =>
        cases kmalloc with
        | none => rfl
        | some x => exact keepBitmap_idr _ _
  refine ⟨?_, h.busy, h.small⟩
  rw [hidr]
  exact idrPreGet_holds alloc h.holds

lemma init_spec : IdaInv (fun _ => none) (IdaHandle.init c) := by
  refine ⟨⟨rfl, ?_, fun _ hi => absurd rfl hi, Nat.zero_le _, ?_, fun _ hp => ?_⟩, ?_, ?_⟩
  · intro i hi
    exact absurd rfl hi.there
  · exact Iff.rfl.trans (by simp [IdaHandle.init, IdrHandle.init])
  · simp [IdaHandle.init, IdrHandle.init] at hp
  · intro t x hx
    cases hx
  · rintro id ⟨x, hx, _⟩
    cases hx

section Fuel
variable {fuel fuel' idrId : ℕ}

lemma getNewAboveLoop_mono (hle : fuel ≤ fuel')
    (h : (getNewAboveLoop fuel s idrId offset).1 ≠ .timeout) :
    getNewAboveLoop fuel' s idrId offset = getNewAboveLoop fuel s idrId offset := by
  induction fuel generalizing fuel' s idrId offset with
  | zero => exact absurd rfl h
  | succ fuel ih =>
    obtain ⟨fuel', rfl⟩ : ∃ n, fuel' = n + 1 := ⟨fuel' - 1, by omega⟩
    rw [getNewAboveLoop] at h
    rw [getNewAboveLoop, getNewAboveLoop]
    have hslot : (idrGetEmptySlot c.toConfig fuel s.idr idrId).1 ≠ .timeout := by
      intro htime
      rw [htime] at h
      exact h rfl
    rw [idrGetEmptySlot_mono (Nat.le_of_succ_le_succ hle) hslot]
    generalize idrGetEmptySlot c.toConfig fuel s.idr idrId = r at h
    obtain ⟨outcome, idr⟩ := r
    cases outcome with
    | found t =>
      dsimp only at h ⊢
      by_cases hbig : t * c.bitmapBits % 2 ^ (c.maxIdShift + 1) ≥ 2 ^ c.maxIdShift
      · rw [if_pos hbig, if_pos hbig]
      · rw [if_neg hbig] at h
        rw [if_neg hbig, if_neg hbig]
        cases hopen : openBitmap { s with idr := idr } t with
        | error e => rfl
        | ok opened =>
          rw [hopen] at h
          dsimp only at h ⊢
          cases hz : findNextZero opened.2.bitmap (if t ≠ idrId then c.offset 0 else offset) with
          | none =>
            rw [hz] at h
            exact ih (Nat.le_of_succ_le_succ hle) h
          | some b => rfl
    | _ => rfl

end Fuel

end BooxKernel.Ida
