import BooxKernel.Bitmap.Words
import Mathlib.Tactic.IntervalCases

/-!
# Aligned regions of a bitmap

A region has `2 ^ order` bits and begins at a multiple of its size. It is a part of one word
or a number of whole words, and one mask serves for each word of it. The search goes from
region to region and knows that it has found nothing when it stands exactly at the end, so
it is right only for bitmaps that end with a region, or have a free one.
-/
namespace BooxKernel.Bitmap
open BitWords Loops BitVec

variable {w : ℕ}

/-- The operations of `__reg_op`. -/
inductive RegOp
  | isfree
  | alloc
  | release
  deriving Repr, DecidableEq

/-- `nlongs_reg`. -/
def nlongsReg (w order : ℕ) : ℕ := bitsToLongs w (2 ^ order)

/-- `mask`, for one word of the region. -/
def regMask (w pos order : ℕ) : BitVec w :=
  let offset := pos - pos / w * w
  let nbitsinlong := min (2 ^ order) w
  let mask := 1#w <<< (nbitsinlong - 1)
  (mask + (mask - 1#w)) <<< offset

/-- `__reg_op`, with the value it returns. -/
def regOp (bitmap : List (BitVec w)) (pos order : ℕ) (op : RegOp) :
    Option (Bool × List (BitVec w)) :=
  let index := pos / w
  let mask := regMask w pos order
  match op with
  | .isfree => (forBreak (fun i _ => bitmap[index + i]?.map fun (v : BitVec w) =>
      if v &&& mask ≠ 0#w then Round.done () else .next ()) (nlongsReg w order) 0 ()).map fun
    | .next _ => (true, bitmap)
    | .done _ => (false, bitmap)
  | .alloc => (forUpto (fun i bitmap => modifyWord bitmap (index + i) (· ||| mask))
      (nlongsReg w order) 0 bitmap).map fun bitmap => (false, bitmap)
  | .release => (forUpto (fun i bitmap => modifyWord bitmap (index + i) (· &&& ~~~mask))
      (nlongsReg w order) 0 bitmap).map fun bitmap => (false, bitmap)

/-- The search from `pos` on. An overflow of `pos` has no value. -/
def regionRound (bitmap : List (BitVec w)) (bits order pos : ℕ) : Option (Round ℕ ℕ) :=
  if pos < bits then
    match regOp bitmap pos order .isfree with
    | none => none
    | some (true, _) => some (.done pos)
    | some (false, _) => if pos + 2 ^ order < 2 ^ 31 then some (.next (pos + 2 ^ order)) else none
  else some (.done pos)

def enomem : ℤ := 12

def bitmapFindFreeRegion (bitmap : List (BitVec w)) (bits order : ℕ) :
    Option (ℤ × List (BitVec w)) :=
  match loop (regionRound bitmap bits order) 0 with
  | none => none
  | some pos =>
    if pos = bits then some (-enomem, bitmap)
    else (regOp bitmap pos order .alloc).map fun (_, bitmap) => (pos, bitmap)

section Mask
variable {pos order : ℕ}

lemma getLsbD_low_mask {n i : ℕ} (hn : 1 ≤ n) (hnw : n ≤ w) :
    (1#w <<< (n - 1) + (1#w <<< (n - 1) - 1#w)).getLsbD i = decide (i < n) := by
  have hpow : 2 ^ n = 2 * 2 ^ (n - 1) := by rw [← pow_succ', Nat.sub_add_cancel hn]
  have hle : 2 ^ n ≤ 2 ^ w := Nat.pow_le_pow_right (by decide) hnw
  have hpos := Nat.two_pow_pos (n - 1)
  rw [← testBit_toNat, toNat_add, toNat_one_shiftLeft (by omega),
    toNat_one_shiftLeft_sub (by omega), Nat.mod_eq_of_lt (by omega),
    show 2 ^ (n - 1) + (2 ^ (n - 1) - 1) = 2 ^ n - 1 by omega, Nat.testBit_two_pow_sub_one]

lemma mem_region_iff (a : Arch) (hpos : 2 ^ order ∣ pos) (j : ℕ) :
    (pos / a.bitsPerLong ≤ j / a.bitsPerLong ∧
      j / a.bitsPerLong < pos / a.bitsPerLong + nlongsReg a.bitsPerLong order) ∧
      (regMask a.bitsPerLong pos order).getLsbD (j % a.bitsPerLong) = true ↔
    pos ≤ j ∧ j < pos + 2 ^ order := by
  obtain ⟨e, he⟩ : ∃ e, a.bitsPerLong = 2 ^ e := by
    cases a
    · exact ⟨5, rfl⟩
    · exact ⟨6, rfl⟩
  have hw := a.bitsPerLong_pos
  have hmod := Nat.mod_lt j hw
  have hn : 1 ≤ min (2 ^ order) a.bitsPerLong := le_min (Nat.two_pow_pos order) hw
  rw [regMask, getLsbD_shiftLeft, getLsbD_low_mask hn (min_le_right _ _), nlongsReg, bitsToLongs]
  simp only [hmod, decide_true, true_and, Bool.and_eq_true, Bool.not_eq_true',
    decide_eq_false_iff_not, decide_eq_true_eq]
  rcases lt_or_ge order e with hlt | hge
  · cases a
    all_goals
      simp only [Arch.bitsPerLong] at he hmod ⊢
      have hlt' : order < 6 := hlt.trans_le
        ((Nat.pow_le_pow_iff_right (show 1 < 2 by decide)).1 (show 2 ^ e ≤ 2 ^ 6 by omega))
      interval_cases order <;> omega
  · obtain ⟨m, hm⟩ : a.bitsPerLong ∣ 2 ^ order := he ▸ pow_dvd_pow 2 hge
    obtain ⟨q, hq⟩ : a.bitsPerLong ∣ pos := (Dvd.intro m hm.symm).trans hpos
    rw [hm]
    cases a
    all_goals
      simp only [Arch.bitsPerLong] at hmod hq ⊢
      omega

end Mask

section
variable (a : Arch) {bitmap : List (BitVec a.bitsPerLong)} {pos order : ℕ} (hpos : 2 ^ order ∣ pos)
    (h : pos / a.bitsPerLong + nlongsReg a.bitsPerLong order ≤ bitmap.length)
include hpos h

lemma regOp_isfree : ∃ free, regOp bitmap pos order .isfree = some (free, bitmap) ∧
      (free = true ↔ Clear bitmap pos (2 ^ order)) := by
  have hw := a.bitsPerLong_pos
  have hmem := mem_region_iff a hpos
  rw [regOp]
  have hrule := @forBreak_rule Unit Unit
    (fun i _ => bitmap[pos / a.bitsPerLong + i]?.map fun (v : BitVec a.bitsPerLong) =>
      if v &&& regMask a.bitsPerLong pos order ≠ 0#a.bitsPerLong then Round.done () else .next ())
    (fun k _ => ∀ j, pos / a.bitsPerLong ≤ j / a.bitsPerLong → j / a.bitsPerLong <
      pos / a.bitsPerLong + k → (regMask a.bitsPerLong pos order).getLsbD (j % a.bitsPerLong) = true →
      bit bitmap j = false)
    (fun _ => ¬ Clear bitmap pos (2 ^ order)) (nlongsReg a.bitsPerLong order) ?_ _ 0 ()
    (zero_add _) (fun j h1 h2 => absurd h2 (by omega))
  · rcases hrule with ⟨_, hloop, hclear⟩ | ⟨_, hloop, hbusy⟩
    · rw [hloop]
      refine ⟨true, rfl, iff_of_true rfl fun j h1 h2 => ?_⟩
      obtain ⟨hword, hmask⟩ := (hmem j).2 ⟨h1, h2⟩
      exact hclear j hword.1 hword.2 hmask
    · rw [hloop]
      exact ⟨false, rfl, iff_of_false Bool.false_ne_true hbusy⟩
  intro k _ hk hclear
  have hlt : pos / a.bitsPerLong + k < bitmap.length := by omega
  have hget := List.getElem?_eq_getElem hlt
  rw [hget, Option.map_some]
  by_cases hand : bitmap[pos / a.bitsPerLong + k] &&& regMask a.bitsPerLong pos order = 0#a.bitsPerLong
  · refine .inl ⟨(), by rw [if_neg (not_not_intro hand)], fun j h1 h2 hmask => ?_⟩
    by_cases hj : j / a.bitsPerLong < pos / a.bitsPerLong + k
    · exact hclear j h1 hj hmask
    · have hj' : j / a.bitsPerLong = pos / a.bitsPerLong + k := by omega
      have hbit := congrArg (getLsbD · (j % a.bitsPerLong)) hand
      rw [bit_word (by rw [hj']; exact hget)]
      simpa [getLsbD_and, hmask] using hbit
  · refine .inr ⟨(), by rw [if_pos hand], fun hfree => hand ?_⟩
    refine eq_of_getLsbD_eq fun i hi => ?_
    rw [getLsbD_and, getLsbD_zero, Bool.and_eq_false_iff, or_iff_not_imp_right, Bool.not_eq_false]
    intro hmask
    have hdiv : ((pos / a.bitsPerLong + k) * a.bitsPerLong + i) / a.bitsPerLong =
        pos / a.bitsPerLong + k := by
      rw [mul_comm, Nat.mul_add_div hw, Nat.div_eq_of_lt hi, add_zero]
    have hin := (hmem ((pos / a.bitsPerLong + k) * a.bitsPerLong + i)).1
      ⟨by omega, by rw [Nat.mul_add_mod', Nat.mod_eq_of_lt hi]; exact hmask⟩
    rw [← bit_of_getElem? hget hi]
    exact hfree _ hin.1 hin.2

lemma regOp_alloc : ∃ bitmap', regOp bitmap pos order .alloc = some (false, bitmap') ∧
      bitmap'.length = bitmap.length ∧
      ∀ j, bit bitmap' j = (decide (pos ≤ j ∧ j < pos + 2 ^ order) || bit bitmap j) := by
  obtain ⟨bitmap', hloop, hlen, hbits⟩ := modifyWords_spec a.bitsPerLong_pos
    (fun v i _ => by rw [getLsbD_or, Bool.or_comm]) h
  refine ⟨bitmap', by rw [regOp, hloop]; rfl, hlen, fun j => ?_⟩
  rw [hbits, decide_eq_decide.2 (mem_region_iff a hpos j).symm, Bool.decide_and]
  split_ifs with hj
  · rw [decide_eq_true hj, Bool.true_and, Bool.decide_eq_true]
  · rw [decide_eq_false hj, Bool.false_and, Bool.false_or]

end

section Search
variable {pos order bits limit : ℕ}

lemma region_words {length : ℕ} (hw : 0 < w) (hend : pos + 2 ^ order ≤ length * w) :
    pos / w + nlongsReg w order ≤ length := by
  have hone := Nat.two_pow_pos order
  calc pos / w + nlongsReg w order
      ≤ (pos + (2 ^ order + w - 1)) / w := Nat.div_add_div_le_add_div
    _ ≤ length := Nat.lt_succ_iff.1 ((Nat.div_lt_iff_lt_mul hw).2 (by rw [Nat.succ_mul]; omega))

/-- Where the search ends at the latest: at a free region, or at the end of the bitmap. -/
structure Limit (bitmap : List (BitVec w)) (bits order limit : ℕ) : Prop where
  dvd : 2 ^ order ∣ limit
  le : limit ≤ bits
  free : limit ≠ bits → limit + 2 ^ order ≤ bits ∧ Clear bitmap limit (2 ^ order)

lemma add_le_of_dvd_of_lt {m a b : ℕ} (ha : m ∣ a) (hb : m ∣ b) (hlt : a < b) : a + m ≤ b := by
  have := Nat.le_of_dvd (by omega) (Nat.dvd_sub hb ha)
  omega

section
variable (a : Arch) {bitmap : List (BitVec a.bitsPerLong)} (hint : bits < 2 ^ 31)
    (hbits : bits ≤ bitmap.length * a.bitsPerLong) (hlimit : Limit bitmap bits order limit)
include hint hbits hlimit

/-- The search goes on to the next region, or it ends at a free one or at the end. -/
lemma regionRound_spec (hpos : 2 ^ order ∣ pos) (hle : pos ≤ limit) :
    (regionRound bitmap bits order pos = some (.next (pos + 2 ^ order)) ∧ pos + 2 ^ order ≤ limit ∧
      ¬ Clear bitmap pos (2 ^ order)) ∨
    regionRound bitmap bits order pos = some (.done pos) ∧
      (pos ≠ bits → pos + 2 ^ order ≤ bits ∧ Clear bitmap pos (2 ^ order)) := by
  have hlimit' := hlimit.le
  rw [regionRound]
  by_cases hend : pos < bits
  · have hin : pos + 2 ^ order ≤ bits := by
      rcases lt_or_eq_of_le hle with hlt | rfl
      · exact (add_le_of_dvd_of_lt hpos hlimit.dvd hlt).trans hlimit.le
      · exact (hlimit.free hend.ne).1
    obtain ⟨free, hop, hfree⟩ := regOp_isfree a hpos
      (region_words a.bitsPerLong_pos (hin.trans hbits))
    rw [if_pos hend, hop]
    cases free with
    | true => exact .inr ⟨rfl, fun _ => ⟨hin, hfree.1 rfl⟩⟩
    | false =>
      have hbusy : ¬ Clear bitmap pos (2 ^ order) := fun h => Bool.false_ne_true (hfree.2 h)
      refine .inl ⟨if_pos (by omega), ?_, hbusy⟩
      rcases lt_or_eq_of_le hle with hlt | rfl
      · exact add_le_of_dvd_of_lt hpos hlimit.dvd hlt
      · exact absurd (hlimit.free hend.ne).2 hbusy
  · rw [if_neg hend]
    exact .inr ⟨rfl, fun hne => absurd hne (by omega)⟩

lemma region_loop_spec :
    ∃ pos, loop (regionRound bitmap bits order) 0 = some pos ∧ 2 ^ order ∣ pos ∧
      (pos ≠ bits → pos + 2 ^ order ≤ bits ∧ Clear bitmap pos (2 ^ order)) ∧
      ∀ p, 2 ^ order ∣ p → p < pos → ¬ Clear bitmap p (2 ^ order) := by
  refine loop_rule (P := fun pos => (2 ^ order ∣ pos ∧ pos ≤ limit) ∧
    ∀ p, 2 ^ order ∣ p → p < pos → ¬ Clear bitmap p (2 ^ order)) (fun pos => bits - pos)
    (fun pos ⟨⟨hpos, hle⟩, hnone⟩ => ?_)
    ⟨⟨dvd_zero _, Nat.zero_le _⟩, fun p _ hp => absurd hp (Nat.not_lt_zero p)⟩
  have hle' := hlimit.le
  rcases regionRound_spec a hint hbits hlimit hpos hle with ⟨hround, hnext, hbusy⟩ | ⟨hround, hend⟩
  · refine .inl ⟨_, hround, by omega, ⟨Nat.dvd_add hpos dvd_rfl, hnext⟩, fun p hp hlt => ?_⟩
    rcases Nat.lt_trichotomy p pos with hlt' | rfl | hgt
    · exact hnone p hp hlt'
    · exact hbusy
    · exact absurd (add_le_of_dvd_of_lt hpos hp hgt) (by omega)
  · exact .inr ⟨pos, hround, hpos, hend, hnone⟩

end

lemma dvd_of_region_loop {bitmap : List (BitVec w)}
    (h : loop (regionRound bitmap bits order) 0 = some pos) : 2 ^ order ∣ pos := by
  have hround : ∀ p x, regionRound bitmap bits order p = some x →
      x = .next (p + 2 ^ order) ∨ x = .done p := by
    intro p x hx
    rw [regionRound] at hx
    by_cases hend : p < bits
    · rw [if_pos hend] at hx
      split at hx
      · cases hx
      · exact .inr (Option.some.inj hx).symm
      · split_ifs at hx
        exact .inl (Option.some.inj hx).symm
    · rw [if_neg hend] at hx
      exact .inr (Option.some.inj hx).symm
  refine loop_inv (P := fun p => 2 ^ order ∣ p) (fun p p' hp hx => ?_) (fun p r hp hx => ?_)
    (dvd_zero _) h
  · rcases hround p _ hx with heq | heq
    · exact Round.next.inj heq ▸ Nat.dvd_add hp dvd_rfl
    · cases heq
  · rcases hround p _ hx with heq | heq
    · cases heq
    · exact Round.done.inj heq ▸ hp

/-- `bitmap_find_free_region` takes an aligned free region inside of the bitmap, and sets the bits
of this region only, or returns `-ENOMEM` when there is no such region, exactly for bitmaps that
end with a region or have a free one. -/
theorem bitmap_find_free_region_inside (a : Arch) (bitmap : List (BitVec a.bitsPerLong))
    (bits order : ℕ) (hint : bits < 2 ^ 31) (hbits : bits ≤ bitmap.length * a.bitsPerLong) :
    ((bitmapFindFreeRegion bitmap bits order = some (-enomem, bitmap) ∧
      ∀ p, 2 ^ order ∣ p → p + 2 ^ order ≤ bits → ¬ Clear bitmap p (2 ^ order)) ∨
    ∃ (pos : ℕ) (bitmap' : List (BitVec a.bitsPerLong)),
      bitmapFindFreeRegion bitmap bits order = some (↑pos, bitmap') ∧ 2 ^ order ∣ pos ∧
      pos + 2 ^ order ≤ bits ∧ Clear bitmap pos (2 ^ order) ∧ bitmap'.length = bitmap.length ∧
      ∀ j, bit bitmap' j = (decide (pos ≤ j ∧ j < pos + 2 ^ order) || bit bitmap j)) ↔
    (2 ^ order ∣ bits ∨
      ∃ p, 2 ^ order ∣ p ∧ p + 2 ^ order ≤ bits ∧ Clear bitmap p (2 ^ order)) := by
  constructor
  · rintro (⟨hfind, -⟩ | ⟨pos, -, -, hpos, hin, hclear, -⟩)
    · refine .inl ?_
      rw [bitmapFindFreeRegion] at hfind
      cases hloop : loop (regionRound bitmap bits order) 0 with
      | none => simp [hloop] at hfind
      | some pos =>
        simp only [hloop] at hfind
        split_ifs at hfind with hend
        · exact hend ▸ dvd_of_region_loop hloop
        · obtain ⟨r, -, hr⟩ := Option.map_eq_some_iff.1 hfind
          have hneg := congrArg Prod.fst hr
          simp only [enomem] at hneg
          omega
    · exact .inr ⟨pos, hpos, hin, hclear⟩
  intro hregion
  obtain ⟨limit, hlimit⟩ : ∃ limit, Limit bitmap bits order limit := by
    rcases hregion with hdvd | ⟨p, hp, hend, hclear⟩
    · exact ⟨bits, hdvd, le_rfl, fun hne => absurd rfl hne⟩
    · exact ⟨p, hp, by omega, fun _ => ⟨hend, hclear⟩⟩
  obtain ⟨pos, hloop, hpos, hfree, hnone⟩ := region_loop_spec a hint hbits hlimit
  rw [bitmapFindFreeRegion, hloop]
  dsimp only
  by_cases hend : pos = bits
  · subst hend
    rw [if_pos rfl]
    exact .inl ⟨rfl, fun p hp hlt => hnone p hp (by omega)⟩
  · obtain ⟨hin, hclear⟩ := hfree hend
    obtain ⟨bitmap', hop, hlen, hset⟩ := regOp_alloc a hpos
      (region_words a.bitsPerLong_pos (hin.trans hbits))
    rw [if_neg hend, hop]
    exact .inr ⟨pos, bitmap', rfl, hpos, hin, hclear, hlen, hset⟩

/-- Four bits, of which the first is in use: the region of two bits is the second one. -/
theorem bitmap_find_free_region_inside_four :
    ∃ (pos : ℕ) (bitmap' : List (BitVec 32)),
      bitmapFindFreeRegion [(1 : BitVec 32)] 4 1 = some (↑pos, bitmap') ∧ pos + 2 ≤ 4 := by
  rcases (bitmap_find_free_region_inside .bits32 [(1 : BitVec 32)] 4 1 (by decide)
      (by decide)).2 (.inl (by decide)) with ⟨-, hnone⟩ | ⟨pos, bitmap', hfind, -, hin, -⟩
  · refine absurd (fun j h1 h2 => ?_) (hnone 2 (by decide) (by decide))
    rcases (show j = 2 ∨ j = 3 by omega) with rfl | rfl <;> decide
  · exact ⟨pos, bitmap', hfind, hin⟩

/-- Three bits, of which the first is in use: the region of two bits that is found ends behind
the bitmap. -/
theorem bitmap_find_free_region_past_end :
    bitmapFindFreeRegion [(1 : BitVec 32)] 3 1 = some (2, [13]) ∧ ¬ 2 + 2 ^ 1 ≤ 3 := by
  have hfirst : regionRound [(1 : BitVec 32)] 3 1 0 = some (.next 2) := by decide +kernel
  have hloop : loop (regionRound [(1 : BitVec 32)] 3 1) 0 = some 2 := by
    rw [loop_eq, hfirst, Option.bind_some, Round.elim, loop_eq]
    rfl
  rw [bitmapFindFreeRegion, hloop]
  decide +kernel

end Search

end BooxKernel.Bitmap
