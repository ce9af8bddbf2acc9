import BooxKernel.Lib.Words
import BooxKernel.Raid6.Field

/-!
# The syndrome that the integer variants compute

The operations on words work on each byte of a word alone, so that the words of P and Q
hold, byte by byte, the sum of the data and the sum of the data weighted with the powers
of the generator, whatever the size and the byte order of a word and the unrolling are.
-/
namespace BooxKernel.Raid6

open BinaryFields Lanes List Nat

namespace Native
variable (w : Native) {k : ℕ}

lemma nbytes_eq (c : ℕ) : w.nbytes c = w.wrap (Nat.ofDigits (2 ^ 8) (replicate w.nsize c)) := by
  cases w <;> simp only [nbytes, wrap, nsize, replicate, ofDigits] <;> congr 1 <;>
    push_cast <;> ring

lemma lane_nbytes {c : ℕ} (hc : c < 2 ^ 8) (k : ℕ) :
    lane 8 k (w.nbytes c) = if k < w.nsize then c else 0 := by
  rw [nbytes_eq, wrap]
  split_ifs with hk
  · rw [lane_mod hk, lane_ofDigits]
    · exact getElem_replicate _
    · intro a ha
      rw [eq_of_mem_replicate ha]
      exact hc
    · rw [length_replicate]
      exact hk
  · have hlt : ofDigits (2 ^ 8) (replicate w.nsize c) % 2 ^ (8 * w.nsize) < 2 ^ (8 * k) :=
      lt_of_lt_of_le (mod_lt _ (by positivity)) (Nat.pow_le_pow_right (by norm_num) (by omega))
    rw [lane, div_eq_of_lt hlt, zero_mod]

lemma lane_shlbyte (hk : k < w.nsize) (v : ℕ) :
    lane 8 k (w.shlbyte v) = 2 * lane 8 k v % 2 ^ 8 := by
  have hfe : ∀ i, testBit 0xfe i = (decide (i < 8) && decide (i ≠ 0)) := by
    intro i
    by_cases hi : i < 8
    · interval_cases i <;> rfl
    · rw [testBit_lt_two_pow (lt_of_lt_of_le (by norm_num : 0xfe < 2 ^ 8)
        (Nat.pow_le_pow_right (by norm_num) (not_lt.1 hi)))]
      simp [hi]
  rw [shlbyte, lane_and, lane_nbytes w (by norm_num), if_pos hk, wrap, lane_mod hk]
  refine eq_of_testBit_eq fun i => ?_
  rw [testBit_and, testBit_lane, hfe, testBit_mod_two_pow]
  cases i with
  | zero => simp
  | succ i =>
    rw [testBit_succ, Nat.mul_div_cancel_left _ (by norm_num), testBit_lane]
    by_cases hi : i + 1 < 8
    · have hpred : 8 * k + (i + 1) - 1 = 8 * k + i := by omega
      have hlow : i < 8 := by omega
      have hge : 1 ≤ 8 * k + (i + 1) := by omega
      simp [hi, hlow, hpred, hge]
    · simp [hi]

/-- The high bits of the bytes, each in the lowest place of its byte. -/
def highBits (v : ℕ) : ℕ := (v &&& w.nbytes 0x80) >>> 7

lemma and_nbytes_eq (v : ℕ) : v &&& w.nbytes 0x80 = 2 ^ 7 * w.highBits v := by
  have hlow : w.nbytes 0x80 % 2 ^ 7 = 0 := by
    cases w <;> decide
  have hmod : (v &&& w.nbytes 0x80) % 2 ^ 7 = 0 := by
    rw [and_mod_two_pow, hlow, and_zero]
  rw [highBits]
  omega

lemma lane_highBits (k v : ℕ) :
    lane 8 k (w.highBits v) = if k < w.nsize ∧ (lane 8 k v).testBit 7 then 1 else 0 := by
  have hones : w.nbytes 0x80 >>> 7 = w.nbytes 1 := by
    cases w <;> decide
  rw [highBits, shiftRight_and_distrib, hones, lane_and, lane_nbytes w (by norm_num)]
  by_cases hk : k < w.nsize
  · have hbit : (lane 8 k (v >>> 7)) % 2 = ((lane 8 k v).testBit 7).toNat := by
      have hsame : (lane 8 k (v >>> 7)).testBit 0 = (lane 8 k v).testBit 7 := by
        rw [testBit_lane, testBit_lane]
        simp [add_comm]
      rw [← hsame, testBit_zero]
      rcases mod_two_eq_zero_or_one (lane 8 k (v >>> 7)) with h | h <;> rw [h] <;> rfl
    rw [if_pos hk, and_one_is_mod, hbit]
    cases h : (lane 8 k v).testBit 7 <;> simp [hk]
  · simp [hk]

lemma lane_mask (hk : k < w.nsize) (v : ℕ) :
    lane 8 k (w.mask v) = if (lane 8 k v).testBit 7 then 0xff else 0 := by
  have hmask : w.mask v = w.wrap (255 * w.highBits v) := by
    have hsmall : w.highBits v ≤ 2 ^ (8 * w.nsize) := by
      have hbytes : w.nbytes 0x80 ≤ 2 ^ (8 * w.nsize) := by
        cases w <;> decide
      have := and_le_right (n := v) (m := w.nbytes 0x80)
      rw [and_nbytes_eq] at this
      omega
    have hshift : (v &&& w.nbytes 0x80) <<< 1 = 255 * w.highBits v + w.highBits v := by
      rw [shiftLeft_eq, and_nbytes_eq]
      ring
    unfold mask wrap
    dsimp only
    rw [hshift, ← highBits, mod_add_mod, add_assoc, Nat.add_sub_cancel' hsmall, add_mod_right]
  have hfit : ∀ j, 255 * lane 8 j (w.highBits v) < 2 ^ 8 := by
    intro j
    rw [lane_highBits]
    split_ifs <;> norm_num
  rw [hmask, wrap, lane_mod hk, lane_mul hfit, lane_highBits]
  simp [hk]

end Native

namespace Arch
variable (a : Arch) {k : ℕ}

section
variable (hk : k < a.native.nsize)
include hk

lemma lane_fold (wd : ℕ) (s : ℕ × ℕ) :
    lane 8 k (a.fold wd s).1 = lane 8 k s.1 ^^^ lane 8 k wd ∧
      lane 8 k (a.fold wd s).2 = shift 8 0x1d (lane 8 k s.2) ^^^ lane 8 k wd := by
  refine ⟨lane_xor 8 k _ _, ?_⟩
  simp only [fold]
  rw [lane_xor, lane_xor, lane_and, a.native.lane_mask hk, a.native.lane_shlbyte hk,
    a.native.lane_nbytes (by norm_num), shift]
  split_ifs <;> rfl

lemma place_lt : a.place k < a.native.nsize := by
  cases h : a.endian <;> (simp only [place, h]; omega)

lemma place_place : a.place (a.place k) = k := by
  cases h : a.endian with
  | little => simp only [place, h]
  | big =>
    simp only [place, h]
    omega

lemma lane_load (page : Page) (d : ℕ) :
    lane 8 (a.place k) (a.load page d) = (page (d + k)).toNat := by
  rw [load, lane_ofDigits]
  · rw [getElem_map, getElem_range, a.place_place hk]
  · intro b hb
    obtain ⟨j, -, rfl⟩ := mem_map.1 hb
    exact BitVec.isLt _
  · rw [length_map, length_range]
    exact a.place_lt hk

end

lemma store_apply (m : Memory) (b : Addr) (d w : ℕ) (c : Addr) (o : ℕ) :
    a.store m b d w c o =
      if c = b ∧ d ≤ o ∧ o < d + a.native.nsize then
        BitVec.ofNat 8 (lane 8 (a.place (o - d)) w)
      else m c o := by
  rw [store, Function.update_apply]
  by_cases hc : c = b
  · subst hc
    simp only [true_and]
    refine if_congr Iff.rfl ?_ rfl
    refine BitVec.eq_of_toNat_eq ?_
    rw [BitVec.toNat_ofNat, BitVec.toNat_ofNat, lane, mod_mod, shiftRight_eq_div_pow]
  · rw [if_neg hc, if_neg fun h => hc h.1]

lemma storeAll_apply (b : Addr) (d : ℕ) (ws : List ℕ) (m : Memory) (c : Addr) (o : ℕ) :
    a.storeAll b d ws m c o =
      if c = b ∧ d ≤ o ∧ o < d + a.native.nsize * ws.length then
        BitVec.ofNat 8 (lane 8 (a.place ((o - d) % a.native.nsize))
          (ws.getD ((o - d) / a.native.nsize) 0))
      else m c o := by
  have hpos := nsize_pos a.native
  induction ws generalizing d m with
  | nil =>
    rw [storeAll, if_neg]
    rintro ⟨-, hle, hlt⟩
    rw [length_nil] at hlt
    omega
  | cons w ws ih =>
    have hlen : a.native.nsize * (w :: ws).length =
        a.native.nsize + a.native.nsize * ws.length := by
      rw [length_cons, mul_succ, add_comm]
    rw [storeAll, ih, store_apply, hlen]
    by_cases hc : c = b
    · by_cases hbelow : o < d + a.native.nsize
      · rw [if_neg fun h => absurd h.2.1 (by omega)]
        by_cases hd : d ≤ o
        · have hword : (o - d) / a.native.nsize = 0 := div_eq_of_lt (by omega)
          rw [if_pos ⟨hc, hd, hbelow⟩, if_pos ⟨hc, hd, by omega⟩, hword, mod_eq_of_lt (by omega)]
          rfl
        · rw [if_neg fun h => hd h.2.1, if_neg fun h => hd h.2.1]
      · obtain ⟨t, rfl⟩ : ∃ t, o = d + a.native.nsize + t := ⟨o - (d + a.native.nsize), by omega⟩
        have hoff : d + a.native.nsize + t - d = t + a.native.nsize := by omega
        have hcond : (c = b ∧ d + a.native.nsize ≤ d + a.native.nsize + t ∧
            d + a.native.nsize + t < d + a.native.nsize + a.native.nsize * ws.length) ↔
            (c = b ∧ d ≤ d + a.native.nsize + t ∧
              d + a.native.nsize + t < d + (a.native.nsize + a.native.nsize * ws.length)) := by
          refine and_congr_right fun _ => ?_
          omega
        refine if_congr hcond ?_ (if_neg fun h => absurd h.2.2 (by omega))
        rw [hoff, Nat.add_sub_cancel_left, add_mod_right, add_div_right _ hpos]
        rfl
    · rw [if_neg fun h => hc h.1, if_neg fun h => hc h.1, if_neg fun h => hc h.1]

variable {K : Type*} [Field K] {x : K} {ptrs : ℕ → Addr}

lemma val_ofNat_lane (k w : ℕ) : val x (BitVec.ofNat 8 (lane 8 k w)) = value 8 x (lane 8 k w) := by
  rw [val, BitVec.toNat_ofNat, lane, mod_mod]

section
variable (hx : Realizes 8 0x1d K x)
include hx

/-- The inner loop sums up the data, and the data weighted with powers of `x`. -/
lemma value_foldDown (m : Memory) (ptrs : ℕ → Addr) (o : ℕ) (hk : k < a.native.nsize) (z : ℕ)
    (s : ℕ × ℕ) :
    value 8 x (lane 8 (a.place k) (a.foldDown m ptrs o z s).1) =
        value 8 x (lane 8 (a.place k) s.1) + ∑ j ∈ Finset.range z, val x (m (ptrs j) (o + k)) ∧
      value 8 x (lane 8 (a.place k) (a.foldDown m ptrs o z s).2) =
        x ^ z * value 8 x (lane 8 (a.place k) s.2) +
          ∑ j ∈ Finset.range z, x ^ j * val x (m (ptrs j) (o + k)) := by
  have := hx.char
  induction z generalizing s with
  | zero => simp [foldDown]
  | succ z ih =>
    obtain ⟨hp, hq⟩ := ih (a.fold (a.load (m (ptrs z)) o) s)
    obtain ⟨hfst, hsnd⟩ := a.lane_fold (a.place_lt hk) (a.load (m (ptrs z)) o) s
    have hload : value 8 x (lane 8 (a.place k) (a.load (m (ptrs z)) o)) =
      val x (m (ptrs z) (o + k)) := by
      rw [a.lane_load hk]
      rfl
    rw [foldDown, hp, hq, hfst, hsnd, value_xor, value_xor, value_shift hx.pos hx.root, hload,
      Finset.sum_range_succ, Finset.sum_range_succ]
    constructor <;> ring

lemma value_syndrome (m : Memory) (ptrs : ℕ → Addr) (z0 o : ℕ) (hk : k < a.native.nsize) :
    value 8 x (lane 8 (a.place k) (a.syndrome m ptrs z0 o).1) =
        ∑ j ∈ Finset.range (z0 + 1), val x (m (ptrs j) (o + k)) ∧
      value 8 x (lane 8 (a.place k) (a.syndrome m ptrs z0 o).2) =
        ∑ j ∈ Finset.range (z0 + 1), x ^ j * val x (m (ptrs j) (o + k)) := by
  have hload : value 8 x (lane 8 (a.place k) (a.load (m (ptrs z0)) o)) =
      val x (m (ptrs z0) (o + k)) := by
    rw [a.lane_load hk]
    rfl
  obtain ⟨hp, hq⟩ := a.value_foldDown hx m ptrs o hk z0
    (a.load (m (ptrs z0)) o, a.load (m (ptrs z0)) o)
  rw [syndrome, hp, hq, hload, Finset.sum_range_succ, Finset.sum_range_succ]
  constructor <;> ring

end

/-- `m'` is `m` after the parities of the data were written at the offsets where `At`. -/
structure Written (x : K) (ptrs : ℕ → Addr) (z0 : ℕ) (At : ℕ → Prop) (m m' : Memory) : Prop where
  frame : ∀ c, c ≠ ptrs (z0 + 1) → c ≠ ptrs (z0 + 2) → m' c = m c
  outside : ∀ c o, ¬ At o → m' c o = m c o
  p : ∀ o, At o → val x (m' (ptrs (z0 + 1)) o) = ∑ j ∈ Finset.range (z0 + 1), val x (m (ptrs j) o)
  q : ∀ o, At o → val x (m' (ptrs (z0 + 2)) o) =
    ∑ j ∈ Finset.range (z0 + 1), x ^ j * val x (m (ptrs j) o)

/-- The parities are two pages that are no data. -/
structure Apart (ptrs : ℕ → Addr) (z0 : ℕ) : Prop where
  parity : ptrs (z0 + 1) ≠ ptrs (z0 + 2)
  p : ∀ j ≤ z0, ptrs j ≠ ptrs (z0 + 1)
  q : ∀ j ≤ z0, ptrs j ≠ ptrs (z0 + 2)

lemma getD_words (f : ℕ → ℕ × ℕ) (g : ℕ × ℕ → ℕ) {j : ℕ} (hj : j < a.unroll) :
    (((range a.unroll).map f).map g).getD j 0 = g (f j) := by
  simp [getD_eq_getElem?_getD, hj]

lemma genRound_written (hx : Realizes 8 0x1d K x) {z0 : ℕ} (h : Apart ptrs z0) (d : ℕ)
    (m : Memory) :
    Written x ptrs z0 (fun o => d ≤ o ∧ o < d + a.native.nsize * a.unroll) m
      (a.genRound ptrs z0 d m) := by
  have hpos := nsize_pos a.native
  have hword : ∀ o, d ≤ o → o < d + a.native.nsize * a.unroll →
      (o - d) / a.native.nsize < a.unroll ∧ (o - d) % a.native.nsize < a.native.nsize ∧
        d + (o - d) / a.native.nsize * a.native.nsize + (o - d) % a.native.nsize = o := by
    intro o hd ho
    refine ⟨(div_lt_iff_lt_mul hpos).2 ?_, mod_lt _ hpos, ?_⟩
    · rw [mul_comm]
      omega
    · rw [add_assoc, mul_comm, div_add_mod, Nat.add_sub_cancel' hd]
  unfold genRound
  constructor
  · intro c hp hq
    funext o
    rw [storeAll_apply, if_neg fun h => hq h.1, storeAll_apply, if_neg fun h => hp h.1]
  · intro c o ho
    have hlen : ∀ g : ℕ × ℕ → ℕ, (((range a.unroll).map fun k =>
        a.syndrome m ptrs z0 (d + k * a.native.nsize)).map g).length = a.unroll := by simp
    rw [storeAll_apply, hlen, if_neg fun h => ho h.2, storeAll_apply, hlen, if_neg fun h => ho h.2]
  · rintro o ⟨hd, ho⟩
    obtain ⟨hj, hk, hsplit⟩ := hword o hd ho
    rw [storeAll_apply, if_neg fun heq => h.parity heq.1, storeAll_apply,
      if_pos ⟨rfl, hd, by simpa using ho⟩, a.getD_words _ _ hj, val_ofNat_lane,
      (a.value_syndrome hx m ptrs z0 _ hk).1, hsplit]
  · rintro o ⟨hd, ho⟩
    obtain ⟨hj, hk, hsplit⟩ := hword o hd ho
    rw [storeAll_apply, if_pos ⟨rfl, hd, by simpa using ho⟩, a.getD_words _ _ hj, val_ofNat_lane,
      (a.value_syndrome hx m ptrs z0 _ hk).2, hsplit]

lemma Written.trans {z0 : ℕ} (h : Apart ptrs z0) {At At' : ℕ → Prop} {m m' m'' : Memory}
    (hfirst : Written x ptrs z0 At m m') (hnext : Written x ptrs z0 At' m' m'')
    (hdisj : ∀ o, At o → ¬ At' o) : Written x ptrs z0 (fun o => At o ∨ At' o) m m'' := by
  have hdata : ∀ j ∈ Finset.range (z0 + 1), m' (ptrs j) = m (ptrs j) := by
    intro j hj
    have hle := le_of_lt_succ (Finset.mem_range.1 hj)
    exact hfirst.frame _ (h.p j hle) (h.q j hle)
  constructor
  · intro c hp hq
    rw [hnext.frame c hp hq, hfirst.frame c hp hq]
  · intro c o ho
    rw [hnext.outside c o fun hat => ho (.inr hat), hfirst.outside c o fun hat => ho (.inl hat)]
  · rintro o (ho | ho)
    · rw [hnext.outside _ o (hdisj o ho), hfirst.p o ho]
    · rw [hnext.p o ho]
      exact Finset.sum_congr rfl fun j hj => by rw [hdata j hj]
  · rintro o (ho | ho)
    · rw [hnext.outside _ o (hdisj o ho), hfirst.q o ho]
    · rw [hnext.q o ho]
      exact Finset.sum_congr rfl fun j hj => by rw [hdata j hj]

lemma genLoop_written (hx : Realizes 8 0x1d K x) {z0 : ℕ} (h : Apart ptrs z0) (rounds d : ℕ)
    (m : Memory) :
    Written x ptrs z0 (fun o => d ≤ o ∧ o < d + a.native.nsize * a.unroll * rounds) m
      (a.genLoop ptrs z0 (d + a.native.nsize * a.unroll * rounds) d m) := by
  have hstep := a.step_pos
  induction rounds generalizing d m with
  | zero =>
    rw [mul_zero, add_zero, genLoop, if_neg (lt_irrefl d)]
    exact ⟨fun _ _ _ => rfl, fun _ _ _ => rfl, fun o ho => absurd ho.2 (not_lt.2 ho.1),
      fun o ho => absurd ho.2 (not_lt.2 ho.1)⟩
  | succ rounds ih =>
    have hsum : d + a.native.nsize * a.unroll * (rounds + 1) =
        d + a.native.nsize * a.unroll + a.native.nsize * a.unroll * rounds := by
      ring
    have hrest := ih (d + a.native.nsize * a.unroll) (a.genRound ptrs z0 d m)
    have hall := (a.genRound_written hx h d m).trans h hrest fun o ho hat => by omega
    rw [genLoop, if_pos (by rw [hsum]; omega)]
    convert hall using 2 with o
    omega

lemma genSyndrome_written (hx : Realizes 8 0x1d K x) {disks : ℕ} (h : Apart ptrs (disks - 3))
    (m : Memory) :
    Written x ptrs (disks - 3) (fun o => o < a.stripeSize) m
      (a.genSyndrome disks a.stripeSize ptrs m) := by
  obtain ⟨rounds, hrounds⟩ := a.aligned
  have hall := a.genLoop_written hx h rounds 0 m
  rw [zero_add, ← hrounds] at hall
  rw [genSyndrome]
  simpa only [zero_le, true_and] using hall

end Arch

end BooxKernel.Raid6
