import BooxKernel.Raid10.Model
import Mathlib.Tactic

/-!
# Where the copies are

The chunks of the array, each of them `near` times in a row, are numbered one after the other,
and these pieces are laid out over the devices like the chunks of a RAID-0 array. A far copy is
`near` devices further on and lower down. `Arrangement` is this layout; the code follows it
when the copies of a chunk never begin a new stripe, or when a stripe is one row high.
-/
namespace BooxKernel.Raid10
open List Nat

/-- A layout of `rows` stripes over `disks` devices. -/
structure Arrangement where
  disks : ℕ
  near : ℕ
  far : ℕ
  rows : ℕ
  /-- The far copies of a stripe follow it. -/
  offset : Bool
  near_pos : 0 < near
  far_pos : 0 < far
  fits : near * far ≤ disks

namespace Arrangement

variable (g : Arrangement) {p f n k c n' f' size o : ℕ}

lemma near_le : g.near ≤ g.disks := (Nat.le_mul_of_pos_right _ g.far_pos).trans g.fits

lemma disks_pos : 0 < g.disks := g.near_pos.trans_le g.near_le

/-- The device of the far copy `f` of the piece `p`. -/
def device (p f : ℕ) : ℕ := (p + f * g.near) % g.disks

/-- The row of the piece `p`. -/
def base (p : ℕ) : ℕ := if g.offset then p / g.disks * g.far else p / g.disks

/-- How far down the next far copy is. -/
def step : ℕ := if g.offset then 1 else g.rows

/-- The row of the far copy `f` of the piece `p`. -/
def row (p f : ℕ) : ℕ := g.base p + f * g.step

/-- The number of chunks. -/
def chunks : ℕ := g.rows * g.disks / g.near

lemma far_offset_lt (hf : f < g.far) : f * g.near < g.disks := by
  have hlt := mul_lt_mul_of_pos_right hf g.near_pos
  have hfits := g.fits
  rw [mul_comm] at hfits
  omega

lemma device_lt (p f : ℕ) : g.device p f < g.disks := mod_lt _ g.disks_pos

lemma device_succ (p f : ℕ) :
    g.device p (f + 1) = if g.disks ≤ g.device p f + g.near then
      g.device p f + g.near - g.disks else g.device p f + g.near := by
  have hlt := g.device_lt p f
  have hnear := g.near_le
  have hmod : g.device p (f + 1) = (g.device p f + g.near) % g.disks := by
    rw [device, device, mod_add_mod, add_mul, one_mul, add_assoc]
  rw [hmod]
  split_ifs with hwrap
  · rw [mod_eq_sub_mod hwrap, mod_eq_of_lt (by omega)]
  · exact mod_eq_of_lt (by omega)

lemma row_succ (p f : ℕ) : g.row p (f + 1) = g.row p f + g.step := by
  rw [row, row, add_mul, one_mul, add_assoc]

@[simp] lemma device_zero (p : ℕ) : g.device p 0 = p % g.disks := by simp [device]

@[simp] lemma row_zero (p : ℕ) : g.row p 0 = g.base p := by simp [row]

lemma next_of_last (h : g.disks ≤ p % g.disks + 1) :
    (p + 1) % g.disks = 0 ∧ (p + 1) / g.disks = p / g.disks + 1 := by
  have hmod := mod_lt p g.disks_pos
  have hsucc : p + 1 = g.disks * (p / g.disks + 1) := by
    have hp := div_add_mod p g.disks
    rw [mul_add]
    omega
  rw [hsucc]
  exact ⟨mul_mod_right _ _, Nat.mul_div_cancel_left _ g.disks_pos⟩

lemma next_of_not_last (h : ¬ g.disks ≤ p % g.disks + 1) :
    (p + 1) % g.disks = p % g.disks + 1 ∧ (p + 1) / g.disks = p / g.disks := by
  have hsucc : p + 1 = p % g.disks + 1 + g.disks * (p / g.disks) := by
    have hp := mod_add_div p g.disks
    omega
  have hlt : p % g.disks + 1 < g.disks := by omega
  constructor
  · rw [hsucc, add_mul_mod_self_left, mod_eq_of_lt hlt]
  · rw [hsucc, add_mul_div_left _ _ g.disks_pos, div_eq_of_lt hlt, zero_add]

/-- Copies of one chunk that begin the next stripe find it one row further down. -/
def Regular : Prop := g.offset = true → g.far = 1 ∨ g.near ∣ g.disks ∨ g.rows < 2

lemma Regular.base_next {g : Arrangement} (hreg : g.Regular) (h : g.disks ≤ p % g.disks + 1)
    (hp : p + 1 < g.rows * g.disks) (hk : p + 1 + (k + 1) = (c + 1) * g.near)
    (hnear : k + 1 < g.near) : g.base (p + 1) = g.base p + 1 := by
  obtain ⟨hmod, hdiv⟩ := g.next_of_last h
  rw [base, base, hdiv]
  cases hoffset : g.offset with
  | false => simp
  | true =>
    rcases hreg hoffset with hfar | hdvd | hrows
    · simp [hfar]
    · exfalso
      have hp : g.near ∣ p + 1 := hdvd.trans (dvd_of_mod_eq_zero hmod)
      have hrest : g.near ∣ k + 1 := (Nat.dvd_add_right hp).1 (hk ▸ dvd_mul_left _ _)
      exact absurd (le_of_dvd (by omega) hrest) (by omega)
    · have hle := le_of_dvd (succ_pos p) (dvd_of_mod_eq_zero hmod)
      have hone := Nat.mul_le_mul_right g.disks (Nat.le_of_lt_succ hrows)
      omega

lemma div_lt_rows (hp : p < g.rows * g.disks) : p / g.disks < g.rows :=
  (div_lt_iff_lt_mul g.disks_pos).2 hp

lemma row_lt (hp : p < g.rows * g.disks) (hf : f < g.far) : g.row p f < g.rows * g.far := by
  have hrow := g.div_lt_rows hp
  rw [row, base, step]
  cases g.offset with
  | true =>
    have hmul := mul_le_mul_right g.far (succ_le_of_lt hrow)
    rw [succ_mul] at hmul
    simp only [if_true, mul_one]
    omega
  | false =>
    have hmul := mul_le_mul_right g.rows (succ_le_of_lt hf)
    rw [succ_mul] at hmul
    rw [mul_comm g.rows]
    simp only [Bool.false_eq_true, if_false]
    omega

lemma piece_lt (hc : c < g.chunks) (hn : n < g.near) : c * g.near + n < g.rows * g.disks := by
  have hle : (c + 1) * g.near ≤ g.rows * g.disks :=
    (mul_le_mul_right _ hc).trans (div_mul_le_self _ _)
  rw [add_mul] at hle
  omega

lemma device_inj (hn : n < g.near) (hf : f < g.far) (hn' : n' < g.near) (hf' : f' < g.far)
    (h : g.device (c * g.near + n) f = g.device (c * g.near + n') f') : n = n' ∧ f = f' := by
  have hlt : ∀ {n f : ℕ}, n < g.near → f < g.far → n + f * g.near < g.disks := by
    intro n f hn hf
    have hmul := mul_le_mul_right g.near (succ_le_of_lt hf)
    have hfits := g.fits
    rw [succ_mul] at hmul
    rw [mul_comm] at hfits
    omega
  have hmod : c * g.near + (n + f * g.near) ≡ c * g.near + (n' + f' * g.near) [MOD g.disks] := by
    simpa [Nat.ModEq, device, add_assoc] using h
  have heq : n + f * g.near = n' + f' * g.near := by
    have hcancel := Nat.ModEq.add_left_cancel' _ hmod
    rwa [Nat.ModEq, mod_eq_of_lt (hlt hn hf), mod_eq_of_lt (hlt hn' hf')] at hcancel
  have hquot := congrArg (· / g.near) heq
  have hrem := congrArg (· % g.near) heq
  simp only [add_mul_div_right _ _ g.near_pos, add_mul_mod_self_right,
    div_eq_of_lt hn, div_eq_of_lt hn', mod_eq_of_lt hn, mod_eq_of_lt hn'] at *
  omega

lemma virt_of_offset (hoffset : g.offset = true) (hf : f < g.far) :
    g.row p f % g.far = f ∧ g.row p f / g.far = p / g.disks ∧
      (if (g.device p f : ℤ) - (f * g.near : ℕ) < 0 then
        (g.device p f : ℤ) - (f * g.near : ℕ) + g.disks
        else (g.device p f : ℤ) - (f * g.near : ℕ)) = (p % g.disks : ℕ) := by
  have hrow : g.row p f = f + p / g.disks * g.far := by
    simp [row, base, step, hoffset, add_comm]
  refine ⟨?_, ?_, ?_⟩
  · rw [hrow, add_mul_mod_self_right, mod_eq_of_lt hf]
  · rw [hrow, add_mul_div_right _ _ g.far_pos, div_eq_of_lt hf, zero_add]
  · have hlt := g.far_offset_lt hf
    have hmod := mod_lt p g.disks_pos
    have hdevice : g.device p f = if g.disks ≤ p % g.disks + f * g.near then
        p % g.disks + f * g.near - g.disks else p % g.disks + f * g.near := by
      rw [device, ← mod_add_mod]
      split_ifs with hwrap
      · rw [mod_eq_sub_mod hwrap, mod_eq_of_lt (by omega)]
      · exact mod_eq_of_lt (by omega)
    rw [hdevice]
    split_ifs <;> omega

/-- Where the copies of chunk `disks / near` begin the second stripe, the first row of that
stripe is where the code has a far copy of the chunk before. -/
lemma irregular (hoffset : g.offset = true) (hdvd : ¬ g.near ∣ g.disks)
    (hrows : 2 ≤ g.rows) : 1 ≤ g.disks / g.near ∧ g.disks / g.near < g.chunks ∧
      g.disks / g.near * g.near < g.disks ∧ g.disks < (g.disks / g.near + 1) * g.near ∧
      ∃ n < g.near, g.device ((g.disks / g.near - 1) * g.near + n) 1 = 0 ∧
        g.row ((g.disks / g.near - 1) * g.near + n) 1 = 1 := by
  have hpos := g.near_pos
  have hone : 1 ≤ g.disks / g.near := (Nat.one_le_div_iff hpos).2 g.near_le
  have hdiv := div_add_mod' g.disks g.near
  have hmod := mod_lt g.disks hpos
  have hprev : (g.disks / g.near - 1) * g.near + g.disks % g.near + g.near = g.disks := by
    obtain ⟨m, hm⟩ := exists_eq_succ_of_ne_zero (show g.disks / g.near ≠ 0 by omega)
    rw [hm, succ_mul] at hdiv
    rw [hm, succ_sub_one]
    omega
  have hsucc : (g.disks / g.near + 1) * g.near = g.disks / g.near * g.near + g.near := succ_mul _ _
  refine ⟨hone, ?_, by omega, by omega, g.disks % g.near, hmod, ?_, ?_⟩
  · rw [chunks, ← succ_le_iff, le_div_iff_mul_le hpos, succ_eq_add_one, hsucc]
    have hle := mul_le_mul_right g.disks hrows
    omega
  · rw [device, one_mul, hprev, mod_self]
  · rw [row, base, step, if_pos hoffset, if_pos hoffset, div_eq_of_lt (by omega)]
    omega

/-- The copies of the pieces `p` to `p + k - 1`, with the chunk size `size` and the offset `o`
in the chunk. -/
def slots (size o p k : ℕ) : List Dev :=
  (List.range' p k).flatMap fun p => (List.range' 0 g.far).map fun f =>
    ⟨g.device p f, g.row p f * size + o⟩

lemma length_slots (size o p k : ℕ) : (g.slots size o p k).length = k * g.far := by
  simp [slots, length_flatMap]

lemma mem_slots {d : Dev} : d ∈ g.slots size o p k ↔
    ∃ n < k, ∃ f < g.far, d = ⟨g.device (p + n) f, g.row (p + n) f * size + o⟩ := by
  simp only [slots, mem_flatMap, mem_range'_1, mem_map]
  constructor
  · rintro ⟨q, ⟨hp, hq⟩, f, hf, rfl⟩
    refine ⟨q - p, by omega, f, by omega, ?_⟩
    rw [Nat.add_sub_cancel' hp]
  · rintro ⟨n, hn, f, hf, rfl⟩
    exact ⟨p + n, by omega, f, by omega, rfl⟩

lemma nodup_devnum (size o c : ℕ) :
    ((g.slots size o (c * g.near) g.near).map Dev.devnum).Nodup := by
  have hmap : (g.slots size o (c * g.near) g.near).map Dev.devnum =
      (product (range' (c * g.near) g.near) (range' 0 g.far)).map
        fun x => g.device x.1 x.2 := by
    simp [slots, map_flatMap, product, Function.comp_def]
  rw [hmap]
  refine List.Nodup.map_on ?_ (List.Nodup.product (nodup_range' ..) (nodup_range' ..))
  rintro ⟨p, f⟩ hx ⟨p', f'⟩ hx' h
  rw [pair_mem_product, mem_range'_1, mem_range'_1] at hx hx'
  obtain ⟨n, rfl⟩ := Nat.exists_eq_add_of_le hx.1.1
  obtain ⟨n', rfl⟩ := Nat.exists_eq_add_of_le hx'.1.1
  obtain ⟨rfl, rfl⟩ := g.device_inj (c := c) (by omega) (by omega) (by omega) (by omega) h
  rfl

end Arrangement

end BooxKernel.Raid10
