import BooxKernel.Raid10.Layout

/-!
# `raid10_find_phys` and `raid10_find_virt` follow the arrangement

`run` computes the numbers of an arrangement, rounding included. From there the loops of
`raid10_find_phys` list its slots, and `raid10_find_virt` leads back from each of them.
-/
namespace BooxKernel.Raid10

open Loops Option Arrangement

/-- `conf` is the geometry of `g`, and no `sector_t` overflows. -/
structure Implements (w : ℕ) (conf : Conf) (g : Arrangement) : Prop where
  raidDisks : conf.raidDisks = g.disks
  nearCopies : conf.nearCopies = g.near
  farCopies : conf.farCopies = g.far
  copies : conf.copies = g.near * g.far
  farOffset : conf.farOffset = g.offset
  chunkMask : conf.chunkMask = 2 ^ conf.chunkShift - 1
  stride : conf.stride = g.step * 2 ^ conf.chunkShift
  room : g.rows * g.disks * 2 ^ conf.chunkShift ≤ 2 ^ w

variable {w : ℕ} {conf : Conf} {g : Arrangement} {p f o c s k : ℕ} {mddev mddev' : Mddev}

lemma shiftRight_addr (q : ℕ) (ho : o < 2 ^ s) : (q * 2 ^ s + o) >>> s = q := by
  rw [Nat.shiftRight_eq_div_pow, add_comm, Nat.add_mul_div_right _ _ (by positivity),
    Nat.div_eq_of_lt ho, zero_add]

namespace Implements

variable (h : Implements w conf g)

include h

lemma chunkMask_add_one : conf.chunkMask + 1 = 2 ^ conf.chunkShift := by
  have hpos : 0 < 2 ^ conf.chunkShift := by positivity
  rw [h.chunkMask]
  omega

lemma addr_lt (hp : p < g.rows * g.disks) (hf : f < g.far) (ho : o < 2 ^ conf.chunkShift) :
    g.row p f * 2 ^ conf.chunkShift + o < 2 ^ w := by
  have hrow := Nat.succ_le_of_lt (g.row_lt hp hf)
  have hfar : g.far ≤ g.disks := (Nat.le_mul_of_pos_left _ g.near_pos).trans g.fits
  have hle := Nat.mul_le_mul_right (2 ^ conf.chunkShift)
    (hrow.trans (Nat.mul_le_mul_left g.rows hfar))
  rw [Nat.succ_mul] at hle
  have hroom := h.room
  omega

lemma farLoop_eq (hp : p < g.rows * g.disks) (ho : o < 2 ^ conf.chunkShift) {k : ℕ}
    (hk : f + k < g.far) :
    farLoop w conf k (g.device p f) (g.row p f * 2 ^ conf.chunkShift + o) =
      (List.range' (f + 1) k).map fun f =>
        ⟨g.device p f, g.row p f * 2 ^ conf.chunkShift + o⟩ := by
  induction k generalizing f with
  | zero => rfl
  | succ k ih =>
    have haddr : (g.row p f * 2 ^ conf.chunkShift + o + conf.stride) % 2 ^ w =
        g.row p (f + 1) * 2 ^ conf.chunkShift + o := by
      have hlt := h.addr_lt hp (show f + 1 < g.far by omega) ho
      have hsum : g.row p f * 2 ^ conf.chunkShift + o + conf.stride =
          g.row p (f + 1) * 2 ^ conf.chunkShift + o := by
        rw [g.row_succ, h.stride]
        ring
      rw [hsum, Nat.mod_eq_of_lt hlt]
    rw [farLoop, h.nearCopies, h.raidDisks, haddr]
    simp only [← g.device_succ]
    rw [ih (by omega), List.range'_succ, List.map_cons]

lemma nearLoop_eq (hreg : g.Regular) (hc : c < g.chunks) (ho : o < 2 ^ conf.chunkShift) {k : ℕ}
    (hk : p + k = (c + 1) * g.near) (hnear : k ≤ g.near) :
    nearLoop w conf k (g.device p 0) (g.row p 0 * 2 ^ conf.chunkShift + o) =
      g.slots (2 ^ conf.chunkShift) o p k := by
  induction k generalizing p with
  | zero => rfl
  | succ k ih =>
    have hlast : (c + 1) * g.near ≤ g.rows * g.disks :=
      (Nat.mul_le_mul_right _ hc).trans (Nat.div_mul_le_self _ _)
    have hp : p < g.rows * g.disks := by omega
    have hslots : (⟨g.device p 0, g.row p 0 * 2 ^ conf.chunkShift + o⟩ ::
        farLoop w conf (conf.farCopies - 1) (g.device p 0)
          (g.row p 0 * 2 ^ conf.chunkShift + o) : List Dev) =
        (List.range' 0 g.far).map fun f =>
          ⟨g.device p f, g.row p f * 2 ^ conf.chunkShift + o⟩ := by
      have hfar := g.far_pos
      rw [h.farLoop_eq hp ho (by rw [h.farCopies]; omega), h.farCopies]
      obtain ⟨m, hm⟩ := Nat.exists_eq_succ_of_ne_zero hfar.ne'
      rw [hm, List.range'_succ]
      rfl
    have hcons : g.slots (2 ^ conf.chunkShift) o p (k + 1) =
        ((List.range' 0 g.far).map fun f =>
          ⟨g.device p f, g.row p f * 2 ^ conf.chunkShift + o⟩) ++
          g.slots (2 ^ conf.chunkShift) o (p + 1) k := by
      rfl
    rw [nearLoop, hcons]
    simp only [hslots, h.raidDisks]
    cases k with
    | zero => split_ifs <;> rfl
    | succ k =>
      split_ifs with hwrap
      · rw [g.device_zero] at hwrap
        have haddr : (g.row p 0 * 2 ^ conf.chunkShift + o + (conf.chunkMask + 1)) % 2 ^ w =
            g.row (p + 1) 0 * 2 ^ conf.chunkShift + o := by
          have hlt := h.addr_lt (show p + 1 < g.rows * g.disks by omega) g.far_pos ho
          have hsum : g.row p 0 * 2 ^ conf.chunkShift + o + (conf.chunkMask + 1) =
              g.row (p + 1) 0 * 2 ^ conf.chunkShift + o := by
            rw [h.chunkMask_add_one, g.row_zero, g.row_zero,
              hreg.base_next (k := k) (c := c) hwrap (by omega) (by omega) (by omega)]
            ring
          rw [hsum, Nat.mod_eq_of_lt hlt]
        rw [haddr, ← ih (by omega) (by omega), g.device_zero, (g.next_of_last hwrap).1]
      · rw [g.device_zero] at hwrap
        obtain ⟨hmod, hdiv⟩ := g.next_of_not_last hwrap
        have hbase : g.base (p + 1) = g.base p := by
          rw [base, base, hdiv]
        rw [← ih (by omega) (by omega), g.device_zero, g.device_zero, g.row_zero, g.row_zero,
          hmod, hbase]

lemma and_chunkMask (q : ℕ) (ho : o < 2 ^ conf.chunkShift) :
    (q * 2 ^ conf.chunkShift + o) &&& conf.chunkMask = o := by
  rw [h.chunkMask, Nat.and_two_pow_sub_one_eq_mod, add_comm, Nat.add_mul_mod_self_right,
    Nat.mod_eq_of_lt ho]

lemma piece_mod (hp : p < g.rows * g.disks) : p % 2 ^ w = p := by
  have hroom := h.room
  have hle := Nat.le_mul_of_pos_right (g.rows * g.disks) (show 0 < 2 ^ conf.chunkShift by positivity)
  exact Nat.mod_eq_of_lt (by omega)

/-- `raid10_find_phys` lists the slots of the chunk, and its `BUG_ON` does not fire. -/
lemma raid10FindPhys_eq (hreg : g.Regular) (hc : c < g.chunks) (ho : o < 2 ^ conf.chunkShift) :
    raid10FindPhys w conf (c * 2 ^ conf.chunkShift + o) =
      some (g.slots (2 ^ conf.chunkShift) o (c * g.near) g.near) := by
  have hpos : 0 < 2 ^ conf.chunkShift := by positivity
  have hp : c * g.near < g.rows * g.disks := g.piece_lt hc g.near_pos
  have haddr := h.addr_lt hp g.far_pos ho
  rw [g.row_zero] at haddr
  have hbase : (if g.offset = true then c * g.near / g.disks * g.far % 2 ^ w
      else c * g.near / g.disks) = g.base (c * g.near) := by
    rw [base] at haddr ⊢
    split_ifs with hoffset
    · rw [if_pos hoffset] at haddr
      have hle := Nat.le_mul_of_pos_right (c * g.near / g.disks * g.far) hpos
      exact Nat.mod_eq_of_lt (by omega)
    · rfl
  have hfirst : (o + (g.base (c * g.near) <<< conf.chunkShift) % 2 ^ w) % 2 ^ w =
      g.row (c * g.near) 0 * 2 ^ conf.chunkShift + o := by
    rw [Nat.shiftLeft_eq, Nat.add_mod_mod, add_comm, g.row_zero, Nat.mod_eq_of_lt haddr]
  have hloop := h.nearLoop_eq (p := c * g.near) (k := g.near) hreg hc ho (by ring) le_rfl
  rw [g.device_zero] at hloop
  simp only [raid10FindPhys, shiftRight_addr c ho, h.and_chunkMask c ho, h.nearCopies,
    h.raidDisks, h.farCopies, h.farOffset, h.piece_mod hp, hbase, hfirst, hloop]
  rw [if_neg (by rw [g.length_slots, h.copies]; simp)]

lemma findVirtLoop_eq_some (hoffset : g.offset = false) (hp : p < g.rows * g.disks)
    (ho : o < 2 ^ conf.chunkShift) (f : ℕ) :
    findVirtLoop conf (g.row p f * 2 ^ conf.chunkShift + o) (g.device p f) =
      some (g.base p * 2 ^ conf.chunkShift + o, ((p % g.disks : ℕ) : ℤ)) := by
  have hstep : g.step = g.rows := by simp [step, hoffset]
  induction f with
  | zero =>
    have hbase : g.base p < g.rows := by
      simpa [base, hoffset] using g.div_lt_rows hp
    have hlt : ¬ conf.stride ≤ g.base p * 2 ^ conf.chunkShift + o := by
      have hmul := Nat.mul_le_mul_right (2 ^ conf.chunkShift) (Nat.succ_le_of_lt hbase)
      rw [Nat.succ_mul] at hmul
      rw [h.stride, hstep]
      omega
    rw [findVirtLoop_eq, findVirtRound, g.row_zero, g.device_zero, if_neg hlt]
    rfl
  | succ f ih =>
    have hle : conf.stride ≤ g.row p (f + 1) * 2 ^ conf.chunkShift + o := by
      rw [h.stride, g.row_succ, add_mul]
      omega
    have hsector : g.row p (f + 1) * 2 ^ conf.chunkShift + o - conf.stride =
        g.row p f * 2 ^ conf.chunkShift + o := by
      rw [h.stride, g.row_succ, add_mul]
      omega
    have hdevice : (if (g.device p (f + 1) : ℤ) < conf.nearCopies then
        (g.device p (f + 1) : ℤ) + (conf.raidDisks - conf.nearCopies)
        else g.device p (f + 1) - conf.nearCopies) = g.device p f := by
      have hlt := g.device_lt p f
      rw [h.nearCopies, h.raidDisks, g.device_succ]
      split_ifs <;> omega
    rw [findVirtLoop_eq, findVirtRound, if_pos hle, hsector, hdevice]
    exact ih

lemma raid10FindVirt_eq (hc : c < g.chunks) (ho : o < 2 ^ conf.chunkShift) {n : ℕ}
    (hn : n < g.near) (hf : f < g.far) :
    raid10FindVirt w conf (g.row (c * g.near + n) f * 2 ^ conf.chunkShift + o)
      (g.device (c * g.near + n) f) = some (c * 2 ^ conf.chunkShift + o) := by
  have hp := g.piece_lt hc hn
  generalize hpiece : c * g.near + n = p at *
  have hvirt : (((p / g.disks : ℕ) : ℤ) * g.disks + (p % g.disks : ℕ)).toNat = p := by
    have hdiv := Nat.div_add_mod' p g.disks
    norm_cast
  have hchunk : p / g.near = c := by
    rw [← hpiece, add_comm, Nat.add_mul_div_right _ _ g.near_pos, Nat.div_eq_of_lt hn,
      zero_add]
  have hsector : ((c <<< conf.chunkShift) % 2 ^ w + o) % 2 ^ w = c * 2 ^ conf.chunkShift + o := by
    have hle : (c + 1) * 2 ^ conf.chunkShift ≤ g.rows * g.disks * 2 ^ conf.chunkShift :=
      Nat.mul_le_mul_right _ ((Nat.succ_le_of_lt hc).trans (Nat.div_le_self _ _))
    have hroom := h.room
    rw [add_mul] at hle
    rw [Nat.shiftLeft_eq, Nat.mod_add_mod, Nat.mod_eq_of_lt (by omega)]
  rw [raid10FindVirt, h.and_chunkMask _ ho, h.farOffset, h.nearCopies, h.farCopies, h.raidDisks]
  cases hoffset : g.offset with
  | true =>
    obtain ⟨hmod, hdiv, hdevice⟩ := g.virt_of_offset (p := p) hoffset hf
    simp only [if_true, bind_eq_bind, bind_some, pure_def,
      shiftRight_addr _ ho, hmod, hdiv, hdevice, hvirt, h.piece_mod hp, hchunk, hsector]
  | false =>
    have hbase : g.base p = p / g.disks := by simp [base, hoffset]
    have hloop := h.findVirtLoop_eq_some hoffset hp ho f
    simp only [Bool.false_eq_true, if_false, hloop, bind_eq_bind, bind_some,
      pure_def, shiftRight_addr _ ho, hbase, hvirt, h.piece_mod hp, hchunk, hsector]

lemma mem_nearLoop {dev sector n : ℕ} (hdev : dev + n = g.disks) (hn : 0 < n) (hk : n < k) :
    ⟨0, (sector + 2 ^ conf.chunkShift) % 2 ^ w⟩ ∈ nearLoop w conf k dev sector := by
  induction n generalizing dev k with
  | zero => omega
  | succ n ih =>
    obtain ⟨k, rfl⟩ := Nat.exists_eq_succ_of_ne_zero (show k ≠ 0 by omega)
    rw [nearLoop, h.raidDisks, h.chunkMask_add_one]
    split_ifs with hwrap
    · obtain ⟨j, rfl⟩ := Nat.exists_eq_succ_of_ne_zero (show k ≠ 0 by omega)
      refine List.mem_append_right _ ?_
      rw [nearLoop]
      split_ifs <;> exact List.mem_append_left _ List.mem_cons_self
    · exact List.mem_append_right _ (ih (by omega) (by omega) (by omega))

lemma overlay (hreg : ¬ g.Regular) :
    ∃ c, c < g.chunks ∧ ∀ slots, raid10FindPhys w conf (c * 2 ^ conf.chunkShift) = some slots →
      ∃ d ∈ slots, raid10FindVirt w conf d.addr d.devnum ≠ some (c * 2 ^ conf.chunkShift) := by
  have hpos : 0 < 2 ^ conf.chunkShift := by positivity
  unfold Regular at hreg
  push Not at hreg
  obtain ⟨hoffset, hfar, hdvd, hrows⟩ := hreg
  have hfar' := g.far_pos
  obtain ⟨hone, hc, hlt, hgt, n, hn, hdevice, hrow⟩ := g.irregular hoffset hdvd hrows
  refine ⟨g.disks / g.near, hc, fun slots hphys => ⟨⟨0, 2 ^ conf.chunkShift⟩, ?_, ?_⟩⟩
  · have hshift := shiftRight_addr (s := conf.chunkShift) (g.disks / g.near) hpos
    have hmask := h.and_chunkMask (g.disks / g.near) hpos
    rw [add_zero] at hshift hmask
    have hp := g.piece_lt hc g.near_pos
    rw [add_zero] at hp
    have haddr := h.addr_lt hp (show 1 < g.far by omega) hpos
    rw [row, base, step, if_pos hoffset, if_pos hoffset, Nat.div_eq_of_lt hlt] at haddr
    simp only [raid10FindPhys, hshift, hmask, h.nearCopies, h.raidDisks, h.farOffset, hoffset,
      h.piece_mod hp, Nat.div_eq_of_lt hlt, Nat.mod_eq_of_lt hlt, zero_mul, Nat.zero_mod,
      Nat.zero_shiftLeft, add_zero, ite_self] at hphys
    split_ifs at hphys
    rw [← some.inj hphys]
    have hmem : _ ∈ nearLoop w conf g.near (g.disks / g.near * g.near) 0 :=
      h.mem_nearLoop (n := g.disks - g.disks / g.near * g.near) (by omega) (by omega)
        (by rw [add_mul] at hgt; omega)
    rwa [zero_add, Nat.mod_eq_of_lt (by omega)] at hmem
  · have hvirt := h.raid10FindVirt_eq (c := g.disks / g.near - 1) (by omega) hpos hn
      (show 1 < g.far by omega)
    rw [hdevice, hrow, one_mul, add_zero, add_zero] at hvirt
    rw [hvirt]
    intro heq
    have heq := Nat.eq_of_mul_eq_mul_right hpos (some.inj heq)
    omega

end Implements

/-! ## The geometry that `run` computes -/

/-- What `md` has checked before `run`: the chunk size is a power of two of at least 1024. -/
def ChunkSize (mddev : Mddev) (s : ℕ) : Prop :=
  1 ≤ s ∧ s + 9 < 31 ∧ mddev.chunkSize = BitVec.twoPow 32 (s + 9)

lemma ffz_not_twoPow (hk : k < 32) : ffz (~~~BitVec.twoPow 32 k) = k := by
  interval_cases k <;> decide

/-- The stripes fill the devices exactly, although `run` rounds down and up again. -/
lemma stride_bounds (g : Arrangement) :
    g.rows * g.far * g.disks ≤ g.chunks * (g.near * g.far) + (g.disks - 1) ∧
      g.chunks * (g.near * g.far) + (g.disks - 1) < (g.rows * g.far + 1) * g.disks := by
  have hfits := g.fits
  have hupper : g.chunks * (g.near * g.far) ≤ g.rows * g.far * g.disks := by
    calc g.chunks * (g.near * g.far) = g.chunks * g.near * g.far := (mul_assoc _ _ _).symm
      _ ≤ g.rows * g.disks * g.far := Nat.mul_le_mul_right _ (Nat.div_mul_le_self _ _)
      _ = g.rows * g.far * g.disks := by ring
  have hlower : g.rows * g.far * g.disks < g.chunks * (g.near * g.far) + g.near * g.far := by
    calc g.rows * g.far * g.disks = g.rows * g.disks * g.far := by ring
      _ < (g.chunks * g.near + g.near) * g.far :=
        mul_lt_mul_of_pos_right (Nat.lt_div_mul_add g.near_pos) g.far_pos
      _ = g.chunks * (g.near * g.far) + g.near * g.far := by ring
  rw [add_mul]
  omega

lemma stride_eq (g : Arrangement) (hroom : 2 * (g.rows * g.far) * g.disks < 2 ^ w) :
    (g.chunks * (g.near * g.far) % 2 ^ w + (g.disks - 1)) % 2 ^ w / g.disks = g.rows * g.far := by
  obtain ⟨hlower, hupper⟩ := stride_bounds g
  rw [Nat.mod_add_mod]
  by_cases hrows : g.rows * g.far = 0
  · rw [hrows, Nat.one_mul] at hupper
    rw [hrows]
    exact Nat.div_eq_of_lt (lt_of_le_of_lt (Nat.mod_le _ _) hupper)
  · have hmul := Nat.mul_le_mul_right g.disks
      (show g.rows * g.far + 1 ≤ 2 * (g.rows * g.far) by omega)
    rw [Nat.mod_eq_of_lt (by omega)]
    exact Nat.div_eq_of_lt_le hlower hupper

lemma two_mul_shiftLeft (q : ℕ) (hs : 1 ≤ s) : 2 * (q <<< (s - 1)) = q * 2 ^ s := by
  obtain ⟨t, rfl⟩ := Nat.exists_eq_add_of_le' hs
  rw [Nat.add_sub_cancel, Nat.shiftLeft_eq]
  ring

lemma geometry_implements (g : Arrangement) (hchunk : ChunkSize mddev s) (hw : 32 ≤ w)
    (hfits : 2 * mddev.size * mddev.raidDisks < 2 ^ w) (hdisks : g.disks = mddev.raidDisks)
    (hrows : g.rows = (mddev.size >>> (s - 1)) / g.far) :
    Implements w (geometry w mddev g.near g.far g.offset).1 g ∧
      (geometry w mddev g.near g.far g.offset).1.chunkShift = s ∧
      2 * (geometry w mddev g.near g.far g.offset).2.size = g.rows * g.far * 2 ^ s ∧
      2 * (geometry w mddev g.near g.far g.offset).2.arraySize = g.chunks * 2 ^ s := by
  obtain ⟨hs, hlt, hsize⟩ := hchunk
  have hdpos := g.disks_pos
  have hshift : ffz (~~~mddev.chunkSize) - 9 = s := by
    rw [hsize, ffz_not_twoPow (by omega), Nat.add_sub_cancel]
  have hmask : (mddev.chunkSize.toNat >>> 9) - 1 = 2 ^ s - 1 := by
    rw [hsize, BitVec.toNat_twoPow_of_lt (by omega), Nat.shiftRight_eq_div_pow, Nat.pow_add,
      Nat.mul_div_cancel _ (by decide)]
  have hused : g.rows * g.far * 2 ^ s ≤ 2 * mddev.size := by
    have hle : g.rows * g.far ≤ mddev.size >>> (s - 1) := hrows ▸ Nat.div_mul_le_self _ _
    have hdiv : (mddev.size >>> (s - 1)) * 2 ^ (s - 1) ≤ mddev.size := by
      rw [Nat.shiftRight_eq_div_pow]
      exact Nat.div_mul_le_self _ _
    have hpow : 2 ^ s = 2 * 2 ^ (s - 1) := by
      rw [← pow_succ', Nat.sub_add_cancel hs]
    calc g.rows * g.far * 2 ^ s ≤ mddev.size >>> (s - 1) * 2 ^ s := Nat.mul_le_mul_right _ hle
      _ = 2 * (mddev.size >>> (s - 1) * 2 ^ (s - 1)) := by rw [hpow]; ring
      _ ≤ 2 * mddev.size := Nat.mul_le_mul_left 2 hdiv
  have htotal : g.rows * g.far * 2 ^ s * g.disks < 2 ^ w := by
    rw [← hdisks] at hfits
    exact lt_of_le_of_lt (Nat.mul_le_mul_right _ hused) hfits
  have hroom : g.rows * g.disks * 2 ^ s ≤ 2 ^ w := by
    have hfar := Nat.le_mul_of_pos_right (g.rows * g.disks * 2 ^ s) g.far_pos
    have hring : g.rows * g.disks * 2 ^ s * g.far = g.rows * g.far * 2 ^ s * g.disks := by ring
    omega
  have htwo : 2 ≤ 2 ^ s := Nat.le_self_pow (by omega) 2
  have hpieces : g.rows * g.disks % 2 ^ w = g.rows * g.disks := by
    have hmul := Nat.mul_le_mul_left (g.rows * g.disks) htwo
    exact Nat.mod_eq_of_lt (by omega)
  have hstride := stride_eq g (w := w) (lt_of_le_of_lt (Nat.mul_le_mul_right _
    (by rw [Nat.mul_comm]; exact Nat.mul_le_mul_left _ htwo)) htotal)
  have hdevice := two_mul_shiftLeft (g.rows * g.far) hs
  have harray := two_mul_shiftLeft g.chunks hs
  have hdeviceMod : (g.rows * g.far) <<< (s - 1) % 2 ^ w = (g.rows * g.far) <<< (s - 1) := by
    have hle := Nat.le_mul_of_pos_right (g.rows * g.far * 2 ^ s) hdpos
    exact Nat.mod_eq_of_lt (by omega)
  have harrayMod : g.chunks <<< (s - 1) % 2 ^ w = g.chunks <<< (s - 1) := by
    have hle : g.chunks * 2 ^ s ≤ g.rows * g.disks * 2 ^ s :=
      Nat.mul_le_mul_right _ (Nat.div_le_self _ _)
    exact Nat.mod_eq_of_lt (by omega)
  have hstep : (if g.offset = true then 1 else g.rows * g.far / g.far) <<< s % 2 ^ w =
      g.step * 2 ^ s := by
    rw [Nat.mul_div_cancel _ g.far_pos, Nat.shiftLeft_eq]
    change g.step * 2 ^ s % 2 ^ w = g.step * 2 ^ s
    apply Nat.mod_eq_of_lt
    rw [step]
    split_ifs
    · rw [Nat.one_mul]
      exact Nat.pow_lt_pow_right (by omega) (by omega)
    · have hfar := Nat.le_mul_of_pos_right (g.rows * 2 ^ s) g.far_pos
      have hle := Nat.le_mul_of_pos_right (g.rows * 2 ^ s * g.far) hdpos
      have hring : g.rows * 2 ^ s * g.far * g.disks = g.rows * g.far * 2 ^ s * g.disks := by ring
      omega
  have hchunks : g.rows * g.disks / g.near = g.chunks := rfl
  simp only [geometry, hshift, hmask, ← hdisks, ← hrows, hpieces, hchunks, hstride,
    hdeviceMod, harrayMod, hdevice, harray, and_true]
  exact ⟨rfl, rfl, rfl, rfl, rfl, rfl, hstep, hroom⟩

lemma run_implements {conf : Conf} (hrun : run w mddev = .ok (conf, mddev'))
    (hchunk : ChunkSize mddev s) (hw : 32 ≤ w) (hfits : 2 * mddev.size * mddev.raidDisks < 2 ^ w) :
    ∃ g : Arrangement, g.rows = (mddev.size >>> (s - 1)) / g.far ∧ Implements w conf g ∧
      conf.chunkShift = s ∧ 2 * mddev'.size = g.rows * g.far * 2 ^ s ∧
      2 * mddev'.arraySize = g.chunks * 2 ^ s := by
  simp only [run] at hrun
  split_ifs at hrun with hzero hbad
  rw [not_or, not_or, not_lt, not_lt] at hbad
  obtain ⟨hcopies, hle, -⟩ := hbad
  have hpos : 0 < (mddev.layout &&& 255) ∧ 0 < (mddev.layout >>> 8 &&& 255) := by
    constructor <;> refine pos_of_ne_zero fun hnone => ?_
    · rw [hnone] at hcopies
      omega
    · rw [hnone] at hcopies
      omega
  have hgeometry := geometry_implements
    ⟨mddev.raidDisks, mddev.layout &&& 255, mddev.layout >>> 8 &&& 255,
      (mddev.size >>> (s - 1)) / (mddev.layout >>> 8 &&& 255),
      decide (mddev.layout &&& 2 ^ 16 ≠ 0), hpos.1, hpos.2, hle⟩ hchunk hw hfits rfl rfl
  obtain ⟨rfl, rfl⟩ := Prod.mk.inj (Except.ok.inj hrun)
  exact ⟨_, rfl, hgeometry⟩

/-! ## The layout -/

end BooxKernel.Raid10
