import BooxKernel.Crc32.Model
import BooxKernel.Lib.ShiftRegisters
import Mathlib.Tactic

/-!
# What the tables hold

Entry `i` of a table of `2 ^ bits` words is what `bits` single bit rounds make of `i`, at the
low or at the high end of the register. The generator fills it from the entries of powers of
two, as a round respects exclusive or.
-/
namespace BooxKernel.Crc32

open ShiftRegisters BitVec

/-! ## The rounds as clocks of a register -/

lemma bitLe_eq (crc : BitVec 32) : bitLe crc = clockDown crcpolyLe crc := by
  have hbit : crc &&& 1 ≠ 0 ↔ crc.getLsbD 0 = true := by
    rw [show (1 : BitVec 32) = 1#32 from rfl, and_one_eq_setWidth_ofBool_getLsbD]
    cases crc.getLsbD 0 <;> decide
  rw [bitLe, clockDown]
  simp only [hbit]

lemma bitBe_eq (crc : BitVec 32) : bitBe crc = clockUp crcpolyBe crc := by
  have hbit : crc &&& 0x80000000 ≠ 0 ↔ crc.getMsbD 0 = true := by
    rw [show (0x80000000 : BitVec 32) = twoPow 32 31 from rfl, and_twoPow]
    simp only [getMsbD_eq_getLsbD]
    cases crc.getLsbD 31 <;> simp
  rw [bitBe, clockUp]
  simp only [hbit]

lemma bitLe_iterate (n : ℕ) : bitLe^[n] = (clockDown crcpolyLe)^[n] := by
  rw [funext bitLe_eq]

lemma bitBe_iterate (n : ℕ) : bitBe^[n] = (clockUp crcpolyBe)^[n] := by
  rw [funext bitBe_eq]

/-! ## Reading and writing -/

variable {i k a b n bits : ℕ} {table : Table} {crc : BitVec 32}

lemma Table.get_set (hi : i < table.size) (x : BitVec 32) (j : ℕ) :
    (table.set i x).get j = if i = j then x else table.get j := by
  rw [Table.get, Table.get, Table.set]
  by_cases hij : i = j
  · simp [← hij, hi]
  · simp [hij]

@[simp] lemma Table.size_set (table : Table) (i : ℕ) (x : BitVec 32) :
    (table.set i x).size = table.size := Array.size_setIfInBounds

lemma ofNat_two_pow (k : ℕ) : BitVec.ofNat 32 (2 ^ k) = twoPow 32 k := by
  apply eq_of_toNat_eq
  rw [toNat_ofNat, toNat_twoPow]

lemma ofNat_add_eq_xor (ha : a < 2 ^ k) (hb : 2 ^ k ∣ b) :
    BitVec.ofNat 32 (a + b) = BitVec.ofNat 32 a ^^^ BitVec.ofNat 32 b := by
  obtain ⟨q, rfl⟩ := hb
  rw [← ofNat_xor, add_comm]
  congr 1
  apply Nat.eq_of_testBit_eq
  intro j
  rw [Nat.testBit_two_pow_mul_add _ ha, Nat.testBit_xor, Nat.testBit_two_pow_mul]
  by_cases hj : j < k
  · simp [hj, not_le.2 hj]
  · have hsmall : a.testBit j = false :=
      Nat.testBit_lt_two_pow (lt_of_lt_of_le ha (Nat.pow_le_pow_right (by omega) (by omega)))
    simp [hj, hsmall, not_lt.1 hj]

/-! ## The little-endian table -/

@[simp] lemma size_rowLe (k : ℕ) (crc : BitVec 32) (n : ℕ) (table : Table) :
    (rowLe k crc n table).size = table.size := by
  induction n with
  | zero => rfl
  | succ n ih => simp [rowLe, ih]

lemma rowLe_spec (k : ℕ) (crc : BitVec 32) (hn : n * (2 * 2 ^ k) ≤ table.size) (q : ℕ) :
    (rowLe k crc n table).get (q * (2 * 2 ^ k)) = table.get (q * (2 * 2 ^ k)) ∧
      (q < n → (rowLe k crc n table).get (2 ^ k + q * (2 * 2 ^ k)) =
        crc ^^^ table.get (q * (2 * 2 ^ k))) := by
  have hpos : 0 < 2 ^ k := by positivity
  induction n generalizing q with
  | zero => exact ⟨rfl, by omega⟩
  | succ n ih =>
    rw [Nat.add_mul] at hn
    have hbound : 2 ^ k + n * (2 * 2 ^ k) < (rowLe k crc n table).size := by
      rw [size_rowLe]
      omega
    have hodd : ∀ p, 2 ^ k + n * (2 * 2 ^ k) ≠ p * (2 * 2 ^ k) := by
      intro p hp
      have hmod := congrArg (· % (2 * 2 ^ k)) hp
      simp [Nat.mod_eq_of_lt (show 2 ^ k < 2 * 2 ^ k by omega)] at hmod
    have ih := ih (by omega)
    rw [rowLe, Table.get_set hbound, Table.get_set hbound, if_neg (hodd q), (ih q).1]
    refine ⟨rfl, fun hq => ?_⟩
    by_cases hqn : q = n
    · subst hqn
      rw [if_pos rfl, (ih q).1]
    · have hne : 2 ^ k + n * (2 * 2 ^ k) ≠ 2 ^ k + q * (2 * 2 ^ k) := by
        intro heq
        exact hqn (Nat.eq_of_mul_eq_mul_right (by omega) (add_left_cancel heq)).symm
      rw [if_neg hne, (ih q).2 (by omega)]

/-- What `roundsLe` needs of the table before the rounds for `1 << (k - 1)` and below: the entries
of the multiples of `1 << k` are right. -/
structure FilledLe (bits k : ℕ) (crc : BitVec 32) (table : Table) : Prop where
  size : table.size = 2 ^ bits
  crc : crc = bitLe^[bits - k] 1
  get : ∀ q < 2 ^ (bits - k), table.get (q * 2 ^ k) = bitLe^[bits] (BitVec.ofNat 32 (q * 2 ^ k))

lemma FilledLe.round (hbits : bits ≤ 32) (hk : k + 1 ≤ bits) (h : FilledLe bits (k + 1) crc table) :
    FilledLe bits k (bitLe crc) (rowLe k (bitLe crc) (2 ^ bits / (2 * 2 ^ k)) table) := by
  have hcrc : bitLe crc = bitLe^[bits - k] 1 := by
    rw [h.crc, ← Function.iterate_succ_apply' bitLe, show bits - k = (bits - (k + 1)).succ by omega]
  have hcount : 2 ^ bits / (2 * 2 ^ k) = 2 ^ (bits - (k + 1)) := by
    rw [← pow_succ', Nat.pow_div hk (by omega)]
  have hsize : 2 ^ (bits - (k + 1)) * (2 * 2 ^ k) = 2 ^ bits := by
    rw [← Nat.pow_succ', ← Nat.pow_add, Nat.sub_add_cancel hk]
  have hroom : 2 ^ (bits - (k + 1)) * (2 * 2 ^ k) ≤ table.size := by rw [hsize, h.size]
  have hrow := rowLe_spec k (bitLe crc) hroom
  refine ⟨by rw [size_rowLe, h.size], hcrc, fun q hq => ?_⟩
  rw [hcount]
  have hhalf : q / 2 < 2 ^ (bits - (k + 1)) := by
    have hpow : 2 ^ (bits - k) = 2 * 2 ^ (bits - (k + 1)) := by
      rw [← pow_succ']
      congr 1
      omega
    omega
  have hold := h.get (q / 2) hhalf
  rw [pow_succ'] at hold
  rcases Nat.mod_two_eq_zero_or_one q with heven | hodd
  · have hq : q * 2 ^ k = q / 2 * (2 * 2 ^ k) := by
      rw [← mul_assoc]
      congr 1
      omega
    rw [hq, (hrow _).1, hold]
  · have hq : q * 2 ^ k = 2 ^ k + q / 2 * (2 * 2 ^ k) := by
      rw [← mul_assoc, add_comm, ← Nat.succ_mul]
      congr 1
      omega
    have hbit : bitLe^[bits] (BitVec.ofNat 32 (2 ^ k)) = bitLe^[bits - k] 1 := by
      have hk32 : k < 32 := by omega
      rw [bitLe_iterate, bitLe_iterate, ofNat_two_pow, clockDown_twoPow crcpolyLe (by omega) hk32]
      rfl
    rw [hq, (hrow _).2 hhalf, hold, hcrc, ← hbit, ofNat_add_eq_xor (k := k + 1)]
    · rw [bitLe_iterate, (additive_clockDown crcpolyLe).iterate]
    · exact Nat.pow_lt_pow_right (by omega) (by omega)
    · exact ⟨q / 2, by rw [pow_succ', mul_comm]⟩

lemma roundsLe_get (hbits : bits ≤ 32) (hk : k ≤ bits) (h : FilledLe bits k crc table)
    (hi : i < 2 ^ bits) : (roundsLe bits k crc table).get i = bitLe^[bits] (BitVec.ofNat 32 i) := by
  induction k generalizing crc table with
  | zero => simpa [roundsLe] using h.get i hi
  | succ k ih => exact ih (by omega) (h.round hbits hk)

lemma crc32initLe_get (hbits : bits ≤ 32) (hi : i < 2 ^ bits) :
    (crc32initLe bits).get i = bitLe^[bits] (BitVec.ofNat 32 i) := by
  refine roundsLe_get hbits le_rfl ⟨by simp, by simp, fun q hq => ?_⟩ hi
  rw [Nat.sub_self, pow_zero, Nat.lt_one_iff] at hq
  rw [hq, Nat.zero_mul, Table.get_set (by simp), bitLe_iterate]
  exact ((additive_clockDown crcpolyLe).iterate bits).map_zero.symm

/-! ## The big-endian table -/

@[simp] lemma size_rowBe (i : ℕ) (crc : BitVec 32) (n : ℕ) (table : Table) :
    (rowBe i crc n table).size = table.size := by
  induction n with
  | zero => rfl
  | succ n ih => simp [rowBe, ih]

lemma rowBe_spec (crc : BitVec 32) (hn : n ≤ i) (hsize : i + n ≤ table.size) (j : ℕ) :
    (j < i → (rowBe i crc n table).get j = table.get j) ∧
      (j < n → (rowBe i crc n table).get (i + j) = crc ^^^ table.get j) := by
  induction n generalizing j with
  | zero => exact ⟨fun _ => rfl, by omega⟩
  | succ n ih =>
    have ih := ih (by omega) (by omega)
    have hbound : i + n < (rowBe i crc n table).size := by
      rw [size_rowBe]
      omega
    rw [rowBe, Table.get_set hbound, Table.get_set hbound]
    constructor
    · intro hj
      rw [if_neg (by omega), (ih j).1 hj]
    · intro hj
      by_cases hjn : j = n
      · rw [hjn, if_pos rfl, (ih n).1 (by omega)]
      · rw [if_neg (by omega), (ih j).2 (by omega)]

/-- An index at the high end of the register. -/
def atTop (bits i : ℕ) : BitVec 32 := BitVec.ofNat 32 i <<< (32 - bits)

/-- What the first rounds of `crc32init_be` leave. -/
structure FilledBe (bits k : ℕ) (crc : BitVec 32) (table : Table) : Prop where
  size : table.size = 2 ^ bits
  crc : crc = bitBe^[k] 0x80000000
  get : ∀ i < 2 ^ k, table.get i = bitBe^[bits] (atTop bits i)

lemma FilledBe.round (hbits : bits ≤ 32) (hk : k < bits) (h : FilledBe bits k crc table) :
    FilledBe bits (k + 1) (bitBe crc) (rowBe (2 ^ k) (bitBe crc) (2 ^ k) table) := by
  have hcrc : bitBe crc = bitBe^[k + 1] 0x80000000 := by
    rw [h.crc, Function.iterate_succ_apply']
  have hle : 2 ^ k + 2 ^ k ≤ table.size := by
    rw [h.size, ← Nat.two_mul, ← Nat.pow_succ']
    exact Nat.pow_le_pow_right (by omega) hk
  have hrow := rowBe_spec (bitBe crc) le_rfl hle
  refine ⟨by rw [size_rowBe, h.size], hcrc, fun i hi => ?_⟩
  by_cases hlow : i < 2 ^ k
  · rw [(hrow i).1 hlow, h.get i hlow]
  · obtain ⟨j, rfl⟩ := Nat.exists_eq_add_of_le (not_lt.1 hlow)
    have hj : j < 2 ^ k := by
      omega
    have hbit : bitBe^[bits] (atTop bits (2 ^ k)) = bitBe^[k + 1] 0x80000000 := by
      have htop : atTop bits (2 ^ k) = twoPow 32 (k + (32 - bits)) := by
        rw [atTop, ofNat_two_pow, shiftLeft_eq_mul_twoPow, twoPow_mul_twoPow_eq]
      rw [htop, bitBe_iterate, bitBe_iterate, clockUp_twoPow crcpolyBe (by omega) (by omega)]
      congr 1
      omega
    have hsum : atTop bits (2 ^ k + j) = atTop bits (2 ^ k) ^^^ atTop bits j := by
      rw [atTop, add_comm, ofNat_add_eq_xor hj (dvd_refl _), shiftLeft_xor_distrib,
        BitVec.xor_comm]
      rfl
    rw [(hrow j).2 hj, h.get j hj, hcrc, ← hbit, hsum, bitBe_iterate,
      (additive_clockUp crcpolyBe).iterate]

lemma filledBe_rounds (hbits : bits ≤ 32) (hk : k ≤ bits) :
    FilledBe bits k (roundsBe bits k).1 (roundsBe bits k).2 := by
  induction k with
  | zero =>
    refine ⟨by simp [roundsBe], by simp [roundsBe], fun i hi => ?_⟩
    obtain rfl : i = 0 := by simpa using hi
    have hzero : atTop bits 0 = 0 := by simp [atTop]
    rw [roundsBe, Table.get_set (by simp), hzero, bitBe_iterate]
    exact ((additive_clockUp crcpolyBe).iterate bits).map_zero.symm
  | succ k ih => exact (ih (by omega)).round hbits hk

end BooxKernel.Crc32
