import BooxKernel.Yaffs.Model

/-!
# The parities over the bytes of the tags

Inverting one bit changes the column parity by the row of that bit, the line parity by the number
of its byte and the other line parity by the complement of that number. The difference of the
parities read and computed therefore names the bit.
-/
namespace BooxKernel.Yaffs

/-- The entries of the table for the bytes with a single bit. -/
def columnRow (k : ℕ) : U8 := [0x55, 0x59, 0x65, 0x69, 0x95, 0x99, 0xa5, 0xa9].getD k 0

/-- The entries of the bits of a byte among `ks`, added up. -/
def columnSum (ks : List ℕ) (b : U8) : U8 :=
  ks.foldr (fun k sum => (if b.getLsbD k then columnRow k else 0) ^^^ sum) 0

lemma columnSum_xor (ks : List ℕ) (a b : U8) :
    columnSum ks (a ^^^ b) = columnSum ks a ^^^ columnSum ks b := by
  induction ks with
  | nil => simp [columnSum]
  | cons k ks ih =>
    have hk : (if (a ^^^ b).getLsbD k then columnRow k else 0) =
        (if a.getLsbD k then columnRow k else 0) ^^^ (if b.getLsbD k then columnRow k else 0) := by
      rw [BitVec.getLsbD_xor]
      cases a.getLsbD k <;> cases b.getLsbD k <;> simp
    simp only [columnSum, List.foldr_cons] at ih ⊢
    rw [hk, ih]
    ac_rfl

lemma columnParity_eq (b : U8) : columnParity b = columnSum (List.range 8) b := by
  have htable : columnParityTable.toList =
      (List.range 256).map fun n => columnSum (List.range 8) (.ofNat 8 n) := by
    decide +kernel
  have hb : b.toNat < 256 := b.isLt
  rw [columnParity, Array.getD_eq_getD_getElem?, ← Array.getElem?_toList, htable]
  simp [hb]

lemma columnParity_invert (b : U8) (k : Fin 8) :
    columnParity (b ^^^ .twoPow 8 k) = columnParity b ^^^ columnParity (.twoPow 8 k) := by
  simp only [columnParity_eq, columnSum_xor]

lemma columnParity_odd (b : U8) (k : Fin 8) :
    columnParity (b ^^^ .twoPow 8 k) &&& 1 ≠ 0 ↔ ¬ columnParity b &&& 1 ≠ 0 := by
  have hlow (x : U8) : x &&& 1 ≠ 0 ↔ x.getLsbD 0 = true := by
    obtain ⟨n⟩ := x
    revert n
    decide +kernel
  have hrow : ∀ k : Fin 8, (columnParity (.twoPow 8 k)).getLsbD 0 = true := by
    decide +kernel
  rw [hlow, hlow, columnParity_invert, BitVec.getLsbD_xor, hrow]
  simp

/-- The column parities in which two bytes differ that differ in bit `k`. -/
def columnDelta (k : Fin 8) : U8 := (columnParity (.twoPow 8 k) >>> (2 : ℕ)) &&& 0x3f

section Calculate

variable {i : ℕ} {col : U8} {line linePrime : U32} {data : List U8}

/-- The data with bit `k` of byte `n` inverted. -/
abbrev invertBit (data : List U8) (n k : ℕ) : List U8 := data.modify n (· ^^^ .twoPow 8 k)

lemma eccLoop_xor (c : U8) (l p : U32) :
    eccLoop i (col ^^^ c) (line ^^^ l) (linePrime ^^^ p) data =
      ((eccLoop i col line linePrime data).1 ^^^ c,
        (eccLoop i col line linePrime data).2.1 ^^^ l,
        (eccLoop i col line linePrime data).2.2 ^^^ p) := by
  induction data generalizing i col line linePrime with
  | nil => rfl
  | cons byte data ih =>
    have hswap {w : ℕ} (x y z : BitVec w) : x ^^^ y ^^^ z = x ^^^ z ^^^ y := by
      rw [BitVec.xor_assoc, BitVec.xor_comm y, ← BitVec.xor_assoc]
    simp only [eccLoop, hswap _ c, hswap _ l, hswap _ p]
    split_ifs <;> exact ih

lemma eccLoop_invert {n : ℕ} (hn : n < data.length) (k : Fin 8) :
    eccLoop i col line linePrime (invertBit data n k) =
      ((eccLoop i col line linePrime data).1 ^^^ columnParity (.twoPow 8 k),
        (eccLoop i col line linePrime data).2.1 ^^^ .ofNat 32 (i + n),
        (eccLoop i col line linePrime data).2.2 ^^^ ~~~.ofNat 32 (i + n)) := by
  induction data generalizing i col line linePrime n with
  | nil => simp at hn
  | cons byte data ih =>
    cases n with
    | zero =>
      have hflip := columnParity_odd byte k
      simp only [List.modify_zero_cons, eccLoop, add_zero]
      by_cases hodd : columnParity byte &&& 1 ≠ 0
      · rw [if_neg fun h => hflip.1 h hodd, if_pos hodd, columnParity_invert, ← eccLoop_xor]
        simp [BitVec.xor_assoc]
      · rw [if_pos (hflip.2 hodd), if_neg hodd, columnParity_invert, ← BitVec.xor_assoc,
          ← eccLoop_xor]
    | succ n =>
      have h : i + (n + 1) = i + 1 + n := by omega
      simp only [List.modify_succ_cons, eccLoop, h]
      split_ifs <;> exact ih (by simpa using hn)

lemma eccCalculateOther_invert {n : ℕ} (hn : n < data.length) (k : Fin 8) :
    eccCalculateOther (invertBit data n k) =
      ⟨(eccCalculateOther data).colParity ^^^ columnDelta k,
        (eccCalculateOther data).lineParity ^^^ .ofNat 32 n,
        (eccCalculateOther data).lineParityPrime ^^^ ~~~.ofNat 32 n⟩ := by
  have hand (x y : U8) : (x ^^^ y) &&& 0x3f = (x &&& 0x3f) ^^^ (y &&& 0x3f) := by
    ext j
    simp [Bool.and_xor_distrib_right]
  simp only [eccCalculateOther, eccLoop_invert hn, zero_add, columnDelta,
    BitVec.ushiftRight_xor_distrib, hand]

end Calculate

section Correct

variable {data : List U8} {ecc : ECCOther}

lemma countBits_two_pow (k : ℕ) : countBits (2 ^ k) = 1 := by
  induction k with
  | zero => simp [countBits]
  | succ k ih =>
    rw [countBits, if_neg (by positivity), pow_succ, Nat.mul_mod_left,
      Nat.mul_div_cancel _ (by decide), ih]

lemma eccCorrectOther_self : eccCorrectOther data ecc ecc = (0, data, ecc) := by
  simp [eccCorrectOther]

/-- Of a bit, the three pairs of column parities differ, and the second of each pair spells it. -/
lemma columnDelta_names (k : Fin 8) :
    (columnDelta k ^^^ (columnDelta k >>> (1 : ℕ))) &&& 0x15 = 0x15 ∧
      (if columnDelta k &&& 0x20 ≠ 0 then 4 else 0) ||| (if columnDelta k &&& 0x08 ≠ 0 then 2 else 0) |||
        (if columnDelta k &&& 0x02 ≠ 0 then 1 else 0) = k.val := by
  revert k
  decide +kernel

lemma invertBit_invertBit (data : List U8) (n k : ℕ) : invertBit (invertBit data n k) n k = data := by
  have hback (b : U8) : b ^^^ .twoPow 8 k ^^^ .twoPow 8 k = b := by
    rw [BitVec.xor_assoc, BitVec.xor_self, BitVec.xor_zero]
  rw [invertBit, List.modify_modify_eq]
  simp only [Function.comp_def, hback]
  exact List.modify_id n data

lemma eccCorrectOther_invert {n : ℕ} (hn : n < data.length) (hsize : data.length ≤ 2 ^ 32)
    (k : Fin 8) :
    eccCorrectOther (invertBit data n k) (eccCalculateOther data)
      (eccCalculateOther (invertBit data n k)) = (1, data, eccCalculateOther data) := by
  have hdelta {w : ℕ} (x y : BitVec w) : x ^^^ (x ^^^ y) = y := by
    rw [← BitVec.xor_assoc, BitVec.xor_self, BitVec.zero_xor]
  have hline : (BitVec.ofNat 32 n).toNat = n := by
    rw [BitVec.toNat_ofNat, Nat.mod_eq_of_lt (by omega)]
  obtain ⟨hpairs, hbit⟩ := columnDelta_names k
  simp only [eccCalculateOther_invert hn, eccCorrectOther, hdelta, BitVec.not_not, hpairs, hbit,
    hline, and_self, if_true, List.length_modify]
  have herror : (columnDelta k).zeroExtend 32 ||| .ofNat 32 n ||| ~~~.ofNat 32 n ≠ 0 := by
    intro h
    obtain ⟨hor, hnot⟩ := BitVec.or_eq_zero_iff.1 h
    obtain ⟨-, hzero⟩ := BitVec.or_eq_zero_iff.1 hor
    rw [hzero] at hnot
    exact absurd hnot (by decide)
  rw [if_neg herror, if_neg (by omega)]
  exact congrArg (1, ·, eccCalculateOther data) (invertBit_invertBit data n k)

/-- A bit of the stored parities. -/
inductive ParityBit
  | col (k : Fin 8)
  | line (k : Fin 32)
  | linePrime (k : Fin 32)

/-- The parities with one bit inverted. -/
def ECCOther.invert (ecc : ECCOther) : ParityBit → ECCOther
  | .col k => { ecc with colParity := ecc.colParity ^^^ .twoPow 8 k }
  | .line k => { ecc with lineParity := ecc.lineParity ^^^ .twoPow 32 k }
  | .linePrime k => { ecc with lineParityPrime := ecc.lineParityPrime ^^^ .twoPow 32 k }

lemma eccCorrectOther_parity (b : ParityBit) :
    eccCorrectOther data (ecc.invert b) ecc = (1, data, ecc) := by
  have hdelta {w : ℕ} (x y : BitVec w) : x ^^^ y ^^^ x = y := by
    rw [BitVec.xor_comm x, BitVec.xor_assoc, BitVec.xor_self, BitVec.xor_zero]
  have hcount (w : ℕ) (k : Fin w) : countBits (BitVec.twoPow w k).toNat = 1 := by
    rw [BitVec.toNat_twoPow_of_lt k.isLt, countBits_two_pow]
  have hzero : countBits 0 = 0 := by simp [countBits]
  have hne : ∀ k : Fin 32, BitVec.twoPow 32 k ≠ 0#32 := by decide
  cases b with
  | col k =>
    have hne : ∀ k : Fin 8, (BitVec.twoPow 8 k).setWidth 32 ≠ 0#32 := by decide
    simp [-BitVec.toNat_twoPow, ECCOther.invert, eccCorrectOther, hdelta, hcount, hzero, hne]
  | line k =>
    simp [-BitVec.toNat_twoPow, ECCOther.invert, eccCorrectOther, hdelta, hcount, hzero, hne]
  | linePrime k =>
    simp [-BitVec.toNat_twoPow, ECCOther.invert, eccCorrectOther, hdelta, hcount, hzero, hne]

lemma eccCorrectOther_two {n m : ℕ} {k j : Fin 8} (hn : n < data.length) (hm : m < data.length)
    (hsize : data.length ≤ 2 ^ 32) (hne : (n, k) ≠ (m, j)) {data' : List U8}
    (h : invertBit (invertBit data n k) m j = data') :
    eccCorrectOther data' (eccCalculateOther data) (eccCalculateOther data') =
      (-1, data', eccCalculateOther data) := by
  have hdelta {w : ℕ} (x y z : BitVec w) : x ^^^ (x ^^^ y ^^^ z) = y ^^^ z := by
    rw [BitVec.xor_assoc, ← BitVec.xor_assoc, BitVec.xor_self, BitVec.zero_xor]
  have hprime (x y : U32) : ~~~x ^^^ ~~~y = x ^^^ y := by
    rw [← BitVec.not_xor_left, ← BitVec.not_xor_right, BitVec.not_not]
  have hnot (x : U32) : x ≠ ~~~x := fun hx => by
    simpa using congrArg (BitVec.getLsbD · 0) hx
  have hcols : ∀ k j : Fin 8, countBits (columnDelta k ^^^ columnDelta j).toNat % 2 = 0 ∧
      (k ≠ j → (columnDelta k ^^^ columnDelta j).zeroExtend 32 ≠ 0) := by
    decide +kernel
  have herror : (columnDelta k ^^^ columnDelta j).zeroExtend 32 ||| (.ofNat 32 n ^^^ .ofNat 32 m) |||
      (.ofNat 32 n ^^^ .ofNat 32 m) ≠ 0 := by
    intro hzero
    obtain ⟨hcol, hline⟩ := BitVec.or_eq_zero_iff.1 (BitVec.or_eq_zero_iff.1 hzero).1
    have hnm := congrArg BitVec.toNat (BitVec.xor_eq_zero_iff.1 hline)
    rw [BitVec.toNat_ofNat, BitVec.toNat_ofNat] at hnm
    exact (hcols k j).2 (fun hkj => hne (by rw [hkj, Prod.mk_left_inj]; omega)) hcol
  have hcount (l : ℕ) :
      countBits l + countBits l + countBits (columnDelta k ^^^ columnDelta j).toNat ≠ 1 := by
    have := (hcols k j).1
    omega
  subst h
  rw [eccCalculateOther_invert (by rwa [List.length_modify]), eccCalculateOther_invert hn]
  simp only [eccCorrectOther, hdelta, hprime]
  rw [if_neg herror, if_neg fun hsingle => hnot _ hsingle.1, if_neg (hcount _)]

/-- The code of `yaffs_ECCCalculateOther` corrects one inverted bit and detects two. -/
theorem ecc_other_corrects_one_detects_two (data : List U8) (hsize : data.length < 2 ^ 31) :
    let ecc := eccCalculateOther data
    eccCorrectOther data ecc (eccCalculateOther data) = (0, data, ecc) ∧
      (∀ n < data.length, ∀ k : Fin 8, eccCorrectOther (invertBit data n k) ecc
        (eccCalculateOther (invertBit data n k)) = (1, data, ecc)) ∧
      (∀ b, eccCorrectOther data (ecc.invert b) (eccCalculateOther data) = (1, data, ecc)) ∧
      ∀ n < data.length, ∀ m < data.length, ∀ k j : Fin 8, (n, k) ≠ (m, j) →
        ∀ data', invertBit (invertBit data n k) m j = data' →
          eccCorrectOther data' ecc (eccCalculateOther data') = (-1, data', ecc) :=
  ⟨eccCorrectOther_self, fun _ hn k => eccCorrectOther_invert hn (by omega) k,
    eccCorrectOther_parity, fun _ hn _ hm _ _ hne _ => eccCorrectOther_two hn hm (by omega) hne⟩

theorem ecc_other_corrects_bit :
    eccCorrectOther [4, 8] (eccCalculateOther [0, 8]) (eccCalculateOther [4, 8]) =
      (1, [0, 8], eccCalculateOther [0, 8]) :=
  (ecc_other_corrects_one_detects_two [0, 8] (by decide)).2.1 0 (by decide) 2

end Correct

end BooxKernel.Yaffs
