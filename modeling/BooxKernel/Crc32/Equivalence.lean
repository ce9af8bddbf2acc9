import BooxKernel.Crc32.Tables

/-!
# The functions with tables compute the checksums

`DO_CRC` works on the register or, on a machine of the other byte order, on its bytes in
reverse order. A word that is added at once is the sum of its bytes at the places where the
four rounds read them, so the loop over words does what a loop over bytes would do.
-/
namespace BooxKernel.Crc32

open ShiftRegisters BitVec Endian Array

variable {e : Endian} {tab : Table}

/-! ## A word is four bytes -/

section
variable (crc : BitVec 32) (p : List (BitVec 8)) (b : ℕ)

lemma and_255 (x : BitVec 32) : x &&& 255 = low 8 x := by
  apply eq_of_getLsbD_eq
  intro i hi
  rw [getLsbD_low, getLsbD_and, Bool.and_comm,
    show (255 : BitVec 32) = BitVec.ofNat 32 (2 ^ 8 - 1) from rfl, getLsbD_ofNat,
    Nat.testBit_two_pow_sub_one]
  simp [hi]

/-- The round that reads the first byte of a word leaves the other three for the next rounds. -/
lemma doCrc_load (s : BitVec 32) (b0 b1 b2 b3 : BitVec 8) :
    doCrc e tab (s ^^^ e.load b0 b1 b2 b3) 0 =
      doCrc e tab s (b0.setWidth 32) ^^^ e.load b1 b2 b3 0 := by
  cases e with
  | little =>
    have hbyte : low 8 (s ^^^ little.load b0 b1 b2 b3 ^^^ 0) =
        low 8 (s ^^^ b0.setWidth 32) := by
      apply eq_of_getLsbD_eq
      simp only [getLsbD_low, load]
      grind
    have hrest : little.load b0 b1 b2 b3 >>> 8 = little.load b1 b2 b3 0 := by
      simp only [load]
      grind
    rw [doCrc, doCrc, and_255, and_255, hbyte, ushiftRight_xor_distrib, hrest, xor_assoc]
  | big =>
    have hbyte : low 8 ((s ^^^ big.load b0 b1 b2 b3) >>> (24 : ℕ) ^^^ 0) =
        low 8 (s >>> (24 : ℕ) ^^^ b0.setWidth 32) := by
      apply eq_of_getLsbD_eq
      simp only [getLsbD_low, load]
      grind
    have hrest : big.load b0 b1 b2 b3 <<< 8 = big.load b1 b2 b3 0 := by
      simp only [load]
      grind
    rw [doCrc, doCrc, and_255, and_255, hbyte, shiftLeft_xor_distrib, hrest, xor_assoc]

lemma load_zero (e : Endian) : e.load 0 0 0 0 = 0 := by
  cases e <;> rfl

lemma tailLoop_wordLoop :
    tailLoop e tab (wordLoop e tab crc p).1 (wordLoop e tab crc p).2 = tailLoop e tab crc p := by
  fun_induction wordLoop e tab crc p with
  | case1 crc b0 b1 b2 b3 p s s1 s2 s3 s4 ih =>
    rw [ih]
    simp only [tailLoop, s4, s3, s2, s1, s, doCrc_load, load_zero]
    simp
  | case2 crc p hp => rfl

lemma tailLoop_alignLoop :
    tailLoop e tab (alignLoop e tab b crc p).1 (alignLoop e tab b crc p).2 =
      tailLoop e tab crc p := by
  induction p generalizing b crc with
  | nil => rfl
  | cons x p ih =>
    simp only [alignLoop]
    split_ifs
    · exact ih _ _
    · rfl

lemma crcBuffer_eq : crcBuffer e tab b crc p = tailLoop e tab crc p := by
  have halign : ∀ r, r = (if b % 4 ≠ 0 ∧ p ≠ [] then alignLoop e tab b crc p else (crc, p)) →
      tailLoop e tab r.1 r.2 = tailLoop e tab crc p := by
    rintro r rfl
    split_ifs
    · exact tailLoop_alignLoop crc p b
    · rfl
  rw [← halign _ rfl]
  simp only [crcBuffer]
  split_ifs
  all_goals first | rfl | exact tailLoop_wordLoop _ _

lemma tailLoop_conv {conv : BitVec 32 → BitVec 32} {byte : BitVec 32 → BitVec 8 → BitVec 32}
    (h : ∀ s x, doCrc e tab (conv s) (x.setWidth 32) = conv (byte s x)) (s : BitVec 32) :
      tailLoop e tab (conv s) p = conv (p.foldl byte s) := by
  induction p generalizing s with
  | nil => rfl
  | cons x p ih => rw [tailLoop, h, ih, List.foldl_cons]

/-! ## The table has the feedback of a byte -/

section
variable (x : BitVec 32) (s y : BitVec 32)

lemma setWidth_byte_shiftRight (x : BitVec 8) : x.setWidth 32 >>> 8 = 0#32 := by
  ext i hi
  simp

lemma doCrc_little (s : BitVec 32) (x : BitVec 8) :
    doCrc .little (crc32initLe 8) s (x.setWidth 32) = Bitwise.byteLe s x := by
  have hindex : BitVec.ofNat 32 (low 8 (s ^^^ x.setWidth 32)).toNat =
      low 8 (s ^^^ x.setWidth 32) := ofNat_toNat _ _
  have hlt : (low 8 (s ^^^ x.setWidth 32)).toNat < 2 ^ 8 := by
    rw [low, toNat_setWidth]
    exact lt_of_le_of_lt (Nat.mod_le _ _) (isLt _)
  rw [doCrc, and_255, crc32initLe_get (by decide) hlt, hindex, Bitwise.byteLe, bitLe_iterate,
    clockDown_split _ (s ^^^ _), ushiftRight_xor_distrib, setWidth_byte_shiftRight,
    xor_zero]

lemma doCrc_big (s : BitVec 32) (x : BitVec 8) :
    doCrc .big (crc32initBe 8) s (x.setWidth 32) = Bitwise.byteBe s x := by
  have hlt : (low 8 (s >>> (24 : ℕ) ^^^ x.setWidth 32)).toNat < 2 ^ 8 := by
    rw [low, toNat_setWidth]
    exact lt_of_le_of_lt (Nat.mod_le _ _) (isLt _)
  have htop : atTop 8 (low 8 (s >>> (24 : ℕ) ^^^ x.setWidth 32)).toNat =
      high 8 (s ^^^ x.setWidth 32 <<< (24 : ℕ)) := by
    rw [atTop, high]
    apply eq_of_getLsbD_eq
    simp [getLsbD_low]
    grind
  have hgone : (x.setWidth 32 <<< (24 : ℕ)) <<< 8 = 0#32 := by
    simp
  rw [doCrc, and_255, crc32initBe, (filledBe_rounds (by decide) le_rfl).get _ hlt, htop,
    Bitwise.byteBe, bitBe_iterate, clockUp_split _ (s ^^^ _) (by decide), shiftLeft_xor_distrib,
    hgone, xor_zero]

/-! ## The other byte order -/

lemma getLsbD_swab32 {i : ℕ} (hi : i < 32) :
    (swab32 x).getLsbD i = x.getLsbD (8 * (3 - i / 8) + i % 8) := by
  rw [swab32]
  interval_cases i <;> simp

lemma swab32_xor (x y : BitVec 32) : swab32 (x ^^^ y) = swab32 x ^^^ swab32 y := by
  apply eq_of_getLsbD_eq
  intro i hi
  rw [getLsbD_swab32 _ hi, getLsbD_xor, getLsbD_xor, getLsbD_swab32 _ hi, getLsbD_swab32 _ hi]

lemma swab32_swab32 : swab32 (swab32 x) = x := by
  apply eq_of_getLsbD_eq
  intro i hi
  rw [getLsbD_swab32 _ hi, getLsbD_swab32 _ (by omega)]
  congr 1
  omega

lemma swab32_shiftLeft : swab32 (x <<< 8) = swab32 x >>> 8 := by
  apply eq_of_getLsbD_eq
  intro i hi
  rw [getLsbD_swab32 _ hi, getLsbD_ushiftRight]
  by_cases h : 8 + i < 32
  · rw [getLsbD_swab32 _ h]
    grind
  · grind

lemma swab32_shiftRight : swab32 (x >>> 8) = swab32 x <<< 8 := by
  apply eq_of_getLsbD_eq
  intro i hi
  rw [getLsbD_swab32 _ hi, getLsbD_shiftLeft]
  by_cases h : 8 ≤ i
  · rw [getLsbD_swab32 _ (by omega)]
    grind
  · grind

lemma low_swab32 : low 8 (swab32 s ^^^ y) = low 8 (s >>> (24 : ℕ) ^^^ y) := by
  apply eq_of_getLsbD_eq
  intro i hi
  rw [getLsbD_low, getLsbD_low, getLsbD_xor, getLsbD_swab32 _ hi]
  grind

lemma low_swab32_shiftRight : low 8 (swab32 s >>> (24 : ℕ) ^^^ y) = low 8 (s ^^^ y) := by
  rw [← low_swab32, swab32_swab32]

end

lemma Table.get_map (tab : Table) (i : ℕ) : Table.get (tab.map swab32) i = swab32 (tab.get i) := by
  rw [Table.get, Table.get, getD_eq_getD_getElem?, getD_eq_getD_getElem?,
    getElem?_map]
  cases tab[i]? <;> rfl

/-- On a big-endian machine `crc32_le` keeps the bytes of the register in reverse order. -/
lemma doCrc_big_swab32 (s x : BitVec 32) :
    doCrc .big (tab.map swab32) (swab32 s) x = swab32 (doCrc .little tab s x) := by
  rw [doCrc, doCrc, and_255, and_255, low_swab32_shiftRight, Table.get_map, swab32_xor,
    swab32_shiftRight]

lemma doCrc_little_swab32 (s x : BitVec 32) :
    doCrc .little (tab.map swab32) (swab32 s) x = swab32 (doCrc .big tab s x) := by
  rw [doCrc, doCrc, and_255, and_255, low_swab32, Table.get_map, swab32_xor, swab32_shiftLeft]

lemma crc32Le_eq (e : Endian) : crc32Le e b crc p = Bitwise.crc32Le crc p := by
  rw [crc32Le, crcBuffer_eq]
  cases e with
  | little =>
    have hmap : (crc32initLe 8).map little.le32 = crc32initLe 8 := map_id _
    rw [hmap]
    exact tailLoop_conv p doCrc_little crc
  | big =>
    have hloop : tailLoop .big ((crc32initLe 8).map swab32) (swab32 crc) p =
        swab32 (Bitwise.crc32Le crc p) :=
      tailLoop_conv p (fun s x => by rw [doCrc_big_swab32, doCrc_little]) crc
    exact (congrArg swab32 hloop).trans (swab32_swab32 _)

lemma crc32Be_eq (e : Endian) : crc32Be e b crc p = Bitwise.crc32Be crc p := by
  rw [crc32Be, crcBuffer_eq]
  cases e with
  | little =>
    have hloop : tailLoop .little ((crc32initBe 8).map swab32) (swab32 crc) p =
        swab32 (Bitwise.crc32Be crc p) :=
      tailLoop_conv p (fun s x => by rw [doCrc_little_swab32, doCrc_big]) crc
    exact (congrArg swab32 hloop).trans (swab32_swab32 _)
  | big =>
    have hmap : (crc32initBe 8).map big.be32 = crc32initBe 8 := map_id _
    rw [hmap]
    exact tailLoop_conv p doCrc_big crc

end

/-- The checksums with tables are the bitwise ones, for every seed, buffer, alignment and byte
order of the machine. -/
theorem crc32_table_eq_bitwise (e : Endian) (b : ℕ) (crc : BitVec 32) (p : List (BitVec 8)) :
    crc32Le e b crc p = Bitwise.crc32Le crc p ∧ crc32Be e b crc p = Bitwise.crc32Be crc p :=
  ⟨crc32Le_eq crc p b e, crc32Be_eq crc p b e⟩

end BooxKernel.Crc32
