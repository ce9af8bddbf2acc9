import BooxKernel.Lib.Lists
import BooxKernel.Yaffs.Ecc

/-!
# Tags come back from the medium

Packing and unpacking give the tags back, and so they do when one bit of what was packed has
changed.
-/
namespace BooxKernel.Yaffs
open BitVec List

section Bytes

variable (e : Endian)

@[simp]
lemma length_wordBytes (w : U32) : (wordBytes e w).length = 4 := by
  simp [wordBytes]

@[simp]
lemma ofBytes_wordBytes (w : U32) (l : List U8) : ofBytes e (wordBytes e w ++ l) = w := by
  have hbytes : ofBytes e (wordBytes e w ++ l) =
      (range 4).foldl
        (fun v j => v ||| (w.extractLsb' (e.shift j) 8).zeroExtend 32 <<< e.shift j) 0 := rfl
  rw [hbytes]
  ext i hi
  cases e <;> simp [Endian.shift, range_succ] <;> interval_cases i <;> simp

/-- The byte of a word that holds bit `k`. -/
def Endian.byte (k : ℕ) : ℕ :=
  match e with
  | .little => k / 8
  | .big => 3 - k / 8

lemma wordBytes_invert (w : U32) (k : Fin 32) :
    wordBytes e (w ^^^ .twoPow 32 k) =
      (wordBytes e w).modify (e.byte k) (· ^^^ .twoPow 8 (k % 8)) := by
  have hbit : ∀ j : Fin 4, ∀ k : Fin 32, (twoPow 32 k).extractLsb' (e.shift j) 8 =
      if e.byte k = j then .twoPow 8 (k % 8) else 0 := by
    cases e <;> decide
  refine ext_getElem (by simp) fun j hj _ => ?_
  rw [getElem_modify]
  simp only [wordBytes, getElem_map, getElem_range, extractLsb'_xor]
  rw [hbit ⟨j, by simpa using hj⟩ k]
  split_ifs <;> simp

/-- The words of the packed tags. -/
inductive Word
  | sequenceNumber
  | objectId
  | chunkId
  | byteCount

/-- The packed tags with bit `k` of one word inverted. -/
def TagsPart.invert (t : TagsPart) (k : Fin 32) : Word → TagsPart
  | .sequenceNumber => { t with sequenceNumber := t.sequenceNumber ^^^ .twoPow 32 k }
  | .objectId => { t with objectId := t.objectId ^^^ .twoPow 32 k }
  | .chunkId => { t with chunkId := t.chunkId ^^^ .twoPow 32 k }
  | .byteCount => { t with byteCount := t.byteCount ^^^ .twoPow 32 k }

@[simp]
lemma TagsPart.length_bytes (t : TagsPart) : (t.bytes e).length = 16 := by
  simp [TagsPart.bytes]

@[simp]
lemma TagsPart.ofBytes_bytes (t : TagsPart) : TagsPart.ofBytes e (t.bytes e) = t := by
  have hnil (w : U32) : Yaffs.ofBytes e (wordBytes e w) = w := by
    simpa using ofBytes_wordBytes e w []
  simp [TagsPart.bytes, TagsPart.ofBytes, drop_append, drop_eq_nil_of_le, hnil]

lemma TagsPart.bytes_invert (t : TagsPart) (k : Fin 32) (w : Word) :
    ∃ n < 16, ∃ b : Fin 8, (t.invert k w).bytes e = invertBit (t.bytes e) n b := by
  let words (t : TagsPart) : List U32 := [t.sequenceNumber, t.objectId, t.chunkId, t.byteCount]
  have hbytes (t : TagsPart) : t.bytes e = (words t).flatMap (wordBytes e) := by
    simp [TagsPart.bytes, words]
  obtain ⟨j, hj, hwords⟩ : ∃ j < 4, words (t.invert k w) =
      (words t).modify j (· ^^^ .twoPow 32 k) := by
    cases w with
    | sequenceNumber => exact ⟨0, by decide, rfl⟩
    | objectId => exact ⟨1, by decide, rfl⟩
    | chunkId => exact ⟨2, by decide, rfl⟩
    | byteCount => exact ⟨3, by decide, rfl⟩
  have hbyte : e.byte k < 4 := by
    cases e <;> simp only [Endian.byte] <;> omega
  refine ⟨4 * j + e.byte k, by omega, ⟨k % 8, by omega⟩, ?_⟩
  rw [hbytes, hwords]
  exact Lists.flatMap_modify (length_wordBytes e) hbyte (fun v => wordBytes_invert e v k) _ j

end Bytes

section Fields

/-- The extra fields of an object header have come back as those of `r`. -/
structure HeaderRecovered (t r : ExtendedTags) : Prop where
  chunkId : r.chunkId = 0
  byteCount : r.byteCount = 0
  available : r.extraHeaderInfoAvailable = 1
  parent : r.extraParentObjectId = t.extraParentObjectId
  shrink : r.extraIsShrinkHeader = if t.extraIsShrinkHeader ≠ 0 then 1 else 0
  shadows : r.extraShadows = if t.extraShadows ≠ 0 then 1 else 0
  type : r.extraObjectType = t.extraObjectType
  fileLength : t.extraObjectType = objectTypeFile → r.extraFileLength = t.extraFileLength
  equivalent : t.extraObjectType = objectTypeHardlink →
    r.extraEquivalentObjectId = t.extraEquivalentObjectId

/-- What is stored of the tags has come back as `r`. -/
structure Recovered (t r : ExtendedTags) : Prop where
  sequenceNumber : r.sequenceNumber = t.sequenceNumber
  objectId : r.objectId = t.objectId
  chunk : ¬ (t.chunkId = 0 ∧ t.extraHeaderInfoAvailable ≠ 0) →
    r.chunkId = t.chunkId ∧ r.byteCount = t.byteCount
  header : t.chunkId = 0 ∧ t.extraHeaderInfoAvailable ≠ 0 → HeaderRecovered t r

/-- The bounds under which the fields leave the high bits of their words to the flags. -/
structure Fits (t : ExtendedTags) : Prop where
  objectId : t.objectId.toNat < 2 ^ 28
  parent : t.extraParentObjectId.toNat < 2 ^ 28
  chunkId : t.chunkId.toNat < 2 ^ 31
  type : t.extraObjectType.toNat < 16

variable {w v p o type : U32}

lemma getLsbD_of_lt {n i : ℕ} (h : w.toNat < 2 ^ n) (hi : n ≤ i) : w.getLsbD i = false := by
  exact Nat.testBit_lt_two_pow (h.trans_le (Nat.pow_le_pow_right (by decide) hi))

lemma and_twoPow_ne_zero (w : U32) (k : Fin 32) : w &&& .twoPow 32 k ≠ 0 ↔ w.getLsbD k = true := by
  have hne : ∀ k : Fin 32, twoPow 32 k ≠ 0#32 := by decide
  rw [and_twoPow]
  split_ifs with h
  · exact iff_of_true (hne k) h
  · exact iff_of_false (not_not.2 rfl) h

lemma or_and_not_flags (hw : w.toNat < 2 ^ 28) (hv : ∀ i < 28, v.getLsbD i = false)
    : (w ||| v) &&& ~~~allExtraFlags = w := by
  have hflags : ∀ i : Fin 32, allExtraFlags.getLsbD i = decide (28 ≤ i.val) := by decide
  ext i hi
  have hi' := hflags ⟨i, hi⟩
  by_cases h : 28 ≤ i
  · simp_all [← getLsbD_eq_getElem, getLsbD_of_lt hw h]
  · simp_all [← getLsbD_eq_getElem]

variable {t : ExtendedTags}

lemma unpack_pack_chunk (h : Fits t) (hseq : t.sequenceNumber ≠ 0xFFFFFFFF)
    (hchunk : ¬ (t.chunkId = 0 ∧ t.extraHeaderInfoAvailable ≠ 0)) :
    Recovered t (unpackTags2TagsPart (packTags2TagsPart t)) := by
  have hflag : ¬ t.chunkId &&& extraHeaderInfoFlag ≠ 0 := by
    intro hne
    have hbit : t.chunkId.getLsbD 31 = true := (and_twoPow_ne_zero t.chunkId 31).1 hne
    rw [getLsbD_of_lt h.chunkId le_rfl] at hbit
    contradiction
  simp only [packTags2TagsPart, if_neg hchunk, unpackTags2TagsPart, if_pos hseq, if_neg hflag]
  exact ⟨rfl, rfl, fun _ => ⟨rfl, rfl⟩, fun hheader => absurd hheader hchunk⟩

lemma or_and_flag (hw : w.toNat < 2 ^ 28) (k : Fin 32) (hk : 28 ≤ k.val) :
    (w ||| v) &&& .twoPow 32 k ≠ 0 ↔ v.getLsbD k = true := by
  rw [and_twoPow_ne_zero, getLsbD_or, getLsbD_of_lt hw hk, Bool.false_or]

lemma packed_parent (hp : p.toNat < 2 ^ 28) {P Q : Prop}
    [Decidable P] [Decidable Q] (hw : w =
      if Q then
        (if P then extraHeaderInfoFlag ||| p ||| extraShrinkFlag else extraHeaderInfoFlag ||| p)
          ||| extraShadowsFlag
      else if P then extraHeaderInfoFlag ||| p ||| extraShrinkFlag
      else extraHeaderInfoFlag ||| p) :
    w &&& extraHeaderInfoFlag ≠ 0 ∧ w &&& ~~~allExtraFlags = p ∧
      (w &&& extraShrinkFlag ≠ 0 ↔ P) ∧ (w &&& extraShadowsFlag ≠ 0 ↔ Q) := by
  obtain ⟨v, hv, hlow, h31, h30, h29⟩ : ∃ v : U32, w = p ||| v ∧ (∀ i < 28, v.getLsbD i = false) ∧
      v.getLsbD 31 = true ∧ (v.getLsbD 30 = true ↔ P) ∧ (v.getLsbD 29 = true ↔ Q) := by
    refine ⟨extraHeaderInfoFlag ||| (if P then extraShrinkFlag else 0) |||
      (if Q then extraShadowsFlag else 0), ?_, ?_⟩
    · rw [hw, or_comm extraHeaderInfoFlag p]
      split_ifs <;> simp [BitVec.or_assoc]
    · by_cases P <;> by_cases Q <;> simp only [*, if_true, if_false] <;> decide
  subst hv
  exact ⟨(or_and_flag hp 31 (by decide)).2 h31, or_and_not_flags hp hlow,
    (or_and_flag hp 30 (by decide)).trans h30, (or_and_flag hp 29 (by decide)).trans h29⟩

lemma packed_object (ho : o.toNat < 2 ^ 28) (htype : type.toNat < 16) :
    ((o &&& ~~~extraObjectTypeMask) ||| (type <<< extraObjectTypeShift)) >>> extraObjectTypeShift =
        type ∧
      ((o &&& ~~~extraObjectTypeMask) ||| (type <<< extraObjectTypeShift)) &&&
        ~~~extraObjectTypeMask = o := by
  change ((o &&& ~~~allExtraFlags) ||| type <<< 28) >>> 28 = type ∧
    ((o &&& ~~~allExtraFlags) ||| type <<< 28) &&& ~~~allExtraFlags = o
  have hmask : o &&& ~~~allExtraFlags = o := by
    simpa using or_and_not_flags (v := 0) ho (by simp)
  rw [hmask]
  refine ⟨eq_of_getLsbD_eq fun i hi => ?_, or_and_not_flags ho fun i hi => by simp [hi]⟩
  rw [getLsbD_ushiftRight, getLsbD_or, getLsbD_of_lt ho (by omega)]
  by_cases hlow : i < 4
  · have h : 28 + i < 32 := by omega
    simp [h, -getLsbD_eq_getElem]
  · have h : ¬ 28 + i < 32 := by omega
    rw [getLsbD_of_lt (n := 4) htype (by omega)]
    simp [h]

lemma unpack_pack_header (h : Fits t) (hseq : t.sequenceNumber ≠ 0xFFFFFFFF)
    (hheader : t.chunkId = 0 ∧ t.extraHeaderInfoAvailable ≠ 0) :
    Recovered t (unpackTags2TagsPart (packTags2TagsPart t)) := by
  obtain ⟨htype, hobject⟩ := packed_object h.objectId h.type
  obtain ⟨hflag, hparent, hshrink, hshadows⟩ :=
    packed_parent (P := t.extraIsShrinkHeader ≠ 0) (Q := t.extraShadows ≠ 0) h.parent rfl
  simp only [packTags2TagsPart, if_pos hheader, unpackTags2TagsPart, if_pos hseq, if_pos hflag,
    htype, hobject, hparent, hshrink, hshadows]
  by_cases hlink : t.extraObjectType = objectTypeHardlink
  · have hfile : t.extraObjectType ≠ objectTypeFile := by
      rw [hlink]
      decide
    simp only [if_pos hlink]
    exact ⟨rfl, rfl, fun hchunk => absurd hheader hchunk,
      fun _ => ⟨rfl, rfl, rfl, rfl, rfl, rfl, rfl, fun h => absurd h hfile, fun _ => rfl⟩⟩
  · simp only [if_neg hlink]
    exact ⟨rfl, rfl, fun hchunk => absurd hheader hchunk,
      fun _ => ⟨rfl, rfl, rfl, rfl, rfl, rfl, rfl, fun h => if_pos h, fun h => absurd h hlink⟩⟩

lemma unpack_packTags2TagsPart (h : Fits t) (hseq : t.sequenceNumber ≠ 0xFFFFFFFF) :
    Recovered t (unpackTags2TagsPart (packTags2TagsPart t)) := by
  by_cases hheader : t.chunkId = 0 ∧ t.extraHeaderInfoAvailable ≠ 0
  · exact unpack_pack_header h hseq hheader
  · exact unpack_pack_chunk h hseq hheader

end Fields

section Errors

variable (e : Endian) {i j : Fin 32}

/-- A bit of the packed tags. -/
inductive Bit
  | word (w : Word) (k : Fin 32)
  | parity (b : ParityBit)

/-- The packed tags with one bit inverted. -/
def PackedTags2.invert (pt : PackedTags2) : Bit → PackedTags2
  | .word w k => { pt with t := pt.t.invert k w }
  | .parity b => { pt with ecc := pt.ecc.invert b }

lemma unpackTags2_of_correct {pt : PackedTags2} {part : TagsPart} {ecc : ECCOther} {c : ℤ}
    (hseq : pt.t.sequenceNumber ≠ 0xFFFFFFFF)
    (hcorrect : eccCorrectOther (pt.t.bytes e) pt.ecc (eccCalculateOther (pt.t.bytes e)) =
      (c, part.bytes e, ecc)) :
    unpackTags2 e pt =
      ({ unpackTags2TagsPart part with
          eccResult := if c = 0 then .noError else if c = 1 then .fixed
            else if c = -1 then .unfixed else .unknown },
        ⟨part, ecc⟩) := by
  simp only [unpackTags2, if_pos hseq, hcorrect, TagsPart.ofBytes_bytes]

lemma Recovered.withResult {t r : ExtendedTags} (h : Recovered t r) (result : ECCResult) :
    Recovered t { r with eccResult := result } :=
  ⟨h.sequenceNumber, h.objectId, h.chunk, fun hheader =>
    have hr := h.header hheader
    ⟨hr.chunkId, hr.byteCount, hr.available, hr.parent, hr.shrink, hr.shadows, hr.type,
      hr.fileLength, hr.equivalent⟩⟩

lemma ne_ones_of_getLsbD {w : U32} (hi : w.getLsbD i = false) : w ≠ 0xFFFFFFFF := by
  rintro rfl
  revert i
  decide

lemma xor_twoPow_ne_ones {w : U32} (hij : i ≠ j) (hi : w.getLsbD i = false)
    (hj : w.getLsbD j = false) (k : Fin 32) : w ^^^ .twoPow 32 k ≠ 0xFFFFFFFF := by
  intro h
  have hones : ∀ i : Fin 32, (0xFFFFFFFF : U32).getLsbD i = true := by decide
  have hbit (l : Fin 32) (hl : w.getLsbD l = false) : l = k := by
    have hl' := hones l
    rw [← h, getLsbD_xor, hl] at hl'
    simp at hl'
    omega
  exact hij ((hbit i hi).trans (hbit j hj).symm)

variable {t : ExtendedTags}

lemma packTags2TagsPart_sequenceNumber :
    (packTags2TagsPart t).sequenceNumber = t.sequenceNumber := by
  unfold packTags2TagsPart
  split_ifs <;> rfl

lemma unpack_packTags2 (hseq : t.sequenceNumber ≠ 0xFFFFFFFF) :
    unpackTags2 e (packTags2 e t) =
      ({ unpackTags2TagsPart (packTags2TagsPart t) with eccResult := .noError }, packTags2 e t) := by
  have hseq' : (packTags2TagsPart t).sequenceNumber ≠ 0xFFFFFFFF := by
    rwa [packTags2TagsPart_sequenceNumber]
  have hcorrect : eccCorrectOther ((packTags2 e t).t.bytes e) (packTags2 e t).ecc
      (eccCalculateOther ((packTags2 e t).t.bytes e)) =
        (0, (packTags2TagsPart t).bytes e, eccCalculateOther ((packTags2TagsPart t).bytes e)) :=
    eccCorrectOther_self
  rw [unpackTags2_of_correct e hseq' hcorrect]
  rfl

section
variable (hij : i ≠ j) (hi : t.sequenceNumber.getLsbD i = false)
    (hj : t.sequenceNumber.getLsbD j = false) (b : Bit)
include hij hi hj

lemma invert_sequenceNumber : ((packTags2 e t).invert b).t.sequenceNumber ≠ 0xFFFFFFFF := by
  have hkeep : t.sequenceNumber ≠ 0xFFFFFFFF := ne_ones_of_getLsbD hi
  rw [← packTags2TagsPart_sequenceNumber] at hkeep hi hj
  cases b with
  | word w k =>
    cases w with
    | sequenceNumber => exact xor_twoPow_ne_ones hij hi hj k
    | objectId => exact hkeep
    | chunkId => exact hkeep
    | byteCount => exact hkeep
  | parity b => exact hkeep

lemma unpack_invert : unpackTags2 e ((packTags2 e t).invert b) =
      ({ unpackTags2TagsPart (packTags2TagsPart t) with eccResult := .fixed }, packTags2 e t) := by
  have hseq := invert_sequenceNumber e hij hi hj b
  have hcorrect : eccCorrectOther (((packTags2 e t).invert b).t.bytes e) ((packTags2 e t).invert b).ecc
      (eccCalculateOther (((packTags2 e t).invert b).t.bytes e)) =
        (1, (packTags2TagsPart t).bytes e, eccCalculateOther ((packTags2TagsPart t).bytes e)) := by
    cases b with
    | word w k =>
      obtain ⟨n, hn, l, hbytes⟩ := (packTags2TagsPart t).bytes_invert e k w
      simp only [PackedTags2.invert, packTags2, hbytes]
      exact eccCorrectOther_invert (by simpa using hn) (by simp) l
    | parity b => exact eccCorrectOther_parity b
  rw [unpackTags2_of_correct e hseq hcorrect]
  rfl

end

/-- Tags survive packing, and any single bit error in what is packed. -/
theorem yaffs_tags_round_trip (e : Endian) (t : ExtendedTags) (h : Fits t)
    (hseq : ∃ i j : Fin 32, i ≠ j ∧ t.sequenceNumber.getLsbD i = false ∧
      t.sequenceNumber.getLsbD j = false) :
    (Recovered t (unpackTags2 e (packTags2 e t)).1 ∧
        (unpackTags2 e (packTags2 e t)).1.eccResult = .noError) ∧
      ∀ b : Bit, Recovered t (unpackTags2 e ((packTags2 e t).invert b)).1 ∧
        (unpackTags2 e ((packTags2 e t).invert b)).1.eccResult = .fixed ∧
        (unpackTags2 e ((packTags2 e t).invert b)).2 = packTags2 e t := by
  obtain ⟨i, j, hij, hi, hj⟩ := hseq
  have hkeep : t.sequenceNumber ≠ 0xFFFFFFFF := ne_ones_of_getLsbD hi
  have hrec := unpack_packTags2TagsPart h hkeep
  refine ⟨?_, fun b => ?_⟩
  · rw [unpack_packTags2 e hkeep]
    exact ⟨hrec.withResult _, rfl⟩
  · rw [unpack_invert e hij hi hj b]
    exact ⟨hrec.withResult _, rfl, rfl⟩

/-- The header of a shrunken file. -/
theorem yaffs_tags_round_trip_file :
    let t : ExtendedTags :=
      { objectId := 257, sequenceNumber := 0x1000, extraHeaderInfoAvailable := 1,
        extraParentObjectId := 1, extraIsShrinkHeader := 1, extraObjectType := objectTypeFile,
        extraFileLength := 4096 }
    (unpackTags2 .little ((packTags2 .little t).invert (.word .chunkId 31))).1.extraFileLength =
      4096 := by
  intro t
  have hfits : Fits t := ⟨by decide, by decide, by decide, by decide⟩
  have hround := yaffs_tags_round_trip .little t hfits ⟨0, 1, by decide, by decide, by decide⟩
  exact (((hround.2 (.word .chunkId 31)).1.header ⟨rfl, by decide⟩).fileLength rfl)

end Errors

end BooxKernel.Yaffs
