import Mathlib.Data.BitVec
import Mathlib.Tactic

/-!
# The tags of YAFFS2

The tags of a chunk are packed into four words and stored with parities over their bytes, from
`fs/yaffs2/yaffs_packedtags2.c` and `fs/yaffs2/yaffs_ecc.c`. The bytes of a word come in the order
of the machine.
-/
namespace BooxKernel.Yaffs

/-- `unsigned`. -/
abbrev U32 := BitVec 32

/-- `unsigned char`. -/
abbrev U8 := BitVec 8

section Ecc

/-- `column_parity_table`. -/
def columnParityTable : Array U8 :=
  #[
    0x00, 0x55, 0x59, 0x0c, 0x65, 0x30, 0x3c, 0x69, 0x69, 0x3c, 0x30, 0x65, 0x0c, 0x59, 0x55, 0x00,
    0x95, 0xc0, 0xcc, 0x99, 0xf0, 0xa5, 0xa9, 0xfc, 0xfc, 0xa9, 0xa5, 0xf0, 0x99, 0xcc, 0xc0, 0x95,
    0x99, 0xcc, 0xc0, 0x95, 0xfc, 0xa9, 0xa5, 0xf0, 0xf0, 0xa5, 0xa9, 0xfc, 0x95, 0xc0, 0xcc, 0x99,
    0x0c, 0x59, 0x55, 0x00, 0x69, 0x3c, 0x30, 0x65, 0x65, 0x30, 0x3c, 0x69, 0x00, 0x55, 0x59, 0x0c,
    0xa5, 0xf0, 0xfc, 0xa9, 0xc0, 0x95, 0x99, 0xcc, 0xcc, 0x99, 0x95, 0xc0, 0xa9, 0xfc, 0xf0, 0xa5,
    0x30, 0x65, 0x69, 0x3c, 0x55, 0x00, 0x0c, 0x59, 0x59, 0x0c, 0x00, 0x55, 0x3c, 0x69, 0x65, 0x30,
    0x3c, 0x69, 0x65, 0x30, 0x59, 0x0c, 0x00, 0x55, 0x55, 0x00, 0x0c, 0x59, 0x30, 0x65, 0x69, 0x3c,
    0xa9, 0xfc, 0xf0, 0xa5, 0xcc, 0x99, 0x95, 0xc0, 0xc0, 0x95, 0x99, 0xcc, 0xa5, 0xf0, 0xfc, 0xa9,
    0xa9, 0xfc, 0xf0, 0xa5, 0xcc, 0x99, 0x95, 0xc0, 0xc0, 0x95, 0x99, 0xcc, 0xa5, 0xf0, 0xfc, 0xa9,
    0x3c, 0x69, 0x65, 0x30, 0x59, 0x0c, 0x00, 0x55, 0x55, 0x00, 0x0c, 0x59, 0x30, 0x65, 0x69, 0x3c,
    0x30, 0x65, 0x69, 0x3c, 0x55, 0x00, 0x0c, 0x59, 0x59, 0x0c, 0x00, 0x55, 0x3c, 0x69, 0x65, 0x30,
    0xa5, 0xf0, 0xfc, 0xa9, 0xc0, 0x95, 0x99, 0xcc, 0xcc, 0x99, 0x95, 0xc0, 0xa9, 0xfc, 0xf0, 0xa5,
    0x0c, 0x59, 0x55, 0x00, 0x69, 0x3c, 0x30, 0x65, 0x65, 0x30, 0x3c, 0x69, 0x00, 0x55, 0x59, 0x0c,
    0x99, 0xcc, 0xc0, 0x95, 0xfc, 0xa9, 0xa5, 0xf0, 0xf0, 0xa5, 0xa9, 0xfc, 0x95, 0xc0, 0xcc, 0x99,
    0x95, 0xc0, 0xcc, 0x99, 0xf0, 0xa5, 0xa9, 0xfc, 0xfc, 0xa9, 0xa5, 0xf0, 0x99, 0xcc, 0xc0, 0x95,
    0x00, 0x55, 0x59, 0x0c, 0x65, 0x30, 0x3c, 0x69, 0x69, 0x3c, 0x30, 0x65, 0x0c, 0x59, 0x55, 0x00]

/-- `column_parity_table[b]`. -/
def columnParity (b : U8) : U8 := columnParityTable.getD b.toNat 0

/-- `yaffs_ECCOther`. -/
@[ext]
structure ECCOther where
  colParity : U8
  lineParity : U32
  lineParityPrime : U32
  deriving DecidableEq

/-- The loop of `yaffs_ECCCalculateOther` from byte `i` on. -/
def eccLoop (i : ℕ) (col : U8) (line linePrime : U32) : List U8 → U8 × U32 × U32
  | [] => (col, line, linePrime)
  | byte :: data =>
    let b := columnParity byte
    if b &&& 1 ≠ 0 then
      eccLoop (i + 1) (col ^^^ b) (line ^^^ .ofNat 32 i) (linePrime ^^^ ~~~.ofNat 32 i) data
    else eccLoop (i + 1) (col ^^^ b) line linePrime data

/-- `yaffs_ECCCalculateOther`. -/
def eccCalculateOther (data : List U8) : ECCOther :=
  let (col, line, linePrime) := eccLoop 0 0 0 0 data
  ⟨(col >>> (2 : ℕ)) &&& 0x3f, line, linePrime⟩

/-- `yaffs_CountBits` and `yaffs_CountBits32`. -/
def countBits (x : ℕ) : ℕ := if x = 0 then 0 else x % 2 + countBits (x / 2)

/-- `yaffs_ECCCorrectOther`: its result, with the data and the parities that it leaves. -/
def eccCorrectOther (data : List U8) (readEcc testEcc : ECCOther) : ℤ × List U8 × ECCOther :=
  let cDelta := readEcc.colParity ^^^ testEcc.colParity
  let lDelta := readEcc.lineParity ^^^ testEcc.lineParity
  let lDeltaPrime := readEcc.lineParityPrime ^^^ testEcc.lineParityPrime
  if cDelta.zeroExtend 32 ||| lDelta ||| lDeltaPrime = 0 then (0, data, readEcc)
  else if lDelta = ~~~lDeltaPrime ∧ (cDelta ^^^ (cDelta >>> (1 : ℕ))) &&& 0x15 = 0x15 then
    let bit := (if cDelta &&& 0x20 ≠ 0 then 4 else 0) ||| (if cDelta &&& 0x08 ≠ 0 then 2 else 0) |||
      (if cDelta &&& 0x02 ≠ 0 then 1 else 0)
    if lDelta.toNat ≥ data.length then (-1, data, readEcc)
    else (1, data.modify lDelta.toNat (· ^^^ .twoPow 8 bit), readEcc)
  else if countBits lDelta.toNat + countBits lDeltaPrime.toNat + countBits cDelta.toNat = 1 then
    (1, data, testEcc)
  else (-1, data, readEcc)

end Ecc

section Tags

/-- `yaffs_ECCResult`. -/
inductive ECCResult
  | unknown
  | noError
  | fixed
  | unfixed
  deriving DecidableEq

/-- `yaffs_ExtendedTags`. -/
structure ExtendedTags where
  validMarker0 : U32 := 0
  chunkUsed : U32 := 0
  objectId : U32 := 0
  chunkId : U32 := 0
  byteCount : U32 := 0
  eccResult : ECCResult := .unknown
  blockBad : U32 := 0
  chunkDeleted : U32 := 0
  serialNumber : U32 := 0
  sequenceNumber : U32 := 0
  extraHeaderInfoAvailable : U32 := 0
  extraParentObjectId : U32 := 0
  extraIsShrinkHeader : U32 := 0
  extraShadows : U32 := 0
  extraObjectType : U32 := 0
  extraFileLength : U32 := 0
  extraEquivalentObjectId : U32 := 0
  validMarker1 : U32 := 0
  deriving DecidableEq

/-- `yaffs_InitialiseTags`. -/
def initialiseTags : ExtendedTags := { validMarker0 := 0xAAAAAAAA, validMarker1 := 0x55555555 }

/-- `yaffs_PackedTags2TagsPart`. -/
@[ext]
structure TagsPart where
  sequenceNumber : U32
  objectId : U32
  chunkId : U32
  byteCount : U32
  deriving DecidableEq

/-- `yaffs_PackedTags2`. -/
@[ext]
structure PackedTags2 where
  t : TagsPart
  ecc : ECCOther
  deriving DecidableEq

/-- The order of the bytes in a word. -/
inductive Endian
  | little
  | big

/-- Where byte `j` of a word begins. -/
def Endian.shift (e : Endian) (j : ℕ) : ℕ :=
  match e with
  | .little => 8 * j
  | .big => 8 * (3 - j)

variable (e : Endian)

/-- The bytes of a word, in the order of their addresses. -/
def wordBytes (w : U32) : List U8 := (List.range 4).map fun j => w.extractLsb' (e.shift j) 8

/-- The word of four bytes. -/
def ofBytes (data : List U8) : U32 :=
  (List.range 4).foldl (fun w j => w ||| (data.getD j 0).zeroExtend 32 <<< e.shift j) 0

/-- The tags as bytes, as the ECC code sees them. -/
def TagsPart.bytes (t : TagsPart) : List U8 :=
  wordBytes e t.sequenceNumber ++ wordBytes e t.objectId ++ wordBytes e t.chunkId ++
    wordBytes e t.byteCount

def TagsPart.ofBytes (data : List U8) : TagsPart :=
  ⟨Yaffs.ofBytes e data, Yaffs.ofBytes e (data.drop 4), Yaffs.ofBytes e (data.drop 8),
    Yaffs.ofBytes e (data.drop 12)⟩

/-- `EXTRA_HEADER_INFO_FLAG`. -/
def extraHeaderInfoFlag : U32 := 0x80000000

/-- `EXTRA_SHRINK_FLAG`. -/
def extraShrinkFlag : U32 := 0x40000000

/-- `EXTRA_SHADOWS_FLAG`. -/
def extraShadowsFlag : U32 := 0x20000000

/-- `ALL_EXTRA_FLAGS`. -/
def allExtraFlags : U32 := 0xF0000000

/-- `EXTRA_OBJECT_TYPE_SHIFT`. -/
def extraObjectTypeShift : ℕ := 28

/-- `EXTRA_OBJECT_TYPE_MASK`. -/
def extraObjectTypeMask : U32 := 0xF0000000

/-- `YAFFS_OBJECT_TYPE_FILE`. -/
def objectTypeFile : U32 := 1

/-- `YAFFS_OBJECT_TYPE_HARDLINK`. -/
def objectTypeHardlink : U32 := 4

/-- `yaffs_PackTags2TagsPart`. -/
def packTags2TagsPart (t : ExtendedTags) : TagsPart :=
  if t.chunkId = 0 ∧ t.extraHeaderInfoAvailable ≠ 0 then
    let chunkId := extraHeaderInfoFlag ||| t.extraParentObjectId
    let chunkId := if t.extraIsShrinkHeader ≠ 0 then chunkId ||| extraShrinkFlag else chunkId
    let chunkId := if t.extraShadows ≠ 0 then chunkId ||| extraShadowsFlag else chunkId
    { sequenceNumber := t.sequenceNumber
      objectId := (t.objectId &&& ~~~extraObjectTypeMask) |||
        (t.extraObjectType <<< extraObjectTypeShift)
      chunkId := chunkId
      byteCount :=
        if t.extraObjectType = objectTypeHardlink then t.extraEquivalentObjectId
        else if t.extraObjectType = objectTypeFile then t.extraFileLength
        else 0 }
  else ⟨t.sequenceNumber, t.objectId, t.chunkId, t.byteCount⟩

/-- `yaffs_PackTags2`. -/
def packTags2 (t : ExtendedTags) : PackedTags2 :=
  let part := packTags2TagsPart t
  ⟨part, eccCalculateOther (part.bytes e)⟩

/-- `yaffs_UnpackTags2TagsPart`. -/
def unpackTags2TagsPart (ptt : TagsPart) : ExtendedTags :=
  if ptt.sequenceNumber ≠ 0xFFFFFFFF then
    let t : ExtendedTags :=
      { initialiseTags with
        blockBad := 0
        chunkUsed := 1
        objectId := ptt.objectId
        chunkId := ptt.chunkId
        byteCount := ptt.byteCount
        chunkDeleted := 0
        serialNumber := 0
        sequenceNumber := ptt.sequenceNumber }
    if ptt.chunkId &&& extraHeaderInfoFlag ≠ 0 then
      let type := ptt.objectId >>> extraObjectTypeShift
      let t : ExtendedTags :=
        { t with
          chunkId := 0
          byteCount := 0
          extraHeaderInfoAvailable := 1
          extraParentObjectId := ptt.chunkId &&& ~~~allExtraFlags
          extraIsShrinkHeader := if ptt.chunkId &&& extraShrinkFlag ≠ 0 then 1 else 0
          extraShadows := if ptt.chunkId &&& extraShadowsFlag ≠ 0 then 1 else 0
          extraObjectType := type
          objectId := t.objectId &&& ~~~extraObjectTypeMask }
      if type = objectTypeHardlink then { t with extraEquivalentObjectId := ptt.byteCount }
      else { t with extraFileLength := ptt.byteCount }
    else t
  else initialiseTags

/-- `yaffs_UnpackTags2`: the tags, with the packed tags as the correction leaves them. -/
def unpackTags2 (pt : PackedTags2) : ExtendedTags × PackedTags2 :=
  if pt.t.sequenceNumber ≠ 0xFFFFFFFF then
    let ecc := eccCalculateOther (pt.t.bytes e)
    let (result, data, readEcc) := eccCorrectOther (pt.t.bytes e) pt.ecc ecc
    let eccResult : ECCResult :=
      if result = 0 then .noError else if result = 1 then .fixed else if result = -1 then .unfixed
      else .unknown
    let pt : PackedTags2 := ⟨.ofBytes e data, readEcc⟩
    ({ unpackTags2TagsPart pt.t with eccResult := eccResult }, pt)
  else ({ unpackTags2TagsPart pt.t with eccResult := .noError }, pt)

end Tags

end BooxKernel.Yaffs
