import BooxKernel.Lib.Loops
import Mathlib.Data.BitVec

/-!
# Recovery of a journal

`fs/jbd/recovery.c` and the revoke table of `fs/jbd/revoke.c`. The log and the filesystem are
two stores: no filesystem block is a block of the log. A block is read as big-endian words. A
loop that never ends gives `none`. The counters of `struct recovery_info`, which are only
printed, are left out, and so are locks and reference counts.
-/
namespace BooxKernel.Jbd
open Function

/-- The fields of a `journal_t` that recovery does not change. -/
structure Config where
  /-- `BITS_PER_LONG`. -/
  bits : ℕ
  /-- `j_blocksize`. -/
  blocksize : ℕ
  /-- `j_first`. -/
  first : ℕ
  /-- `j_last`. -/
  last : ℕ
  /-- `j_maxlen`. -/
  maxlen : ℕ
  /-- `j_revoke->hash_size`. -/
  hashSize : ℕ
  hash : BitVec 32 → Fin hashSize
  blocksize_ge : 1024 ≤ blocksize
  first_lt : first < last
  last_le : last ≤ maxlen
  maxlen_lt : maxlen < 2 ^ 32

variable {c : Config}

/-- The words of a block. -/
abbrev Block (c : Config) : Type := Fin (c.blocksize / 4) → BitVec 32

/-- `be32_to_cpu` of the word at the byte `offset`. -/
def Block.be32 (bh : Block c) (offset : ℕ) : BitVec 32 :=
  if h : offset / 4 < c.blocksize / 4 then bh ⟨offset / 4, h⟩ else 0

def jfsMagicNumber : BitVec 32 := 0xc03b3998
def jfsDescriptorBlock : BitVec 32 := 1
def jfsCommitBlock : BitVec 32 := 2
def jfsRevokeBlock : BitVec 32 := 5

def jfsFlagEscape : BitVec 32 := 1
def jfsFlagSameUuid : BitVec 32 := 2
def jfsFlagLastTag : BitVec 32 := 8

namespace Block

def hMagic (bh : Block c) : BitVec 32 := bh.be32 0
def hBlocktype (bh : Block c) : BitVec 32 := bh.be32 4
def hSequence (bh : Block c) : BitVec 32 := bh.be32 8
def rCount (bh : Block c) : BitVec 32 := bh.be32 12

end Block

/-- A `journal_block_tag_t`. -/
structure Tag where
  blocknr : BitVec 32
  flags : BitVec 32

/-- The tag at `tagp`. -/
def Block.tag (bh : Block c) (tagp : ℕ) : Tag := ⟨bh.be32 tagp, bh.be32 (tagp + 4)⟩

/-- Where the tag behind `tag` starts: after the `UUID` that follows a tag without
`JFS_FLAG_SAME_UUID`. -/
def Tag.next (tag : Tag) (tagp : ℕ) : ℕ :=
  tagp + 8 + if tag.flags &&& jfsFlagSameUuid = 0 then 16 else 0

def Tag.isLast (tag : Tag) : Bool := tag.flags &&& jfsFlagLastTag ≠ 0

lemma Tag.lt_next (tag : Tag) (tagp : ℕ) : tagp < tag.next tagp := by
  rw [Tag.next]
  omega

inductive Errno
  | eio
  | enomem
  deriving DecidableEq, Repr

/-- What the devices answer. -/
structure Io (c : Config) where
  /-- The read of a block of the log. -/
  read : ℕ → Except Errno (Block c)
  /-- Whether `__getblk` has a buffer for a block of the filesystem. -/
  getblk : BitVec 32 → Bool

/-- `jread`, whose `offset` is an `unsigned int`. -/
def jread (io : Io c) (offset : ℕ) : Except Errno (Block c) :=
  if c.maxlen ≤ offset % 2 ^ 32 then .error .eio else io.read (offset % 2 ^ 32)

/-- The loop of `count_tags`. -/
def countTagsLoop (bh : Block c) (tagp nr : ℕ) : ℕ :=
  if tagp + 8 ≤ c.blocksize then
    let tag := bh.tag tagp
    if tag.isLast then nr + 1 else countTagsLoop bh (tag.next tagp) (nr + 1)
  else nr
termination_by c.blocksize - tagp
decreasing_by
  have := (bh.tag tagp).lt_next tagp
  omega

/-- `count_tags`. -/
def countTags (bh : Block c) : ℕ := countTagsLoop bh 12 0

/-- `wrap`, after an addition of `unsigned long`s. -/
def wrap (c : Config) (var : ℕ) : ℕ :=
  let var := var % 2 ^ c.bits
  if c.last ≤ var then var - (c.last - c.first) else var

/-! ## Transaction ids -/

/-- `tid_gt`. -/
def tidGt (x y : BitVec 32) : Bool := 0 < (x - y).toInt

/-- `tid_geq`. -/
def tidGeq (x y : BitVec 32) : Bool := 0 ≤ (x - y).toInt

/-! ## The revoke table -/

/-- A `struct jbd_revoke_record_s`. -/
structure RevokeRecord where
  sequence : BitVec 32
  blocknr : BitVec 32

/-- The lists of `j_revoke->hash_table`. -/
abbrev RevokeTable (c : Config) : Type := Fin c.hashSize → List RevokeRecord

/-- `insert_revoke_hash`, which waits for memory. -/
def insertRevokeHash (table : RevokeTable c) (blocknr seq : BitVec 32) : RevokeTable c :=
  update table (c.hash blocknr) (⟨seq, blocknr⟩ :: table (c.hash blocknr))

/-- `find_revoke_record`. -/
def findRevokeRecord (table : RevokeTable c) (blocknr : BitVec 32) : Option RevokeRecord :=
  (table (c.hash blocknr)).find? fun record => record.blocknr = blocknr

section
variable (table : RevokeTable c) (blocknr sequence : BitVec 32)

/-- The write to the record that `find_revoke_record` has found. -/
def setSequence : RevokeTable c :=
  update table (c.hash blocknr)
    ((table (c.hash blocknr)).replaceF fun record =>
      if record.blocknr = blocknr then some { record with sequence := sequence } else none)

/-- `journal_set_revoke`. -/
def journalSetRevoke : RevokeTable c :=
  match findRevokeRecord table blocknr with
  | some record =>
    if tidGt sequence record.sequence then setSequence table blocknr sequence else table
  | none => insertRevokeHash table blocknr sequence

/-- `journal_test_revoke`. -/
def journalTestRevoke : Bool :=
  match findRevokeRecord table blocknr with
  | some record => !tidGt sequence record.sequence
  | none => false

end

/-- The loop of `scan_revoke_records`, whose `offset` and `max` are `int`s. -/
def scanRevokeLoop (bh : Block c) (sequence : BitVec 32) (max : ℤ) (offset : ℕ)
    (table : RevokeTable c) : RevokeTable c :=
  if offset < max then
    scanRevokeLoop bh sequence max (offset + 4) (journalSetRevoke table (bh.be32 offset) sequence)
  else table
termination_by (max - offset).toNat

/-- `scan_revoke_records`. -/
def scanRevokeRecords (bh : Block c) (sequence : BitVec 32) (table : RevokeTable c) :
    RevokeTable c :=
  scanRevokeLoop bh sequence bh.rCount.toInt 16 table

/-! ## One pass -/

inductive Pass
  | scan
  | revoke
  | replay
  deriving DecidableEq, Repr

/-- The variables of `do_one_pass`, with the revoke table and the filesystem. -/
structure PassState (c : Config) where
  nextCommitId : BitVec 32
  nextLogBlock : ℕ
  success : Option Errno
  revoke : RevokeTable c
  fs : BitVec 32 → Block c

/-- The contents of a logged block. -/
def unescape (flags : BitVec 32) (obh : Block c) : Block c :=
  if flags &&& jfsFlagEscape ≠ 0 then fun i => if i.val = 0 then jfsMagicNumber else obh i else obh

/-- One tag of a descriptor block in the replay pass; an error stops the pass. -/
def replayTag (io : Io c) (tag : Tag) (st : PassState c) : Option Errno × PassState c :=
  let ioBlock := st.nextLogBlock
  let st := { st with nextLogBlock := wrap c (st.nextLogBlock + 1) }
  match jread io ioBlock with
  | .error err => (none, { st with success := some err })
  | .ok obh =>
    if journalTestRevoke st.revoke tag.blocknr st.nextCommitId then (none, st)
    else if io.getblk tag.blocknr then
      (none, { st with fs := update st.fs tag.blocknr (unescape tag.flags obh) })
    else (some .enomem, st)

/-- The loop of the replay pass over the tags of a descriptor block. -/
def replayTags (io : Io c) (bh : Block c) (tagp : ℕ) (st : PassState c) :
    Option Errno × PassState c :=
  if tagp + 8 ≤ c.blocksize then
    let tag := bh.tag tagp
    match replayTag io tag st with
    | (some err, st) => (some err, st)
    | (none, st) => if tag.isLast then (none, st) else replayTags io bh (tag.next tagp) st
  else (none, st)
termination_by c.blocksize - tagp
decreasing_by
  have := (bh.tag tagp).lt_next tagp
  omega

/-- How one round of the loop of `do_one_pass` ends. -/
inductive Round (c : Config)
  | next (st : PassState c)
  | done (st : PassState c)
  | failed (err : Errno) (st : PassState c)

/-- The `switch` of `do_one_pass`. -/
def passBlock (io : Io c) (pass : Pass) (bh : Block c) (st : PassState c) : Round c :=
  if bh.hBlocktype = jfsDescriptorBlock then
    if pass ≠ .replay then
      .next { st with nextLogBlock := wrap c (st.nextLogBlock + countTags bh) }
    else
      match replayTags io bh 12 st with
      | (some err, st) => .failed err st
      | (none, st) => .next st
  else if bh.hBlocktype = jfsCommitBlock then
    .next { st with nextCommitId := st.nextCommitId + 1 }
  else if bh.hBlocktype = jfsRevokeBlock then
    if pass ≠ .revoke then .next st
    else .next { st with revoke := scanRevokeRecords bh st.nextCommitId st.revoke }
  else .done st

section
variable (io : Io c) (pass : Pass) (endTransaction : BitVec 32) (st : PassState c)

/-- One round of the loop of `do_one_pass`. -/
def passRound : Round c :=
  if pass ≠ .scan ∧ tidGeq st.nextCommitId endTransaction then .done st
  else
    match jread io st.nextLogBlock with
    | .error err => .failed err st
    | .ok bh =>
      let st := { st with nextLogBlock := wrap c (st.nextLogBlock + 1) }
      if bh.hMagic ≠ jfsMagicNumber then .done st
      else if bh.hSequence ≠ st.nextCommitId then .done st
      else passBlock io pass bh st

/-- The loop of `do_one_pass`, with the error that stops it. -/
def passLoop : Option (Option Errno × PassState c) :=
  Loops.loop (fun st => some (match passRound io pass endTransaction st with
    | .next st => .next st
    | .done st => .done (none, st)
    | .failed err st => .done (some err, st))) st

lemma passLoop_round :
    passLoop io pass endTransaction st = match passRound io pass endTransaction st with
      | .next st => passLoop io pass endTransaction st
      | .done st => some (none, st)
      | .failed err st => some (some err, st) := by
  rw [passLoop, Loops.loop_eq]
  cases passRound io pass endTransaction st <;> rfl

end

/-- The fields of a `journal_t` that recovery reads or changes, and the filesystem. -/
structure Journal (c : Config) where
  /-- `s_sequence` of the superblock. -/
  sSequence : BitVec 32
  /-- `s_start` of the superblock. -/
  sStart : BitVec 32
  revoke : RevokeTable c
  transactionSequence : BitVec 32
  fs : BitVec 32 → Block c

/-- A `struct recovery_info`. -/
structure RecoveryInfo where
  startTransaction : BitVec 32
  endTransaction : BitVec 32

/-- `do_one_pass`. -/
def doOnePass (io : Io c) (pass : Pass) (info : RecoveryInfo) (j : Journal c) :
    Option (Option Errno × RecoveryInfo × Journal c) := do
  let info := if pass = .scan then { info with startTransaction := j.sSequence } else info
  let (err, st) ← passLoop io pass info.endTransaction
    ⟨j.sSequence, j.sStart.toNat, none, j.revoke, j.fs⟩
  let j := { j with revoke := st.revoke, fs := st.fs }
  if err.isSome then return (err, info, j)
  else if pass = .scan then
    return (st.success, { info with endTransaction := st.nextCommitId }, j)
  else if info.endTransaction ≠ st.nextCommitId then
    return (st.success.or (some .eio), info, j)
  else return (st.success, info, j)

/-- `journal_clear_revoke`. -/
def journalClearRevoke (j : Journal c) : Journal c := { j with revoke := fun _ => [] }

/-- The passes of `journal_recover`, each after a success of the one before. -/
def recoverPasses (io : Io c) (passes : List Pass) (info : RecoveryInfo) (j : Journal c) :
    Option (Option Errno × RecoveryInfo × Journal c) :=
  match passes with
  | [] => some (none, info, j)
  | pass :: passes => do
    let (err, info, j) ← doOnePass io pass info j
    if err.isSome then return (err, info, j) else recoverPasses io passes info j

/-- `journal_recover`. -/
def journalRecover (io : Io c) (j : Journal c) : Option (Option Errno × Journal c) :=
  if j.sStart = 0 then some (none, { j with transactionSequence := j.sSequence + 1 })
  else do
    let (err, info, j) ← recoverPasses io [.scan, .revoke, .replay] ⟨0, 0⟩ j
    return (err, journalClearRevoke { j with transactionSequence := info.endTransaction + 1 })

end BooxKernel.Jbd
