import BooxKernel.Jbd.Recovery

/-!
# The reads from the buffers of a journal

The passes once more, with reads that fail where they leave the buffer of a block, over a log with
any content. The loops over tags look whether a tag fits the block, but a revoke block says itself
how far its records reach.
-/
namespace BooxKernel.Jbd

variable {c : Config} {io : Io c} {j : Journal c} {pass : Pass} {endId : BitVec 32}
  {st : PassState c} {bh : Block c} {tagp offset : ℕ}

/-! ## Checked reads -/

section
variable (io : Io c) (pass : Pass) (endId : BitVec 32) (bh : Block c) (st : PassState c)

/-- `Block.be32` inside of the buffer. -/
def Block.read32 (offset : ℕ) : Option (BitVec 32) :=
  if offset + 4 ≤ c.blocksize then some (bh.be32 offset) else none

/-- `Block.tag` inside of the buffer. -/
def Block.readTag (tagp : ℕ) : Option Tag :=
  return ⟨← bh.read32 tagp, ← bh.read32 (tagp + 4)⟩

/-- `countTagsLoop` with checked reads. -/
def countTagsChecked (tagp nr : ℕ) : Option ℕ :=
  if tagp + 8 ≤ c.blocksize then
    (bh.readTag tagp).bind fun tag =>
      if tag.isLast then some (nr + 1) else countTagsChecked (tag.next tagp) (nr + 1)
  else some nr
termination_by c.blocksize - tagp
decreasing_by
  have := tag.lt_next tagp
  omega

/-- `scanRevokeLoop` with checked reads. -/
def scanRevokeChecked (sequence : BitVec 32) (max : ℤ) (offset : ℕ) (table : RevokeTable c) :
    Option (RevokeTable c) :=
  if offset < max then
    (bh.read32 offset).bind fun blocknr =>
      scanRevokeChecked sequence max (offset + 4) (journalSetRevoke table blocknr sequence)
  else some table
termination_by (max - offset).toNat

/-- `replayTags` with checked reads. The blocks that `replayTag` copies are copied as a whole. -/
def replayTagsChecked (tagp : ℕ) (st : PassState c) : Option (Option Errno × PassState c) :=
  if tagp + 8 ≤ c.blocksize then
    (bh.readTag tagp).bind fun tag =>
      match replayTag io tag st with
      | (some err, st) => some (some err, st)
      | (none, st) => if tag.isLast then some (none, st) else replayTagsChecked (tag.next tagp) st
  else some (none, st)
termination_by c.blocksize - tagp
decreasing_by
  have := tag.lt_next tagp
  omega

/-- `passBlock` with checked reads. -/
def passBlockChecked (blocktype : BitVec 32) : Option (Round c) := do
  if blocktype = jfsDescriptorBlock then
    if pass ≠ .replay then
      let nr ← countTagsChecked bh 12 0
      return .next { st with nextLogBlock := wrap c (st.nextLogBlock + nr) }
    else
      match ← replayTagsChecked io bh 12 st with
      | (some err, st) => return .failed err st
      | (none, st) => return .next st
  else if blocktype = jfsCommitBlock then
    return .next { st with nextCommitId := st.nextCommitId + 1 }
  else if blocktype = jfsRevokeBlock then
    if pass ≠ .revoke then return .next st
    else
      let count ← bh.read32 12
      let table ← scanRevokeChecked bh st.nextCommitId count.toInt 16 st.revoke
      return .next { st with revoke := table }
  else return .done st

/-- `passRound` with checked reads. -/
def passRoundChecked : Option (Round c) :=
  if pass ≠ .scan ∧ tidGeq st.nextCommitId endId then some (.done st)
  else
    match jread io st.nextLogBlock with
    | .error err => some (.failed err st)
    | .ok bh => do
      let st := { st with nextLogBlock := wrap c (st.nextLogBlock + 1) }
      if (← bh.read32 0) ≠ jfsMagicNumber then return .done st
      let blocktype ← bh.read32 4
      if (← bh.read32 8) ≠ st.nextCommitId then return .done st
      passBlockChecked io pass bh st blocktype

lemma read32_eq (hoffset : offset + 4 ≤ c.blocksize) : bh.read32 offset = some (bh.be32 offset) :=
  if_pos hoffset

lemma readTag_eq (hfit : tagp + 8 ≤ c.blocksize) : bh.readTag tagp = some (bh.tag tagp) := by
  rw [Block.readTag, read32_eq bh (by omega), read32_eq bh (by omega)]
  rfl

lemma countTagsChecked_eq (tagp nr : ℕ) :
    countTagsChecked bh tagp nr = some (countTagsLoop bh tagp nr) := by
  fun_induction countTagsLoop bh tagp nr with
  | case1 tagp nr hfit tag hlast =>
    rw [countTagsChecked, if_pos hfit, readTag_eq bh hfit]
    exact if_pos hlast
  | case2 tagp nr hfit tag hlast ih =>
    rw [countTagsChecked, if_pos hfit, readTag_eq bh hfit, ← ih]
    exact if_neg hlast
  | case3 tagp nr hfit => rw [countTagsChecked, if_neg hfit]

lemma replayTagsChecked_eq (tagp : ℕ) (st : PassState c) :
    replayTagsChecked io bh tagp st = some (replayTags io bh tagp st) := by
  fun_induction replayTags io bh tagp st with
  | case1 tagp st hfit tag err st' hround =>
    rw [replayTagsChecked, if_pos hfit, readTag_eq bh hfit, Option.bind_some, hround]
  | case2 tagp st hfit tag st' hround hlast =>
    rw [replayTagsChecked, if_pos hfit, readTag_eq bh hfit, Option.bind_some, hround]
    exact if_pos hlast
  | case3 tagp st hfit tag st' hround hlast ih =>
    rw [replayTagsChecked, if_pos hfit, readTag_eq bh hfit, Option.bind_some, hround, ← ih]
    exact if_neg hlast
  | case4 tagp st hfit => rw [replayTagsChecked, if_neg hfit]

/-- The records start at multiples of four, so the last one is inside of the block just if the
count is. -/
lemma scanRevokeChecked_eq (hdvd : 4 ∣ c.blocksize) (sequence : BitVec 32) (max : ℤ)
    (hoffset : 4 ∣ offset) (table : RevokeTable c) :
    scanRevokeChecked bh sequence max offset table =
      if max ≤ offset ∨ max ≤ c.blocksize then
        some (scanRevokeLoop bh sequence max offset table) else none := by
  fun_induction scanRevokeLoop bh sequence max offset table with
  | case1 offset table hlt ih =>
    rw [scanRevokeChecked, if_pos hlt]
    by_cases hfit : offset + 4 ≤ c.blocksize
    · rw [read32_eq bh hfit, Option.bind_some, ih (by omega)]
      exact if_congr (by omega) rfl rfl
    · rw [Block.read32, if_neg hfit, if_neg (by omega)]
      rfl
  | case2 offset table hle => rw [scanRevokeChecked, if_neg hle, if_pos (.inl (not_lt.1 hle))]

end

/-- A round of the revoke pass that gets to the records of the block `bh`. -/
structure ScansRecords (io : Io c) (endId : BitVec 32) (st : PassState c) (bh : Block c) :
    Prop where
  live : tidGeq st.nextCommitId endId = false
  read : jread io st.nextLogBlock = .ok bh
  header : Header bh jfsRevokeBlock st.nextCommitId

lemma passBlockChecked_eq (hdvd : 4 ∣ c.blocksize) :
    passBlockChecked io pass bh st bh.hBlocktype =
      if bh.hBlocktype = jfsRevokeBlock → pass = .revoke → bh.rCount.toInt ≤ c.blocksize then
        some (passBlock io pass bh st) else none := by
  have hsize := c.blocksize_ge
  have hcount : bh.read32 12 = some bh.rCount := read32_eq bh (by omega)
  have hrevoke := scanRevokeChecked_eq bh hdvd st.nextCommitId bh.rCount.toInt
    (by decide : 4 ∣ 16) st.revoke
  have hfit : (bh.rCount.toInt ≤ (16 : ℕ) ∨ bh.rCount.toInt ≤ c.blocksize) ↔
      bh.rCount.toInt ≤ c.blocksize := by omega
  simp only [hfit] at hrevoke
  rw [passBlockChecked, passBlock]
  by_cases hdesc : bh.hBlocktype = jfsDescriptorBlock
  · have hne : jfsDescriptorBlock ≠ jfsRevokeBlock := by decide
    simp only [hdesc, hne, if_true, false_imp_iff, countTagsChecked_eq, replayTagsChecked_eq]
    cases pass with
    | scan => rfl
    | revoke => rfl
    | replay => rcases replayTags io bh 12 st with ⟨_ | err, st'⟩ <;> simp
  by_cases hcommit : bh.hBlocktype = jfsCommitBlock
  · have hne : jfsCommitBlock ≠ jfsRevokeBlock := by decide
    simp only [hcommit, hne, if_neg (hcommit ▸ hdesc), if_true, false_imp_iff]
    rfl
  simp only [if_neg hdesc, if_neg hcommit]
  by_cases htype : bh.hBlocktype = jfsRevokeBlock
  · by_cases hpass : pass = .revoke
    · by_cases hle : bh.rCount.toInt ≤ c.blocksize
      · simp [htype, hpass, hcount, hrevoke, hle, scanRevokeRecords]
      · simp [htype, hpass, hcount, hrevoke, hle]
    · simp [htype, hpass]
  · simp [htype]

lemma passRoundChecked_header (hdone : ¬(pass ≠ .scan ∧ tidGeq st.nextCommitId endId))
    (hread : jread io st.nextLogBlock = .ok bh) :
    passRoundChecked io pass endId st =
      let st := { st with nextLogBlock := wrap c (st.nextLogBlock + 1) }
      if bh.hMagic ≠ jfsMagicNumber then some (.done st)
      else if bh.hSequence ≠ st.nextCommitId then some (.done st)
      else passBlockChecked io pass bh st bh.hBlocktype := by
  have hsize := c.blocksize_ge
  rw [passRoundChecked, if_neg hdone, hread]
  simp only [read32_eq bh (show 0 + 4 ≤ c.blocksize by omega),
    read32_eq bh (show 4 + 4 ≤ c.blocksize by omega),
    read32_eq bh (show 8 + 4 ≤ c.blocksize by omega)]
  rfl

lemma passRoundChecked_eq (hdvd : 4 ∣ c.blocksize)
    (hcount : pass = .revoke → ∀ bh, ScansRecords io endId st bh →
      bh.rCount.toInt ≤ c.blocksize) :
    passRoundChecked io pass endId st = some (passRound io pass endId st) := by
  by_cases hdone : pass ≠ .scan ∧ tidGeq st.nextCommitId endId
  · rw [passRoundChecked, passRound, if_pos hdone, if_pos hdone]
  cases hread : jread io st.nextLogBlock with
  | error err => rw [passRoundChecked, passRound, if_neg hdone, if_neg hdone, hread]
  | ok bh =>
    rw [passRoundChecked_header hdone hread, passRound, if_neg hdone, hread]
    by_cases hmagic : bh.hMagic = jfsMagicNumber
    · by_cases hsequence : bh.hSequence = st.nextCommitId
      · have hfit : bh.hBlocktype = jfsRevokeBlock → pass = .revoke →
            bh.rCount.toInt ≤ c.blocksize := by
          intro htype hpass
          refine hcount hpass bh ⟨?_, hread, hmagic, htype, hsequence⟩
          simpa [hpass] using hdone
        simp only [hmagic, hsequence, passBlockChecked_eq hdvd, if_pos hfit, ne_eq, not_true,
          if_false]
      · simp [hmagic, hsequence]
    · simp [hmagic]

lemma passRoundChecked_none (hdvd : 4 ∣ c.blocksize) (hscan : ScansRecords io endId st bh)
    (hcount : c.blocksize < bh.rCount.toInt) : passRoundChecked io .revoke endId st = none := by
  have hheader := hscan.header
  rw [passRoundChecked_header (by simp [hscan.live]) hscan.read]
  simp only [hheader.magic, hheader.sequence, passBlockChecked_eq hdvd, ne_eq, not_true, if_false]
  exact if_neg fun hle => absurd (hle hheader.blocktype trivial) (not_le.2 hcount)

/-! ## The rounds of a recovery -/

/-- The list of passes gets to the pass `pass`, which starts from `start` and has `endId` for its
`end_transaction`. -/
def Started (io : Io c) (pass : Pass) (endId : BitVec 32) (start : PassState c) :
    List Pass → RecoveryInfo → Journal c → Prop
  | [], _, _ => False
  | p :: passes, info, j =>
    p = pass ∧ info.endTransaction = endId ∧ j.passState = start ∨
      ∃ info' j', doOnePass io p info j = some (none, info', j') ∧
        Started io pass endId start passes info' j'

/-- `journal_recover` executes a round of the pass `pass` from `st`. -/
def Executed (io : Io c) (j : Journal c) (pass : Pass) (endId : BitVec 32) (st : PassState c) :
    Prop :=
  j.sStart ≠ 0 ∧ ∃ start, Started io pass endId start [.scan, .revoke, .replay] ⟨0, 0⟩ j ∧
    Relation.ReflTransGen (fun st st' => passRound io pass endId st = .next st') start st

/-- Recovery reads inside of the buffers, whatever is in the log, just if no revoke block that the
revoke pass gets to counts more bytes than a block has. -/
theorem recovery_reads_inside (io : Io c) (j : Journal c) (hdvd : 4 ∣ c.blocksize) :
    (∀ pass endId st, Executed io j pass endId st →
      passRoundChecked io pass endId st = some (passRound io pass endId st)) ↔
    ∀ endId st bh, Executed io j .revoke endId st → ScansRecords io endId st bh →
      bh.rCount.toInt ≤ c.blocksize := by
  constructor
  · intro hinside endId st bh hexec hscan
    by_contra hcount
    have hnone := passRoundChecked_none hdvd hscan (not_le.1 hcount)
    rw [hinside _ _ _ hexec] at hnone
    cases hnone
  · intro hcount pass endId st hexec
    refine passRoundChecked_eq hdvd fun hpass bh hscan => ?_
    subst hpass
    exact hcount endId st bh hexec hscan

/-- A revoke block of the transaction 5 that counts `count` bytes. -/
def countBlock (count : BitVec 32) : Block c := wordsBlock [jfsMagicNumber, jfsRevokeBlock, 5, count]

/-- A transaction with such a block. -/
def revokeIo (count : BitVec 32) : Io (smallConfig 1 (by decide)) :=
  ⟨fun n => .ok ([countBlock count, commitBlock 5].getD (n - 1) (wordsBlock [])), fun _ => true⟩

/-- The scan pass takes the transaction for complete, whatever the block counts. -/
lemma executed_revokeIo (count : BitVec 32) :
    Executed (revokeIo count) (freshJournal 5) .revoke 6 (freshJournal 5).passState := by
  have hloop : passLoop (revokeIo count) .scan 0 (freshJournal 5).passState =
      some (none, ⟨6, 2, none, fun _ => [], fun _ => wordsBlock []⟩) := by
    refine (passLoop_round _ _ _ _).trans ?_
    refine (passLoop_round _ _ _ _).trans ?_
    exact passLoop_round _ _ _ _
  have hscan : doOnePass (revokeIo count) .scan ⟨0, 0⟩ (freshJournal 5) =
      some (none, ⟨5, 6⟩, freshJournal 5) := congrArg (Option.bind · _) hloop
  exact ⟨by decide, _, .inr ⟨_, _, hscan, .inl ⟨rfl, rfl, rfl⟩⟩, .refl⟩

/-- A full revoke block. -/
theorem recovery_reads_inside_full :
    Executed (revokeIo 1024) (freshJournal 5) .revoke 6 (freshJournal 5).passState ∧
      ∀ pass endId st, Executed (revokeIo 1024) (freshJournal 5) pass endId st →
        passRoundChecked (revokeIo 1024) pass endId st =
          some (passRound (revokeIo 1024) pass endId st) := by
  refine ⟨executed_revokeIo 1024,
    (recovery_reads_inside _ _ (by decide)).2 fun endId st bh _ hscan => ?_⟩
  have hread := hscan.read
  rw [jread] at hread
  split_ifs at hread
  obtain rfl := Except.ok.inj hread
  generalize st.nextLogBlock % 2 ^ 32 - 1 = n
  rcases n with _ | _ | n
  · decide
  · decide
  · simp [Block.rCount, Block.be32, wordsBlock]

/-- The revoke pass reads behind the block. -/
theorem revoke_records_behind_block :
    Executed (revokeIo 1028) (freshJournal 5) .revoke 6 (freshJournal 5).passState ∧
      passRoundChecked (revokeIo 1028) .revoke 6 (freshJournal 5).passState = none := by
  have hscan : ScansRecords (revokeIo 1028) 6 (freshJournal 5).passState (countBlock 1028) :=
    ⟨by decide, rfl, header_wordsBlock _ _ _⟩
  exact ⟨executed_revokeIo 1028, passRoundChecked_none (by decide) hscan (by decide)⟩

end BooxKernel.Jbd
