import BooxKernel.Jbd.Log
import BooxKernel.Jbd.Revoke

/-!
# The passes over the log

All passes are at the same place of the log whenever they are at the start of a chunk, although
only the replay pass walks the tags of the descriptor blocks. Each pass goes from chunk to chunk
and from transaction to transaction.
-/
namespace BooxKernel.Jbd

open Writes List Nat Chunk PassState

variable {c : Config} {io : Io c} {start i n : ℕ}

/-! ## Places in the log -/

/-- The block number of the place `i` of a log that starts at `start`. -/
def logPos (c : Config) (start i : ℕ) : ℕ := c.first + (start - c.first + i) % (c.last - c.first)

lemma logPos_lt (c : Config) (start i : ℕ) : logPos c start i < c.last := by
  have hlt := c.first_lt
  have hmod := mod_lt (start - c.first + i) (Nat.sub_pos_of_lt hlt)
  rw [logPos]
  omega

lemma logPos_zero (hfirst : c.first ≤ start) (hlast : start < c.last) :
    logPos c start 0 = start := by
  rw [logPos, mod_eq_of_lt (by omega)]
  omega

lemma wrap_logPos (hn : n ≤ c.last - c.first) (hover : c.last + n ≤ 2 ^ c.bits) :
    wrap c (logPos c start i + n) = logPos c start (i + n) := by
  have hpos := logPos_lt c start i
  have hadd : (start - c.first + (i + n)) % (c.last - c.first) =
      ((start - c.first + i) % (c.last - c.first) + n) % (c.last - c.first) := by
    rw [mod_add_mod, add_assoc]
  rw [logPos] at hpos
  rw [logPos, logPos, hadd, wrap]
  generalize (start - c.first + i) % (c.last - c.first) = q at *
  simp only [mod_eq_of_lt (show c.first + q + n < 2 ^ c.bits by omega)]
  by_cases hlast : c.last ≤ c.first + q + n
  · have hsub : (q + n) % (c.last - c.first) = q + n - (c.last - c.first) := by
      rw [mod_eq_sub_mod (by omega), mod_eq_of_lt (by omega)]
    rw [if_pos hlast]
    omega
  · rw [if_neg hlast, mod_eq_of_lt (show q + n < c.last - c.first by omega), add_assoc]

lemma jread_logPos : jread io (logPos c start i) = io.read (logPos c start i) := by
  have hpos := logPos_lt c start i
  have hlast := c.last_le
  have hmax := c.maxlen_lt
  rw [jread, mod_eq_of_lt (by omega), if_neg (by omega)]

/-- The blocks `bs` are in the log from the place `i` on. -/
def Stored (io : Io c) (start i : ℕ) (bs : List (Block c)) : Prop :=
  ∀ n b, bs[n]? = some b → io.read (logPos c start (i + n)) = .ok b

variable {b bh : Block c} {bs bs' : List (Block c)}

lemma stored_cons :
    Stored io start i (b :: bs) ↔
      io.read (logPos c start i) = .ok b ∧ Stored io start (i + 1) bs := by
  refine ⟨fun h => ⟨h 0 b rfl, fun n b' hn => ?_⟩, fun h n b' hn => ?_⟩
  · have := h (n + 1) b' (by simpa using hn)
    rwa [add_assoc, add_comm 1]
  · cases n with
    | zero =>
      obtain rfl : b = b' := by simpa using hn
      exact h.1
    | succ n =>
      have := h.2 n b' (by simpa using hn)
      rwa [add_assoc, add_comm 1] at this

lemma stored_append :
    Stored io start i (bs ++ bs') ↔ Stored io start i bs ∧ Stored io start (i + bs.length) bs' := by
  induction bs generalizing i with
  | nil => simp [Stored]
  | cons b bs ih =>
    rw [cons_append, stored_cons, stored_cons, ih, and_assoc, length_cons,
      add_assoc i 1, add_comm 1]

/-! ## One chunk -/

section Pass

variable {pass : Pass} {endId blocktype s : BitVec 32} {st : PassState c}

/-- The pass has not come to its end, where a pass knows it. -/
def Live (pass : Pass) (endId id : BitVec 32) : Prop := pass = .scan ∨ tidGeq id endId = false

lemma passRound_eq (st : PassState c) (hlive : Live pass endId st.nextCommitId)
    (hplace : st.nextLogBlock = logPos c start i) (hread : io.read (logPos c start i) = .ok bh)
    (hheader : Header bh blocktype st.nextCommitId) (hover : c.last + 1 ≤ 2 ^ c.bits) :
    passRound io pass endId st =
      passBlock io pass bh { st with nextLogBlock := logPos c start (i + 1) } := by
  have hguard : ¬(pass ≠ .scan ∧ tidGeq st.nextCommitId endId = true) := by
    rcases hlive with rfl | hid
    · simp
    · simp [hid]
  have hlt := c.first_lt
  rw [passRound, if_neg hguard, hplace, jread_logPos, hread, wrap_logPos (by omega) hover]
  simp [hheader.magic, hheader.sequence]

/-- The contents of the data block that a tag describes. -/
def Tag.copy (tag : Tag) (obh : Block c) : BitVec 32 × Block c :=
  (tag.blocknr, unescape tag.flags obh)

/-- The writes that the revoke table lets through. -/
def unrevoked (st : PassState c) (ws : List (BitVec 32 × Block c)) : List (BitVec 32 × Block c) :=
  ws.filter fun w => !journalTestRevoke st.revoke w.1 st.nextCommitId

lemma replayTag_eq (hget : ∀ b, io.getblk b = true) (tag : Tag)
    (hplace : st.nextLogBlock = logPos c start i) (hread : io.read (logPos c start i) = .ok b)
    (hover : c.last + 1 ≤ 2 ^ c.bits) :
    replayTag io tag st = (none, { st with
      nextLogBlock := logPos c start (i + 1)
      fs := writes st.fs (unrevoked st [tag.copy b]) }) := by
  have hlt := c.first_lt
  rw [replayTag, hplace, jread_logPos, hread, wrap_logPos (by omega) hover]
  by_cases htest : journalTestRevoke st.revoke tag.blocknr st.nextCommitId = true
  · simp [htest, unrevoked, Tag.copy]
  · simp [htest, unrevoked, Tag.copy, hget, writes]

lemma replayTags_eq (st : PassState c) (hget : ∀ b, io.getblk b = true) (bh : Block c) (tagp : ℕ)
    (hlen : bs.length = (bh.tagsFrom tagp).length) (hplace : st.nextLogBlock = logPos c start i)
    (hstored : Stored io start i bs) (hover : c.last + 1 ≤ 2 ^ c.bits) :
    replayTags io bh tagp st = (none, { st with
      nextLogBlock := logPos c start (i + bs.length)
      fs := writes st.fs
        (unrevoked st (((bh.tagsFrom tagp).zip bs).map fun x => x.1.copy x.2)) }) := by
  fun_induction bh.tagsFrom tagp generalizing bs st i with
  | case1 tagp hfit tag =>
    rename_i hlast
    obtain ⟨b, rfl⟩ := length_eq_one_iff.1 hlen
    rw [replayTags, if_pos hfit]
    have hend : (bh.tag tagp).isLast = true := hlast
    simp [replayTag_eq hget _ hplace (stored_cons.1 hstored).1 hover, tag, hend]
  | case2 tagp hfit tag hlast =>
    rename_i ih
    obtain ⟨b, bs, rfl⟩ := exists_cons_of_length_eq_add_one hlen
    obtain ⟨hread, hstored⟩ := stored_cons.1 hstored
    rw [replayTags, if_pos hfit]
    have hmore : ¬(bh.tag tagp).isLast = true := hlast
    simp only [replayTag_eq hget _ hplace hread hover, hmore]
    rw [ih _ (by simpa using hlen) rfl hstored]
    simp [unrevoked, ← writes_append, ← filter_append, add_assoc, add_comm 1, tag]
  | case3 tagp hfit =>
    obtain rfl : bs = [] := length_eq_zero_iff.1 hlen
    rw [replayTags, if_neg hfit]
    simp [unrevoked, ← hplace]

/-- What a chunk is for in each of the passes. -/
def Chunk.apply (pass : Pass) (st : PassState c) (ch : Chunk c) : PassState c :=
  match pass, ch with
  | .scan, _ => st
  | .revoke, ch =>
    { st with
      revoke := ch.revokes.foldl (fun table b => journalSetRevoke table b st.nextCommitId)
        st.revoke }
  | .replay, ch => { st with fs := writes st.fs (unrevoked st ch.copies) }

/-- The state with another place in the log. -/
def PassState.goto (st : PassState c) (n : ℕ) : PassState c := { st with nextLogBlock := n }

@[simp] lemma PassState.goto_goto (m n : ℕ) : (st.goto m).goto n = st.goto n := rfl

@[simp] lemma PassState.goto_nextCommitId (n : ℕ) :
    (st.goto n).nextCommitId = st.nextCommitId := rfl

@[simp] lemma PassState.goto_nextLogBlock (n : ℕ) : (st.goto n).nextLogBlock = n := rfl

@[simp] lemma PassState.goto_self : st.goto st.nextLogBlock = st := rfl

@[simp] lemma Chunk.apply_goto (ch : Chunk c) (n : ℕ) :
    ch.apply pass (st.goto n) = (ch.apply pass st).goto n := by
  cases pass <;> rfl

@[simp] lemma Chunk.apply_nextCommitId (ch : Chunk c) :
    (ch.apply pass st).nextCommitId = st.nextCommitId := by
  cases pass <;> rfl

lemma length_tags_le (bh : Block c) : bh.tags.length ≤ c.blocksize / 8 := by
  have hlen := length_tagsFrom bh 12
  rw [Block.tags]
  omega

/-- There are buffers for the filesystem blocks, and `unsigned long` has room for a place in the
log and the tags of a block. -/
structure Room (io : Io c) : Prop where
  getblk : ∀ b, io.getblk b = true
  overflow : c.last + c.blocksize / 8 ≤ 2 ^ c.bits

lemma Room.succ (hroom : Room io) : c.last + 1 ≤ 2 ^ c.bits := by
  have hover := hroom.overflow
  have hsize := c.blocksize_ge
  omega

lemma passRound_chunk {ch : Chunk c} (hroom : Room io)
    (hlive : Live pass endId st.nextCommitId) (hplace : st.nextLogBlock = logPos c start i)
    (hok : ch.Ok st.nextCommitId) (hstored : Stored io start i ch.blocks)
    (hfits : ch.blocks.length ≤ c.last - c.first) :
    passRound io pass endId st =
      .next ((ch.apply pass st).goto (logPos c start (i + ch.blocks.length))) := by
  cases ch with
  | descriptor bh data =>
    obtain ⟨hheader, hlen⟩ := hok
    obtain ⟨hread, hdata⟩ := stored_cons.1 hstored
    rw [passRound_eq st hlive hplace hread hheader hroom.succ, passBlock, if_pos hheader.blocktype]
    have htags : bh.tags.length ≤ c.last - c.first := by
      rw [blocks, length_cons] at hfits
      omega
    have hskip : wrap c (logPos c start (i + 1) + countTags bh) =
        logPos c start (i + (data.length + 1)) := by
      have hover := hroom.overflow
      have hle := length_tags_le bh
      rw [countTags_eq, wrap_logPos htags (by omega), hlen, add_assoc, add_comm 1]
    cases pass with
    | scan => simp [hskip, goto, apply, blocks]
    | revoke => simp [hskip, goto, apply, blocks, revokes]
    | replay =>
      have hreplay := replayTags_eq { st with nextLogBlock := logPos c start (i + 1) }
        hroom.getblk bh 12 hlen rfl hdata hroom.succ
      simp [hreplay, goto, apply, blocks, copies, unrevoked, Tag.copy,
        Block.tags,
        add_assoc, add_comm 1]
  | revoke bh =>
    have hread := (stored_cons.1 hstored).1
    rw [passRound_eq st hlive hplace hread hok hroom.succ, passBlock, hok.blocktype]
    cases pass with
    | scan => simp [goto, apply, blocks, jfsDescriptorBlock, jfsCommitBlock,
      jfsRevokeBlock]
    | revoke =>
      simp [goto, apply, blocks, revokes, Block.revokes, scanRevokeRecords,
        scanRevokeLoop_eq, jfsDescriptorBlock, jfsCommitBlock, jfsRevokeBlock]
    | replay =>
      simp [goto, apply, blocks, copies, unrevoked, jfsDescriptorBlock,
        jfsCommitBlock,
        jfsRevokeBlock]

/-! ## Transactions -/

@[simp] lemma foldl_apply_goto (chs : List (Chunk c)) (n : ℕ) :
    chs.foldl (Chunk.apply pass) (st.goto n) = (chs.foldl (Chunk.apply pass) st).goto n := by
  induction chs generalizing st with
  | nil => rfl
  | cons ch chs ih => simp [ih]

@[simp] lemma foldl_apply_nextCommitId (chs : List (Chunk c)) :
    (chs.foldl (Chunk.apply pass) st).nextCommitId = st.nextCommitId := by
  induction chs generalizing st with
  | nil => rfl
  | cons ch chs ih => simp [ih]

lemma passLoop_chunks (st : PassState c) {chs : List (Chunk c)} (endId : BitVec 32)
    (hroom : Room io)
    (hlive : Live pass endId st.nextCommitId) (hplace : st.nextLogBlock = logPos c start i)
    (hok : ∀ ch ∈ chs, ch.Ok st.nextCommitId) (hstored : Stored io start i (chs.flatMap blocks))
    (hfits : (chs.flatMap blocks).length ≤ c.last - c.first) :
    passLoop io pass endId st = passLoop io pass endId ((chs.foldl (Chunk.apply pass) st).goto
      (logPos c start (i + (chs.flatMap blocks).length))) := by
  induction chs generalizing st i with
  | nil => simp [← hplace]
  | cons ch chs ih =>
    rw [flatMap_cons] at hstored hfits ⊢
    obtain ⟨hch, hchs⟩ := stored_append.1 hstored
    rw [length_append] at hfits ⊢
    rw [passLoop_round, passRound_chunk hroom hlive hplace (hok ch (by simp)) hch (by omega)]
    refine (ih _ ?_ rfl ?_ hchs (by omega)).trans ?_
    · simpa using hlive
    · simpa using fun x hx => hok x (by simp [hx])
    · simp [add_assoc]

/-- What a transaction is for in each of the passes. -/
def Transaction.apply (pass : Pass) (st : PassState c) (t : Transaction c) : PassState c :=
  { t.chunks.foldl (Chunk.apply pass) st with nextCommitId := st.nextCommitId + 1 }

@[simp] lemma Transaction.apply_goto (t : Transaction c) (n : ℕ) :
    t.apply pass (st.goto n) = (t.apply pass st).goto n := by
  rw [Transaction.apply, foldl_apply_goto]
  rfl

lemma Transaction.apply_nextCommitId (t : Transaction c) :
    (t.apply pass st).nextCommitId = st.nextCommitId + 1 := rfl

@[simp] lemma foldl_transaction_goto (ts : List (Transaction c)) (n : ℕ) :
    ts.foldl (Transaction.apply pass) (st.goto n) =
      (ts.foldl (Transaction.apply pass) st).goto n := by
  induction ts generalizing st with
  | nil => rfl
  | cons t ts ih => simp [ih]

lemma passLoop_transaction {t : Transaction c} (hroom : Room io)
    (hlive : Live pass endId st.nextCommitId) (hplace : st.nextLogBlock = logPos c start i)
    (hok : t.Ok st.nextCommitId) (hstored : Stored io start i t.blocks)
    (hfits : t.blocks.length ≤ c.last - c.first) :
    passLoop io pass endId st = passLoop io pass endId
      ((t.apply pass st).goto (logPos c start (i + t.blocks.length))) := by
  rw [Transaction.blocks] at hstored hfits
  obtain ⟨hchunks, hcommit⟩ := stored_append.1 hstored
  rw [length_append] at hfits
  rw [passLoop_chunks st endId hroom hlive hplace hok.chunks hchunks (by omega), passLoop_round]
  have hheader := hok.commit
  have hround := passRound_eq ((t.chunks.foldl (apply pass) st).goto
    (logPos c start (i + (t.chunks.flatMap blocks).length))) (by simpa using hlive) rfl
    (stored_cons.1 hcommit).1 (by simpa using hheader) hroom.succ
  rw [hround, passBlock, hheader.blocktype]
  simp [jfsDescriptorBlock, jfsCommitBlock, Transaction.apply, Transaction.blocks, goto,
    add_assoc]

lemma tid_succ (s : BitVec 32) (k : ℕ) : tid s k + 1 = tid s (k + 1) := by
  rw [tid, tid, BitVec.ofNat_add, add_assoc]
  rfl

lemma passLoop_transactions {ts : List (Transaction c)} {k : ℕ} (hroom : Room io)
    (hid : st.nextCommitId = tid s k) (hlive : ∀ n < ts.length, Live pass endId (tid s (k + n)))
    (hplace : st.nextLogBlock = logPos c start i)
    (hok : ∀ (n : ℕ) (t : Transaction c), ts[n]? = some t → t.Ok (tid s (k + n)))
    (hstored : Stored io start i (ts.flatMap Transaction.blocks))
    (hfits : (ts.flatMap Transaction.blocks).length ≤ c.last - c.first) :
    passLoop io pass endId st = passLoop io pass endId ((ts.foldl (Transaction.apply pass) st).goto
      (logPos c start (i + (ts.flatMap Transaction.blocks).length))) := by
  induction ts generalizing st i k with
  | nil => simp [← hplace]
  | cons t ts ih =>
    rw [flatMap_cons] at hstored hfits ⊢
    obtain ⟨ht, hts⟩ := stored_append.1 hstored
    rw [length_append] at hfits ⊢
    have hlive0 : Live pass endId st.nextCommitId := hid ▸ hlive 0 (by simp)
    rw [passLoop_transaction hroom hlive0 hplace (hid ▸ hok 0 t rfl) ht (by omega)]
    refine (ih (k := k + 1) ?_ ?_ rfl ?_ hts (by omega)).trans ?_
    · rw [goto_nextCommitId, Transaction.apply_nextCommitId, hid, tid_succ]
    · intro n hn
      have := hlive (n + 1) (by simpa using hn)
      rwa [add_assoc, add_comm 1]
    · intro n u hu
      have := hok (n + 1) u (by simpa using hu)
      rwa [add_assoc, add_comm 1]
    · simp [add_assoc]

lemma foldl_transaction_nextCommitId (pass : Pass) (ts : List (Transaction c)) {k : ℕ}
    (hid : st.nextCommitId = tid s k) :
    (ts.foldl (Transaction.apply pass) st).nextCommitId = tid s (k + ts.length) := by
  induction ts generalizing st k with
  | nil => exact hid
  | cons t ts ih =>
    rw [foldl_cons, ih (k := k + 1) (by rw [Transaction.apply_nextCommitId, hid, tid_succ]),
      length_cons, add_assoc, add_comm 1]

end Pass

end BooxKernel.Jbd
