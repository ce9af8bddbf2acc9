import BooxKernel.Jbd.Passes

/-!
# `journal_recover`

The first pass finds the number of transactions, the second fills the revoke table and the third
replays the copies that are not revoked. What results is the last copy of each block whose
transaction is later than all that revoke the block.
-/
namespace BooxKernel.Jbd

open Writes List Transaction PassState

variable {c : Config} {io : Io c} {j : Journal c} {st : PassState c} {s : BitVec 32} {k : ℕ}

/-! ## What the passes do to the revoke table and the filesystem -/

section
variable (k : ℕ) (ts : List (Transaction c)) (chs : List (Chunk c))

/-- The revokes of the transactions `ts`, each with the number of its transaction. -/
def revokeList : List (ℕ × BitVec 32) :=
  (ts.zipIdx k).flatMap fun x => x.1.revokes.map fun b => (x.2, b)

/-- The copies in the transactions `ts`, each with the number of its transaction. -/
def copyList : List (ℕ × BitVec 32 × Block c) :=
  (ts.zipIdx k).flatMap fun x => x.1.copies.map fun w => (x.2, w)

lemma foldl_apply_scan : chs.foldl (Chunk.apply .scan) st = st := by
  induction chs with
  | nil => rfl
  | cons ch chs ih => exact ih

lemma foldl_apply_revoke : chs.foldl (Chunk.apply .revoke) st = { st with
      revoke := (chs.flatMap Chunk.revokes).foldl
        (fun table b => journalSetRevoke table b st.nextCommitId) st.revoke } := by
  induction chs generalizing st with
  | nil => rfl
  | cons ch chs ih =>
    rw [foldl_cons, ih, flatMap_cons, foldl_append]
    rfl

lemma foldl_apply_replay : chs.foldl (Chunk.apply .replay) st = { st with
      fs := writes st.fs (unrevoked st (chs.flatMap Chunk.copies)) } := by
  induction chs generalizing st with
  | nil => rfl
  | cons ch chs ih =>
    rw [foldl_cons, ih, flatMap_cons, unrevoked, unrevoked, filter_append, writes_append]
    rfl

end

section
variable (ts : List (Transaction c)) (hid : st.nextCommitId = tid s k)
include hid

lemma foldl_transaction_scan :
    ts.foldl (apply .scan) st = { st with nextCommitId := tid s (k + ts.length) } := by
  induction ts generalizing st k with
  | nil => simp [← hid]
  | cons t ts ih =>
    rw [foldl_cons, ih (k := k + 1) (by rw [apply_nextCommitId, hid, tid_succ]),
      apply, foldl_apply_scan, length_cons, add_assoc, add_comm 1]

lemma foldl_transaction_revoke : ts.foldl (apply .revoke) st = { st with
      nextCommitId := tid s (k + ts.length)
      revoke := revokeAll s st.revoke (revokeList k ts) } := by
  induction ts generalizing st k with
  | nil => simp [← hid, revokeAll, revokeList]
  | cons t ts ih =>
    rw [foldl_cons, ih (k := k + 1) (by rw [apply_nextCommitId, hid, tid_succ]),
      apply, foldl_apply_revoke, add_assoc k, add_comm 1]
    simp [revokeAll, revokeList, foldl_append, foldl_map, hid, revokes]

lemma foldl_transaction_replay : ts.foldl (apply .replay) st = { st with
      nextCommitId := tid s (k + ts.length)
      fs := writes st.fs (((copyList k ts).filter fun w =>
        !journalTestRevoke st.revoke w.2.1 (tid s w.1)).map Prod.snd) } := by
  induction ts generalizing st k with
  | nil => simp [← hid, copyList]
  | cons t ts ih =>
    rw [foldl_cons, ih (k := k + 1) (by rw [apply_nextCommitId, hid, tid_succ]),
      apply, foldl_apply_replay, add_assoc k, add_comm 1]
    simp [copyList, unrevoked, hid, copies, filter_map, writes_append,
      Function.comp_def]

end

/-! ## A journal to be recovered -/

/-- The block ends a scan for the transaction `id`. -/
def Stops (bh : Block c) (id : BitVec 32) : Prop :=
  bh.hMagic ≠ jfsMagicNumber ∨ bh.hSequence ≠ id ∨
    bh.hBlocktype ∉ [jfsDescriptorBlock, jfsCommitBlock, jfsRevokeBlock]

/-- The transactions of a log, a transaction without a commit block behind them, and the block
that ends the scan. -/
structure Log (c : Config) where
  transactions : List (Transaction c)
  tail : List (Chunk c)
  stop : Block c

namespace Log

def blocks (log : Log c) : List (Block c) :=
  log.transactions.flatMap Transaction.blocks ++ log.tail.flatMap Chunk.blocks

/-- The transaction number `k` is later than all that revoke the block `b`. -/
def current (log : Log c) (s : BitVec 32) (k : ℕ) (b : BitVec 32) : Bool :=
  (revokeList 0 log.transactions).all fun r => r.2 = b → tidGt (tid s k) (tid s r.1)

/-- The filesystem that the log stands for. -/
def recovered (log : Log c) (s : BitVec 32) (fs : BitVec 32 → Block c) (b : BitVec 32) : Block c :=
  ((copyList 0 log.transactions).filter fun w =>
    w.2.1 = b ∧ log.current s w.1 b).getLast?.elim (fs b) fun w => w.2.2

end Log

/-- The journal holds the log, which fits into it once, and all reads succeed. -/
structure Recorded (io : Io c) (j : Journal c) (log : Log c) : Prop where
  start_ne : j.sStart ≠ 0
  first_le : c.first ≤ j.sStart.toNat
  start_lt : j.sStart.toNat < c.last
  stored : Stored io j.sStart.toNat 0 (log.blocks ++ [log.stop])
  fits : log.blocks.length ≤ c.last - c.first
  transactions : ∀ (k : ℕ) (t : Transaction c), log.transactions[k]? = some t →
    t.Ok (tid j.sSequence k)
  tail : ∀ ch ∈ log.tail, ch.Ok (tid j.sSequence log.transactions.length)
  stop : Stops log.stop (tid j.sSequence log.transactions.length)

variable {log : Log c} {pass : Pass} {endId : BitVec 32} {w : ℕ × BitVec 32 × Block c}
  {ts : List (Transaction c)}

/-- The start of a pass. -/
def Journal.passState (j : Journal c) : PassState c :=
  ⟨j.sSequence, j.sStart.toNat, none, j.revoke, j.fs⟩

lemma Journal.passState_id (j : Journal c) : j.passState.nextCommitId = tid j.sSequence 0 :=
  (add_zero _).symm

lemma Recorded.passLoop_eq (h : Recorded io j log) (pass : Pass) (endId : BitVec 32)
    (hroom : Room io) (hlive : ∀ k < log.transactions.length, Live pass endId (tid j.sSequence k)) :
    passLoop io pass endId j.passState = passLoop io pass endId
      ((log.transactions.foldl (apply pass) j.passState).goto
        (logPos c j.sStart.toNat (log.transactions.flatMap Transaction.blocks).length)) := by
  have hstored := (stored_append.1 h.stored).1
  have hfits := h.fits
  rw [Log.blocks] at hstored hfits
  rw [length_append] at hfits
  have hplace : j.passState.nextLogBlock = logPos c j.sStart.toNat 0 :=
    (logPos_zero h.first_le h.start_lt).symm
  have hloop := passLoop_transactions hroom j.passState_id (by simpa using hlive) hplace
    (by simpa using h.transactions) (stored_append.1 hstored).1 (by omega)
  rwa [zero_add] at hloop

lemma passRound_stop (st : PassState c) (endId : BitVec 32) {bh : Block c} {start i : ℕ}
    (hread : io.read (logPos c start i) = .ok bh) (hstop : Stops bh st.nextCommitId) :
    ∃ n, passRound io .scan endId (st.goto (logPos c start i)) = .done (st.goto n) := by
  rw [passRound, goto_nextLogBlock, jread_logPos, hread]
  by_cases hmagic : bh.hMagic = jfsMagicNumber
  · by_cases hsequence : bh.hSequence = st.nextCommitId
    · have htype : bh.hBlocktype ∉ [jfsDescriptorBlock, jfsCommitBlock, jfsRevokeBlock] := by
        simpa [Stops, hmagic, hsequence] using hstop
      simp only [mem_cons, not_mem_nil, or_false, not_or] at htype
      simp [hmagic, hsequence, passBlock, htype, goto]
    · simp [hmagic, hsequence, goto]
  · simp [hmagic, goto]

lemma Recorded.doOnePass_scan (h : Recorded io j log) (hroom : Room io) (info : RecoveryInfo) :
    doOnePass io .scan info j =
      some (none, ⟨j.sSequence, tid j.sSequence log.transactions.length⟩, j) := by
  have hstored := h.stored
  have hfits := h.fits
  rw [Log.blocks] at hfits
  rw [length_append] at hfits
  rw [Log.blocks, append_assoc] at hstored
  obtain ⟨-, hrest⟩ := stored_append.1 hstored
  obtain ⟨htail, hstop⟩ := stored_append.1 hrest
  rw [zero_add] at htail hstop
  let st : PassState c := { j.passState with
    nextCommitId := tid j.sSequence log.transactions.length }
  have hloop := h.passLoop_eq .scan info.endTransaction hroom fun _ _ => .inl rfl
  rw [foldl_transaction_scan _ j.passState_id, zero_add] at hloop
  have hchunks := passLoop_chunks (st.goto (logPos c j.sStart.toNat
    (log.transactions.flatMap blocks).length)) info.endTransaction hroom
    (.inl rfl) rfl h.tail htail (by omega)
  rw [foldl_apply_scan, goto_goto] at hchunks
  obtain ⟨n, hround⟩ := passRound_stop st info.endTransaction (stored_cons.1 hstop).1 h.stop
  have hdone : passLoop io .scan info.endTransaction j.passState = some (none, st.goto n) := by
    rw [hloop, hchunks, passLoop_round, hround]
  rw [doOnePass]
  simp only [if_true]
  rw [← Journal.passState, hdone]
  rfl

lemma passLoop_done (hpass : pass ≠ .scan) (hgeq : tidGeq st.nextCommitId endId = true) :
    passLoop io pass endId st = some (none, st) := by
  rw [passLoop_round, passRound, if_pos ⟨hpass, hgeq⟩]

section
variable (h : Recorded io j log) (hroom : Room io) (hcount : log.transactions.length ≤ 2 ^ 31)
  (start : BitVec 32)
include h hroom hcount

lemma Recorded.doOnePass_eq (hpass : pass ≠ .scan) :
    doOnePass io pass ⟨start, tid j.sSequence log.transactions.length⟩ j =
      some ((log.transactions.foldl (apply pass) j.passState).success,
        ⟨start, tid j.sSequence log.transactions.length⟩,
        { j with
          revoke := (log.transactions.foldl (apply pass) j.passState).revoke
          fs := (log.transactions.foldl (apply pass) j.passState).fs }) := by
  have hloop := h.passLoop_eq pass (tid j.sSequence log.transactions.length) hroom fun k hk =>
    .inr (by rw [tidGeq_tid (by omega) hcount (by omega)]; simpa using hk)
  have hend := foldl_transaction_nextCommitId pass log.transactions j.passState_id
  rw [zero_add] at hend
  have hdone := hloop.trans (passLoop_done hpass (by
    rw [goto_nextCommitId, hend, tidGeq_tid hcount hcount (by omega)]
    simp))
  rw [doOnePass]
  simp only [if_neg hpass]
  rw [← Journal.passState, hdone]
  simp [hend, goto]

lemma Recorded.doOnePass_revoke :
    doOnePass io .revoke ⟨start, tid j.sSequence log.transactions.length⟩ j =
      some (none, ⟨start, tid j.sSequence log.transactions.length⟩, { j with
        revoke := revokeAll j.sSequence j.revoke (revokeList 0 log.transactions) }) := by
  have hpass : Pass.revoke ≠ .scan := by simp
  rw [h.doOnePass_eq hroom hcount start hpass, foldl_transaction_revoke _ j.passState_id]
  rfl

lemma Recorded.doOnePass_replay :
    doOnePass io .replay ⟨start, tid j.sSequence log.transactions.length⟩ j =
      some (none, ⟨start, tid j.sSequence log.transactions.length⟩, { j with
        fs := writes j.fs (((copyList 0 log.transactions).filter fun w =>
          !journalTestRevoke j.revoke w.2.1 (tid j.sSequence w.1)).map Prod.snd) }) := by
  have hpass : Pass.replay ≠ .scan := by simp
  rw [h.doOnePass_eq hroom hcount start hpass, foldl_transaction_replay _ j.passState_id]
  rfl

end

/-! ## The result -/

lemma pairwise_revokeList (k : ℕ) (ts : List (Transaction c)) :
    (revokeList k ts).Pairwise fun r r' => r.1 ≤ r'.1 := by
  induction ts generalizing k with
  | nil => exact .nil
  | cons t ts ih =>
    refine pairwise_append.2 ⟨?_, ih (k + 1), fun r hr r' hr' => ?_⟩
    · exact pairwise_map.2 (pairwise_of_forall fun _ _ => le_rfl)
    · obtain ⟨b, -, rfl⟩ := mem_map.1 hr
      obtain ⟨x, hx, hx'⟩ := mem_flatMap.1 hr'
      obtain ⟨b', -, rfl⟩ := mem_map.1 hx'
      have := le_snd_of_mem_zipIdx hx
      omega

lemma lt_of_mem_numbered {β : Type*} {f : Transaction c → List β} {r : ℕ × β}
    (hr : r ∈ ts.zipIdx.flatMap fun x => (f x.1).map fun b => (x.2, b)) : r.1 < ts.length := by
  obtain ⟨x, hx, hx'⟩ := mem_flatMap.1 hr
  obtain ⟨b, -, rfl⟩ := mem_map.1 hx'
  simpa using snd_lt_add_of_mem_zipIdx hx

/-- The revoke table lets those copies through that are later than all revokes. -/
lemma journalTestRevoke_eq (hw : w ∈ copyList 0 log.transactions)
    (hcount : log.transactions.length ≤ 2 ^ 31) :
    (!journalTestRevoke (revokeAll s (fun _ => []) (revokeList 0 log.transactions) : RevokeTable c)
      w.2.1 (tid s w.1)) = log.current s w.1 w.2.1 := by
  have hwlt := lt_of_mem_numbered hw
  have hbound : ∀ r ∈ revokeList 0 log.transactions, r.1 < 2 ^ 31 := fun r hr =>
    (lt_of_mem_numbered hr).trans_le hcount
  have htest := journalTestRevoke_revokeAll (c := c) (s := s) (b := w.2.1)
    (pairwise_revokeList 0 log.transactions) hbound (k := w.1) (by omega)
  rw [Bool.eq_iff_iff, Bool.not_eq_true', htest, Log.current, all_eq_true]
  refine forall₂_congr fun r hr => ?_
  rw [decide_eq_true_eq, tidGt_tid (by omega) (hbound r hr), decide_eq_true_eq]

/-- Replaying the copies that are not revoked gives the filesystem that the log stands for. -/
lemma writes_eq_recovered (hcount : log.transactions.length ≤ 2 ^ 31) (fs : BitVec 32 → Block c) :
    writes fs (((copyList 0 log.transactions).filter fun w =>
      !journalTestRevoke (revokeAll s (fun _ => []) (revokeList 0 log.transactions) : RevokeTable c)
        w.2.1 (tid s w.1)).map Prod.snd) = log.recovered s fs := by
  funext b
  have hfilter : ((copyList 0 log.transactions).filter fun w =>
      !journalTestRevoke (revokeAll s (fun _ => []) (revokeList 0 log.transactions) : RevokeTable c)
        w.2.1 (tid s w.1)).filter (fun w => w.2.1 = b) =
      (copyList 0 log.transactions).filter fun w => w.2.1 = b ∧ log.current s w.1 b := by
    rw [filter_filter]
    refine filter_congr fun w hw => ?_
    rw [journalTestRevoke_eq hw hcount]
    by_cases hb : w.2.1 = b
    · simp [hb]
    · simp [hb]
  rw [writes_apply, filter_map, Log.recovered, ← hfilter, getLast?_map]
  simp only [Function.comp_def]
  cases getLast? _ <;> rfl

lemma Recorded.journalRecover_eq (h : Recorded io j log) (hempty : j.revoke = fun _ => [])
    (hroom : Room io) (hcount : log.transactions.length ≤ 2 ^ 31) (fs : BitVec 32 → Block c) :
    journalRecover io { j with fs := fs } = some (none, { j with
      fs := log.recovered j.sSequence fs
      transactionSequence := tid j.sSequence log.transactions.length + 1 }) := by
  have hj : ∀ table, Recorded io { j with revoke := table, fs := fs } log := fun _ => { h with }
  rw [journalRecover, if_neg h.start_ne]
  simp only [recoverPasses, (hj _).doOnePass_scan hroom, (hj _).doOnePass_revoke hroom hcount,
    (hj _).doOnePass_replay hroom hcount, Option.bind_eq_bind, Option.bind_some,
    Option.isSome_none, Bool.false_eq_true, if_false]
  rw [hempty, writes_eq_recovered hcount]
  rfl

/-- Recovery replays the copies that no later or equal transaction revokes, if the log has at
most `2 ^ 31` transactions and `unsigned long` holds all places of the log. -/
theorem journal_recover_replays (h : Recorded io j log) (hempty : j.revoke = fun _ => [])
    (hgetblk : ∀ b, io.getblk b = true) (hcount : log.transactions.length ≤ 2 ^ 31)
    (hover : c.last + c.blocksize / 8 ≤ 2 ^ c.bits) :
    journalRecover io j = some (none, { j with
      fs := log.recovered j.sSequence j.fs
      transactionSequence := tid j.sSequence log.transactions.length + 1 }) :=
  h.journalRecover_eq hempty ⟨hgetblk, hover⟩ hcount j.fs

/-- Recovery may be cut short and start again: it does not matter what the blocks with a current
copy hold. -/
theorem journal_recover_restarts (h : Recorded io j log) (hempty : j.revoke = fun _ => [])
    (hroom : Room io) (hcount : log.transactions.length ≤ 2 ^ 31) {fs : BitVec 32 → Block c}
    (hfs : ∀ b, fs b ≠ j.fs b → ∃ w ∈ copyList 0 log.transactions,
      w.2.1 = b ∧ log.current j.sSequence w.1 b) :
    journalRecover io { j with fs := fs } = journalRecover io j := by
  have hsame : log.recovered j.sSequence fs = log.recovered j.sSequence j.fs := by
    funext b
    by_cases hb : fs b = j.fs b
    · rw [Log.recovered, hb, Log.recovered]
    · obtain ⟨w, hw, hcopy⟩ := hfs b hb
      have hmem : w ∈ (copyList 0 log.transactions).filter fun w =>
          w.2.1 = b ∧ log.current j.sSequence w.1 b := mem_filter.2 ⟨hw, decide_eq_true hcopy⟩
      rw [Log.recovered, Log.recovered, getLast?_eq_some_getLast (ne_nil_of_mem hmem)]
      rfl
  rw [h.journalRecover_eq hempty hroom hcount, hsame, ← h.journalRecover_eq hempty hroom hcount]

section
variable (id : BitVec 32)

lemma Recorded.journalRecover_eio (h : Recorded io j log) (hroom : Room io)
    (hgeq : tidGeq j.sSequence (tid j.sSequence log.transactions.length) = true)
    (hne : tid j.sSequence log.transactions.length ≠ j.sSequence) :
    (journalRecover io j).map Prod.fst = some (some .eio) := by
  have hdone : passLoop io .revoke (tid j.sSequence log.transactions.length) j.passState =
      some (none, j.passState) := passLoop_done (by simp) hgeq
  rw [Journal.passState] at hdone
  have hrevoke : doOnePass io .revoke ⟨j.sSequence, tid j.sSequence log.transactions.length⟩ j =
      some (some .eio, ⟨j.sSequence, tid j.sSequence log.transactions.length⟩, j) := by
    simp [doOnePass, hdone, hne]
  rw [journalRecover, if_neg h.start_ne]
  simp [recoverPasses, h.doOnePass_scan hroom, hrevoke]

/-! ## Concrete journals -/

/-- A block by its first words. -/
def wordsBlock (ws : List (BitVec 32)) : Block c := fun i => ws.getD i 0

def commitBlock : Block c := wordsBlock [jfsMagicNumber, jfsCommitBlock, id]

lemma header_wordsBlock (blocktype id : BitVec 32) (ws : List (BitVec 32)) :
    Header (wordsBlock (jfsMagicNumber :: blocktype :: id :: ws) : Block c) blocktype id := by
  have hsize := c.blocksize_ge
  have hlt : ∀ n < 3, n < c.blocksize / 4 := by omega
  constructor
  · simp [Block.hMagic, Block.be32, wordsBlock, hlt 0]
  · simp [Block.hBlocktype, Block.be32, wordsBlock, hlt 1]
  · simp [Block.hSequence, Block.be32, wordsBlock, hlt 2]

lemma stops_empty : Stops (wordsBlock [] : Block c) id := by
  refine .inl ?_
  simp [Block.hMagic, Block.be32, wordsBlock, jfsMagicNumber]

/-- A log of `n + 1` blocks of 1024 bytes. -/
def smallConfig (n : ℕ) (hn : n + 2 < 2 ^ 32) : Config :=
  ⟨64, 1024, 1, n + 2, n + 2, 1, fun _ => 0, le_rfl, by omega, le_rfl, hn⟩

/-- The devices with the blocks of `log` from the first block on. -/
def logIo (log : Log c) : Io c := ⟨fun n => .ok (log.blocks.getD (n - 1) log.stop), fun _ => true⟩

/-- The journal that starts with the transaction `id` at the first block. -/
def freshJournal : Journal c := ⟨id, 1, fun _ => [], 0, fun _ => wordsBlock []⟩

lemma logPos_smallConfig {n i : ℕ} (hn : n + 2 < 2 ^ 32) (hi : i ≤ n) :
    logPos (smallConfig n hn) 1 i = 1 + i := by
  have hmod : i % (n + 1) = i := Nat.mod_eq_of_lt (by omega)
  simp [logPos, smallConfig, hmod]

lemma recorded_logIo {n : ℕ} {hn : n + 2 < 2 ^ 32} {log : Log (smallConfig n hn)}
    {id : BitVec 32} (hlen : log.blocks.length ≤ n)
    (hts : ∀ (k : ℕ) (t : Transaction _), log.transactions[k]? = some t → t.Ok (tid id k))
    (htail : ∀ ch ∈ log.tail, ch.Ok (tid id log.transactions.length))
    (hstop : Stops log.stop (tid id log.transactions.length)) :
    Recorded (logIo log) (freshJournal id) log where
  start_ne := by simp [freshJournal]
  first_le := by simp [freshJournal, smallConfig]
  start_lt := by simp [freshJournal, smallConfig]
  stored := by
    intro i b hi
    have hilt := (List.getElem?_eq_some_iff.1 hi).1
    rw [length_append, length_singleton] at hilt
    have hpos := logPos_smallConfig hn (i := i) (by omega)
    have hget : log.blocks.getD i log.stop = b := by
      by_cases hlt : i < log.blocks.length
      · rw [getElem?_append_left hlt] at hi
        rw [getD_eq_getElem?_getD, hi, Option.getD_some]
      · obtain rfl : i = log.blocks.length := by omega
        simpa using hi
    simpa [freshJournal, hpos, logIo] using hget
  fits := hlen.trans (Nat.le_succ n)
  transactions := hts
  tail := htail
  stop := hstop

/-- A descriptor block with two tags, for the blocks 7 and 8. -/
def twoTagBlock : Block c :=
  wordsBlock [jfsMagicNumber, jfsDescriptorBlock, id, 7, jfsFlagSameUuid, 8,
    jfsFlagSameUuid ||| jfsFlagLastTag]

lemma tags_twoTagBlock : (twoTagBlock id : Block c).tags =
    [⟨7, jfsFlagSameUuid⟩, ⟨8, jfsFlagSameUuid ||| jfsFlagLastTag⟩] := by
  have hsize := c.blocksize_ge
  have hlt : ∀ n < 7, n < c.blocksize / 4 := by omega
  have hfirst : (twoTagBlock id : Block c).tag 12 = ⟨7, jfsFlagSameUuid⟩ := by
    simp [Block.tag, Block.be32, twoTagBlock, wordsBlock, hlt 3, hlt 4]
  have hnext : Tag.next ⟨7, jfsFlagSameUuid⟩ 12 = 20 := by decide
  have hsecond : (twoTagBlock id : Block c).tag 20 = ⟨8, jfsFlagSameUuid ||| jfsFlagLastTag⟩ := by
    simp [Block.tag, Block.be32, twoTagBlock, wordsBlock, hlt 5, hlt 6]
  have hmore : ¬Tag.isLast ⟨7, jfsFlagSameUuid⟩ = true := by decide
  have hlast : Tag.isLast ⟨8, jfsFlagSameUuid ||| jfsFlagLastTag⟩ = true := by decide
  rw [Block.tags, Block.tagsFrom, if_pos (by omega), hfirst, if_neg hmore, hnext, Block.tagsFrom,
    if_pos (by omega), hsecond, if_pos hlast]

lemma ok_twoTagBlock (b b' : Block c) : Chunk.Ok id (.descriptor (twoTagBlock id) [b, b']) :=
  ⟨header_wordsBlock _ _ _, by simp [tags_twoTagBlock]⟩

/-- A revoke block for the block 7. -/
def revokeBlock : Block c := wordsBlock [jfsMagicNumber, jfsRevokeBlock, id, 20, 7]

lemma rCount_revokeBlock : (revokeBlock id : Block c).rCount = 20 := by
  have hsize := c.blocksize_ge
  have hlt : 3 < c.blocksize / 4 := by omega
  simp [Block.rCount, Block.be32, revokeBlock, wordsBlock, hlt]

lemma revokes_revokeBlock : (revokeBlock id : Block c).revokes = [7] := by
  have hsize := c.blocksize_ge
  have hlt : 4 < c.blocksize / 4 := by omega
  have hmax : (20 : BitVec 32).toInt = 20 := by decide
  rw [Block.revokes, rCount_revokeBlock, hmax, Block.revokesFrom, if_pos (by decide),
    Block.revokesFrom, if_neg (by decide)]
  simp [Block.be32, revokeBlock, wordsBlock, hlt]

end

/-- A transaction with copies of the blocks 7 and 8. -/
def twoCopies : Transaction c :=
  ⟨[.descriptor (twoTagBlock 5) [wordsBlock [42], wordsBlock [43]]], commitBlock 5⟩

lemma twoCopies_ok : (twoCopies : Transaction c).Ok 5 :=
  ⟨forall_mem_singleton.2 (ok_twoTagBlock 5 _ _), by simp [twoCopies], header_wordsBlock _ _ _⟩

/-- A transaction with two copies, one that revokes the block 7, and one without a commit block. -/
def sampleLog : Log c :=
  ⟨[twoCopies, ⟨[.revoke (revokeBlock 6)], commitBlock 6⟩],
   [.descriptor (twoTagBlock 7) [wordsBlock [44], wordsBlock [45]]], wordsBlock []⟩

lemma sampleLog_recorded (hn : 9 + 2 < 2 ^ 32) :
    Recorded (c := smallConfig 9 hn) (logIo sampleLog) (freshJournal 5) sampleLog := by
  have hlen : (sampleLog : Log (smallConfig 9 hn)).blocks.length ≤ 9 := by
    simp [Log.blocks, sampleLog, twoCopies, Transaction.blocks, Chunk.blocks]
  refine recorded_logIo hlen (fun k t ht => ?_) (forall_mem_singleton.2 (ok_twoTagBlock 7 _ _))
    (stops_empty _)
  have hk : k < 2 := by simpa [sampleLog] using (List.getElem?_eq_some_iff.1 ht).1
  obtain rfl | rfl : k = 0 ∨ k = 1 := by omega
  · obtain rfl := Option.some.inj ht
    exact twoCopies_ok
  · obtain rfl := Option.some.inj ht
    refine ⟨forall_mem_singleton.2 (header_wordsBlock _ _ _), fun bh hbh => ?_,
      header_wordsBlock _ _ _⟩
    obtain rfl : bh = revokeBlock 6 := by simpa using hbh
    rw [rCount_revokeBlock]
    simp [smallConfig]

/-- The block 8 gets its logged contents, and the block 7 keeps what it has. -/
theorem journal_recover_replays_one :
    ∃ hn : 9 + 2 < 2 ^ 32,
      journalRecover (c := smallConfig 9 hn) (logIo sampleLog) (freshJournal 5) =
        some (none, { freshJournal 5 with
          fs := sampleLog.recovered 5 fun _ => wordsBlock []
          transactionSequence := tid 5 2 + 1 }) ∧
      sampleLog.recovered (c := smallConfig 9 hn) 5 (fun _ => wordsBlock []) 7 = wordsBlock [] ∧
      sampleLog.recovered (c := smallConfig 9 hn) 5 (fun _ => wordsBlock []) 8 =
        wordsBlock [43] := by
  have hn : 9 + 2 < 2 ^ 32 := by decide
  have hgt : tidGt (tid 5#32 0) (tid 5#32 1) = false := by decide
  refine ⟨hn, journal_recover_replays (sampleLog_recorded hn) rfl (fun _ => rfl)
    (by simp [sampleLog]) (by simp [smallConfig]), ?_, ?_⟩
  · simp [Log.recovered, copyList, sampleLog, twoCopies, copies, Chunk.copies, tags_twoTagBlock,
      Log.current, revokeList, revokes, Chunk.revokes, revokes_revokeBlock, hgt]
  · simp [Log.recovered, copyList, sampleLog, twoCopies, copies, Chunk.copies, tags_twoTagBlock,
      Log.current, revokeList, revokes, Chunk.revokes, revokes_revokeBlock, unescape,
      jfsFlagSameUuid, jfsFlagLastTag, jfsFlagEscape]

/-- A crash left something else in block 8. -/
theorem journal_recover_restarts_one : ∃ hn : 9 + 2 < 2 ^ 32,
    journalRecover (c := smallConfig 9 hn) (logIo sampleLog) { freshJournal 5 with
      fs := fun b => wordsBlock (if b = 8 then [1] else []) } =
      journalRecover (logIo sampleLog) (freshJournal 5) := by
  have hn : 9 + 2 < 2 ^ 32 := by decide
  refine ⟨hn, journal_recover_restarts (sampleLog_recorded hn) rfl
    ⟨fun _ => rfl, by simp [smallConfig]⟩ (by simp [sampleLog]) fun b hb => ?_⟩
  obtain rfl : b = 8 := by_contra fun hne => hb (by rw [if_neg hne]; rfl)
  simp [copyList, sampleLog, twoCopies, copies, Chunk.copies, tags_twoTagBlock, Log.current,
    revokeList, revokes, Chunk.revokes, revokes_revokeBlock]

/-- A log of commit blocks only. -/
def commitLog (n : ℕ) : Log c :=
  ⟨(range n).map fun k => ⟨[], commitBlock (tid 0 k)⟩, [], wordsBlock []⟩

lemma commitLog_recorded (n : ℕ) (hn : n + 2 < 2 ^ 32) :
    Recorded (c := smallConfig n hn) (logIo (commitLog n)) (freshJournal 0) (commitLog n) := by
  have hblocks : (commitLog n : Log (smallConfig n hn)).blocks =
      (range n).map fun k => commitBlock (tid 0 k) := by
    rw [map_eq_flatMap]
    simp [Log.blocks, commitLog, blocks, flatMap_map]
  refine recorded_logIo (by simp [hblocks]) (fun k t ht => ?_) (by simp [commitLog]) (stops_empty _)
  have hlt : k < n := by simpa [commitLog] using (List.getElem?_eq_some_iff.1 ht).1
  obtain rfl : (⟨[], commitBlock (tid 0 k)⟩ : Transaction (smallConfig n hn)) = t := by
    simpa [commitLog, hlt] using ht
  exact ⟨by simp, by simp, header_wordsBlock _ _ _⟩

/-- A log of 32-bit `unsigned long`s that goes up to the last block number. -/
def wideConfig : Config :=
  ⟨32, 1024, 1, 2 ^ 32 - 1, 2 ^ 32 - 1, 1, fun _ => 0, le_rfl, by decide, le_rfl, by decide⟩

def wrappedLog : Log wideConfig := ⟨[twoCopies], [], wordsBlock []⟩

/-- The device with `wrappedLog`, which starts two blocks before the end. -/
def wrappedIo : Io wideConfig where
  read n := .ok (wrappedLog.blocks.getD (if n < 4 then n + 1 else n - (2 ^ 32 - 3)) (wordsBlock []))
  getblk _ := true

def wrappedJournal : Journal wideConfig := { freshJournal 5 with sStart := 2 ^ 32 - 3 }

lemma wrappedLog_recorded : Recorded wrappedIo wrappedJournal wrappedLog where
  start_ne := by decide
  first_le := by decide
  start_lt := by decide
  stored n b hn := by
    have hlt : n < 5 := (List.getElem?_eq_some_iff.1 hn).1
    obtain rfl | rfl | rfl | rfl | rfl : n = 0 ∨ n = 1 ∨ n = 2 ∨ n = 3 ∨ n = 4 := by omega
    all_goals exact congrArg Except.ok (Option.some.inj hn)
  fits := by decide
  transactions k t ht := by
    have hk : k = 0 := by simpa [wrappedLog] using (List.getElem?_eq_some_iff.1 ht).1
    subst hk
    obtain rfl := Option.some.inj ht
    exact twoCopies_ok
  tail := by simp [wrappedLog]
  stop := stops_empty _

/-- The number of the block behind the copies is taken modulo `2 ^ 32`, and the scan goes on at the
block 0. -/
lemma passRound_wrappedLog (endId : BitVec 32) :
    passRound wrappedIo .scan endId wrappedJournal.passState =
      .next (wrappedJournal.passState.goto 0) := by
  have hheader : Header (twoTagBlock 5 : Block wideConfig) jfsDescriptorBlock 5 :=
    header_wordsBlock _ _ _
  have hread : wrappedIo.read (logPos wideConfig (2 ^ 32 - 3) 0) = .ok (twoTagBlock 5) := rfl
  have hlive : Live .scan endId wrappedJournal.passState.nextCommitId := .inl rfl
  rw [passRound_eq _ hlive rfl hread hheader le_rfl, passBlock, if_pos hheader.blocktype,
    if_pos (by simp), countTags_eq, tags_twoTagBlock]
  rfl

lemma journalRecover_wrappedLog : journalRecover wrappedIo wrappedJournal =
    some (none, { wrappedJournal with transactionSequence := 6 }) := by
  have hmagic : (wordsBlock [42] : Block wideConfig).hMagic ≠ jfsMagicNumber := by decide
  have hstop : passRound wrappedIo .scan 0 (wrappedJournal.passState.goto 0) =
      .done (wrappedJournal.passState.goto 1) := by
    rw [passRound, if_neg (by simp)]
    exact if_pos hmagic
  have hscan : doOnePass wrappedIo .scan ⟨0, 0⟩ wrappedJournal =
      some (none, ⟨5, 5⟩, wrappedJournal) := by
    have hloop : passLoop wrappedIo .scan 0 wrappedJournal.passState =
        some (none, wrappedJournal.passState.goto 1) := by
      rw [passLoop_round, passRound_wrappedLog]
      simp only
      rw [passLoop_round, hstop]
    exact congrArg (Option.bind · _) hloop
  have hrevoke : doOnePass wrappedIo .revoke ⟨5, 5⟩ wrappedJournal =
      some (none, ⟨5, 5⟩, wrappedJournal) :=
    congrArg (Option.bind · _) (passLoop_done (by decide) (by decide))
  have hreplay : doOnePass wrappedIo .replay ⟨5, 5⟩ wrappedJournal =
      some (none, ⟨5, 5⟩, wrappedJournal) :=
    congrArg (Option.bind · _) (passLoop_done (by decide) (by decide))
  rw [journalRecover, if_neg wrappedLog_recorded.start_ne]
  simp only [recoverPasses, hscan, hrevoke, hreplay, Option.bind_eq_bind, Option.bind_some,
    Option.isSome_none, Bool.false_eq_true, if_false]
  rfl

/-- With more than `2 ^ 31` transactions the second pass stops at once, and recovery fails. Where
the number of a block overflows, recovery succeeds and replays nothing. -/
theorem journal_recover_too_many :
    (∃ (c : Config) (io : Io c) (j : Journal c) (log : Log c), Recorded io j log ∧
      j.revoke = (fun _ => []) ∧ (∀ b, io.getblk b = true) ∧
      c.last + c.blocksize / 8 ≤ 2 ^ c.bits ∧
      (journalRecover io j).map Prod.fst = some (some .eio)) ∧
    ∃ (c : Config) (io : Io c) (j : Journal c) (log : Log c), Recorded io j log ∧
      j.revoke = (fun _ => []) ∧ (∀ b, io.getblk b = true) ∧
      log.transactions.length ≤ 2 ^ 31 ∧
      journalRecover io j = some (none, { j with transactionSequence := j.sSequence + 1 }) ∧
      log.recovered j.sSequence j.fs ≠ j.fs := by
  constructor
  · have hn : 2 ^ 31 + 1 + 2 < 2 ^ 32 := by decide
    have h := commitLog_recorded (2 ^ 31 + 1) hn
    have hover : (smallConfig (2 ^ 31 + 1) hn).last + (smallConfig (2 ^ 31 + 1) hn).blocksize / 8 ≤
        2 ^ (smallConfig (2 ^ 31 + 1) hn).bits := by
      simp [smallConfig]
    refine ⟨_, _, _, _, h, rfl, fun _ => rfl, hover, ?_⟩
    have hlen : (commitLog (2 ^ 31 + 1) : Log (smallConfig (2 ^ 31 + 1) hn)).transactions.length =
        2 ^ 31 + 1 := by
      simp [commitLog]
    have hgeq : tidGeq 0 (tid 0 (2 ^ 31 + 1)) = true := by decide
    have hne : tid 0 (2 ^ 31 + 1) ≠ 0 := by decide
    exact h.journalRecover_eio ⟨fun _ => rfl, hover⟩ (by rw [hlen]; exact hgeq)
      (by rw [hlen]; exact hne)
  · refine ⟨_, _, _, _, wrappedLog_recorded, rfl, fun _ => rfl, by decide,
      journalRecover_wrappedLog, fun heq => ?_⟩
    have hword := congrFun (congrFun heq 7) ⟨0, by decide⟩
    simp [Log.recovered, copyList, wrappedLog, twoCopies, copies, Chunk.copies, tags_twoTagBlock,
      Log.current, revokeList, revokes, Chunk.revokes, unescape, jfsFlagSameUuid, jfsFlagEscape,
      wrappedJournal, freshJournal, wordsBlock] at hword

end BooxKernel.Jbd
