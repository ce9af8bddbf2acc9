import BooxKernel.Lib.Loops
import BooxKernel.Lib.Runs
import Mathlib.Data.Int.Notation

/-!
# Ack vectors (`net/dccp/ackvec.c`)

The states of the packets received last stand in a circular buffer that grows downwards. A record
of each vector that is sent keeps where the head was, and when the record is acknowledged the
cells from there on are given up. A function has no value when it makes an access outside of the
buffer; `w` is the width of a `long`.
-/
namespace BooxKernel.Dccp
open Function Loops Runs Option List

/-- `DCCP_MAX_ACKVEC_LEN`. -/
def maxAckvecLen : ℕ := 253 * 2

/-- `DCCP_ACKVEC_STATE_MASK`. -/
def stateMask : BitVec 8 := 0xC0

/-- `DCCP_ACKVEC_LEN_MASK`. -/
def lenMask : BitVec 8 := 0x3F

/-- `DCCP_ACKVEC_STATE_NOT_RECEIVED`. -/
def notReceived : BitVec 8 := 0xC0

/-- `struct dccp_ackvec_record`. -/
structure Record where
  avrAckSeqno : BitVec 64
  avrAckPtr : ℕ

/-- `struct dccp_ackvec`. -/
structure Ackvec where
  avBufAckno : BitVec 64
  avRecords : List Record
  avBufHead : ℕ
  avVecLen : ℕ
  avBuf : ℕ → BitVec 8

inductive Errno
  | enobufs
  | eilseq

/-- `dccp_ackvec_alloc`, with what is in the buffer. -/
def ackvecAlloc (avBuf : ℕ → BitVec 8) : Ackvec := ⟨0x1000000000000, [], maxAckvecLen - 1, 0, avBuf⟩

/-- `before48`. -/
def before48 (seq1 seq2 : BitVec 64) : Bool := 0 < (seq2 <<< 16 - seq1 <<< 16).toInt

/-- `dccp_delta_seqno`. -/
def deltaSeqno (seqno1 seqno2 : BitVec 64) : BitVec 64 :=
  let delta := (seqno2 + (0x1000000000000 - seqno1)) &&& 0xFFFFFFFFFFFF
  if delta < 0x800000000000 then delta else -(0x1000000000000 - delta)

/-- `memset(av_buf + start, DCCP_ACKVEC_STATE_NOT_RECEIVED, n)`. -/
def fill (start n : ℕ) (buf : ℕ → BitVec 8) : Option (ℕ → BitVec 8) :=
  if n = 0 then some buf
  else if start + n ≤ maxAckvecLen then
    some fun i => if start ≤ i ∧ i < start + n then notReceived else buf i
  else none

/-- `av_buf[av_buf_head] = x`. -/
def Ackvec.putHead (av : Ackvec) (x : BitVec 8) : Option Ackvec :=
  if av.avBufHead < maxAckvecLen then some { av with avBuf := update av.avBuf av.avBufHead x }
  else none

variable {w : ℕ} {av av' : Ackvec} {r : Option Errno}

/-- `dccp_ackvec_set_buf_head_state`. -/
def setBufHeadState (w : ℕ) (av : Ackvec) (packets : BitVec 32) (state : BitVec 8) :
    Option (Option Errno × Ackvec) :=
  if maxAckvecLen < (BitVec.ofNat 32 av.avVecLen + packets).toNat then some (some .enobufs, av)
  else
    let gap := packets - 1
    let newHead := ((BitVec.ofNat 32 av.avBufHead - packets).setWidth w).toInt
    let split := newHead < 0 ∧ 0 < gap
    let low := if split then (BitVec.ofInt w (gap.toNat + newHead + 1)).toNat else 0
    let high := if split then BitVec.ofInt 32 (-newHead) else gap
    let head := ((if newHead < 0 then newHead + maxAckvecLen else newHead) % 0x10000).toNat
    (fill 0 low av.avBuf).bind fun buf => (fill (head + 1) high.toNat buf).bind fun buf =>
      (Ackvec.putHead { av with
        avBufHead := head
        avVecLen := (av.avVecLen + packets.toNat) % 0x10000
        avBuf := buf } state).map (none, ·)

/-- A round of the walk to an old packet: the cell that is reserved for it, or none for a
duplicate. -/
def walkRound (av : Ackvec) (s : BitVec 64 × ℕ) : Option (Round (BitVec 64 × ℕ) (Option ℕ)) :=
  let len := av.avBuf s.2 &&& lenMask
  if av.avBuf s.2 &&& stateMask = notReceived ∧ len = 0 ∧ s.1 = 0 then some (.done (some s.2))
  else if s.1 < len.setWidth 64 + 1 then some (.done none)
  else some (.next (s.1 - (len.setWidth 64 + 1), if s.2 + 1 = maxAckvecLen then 0 else s.2 + 1))

/-- `dccp_ackvec_add`. -/
def ackvecAdd (w : ℕ) (av : Ackvec) (ackno : BitVec 64) (state : BitVec 8) :
    Option (Option Errno × Ackvec) :=
  if av.avVecLen = 0 then
    (Ackvec.putHead { av with avVecLen := 1, avBufAckno := ackno } state).map (none, ·)
  else if before48 av.avBufAckno ackno then
    let delta := deltaSeqno av.avBufAckno ackno
    let cell := av.avBuf av.avBufHead
    if delta = 1 ∧ cell &&& stateMask = state ∧ cell &&& lenMask < lenMask then
      (Ackvec.putHead { av with avBufAckno := ackno } (cell + 1)).map (none, ·)
    else (setBufHeadState w av (delta.setWidth 32) state).map fun
      | (none, av) => (none, { av with avBufAckno := ackno })
      | failed => failed
  else (loop (walkRound av) (deltaSeqno ackno av.avBufAckno, av.avBufHead)).map fun
    | none => (some .eilseq, av)
    | some index => (none, { av with avBuf := update av.avBuf index state })

/-- `dccp_ackvec_insert_avr` of the record of `dccp_insert_option_ackvec`. -/
def insertAvr (av : Ackvec) (seqno : BitVec 64) : Option Ackvec :=
  if av.avRecords.head?.any fun head => before48 seqno head.avrAckSeqno then none
  else some { av with avRecords := ⟨seqno, av.avBufHead⟩ :: av.avRecords }

/-- `dccp_ackvec_throw_record` of the record at the place `i`. -/
def throwRecord (av : Ackvec) (i : ℕ) (avr : Record) : Ackvec :=
  { av with
    avVecLen :=
      if av.avBufHead ≤ avr.avrAckPtr then avr.avrAckPtr - av.avBufHead
      else ((maxAckvecLen - 1 - av.avBufHead + avr.avrAckPtr : ℤ) % 0x10000).toNat
    avRecords := av.avRecords.take i }

/-! ## Runs -/

/-- A packet is received, a vector is sent, or `dccp_ackvec_check_rcv_ackno` or
`dccp_ackvec_check_rcv_ackvector` finds the acknowledged record at a place. -/
inductive Event
  | add (ackno : BitVec 64) (state : BitVec 8)
  | send (seqno : BitVec 64)
  | acked (i : ℕ)

def Step (w : ℕ) (av : Ackvec) (e : Event) (av' : Ackvec) : Prop :=
  match e with
  | .add ackno state => (ackvecAdd w av ackno state).map Prod.snd = some av'
  | .send seqno => insertAvr av seqno = some av'
  | .acked i => av.avRecords[i]?.map (throwRecord av i) = some av'

/-- All places are in the buffer. -/
structure Inside (av : Ackvec) : Prop where
  head : av.avBufHead < maxAckvecLen
  records : ∀ avr ∈ av.avRecords, avr.avrAckPtr < maxAckvecLen

lemma Inside.of_putHead {x : BitVec 8} (h : (av.putHead x).map (none, ·) = some (r, av'))
    (hrecords : ∀ avr ∈ av.avRecords, avr.avrAckPtr < maxAckvecLen) : Inside av' := by
  obtain ⟨av1, hput, heq⟩ := map_eq_some_iff.1 h
  cases heq
  rw [Ackvec.putHead] at hput
  split_ifs at hput with hhead
  cases hput
  exact ⟨hhead, hrecords⟩

lemma Inside.setBufHeadState {packets : BitVec 32} {state : BitVec 8} (hin : Inside av)
    (h : setBufHeadState w av packets state = some (r, av')) : Inside av' := by
  rw [Dccp.setBufHeadState] at h
  split at h
  · cases h
    exact hin
  · obtain ⟨buf, -, h⟩ := bind_eq_some_iff.1 h
    obtain ⟨buf, -, h⟩ := bind_eq_some_iff.1 h
    exact .of_putHead h hin.records

lemma Inside.add {ackno : BitVec 64} {state : BitVec 8} (hin : Inside av)
    (h : ackvecAdd w av ackno state = some (r, av')) : Inside av' := by
  rw [ackvecAdd] at h
  split at h
  · exact .of_putHead h hin.records
  split at h
  · dsimp only at h
    split at h
    · exact .of_putHead h hin.records
    · obtain ⟨⟨r1, av1⟩, hset, heq⟩ := map_eq_some_iff.1 h
      have h1 := hin.setBufHeadState hset
      cases r1 with
      | none =>
        cases heq
        exact ⟨h1.head, h1.records⟩
      | some e =>
        cases heq
        exact h1
  · obtain ⟨index, -, heq⟩ := map_eq_some_iff.1 h
    cases index with
    | none =>
      cases heq
      exact hin
    | some index =>
      cases heq
      exact ⟨hin.head, hin.records⟩

lemma Inside.step {e : Event} (hin : Inside av) (h : Step w av e av') : Inside av' := by
  cases e with
  | add ackno state =>
    obtain ⟨⟨r, av1⟩, hadd, rfl⟩ := map_eq_some_iff.1 h
    exact hin.add hadd
  | send seqno =>
    rw [Step, insertAvr] at h
    split_ifs at h
    cases h
    exact ⟨hin.head, forall_mem_cons.2 ⟨hin.head, hin.records⟩⟩
  | acked i =>
    obtain ⟨avr, -, rfl⟩ := map_eq_some_iff.1 h
    exact ⟨hin.head, fun avr hr => hin.records avr (mem_of_mem_take hr)⟩

/-- The number of cells from `head` up to `ptr`, around the buffer. -/
def cellsUpTo (head ptr : ℕ) : ℕ := (ptr + maxAckvecLen - head) % maxAckvecLen

/-- The place has a cell of the vector. -/
def Ackvec.Has (av : Ackvec) (p : ℕ) : Prop := cellsUpTo av.avBufHead p < av.avVecLen

/-- The places where a step creates a cell: from the new head up to the old one, or at the head if
the vector was empty. -/
def freshCells (av : Ackvec) (e : Event) (av' : Ackvec) : Set ℕ :=
  {p | p < maxAckvecLen ∧ (∃ ackno state, e = .add ackno state) ∧
    (av.avVecLen = 0 ∧ p = av.avBufHead ∨
      cellsUpTo av'.avBufHead p < cellsUpTo av'.avBufHead av.avBufHead)}

/-- A step with the places where a cell has been created so far. -/
def CellStep (w : ℕ) (s : Ackvec × Set ℕ) (e : Event) (s' : Ackvec × Set ℕ) : Prop :=
  Step w s.1 e s'.1 ∧ s'.2 = s.2 ∪ freshCells s.1 e s'.1

lemma Step.avBufHead_eq {e : Event} (h : Step w av e av')
    (hadd : ¬ ∃ ackno state, e = .add ackno state) : av'.avBufHead = av.avBufHead := by
  cases e with
  | add ackno state => exact absurd ⟨ackno, state, rfl⟩ hadd
  | send seqno =>
    rw [Step, insertAvr] at h
    split_ifs at h
    cases h
    rfl
  | acked i =>
    obtain ⟨avr, -, rfl⟩ := map_eq_some_iff.1 h
    rfl

/-- What holds of the cells created since the head was at `ptr`: they lie before it, as long as
none was created there. -/
structure Since (ptr : ℕ) (s : Ackvec × Set ℕ) : Prop where
  inside : Inside s.1
  lt : ∀ p ∈ s.2, p < maxAckvecLen
  newer : ptr ∉ s.2 → ∀ p ∈ s.2, cellsUpTo s.1.avBufHead p < cellsUpTo s.1.avBufHead ptr

lemma Since.step {ptr : ℕ} {s s' : Ackvec × Set ℕ} {e : Event} (hptr : ptr < maxAckvecLen)
    (h : Since ptr s) (hstep : CellStep w s e s') : Since ptr s' := by
  obtain ⟨hs, hcells⟩ := hstep
  have hin := h.inside.step hs
  refine ⟨hin, ?_, ?_⟩
  · rw [hcells]
    rintro p (hp | hp)
    · exact h.lt p hp
    · exact hp.1
  rw [hcells]
  intro hnot p hp
  have hold := h.newer fun hmem => hnot (.inl hmem)
  have hhead := h.inside.head
  have hhead' := hin.head
  by_cases hadd : ∃ ackno state, e = .add ackno state
  · have hfresh : ¬ (s.1.avVecLen = 0 ∧ ptr = s.1.avBufHead ∨
        cellsUpTo s'.1.avBufHead ptr < cellsUpTo s'.1.avBufHead s.1.avBufHead) :=
      fun hfresh => hnot (.inr ⟨hptr, hadd, hfresh⟩)
    rcases hp with hp | ⟨hlt, -, hp⟩
    · have hlt := h.lt p hp
      have hp := hold p hp
      simp only [cellsUpTo, maxAckvecLen] at *
      omega
    · simp only [cellsUpTo, maxAckvecLen] at *
      omega
  · rw [hs.avBufHead_eq hadd]
    rcases hp with hp | ⟨-, hp, -⟩
    · exact hold p hp
    · exact absurd hp hadd

/-- An acknowledged record leaves the cells from the head up to its own place, and with them all
that were created after it was sent, exactly if the head has not been wrapped around to behind its
place and no cell has been created at its place since. -/
theorem throw_record_keeps_newer {buf : ℕ → BitVec 8} {es es' : List Event} {i : ℕ}
    {seqno : BitVec 64} {sent : Ackvec} {cells : Set ℕ}
    (hrun : Run (Step w) (ackvecAlloc buf) es av) (hsend : insertAvr av seqno = some sent)
    (hrun' : Run (CellStep w) (sent, ∅) es' (av', cells))
    (hr : av'.avRecords[i]? = some ⟨seqno, av.avBufHead⟩) :
    ((throwRecord av' i ⟨seqno, av.avBufHead⟩).avVecLen =
        cellsUpTo av'.avBufHead av.avBufHead ∧
      ∀ p ∈ cells, (throwRecord av' i ⟨seqno, av.avBufHead⟩).Has p) ↔
    av'.avBufHead ≤ av.avBufHead ∧ av.avBufHead ∉ cells := by
  have hin : Inside av := hrun.invariant ⟨Nat.lt_succ_self 505, by simp [ackvecAlloc]⟩
    fun _ _ _ => Inside.step
  have hsent : Inside sent := hin.step (e := .send seqno) (w := w) hsend
  have hnone : Since av.avBufHead (sent, ∅) :=
    ⟨hsent, fun _ hp => False.elim hp, fun _ _ hp => False.elim hp⟩
  obtain ⟨hin', -, hnewer⟩ : Since av.avBufHead (av', cells) :=
    hrun'.invariant hnone fun _ _ _ => Since.step hin.head
  have hptr := hin'.records _ (mem_of_getElem? hr)
  have hhead := hin'.head
  have hlen : (throwRecord av' i ⟨seqno, av.avBufHead⟩).avVecLen =
      cellsUpTo av'.avBufHead av.avBufHead ↔ av'.avBufHead ≤ av.avBufHead := by
    simp only [throwRecord, cellsUpTo, maxAckvecLen] at hptr hhead ⊢
    split_ifs <;> omega
  rw [← hlen]
  refine and_congr_right fun heq => ⟨fun hall hmem => ?_, fun hnot p hp => ?_⟩
  · have hself := hall _ hmem
    rw [Ackvec.Has, heq] at hself
    exact absurd hself (Nat.lt_irrefl _)
  · rw [Ackvec.Has, heq]
    exact hnewer hnot p hp

/-- A vector of one cell that has been sent. -/
def sampleVector : Ackvec := ⟨0, [⟨1, 505⟩], 505, 1, update (fun _ => 0) 505 0⟩

/-- Two cells, one of them newer than the record. -/
theorem throw_record_keeps_newer_one :
    ∃ av cells, Run (CellStep 32) (sampleVector, ∅) [.add 1 0x40] (av, cells) ∧ 504 ∈ cells ∧
      (throwRecord av 0 ⟨1, 505⟩).avVecLen = 1 ∧ (throwRecord av 0 ⟨1, 505⟩).Has 504 := by
  have hrun : Run (Step 32) (ackvecAlloc fun _ => 0) [.add 0 0]
      ⟨0, [], 505, 1, update (fun _ => 0) 505 0⟩ := .cons rfl .nil
  obtain ⟨buf, hadd⟩ : ∃ buf, Step 32 sampleVector (.add 1 0x40) ⟨1, [⟨1, 505⟩], 504, 2, buf⟩ :=
    ⟨_, rfl⟩
  have hfresh : 504 ∈ freshCells sampleVector (.add 1 0x40) ⟨1, [⟨1, 505⟩], 504, 2, buf⟩ :=
    ⟨by decide, ⟨1, 0x40, rfl⟩, .inr (show cellsUpTo 504 504 < cellsUpTo 504 505 by decide)⟩
  have hrun' : Run (CellStep 32) (sampleVector, ∅) [.add 1 0x40] (⟨1, _, 504, 2, buf⟩,
      ∅ ∪ freshCells sampleVector (.add 1 0x40) ⟨1, [⟨1, 505⟩], 504, 2, buf⟩) :=
    .cons ⟨hadd, rfl⟩ .nil
  have hnot : 505 ∉ (∅ ∪ freshCells sampleVector (.add 1 0x40) ⟨1, [⟨1, 505⟩], 504, 2, buf⟩ : Set ℕ) := by
    rintro (hmem | ⟨-, -, ⟨hzero, -⟩ | hlt⟩)
    · exact hmem
    · exact absurd hzero (by decide)
    · exact absurd (show cellsUpTo 504 505 < cellsUpTo 504 505 from hlt) (by decide)
  obtain ⟨hlen, hall⟩ := (throw_record_keeps_newer (i := 0) hrun rfl hrun' rfl).2
    ⟨show 504 ≤ 505 by decide, hnot⟩
  exact ⟨_, _, hrun', .inr hfresh, hlen.trans (show cellsUpTo 504 505 = 1 by decide),
    hall 504 (.inr hfresh)⟩

/-- Behind a wrap of the head the only cell that is newer than the record is lost. So is the only
cell if a record of the same place was acknowledged before, so that the cell was created there. -/
theorem throw_record_loses_newest :
    (∃ av, Run (Step 32) (ackvecAlloc fun _ => 0)
      [.add 0 0, .send 1, .add 400 0, .acked 0, .add 505 0, .send 2, .add 506 0x40] av ∧
      av.avRecords = [⟨2, 0⟩] ∧ av.avBufHead = 505 ∧
      (throwRecord av 0 ⟨2, 0⟩).avVecLen = 0 ∧ cellsUpTo 505 0 = 1) ∧
    ∃ av, Run (Step 32) (ackvecAlloc fun _ => 0)
      [.add 0 0, .send 1, .send 2, .acked 1, .add 1 0] av ∧
      av.avRecords = [⟨2, 505⟩] ∧ av.avVecLen = 1 ∧ (throwRecord av 0 ⟨2, 505⟩).avVecLen = 0 :=
  ⟨⟨_, .cons rfl (.cons rfl (.cons rfl (.cons rfl (.cons rfl (.cons rfl (.cons rfl .nil)))))),
    rfl, rfl, rfl, rfl⟩,
    ⟨_, .cons rfl (.cons rfl (.cons rfl (.cons rfl (.cons rfl .nil)))), rfl, rfl, rfl⟩⟩

end BooxKernel.Dccp
