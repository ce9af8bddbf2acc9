import BooxKernel.Jbd.Model

/-!
# The revoke table

The table holds for each block the latest transaction that revokes it. The ids of at most
`2 ^ 31` transactions in a row compare like their positions.
-/
namespace BooxKernel.Jbd
open List BitVec Option Function

variable {c : Config} {table : RevokeTable c} {s b b' seq : BitVec 32} {k l : ℕ}
  {rs : List (ℕ × BitVec 32)}

/-! ## Transaction ids -/

/-- The id of the transaction number `k`. -/
def tid (s : BitVec 32) (k : ℕ) : BitVec 32 := s + BitVec.ofNat 32 k

lemma toInt_tid_sub (hk : k ≤ 2 ^ 31) (hl : l ≤ 2 ^ 31) (hlt : k < l + 2 ^ 31) :
    (tid s k - tid s l).toInt = (k : ℤ) - l := by
  have hsub : tid s k - tid s l = BitVec.ofNat 32 k - BitVec.ofNat 32 l := by
    rw [tid, tid]
    bv_omega
  rw [hsub, toInt_eq_toNat_cond, toNat_sub, toNat_ofNat, toNat_ofNat]
  split <;> omega

lemma tidGt_tid (hk : k < 2 ^ 31) (hl : l < 2 ^ 31) : tidGt (tid s k) (tid s l) = decide (l < k) := by
  rw [tidGt, toInt_tid_sub hk.le hl.le (by omega)]
  simp

lemma tidGeq_tid (hk : k ≤ 2 ^ 31) (hl : l ≤ 2 ^ 31) (hlt : k < l + 2 ^ 31) :
    tidGeq (tid s k) (tid s l) = decide (l ≤ k) := by
  rw [tidGeq, toInt_tid_sub hk hl hlt]
  simp

/-! ## Records -/

/-- The transaction that revokes the block `b`, as the table has it. -/
def revokedBy (table : RevokeTable c) (b : BitVec 32) : Option (BitVec 32) :=
  (findRevokeRecord table b).map RevokeRecord.sequence

lemma find?_setSequence (records : List RevokeRecord) :
    (records.replaceF fun r => if r.blocknr = b then some { r with sequence := seq } else none).find?
        (fun r => r.blocknr = b') =
      if b' = b then (records.find? fun r => r.blocknr = b).map fun r => { r with sequence := seq }
      else records.find? fun r => r.blocknr = b' := by
  induction records with
  | nil => simp
  | cons r records ih =>
    by_cases hr : r.blocknr = b
    · by_cases hb : b' = b
      · simp [replaceF, hr, hb]
      · simp [replaceF, hr, hb, Ne.symm hb]
    · by_cases hb : b' = b
      · subst hb
        simpa [replaceF, hr] using ih
      · simp only [hb, if_false] at ih ⊢
        simp [replaceF, hr, find?_cons, ih]

lemma revokedBy_setSequence :
    revokedBy (setSequence table b seq) b' =
      if b' = b then (revokedBy table b).map fun _ => seq else revokedBy table b' := by
  rw [revokedBy, findRevokeRecord, setSequence]
  by_cases hhash : c.hash b' = c.hash b
  · rw [hhash, update_self, find?_setSequence]
    split
    · simp [revokedBy, findRevokeRecord, comp_def]
    · rw [revokedBy, findRevokeRecord, hhash]
  · have hb : b' ≠ b := fun h => hhash (h ▸ rfl)
    rw [update_of_ne hhash, if_neg hb, revokedBy, findRevokeRecord]

lemma revokedBy_insertRevokeHash :
    revokedBy (insertRevokeHash table b seq) b' =
      if b' = b then some seq else revokedBy table b' := by
  rw [revokedBy, findRevokeRecord, insertRevokeHash]
  by_cases hb : b' = b
  · simp [hb]
  · by_cases hhash : c.hash b' = c.hash b
    · simp [hhash, hb, Ne.symm hb, revokedBy, findRevokeRecord]
    · simp [update_of_ne hhash, hb, revokedBy, findRevokeRecord]

lemma revokedBy_journalSetRevoke :
    revokedBy (journalSetRevoke table b seq) b' =
      if b' = b then
        some ((revokedBy table b).elim seq fun old => if tidGt seq old then seq else old)
      else revokedBy table b' := by
  rw [journalSetRevoke]
  cases hfind : findRevokeRecord table b with
  | none =>
    have hold : revokedBy table b = none := by rw [revokedBy, hfind, map_none]
    simp [revokedBy_insertRevokeHash, hold]
  | some r =>
    have hold : revokedBy table b = some r.sequence := by rw [revokedBy, hfind, map_some]
    by_cases hgt : tidGt seq r.sequence = true
    · simp [hgt, revokedBy_setSequence, hold]
    · by_cases hb : b' = b
      · simp [hgt, hb, hold]
      · simp [hgt, hb]

/-! ## All revokes of a log -/

/-- The revokes `rs`, each with the number of its transaction, are entered in turn. -/
def revokeAll (s : BitVec 32) (table : RevokeTable c) (rs : List (ℕ × BitVec 32)) : RevokeTable c :=
  rs.foldl (fun table r => journalSetRevoke table r.2 (tid s r.1)) table

section
variable (hsorted : rs.Pairwise fun r r' => r.1 ≤ r'.1) (hbound : ∀ r ∈ rs, r.1 < 2 ^ 31)
include hsorted hbound

lemma revokedBy_revokeAll : revokedBy (revokeAll s (fun _ => []) rs : RevokeTable c) b =
      (rs.filter fun r => r.2 = b).getLast?.map fun r => tid s r.1 := by
  induction rs using reverseRecOn with
  | nil => rfl
  | append_singleton rs r ih =>
    obtain ⟨hrs, -, hle⟩ := pairwise_append.1 hsorted
    have ih := ih hrs fun r hr => hbound r (by simp [hr])
    rw [revokeAll, foldl_append, foldl_cons, foldl_nil, revokedBy_journalSetRevoke]
    by_cases hb : b = r.2
    · subst hb
      rw [revokeAll] at ih
      rw [ih]
      cases hlast : (rs.filter fun r' => r'.2 = r.2).getLast? with
      | none => simp
      | some old =>
        have hmem : old ∈ rs := (mem_filter.1 (mem_of_getLast? hlast)).1
        have hold := hle old hmem r (by simp)
        have hgt := tidGt_tid (s := s) (hbound r (by simp)) (hbound old (by simp [hmem]))
        by_cases hlt : old.1 < r.1
        · simp [hgt, hlt]
        · have heq : old.1 = r.1 := by omega
          simp [heq]
    · rw [revokeAll] at ih
      simp [hb, Ne.symm hb, ih]

/-- A copy of a block is not revoked if its transaction is later than all that revoke the
block. -/
lemma journalTestRevoke_revokeAll (hk : k < 2 ^ 31) :
    journalTestRevoke (revokeAll s (fun _ => []) rs : RevokeTable c) b (tid s k) = false ↔
      ∀ r ∈ rs, r.2 = b → r.1 < k := by
  have htest : journalTestRevoke (revokeAll s (fun _ => []) rs : RevokeTable c) b (tid s k) =
      (revokedBy (revokeAll s (fun _ => []) rs : RevokeTable c) b).elim false
        fun old => !tidGt (tid s k) old := by
    rw [journalTestRevoke, revokedBy]
    cases findRevokeRecord (revokeAll s (fun _ => []) rs : RevokeTable c) b <;> rfl
  rw [htest, revokedBy_revokeAll hsorted hbound]
  cases hlast : (rs.filter fun r => r.2 = b).getLast? with
  | none =>
    have hnil := getLast?_eq_none_iff.1 hlast
    simp only [filter_eq_nil_iff, decide_eq_true_eq] at hnil
    simpa using fun j b' hmem hb => absurd hb (hnil (j, b') hmem)
  | some last =>
    obtain ⟨init, hinit⟩ := getLast?_eq_some_iff.1 hlast
    have hmem := mem_filter.1 (mem_of_getLast? hlast)
    have hmax : ∀ r ∈ rs, r.2 = b → r.1 ≤ last.1 := by
      intro r hr hb
      have hfilter : r ∈ rs.filter fun r => r.2 = b := by simp [hr, hb]
      have hpair := hsorted.filter fun r => decide (r.2 = b)
      rw [hinit] at hfilter hpair
      rcases mem_append.1 hfilter with hr' | hr'
      · exact (pairwise_append.1 hpair).2.2 r hr' last (by simp)
      · rw [mem_singleton.1 hr']
    simp only [map_some, elim_some, tidGt_tid hk (hbound last hmem.1), Bool.not_eq_false',
      decide_eq_true_eq]
    refine ⟨fun hlt r hr hb => (hmax r hr hb).trans_lt hlt, fun hall => ?_⟩
    exact hall last hmem.1 (by simpa using hmem.2)

end

end BooxKernel.Jbd
