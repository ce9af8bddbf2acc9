import BooxKernel.Rtime.Decompress

/-!
# Compression of rtime

The compressor keeps the same places as the decompressor, so that each pair it writes is read
back to the bytes it stands for. Its bound on the output is computed without a sign.
-/
namespace BooxKernel.Rtime
open Function List Int Nat

variable {data : ℕ → UInt8} {sourcelen destlen pos n run q : ℕ} {dstlen : UInt32}
  {positions : Positions}

section Model

variable (data : ℕ → UInt8) (sourcelen : ℕ)

/-- `runlen` of the inner loop, which goes on for at most `left` more bytes. -/
def runlen : ℕ → ℤ → ℕ → ℕ
  | 0, _, _ => 0
  | left + 1, backpos, pos =>
    if backpos < pos ∧ pos < sourcelen ∧ data pos = data backpos.toNat then
      runlen left (backpos + 1) (pos + 1) + 1
    else 0

/-- The outer loop of `jffs2_rtime_compress`: where `pos` ends, and the bytes written. -/
def compressLoop (dstlen : UInt32) (outpos pos : ℕ) (positions : Positions) : ℕ × List UInt8 :=
  if pos < sourcelen ∧ outpos ≤ (dstlen - 2).toNat then
    let value := data pos
    let run := runlen data sourcelen 255 (positions value).toInt (pos + 1)
    let r := compressLoop dstlen (outpos + 2) (pos + 1 + run)
      (update positions value (Int16.ofNat (pos + 1)))
    (r.1, value :: UInt8.ofNat run :: r.2)
  else (pos, [])
termination_by sourcelen - pos

/-- The bytes that `jffs2_rtime_compress` writes to `cpage_out`. -/
def written (dstlen : UInt32) : List UInt8 := (compressLoop data sourcelen dstlen 0 0 fun _ => 0).2

/-- `jffs2_rtime_compress`: the new `*sourcelen` and `*dstlen`, or `-1`. -/
def jffs2RtimeCompress (dstlen : UInt32) : Option (ℕ × ℕ) :=
  let (pos, out) := compressLoop data sourcelen dstlen 0 0 fun _ => 0
  if pos ≤ out.length then none else some (pos, out.length)

end Model

/-- The first `n` bytes. -/
def upto (data : ℕ → UInt8) (n : ℕ) : List UInt8 := (List.range n).map data

lemma upto_succ : upto data n ++ [data n] = upto data (n + 1) := by
  simp [upto, range_succ]

@[simp]
lemma length_upto : (upto data n).length = n := by
  simp [upto]

/-- The run found repeats the bytes from the place kept on. -/
lemma runlen_spec {left : ℕ} (hpos : pos ≤ sourcelen) :
    runlen data sourcelen left q pos ≤ left ∧ pos + runlen data sourcelen left q pos ≤ sourcelen ∧
      ∀ j < runlen data sourcelen left q pos, data (pos + j) = data (q + j) := by
  induction left generalizing q pos with
  | zero => exact ⟨Nat.le_refl 0, hpos, nofun⟩
  | succ left ih =>
    rw [runlen]
    split_ifs with h
    · have ih := ih (q := q + 1) (show pos + 1 ≤ sourcelen by omega)
      rw [natCast_succ] at ih
      refine ⟨by omega, by omega, fun j hj => ?_⟩
      cases j with
      | zero => exact h.2.2
      | succ j =>
        have := ih.2.2 j (by omega)
        rwa [Nat.add_right_comm, Nat.add_right_comm q] at this
    · exact ⟨zero_le _, hpos, nofun⟩

section
variable (hq : q < n) (hrun : n + run ≤ destlen) (heq : ∀ j < run, data (n + j) = data (q + j))
include hq hrun heq

lemma copyBytes_upto : copyBytes destlen run q (upto data n) = some (upto data (n + run)) := by
  induction run generalizing n q with
  | zero => rfl
  | succ run ih =>
    have hread : (upto data n)[q]? = some (data n) := by
      simp [upto, hq, show data n = data q from heq 0 (by omega)]
    have ih := ih (n := n + 1) (q := q + 1) (by omega) (by omega) fun j hj => by
      have := heq (j + 1) (by omega)
      rwa [← Nat.add_assoc, ← Nat.add_assoc, Nat.add_right_comm, Nat.add_right_comm q] at this
    rw [Nat.add_right_comm] at ih
    rw [copyBytes, if_neg (by omega), toNat_natCast, hread, ← Nat.add_assoc, ← ih, ← upto_succ]
    simp [put_singleton (show (upto data n).length < destlen by simp; omega)]

lemma copyRun_upto : copyRun destlen run q (upto data n) = some (upto data (n + run)) := by
  rw [copyRun, length_upto]
  split_ifs with h0 hover hneg
  · rw [h0, Nat.add_zero]
  · exact copyBytes_upto hq hrun heq
  · omega
  · have hcopy : ((upto data n).drop q).take run = (List.range run).map fun j => data (n + j) := by
      refine ext_getElem (by simp; omega) fun j hj hj' => ?_
      simp only [length_map, length_range] at hj'
      simp [upto, heq j hj']
    rw [toNat_natCast, hcopy, put, if_pos (by simpa), upto, upto, range_add, map_append,
      map_map]
    rfl

end

lemma compressLoop_rule {P : ℕ → ℕ → Positions → ℕ × List UInt8 → Prop}
    (hstop : ∀ outpos pos positions, P outpos pos positions (pos, []))
    (hround : ∀ outpos pos positions run r, pos < sourcelen → outpos ≤ (dstlen - 2).toNat →
      run = runlen data sourcelen 255 (positions (data pos)).toInt (pos + 1) →
      P (outpos + 2) (pos + 1 + run) (update positions (data pos) (Int16.ofNat (pos + 1))) r →
      P outpos pos positions (r.1, data pos :: UInt8.ofNat run :: r.2)) (outpos pos : ℕ)
    (positions : Positions) :
    P outpos pos positions (compressLoop data sourcelen dstlen outpos pos positions) := by
  fun_induction compressLoop data sourcelen dstlen outpos pos positions with
  | case1 outpos pos positions h value run r ih => exact hround _ _ _ _ _ h.1 h.2 rfl ih
  | case2 outpos pos positions h => exact hstop _ _ _

lemma length_compressLoop (hdst : 2 ≤ dstlen) :
    (compressLoop data sourcelen dstlen 0 0 positions).2.length ≤ dstlen.toNat := by
  have hsub : (dstlen - 2).toNat = dstlen.toNat - 2 := UInt32.toNat_sub_of_le _ _ hdst
  have hle : 2 ≤ dstlen.toNat := UInt32.le_iff_toNat_le.1 hdst
  rw [← Nat.zero_add (length _)]
  refine compressLoop_rule
    (P := fun outpos _ _ r => outpos ≤ dstlen.toNat → outpos + r.2.length ≤ dstlen.toNat)
    (fun _ _ _ h => h) (fun outpos pos positions run r _ hout _ ih _ => ?_) 0 0 _ (zero_le _)
  have := ih (by omega)
  simp only [length_cons]
  omega

/-- The pairs written are read back to the bytes up to where `pos` ends. -/
lemma decompressLoop_compressLoop (hsrc : sourcelen ≤ 32767) :
    let r := compressLoop data sourcelen dstlen 0 0 fun _ => 0
    jffs2RtimeDecompress r.1 r.2 = some (upto data r.1) := by
  refine (compressLoop_rule (P := fun _ pos positions r => pos ≤ sourcelen → Below pos positions →
      pos ≤ r.1 ∧ decompressLoop r.1 r.2 positions (upto data pos) = some (upto data r.1))
    (fun _ _ _ _ _ => ⟨Nat.le_refl _, by simp [decompressLoop]⟩)
    (fun outpos pos positions run r hlt _ hrun ih hpos hpositions => ?_) 0 0 _ (zero_le _)
    fun _ => ⟨0, Nat.le_refl 0, rfl⟩).2
  obtain ⟨q, hq, hback⟩ := hpositions (data pos)
  obtain ⟨hle, hend, heq⟩ := @runlen_spec data sourcelen (pos + 1) q 255 hlt
  rw [← hback, ← hrun] at hle hend heq
  obtain ⟨hpos', hread⟩ := ih hend (hpositions.update (by omega) _ _)
  have hbyte : (UInt8.ofNat run).toNat = run := UInt8.toNat_ofNat_of_lt' (lt_succ_of_le hle)
  have hcopy := copyRun_upto (by omega : q < pos + 1) hpos' heq
  rw [← hback, ← upto_succ] at hcopy
  refine ⟨by omega, (decompressLoop_cons (by simp; omega) (by rwa [hbyte])).trans ?_⟩
  rwa [length_upto]

lemma two_le_length_written (hsrc : 0 < sourcelen) : 2 ≤ (written data sourcelen dstlen).length := by
  rw [written, compressLoop, if_pos ⟨hsrc, zero_le _⟩]
  simp

/-- With room for a pair, or without a byte to compress, and only then, the writes stay inside the
output and what was compressed is read back. -/
theorem rtime_round_trip (data : ℕ → UInt8) (hsrc : sourcelen ≤ 32767) :
    ((written data sourcelen dstlen).length ≤ dstlen.toNat ∧
      ∀ s d, jffs2RtimeCompress data sourcelen dstlen = some (s, d) →
        jffs2RtimeDecompress s ((written data sourcelen dstlen).take d) = some (upto data s)) ↔
      sourcelen = 0 ∨ 2 ≤ dstlen := by
  refine ⟨fun ⟨hle, _⟩ => ?_, fun hroom => ⟨?_, fun s d h => ?_⟩⟩
  · rcases Nat.eq_zero_or_pos sourcelen with hzero | hpos
    · exact .inl hzero
    · exact .inr (UInt32.le_iff_toNat_le.2 (Nat.le_trans (two_le_length_written hpos) hle))
  · rcases hroom with rfl | hdst
    · simp [written, compressLoop]
    · exact length_compressLoop hdst
  · simp only [jffs2RtimeCompress] at h
    split at h
    · cases h
    · cases h
      rw [written, take_length]
      exact decompressLoop_compressLoop hsrc

theorem rtime_round_trip_zeros :
    (written (fun _ => 0) 3 2).length ≤ 2 ∧
      ∀ s d, jffs2RtimeCompress (fun _ => 0) 3 2 = some (s, d) →
        jffs2RtimeDecompress s ((written (fun _ => 0) 3 2).take d) = some (upto (fun _ => 0) s) :=
  (rtime_round_trip (fun _ => 0) (by decide)).2 (.inr (by decide))

/-- Without room, `dstlen - 2` is large and a pair is written. -/
theorem rtime_writes_outside : (written (fun _ => 0) 1 0).length = 2 := by
  simp [written, compressLoop, runlen]

end BooxKernel.Rtime
