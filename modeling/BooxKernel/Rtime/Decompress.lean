import Mathlib.Data.Int.Notation
import Mathlib.Data.Nat.Notation
import Mathlib.Logic.Function.Basic
import Mathlib.Tactic.SplitIfs

/-!
# Decompression of rtime (`fs/jffs2/compr_rtime.c`)

The input is a list of pairs: a byte, and how many bytes after it repeat those after the last
place of the same byte. The output is written in order, so that the part written is a list. A
function has no value when it makes an access outside of its buffers.
-/
namespace BooxKernel.Rtime
open Function List

/-- The array `positions`, one `short` for each byte value. -/
abbrev Positions := UInt8 → Int16

variable {destlen n run q : ℕ} {positions : Positions} {out rest dataIn : List UInt8}

section Decompress

variable (destlen : ℕ)

/-- Bytes written at `outpos`. -/
def put (out bytes : List UInt8) : Option (List UInt8) :=
  if out.length + bytes.length ≤ destlen then some (out ++ bytes) else none

/-- `while (repeat)`. -/
def copyBytes : ℕ → ℤ → List UInt8 → Option (List UInt8)
  | 0, _, out => some out
  | left + 1, backoffs, out =>
    if backoffs < 0 then none
    else do
      let out ← put destlen out [← out[backoffs.toNat]?]
      copyBytes left (backoffs + 1) out

/-- The run of a pair, byte by byte where it may overlap what it repeats. -/
def copyRun (run : ℕ) (backoffs : ℤ) (out : List UInt8) : Option (List UInt8) :=
  if run = 0 then some out
  else if out.length ≤ backoffs + run then copyBytes destlen run backoffs out
  else if backoffs < 0 then none
  else put destlen out ((out.drop backoffs.toNat).take run)

/-- The loop of `jffs2_rtime_decompress` over what is left of `data_in`. -/
def decompressLoop : List UInt8 → Positions → List UInt8 → Option (List UInt8)
  | value :: run :: rest, positions, out =>
    if out.length < destlen then do
      let out ← put destlen out [value]
      let out' ← copyRun destlen run.toNat (positions value).toInt out
      decompressLoop rest (update positions value (Int16.ofNat out.length)) out'
    else some out
  | _, _, out => if out.length < destlen then none else some out

/-- `jffs2_rtime_decompress`: what `cpage_out` holds. -/
def jffs2RtimeDecompress (dataIn : List UInt8) : Option (List UInt8) :=
  decompressLoop destlen dataIn (fun _ => 0) []

end Decompress

lemma put_singleton (h : out.length < destlen) (value : UInt8) :
    put destlen out [value] = some (out ++ [value]) :=
  if_pos h

lemma decompressLoop_cons {value run : UInt8} {out' : List UInt8} (h : out.length < destlen)
    (hcopy : copyRun destlen run.toNat (positions value).toInt (out ++ [value]) = some out') :
    decompressLoop destlen (value :: run :: rest) positions out =
      decompressLoop destlen rest (update positions value (Int16.ofNat (out.length + 1))) out' := by
  rw [decompressLoop, if_pos h, put_singleton h]
  simp [hcopy]

/-- The places kept are among the first `n` bytes. -/
def Below (n : ℕ) (positions : Positions) : Prop :=
  ∀ value, ∃ q ≤ n, (positions value).toInt = q

lemma Below.update (h : Below n positions) (hn : n < 32767) (run : ℕ) (value : UInt8) :
    Below (n + 1 + run) (update positions value (Int16.ofNat (n + 1))) := by
  intro v
  rw [update_apply]
  split
  · exact ⟨n + 1, by omega, Int16.toInt_ofNat_of_lt (by omega)⟩
  · obtain ⟨q, hq, hv⟩ := h v
    exact ⟨q, by omega, hv⟩

/-- The runs of the pairs end at `n` bytes. -/
def RunsEnd : List UInt8 → ℕ → Prop
  | _ :: run :: rest, n => n = 0 ∨ run.toNat < n ∧ RunsEnd rest (n - (run.toNat + 1))
  | _, n => n = 0

lemma copyBytes_length (hq : q < out.length) (hrun : out.length + run ≤ destlen) :
    ∃ out', copyBytes destlen run q out = some out' ∧ out'.length = out.length + run := by
  induction run generalizing out q with
  | zero => exact ⟨out, rfl, rfl⟩
  | succ run ih =>
    have hlen : (out ++ [out[q]]).length = out.length + 1 := length_append
    obtain ⟨out', h, hout'⟩ := ih (q := q + 1) (by omega)
      (by omega : (out ++ [out[q]]).length + _ ≤ _)
    refine ⟨out', ?_, by omega⟩
    rw [copyBytes, if_neg (by omega), Int.toNat_natCast, getElem?_eq_getElem hq, ← h]
    simp [put_singleton (show out.length < destlen by omega)]

lemma copyRun_length (hq : q < out.length) (hrun : out.length + run ≤ destlen) :
    ∃ out', copyRun destlen run q out = some out' ∧ out'.length = out.length + run := by
  rw [copyRun]
  split_ifs with h0 hover hneg
  · exact ⟨out, rfl, by omega⟩
  · exact copyBytes_length hq hrun
  · omega
  · have hlen : ((out.drop q).take run).length = run := by simp; omega
    exact ⟨out ++ (out.drop q).take run, by simp [put, hlen, hrun], by simp [hlen]⟩

lemma decompressLoop_safe (hdest : destlen ≤ 32767)
    (h : RunsEnd dataIn (destlen - out.length)) (hpos : Below out.length positions)
    (hout : out.length ≤ destlen) :
    ∃ out', decompressLoop destlen dataIn positions out = some out' ∧ out'.length = destlen := by
  induction dataIn, positions, out using decompressLoop.induct destlen with
  | case1 value run rest positions out hlt ih =>
    obtain ⟨hrun, hrest⟩ := h.resolve_left (by omega)
    obtain ⟨q, hq, hback⟩ := hpos value
    have hlen : (out ++ [value]).length = out.length + 1 := length_append
    obtain ⟨out', hcopy, hout'⟩ :
        ∃ out', copyRun destlen run.toNat q (out ++ [value]) = some out' ∧ _ :=
      copyRun_length (by omega) (by omega)
    have ih := ih (out ++ [value]) out'
    rw [hlen] at hout' ih
    rw [← hback] at hcopy
    rw [decompressLoop_cons hlt hcopy]
    refine ih ?_ ?_ (by omega)
    · rwa [hout', Nat.add_assoc, Nat.add_comm 1, Nat.sub_add_eq]
    · rw [hout']
      exact hpos.update (by omega) _ _
  | case2 value run rest positions out hge => exact ⟨out, if_neg hge, by omega⟩
  | case3 dataIn positions out hlt hshort =>
    rw [RunsEnd] at h
    · omega
    · exact hshort
  | case4 dataIn positions out hge hshort =>
    refine ⟨out, ?_, by omega⟩
    rw [decompressLoop, if_neg hge]
    exact hshort

lemma put_eq_some {bytes out' : List UInt8} (h : put destlen out bytes = some out') :
    out' = out ++ bytes ∧ out'.length ≤ destlen := by
  rw [put] at h
  split_ifs at h with hle
  obtain rfl := Option.some.inj h
  exact ⟨rfl, by rwa [length_append]⟩

lemma copyBytes_eq_some {backoffs : ℤ} {out' : List UInt8} (hout : out.length ≤ destlen)
    (h : copyBytes destlen run backoffs out = some out') :
    out'.length = out.length + run ∧ out'.length ≤ destlen := by
  induction run generalizing out backoffs with
  | zero =>
    obtain rfl := Option.some.inj h
    exact ⟨rfl, hout⟩
  | succ run ih =>
    rw [copyBytes] at h
    split_ifs at h
    simp only [Option.bind_eq_bind, Option.bind_eq_some_iff] at h
    obtain ⟨byte, -, out1, hput, hrest⟩ := h
    obtain ⟨rfl, hle⟩ := put_eq_some hput
    have ih := ih hle hrest
    rw [length_append, length_singleton] at ih
    omega

lemma copyRun_eq_some {backoffs : ℤ} {out' : List UInt8} (hout : out.length ≤ destlen)
    (h : copyRun destlen run backoffs out = some out') :
    out'.length = out.length + run ∧ out'.length ≤ destlen := by
  rw [copyRun] at h
  split_ifs at h with h0 hover hneg
  · obtain rfl := Option.some.inj h
    exact ⟨by omega, hout⟩
  · exact copyBytes_eq_some hout h
  · obtain ⟨rfl, hle⟩ := put_eq_some h
    refine ⟨?_, hle⟩
    rw [length_append, length_take, length_drop]
    omega

lemma decompressLoop_runsEnd {out' : List UInt8} (hout : out.length ≤ destlen)
    (h : decompressLoop destlen dataIn positions out = some out') :
    RunsEnd dataIn (destlen - out.length) := by
  induction dataIn, positions, out using decompressLoop.induct destlen with
  | case1 value run rest positions out hlt ih =>
    rw [decompressLoop, if_pos hlt, put_singleton hlt] at h
    simp only [Option.bind_eq_bind, Option.bind_some, Option.bind_eq_some_iff] at h
    obtain ⟨out1, hcopy, hrest⟩ := h
    have hfirst : (out ++ [value]).length ≤ destlen := by
      rw [length_append]
      exact hlt
    obtain ⟨hlen, hle⟩ := copyRun_eq_some hfirst hcopy
    have ih := ih _ out1 hle hrest
    rw [hlen, length_append, length_singleton, Nat.add_assoc, Nat.add_comm 1, Nat.sub_add_eq] at ih
    rw [length_append, length_singleton] at hlen
    exact .inr ⟨by omega, ih⟩
  | case2 value run rest positions out hge => exact .inl (by omega)
  | case3 dataIn positions out hlt hshort =>
    rw [decompressLoop, if_pos hlt] at h
    · cases h
    · exact hshort
  | case4 dataIn positions out hge hshort =>
    rw [RunsEnd]
    · omega
    · exact hshort

/-- No access is outside of the buffers exactly where the runs of the input end at `destlen`. -/
theorem rtime_decompress_safe (hdest : destlen ≤ 32767) :
    (∃ out, jffs2RtimeDecompress destlen dataIn = some out ∧ out.length = destlen) ↔
      RunsEnd dataIn destlen :=
  ⟨fun ⟨_, h, _⟩ => decompressLoop_runsEnd (Nat.zero_le _) h,
    fun h => decompressLoop_safe hdest h (fun _ => ⟨0, Nat.le_refl 0, rfl⟩) (Nat.zero_le _)⟩

/-- The second pair repeats what the first left behind. -/
theorem rtime_decompress_safe_pairs :
    ∃ out, jffs2RtimeDecompress 6 [7, 2, 7, 2] = some out ∧ out.length = 6 :=
  (rtime_decompress_safe (by decide)).2 (.inr ⟨by decide, .inr ⟨by decide, rfl⟩⟩)

/-- A run is longer than the output, and the input ends before the output is full. -/
theorem rtime_decompress_overruns :
    jffs2RtimeDecompress 1 [7, 2] = none ∧ jffs2RtimeDecompress 1 [7] = none := by
  decide

end BooxKernel.Rtime
