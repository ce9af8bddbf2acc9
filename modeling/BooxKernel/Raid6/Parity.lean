import BooxKernel.Raid6.Layout
import BooxKernel.Raid6.Syndrome

/-!
# The parities of a stripe

A stripe is encoded when its P and Q are the syndrome of its data: P is the sum of the data
and Q their sum weighted with powers of the generator. `compute_parity6` computes lost
parities again, and `compute_block_1` a data block that is lost together with Q.
-/
namespace BooxKernel.Raid6

open BinaryFields List Function Option Finset

/-! ## Stripes with lost blocks -/

namespace StripeHead

/-- The parities of the stripe are the syndrome of its data. -/
def Encoded (a : Arch) (sh : StripeHead) : Prop :=
  ∀ i < sh.disks, ∀ o < a.stripeSize,
    a.genSyndrome sh.disks a.stripeSize (fun k => .page (sh.disk k)) sh.memory (.page i) o =
      (sh.dev i).page o

/-- The stripe `sh` has the blocks of `full` but those that are lost, and nothing is to be
written to it. -/
structure Present (a : Arch) (full sh : StripeHead) (lost : ℕ → Prop) : Prop where
  disks : sh.disks = full.disks
  pdIdx : sh.pdIdx = full.pdIdx
  written : ∀ i < full.disks, (sh.dev i).written = []
  uptodate : ∀ i < full.disks, ¬ lost i → (sh.dev i).uptodate = true
  agree : ∀ i < full.disks, ¬ lost i → ∀ o < a.stripeSize, (sh.dev i).page o = (full.dev i).page o

section
variable (sh : StripeHead) (i : ℕ) (f : R5dev → R5dev)

lemma dev_modifyDev (j : ℕ) :
    (sh.modifyDev i f).dev j = if j = i then f (sh.dev i) else sh.dev j :=
  update_apply ..

end

variable {sh sh' : StripeHead} {ptrs stack : ℕ → Addr} {n j i o bytes fa u v : ℕ}

lemma drain_eq (sectors : ℕ) (h : ∀ i < n, (sh.dev i).written = []) : sh.drain sectors n = sh := by
  induction n with
  | zero => rfl
  | succ n ih =>
    have hdev : sh.modifyDev n (drainDev sectors) = sh := by
      rw [modifyDev, drainDev, if_pos (h n n.lt_succ_self), update_eq_self]
    rw [drain, hdev]
    exact ih fun i hi => h i (Nat.lt_succ_of_lt hi)

variable {K : Type*} [Field K] {x : K} {a : Arch} {full sh : StripeHead} {lost : ℕ → Prop}

/-- The element that the byte of a block at a place of the order stands for. -/
def block (x : K) (sh : StripeHead) (j o : ℕ) : K := val x ((sh.dev (sh.disk j)).page o)

/-- The parities as sums over the data. -/
structure Sums (x : K) (a : Arch) (sh : StripeHead) : Prop where
  p : ∀ o < a.stripeSize,
    block x sh (sh.disks - 2) o = ∑ j ∈ range (sh.disks - 2), block x sh j o
  q : ∀ o < a.stripeSize,
    block x sh (sh.disks - 1) o = ∑ j ∈ range (sh.disks - 2), x ^ j * block x sh j o

lemma Wf.disk_ne_p (h : full.Wf) (hj : j < full.disks - 2) : full.disk j ≠ full.pdIdx := by
  rw [← h.disk_p]
  exact fun heq => absurd (disk_inj (by omega) (by omega) heq) (by omega)

lemma Wf.disk_ne_q (h : full.Wf) (hj : j < full.disks - 1) : full.disk j ≠ full.qdIdx := by
  rw [← h.disk_q]
  exact fun heq => absurd (disk_inj (by omega) (by omega) heq) (by omega)

/-- A table for `gen_syndrome` with the page of zeros in the places of lost data, and with
the pages of the disks `u` and `v` for the parities. -/
structure Zeroed (full : StripeHead) (lost : Finset ℕ) (u v : ℕ) (ptrs : ℕ → Addr) : Prop where
  zero : ∀ j ∈ lost, ptrs j = .emptyZeroPage
  data : ∀ j < full.disks - 2, j ∉ lost → ptrs j = .page (full.disk j)
  p : ptrs (full.disks - 2) = .page u
  q : ptrs (full.disks - 1) = .page v
  ne : u ≠ v
  unused : ∀ j < full.disks - 2, j ∉ lost → full.disk j ≠ u ∧ full.disk j ≠ v

lemma Zeroed.genSyndrome (h : full.Wf) (hx : Realizes 8 0x1d K x) {lost : Finset ℕ} {m : Memory}
    (hz : Zeroed full lost u v ptrs)
    (hagree : ∀ j < full.disks - 2, j ∉ lost → ∀ o < a.stripeSize,
      (sh.dev (full.disk j)).page o = (full.dev (full.disk j)).page o)
    (hm : a.genSyndrome full.disks a.stripeSize ptrs sh.memory = m) :
    (∀ i, i ≠ u → i ≠ v → m (.page i) = (sh.dev i).page) ∧
      (∀ i o, a.stripeSize ≤ o → m (.page i) o = (sh.dev i).page o) ∧
      ∀ o < a.stripeSize,
        val x (m (.page u) o) =
          ∑ j ∈ range (full.disks - 2), (if j ∈ lost then 0 else block x full j o) ∧
        val x (m (.page v) o) =
          ∑ j ∈ range (full.disks - 2), (if j ∈ lost then 0 else x ^ j * block x full j o) := by
  subst hm
  have hfew := h.few
  obtain ⟨hn1, hn2⟩ : full.disks - 3 + 1 = full.disks - 2 ∧ full.disks - 3 + 2 = full.disks - 1 := by
    omega
  have happart : Arch.Apart ptrs (full.disks - 3) := by
    have hdata : ∀ j ≤ full.disks - 3, ptrs j ≠ .page u ∧ ptrs j ≠ .page v := by
      intro j hj
      by_cases hlost : j ∈ lost
      · rw [hz.zero j hlost]
        exact ⟨Addr.noConfusion, Addr.noConfusion⟩
      · rw [hz.data j (by omega) hlost]
        simpa using hz.unused j (by omega) hlost
    refine ⟨?_, fun j hj => ?_, fun j hj => ?_⟩
    · rw [hn1, hn2, hz.p, hz.q]
      simpa using hz.ne
    · rw [hn1, hz.p]
      exact (hdata j hj).1
    · rw [hn2, hz.q]
      exact (hdata j hj).2
  have hw := a.genSyndrome_written hx happart sh.memory
  have hread : ∀ o < a.stripeSize, ∀ j ∈ Finset.range (full.disks - 2),
      val x (sh.memory (ptrs j) o) = if j ∈ lost then 0 else block x full j o := by
    intro o ho j hj
    have hj := Finset.mem_range.1 hj
    split_ifs with hlost
    · rw [hz.zero j hlost]
      exact val_zero
    · rw [hz.data j hj hlost, block, ← hagree j hj hlost o ho]
      rfl
  refine ⟨fun i hiu hiv => hw.frame _ ?_ ?_, fun i o ho => hw.outside _ o (not_lt.2 ho),
    fun o ho => ⟨?_, ?_⟩⟩
  · rw [hn1, hz.p]
    simpa using hiu
  · rw [hn2, hz.q]
    simpa using hiv
  · have hsum := hw.p o ho
    rw [hn1, hz.p] at hsum
    exact hsum.trans (sum_congr rfl (hread o ho))
  · have hsum := hw.q o ho
    rw [hn1, hn2, hz.q] at hsum
    refine hsum.trans (sum_congr rfl fun j hj => ?_)
    rw [hread o ho j hj, mul_ite, mul_zero]

section
variable (h : sh.Wf) (hx : Realizes 8 0x1d K x) (hptrs : ∀ k < sh.disks, ptrs k = .page (sh.disk k))
include h hptrs

lemma Wf.zeroed : Zeroed sh ∅ sh.pdIdx sh.qdIdx ptrs := by
  have hfew := h.few
  refine ⟨by simp, fun j hj _ => hptrs j (by omega), ?_, ?_, ?_,
    fun j hj _ => ⟨h.disk_ne_p hj, h.disk_ne_q (by omega)⟩⟩
  · rw [hptrs _ (by omega), h.disk_p]
  · rw [hptrs _ (by omega), h.disk_q]
  · rw [← h.disk_p]
    exact h.disk_ne_q (by omega)

include hx

lemma Wf.genSyndrome_sums :
    Sums x a (sh.withPages (a.genSyndrome sh.disks a.stripeSize ptrs sh.memory)) := by
  obtain ⟨hframe, -, hsums⟩ :=
    (h.zeroed hptrs).genSyndrome (a := a) h hx (fun _ _ _ _ _ => rfl) rfl
  set m := a.genSyndrome sh.disks a.stripeSize ptrs sh.memory
  have hdata : ∀ j ∈ Finset.range (sh.disks - 2), ∀ o,
      block x sh j o = block x (sh.withPages m) j o := by
    intro j hj o
    have hj := Finset.mem_range.1 hj
    rw [block, ← hframe _ (h.disk_ne_p hj) (h.disk_ne_q (by omega))]
    rfl
  constructor
  · intro o ho
    have hsum := (hsums o ho).1
    rw [← h.disk_p] at hsum
    exact hsum.trans (sum_congr rfl fun j hj => hdata j hj o)
  · intro o ho
    have hsum := (hsums o ho).2
    rw [← h.disk_q] at hsum
    exact hsum.trans (sum_congr rfl fun j hj => congrArg (x ^ j * ·) (hdata j hj o))

lemma Wf.genSyndrome_frame (hio : (i ≠ sh.pdIdx ∧ i ≠ sh.qdIdx) ∨ a.stripeSize ≤ o) :
    a.genSyndrome sh.disks a.stripeSize ptrs sh.memory (.page i) o = (sh.dev i).page o := by
  obtain ⟨hframe, houtside, -⟩ :=
    (h.zeroed hptrs).genSyndrome (a := a) h hx (fun _ _ _ _ _ => rfl) rfl
  rcases hio with ⟨hip, hiq⟩ | ho
  · rw [hframe i hip hiq]
  · exact houtside i o ho

end

lemma Sums.congr (hsums : Sums x a sh) (hdisks : sh'.disks = sh.disks)
    (hblock : ∀ j, ∀ o < a.stripeSize, block x sh' j o = block x sh j o) : Sums x a sh' := by
  refine ⟨fun o ho => ?_, fun o ho => ?_⟩
  · simp only [hblock _ o ho, hdisks]
    exact hsums.p o ho
  · simp only [hblock _ o ho, hdisks]
    exact hsums.q o ho

lemma Wf.sums_of_encoded (h : full.Wf) (hx : Realizes 8 0x1d K x) (henc : full.Encoded a) :
    Sums x a full := by
  have hsums : Sums x a (full.withPages (a.genSyndrome full.disks a.stripeSize
      (fun k => .page (full.disk k)) full.memory)) := h.genSyndrome_sums hx fun _ _ => rfl
  exact hsums.congr rfl fun j o ho => congrArg (val x) (henc _ (h.disk_lt j) o ho).symm

lemma disk_congr (hdisks : sh.disks = full.disks) (hpd : sh.pdIdx = full.pdIdx) :
    sh.disk = full.disk := by
  funext k
  rw [disk, disk, d0Idx, d0Idx, qdIdx, qdIdx, hdisks, hpd]

lemma Sums.agree (h : full.Wf) (hx : Realizes 8 0x1d K x) (hfull : Sums x a full)
    (hsh : Sums x a sh) (hdisks : sh.disks = full.disks) (hpd : sh.pdIdx = full.pdIdx)
    (hdata : ∀ j < full.disks - 2, ∀ o < a.stripeSize, block x sh j o = block x full j o) :
    ∀ i < full.disks, ∀ o < a.stripeSize, (sh.dev i).page o = (full.dev i).page o := by
  have hall : ∀ j < full.disks, ∀ o < a.stripeSize, block x sh j o = block x full j o := by
    intro j hj o ho
    by_cases hlow : j < full.disks - 2
    · exact hdata j hlow o ho
    · obtain rfl | rfl : j = full.disks - 2 ∨ j = full.disks - 1 := by omega
      · have hsum := hsh.p o ho
        rw [hdisks] at hsum
        rw [hsum, hfull.p o ho]
        exact sum_congr rfl fun j hj => hdata j (Finset.mem_range.1 hj) o ho
      · have hsum := hsh.q o ho
        rw [hdisks] at hsum
        rw [hsum, hfull.q o ho]
        exact sum_congr rfl fun j hj => by rw [hdata j (Finset.mem_range.1 hj) o ho]
  intro i hi o ho
  obtain ⟨hlt, heq⟩ := h.disk_relative hi
  have hblock := hall _ hlt o ho
  rw [block, block, disk_congr hdisks hpd, heq] at hblock
  exact val_inj hx hblock

lemma Present.wf (h : full.Wf) (hsh : Present a full sh lost) : sh.Wf :=
  ⟨hsh.disks ▸ h.few, hsh.disks ▸ h.many, by rw [hsh.disks, hsh.pdIdx]; exact h.pd⟩

lemma Present.disk_eq (hsh : Present a full sh lost) : sh.disk = full.disk :=
  disk_congr hsh.disks hsh.pdIdx

lemma Present.qdIdx_eq (hsh : Present a full sh lost) : sh.qdIdx = full.qdIdx := by
  rw [qdIdx, qdIdx, hsh.disks, hsh.pdIdx]

lemma dev_finishParity (sh : StripeHead) (i : ℕ) :
    (sh.finishParity .updateParity).dev i =
      if i = sh.pdIdx ∨ i = sh.qdIdx then { sh.dev i with uptodate := true } else sh.dev i := by
  simp only [finishParity, markParity, dev_modifyDev]
  by_cases hq : i = sh.qdIdx
  · by_cases hpq : sh.qdIdx = sh.pdIdx
    · simp [hq, hpq]
    · simp [hq, hpq]
  · by_cases hp : i = sh.pdIdx
    · have hne : sh.pdIdx ≠ sh.qdIdx := hp ▸ hq
      simp [hp, hne]
    · simp [hp, hq]

lemma Sums.encoded (h : sh.Wf) (hx : Realizes 8 0x1d K x) (hsums : Sums x a sh) : sh.Encoded a := by
  have hptrs : ∀ k < sh.disks, (fun k => Addr.page (sh.disk k)) k = .page (sh.disk k) :=
    fun _ _ => rfl
  refine hsums.agree h hx (h.genSyndrome_sums hx hptrs) rfl rfl fun j hj o _ => ?_
  exact congrArg (val x) (h.genSyndrome_frame hx hptrs
    (.inl ⟨h.disk_ne_p hj, h.disk_ne_q (by omega)⟩))

/-- The requests whose data `compute_parity6` copies into the page of a data disk. -/
def pending (method : Method) (dev : R5dev) : List Bio :=
  if method = .reconstructWrite ∧ dev.towrite ≠ [] then dev.towrite else dev.written

lemma page_drainDev (sectors : ℕ) (dev : R5dev) :
    (drainDev sectors dev).page = copyWritten sectors dev.sector dev.written dev.page := by
  unfold drainDev
  split_ifs with hwritten
  · rw [hwritten]
    rfl
  · rfl

lemma drain_dev (sh : StripeHead) (sectors n : ℕ) :
    ∃ dev, sh.drain sectors n = { sh with dev := dev } ∧
      ∀ i, dev i = if i < n then drainDev sectors (sh.dev i) else sh.dev i := by
  induction n generalizing sh with
  | zero => exact ⟨_, rfl, by simp⟩
  | succ n ih =>
    obtain ⟨dev, hdrain, hdev⟩ := ih (sh.modifyDev n (drainDev sectors))
    refine ⟨dev, hdrain, fun i => ?_⟩
    rw [hdev, dev_modifyDev]
    by_cases hi : i = n
    · simp [hi]
    · simp only [hi, if_false, Nat.lt_succ_iff_lt_or_eq, or_false]

lemma chooseWrites_dev (hres : sh.chooseWrites n = some sh') :
    ∃ dev, sh' = { sh with dev := dev } ∧ ∀ i, some (dev i) =
      if i < n ∧ i ≠ sh.pdIdx ∧ i ≠ sh.qdIdx then chooseWrite (sh.dev i) else some (sh.dev i) := by
  induction n generalizing sh with
  | zero => exact ⟨_, (some_inj.1 hres).symm, by simp⟩
  | succ n ih =>
    rw [chooseWrites] at hres
    split_ifs at hres with hdata
    · obtain ⟨chosen, hchosen, hrest⟩ := bind_eq_some_iff.1 hres
      obtain ⟨dev, rfl, hdev⟩ := ih hrest
      refine ⟨dev, rfl, fun i => (hdev i).trans ?_⟩
      rw [dev_modifyDev]
      by_cases hi : i = n
      · simp [hi, hdata, hchosen]
      · simp only [hi, if_false, Nat.lt_succ_iff_lt_or_eq, or_false]
        rfl
    · obtain ⟨dev, rfl, hdev⟩ := ih hres
      refine ⟨dev, rfl, fun i => (hdev i).trans ?_⟩
      by_cases hi : i = n
      · rw [hi, if_neg (by simp), if_neg fun h => hdata h.2]
      · simp only [Nat.lt_succ_iff_lt_or_eq, hi, or_false]

lemma page_chooseWrite {dev dev' : R5dev} (hchosen : chooseWrite dev = some dev') (sectors : ℕ) :
    (drainDev sectors dev').page =
      copyWritten sectors dev.sector (pending .reconstructWrite dev) dev.page := by
  rw [page_drainDev]
  unfold chooseWrite at hchosen
  split at hchosen
  · rename_i hnone
    obtain rfl := some_inj.1 hchosen
    simp [pending, hnone]
  · rename_i hsome
    split_ifs at hchosen
    obtain rfl := some_inj.1 hchosen
    have hne : dev.towrite ≠ [] := hsome
    simp [pending, hne]

lemma startParity_dev {method : Method} (hstart : sh.startParity method = some sh') :
    ∃ dev, sh' = { sh with dev := dev } ∧ ∀ i, i ≠ sh.pdIdx → i ≠ sh.qdIdx →
      if i < sh.disks then ∀ sectors, (drainDev sectors (dev i)).page =
        copyWritten sectors (sh.dev i).sector (pending method (sh.dev i)) (sh.dev i).page
      else dev i = sh.dev i := by
  cases method with
  | readModifyWrite | checkParity => cases hstart
  | reconstructWrite =>
    obtain ⟨dev, rfl, hdev⟩ := chooseWrites_dev hstart
    refine ⟨dev, rfl, fun i hp hq => ?_⟩
    have hi := hdev i
    split_ifs with hlt
    · rw [if_pos ⟨hlt, hp, hq⟩] at hi
      exact page_chooseWrite hi.symm
    · rwa [if_neg fun h => hlt h.1, some_inj] at hi
  | updateParity =>
    refine ⟨_, (some_inj.1 hstart).symm, fun i _ _ => ?_⟩
    split_ifs
    · exact fun sectors => page_drainDev sectors _
    · rfl

lemma finishParity_memory (sh : StripeHead) (method : Method) :
    (sh.finishParity method).memory = sh.memory := by
  have hmark : ∀ f : R5dev → R5dev, (∀ dev, (f dev).page = dev.page) →
      (sh.markParity f).memory = sh.memory := by
    intro f hf
    funext ad
    cases ad with
    | emptyZeroPage => rfl
    | page i =>
      simp only [memory, markParity, dev_modifyDev]
      split_ifs with hq hp <;> simp_all
  cases method with
  | readModifyWrite | checkParity => rfl
  | reconstructWrite | updateParity => exact hmark _ fun _ => rfl

/-- Unless there is a `BUG`, `compute_parity6` copies what is to be written into the data blocks,
and P and Q are those of these data. -/
theorem compute_parity6_encodes (h : sh.Wf) {method : Method}
    (hstart : sh.startParity method = some full) (stack : ℕ → Addr) :
    ∃ sh', sh.computeParity6 a stack method = some sh' ∧ sh'.Encoded a ∧
      ∀ i, i ≠ sh.pdIdx → i ≠ sh.qdIdx → (sh'.dev i).page =
        if i < sh.disks then copyWritten (a.stripeSize >>> 9) (sh.dev i).sector
          (pending method (sh.dev i)) (sh.dev i).page
        else (sh.dev i).page := by
  obtain ⟨K, _, x, hx⟩ := primitive_byte.exists_field
  obtain ⟨dev, rfl, hdev⟩ := startParity_dev hstart
  obtain ⟨dev', hdrain, hdev'⟩ := drain_dev { sh with dev := dev } (a.stripeSize >>> 9) sh.disks
  have hwf : { sh with dev := dev' }.Wf := { h with }
  obtain ⟨ptrs, htable, hptrs⟩ := hwf.pointerTable_eq stack
  set sh' := { sh with dev := dev' }.withPages
    (a.genSyndrome sh.disks a.stripeSize ptrs { sh with dev := dev' }.memory)
  have hmem := sh'.finishParity_memory method
  have hpage : ∀ i, ((sh'.finishParity method).dev i).page = (sh'.dev i).page := fun i =>
    congrFun hmem (.page i)
  refine ⟨sh'.finishParity method, ?_, ?_, fun i hp hq => ?_⟩
  · simp only [computeParity6, hstart, bind_eq_bind, bind_some, hdrain, htable]
    rfl
  · have henc : sh'.Encoded a := (hwf.genSyndrome_sums hx hptrs).encoded { hwf with } hx
    intro i hi o ho
    rw [hmem, hpage]
    cases method <;> exact henc i hi o ho
  · have hframe : (sh'.dev i).page = (dev' i).page := funext fun o =>
      hwf.genSyndrome_frame hx hptrs (.inl ⟨hp, hq⟩)
    have hi := hdev i hp hq
    rw [hpage, hframe, hdev']
    split_ifs with hlt
    · rw [if_pos hlt] at hi
      exact hi _
    · rw [if_neg hlt] at hi
      exact congrArg R5dev.page hi

lemma Present.computeParity6 (h : full.Wf) (hx : Realizes 8 0x1d K x) (hfull : Sums x a full)
    (hsh : Present a full sh fun i => i = full.pdIdx ∨ i = full.qdIdx) (stack : ℕ → Addr) :
    ∃ sh', sh.computeParity6 a stack .updateParity = some sh' ∧
      Present a full sh' (fun _ => False) ∧
      ∀ i o, (i ≠ full.pdIdx ∧ i ≠ full.qdIdx) ∨ a.stripeSize ≤ o →
        (sh'.dev i).page o = (sh.dev i).page o := by
  have hwf := hsh.wf h
  obtain ⟨ptrs, htable, hptrs⟩ := hwf.pointerTable_eq stack
  have hdrain : sh.drain (a.stripeSize >>> 9) sh.disks = sh :=
    drain_eq _ fun i hi => hsh.written i (hsh.disks ▸ hi)
  have hsums := hwf.genSyndrome_sums (a := a) hx hptrs
  have hframe : ∀ {i o}, (i ≠ full.pdIdx ∧ i ≠ full.qdIdx) ∨ a.stripeSize ≤ o → _ :=
    fun hio => hwf.genSyndrome_frame (a := a) hx hptrs (by rwa [hsh.pdIdx, hsh.qdIdx_eq])
  set m := a.genSyndrome sh.disks a.stripeSize ptrs sh.memory with hm
  have hagree := hfull.agree h hx hsums hsh.disks hsh.pdIdx (by
    intro j hj o ho
    have hp := h.disk_ne_p hj
    have hq := h.disk_ne_q (j := j) (by omega)
    have hdisk : (sh.withPages m).disk = full.disk := hsh.disk_eq
    rw [block, block, hdisk, ← hsh.agree _ (h.disk_lt j) (not_or.2 ⟨hp, hq⟩) o ho,
      ← hframe (.inl ⟨hp, hq⟩)]
    rfl)
  have hresult : sh.computeParity6 a stack .updateParity =
      some ((sh.withPages m).finishParity .updateParity) := by
    simp only [StripeHead.computeParity6, startParity, bind_eq_bind, bind_some, hdrain, htable]
    rfl
  have hpage : ∀ i, (((sh.withPages m).finishParity .updateParity).dev i).page = m (.page i) := by
    intro i
    rw [dev_finishParity]
    split_ifs <;> rfl
  refine ⟨_, hresult, ⟨hsh.disks, hsh.pdIdx, ?_, ?_, ?_⟩, ?_⟩
  · intro i hi
    rw [dev_finishParity]
    split_ifs <;> exact hsh.written i hi
  · intro i hi _
    rw [dev_finishParity]
    split_ifs with hlost
    · rfl
    · refine hsh.uptodate i hi ?_
      rwa [← hsh.pdIdx, ← hsh.qdIdx_eq]
  · intro i hi _ o ho
    rw [hpage]
    exact hagree i hi o ho
  · intro i o hio
    rw [hpage]
    exact hframe hio

lemma Present.congr (hsh : Present a full sh lost) (h : ∀ i, lost i → lost' i)
    : Present a full sh lost' :=
  ⟨hsh.disks, hsh.pdIdx, hsh.written, fun i hi hne => hsh.uptodate i hi fun hl => hne (h i hl),
    fun i hi hne => hsh.agree i hi fun hl => hne (h i hl)⟩

lemma Present.withPages {m : Memory} (hsh : Present a full sh lost)
    (hm : ∀ i, ¬ lost i → m (.page i) = (sh.dev i).page) : Present a full (sh.withPages m) lost :=
  { hsh with
    agree := by
      intro i hi hne o ho
      rw [← hsh.agree i hi hne o ho, ← hm i hne]
      rfl }

lemma Present.mark (hsh : Present a full sh lost)
    (hpage : ∀ o < a.stripeSize, (sh.dev n).page o = (full.dev n).page o) :
    Present a full (sh.modifyDev n fun dev => { dev with uptodate := true })
      fun i => lost i ∧ i ≠ n := by
  refine ⟨hsh.disks, hsh.pdIdx, fun i hi => ?_, fun i hi hne => ?_, fun i hi hne o ho => ?_⟩
  all_goals rw [dev_modifyDev]
  · split_ifs with heq
    · exact hsh.written n (heq ▸ hi)
    · exact hsh.written i hi
  · split_ifs with heq
    · rfl
    · exact hsh.uptodate i hi fun hl => hne ⟨hl, heq⟩
  · split_ifs with heq
    · rw [heq]
      exact hpage o ho
    · exact hsh.agree i hi (fun hl => hne ⟨hl, heq⟩) o ho

lemma page_mark (sh : StripeHead) (n i : ℕ) :
    ((sh.modifyDev n fun dev => { dev with uptodate := true }).dev i).page = (sh.dev i).page := by
  rw [dev_modifyDev]
  split_ifs with hi
  · rw [hi]
  · rfl

/-! ## A data block from P -/

lemma val_xorBlocks (hx : Realizes 8 0x1d K x) (m : Memory) (ho : o < bytes) (dest : Addr)
    (srcs : List Addr) :
    val x (xorBlocks m bytes dest srcs dest o) =
      val x (m dest o) + (srcs.map fun src => val x (m src o)).sum := by
  have hfold : ∀ v : Byte, val x (srcs.foldl (fun v src => v ^^^ m src o) v) =
      val x v + (srcs.map fun src => val x (m src o)).sum := by
    induction srcs with
    | nil => simp
    | cons src srcs ih =>
      intro v
      rw [foldl_cons, ih, val_xor hx, List.map_cons, List.sum_cons, add_assoc]
  rw [xorBlocks, update_self, if_pos ho, hfold]

lemma xorBlocks_ne (m : Memory) (bytes : ℕ) {dest c : Addr} (hc : c ≠ dest) (srcs : List Addr) :
    xorBlocks m bytes dest srcs c = m c := update_of_ne hc _ _

lemma xorLoop_spec (hx : Realizes 8 0x1d K x) (bytes dd n : ℕ) (ptr : List Addr) (m : Memory)
    (hptr : .page dd ∉ ptr) (hup : ∀ i < n, i ≠ dd → i ≠ sh.qdIdx → (sh.dev i).uptodate = true) :
    (∀ c, c ≠ .page dd → sh.xorLoop bytes dd n ptr m c = m c) ∧
      ∀ o < bytes, val x (sh.xorLoop bytes dd n ptr m (.page dd) o) =
        val x (m (.page dd) o) + (ptr.map fun src => val x (m src o)).sum +
          ∑ i ∈ range n, if i = dd ∨ i = sh.qdIdx then 0 else val x (m (.page i) o) := by
  induction n generalizing ptr m with
  | zero =>
    rw [xorLoop]
    split_ifs with hlen
    · refine ⟨fun c hc => xorBlocks_ne m bytes hc ptr, fun o ho => ?_⟩
      rw [val_xorBlocks hx m ho, sum_range_zero, add_zero]
    · have hnil : ptr = [] := eq_nil_of_length_eq_zero (not_not.1 hlen)
      refine ⟨fun _ _ => rfl, fun o _ => ?_⟩
      rw [hnil, map_nil, sum_nil, sum_range_zero, add_zero, add_zero]
  | succ n ih =>
    have hup' : ∀ i < n, i ≠ dd → i ≠ sh.qdIdx → (sh.dev i).uptodate = true :=
      fun i hi => hup i (Nat.lt_succ_of_lt hi)
    rw [xorLoop]
    by_cases hskip : n = dd ∨ n = sh.qdIdx
    · obtain ⟨hframe, hsum⟩ := ih ptr m hptr hup'
      rw [if_pos hskip]
      refine ⟨hframe, fun o ho => ?_⟩
      rw [hsum o ho, Finset.sum_range_succ, if_pos hskip, add_zero]
    · obtain ⟨hdd, hqd⟩ := not_or.1 hskip
      have hptr' : Addr.page dd ∉ ptr ++ [.page n] := by
        simp [hptr, Ne.symm hdd]
      simp only [hup n n.lt_succ_self hdd hqd, if_true]
      split_ifs with hfull
      · obtain ⟨hframe, hsum⟩ :=
          ih [] (xorBlocks m bytes (.page dd) (ptr ++ [.page n])) (by simp) hup'
        refine ⟨fun c hc => (hframe c hc).trans (xorBlocks_ne m bytes hc _), fun o ho => ?_⟩
        rw [hsum o ho, val_xorBlocks hx m ho, Finset.sum_range_succ, if_neg hskip, map_append,
          sum_append, map_nil, sum_nil]
        have hsame : ∀ i ∈ Finset.range n, (if i = dd ∨ i = sh.qdIdx then (0 : K)
            else val x (xorBlocks m bytes (.page dd) (ptr ++ [.page n]) (.page i) o)) =
            if i = dd ∨ i = sh.qdIdx then 0 else val x (m (.page i) o) := by
          intro i _
          refine ite_congr rfl (fun _ => rfl) fun hi => ?_
          rw [xorBlocks_ne]
          simpa using (not_or.1 hi).1
        rw [sum_congr rfl hsame, List.map_singleton, List.sum_singleton]
        ring
      · obtain ⟨hframe, hsum⟩ := ih (ptr ++ [.page n]) m hptr' hup'
        refine ⟨hframe, fun o ho => ?_⟩
        rw [hsum o ho, Finset.sum_range_succ, if_neg hskip, map_append, sum_append,
          List.map_singleton, List.sum_singleton]
        ring

lemma sum_add_sum_except [CharP K 2] {S : Finset ℕ} (hS : S ⊆ range n) (f : ℕ → K) :
    ∑ j ∈ range n, f j + ∑ j ∈ range n, (if j ∈ S then 0 else f j) =
      ∑ j ∈ S, f j := by
  have hterm : ∀ j ∈ Finset.range n,
      f j + (if j ∈ S then 0 else f j) = if j ∈ S then f j else 0 := by
    intro j _
    split_ifs
    · rw [add_zero]
    · rw [CharTwo.add_self_eq_zero]
  rw [← sum_add_distrib, sum_congr rfl hterm, sum_ite_mem, inter_eq_right.2 hS]

section
variable (h : full.Wf) (hx : Realizes 8 0x1d K x) (hfull : Sums x a full)
  (hfa : fa < full.disks - 2)
include h hx hfull hfa

/-- The blocks of all disks but Q sum up to 0, so that each is the sum of the others. -/
lemma Sums.sum_others (ho : o < a.stripeSize) :
    ∑ i ∈ Finset.range full.disks, (if i = full.disk fa ∨ i = full.qdIdx then 0
      else val x ((full.dev i).page o)) = block x full fa o := by
  have := hx.char
  obtain ⟨n, hn⟩ : ∃ n, full.disks = n + 2 := ⟨full.disks - 2, by omega⟩
  have hp : full.disk n = full.pdIdx := by
    rw [← h.disk_p, hn, Nat.add_sub_cancel]
  have hq : full.disk (n + 1) = full.qdIdx := by
    rw [← h.disk_q, hn]
    rfl
  have hterm : ∀ k ∈ Finset.range n, (if full.disk k = full.disk fa ∨ full.disk k = full.qdIdx then 0
      else val x ((full.dev (full.disk k)).page o)) =
      if k ∈ ({fa} : Finset ℕ) then 0 else block x full k o := by
    intro k hk
    have hk := Finset.mem_range.1 hk
    refine if_congr ?_ rfl rfl
    rw [Finset.mem_singleton, or_iff_left (h.disk_ne_q (by omega))]
    exact ⟨fun heq => disk_inj (by omega) (by omega) heq, fun heq => by rw [heq]⟩
  have hpne : ¬ (full.disk n = full.disk fa ∨ full.disk n = full.qdIdx) := by
    rw [hp]
    refine not_or.2 ⟨(h.disk_ne_p hfa).symm, ?_⟩
    rw [← hp]
    exact h.disk_ne_q (by omega)
  have hsum := sum_add_sum_except (singleton_subset_iff.2
    (Finset.mem_range.2 (by omega : fa < n))) fun j => block x full j o
  have hpar := hfull.p o ho
  rw [hn, Nat.add_sub_cancel] at hpar
  rw [← h.sum_disk, hn, Finset.sum_range_succ, Finset.sum_range_succ, sum_congr rfl hterm,
    if_neg hpne, if_pos (.inr hq), add_zero, ← block, hpar, add_comm, hsum, Finset.sum_singleton]

lemma Present.computeBlock1 (hsh : Present a full sh fun i => i = full.disk fa ∨ i = full.qdIdx)
    (stack : ℕ → Addr) :
    ∃ sh', sh.computeBlock1 a stack (full.disk fa) false = some sh' ∧
      Present a full sh' (fun i => i = full.qdIdx) ∧
      ∀ i, i ≠ full.disk fa → (sh'.dev i).page = (sh.dev i).page := by
  have hqne := h.disk_ne_q (j := fa) (by omega)
  set m := clearPage sh.memory a.stripeSize (.page (full.disk fa)) with hm
  have hclear : ∀ i, i ≠ full.disk fa → m (.page i) = (sh.dev i).page := by
    intro i hi
    exact update_of_ne (by simpa using hi) _ _
  have hzero : ∀ o < a.stripeSize, m (.page (full.disk fa)) o = 0 := by
    intro o ho
    rw [hm, clearPage, update_self, if_pos ho]
  obtain ⟨hframe, hval⟩ := sh.xorLoop_spec hx a.stripeSize (full.disk fa) sh.disks [] m (by simp)
    fun i hi hdd hqd => hsh.uptodate i (hsh.disks ▸ hi)
      (not_or.2 ⟨hdd, fun heq => hqd (heq.trans hsh.qdIdx_eq.symm)⟩)
  set m' := sh.xorLoop a.stripeSize (full.disk fa) sh.disks [] m with hm'
  have hother : ∀ i, i ≠ full.disk fa → m' (.page i) = (sh.dev i).page := by
    intro i hi
    rw [hframe _ (by simpa using hi), hclear i hi]
  have hlost : ∀ o < a.stripeSize, m' (.page (full.disk fa)) o = (full.dev (full.disk fa)).page o := by
    intro o ho
    refine val_inj hx ?_
    have hterm : ∀ i ∈ Finset.range full.disks,
        (if i = full.disk fa ∨ i = full.qdIdx then 0 else val x (m (.page i) o)) =
          if i = full.disk fa ∨ i = full.qdIdx then 0 else val x ((full.dev i).page o) := by
      intro i hi
      refine ite_congr rfl (fun _ => rfl) fun hskip => ?_
      rw [hclear i (not_or.1 hskip).1, hsh.agree i (Finset.mem_range.1 hi) hskip o ho]
    rw [hval o ho, hzero o ho, val_zero, map_nil, sum_nil, add_zero, zero_add,
      hsh.disks, hsh.qdIdx_eq, sum_congr rfl hterm, hfull.sum_others h hx hfa ho]
    rfl
  have hresult : sh.computeBlock1 a stack (full.disk fa) false =
      some ((sh.withPages m').modifyDev (full.disk fa) fun dev => { dev with uptodate := true }) := by
    rw [StripeHead.computeBlock1, if_neg (by rwa [hsh.qdIdx_eq])]
    rfl
  refine ⟨_, hresult, ?_, fun i hi => (page_mark _ _ i).trans (hother i hi)⟩
  have hpresent := (hsh.withPages fun i hi => hother i (not_or.1 hi).1).mark hlost
  exact hpresent.congr fun i hi => hi.1.resolve_left hi.2

end

end StripeHead

end BooxKernel.Raid6
