import BooxKernel.Raid6.Parity

/-!
# Two lost blocks are restored

A stripe whose P and Q are the syndrome of its data lost any two of its blocks.
`compute_block_2` computes both again from the other blocks, whatever the lost blocks hold
by then, and changes no other block.
-/
namespace BooxKernel.Raid6

open BinaryFields Function Finset

/-! ## Loops over the bytes of the blocks -/

lemma Memory.poke_apply (m : Memory) (a : Addr) (o : ℕ) (v : Byte) (c : Addr) (o' : ℕ) :
    m.poke a o v c o' = if c = a ∧ o' = o then v else m c o' := by
  unfold Memory.poke
  rw [update_apply]
  by_cases hc : c = a
  · rw [if_pos hc, update_apply, hc]
    simp
  · rw [if_neg hc, if_neg fun h => hc h.1]

namespace Arch
variable {dp dq p q u v : Addr} {bytes : ℕ} {m m' : Memory}

/-- A loop that writes, offset by offset, a byte at that offset in the page `v` and then one in
the page `u`. -/
lemma loop_spec {loop : ℕ → ℕ → Memory → Memory} {f : (Addr → Byte) → Byte → Byte}
    {g : (Addr → Byte) → Byte} (hne : u ≠ v) (hzero : ∀ o m, loop 0 o m = m)
    (hsucc : ∀ bytes o m, loop (bytes + 1) o m = loop bytes (o + 1)
      ((m.poke v o (g (m · o))).poke u o (f (m · o) (g (m · o))))) (hm : loop bytes 0 m = m') :
    (∀ c, c ≠ u → c ≠ v → m' c = m c) ∧
      ∀ o < bytes, m' v o = g (m · o) ∧ m' u o = f (m · o) (m' v o) := by
  have hloop : ∀ bytes o m, (∀ c o', (c ≠ u ∧ c ≠ v) ∨ o' < o → loop bytes o m c o' = m c o') ∧
      ∀ o', o ≤ o' → o' < o + bytes → loop bytes o m v o' = g (m · o') ∧
        loop bytes o m u o' = f (m · o') (g (m · o')) := by
    intro bytes
    induction bytes with
    | zero => exact fun o m => ⟨fun c o' _ => by rw [hzero], fun o' _ _ => by omega⟩
    | succ bytes ih =>
      intro o m
      rw [hsucc]
      obtain ⟨hframe, hbytes⟩ := ih (o + 1)
        ((m.poke v o (g (m · o))).poke u o (f (m · o) (g (m · o))))
      simp only [Memory.poke_apply] at hframe hbytes
      refine ⟨fun c o' hc => ?_, fun o' hle hlt => ?_⟩
      · rw [hframe c o' (hc.imp id Nat.lt_succ_of_lt)]
        rcases hc with ⟨hu, hv⟩ | ho
        · simp [hu, hv]
        · simp [ho.ne]
      · by_cases ho : o' = o
        · subst ho
          simp [hframe _ o' (.inr (Nat.lt_succ_self o')), hne.symm]
        · simpa [ho] using hbytes o' (by omega) (by omega)
  obtain ⟨hframe, hbytes⟩ := hloop bytes 0 m
  rw [hm] at hframe hbytes
  refine ⟨fun c hu hv => funext fun o => hframe c o (.inl ⟨hu, hv⟩), fun o ho => ?_⟩
  obtain ⟨hv, hu⟩ := hbytes o (Nat.zero_le o) (by omega)
  exact ⟨hv, hv ▸ hu⟩

lemma twoDataLoop_spec (pbmul qmul : Byte → Byte) (p q : Addr) (hne : dp ≠ dq)
    (hm : twoDataLoop pbmul qmul p q dp dq bytes 0 m = m') :
    (∀ c, c ≠ dp → c ≠ dq → m' c = m c) ∧
      ∀ o < bytes, m' dq o = pbmul (m p o ^^^ m dp o) ^^^ qmul (m q o ^^^ m dq o) ∧
        m' dp o = m' dq o ^^^ (m p o ^^^ m dp o) :=
  loop_spec (f := fun b db => db ^^^ (b p ^^^ b dp))
    (g := fun b => pbmul (b p ^^^ b dp) ^^^ qmul (b q ^^^ b dq)) hne (fun _ _ => rfl)
    (fun _ _ _ => rfl) hm

lemma dataPLoop_spec (qmul : Byte → Byte) (q : Addr) (hne : p ≠ dq)
    (hm : dataPLoop qmul p q dq bytes 0 m = m') :
    (∀ c, c ≠ p → c ≠ dq → m' c = m c) ∧
      ∀ o < bytes, m' dq o = qmul (m q o ^^^ m dq o) ∧ m' p o = m p o ^^^ m' dq o := by
  refine loop_spec (f := fun b v => b p ^^^ v) (g := fun b => qmul (b q ^^^ b dq)) hne
    (fun _ _ => rfl) (fun bytes o m => ?_) hm
  rw [dataPLoop, Memory.poke_apply, if_neg fun h => hne h.1]

end Arch

namespace StripeHead
variable {K : Type*} [Field K] {x : K} {a : Arch} {full sh : StripeHead} {fa fb o dd1 dd2 : ℕ}
  {ptrs : ℕ → Addr} {lost : ℕ → Prop} {m : Memory}

section
variable (h : full.Wf)
include h

lemma Wf.twoDataRecov_eq (hab : fa < fb) (hfb : fb < full.disks - 2)
    (hptrs : ∀ k < full.disks, ptrs k = .page (full.disk k)) :
    ∃ ptrs', Zeroed full {fa, fb} (full.disk fa) (full.disk fb) ptrs' ∧
      ∀ m, a.twoDataRecov full.disks a.stripeSize fa fb ptrs m =
        Arch.twoDataLoop (gfmul (gfexi (fb - fa))) (gfmul (gfinv (gfexp fa ^^^ gfexp fb)))
          (.page full.pdIdx) (.page full.qdIdx) (.page (full.disk fa)) (.page (full.disk fb))
          a.stripeSize 0 (a.genSyndrome full.disks a.stripeSize ptrs' m) := by
  refine ⟨update (update (update (update ptrs fa .emptyZeroPage)
    (full.disks - 2) (.page (full.disk fa))) fb .emptyZeroPage) (full.disks - 1)
    (.page (full.disk fb)), ?_, fun m => ?_⟩
  rotate_left
  · rw [Arch.twoDataRecov, update_of_ne (by omega : fb ≠ full.disks - 2),
      update_of_ne (by omega : fb ≠ fa), hptrs fa (by omega), hptrs fb (by omega),
      hptrs (full.disks - 2) (by omega), hptrs (full.disks - 1) (by omega), h.disk_p, h.disk_q]
  constructor
  · intro j hj
    simp only [mem_insert, mem_singleton] at hj
    simp only [update_apply]
    rcases hj with rfl | rfl
    · rw [if_neg (by omega), if_neg (by omega), if_neg (by omega), if_pos rfl]
    · rw [if_neg (by omega), if_pos rfl]
  · intro j hj hjl
    simp only [mem_insert, mem_singleton, not_or] at hjl
    simp only [update_apply]
    rw [if_neg (by omega), if_neg hjl.2, if_neg (by omega), if_neg hjl.1, hptrs j (by omega)]
  · rw [update_of_ne (by omega), update_of_ne (by omega), update_self]
  · rw [update_self]
  · exact fun heq => absurd (disk_inj (by omega) (by omega) heq) (by omega)
  · intro j hj hjl
    simp only [mem_insert, mem_singleton, not_or] at hjl
    exact ⟨fun heq => hjl.1 (disk_inj (by omega) (by omega) heq),
      fun heq => hjl.2 (disk_inj (by omega) (by omega) heq)⟩

lemma Wf.dataPRecov_eq (hfa : fa < full.disks - 2)
    (hptrs : ∀ k < full.disks, ptrs k = .page (full.disk k)) :
    ∃ ptrs', Zeroed full {fa} full.pdIdx (full.disk fa) ptrs' ∧
      ∀ m, a.dataPRecov full.disks a.stripeSize fa ptrs m =
        Arch.dataPLoop (gfmul (gfinv (gfexp fa))) (.page full.pdIdx) (.page full.qdIdx)
          (.page (full.disk fa)) a.stripeSize 0
          (a.genSyndrome full.disks a.stripeSize ptrs' m) := by
  refine ⟨update (update ptrs fa .emptyZeroPage) (full.disks - 1)
    (.page (full.disk fa)), ?_, fun m => ?_⟩
  rotate_left
  · rw [Arch.dataPRecov, hptrs fa (by omega), hptrs (full.disks - 2) (by omega),
      hptrs (full.disks - 1) (by omega), h.disk_p, h.disk_q]
  constructor
  · intro j hj
    rw [mem_singleton] at hj
    simp only [update_apply]
    rw [if_neg (by omega), if_pos hj]
  · intro j hj hjl
    rw [mem_singleton] at hjl
    simp only [update_apply]
    rw [if_neg (by omega), if_neg hjl, hptrs j (by omega)]
  · simp only [update_apply]
    rw [if_neg (by omega), if_neg (by omega), hptrs _ (by omega), h.disk_p]
  · rw [update_self]
  · exact (h.disk_ne_p hfa).symm
  · intro j hj hjl
    rw [mem_singleton] at hjl
    exact ⟨h.disk_ne_p hj, fun heq => hjl (disk_inj (by omega) (by omega) heq)⟩

lemma Present.val_p (hfull : Sums x a full) (hsh : Present a full sh lost)
    (hp : ¬ lost full.pdIdx) (ho : o < a.stripeSize) :
    val x ((sh.dev full.pdIdx).page o) = ∑ j ∈ range (full.disks - 2), block x full j o := by
  rw [← hfull.p o ho, block, h.disk_p, hsh.agree _ h.pd hp o ho]

lemma Present.val_q (hfull : Sums x a full) (hsh : Present a full sh lost)
    (hq : ¬ lost full.qdIdx) (ho : o < a.stripeSize) :
    val x ((sh.dev full.qdIdx).page o) =
      ∑ j ∈ range (full.disks - 2), x ^ j * block x full j o := by
  rw [← hfull.q o ho, block, h.disk_q, hsh.agree _ (h.disk_q ▸ h.disk_lt _) hq o ho]

/-- In the pages of `m` the blocks `dd1` and `dd2` are those of `full`, and others as they were. -/
structure Restored (a : Arch) (full sh : StripeHead) (dd1 dd2 : ℕ) (m : Memory) : Prop where
  frame : ∀ i, i ≠ dd1 → i ≠ dd2 → m (.page i) = (sh.dev i).page
  lost : ∀ o < a.stripeSize,
    m (.page dd1) o = (full.dev dd1).page o ∧ m (.page dd2) o = (full.dev dd2).page o

omit h in
lemma Restored.symm (hm : Restored a full sh dd1 dd2 m) : Restored a full sh dd2 dd1 m :=
  ⟨fun i h2 h1 => hm.frame i h1 h2, fun o ho => (hm.lost o ho).symm⟩

lemma Present.twoDataRecov (hx : Realizes 8 0x1d K x) (hfull : Sums x a full) (hab : fa < fb)
    (hfb : fb < full.disks - 2)
    (hsh : Present a full sh fun i => i = full.disk fa ∨ i = full.disk fb)
    (hptrs : ∀ k < full.disks, ptrs k = .page (full.disk k))
    (hm : a.twoDataRecov full.disks a.stripeSize fa fb ptrs sh.memory = m) :
    Restored a full sh (full.disk fa) (full.disk fb) m := by
  have := hx.char
  have hmany := h.many
  obtain ⟨ptrs', hz, heq⟩ := h.twoDataRecov_eq (a := a) hab hfb hptrs
  obtain ⟨hsyn, -, hsums⟩ := hz.genSyndrome (a := a) h hx (fun j hj hlost =>
    hsh.agree _ (h.disk_lt j) (not_or.2 (hz.unused j hj hlost))) rfl
  rw [heq] at hm
  obtain ⟨hframe, hloop⟩ := Arch.twoDataLoop_spec _ _ _ _ (by simpa using hz.ne) hm
  set m' := a.genSyndrome full.disks a.stripeSize ptrs' sh.memory
  have hap := h.disk_ne_p (j := fa) (by omega)
  have haq := h.disk_ne_q (j := fa) (by omega)
  have hbp := h.disk_ne_p hfb
  have hbq := h.disk_ne_q (j := fb) (by omega)
  have hsub : ({fa, fb} : Finset ℕ) ⊆ range (full.disks - 2) := by
    intro j hj
    simp only [mem_insert, mem_singleton] at hj
    exact mem_range.2 (by omega)
  refine ⟨fun i hia hib => ?_, fun o ho => ?_⟩
  · rw [hframe _ (by simpa using hia) (by simpa using hib), hsyn i hia hib]
  obtain ⟨hdq, hdp⟩ := hloop o ho
  have hpx : val x (m' (.page full.pdIdx) o ^^^ m' (.page (full.disk fa)) o) =
      block x full fa o + block x full fb o := by
    rw [val_xor hx, hsyn _ hap.symm hbp.symm,
      hsh.val_p h hfull (not_or.2 ⟨hap.symm, hbp.symm⟩) ho, (hsums o ho).1,
      sum_add_sum_except hsub, sum_pair hab.ne]
  have hqx : val x (m' (.page full.qdIdx) o ^^^ m' (.page (full.disk fb)) o) =
      x ^ fa * block x full fa o + x ^ fb * block x full fb o := by
    rw [val_xor hx, hsyn _ haq.symm hbq.symm,
      hsh.val_q h hfull (not_or.2 ⟨haq.symm, hbq.symm⟩) ho, (hsums o ho).2,
      sum_add_sum_except hsub, sum_pair hab.ne]
  have hb : val x (m (.page (full.disk fb)) o) = block x full fb o := by
    rw [hdq, val_xor hx, val_gfmul hx, val_gfmul hx, hpx, hqx, val_gfexi hx (by omega) (by omega),
      val_gfinv hx (gfexp_xor_ne_zero hx hab (by omega)), val_xor hx, val_gfexp hx (by omega),
      val_gfexp hx (by omega), recover_two hx hab (by omega)]
  refine ⟨val_inj hx ?_, val_inj hx hb⟩
  rw [hdp, val_xor hx, hb, hpx, add_comm, add_assoc, CharTwo.add_self_eq_zero, add_zero]
  rfl

lemma Present.dataPRecov (hx : Realizes 8 0x1d K x) (hfull : Sums x a full)
    (hfa : fa < full.disks - 2) (hsh : Present a full sh fun i => i = full.disk fa ∨ i = full.pdIdx)
    (hptrs : ∀ k < full.disks, ptrs k = .page (full.disk k))
    (hm : a.dataPRecov full.disks a.stripeSize fa ptrs sh.memory = m) :
    Restored a full sh (full.disk fa) full.pdIdx m := by
  have := hx.char
  have hmany := h.many
  obtain ⟨ptrs', hz, heq⟩ := h.dataPRecov_eq (a := a) hfa hptrs
  obtain ⟨hsyn, -, hsums⟩ := hz.genSyndrome (a := a) h hx (fun j hj hlost =>
    hsh.agree _ (h.disk_lt j) (not_or.2 (hz.unused j hj hlost).symm)) rfl
  rw [heq] at hm
  obtain ⟨hframe, hloop⟩ := Arch.dataPLoop_spec _ _ (by simpa using hz.ne) hm
  set m' := a.genSyndrome full.disks a.stripeSize ptrs' sh.memory
  have hqa := (h.disk_ne_q (j := fa) (by omega)).symm
  have hqp : full.qdIdx ≠ full.pdIdx := by
    rw [← h.disk_p]
    exact (h.disk_ne_q (by omega)).symm
  have hsub : ({fa} : Finset ℕ) ⊆ range (full.disks - 2) :=
    singleton_subset_iff.2 (mem_range.2 hfa)
  refine ⟨fun i hia hip => ?_, fun o ho => ?_⟩
  · rw [hframe _ (by simpa using hip) (by simpa using hia), hsyn i hip hia]
  obtain ⟨hdq, hp⟩ := hloop o ho
  have hqx : val x (m' (.page full.qdIdx) o ^^^ m' (.page (full.disk fa)) o) =
      x ^ fa * block x full fa o := by
    rw [val_xor hx, hsyn _ hqp hqa, hsh.val_q h hfull (not_or.2 ⟨hqa, hqp⟩) ho, (hsums o ho).2,
      sum_add_sum_except hsub, sum_singleton]
  have hpow : x ^ fa ≠ 0 := pow_ne_zero fa (generator_ne_zero hx)
  have hexp : gfexp fa ≠ 0 := by
    intro hzero
    have hval := val_gfexp hx (i := fa) (by omega)
    rw [hzero, val_zero] at hval
    exact hpow hval.symm
  have ha : val x (m (.page (full.disk fa)) o) = block x full fa o := by
    rw [hdq, val_gfmul hx, hqx, val_gfinv hx hexp, val_gfexp hx (by omega), inv_mul_cancel_left₀ hpow]
  refine ⟨val_inj hx ha, val_inj hx ?_⟩
  have hsum := sum_add_sum_except hsub fun j => block x full j o
  rw [sum_singleton] at hsum
  rw [hp, val_xor hx, ha, (hsums o ho).1, ← hsum, add_comm, add_assoc, CharTwo.add_self_eq_zero,
    add_zero, ← hfull.p o ho, block, h.disk_p]

end

/-- The stripe `sh'` is complete, and has the other blocks of `sh`. -/
def Rebuilt (a : Arch) (full sh : StripeHead) (dd1 dd2 : ℕ) (sh' : StripeHead) : Prop :=
  Present a full sh' (fun _ => False) ∧
    ∀ i, i ≠ dd1 → i ≠ dd2 → (sh'.dev i).page = (sh.dev i).page

lemma Restored.rebuilt (hm : Restored a full sh dd1 dd2 m)
    (hsh : Present a full sh fun i => i = dd1 ∨ i = dd2) : Rebuilt a full sh dd1 dd2
      (((sh.withPages m).modifyDev dd1 fun dev => { dev with uptodate := true }).modifyDev dd2
        fun dev => { dev with uptodate := true }) := by
  have hpages := hsh.withPages fun i hi => hm.frame i (not_or.1 hi).1 (not_or.1 hi).2
  have hmarked := (hpages.mark fun o ho => (hm.lost o ho).1).mark fun o ho => by
    rw [page_mark]
    exact (hm.lost o ho).2
  refine ⟨hmarked.congr fun i hi => ?_, fun i h1 h2 => ?_⟩
  · exact hi.2 (hi.1.1.resolve_left hi.1.2)
  · rw [page_mark, page_mark]
    exact hm.frame i h1 h2

lemma Rebuilt.symm {sh' : StripeHead} (h : Rebuilt a full sh dd1 dd2 sh') :
    Rebuilt a full sh dd2 dd1 sh' := ⟨h.1, fun i h2 h1 => h.2 i h1 h2⟩

section
variable (h : full.Wf) (hx : Realizes 8 0x1d K x) (hfull : Sums x a full) (stack : ℕ → Addr)
include h hx hfull

lemma Present.rebuild_q (hfa : fa < full.disks - 1)
    (hsh : Present a full sh fun i => i = full.disk fa ∨ i = full.qdIdx)
    (hdd : (dd1 = full.disk fa ∧ dd2 = full.qdIdx) ∨ (dd1 = full.qdIdx ∧ dd2 = full.disk fa)) :
    ∃ sh', sh.rebuild a stack dd1 dd2 fa (full.disks - 1) = some sh' ∧
      Rebuilt a full sh (full.disk fa) full.qdIdx sh' := by
  rw [rebuild, if_pos (by rw [hsh.disks])]
  by_cases hp : fa = full.disks - 2
  · subst hp
    rw [h.disk_p] at hsh ⊢
    obtain ⟨sh', hres, hpresent, hframe⟩ := hsh.computeParity6 h hx hfull stack
    rw [if_pos (by rw [hsh.disks])]
    exact ⟨sh', hres, hpresent, fun i h1 h2 => funext fun o => hframe i o (.inl ⟨h1, h2⟩)⟩
  · have hwhich : (if dd1 = sh.qdIdx then dd2 else dd1) = full.disk fa := by
      rw [hsh.qdIdx_eq]
      rcases hdd with ⟨rfl, rfl⟩ | ⟨rfl, rfl⟩
      · rw [if_neg (h.disk_ne_q hfa)]
      · rw [if_pos rfl]
    obtain ⟨sh1, hres1, hpresent1, hframe1⟩ := hsh.computeBlock1 h hx hfull (by omega) stack
    obtain ⟨sh', hres, hpresent, hframe⟩ :=
      (hpresent1.congr fun i hi => .inr hi).computeParity6 h hx hfull stack
    rw [if_neg (by rw [hsh.disks]; exact hp), hwhich, hres1]
    refine ⟨sh', hres, hpresent, fun i hia hiq => funext fun o => ?_⟩
    rw [← hframe1 i hia]
    by_cases ho : o < a.stripeSize
    · by_cases hip : i = full.pdIdx
      · rw [hpresent.agree i (hip ▸ h.pd) not_false o ho, hpresent1.agree i (hip ▸ h.pd) hiq o ho]
      · exact hframe i o (.inl ⟨hip, hiq⟩)
    · exact hframe i o (.inr (not_lt.1 ho))

lemma Present.rebuild_data (hab : fa < fb) (hfb : fb < full.disks - 1)
    (hsh : Present a full sh fun i => i = full.disk fa ∨ i = full.disk fb)
    (hdd : (dd1 = full.disk fa ∧ dd2 = full.disk fb) ∨ (dd1 = full.disk fb ∧ dd2 = full.disk fa)) :
    ∃ sh', sh.rebuild a stack dd1 dd2 fa fb = some sh' ∧
      Rebuilt a full sh (full.disk fa) (full.disk fb) sh' := by
  obtain ⟨ptrs, htable, hptrs⟩ := (hsh.wf h).pointerTable_eq stack
  rw [hsh.disks, hsh.disk_eq] at hptrs
  obtain ⟨m, hm, hrestored⟩ : ∃ m, (if fb = sh.disks - 2 then
      a.dataPRecov sh.disks a.stripeSize fa ptrs sh.memory
      else a.twoDataRecov sh.disks a.stripeSize fa fb ptrs sh.memory) = m ∧
      Restored a full sh (full.disk fa) (full.disk fb) m := by
    rw [hsh.disks]
    by_cases hp : fb = full.disks - 2
    · rw [hp, h.disk_p] at hsh ⊢
      rw [if_pos rfl]
      exact ⟨_, rfl, hsh.dataPRecov h hx hfull (by omega) hptrs rfl⟩
    · rw [if_neg hp]
      exact ⟨_, rfl, hsh.twoDataRecov h hx hfull hab (by omega) hptrs rfl⟩
  refine ⟨((sh.withPages m).modifyDev dd1 fun dev => { dev with uptodate := true }).modifyDev dd2
    fun dev => { dev with uptodate := true }, ?_, ?_⟩
  · rw [rebuild, if_neg (by rw [hsh.disks]; omega), htable, Option.bind_eq_bind,
      Option.bind_some, hm]
    rfl
  · rcases hdd with ⟨rfl, rfl⟩ | ⟨rfl, rfl⟩
    · exact hrestored.rebuilt hsh
    · exact (hrestored.symm.rebuilt (hsh.congr fun i => Or.symm)).symm

end

/-- Any two lost blocks of an encoded stripe are restored and marked as up to date, whatever
was in them, and no other block changes. -/
theorem compute_block_2_restores {a : Arch} {full sh : StripeHead} {dd1 dd2 : ℕ} (h : full.Wf)
    (henc : full.Encoded a) (h1 : dd1 < full.disks) (h2 : dd2 < full.disks) (hne : dd1 ≠ dd2)
    (hsh : Present a full sh fun i => i = dd1 ∨ i = dd2) (stack : ℕ → Addr) :
    ∃ sh', sh.computeBlock2 a stack dd1 dd2 = some sh' ∧
      Present a full sh' (fun _ => False) ∧
      ∀ i, i ≠ dd1 → i ≠ dd2 → (sh'.dev i).page = (sh.dev i).page := by
  obtain ⟨K, _, x, hx⟩ := primitive_byte.exists_field
  have hfull := h.sums_of_encoded hx henc
  have hrel : ∀ i, sh.relative i = full.relative i := by
    intro i
    rw [relative, relative, d0Idx, d0Idx, hsh.qdIdx_eq, hsh.disks]
  obtain ⟨hr1, hd1⟩ := h.disk_relative h1
  obtain ⟨hr2, hd2⟩ := h.disk_relative h2
  have hrebuild : ∀ {fa fb}, fa < fb → fb < full.disks →
      ((dd1 = full.disk fa ∧ dd2 = full.disk fb) ∨ (dd1 = full.disk fb ∧ dd2 = full.disk fa)) →
      ∃ sh', sh.rebuild a stack dd1 dd2 fa fb = some sh' ∧ Rebuilt a full sh dd1 dd2 sh' := by
    intro fa fb hab hfb hdd
    have hsh' : Present a full sh fun i => i = full.disk fa ∨ i = full.disk fb := by
      rcases hdd with ⟨rfl, rfl⟩ | ⟨rfl, rfl⟩
      · exact hsh
      · exact hsh.congr fun i => Or.symm
    obtain ⟨sh', hres, hrebuilt⟩ : ∃ sh', sh.rebuild a stack dd1 dd2 fa fb = some sh' ∧
        Rebuilt a full sh (full.disk fa) (full.disk fb) sh' := by
      by_cases hq : fb = full.disks - 1
      · subst hq
        rw [h.disk_q] at hdd hsh' ⊢
        exact hsh'.rebuild_q h hx hfull stack (by omega) hdd
      · exact hsh'.rebuild_data h hx hfull stack hab (by omega) hdd
    rcases hdd with ⟨rfl, rfl⟩ | ⟨rfl, rfl⟩
    · exact ⟨sh', hres, hrebuilt⟩
    · exact ⟨sh', hres, hrebuilt.symm⟩
  have hrne : full.relative dd1 ≠ full.relative dd2 := by
    intro heq
    rw [heq, hd2] at hd1
    exact hne hd1.symm
  rw [computeBlock2, hrel, hrel, if_neg hrne]
  split_ifs with hlt
  · exact hrebuild hlt hr1 (.inr ⟨hd1.symm, hd2.symm⟩)
  · exact hrebuild (lt_of_le_of_ne (not_lt.1 hlt) hrne) hr2 (.inl ⟨hd1.symm, hd2.symm⟩)

/-- A stripe of four disks. -/
def sample : StripeHead where
  disks := 4
  pdIdx := 2
  dev i := {
    page := fun o => BitVec.ofNat 8 (3 * i + o)
    sector := 0
    towrite := []
    written := []
    uptodate := true
    locked := false
    overlap := false }

def sampleArch : Arch := ⟨.u32, .little, 2, two_pos, 4096, Dvd.intro 512 rfl⟩

/-- The stripe with its parities. -/
def sampleFull : StripeHead :=
  sample.withPages (sampleArch.genSyndrome 4 4096 (fun k => .page (sample.disk k)) sample.memory)

/-- The stripe after the blocks of two data disks were overwritten. -/
def sampleLost : StripeHead :=
  (sampleFull.modifyDev 0 fun dev => { dev with page := fun _ => 7 }).modifyDev 1
    fun dev => { dev with page := fun _ => 9 }

lemma sample_wf : sample.Wf := ⟨by decide, by decide, by decide⟩

lemma sampleFull_wf : sampleFull.Wf := ⟨sample_wf.few, sample_wf.many, sample_wf.pd⟩

lemma sampleFull_encoded : sampleFull.Encoded sampleArch := by
  obtain ⟨K, _, x, hx⟩ := primitive_byte.exists_field
  exact (sample_wf.genSyndrome_sums (a := sampleArch) hx fun _ _ => rfl).encoded sampleFull_wf hx

lemma sampleLost_present : Present sampleArch sampleFull sampleLost fun i => i = 1 ∨ i = 0 := by
  refine ⟨rfl, rfl, fun i _ => ?_, fun i _ _ => ?_, fun i _ hi o _ => ?_⟩
  · rw [sampleLost, dev_modifyDev, dev_modifyDev, dev_modifyDev]
    split_ifs <;> rfl
  · rw [sampleLost, dev_modifyDev, dev_modifyDev, dev_modifyDev]
    split_ifs <;> rfl
  · obtain ⟨h1, h0⟩ := not_or.1 hi
    rw [sampleLost, dev_modifyDev, if_neg h1, dev_modifyDev, if_neg h0]

theorem compute_block_2_two_data :
    ∃ sh', sampleLost.computeBlock2 sampleArch (fun _ => .emptyZeroPage) 1 0 = some sh' ∧
      Present sampleArch sampleFull sh' (fun _ => False) ∧
      ∀ i, i ≠ 1 → i ≠ 0 → (sh'.dev i).page = (sampleLost.dev i).page :=
  compute_block_2_restores sampleFull_wf sampleFull_encoded (by decide) (by decide) (by decide)
    sampleLost_present _

/-- A stripe with something to write to its first disk. -/
theorem compute_parity6_encodes_write : ∃ sh sh' : StripeHead, sh.computeParity6 sampleArch
    (fun _ => .emptyZeroPage) .reconstructWrite = some sh' ∧ sh'.Encoded sampleArch ∧
      (sh'.dev 0).page 0 = 5 := by
  have hwf : (sample.modifyDev 0 fun dev =>
      { dev with towrite := [⟨0, 4096, fun _ _ _ => 5⟩] }).Wf := { sample_wf with }
  obtain ⟨sh', hres, henc, hdata⟩ := compute_parity6_encodes hwf
    (rfl : startParity _ .reconstructWrite = _) fun _ => .emptyZeroPage
  exact ⟨_, sh', hres, henc, congrFun (hdata 0 (by decide) (by decide)) 0⟩

end StripeHead

end BooxKernel.Raid6
