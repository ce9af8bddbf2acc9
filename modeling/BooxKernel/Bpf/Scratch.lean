import BooxKernel.Bpf.Verifier

/-!
# The scratch words at the start of a run

The interpreter does not initialise its scratch words, and the checker does not
ask that a word is stored before it is loaded. A run that loads only words it has
stored is independent of what the stack held before; a run that loads another
word has that word in a register.
-/
namespace BooxKernel.Bpf
open Function List RunResult Option

abbrev Scratch := Fin bpfMemwords → BitVec 32

/-- The scratch word that `k` names. -/
def word (fentry : SockFilter) : Option (Fin bpfMemwords) :=
  if h : fentry.k.toNat < bpfMemwords then some ⟨fentry.k.toNat, h⟩ else none

/-- The scratch word an instruction loads. -/
def loadsWord (fentry : SockFilter) : Option (Fin bpfMemwords) :=
  match decode fentry.code with
  | some .ldMem => word fentry
  | some .ldxMem => word fentry
  | _ => none

/-- The scratch word an instruction stores. -/
def storesWord (fentry : SockFilter) : Option (Fin bpfMemwords) :=
  match decode fentry.code with
  | some .st => word fentry
  | some .stx => word fentry
  | _ => none

/-- Every scratch word that these instructions load is among `stored`, or was
stored by one of them before. -/
def readsStored (filter : List SockFilter) : List (Fin bpfMemwords) → List State → Bool
  | _, [] => true
  | stored, t :: rest =>
    match fetch filter t.pc with
    | none => true
    | some fentry =>
      (loadsWord fentry).all (fun i => decide (i ∈ stored)) &&
        readsStored filter ((storesWord fentry).toList ++ stored) rest

/-- The registers before each instruction of a run. -/
def RunResult.registers (r : RunResult) : List (BitVec 32 × BitVec 32 × BitVec 32) :=
  r.executed.map fun t => (t.A, t.X, t.pc)

/-- The value that the function returns, if it returns. -/
def RunResult.value (r : RunResult) : Option (BitVec 32) :=
  match r.exit with
  | some (.ret value) => some value
  | some .return0 => some 0
  | some .unknownCode => some 0
  | some .endOfProgram => some 0
  | _ => none

/-- Replace the scratch words of the state an instruction goes on with. -/
def Next.setMem (mem : Scratch) : Next → Next
  | .exit e => .exit e
  | .goOn t => .goOn { t with mem := mem }

/-- The scratch words `mem` after the instruction's store. -/
def storeInto (fentry : SockFilter) (s : State) (mem : Scratch) : Scratch :=
  match decode fentry.code, word fentry with
  | some .st, some i => update mem i s.A
  | some .stx, some i => update mem i s.X
  | _, _ => mem

section Instructions
variable {pf : Platform} {skb : SkBuff} {fentry  : SockFilter} {s : State} {i : Fin bpfMemwords}

lemma ancillary_setMem (k : ℤ) (mem : Scratch) :
    ancillary pf skb k { s with mem := mem } = (ancillary pf skb k s).setMem mem := by
  unfold ancillary
  dsimp only
  split_ifs
  · rfl
  · rfl
  · cases skb.dev <;> rfl
  · rfl
  · rfl
  · split <;> rfl
  · rfl

lemma load_setMem (size : Size) (k : ℤ) (mem : Scratch) :
    load pf skb size k { s with mem := mem } = (load pf skb size k s).setMem mem := by
  unfold load
  split
  · rfl
  · exact ancillary_setMem k mem
  · rfl

lemma execInsn_setMem (pf : Platform) (skb : SkBuff) {s : State} (mem : Scratch)
    (hload : ∀ i, loadsWord fentry = some i → mem i = s.mem i) :
    execInsn pf skb fentry { s with mem := mem } =
      (execInsn pf skb fentry s).setMem (storeInto fentry s mem) := by
  unfold loadsWord at hload
  unfold execInsn storeInto
  cases hop : decode fentry.code with
  | none => rfl
  | some op =>
    rw [hop] at hload
    cases op with
    | alu op src =>
      cases op <;> cases src <;> dsimp only <;> (try split_ifs) <;> rfl
    | ldAbs size => exact load_setMem size _ mem
    | ldInd size => exact load_setMem size _ mem
    | ldxMsh =>
      dsimp only
      split <;> rfl
    | ldMem | ldxMem =>
      dsimp only at hload ⊢
      by_cases hk : fentry.k.toNat < bpfMemwords
      · have hsame := hload ⟨fentry.k.toNat, hk⟩ (by simp [word, hk])
        rw [dif_pos hk, dif_pos hk, hsame]
        rfl
      · rw [dif_neg hk, dif_neg hk]
        rfl
    | st | stx =>
      dsimp only
      by_cases hk : fentry.k.toNat < bpfMemwords
      · simp [word, hk, Next.setMem]
      · rw [dif_neg hk, dif_neg hk]
        rfl
    | _ => rfl

lemma execInsn_mem {t : State} (hx : execInsn pf skb fentry s = .goOn t) :
    t.mem = storeInto fentry s s.mem := by
  have hself : execInsn pf skb fentry s =
      (execInsn pf skb fentry s).setMem (storeInto fentry s s.mem) :=
    execInsn_setMem pf skb s.mem fun _ _ => rfl
  rw [hx] at hself
  exact congrArg State.mem (Next.goOn.inj hself)

lemma execInsn_loads (pf : Platform) (skb : SkBuff) (hi : loadsWord fentry = some i) :
    (∀ s : State, execInsn pf skb fentry s = .goOn { s with A := s.mem i }) ∨
    (∀ s : State, execInsn pf skb fentry s = .goOn { s with X := s.mem i }) := by
  unfold loadsWord at hi
  unfold execInsn
  cases hop : decode fentry.code with
  | none => simp [hop] at hi
  | some op =>
    rw [hop] at hi
    cases op with
    | ldMem =>
      simp only [word, dite_none_right_eq_some, some.injEq] at hi
      obtain ⟨hk, rfl⟩ := hi
      exact .inl fun s => dif_pos hk
    | ldxMem =>
      simp only [word, dite_none_right_eq_some, some.injEq] at hi
      obtain ⟨hk, rfl⟩ := hi
      exact .inr fun s => dif_pos hk
    | _ => simp at hi

lemma storeInto_cases (fentry : SockFilter) (s : State) :
    (storesWord fentry = none ∧ ∀ mem, storeInto fentry s mem = mem) ∨
    ∃ i v, storesWord fentry = some i ∧ ∀ mem, storeInto fentry s mem = update mem i v := by
  unfold storesWord storeInto
  cases hop : decode fentry.code with
  | none => exact .inl ⟨rfl, fun _ => rfl⟩
  | some op =>
    cases hw : word fentry with
    | none => cases op <;> exact .inl ⟨rfl, fun _ => rfl⟩
    | some i =>
      cases op with
      | st => exact .inr ⟨i, s.A, rfl, fun _ => rfl⟩
      | stx => exact .inr ⟨i, s.X, rfl, fun _ => rfl⟩
      | _ => exact .inl ⟨rfl, fun _ => rfl⟩

lemma storeInto_agree {stored : List (Fin bpfMemwords)} {m m' : Scratch}
    (h : ∀ i ∈ stored, m' i = m i) :
    ∀ i ∈ (storesWord fentry).toList ++ stored, storeInto fentry s m' i = storeInto fentry s m i := by
  intro i hi
  rcases storeInto_cases fentry s with ⟨hnone, hsame⟩ | ⟨j, v, hj, hupd⟩
  · rw [hnone] at hi
    rw [hsame, hsame]
    exact h i (by simpa using hi)
  · rw [hj] at hi
    rw [hupd, hupd]
    by_cases hij : i = j
    · rw [hij, update_self, update_self]
    · rw [update_of_ne hij, update_of_ne hij]
      exact h i (by simpa [hij] using hi)

lemma storeInto_update (hi : i ∉ (storesWord fentry).toList) (mem : Scratch) (v : BitVec 32) :
    storeInto fentry s (update mem i v) = update (storeInto fentry s mem) i v ∧
      storeInto fentry s mem i = mem i := by
  rcases storeInto_cases fentry s with ⟨_, hsame⟩ | ⟨j, w, hj, hupd⟩
  · rw [hsame, hsame]
    exact ⟨rfl, rfl⟩
  · have hij : i ≠ j := by
      rw [hj] at hi
      simpa using hi
    rw [hupd, hupd, update_comm hij]
    exact ⟨rfl, update_of_ne hij _ _⟩

end Instructions

section Runs
variable (pf : Platform) (skb : SkBuff) {filter : List SockFilter} {fentry : SockFilter}
  {t s s' t' : State}

lemma readsStored_cons {stored : List (Fin bpfMemwords)} {rest : List State}
    (hf : fetch filter t.pc = some fentry) :
    readsStored filter stored (t :: rest) = true ↔
      (∀ i, loadsWord fentry = some i → i ∈ stored) ∧
        readsStored filter ((storesWord fentry).toList ++ stored) rest = true := by
  simp only [readsStored, hf, Bool.and_eq_true]
  cases loadsWord fentry <;> simp

lemma runLoop_agree (fuel : ℕ) (stored : List (Fin bpfMemwords)) (s : State) (mem : Scratch)
    (hag : ∀ i ∈ stored, mem i = s.mem i)
    (h : readsStored filter stored (runLoop pf skb filter fuel s).executed = true) :
    (runLoop pf skb filter fuel { s with mem := mem }).exit = (runLoop pf skb filter fuel s).exit ∧
    (runLoop pf skb filter fuel { s with mem := mem }).registers =
      (runLoop pf skb filter fuel s).registers := by
  induction fuel generalizing stored s mem with
  | zero => exact ⟨rfl, rfl⟩
  | succ fuel ih =>
    by_cases hin : s.pc.toInt < filter.length
    · cases hf : fetch filter s.pc with
      | none => simp [runLoop, hin, hf, registers]
      | some fentry =>
        cases hx : execInsn pf skb fentry s with
        | exit e =>
          rw [runLoop_exit hin hf hx] at h ⊢
          have hload := ((readsStored_cons hf).1 h).1
          have hx' := execInsn_setMem pf skb (s := s) mem fun i hi => hag i (hload i hi)
          rw [hx] at hx'
          rw [runLoop_exit (s := { s with mem := mem }) hin hf hx']
          exact ⟨rfl, rfl⟩
        | goOn t =>
          rw [runLoop_goOn hin hf hx] at h ⊢
          obtain ⟨hload, hrest⟩ := (readsStored_cons hf).1 h
          have hx' := execInsn_setMem pf skb (s := s) mem fun i hi => hag i (hload i hi)
          rw [hx] at hx'
          rw [runLoop_goOn (s := { s with mem := mem }) hin hf hx']
          have hih := ih _ { t with pc := t.pc + 1 } (storeInto fentry s mem)
            (by rw [execInsn_mem hx]; exact storeInto_agree hag) hrest
          refine ⟨hih.1, ?_⟩
          unfold registers at hih ⊢
          rw [map_cons]
          exact congrArg _ hih.2
    · simp [runLoop, hin, registers]

lemma runLoop_head (fuel : ℕ) (hin : s.pc.toInt < filter.length)
    (hf : fetch filter s.pc = some fentry) :
    (runLoop pf skb filter (fuel + 1) s).registers.head? = some (s.A, s.X, s.pc) := by
  unfold registers
  rw [head?_map, runLoop_first hin hf]
  rfl

lemma registers_ne (hacc : Accepted filter) {fuel : ℕ} (hpc : s.pc.toNat < filter.length)
    (hfuel : filter.length - s.pc.toNat ≤ fuel + 1) (hf : fetch filter s.pc = some fentry)
    (hx : execInsn pf skb fentry s = .goOn t) (hx' : execInsn pf skb fentry s' = .goOn t')
    (hsame : s'.pc = s.pc ∧ t'.pc = t.pc) (hne : ¬ (t.A = t'.A ∧ t.X = t'.X)) :
    (runLoop pf skb filter (fuel + 1) s').registers ≠
      (runLoop pf skb filter (fuel + 1) s).registers := by
  obtain ⟨hin, _, hf1, hstep⟩ := round_inside pf skb hacc hpc
  rw [hf, some.injEq] at hf1
  rw [← hf1, hx] at hstep
  cases fuel with
  | zero =>
    have h1 := hstep.1
    have h2 := hstep.2
    omega
  | succ fuel =>
    intro heq
    rw [runLoop_goOn hin hf hx, runLoop_goOn (hsame.1 ▸ hin) (hsame.1 ▸ hf) hx'] at heq
    unfold registers at heq
    rw [map_cons, map_cons, cons.injEq] at heq
    obtain ⟨hin2, _, hf2, _⟩ := round_inside pf skb hacc (s := { t with pc := t.pc + 1 }) hstep.2
    have hhead := runLoop_head pf skb fuel (s := { t with pc := t.pc + 1 }) hin2 hf2
    have hhead' := runLoop_head pf skb fuel (s := { t' with pc := t'.pc + 1 })
      (by dsimp only; rw [hsame.2]; exact hin2) (by dsimp only; rw [hsame.2]; exact hf2)
    have hregs := (hhead'.symm.trans (congrArg head? heq.2)).trans hhead
    simp only [some.injEq, Prod.mk.injEq] at hregs
    exact hne ⟨hregs.1.symm, hregs.2.1.symm⟩

/-- A run of an accepted program that loads a word it did not store shows that
word in a register. -/
lemma runLoop_leaks (hacc : Accepted filter) (fuel : ℕ) (stored : List (Fin bpfMemwords))
    (s : State) (hpc : s.pc.toNat < filter.length) (hfuel : filter.length - s.pc.toNat ≤ fuel)
    (h : readsStored filter stored (runLoop pf skb filter fuel s).executed ≠ true) :
    ∃ i ∉ stored, (runLoop pf skb filter fuel
        { s with mem := update s.mem i (s.mem i + 1) }).registers ≠
      (runLoop pf skb filter fuel s).registers := by
  induction fuel generalizing stored s with
  | zero => omega
  | succ fuel ih =>
    obtain ⟨hin, fentry, hf, hstep⟩ := round_inside pf skb hacc hpc
    by_cases hload : ∀ i, loadsWord fentry = some i → i ∈ stored
    · cases hx : execInsn pf skb fentry s with
      | exit e =>
        rw [runLoop_exit hin hf hx] at h
        exact absurd ((readsStored_cons hf).2 ⟨hload, rfl⟩) h
      | goOn t =>
        rw [hx] at hstep
        rw [runLoop_goOn hin hf hx] at h ⊢
        obtain ⟨i, hi, hdiff⟩ := ih _ { t with pc := t.pc + 1 } hstep.2
          (by have := hstep.1; dsimp only; omega) 
          (fun hrest => h ((readsStored_cons hf).2 ⟨hload, hrest⟩))
        rw [mem_append, not_or] at hi
        refine ⟨i, hi.2, ?_⟩
        have hother : ∀ j, loadsWord fentry = some j →
            update s.mem i (s.mem i + 1) j = s.mem j := by
          intro j hj
          apply update_of_ne
          rintro rfl
          exact hi.2 (hload j hj)
        have hx' := execInsn_setMem pf skb (update s.mem i (s.mem i + 1)) hother
        obtain ⟨hstore, hkeep⟩ := storeInto_update (s := s) hi.1 s.mem (s.mem i + 1)
        rw [← execInsn_mem hx] at hstore hkeep
        rw [hx, hstore] at hx'
        rw [runLoop_goOn (s := { s with mem := update s.mem i (s.mem i + 1) }) hin hf hx']
        rw [hkeep] at hdiff
        intro heq
        unfold registers at heq hdiff
        rw [map_cons, map_cons, cons.injEq] at heq
        exact hdiff heq.2
    · push Not at hload
      obtain ⟨i, hi, hnot⟩ := hload
      have hbump : update s.mem i (s.mem i + 1) i ≠ s.mem i := by
        simp
      rcases execInsn_loads pf skb hi with hA | hX
      · refine ⟨i, hnot, registers_ne pf skb hacc hpc hfuel hf (hA _) (hA _) ⟨rfl, rfl⟩
          fun heq => ?_⟩
        exact hbump heq.1.symm
      · refine ⟨i, hnot, registers_ne pf skb hacc hpc hfuel hf (hX _) (hX _) ⟨rfl, rfl⟩
          fun heq => ?_⟩
        exact hbump heq.2.symm

end Runs

/-- When the run of an accepted program loads only scratch words it has stored,
it returns the same value whatever the stack held before. This condition is also
the exact one for the registers to be independent of the stack at every
instruction. -/
theorem scratch_independent (pf : Platform) (skb : SkBuff) (filter : List SockFilter)
    (mem : Scratch) (fuel : ℕ) (hchk : skChkFilter filter = 0) (hfuel : filter.length ≤ fuel) :
    (readsStored filter [] (skRunFilter pf skb filter mem fuel).executed = true →
      ∀ mem', (skRunFilter pf skb filter mem' fuel).value =
        (skRunFilter pf skb filter mem fuel).value) ∧
    (readsStored filter [] (skRunFilter pf skb filter mem fuel).executed = true ↔
      ∀ mem', (skRunFilter pf skb filter mem' fuel).registers =
        (skRunFilter pf skb filter mem fuel).registers) := by
  have hacc := accepted_of_chk hchk
  have hagree : readsStored filter [] (skRunFilter pf skb filter mem fuel).executed = true →
      ∀ mem', (skRunFilter pf skb filter mem' fuel).exit = (skRunFilter pf skb filter mem fuel).exit ∧
        (skRunFilter pf skb filter mem' fuel).registers =
          (skRunFilter pf skb filter mem fuel).registers :=
    fun h mem' => runLoop_agree pf skb fuel [] ⟨0, 0, mem, 0⟩ mem' (by simp) h
  refine ⟨?_, fun h mem' => (hagree h mem').2, ?_⟩
  · intro h mem'
    unfold value
    rw [(hagree h mem').1]
  · intro hsame
    by_contra h
    obtain ⟨i, _, hdiff⟩ := runLoop_leaks pf skb hacc fuel [] ⟨0, 0, mem, 0⟩ hacc.pos hfuel h
    exact hdiff (hsame _)

/-- A program that stores `A` before it loads it again. -/
theorem scratch_independent_store :
    (skRunFilter arm packetWithoutDev
      [⟨0x02, 0, 0, 3⟩, ⟨0x60, 0, 0, 3⟩, ⟨0x16, 0, 0, 0⟩] (fun _ => 1) 3).value =
    (skRunFilter arm packetWithoutDev
      [⟨0x02, 0, 0, 3⟩, ⟨0x60, 0, 0, 3⟩, ⟨0x16, 0, 0, 0⟩] (fun _ => 0) 3).value :=
  (scratch_independent arm packetWithoutDev
    [⟨0x02, 0, 0, 3⟩, ⟨0x60, 0, 0, 3⟩, ⟨0x16, 0, 0, 0⟩] (fun _ => 0) 3 (by decide)
    (by decide)).1 (by decide) (fun _ => 1)

/-- An accepted program of two instructions returns the first scratch word. -/
theorem uninitialised_word_returned :
    skChkFilter [⟨0x60, 0, 0, 0⟩, ⟨0x16, 0, 0, 0⟩] = 0 ∧
    (skRunFilter arm packetWithoutDev [⟨0x60, 0, 0, 0⟩, ⟨0x16, 0, 0, 0⟩] (fun _ => 0) 2).value ≠
      (skRunFilter arm packetWithoutDev [⟨0x60, 0, 0, 0⟩, ⟨0x16, 0, 0, 0⟩] (fun _ => 1) 2).value := by
  decide

end BooxKernel.Bpf
