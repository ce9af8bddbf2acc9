import BooxKernel.Bpf.Model

/-!
# What the checker guarantees about a run

Every instruction that the checker accepts either ends the run or moves `pc`
forward inside the program. The run of an accepted program is therefore over
after at most `flen` instructions. It ends by a `RET` instruction or an explicit
`return 0`, unless an instruction accesses memory that is not mapped: the
ancillary load of the interface index goes through `skb->dev` without a check.
-/
namespace BooxKernel.Bpf
open List

variable {code : BitVec 16}
variable {s : State} {op : Opcode} {filter : List SockFilter} {fentry : SockFilter}

lemma decode_eq_some (h : decode code = some op) : op.code = code := by
  have hp := find?_some h
  simpa using hp

lemma class_ret (h : decode code = some op) (hret : bpfClass code = bpfRet)
    : op = .retK ∨ op = .retA := by
  rw [← decode_eq_some h] at hret
  cases op with
  | alu op src => revert hret; cases op <;> cases src <;> decide
  | jmp op src => revert hret; cases op <;> cases src <;> decide
  | ldAbs size => revert hret; cases size <;> decide
  | ldInd size => revert hret; cases size <;> decide
  | retK => exact .inl rfl
  | retA => exact .inr rfl
  | _ => exact absurd hret (by decide)

lemma chkLoop_getElem {flen pc : ℕ} (h : chkLoop flen pc filter = true) {i : ℕ}
    {ftest : SockFilter} (hi : filter[i]? = some ftest) : chkInsn flen (pc + i) ftest = true := by
  induction filter generalizing pc i with
  | nil => simp at hi
  | cons first rest ih =>
    unfold chkLoop at h
    split_ifs at h with hfirst
    cases i with
    | zero =>
      simp only [getElem?_cons_zero, Option.some.injEq] at hi
      rw [← hi]
      exact hfirst
    | succ i =>
      have hrest := ih h hi
      rwa [add_assoc, add_comm 1 i] at hrest

/-- What acceptance says about the program as a whole. -/
structure Accepted (filter : List SockFilter) : Prop where
  pos : 0 < filter.length
  bound : filter.length ≤ bpfMaxinsns
  insn : ∀ {i : ℕ} {ftest : SockFilter}, filter[i]? = some ftest →
    chkInsn filter.length i ftest = true
  last : ∀ {ftest : SockFilter}, filter[filter.length - 1]? = some ftest →
    bpfClass ftest.code = bpfRet

lemma accepted_of_chk (h : skChkFilter filter = 0) : Accepted filter := by
  unfold skChkFilter at h
  dsimp only at h
  split_ifs at h with hlen hloop
  · exact absurd h (by decide)
  · push Not at hlen
    refine ⟨by omega, hlen.2, ?_, ?_⟩
    · intro i ftest hi
      have hchk := chkLoop_getElem hloop hi
      rwa [zero_add] at hchk
    · intro ftest hlast
      rw [hlast] at h
      dsimp only at h
      split_ifs at h with hclass
      · exact hclass
      · exact absurd h (by decide)
  · exact absurd h (by decide)

/-- The ends of a run that the code provides for. -/
def Exit.proper : Exit → Bool
  | .ret _ => true
  | .return0 => true
  | _ => false

section Step
variable {pf : Platform} {skb : SkBuff} {pc off : BitVec 32} {flen : ℕ}

/-- An instruction is harmless at index `pc` of a program of `flen` instructions:
it ends the run properly or by an oops, or goes on at a later index. -/
def Next.Harmless (flen pc : ℕ) : Next → Prop
  | .exit e => e.proper = true ∨ e = .oops
  | .goOn s => pc < (s.pc + 1).toNat ∧ (s.pc + 1).toNat < flen

lemma toNat_add_one (h : pc.toNat < bpfMaxinsns) : (pc + 1).toNat = pc.toNat + 1 := by
  unfold bpfMaxinsns at h
  exact Nat.mod_eq_of_lt (by simp; omega)

lemma toNat_add_offset (h : pc.toNat + off.toNat + 1 < bpfMaxinsns) :
    (pc + off + 1).toNat = pc.toNat + off.toNat + 1 := by
  unfold bpfMaxinsns at h
  have hadd : (pc + off).toNat = pc.toNat + off.toNat := by
    exact Nat.mod_eq_of_lt (by omega)
  rw [toNat_add_one (by unfold bpfMaxinsns; omega), hadd]

section
variable (hbound : flen ≤ bpfMaxinsns) (hnext : s.pc.toNat + 1 < flen) (k : ℤ)
include hbound hnext

lemma harmless_next {s' : State} (hpc : s'.pc = s.pc) : (Next.goOn s').Harmless flen s.pc.toNat := by
  have hadd : (s'.pc + 1).toNat = s.pc.toNat + 1 := by
    rw [hpc]
    exact toNat_add_one (by omega)
  exact ⟨by omega, by omega⟩

lemma harmless_ancillary : (ancillary pf skb k s).Harmless flen s.pc.toNat := by
  unfold ancillary
  split_ifs
  · exact harmless_next hbound hnext rfl
  · exact harmless_next hbound hnext rfl
  · split
    · exact .inr rfl
    · exact harmless_next hbound hnext rfl
  · exact .inl rfl
  · exact .inl rfl
  · split
    · exact .inr rfl
    · exact harmless_next hbound hnext rfl
    · exact harmless_next hbound hnext rfl
  · exact .inl rfl

lemma harmless_load (size : Size) : (load pf skb size k s).Harmless flen s.pc.toNat := by
  unfold load
  split
  · exact .inr rfl
  · exact harmless_ancillary hbound hnext k
  · exact harmless_next hbound hnext rfl

end

lemma next_index (hacc : Accepted filter) (hf : filter[s.pc.toNat]? = some fentry)
    (hop : decode fentry.code = some op) (hk : op ≠ .retK) (ha : op ≠ .retA) :
    s.pc.toNat + 1 < filter.length := by
  have hlt : s.pc.toNat < filter.length := (List.getElem?_eq_some_iff.1 hf).1
  by_contra hlast
  have hpc : s.pc.toNat = filter.length - 1 := by omega
  rw [hpc] at hf
  rcases class_ret hop (hacc.last hf) with h | h
  · exact hk h
  · exact ha h

lemma harmless_jump (hbound : flen ≤ bpfMaxinsns) (hin : s.pc.toNat + off.toNat + 1 < flen) :
    (Next.goOn { s with pc := s.pc + off }).Harmless flen s.pc.toNat := by
  have hadd : (s.pc + off + 1).toNat = s.pc.toNat + off.toNat + 1 := toNat_add_offset (by omega)
  exact ⟨by dsimp only; omega, by dsimp only; omega⟩

lemma execInsn_harmless (hacc : Accepted filter) (hf : filter[s.pc.toNat]? = some fentry) :
    (execInsn pf skb fentry s).Harmless filter.length s.pc.toNat := by
  have hchk := hacc.insn hf
  have hbound := hacc.bound
  unfold chkInsn at hchk
  unfold execInsn
  cases hop : decode fentry.code with
  | none => simp [hop] at hchk
  | some op =>
    rw [hop] at hchk
    have hstep := next_index hacc hf hop
    have hgo : op ≠ .retK → op ≠ .retA → ∀ s' : State, s'.pc = s.pc →
        (Next.goOn s').Harmless filter.length s.pc.toNat :=
      fun hk ha _ hpc => harmless_next hbound (hstep hk ha) hpc
    cases op with
    | alu op src =>
      have halu := hgo (by simp) (by simp)
      cases op <;> cases src
      case div.x =>
        dsimp only
        split_ifs
        · exact .inl rfl
        · exact halu _ rfl
      case div.k =>
        rw [if_neg (of_decide_eq_true hchk)]
        exact halu _ rfl
      all_goals exact halu _ rfl
    | ja =>
      rw [Bool.not_eq_true', decide_eq_false_iff_not] at hchk
      exact harmless_jump hbound (by omega)
    | jmp op src =>
      dsimp only at hchk ⊢
      simp only [Bool.not_eq_true', Bool.or_eq_false_iff, decide_eq_false_iff_not] at hchk
      split_ifs
      · exact harmless_jump hbound (by rw [BitVec.toNat_setWidth_of_le (by decide)]; omega)
      · exact harmless_jump hbound (by rw [BitVec.toNat_setWidth_of_le (by decide)]; omega)
    | ldAbs size => exact harmless_load hbound (hstep (by simp) (by simp)) _ size
    | ldInd size => exact harmless_load hbound (hstep (by simp) (by simp)) _ size
    | ldxMsh =>
      dsimp only
      split
      · exact .inr rfl
      · exact .inl rfl
      · exact hgo (by simp) (by simp) _ rfl
    | retK => exact .inl rfl
    | retA => exact .inl rfl
    | ldMem | ldxMem | st | stx =>
      dsimp only at hchk ⊢
      rw [Bool.not_eq_true', decide_eq_false_iff_not, not_le] at hchk
      rw [dif_pos hchk]
      exact hgo (by simp) (by simp) _ rfl
    | _ => exact hgo (by simp) (by simp) _ rfl

end Step

section Access
variable {pf : Platform} {skb : SkBuff}

/-- A packet load at offset `k` accesses memory that is not mapped: the bytes of
the packet, the device of a packet without one, or the attributes searched. -/
def BadLoad (pf : Platform) (skb : SkBuff) (size : Size) (k : ℤ) (s : State) : Prop :=
  loadBytes skb k size.bytes = none ∨
  (k - skfAdOff = skfAdIfindex ∧ skb.dev = none) ∨
  (k - skfAdOff = skfAdNlattr ∧ skb.dataLen = 0 ∧
    (s.A.toNat : ℤ) ≤ ((skb.len.toNat : ℤ) - sizeofNlattr) % 2 ^ pf.bitsPerLong ∧
    nlaFind pf skb.memory (skb.data + s.A.toNat) (skb.len - s.A).toInt s.X.toInt = none)

/-- The instruction accesses memory that is not mapped. -/
def BadAccess (pf : Platform) (skb : SkBuff) (fentry : SockFilter) (s : State) : Prop :=
  match decode fentry.code with
  | some (.ldAbs size) => BadLoad pf skb size fentry.k.toInt s
  | some (.ldInd size) => BadLoad pf skb size (s.X + fentry.k).toInt s
  | some .ldxMsh => loadBytes skb fentry.k.toInt 1 = none
  | _ => False

lemma loadBytes_ancillary {k : ℤ} (h : 0 ≤ k - skfAdOff) (hneg : k < 0) (size : ℕ) :
    loadBytes skb k size = some none := by
  have hoff : k ≥ skfAdOff := by omega
  have hlt : ¬ k ≥ 0 := by omega
  simp [loadBytes, loadPointer, hlt, hoff]

lemma ancillary_oops {k : ℤ} : ancillary pf skb k s = .exit .oops ↔
    (k - skfAdOff = skfAdIfindex ∧ skb.dev = none) ∨
    (k - skfAdOff = skfAdNlattr ∧ skb.dataLen = 0 ∧
      (s.A.toNat : ℤ) ≤ ((skb.len.toNat : ℤ) - sizeofNlattr) % 2 ^ pf.bitsPerLong ∧
      nlaFind pf skb.memory (skb.data + s.A.toNat) (skb.len - s.A).toInt s.X.toInt = none) := by
  unfold ancillary
  by_cases hproto : k - skfAdOff = skfAdProtocol
  · simp [hproto, skfAdProtocol, skfAdIfindex, skfAdNlattr]
  by_cases htype : k - skfAdOff = skfAdPkttype
  · simp [htype, skfAdProtocol, skfAdPkttype, skfAdIfindex, skfAdNlattr]
  rw [if_neg hproto, if_neg htype]
  by_cases hindex : k - skfAdOff = skfAdIfindex
  · cases hdev : skb.dev <;> simp [hindex, skfAdIfindex, skfAdNlattr]
  rw [if_neg hindex]
  by_cases hattr : k - skfAdOff = skfAdNlattr
  · rw [if_pos hattr]
    by_cases hlinear : skb.dataLen ≠ 0
    · rw [if_pos hlinear]
      constructor
      · intro h
        simp at h
      · rintro (⟨h, _⟩ | ⟨_, h, _⟩)
        · exact absurd h hindex
        · exact absurd h hlinear
    rw [if_neg hlinear]
    by_cases hfar : (s.A.toNat : ℤ) > ((skb.len.toNat : ℤ) - sizeofNlattr) % 2 ^ pf.bitsPerLong
    · rw [if_pos hfar]
      simp [hindex, not_le.2 hfar]
    · rw [if_neg hfar]
      push Not at hlinear hfar
      cases hfind : nlaFind pf skb.memory (skb.data + s.A.toNat) (skb.len - s.A).toInt
          s.X.toInt with
      | none => simp [hattr, hlinear, hfar]
      | some found => cases found <;> simp [hindex]
  · simp [hattr, hindex]

lemma load_oops {size : Size} {k : ℤ} : load pf skb size k s = .exit .oops ↔
    BadLoad pf skb size k s := by
  unfold load BadLoad
  cases hbytes : loadBytes skb k size.bytes with
  | none => simp
  | some found =>
    cases found with
    | none => simp [ancillary_oops]
    | some bytes =>
      have hanc : ¬ (0 ≤ k - skfAdOff ∧ k < 0) := by
        rintro ⟨h, hneg⟩
        rw [loadBytes_ancillary h hneg] at hbytes
        simp at hbytes
      simp only [reduceCtorEq, false_or, false_iff, not_or, not_and, skfAdIfindex, skfAdNlattr,
        skfAdOff] at hanc ⊢
      exact ⟨fun h => by omega, fun h => by omega⟩

lemma execInsn_oops : execInsn pf skb fentry s = .exit .oops ↔ BadAccess pf skb fentry s := by
  unfold execInsn BadAccess
  cases hop : decode fentry.code with
  | none => simp
  | some op =>
    cases op with
    | alu op src =>
      cases op <;> cases src <;> dsimp only <;> (try split_ifs) <;> simp
    | ldAbs size => exact load_oops
    | ldInd size => exact load_oops
    | ldxMsh =>
      cases hbytes : loadBytes skb fentry.k.toInt 1 with
      | none => simp
      | some found => cases found <;> simp
    | ldMem | ldxMem | st | stx =>
      split_ifs <;> simp
    | _ => simp

end Access

section Runs
variable (pf : Platform) (skb : SkBuff)

section Rounds
variable {pf skb} {fuel : ℕ} {s' : State} {e : Exit}

section
variable (hin : s.pc.toInt < filter.length)
include hin

section
variable (hf : fetch filter s.pc = some fentry)
include hf

lemma runLoop_exit (hx : execInsn pf skb fentry s = .exit e) :
    runLoop pf skb filter (fuel + 1) s = ⟨[s], some e⟩ := by
  simp only [runLoop, hin, hf, hx, if_true]

lemma runLoop_goOn (hx : execInsn pf skb fentry s = .goOn s') :
    runLoop pf skb filter (fuel + 1) s =
      ⟨s :: (runLoop pf skb filter fuel { s' with pc := s'.pc + 1 }).executed,
        (runLoop pf skb filter fuel { s' with pc := s'.pc + 1 }).exit⟩ := by
  simp only [runLoop, hin, hf, hx, if_true]

lemma runLoop_first : (runLoop pf skb filter (fuel + 1) s).executed.head? = some s := by
  cases hx : execInsn pf skb fentry s with
  | exit e =>
    rw [runLoop_exit hin hf hx]
    rfl
  | goOn t =>
    rw [runLoop_goOn hin hf hx]
    rfl

end

end

end Rounds

lemma runLoop_oops (filter : List SockFilter) (fuel : ℕ) (s : State) :
    (runLoop pf skb filter fuel s).exit = some .oops ↔
      ∃ t ∈ (runLoop pf skb filter fuel s).executed, ∃ fentry, fetch filter t.pc = some fentry ∧
        BadAccess pf skb fentry t := by
  induction fuel generalizing s with
  | zero => simp [runLoop]
  | succ fuel ih =>
    by_cases hin : s.pc.toInt < filter.length
    · cases hf : fetch filter s.pc with
      | none => simp [runLoop, hin, hf]
      | some fentry =>
        have hbad : execInsn pf skb fentry s = .exit .oops ↔ BadAccess pf skb fentry s :=
          execInsn_oops
        cases hx : execInsn pf skb fentry s with
        | exit e =>
          rw [hx] at hbad
          rw [runLoop_exit hin hf hx]
          simpa [hf] using hbad
        | goOn s' =>
          rw [hx] at hbad
          have hgood : ¬ BadAccess pf skb fentry s := by simpa using hbad
          rw [runLoop_goOn hin hf hx]
          simpa [hf, hgood] using ih { s' with pc := s'.pc + 1 }
    · simp [runLoop, hin]

lemma toInt_eq_toNat {pc : BitVec 32} (h : pc.toNat < bpfMaxinsns) : pc.toInt = pc.toNat := by
  unfold bpfMaxinsns at h
  exact BitVec.toInt_eq_toNat_of_lt (by omega)

/-- What holds of the run of an accepted program from index `pc` on. -/
structure LoopSpec (filter : List SockFilter) (pc : ℕ) (r : RunResult) : Prop where
  ends : ∃ e, r.exit = some e ∧ (e.proper = true ∨ e = .oops)
  increasing : (r.executed.map fun t => t.pc.toNat).Pairwise (· < ·)
  count : r.executed.length ≤ filter.length - pc
  inside : ∀ t ∈ r.executed, pc ≤ t.pc.toNat ∧ t.pc.toNat < filter.length

lemma round_inside (hacc : Accepted filter) (hpc : s.pc.toNat < filter.length) :
    s.pc.toInt < filter.length ∧ ∃ fentry, fetch filter s.pc = some fentry ∧
      (execInsn pf skb fentry s).Harmless filter.length s.pc.toNat := by
  have hint := toInt_eq_toNat (lt_of_lt_of_le hpc hacc.bound)
  obtain ⟨fentry, hf⟩ : ∃ fentry, filter[s.pc.toNat]? = some fentry :=
    ⟨_, getElem?_eq_getElem hpc⟩
  refine ⟨by omega, fentry, ?_, execInsn_harmless hacc hf⟩
  unfold fetch
  rw [if_pos (by omega), hf]

/-- The run of an accepted program from an index inside it, with enough rounds. -/
lemma runLoop_accepted (hacc : Accepted filter) (fuel : ℕ) (s : State)
    (hpc : s.pc.toNat < filter.length) (hfuel : filter.length - s.pc.toNat ≤ fuel) :
    LoopSpec filter s.pc.toNat (runLoop pf skb filter fuel s) := by
  induction fuel generalizing s with
  | zero => omega
  | succ fuel ih =>
    obtain ⟨hin, fentry, hfetch, hstep⟩ := round_inside pf skb hacc hpc
    cases hx : execInsn pf skb fentry s with
    | exit e =>
      rw [hx] at hstep
      rw [runLoop_exit hin hfetch hx]
      refine ⟨⟨e, rfl, hstep⟩, by simp, by simp; omega, ?_⟩
      intro t ht
      rw [mem_singleton.1 ht]
      exact ⟨le_rfl, hpc⟩
    | goOn s' =>
      rw [hx] at hstep
      rw [runLoop_goOn hin hfetch hx]
      obtain ⟨hlt, hlen⟩ := hstep
      have hrest := ih { s' with pc := s'.pc + 1 } hlen (by dsimp only; omega)
      generalize runLoop pf skb filter fuel { s' with pc := s'.pc + 1 } = r at hrest ⊢
      have hcount : r.executed.length ≤ filter.length - (s'.pc + 1).toNat := hrest.count
      refine ⟨hrest.ends, ?_, by rw [length_cons]; omega, ?_⟩
      · rw [map_cons, pairwise_cons]
        exact ⟨forall_mem_map.2 fun t ht => lt_of_lt_of_le hlt (hrest.inside t ht).1,
          hrest.increasing⟩
      · exact forall_mem_cons.2 ⟨⟨le_rfl, hpc⟩,
          fun t ht => ⟨hlt.le.trans (hrest.inside t ht).1, (hrest.inside t ht).2⟩⟩

/-- The labels that index the scratch words by `k`. -/
def Opcode.indexesMem : Opcode → Bool
  | .ldMem => true
  | .ldxMem => true
  | .st => true
  | .stx => true
  | _ => false

/-- An executed instruction lies in the program and is one of the interpreter's
cases; a scratch word it names exists, and a constant it divides by is not 0. -/
def SoundInsn (filter : List SockFilter) (t : State) : Prop :=
  0 ≤ t.pc.toInt ∧ t.pc.toInt < filter.length ∧
  ∃ fentry, fetch filter t.pc = some fentry ∧ ∃ op, decode fentry.code = some op ∧
    (op.indexesMem = true → fentry.k.toNat < bpfMemwords) ∧
    (op = .alu .div .k → fentry.k ≠ 0)

lemma soundInsn_of_accepted (hacc : Accepted filter) {t : State}
    (hpc : t.pc.toNat < filter.length) : SoundInsn filter t := by
  have hint := toInt_eq_toNat (lt_of_lt_of_le hpc hacc.bound)
  obtain ⟨fentry, hf⟩ : ∃ fentry, filter[t.pc.toNat]? = some fentry :=
    ⟨_, getElem?_eq_getElem hpc⟩
  have hchk := hacc.insn hf
  unfold chkInsn at hchk
  refine ⟨by omega, by omega, fentry, ?_, ?_⟩
  · unfold fetch
    rw [if_pos (by omega), hf]
  · cases hop : decode fentry.code with
    | none => simp [hop] at hchk
    | some op =>
      rw [hop] at hchk
      refine ⟨op, rfl, ?_, ?_⟩
      · intro hmem
        cases op <;> simp only [Opcode.indexesMem, Bool.false_eq_true] at hmem
        all_goals simpa using hchk
      · rintro rfl
        exact of_decide_eq_true hchk

end Runs

/-- The run of an accepted program on any packet executes at most `flen`
instructions, with `pc` strictly increasing, all of them sound. It ends by a `RET`
instruction or an explicit `return 0` exactly when no instruction accesses memory
that is not mapped. -/
theorem accepted_run (pf : Platform) (skb : SkBuff) (filter : List SockFilter)
    (mem : Fin bpfMemwords → BitVec 32) (fuel : ℕ) (hchk : skChkFilter filter = 0)
    (hfuel : filter.length ≤ fuel) :
    (skRunFilter pf skb filter mem fuel).executed.length ≤ filter.length ∧
    ((skRunFilter pf skb filter mem fuel).executed.map fun t => t.pc.toInt).Pairwise (· < ·) ∧
    (∀ t ∈ (skRunFilter pf skb filter mem fuel).executed, SoundInsn filter t) ∧
    ((∃ e, (skRunFilter pf skb filter mem fuel).exit = some e ∧ e.proper = true) ↔
      ∀ t ∈ (skRunFilter pf skb filter mem fuel).executed, ∀ fentry,
        fetch filter t.pc = some fentry → ¬ BadAccess pf skb fentry t) := by
  have hacc := accepted_of_chk hchk
  have hspec := runLoop_accepted pf skb hacc fuel ⟨0, 0, mem, 0⟩ hacc.pos hfuel
  have hoops := runLoop_oops pf skb filter fuel ⟨0, 0, mem, 0⟩
  unfold skRunFilter
  generalize runLoop pf skb filter fuel ⟨0, 0, mem, 0⟩ = r at hspec hoops ⊢
  refine ⟨hspec.count, ?_, fun t ht => soundInsn_of_accepted hacc (hspec.inside t ht).2, ?_⟩
  · have hpc : ∀ t ∈ r.executed, t.pc.toInt = t.pc.toNat := fun t ht =>
      toInt_eq_toNat (lt_of_lt_of_le (hspec.inside t ht).2 hacc.bound)
    rw [pairwise_map]
    apply (pairwise_map.1 hspec.increasing).imp_of_mem
    intro a b ha hb hab
    rw [hpc a ha, hpc b hb]
    exact Int.ofNat_lt.2 hab
  · obtain ⟨e, he, hends⟩ := hspec.ends
    rw [he, Option.some.injEq] at hoops
    constructor
    · rintro ⟨e', he', hproper⟩ t ht fentry hf hbad
      have hee : e = e' := Option.some.inj (he.symm.trans he')
      rw [← hee, hoops.2 ⟨t, ht, fentry, hf, hbad⟩] at hproper
      exact absurd hproper (by decide)
    · intro hgood
      rcases hends with hproper | hx
      · exact ⟨e, he, hproper⟩
      · obtain ⟨t, ht, fentry, hf, hbad⟩ := hoops.1 hx
        exact absurd hbad (hgood t ht fentry hf)

/-- A linear packet of four bytes, all of them mapped, that no device received. -/
def packetWithoutDev : SkBuff where
  memory := fun a => if 0x1000 ≤ a ∧ a < 0x1004 then some 0 else none
  head := 0x1000
  data := 0x1000
  tail := 0x1004
  networkHeader := 0x1000
  macHeader := 0x1000
  len := 4
  dataLen := 0
  paged := []
  protocol := 0
  pktType := 0
  dev := none

def arm : Platform := ⟨32, false, fun _ _ => 0, fun _ _ => 0⟩

/-- Loading a byte of the packet and returning it. -/
theorem accepted_run_load :
    (skRunFilter arm packetWithoutDev [⟨0x30, 0, 0, 3⟩, ⟨0x16, 0, 0, 0⟩] (fun _ => 0) 2).exit =
      some (.ret 0) ∧
    ∀ t ∈ (skRunFilter arm packetWithoutDev [⟨0x30, 0, 0, 3⟩, ⟨0x16, 0, 0, 0⟩]
        (fun _ => 0) 2).executed, ∀ fentry,
      fetch [⟨0x30, 0, 0, 3⟩, ⟨0x16, 0, 0, 0⟩] t.pc = some fentry →
        ¬ BadAccess arm packetWithoutDev fentry t := by
  have hrun := accepted_run arm packetWithoutDev [⟨0x30, 0, 0, 3⟩, ⟨0x16, 0, 0, 0⟩] (fun _ => 0) 2
    (by decide) (by decide)
  exact ⟨by decide, hrun.2.2.2.1 ⟨.ret 0, by decide, rfl⟩⟩

/-- An accepted program that loads the interface index dereferences the NULL
`skb->dev` of a packet without a device. -/
theorem ifindex_without_dev :
    skChkFilter [⟨0x20, 0, 0, 0xfffff008⟩, ⟨0x16, 0, 0, 0⟩] = 0 ∧
    (skRunFilter arm packetWithoutDev [⟨0x20, 0, 0, 0xfffff008⟩, ⟨0x16, 0, 0, 0⟩]
      (fun _ => 0) 2).exit = some .oops := by
  decide

end BooxKernel.Bpf
