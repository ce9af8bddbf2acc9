import BooxKernel.Sem.Model

/-!
# What `try_atomic_semop` and `update_queue` do

`try_atomic_semop` answers from the values and the adjustments alone. It changes
nothing unless it answers 0, and then not even the adjustments if none of its
operations alters a semaphore. So a request that has to wait, waits as long as no
altering operation is done: that is why `update_queue` need only start again after one
of these.
-/
namespace BooxKernel.Sem
open List Function

variable {τ υ : Type*} {s : State τ υ}

/-- The values of the semaphores of the array are in range. -/
def InRange (nsems : ℕ) (semval : ℕ → ℤ) : Prop := ∀ i < nsems, 0 ≤ semval i ∧ semval i ≤ semvmx

lemma tryLoop_cons (semadj : ℕ → Short) (sop : Sembuf) (sops done : List Sembuf) (semval : ℕ → ℤ) :
    (∃ code ∈ ({1, eagain, erange} : Set ℤ),
      tryLoop semadj (sop :: sops) done semval = ⟨code, semval, done⟩) ∨
    ((sop.semOp = 0 → semval sop.semNum = 0) ∧
      (0 ≤ semval sop.semNum + sop.semOp.toInt ∧ semval sop.semNum + sop.semOp.toInt ≤ semvmx) ∧
      (sop.semUndo = true → -semaem - 1 ≤ (semadj sop.semNum).toInt - sop.semOp.toInt ∧
        (semadj sop.semNum).toInt - sop.semOp.toInt ≤ semaem) ∧
      tryLoop semadj (sop :: sops) done semval = tryLoop semadj sops (sop :: done)
        (update semval sop.semNum (semval sop.semNum + sop.semOp.toInt))) := by
  have hblock : wouldBlock sop ∈ ({1, eagain, erange} : Set ℤ) := by
    unfold wouldBlock
    split_ifs
    · exact .inr (.inl rfl)
    · exact .inl rfl
  simp only [tryLoop]
  split_ifs with hwait hneg hbig hundo
  · exact .inl ⟨_, hblock, rfl⟩
  · exact .inl ⟨_, hblock, rfl⟩
  · exact .inl ⟨_, .inr (.inr rfl), rfl⟩
  · exact .inl ⟨_, .inr (.inr rfl), rfl⟩
  · refine .inr ⟨fun hop => ?_, ⟨not_lt.1 hneg, not_lt.1 hbig⟩, fun hflag => ?_, rfl⟩
    · by_contra hne
      exact hwait ⟨hop, hne⟩
    · have hin := not_or.1 fun hout => hundo ⟨hflag, hout⟩
      exact ⟨not_lt.1 hin.1, not_lt.1 hin.2⟩

/-- The operations are applied one after the other: each leaves a value in range, and each that
waits for 0 finds it. -/
inductive Applied : List Sembuf → (ℕ → ℤ) → (ℕ → ℤ) → Prop
  | nil (semval : ℕ → ℤ) : Applied [] semval semval
  | cons {sop : Sembuf} {sops : List Sembuf} {semval semval' : ℕ → ℤ}
      (zero : sop.semOp = 0 → semval sop.semNum = 0)
      (nonneg : 0 ≤ semval sop.semNum + sop.semOp.toInt)
      (le : semval sop.semNum + sop.semOp.toInt ≤ semvmx)
      (rest : Applied sops (update semval sop.semNum (semval sop.semNum + sop.semOp.toInt))
        semval') :
      Applied (sop :: sops) semval semval'

/-- What the loop leaves, and what it has done if it got to the end. -/
structure Attempted (semadj : ℕ → Short) (sops done : List Sembuf) (semval : ℕ → ℤ)
    (r : Attempt) : Prop where
  code : r.code ∈ ({0, 1, eagain, erange} : Set ℤ)
  rolledBack : r.done.foldl rollBack r.semval = done.foldl rollBack semval
  inRange : ∀ {nsems}, InRange nsems semval → InRange nsems r.semval
  same : (∀ sop ∈ sops, sop.semOp = 0) → r.semval = semval
  done_eq : r.code = 0 → r.done = sops.reverse ++ done
  applied : r.code = 0 → Applied sops semval r.semval
  undo : r.code = 0 → ∀ sop ∈ sops, sop.semUndo = true →
    -semaem - 1 ≤ (semadj sop.semNum).toInt - sop.semOp.toInt ∧
      (semadj sop.semNum).toInt - sop.semOp.toInt ≤ semaem

lemma tryLoop_attempted (semadj : ℕ → Short) (sops done : List Sembuf) (semval : ℕ → ℤ) :
    Attempted semadj sops done semval (tryLoop semadj sops done semval) := by
  induction sops generalizing done semval with
  | nil => exact ⟨.inl rfl, rfl, id, fun _ => rfl, fun _ => rfl, fun _ => .nil semval, nofun⟩
  | cons sop sops ih =>
    obtain ⟨code, hcode, heq⟩ | ⟨hwait, hin, hundo, heq⟩ := tryLoop_cons semadj sop sops done semval
    · have hne : code ≠ 0 := by
        rintro rfl
        rcases hcode with h | h | h <;> exact absurd h (by decide)
      rw [heq]
      exact ⟨.inr hcode, rfl, id, fun _ => rfl, fun h => absurd h hne, fun h => absurd h hne,
        fun h => absurd h hne⟩
    · have hrest := ih (sop :: done) (update semval sop.semNum (semval sop.semNum + sop.semOp.toInt))
      rw [heq]
      refine { hrest with
        rolledBack := hrest.rolledBack.trans (by simp [rollBack])
        inRange := fun hsemval => hrest.inRange fun i hi => ?_
        same := fun halter => ?_
        done_eq := fun h => (hrest.done_eq h).trans (by simp)
        applied := fun h => .cons hwait hin.1 hin.2 (hrest.applied h)
        undo := fun h => forall_mem_cons.2 ⟨hundo, hrest.undo h⟩ }
      · by_cases hne : i = sop.semNum
        · rw [hne, update_self]
          exact hin
        · rw [update_of_ne hne]
          exact hsemval i hi
      · rw [hrest.same fun sop hsop => halter sop (mem_cons_of_mem _ hsop), halter sop mem_cons_self,
          show (0 : Short).toInt = 0 from rfl, add_zero, update_eq_self]

section TryAtomicSemop
variable [DecidableEq υ] {sops : List Sembuf} {un : Option υ} {pid : ℤ}

/-- What the second loop leaves alone. -/
structure SameButRecords (s s' : State τ υ) : Prop where
  nsems : s'.nsems = s.nsems
  semval : s'.semval = s.semval
  undo : s'.undo = s.undo
  pending : s'.pending = s.pending
  status : s'.status = s.status
  undoList : s'.undoList = s.undoList
  refcnt : s'.refcnt = s.refcnt

lemma foldl_record_same (done : List Sembuf) : SameButRecords s (done.foldl (record un pid) s) := by
  induction done generalizing s with
  | nil => exact ⟨rfl, rfl, rfl, rfl, rfl, rfl, rfl⟩
  | cons sop done ih =>
    have h := ih (s := record un pid s sop)
    exact ⟨h.nsems, h.semval, h.undo, h.pending, h.status, h.undoList, h.refcnt⟩

lemma foldl_record_semadj {done : List Sembuf} (halter : ∀ sop ∈ done, sop.semOp = 0) :
    (done.foldl (record un pid) s).semadj = s.semadj := by
  induction done generalizing s with
  | nil => rfl
  | cons sop done ih =>
    rw [foldl_cons, ih fun sop hsop => halter sop (mem_cons_of_mem _ hsop)]
    simp only [record]
    split
    · rw [halter sop mem_cons_self, sub_zero, update_eq_self, update_eq_self]
    · rfl

lemma tryAtomicSemop_code :
    (tryAtomicSemop s sops un pid).1 = (tryLoop (s.adjustments un) sops [] s.semval).code := by
  simp only [tryAtomicSemop]
  split_ifs with hcode
  · exact hcode.symm
  · rfl

lemma tryAtomicSemop_congr {s' : State τ υ} (hsemval : s'.semval = s.semval)
    (hsemadj : s'.adjustments un = s.adjustments un) :
    (tryAtomicSemop s' sops un pid).1 = (tryAtomicSemop s sops un pid).1 := by
  rw [tryAtomicSemop_code, tryAtomicSemop_code, hsemval, hsemadj]

lemma tryAtomicSemop_pos (h : 0 < (tryAtomicSemop s sops un pid).1) :
    (tryAtomicSemop s sops un pid).1 = 1 := by
  have hcode : (tryAtomicSemop s sops un pid).1 ∈ ({0, 1, eagain, erange} : Set ℤ) := by
    rw [tryAtomicSemop_code]
    exact (tryLoop_attempted ..).code
  rcases hcode with h0 | h1 | hneg | hneg
  · omega
  · exact h1
  · rw [hneg] at h
    exact absurd h (by decide)
  · rw [hneg] at h
    exact absurd h (by decide)

lemma tryAtomicSemop_ne_zero (h : (tryAtomicSemop s sops un pid).1 ≠ 0) :
    (tryAtomicSemop s sops un pid).2 = s := by
  rw [tryAtomicSemop_code] at h
  simp only [tryAtomicSemop, if_neg h]
  rw [(tryLoop_attempted ..).rolledBack, foldl_nil]

/-- A list of operations is done as a whole or not at all. -/
theorem try_atomic_semop_atomic (s : State τ υ) (sops : List Sembuf) (un : Option υ) (pid : ℤ) :
    ((tryAtomicSemop s sops un pid).1 ≠ 0 → (tryAtomicSemop s sops un pid).2 = s) ∧
    ((tryAtomicSemop s sops un pid).1 = 0 →
      Applied sops s.semval (tryAtomicSemop s sops un pid).2.semval) := by
  refine ⟨tryAtomicSemop_ne_zero, fun h => ?_⟩
  rw [tryAtomicSemop_code] at h
  simp only [tryAtomicSemop, if_pos h]
  rw [(foldl_record_same _).semval]
  exact (tryLoop_attempted ..).applied h

section
variable (sops : List Sembuf) (k : ℕ)

/-- The operations of the list that change the adjustment of a semaphore. -/
def undoOps : List Sembuf :=
  sops.filter fun sop => sop.semUndo && sop.semNum == k

/-- What these come to. -/
def undoSum : ℤ :=
  ((undoOps sops k).map fun sop => sop.semOp.toInt).sum

lemma undoSum_cons (sop : Sembuf) (sops : List Sembuf) (k : ℕ) :
    undoSum (sop :: sops) k =
      (if sop.semUndo && sop.semNum == k then sop.semOp.toInt else 0) + undoSum sops k := by
  simp only [undoSum, undoOps, filter_cons]
  split_ifs
  · rfl
  · exact (zero_add _).symm

lemma undoSum_reverse : undoSum sops.reverse k = undoSum sops k := by
  simp only [undoSum, undoOps, filter_reverse, map_reverse, sum_reverse]

end

lemma foldl_record_undo (done : List Sembuf) (u : υ) (k : ℕ) :
    (done.foldl (record (some u) pid) s).semadj u k =
      s.semadj u k - BitVec.ofInt 16 (undoSum done k) := by
  induction done generalizing s with
  | nil => simp [undoSum, undoOps]
  | cons sop done ih =>
    rw [foldl_cons, ih, undoSum_cons, BitVec.ofInt_add, ← sub_sub]
    cases hundo : sop.semUndo with
    | false => simp [record, hundo]
    | true =>
      by_cases hk : sop.semNum = k
      · subst hk
        simp [record, hundo]
      · simp [record, hundo, hk, update_of_ne (Ne.symm hk)]

/-- The adjustments take up the operations with `SEM_UNDO` exactly as long as they fit: if the
list has at most one for the semaphore, which is the one that was checked, or the sum fits. -/
theorem semadj_exact (s : State τ υ) (sops : List Sembuf) (u : υ) (pid : ℤ) (k : ℕ)
    (h : (tryAtomicSemop s sops (some u) pid).1 = 0) :
    (((tryAtomicSemop s sops (some u) pid).2.semadj u k).toInt =
        (s.semadj u k).toInt - undoSum sops k ∧
      -semaem - 1 ≤ ((tryAtomicSemop s sops (some u) pid).2.semadj u k).toInt ∧
      ((tryAtomicSemop s sops (some u) pid).2.semadj u k).toInt ≤ semaem) ↔
    ((undoOps sops k).length ≤ 1 ∨ (-semaem - 1 ≤ (s.semadj u k).toInt - undoSum sops k ∧
      (s.semadj u k).toInt - undoSum sops k ≤ semaem)) := by
  refine ⟨fun hexact => .inr (hexact.1 ▸ hexact.2), fun hfit => ?_⟩
  rw [tryAtomicSemop_code] at h
  have hin : -semaem - 1 ≤ (s.semadj u k).toInt - undoSum sops k ∧
      (s.semadj u k).toInt - undoSum sops k ≤ semaem := by
    refine hfit.elim (fun hone => ?_) id
    rcases hops : undoOps sops k with _ | ⟨sop, rest⟩
    · have hle := BitVec.toInt_le (x := s.semadj u k)
      have hge := BitVec.le_toInt (x := s.semadj u k)
      simp [undoSum, hops, semaem, semvmx]
      omega
    · rw [hops] at hone
      obtain rfl := length_eq_zero_iff.1 (Nat.le_zero.1 (Nat.le_of_succ_le_succ hone))
      obtain ⟨hmem, hsop⟩ := mem_filter.1 (hops ▸ mem_cons_self : sop ∈ undoOps sops k)
      obtain ⟨hundo, rfl⟩ : sop.semUndo = true ∧ sop.semNum = k := by simpa using hsop
      have hin := (tryLoop_attempted ..).undo h sop hmem hundo
      simpa [undoSum, hops, State.adjustments] using hin
  have heq : ((tryAtomicSemop s sops (some u) pid).2.semadj u k).toInt =
      (s.semadj u k).toInt - undoSum sops k := by
    simp only [tryAtomicSemop, if_pos h]
    have hval := BitVec.toInt_ofInt_eq_self (w := 16) (by decide) hin.1
      (Int.lt_add_one_iff.2 hin.2)
    rw [sub_eq_add_neg, BitVec.ofInt_add, BitVec.ofInt_toInt, BitVec.ofInt_neg,
      ← sub_eq_add_neg] at hval
    rw [foldl_record_undo, (tryLoop_attempted ..).done_eq h, append_nil, undoSum_reverse]
    exact hval
  exact ⟨heq, heq ▸ hin⟩

/-- Two operations with `SEM_UNDO` on a new array, and one without. -/
theorem semadj_exact_two :
    ((tryAtomicSemop (State.new Unit Unit 1)
      [⟨0, 5, false, true⟩, ⟨0, -1, false, false⟩, ⟨0, 7, false, true⟩] (some ()) 1).2.semadj
        () 0).toInt = -12 :=
  ((semadj_exact (State.new Unit Unit 1) [⟨0, 5, false, true⟩, ⟨0, -1, false, false⟩,
    ⟨0, 7, false, true⟩] () 1 0 (by decide)).2 (.inr (by decide))).1

/-- Each of the two operations with `SEM_UNDO` fits, but not both: 16 bits do not hold -40000. -/
theorem semadj_wraps :
    let sops : List Sembuf :=
      [⟨0, 20000, false, true⟩, ⟨0, -20000, false, false⟩, ⟨0, 20000, false, true⟩]
    let tried := tryAtomicSemop (State.new Unit Unit 1) sops (some ()) 1
    tried.1 = 0 ∧ undoSum sops 0 = 40000 ∧ (tried.2.semadj () 0).toInt = 25536 := by
  decide

lemma tryAtomicSemop_same (s : State τ υ) (sops : List Sembuf) (un : Option υ) (pid : ℤ) :
    let s' := (tryAtomicSemop s sops un pid).2
    SameButRecords { s with semval := s'.semval } s' := by
  simp only [tryAtomicSemop]
  split_ifs
  · have h : SameButRecords _ ((tryLoop (s.adjustments un) sops [] s.semval).done.foldl
        (record un pid)
        { s with semval := (tryLoop (s.adjustments un) sops [] s.semval).semval }) :=
      foldl_record_same _
    exact ⟨h.nsems, rfl, h.undo, h.pending, h.status, h.undoList, h.refcnt⟩
  · exact ⟨rfl, rfl, rfl, rfl, rfl, rfl, rfl⟩

lemma tryAtomicSemop_inRange (h : InRange s.nsems s.semval) :
    InRange s.nsems (tryAtomicSemop s sops un pid).2.semval := by
  by_cases hcode : (tryAtomicSemop s sops un pid).1 = 0
  · rw [tryAtomicSemop_code] at hcode
    simp only [tryAtomicSemop, if_pos hcode]
    rw [(foldl_record_same _).semval]
    exact (tryLoop_attempted ..).inRange h
  · rw [tryAtomicSemop_ne_zero hcode]
    exact h

lemma tryAtomicSemop_of_not_alter (s : State τ υ) (un : Option υ) (pid : ℤ)
    (halter : ∀ sop ∈ sops, sop.semOp = 0) :
    (tryAtomicSemop s sops un pid).2.semval = s.semval ∧
      (tryAtomicSemop s sops un pid).2.semadj = s.semadj := by
  by_cases hcode : (tryAtomicSemop s sops un pid).1 = 0
  · rw [tryAtomicSemop_code] at hcode
    simp only [tryAtomicSemop, if_pos hcode]
    constructor
    · rw [(foldl_record_same _).semval]
      exact (tryLoop_attempted ..).same halter
    · apply foldl_record_semadj
      rw [(tryLoop_attempted ..).done_eq hcode, append_nil]
      exact fun sop hsop => halter sop (mem_reverse.1 hsop)
  · rw [tryAtomicSemop_ne_zero hcode]
    exact ⟨rfl, rfl⟩

end TryAtomicSemop

section UpdateQueue

/-- The request really has to wait. -/
def Waits [DecidableEq υ] (s : State τ υ) (q : Request τ υ) : Prop :=
    (tryAtomicSemop s q.sops q.undo q.pid).1 = 1

variable {s' s1 s2 s3 : State τ υ}

lemma adjustments_congr (h : s'.semadj = s.semadj) (un : Option υ) :
    s'.adjustments un = s.adjustments un := by
  cases un with
  | none => rfl
  | some u => exact congrFun h u

variable {q : Request τ υ}

lemma Waits.congr [DecidableEq υ] (h : Waits s q) (hsemval : s'.semval = s.semval)
    (hsemadj : s'.semadj = s.semadj) : Waits s' q :=
  (tryAtomicSemop_congr hsemval (adjustments_congr hsemadj _)).trans h

lemma Request.semOp_eq_zero (h : q.alter = false) : ∀ sop ∈ q.sops, sop.semOp = 0 := by
  intro sop hsop
  rw [q.alter_eq, any_eq_false] at h
  simpa using h sop hsop

/-- What `update_queue` leaves alone, and what it does to the queue: requests are taken
off, and the status of their tasks is set. -/
structure Updated (s s' : State τ υ) : Prop where
  nsems : s'.nsems = s.nsems
  undo : s'.undo = s.undo
  undoList : s'.undoList = s.undoList
  refcnt : s'.refcnt = s.refcnt
  inRange : InRange s.nsems s.semval → InRange s.nsems s'.semval
  pending : s'.pending.Sublist s.pending
  status : ∀ t, (∀ q ∈ s.pending, q ∉ s'.pending → q.sleeper ≠ t) → s'.status t = s.status t

lemma Updated.trans (h₁ : Updated s1 s2) (h2 : Updated s2 s3) : Updated s1 s3 where
  nsems := h2.nsems.trans h₁.nsems
  undo := h2.undo.trans h₁.undo
  undoList := h2.undoList.trans h₁.undoList
  refcnt := h2.refcnt.trans h₁.refcnt
  inRange h := h₁.nsems ▸ h2.inRange (h₁.nsems.symm ▸ h₁.inRange h)
  pending := h2.pending.trans h₁.pending
  status t ht := by
    rw [h2.status t fun q hq hout => ht q (h₁.pending.subset hq) hout,
      h₁.status t fun q hq hout => ht q hq fun hin => hout (h2.pending.subset hin)]

variable [DecidableEq υ]

lemma updated_tried (q : Request τ υ) : Updated s (tryAtomicSemop s q.sops q.undo q.pid).2 := by
  have h := tryAtomicSemop_same s q.sops q.undo q.pid
  exact ⟨h.nsems, h.undo, h.undoList, h.refcnt, tryAtomicSemop_inRange,
    h.pending ▸ List.Sublist.refl _, fun t _ => congrFun h.status t⟩

variable [DecidableEq τ] {seen rest : List (Request τ υ)}

section
variable (hnodup : (s.pending.map Request.sleeper).Nodup)
include hnodup

omit [DecidableEq υ] in
lemma updated_removed (hpending : s.pending = seen ++ q :: rest) (error : ℤ) : Updated s { s with
      pending := seen ++ rest
      status := update s.status q.sleeper error } where
  nsems := rfl
  undo := rfl
  undoList := rfl
  refcnt := rfl
  inRange h := h
  pending := by
    rw [hpending]
    exact (sublist_cons_self q rest).append_left seen
  status t ht := by
    have hout : q ∉ seen ++ rest := by
      rw [hpending] at hnodup
      have := (nodup_middle.1 (List.Nodup.of_map _ hnodup))
      exact (nodup_cons.1 this).1
    have hne := ht q (hpending ▸ by simp) hout
    exact update_of_ne hne.symm _ _

lemma updated_tried_removed (hpending : s.pending = seen ++ q :: rest) :
    let tried := tryAtomicSemop s q.sops q.undo q.pid
    Updated s { tried.2 with
      pending := seen ++ rest
      status := update tried.2.status q.sleeper tried.1 } := by
  have htried := tryAtomicSemop_same s q.sops q.undo q.pid
  apply (updated_tried q).trans
  apply updated_removed
  · rw [htried.pending]
    exact hnodup
  · rw [htried.pending]
    exact hpending

/-- Every request that the loop leaves on the queue has to wait: those before the
position were tried, and nothing has been altered since. -/
lemma updateLoop_spec (hpending : s.pending = seen ++ rest) (hseen : ∀ q ∈ seen, Waits s q) :
    Updated s (updateLoop s seen rest) ∧
      ∀ q ∈ (updateLoop s seen rest).pending, Waits (updateLoop s seen rest) q := by
  induction s, seen, rest using updateLoop.induct with
  | case1 s seen =>
    rw [updateLoop]
    rw [append_nil] at hpending
    exact ⟨⟨rfl, rfl, rfl, rfl, id, List.Sublist.refl _, fun _ _ => rfl⟩, hpending ▸ hseen⟩
  | case2 s seen q rest tried hle s' halter ih =>
    have hs' : Updated s s' := updated_tried_removed hnodup hpending
    have hrest := ih (hnodup.sublist (hs'.pending.map _)) rfl fun _ hq => absurd hq not_mem_nil
    rw [updateLoop, if_pos hle, if_pos halter]
    exact ⟨hs'.trans hrest.1, hrest.2⟩
  | case3 s seen q rest tried hle s' halter ih =>
    have hs' : Updated s s' := updated_tried_removed hnodup hpending
    have hsame := tryAtomicSemop_of_not_alter s q.undo q.pid
      (q.semOp_eq_zero (Bool.not_eq_true _ ▸ halter))
    have hrest := ih (hnodup.sublist (hs'.pending.map _)) rfl
      fun p hp => (hseen p hp).congr hsame.1 hsame.2
    rw [updateLoop, if_pos hle, if_neg halter]
    exact ⟨hs'.trans hrest.1, hrest.2⟩
  | case4 s seen q rest tried hle ih =>
    have hwaits : Waits s q := tryAtomicSemop_pos (not_le.1 hle)
    have hsame : tried.2 = s := tryAtomicSemop_ne_zero (by rw [hwaits]; exact one_ne_zero)
    rw [hsame] at ih
    rw [updateLoop, if_neg hle, show (tryAtomicSemop s q.sops q.undo q.pid).2 = s from hsame]
    apply ih
    · exact hnodup
    · rw [hpending, append_assoc, singleton_append]
    · exact forall_mem_append.2 ⟨hseen, forall_mem_singleton.2 hwaits⟩

lemma updateQueue_spec :
    Updated s (updateQueue s) ∧ ∀ q ∈ (updateQueue s).pending, Waits (updateQueue s) q :=
  updateLoop_spec hnodup rfl fun _ hq => absurd hq not_mem_nil

end

end UpdateQueue

end BooxKernel.Sem
