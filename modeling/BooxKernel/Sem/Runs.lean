import BooxKernel.Lib.Runs
import BooxKernel.Sem.Queue

/-!
# Runs of the semaphore array

Whenever the lock is released, every request in the queue has to wait. The undo
structure of a request is there as long as the request is: its task shares the undo
list, and only the last task to exit gives the list up.
-/
namespace BooxKernel.Sem
open Runs List Function

variable {τ υ : Type*} {s s' : State τ υ}

/-- The requests are well formed, and the undo lists are counted. -/
structure Tasks (s : State τ υ) : Prop where
  nums : ∀ q ∈ s.pending, ∀ sop ∈ q.sops, sop.semNum < s.nsems
  needs : ∀ q ∈ s.pending, ∀ sop ∈ q.sops, sop.semUndo = true → q.undo ≠ none
  found : ∀ q ∈ s.pending, ∀ u, q.undo = some u → u ∈ s.undo ∧ s.undoList q.sleeper = some u
  sleepers : (s.pending.map Request.sleeper).Nodup
  sleeping : ∀ q ∈ s.pending, s.status q.sleeper = eintr
  undo : s.undo.Nodup
  live : ∀ u ∈ s.undo, s.refcnt u ≠ 0
  counted : ∀ u, ∃ ts : Finset τ, (∀ t, t ∈ ts ↔ s.undoList t = some u) ∧ ts.card = s.refcnt u

lemma Tasks.of_sublist (h : Tasks s) (hpending : s'.pending <+ s.pending)
    (hnsems : s'.nsems = s.nsems) (hundo : s'.undo = s.undo) (hlist : s'.undoList = s.undoList)
    (hrefcnt : s'.refcnt = s.refcnt)
    (hsleeping : ∀ q ∈ s'.pending, s'.status q.sleeper = eintr) : Tasks s' where
  nums q hq := hnsems ▸ h.nums q (hpending.subset hq)
  needs q hq := h.needs q (hpending.subset hq)
  found q hq := hundo ▸ hlist ▸ h.found q (hpending.subset hq)
  sleepers := h.sleepers.sublist (hpending.map _)
  sleeping := hsleeping
  undo := hundo ▸ h.undo
  live := hundo ▸ hrefcnt ▸ h.live
  counted := hlist ▸ hrefcnt ▸ h.counted

lemma Tasks.updated (h : Tasks s) (hs' : Updated s s') : Tasks s' := by
  refine h.of_sublist hs'.pending hs'.nsems hs'.undo hs'.undoList hs'.refcnt fun q hq => ?_
  rw [hs'.status q.sleeper, h.sleeping q (hs'.pending.subset hq)]
  intro p hp hout heq
  exact hout (inj_on_of_nodup_map h.sleepers hp (hs'.pending.subset hq) heq ▸ hq)

variable [DecidableEq υ]

/-- What holds whenever the lock is not held. -/
structure Inv (s : State τ υ) : Prop where
  tasks : Tasks s
  inRange : InRange s.nsems s.semval
  waits : ∀ q ∈ s.pending, Waits s q

lemma Inv.of_tasks (h : Inv s) (htasks : Tasks s') (hnsems : s'.nsems = s.nsems)
    (hsemval : s'.semval = s.semval) (hpending : s'.pending ⊆ s.pending)
    (hsemadj : ∀ q ∈ s'.pending, s'.adjustments q.undo = s.adjustments q.undo) : Inv s' where
  tasks := htasks
  inRange := by
    rw [hnsems, hsemval]
    exact h.inRange
  waits q hq := (tryAtomicSemop_congr hsemval (hsemadj q hq)).trans (h.waits q (hpending hq))

variable [DecidableEq τ]

lemma updateQueue_inv (htasks : Tasks s) (hrange : InRange s.nsems s.semval) :
    Inv (updateQueue s) := by
  obtain ⟨hupdated, hwaits⟩ := updateQueue_spec htasks.sleepers
  exact ⟨htasks.updated hupdated, hupdated.nsems.symm ▸ hupdated.inRange hrange, hwaits⟩

section Undo
variable {t : τ} {u new : υ}

omit [DecidableEq υ] [DecidableEq τ] in
lemma Tasks.refcnt_ne_zero (h : Tasks s) (ht : s.undoList t = some u) : s.refcnt u ≠ 0 := by
  obtain ⟨ts, hts, hcard⟩ := h.counted u
  rw [← hcard]
  exact Finset.card_ne_zero_of_mem ((hts t).2 ht)

omit [DecidableEq υ] [DecidableEq τ] in
lemma Tasks.refcnt_unused (h : Tasks s) (hu : s.Unused u) : s.refcnt u = 0 := by
  obtain ⟨ts, hts, hcard⟩ := h.counted u
  rw [← hcard, Finset.card_eq_zero, Finset.eq_empty_iff_forall_notMem]
  exact fun t ht => hu t ((hts t).1 ht)

section
variable (h : Inv s) (hrunning : s.Running t)
include h hrunning

lemma Inv.share (hnone : s.undoList t = none) (u : υ) : Inv { s with
      undoList := update s.undoList t (some u)
      refcnt := update s.refcnt u (s.refcnt u + 1) } := by
  refine h.of_tasks { h.tasks with found := ?_, live := ?_, counted := ?_ } rfl rfl
    (List.Subset.refl _) fun _ _ => rfl
  · intro q hq u' hu'
    simp only [update_of_ne (hrunning q hq)]
    exact h.tasks.found q hq u' hu'
  · intro u' hu'
    show update s.refcnt u (s.refcnt u + 1) u' ≠ 0
    by_cases huu : u' = u
    · subst huu
      simp
    · rw [update_of_ne huu]
      exact h.tasks.live u' hu'
  · intro u'
    show ∃ ts : Finset τ, (∀ t', t' ∈ ts ↔ update s.undoList t (some u) t' = some u') ∧
      ts.card = update s.refcnt u (s.refcnt u + 1) u'
    obtain ⟨ts, hts, hcard⟩ := h.tasks.counted u'
    have hout : t ∉ ts := by simp [hts, hnone]
    by_cases huu : u' = u
    · subst huu
      refine ⟨insert t ts, fun t' => ?_, ?_⟩
      · by_cases htt : t' = t
        · simp [htt]
        · simp [htt, hts]
      · rw [Finset.card_insert_of_notMem hout, hcard, update_self]
    · refine ⟨ts, fun t' => ?_, by rw [update_of_ne huu, hcard]⟩
      by_cases htt : t' = t
      · simp [htt, hout, Ne.symm huu]
      · simp [htt, hts]

lemma getUndoList_spec (hnew : s.Unused new) : let r := getUndoList s t new
    Inv r.2 ∧ r.2.undoList t = some r.1 ∧ r.2.pending = s.pending ∧
      ∀ t', t' ≠ t → r.2.undoList t' = s.undoList t' := by
  intro r
  cases ht : s.undoList t with
  | some u =>
    have hr : r = (u, s) := by simp only [r, getUndoList, ht]
    rw [hr]
    exact ⟨h, ht, rfl, fun _ _ => rfl⟩
  | none =>
    have hr : r = (new, { s with
        undoList := update s.undoList t (some new)
        refcnt := update s.refcnt new (s.refcnt new + 1) }) := by
      simp only [r, getUndoList, ht, h.tasks.refcnt_unused hnew]
    rw [hr]
    exact ⟨h.share hrunning ht new, update_self _ _ _, rfl, fun t' hne => update_of_ne hne _ _⟩

lemma findUndo_inv (hnew : s.Unused new) : Inv (findUndo s t new) := by
  obtain ⟨hinv, hlist, -, -⟩ := getUndoList_spec h hrunning hnew
  simp only [findUndo]
  generalize getUndoList s t new = r at hinv hlist
  obtain ⟨u, s1⟩ := r
  split_ifs with hu
  · exact hinv
  · have hne : ∀ q ∈ s1.pending, q.undo ≠ some u :=
      fun q hq hqu => hu (hinv.tasks.found q hq u hqu).1
    refine hinv.of_tasks { hinv.tasks with
      found := ?_, live := ?_, undo := nodup_cons.2 ⟨hu, hinv.tasks.undo⟩ }
      rfl rfl (List.Subset.refl _) ?_
    · intro q hq u' hqu
      obtain ⟨hmem, hsleeper⟩ := hinv.tasks.found q hq u' hqu
      exact ⟨mem_cons_of_mem _ hmem, hsleeper⟩
    · exact forall_mem_cons.2 ⟨hinv.tasks.refcnt_ne_zero hlist, hinv.tasks.live⟩
    · intro q hq
      cases hqu : q.undo with
      | none => rfl
      | some u' =>
        have huu : u' ≠ u := fun heq => hne q hq (hqu.trans (congrArg some heq))
        exact update_of_ne huu _ _

lemma copySemundo_inv {child : τ} {share : Bool} (hchild : s.Running child)
    (hnone : s.undoList child = none) (hne : t ≠ child) (hnew : s.Unused new) :
    Inv (copySemundo s t child share new) := by
  simp only [copySemundo]
  split_ifs
  · obtain ⟨hinv, -, hpending, hother⟩ := getUndoList_spec h hrunning hnew
    rw [← hother child hne.symm] at hnone
    have hchild : ∀ q ∈ (getUndoList s t new).2.pending, q.sleeper ≠ child := hpending ▸ hchild
    exact hinv.share hchild hnone _
  · have hsame : update s.undoList child none = s.undoList := by
      rw [← hnone, update_eq_self]
    rwa [hsame]

end

end Undo

section Calls

variable {sops : List Sembuf} {pid semnum val semval : ℤ} {permitted : Bool} {t : τ}

omit [DecidableEq τ] in
lemma undoFor_spec {un : Option υ} (h : undoFor s t sops = some un) :
    (∀ sop ∈ sops, sop.semUndo = true → un ≠ none) ∧
      ∀ u, un = some u → u ∈ s.undo ∧ s.undoList t = some u := by
  unfold undoFor at h
  split_ifs at h with hany
  · cases hu : s.undoList t with
    | none => simp [hu] at h
    | some u =>
      simp only [hu] at h
      split_ifs at h with hmem
      obtain rfl : some u = un := Option.some.inj h
      exact ⟨fun _ _ _ => Option.some_ne_none u, fun u' hu' => Option.some.inj hu' ▸ ⟨hmem, rfl⟩⟩
  · obtain rfl : none = un := Option.some.inj h
    refine ⟨fun sop hsop hundo => absurd (any_eq_true.2 ⟨sop, hsop, hundo⟩) hany, ?_⟩
    intro u hu
    exact absurd hu (Option.some_ne_none u).symm

lemma lt_of_foldl_max_lt {n top : ℕ} (h : sops.foldl (fun top sop => max top sop.semNum) top < n) :
    top < n ∧ ∀ sop ∈ sops, sop.semNum < n := by
  induction sops generalizing top with
  | nil => exact ⟨h, fun _ hsop => absurd hsop not_mem_nil⟩
  | cons sop sops ih =>
    obtain ⟨hmax, hrest⟩ := ih h
    exact ⟨lt_of_le_of_lt (le_max_left _ _) hmax,
      forall_mem_cons.2 ⟨lt_of_le_of_lt (le_max_right _ _) hmax, hrest⟩⟩

lemma Inv.enqueue {q : Request τ υ} {pending : List (Request τ υ)} (h : Inv s)
    (hpending : pending.Perm (q :: s.pending)) (hrunning : s.Running q.sleeper)
    (hnums : ∀ sop ∈ q.sops, sop.semNum < s.nsems)
    (hneeds : ∀ sop ∈ q.sops, sop.semUndo = true → q.undo ≠ none)
    (hfound : ∀ u, q.undo = some u → u ∈ s.undo ∧ s.undoList q.sleeper = some u)
    (hwaits : Waits s q) :
    Inv { s with
      pending := pending
      status := update s.status q.sleeper eintr } := by
  have hall : ∀ {P : Request τ υ → Prop}, P q → (∀ p ∈ s.pending, P p) → ∀ p ∈ pending, P p :=
    fun hq hold p hp => (mem_cons.1 (hpending.mem_iff.1 hp)).elim (· ▸ hq) (hold p)
  refine ⟨{ h.tasks with
    nums := hall hnums h.tasks.nums, needs := hall hneeds h.tasks.needs,
    found := hall hfound h.tasks.found, sleepers := ?_,
    sleeping := hall (update_self ..) fun p hp => ?_ }, h.inRange,
    hall (hwaits.congr rfl rfl) fun p hp => (h.waits p hp).congr rfl rfl⟩
  · rw [(hpending.map Request.sleeper).nodup_iff, map_cons, nodup_cons]
    refine ⟨fun hin => ?_, h.tasks.sleepers⟩
    obtain ⟨p, hp, heq⟩ := mem_map.1 hin
    exact hrunning p hp heq
  · show update s.status q.sleeper eintr p.sleeper = eintr
    rw [update_of_ne (hrunning p hp)]
    exact h.tasks.sleeping p hp

lemma lockedSemop_inv {un : Option υ} (h : Inv s) (hrunning : s.Running t)
    (hnums : ∀ sop ∈ sops, sop.semNum < s.nsems)
    (hneeds : ∀ sop ∈ sops, sop.semUndo = true → un ≠ none)
    (hfound : ∀ u, un = some u → u ∈ s.undo ∧ s.undoList t = some u) :
    Inv (lockedSemop s t pid sops un).2 := by
  let q : Request τ υ := ⟨t, sops, un, pid, sops.any fun sop => sop.semOp != 0, rfl⟩
  have htried : Updated s (tryAtomicSemop s sops un pid).2 := updated_tried q
  simp only [lockedSemop]
  by_cases hle : (tryAtomicSemop s sops un pid).1 ≤ 0
  · rw [if_pos hle]
    by_cases hzero : (tryAtomicSemop s sops un pid).1 = 0
    · cases halter : sops.any fun sop => sop.semOp != 0 with
      | true =>
        simp only [hzero, Bool.true_and, beq_self_eq_true, if_true]
        exact updateQueue_inv (h.tasks.updated htried)
          (htried.nsems.symm ▸ tryAtomicSemop_inRange h.inRange)
      | false =>
        have hsame := tryAtomicSemop_of_not_alter s un pid (q.semOp_eq_zero halter)
        exact h.of_tasks (h.tasks.updated htried) htried.nsems hsame.1 htried.pending.subset
          fun _ _ => adjustments_congr hsame.2 _
    · simp only [beq_eq_false_iff_ne.2 hzero, Bool.and_false, Bool.false_eq_true, if_false]
      rw [tryAtomicSemop_ne_zero hzero]
      exact h
  · have hwaits : Waits s q := tryAtomicSemop_pos (not_le.1 hle)
    have hsame : (tryAtomicSemop s sops un pid).2 = s :=
      tryAtomicSemop_ne_zero (by rw [show _ = (1 : ℤ) from hwaits]; exact one_ne_zero)
    rw [if_neg hle, hsame]
    refine h.enqueue (q := q) ?_ hrunning hnums hneeds hfound hwaits
    split_ifs
    · exact perm_append_singleton q s.pending
    · exact List.Perm.refl _

lemma sysSemtimedop_inv {semopm : ℕ} (h : Inv s) (hrunning : s.Running t) :
    Inv (sysSemtimedop semopm s t pid sops permitted).2 := by
  unfold sysSemtimedop
  cases hun : undoFor s t sops with
  | none =>
    simp only
    split_ifs <;> exact h
  | some un =>
    obtain ⟨hneeds, hfound⟩ := undoFor_spec hun
    split_ifs with _ _ htop
    any_goals exact h
    exact lockedSemop_inv h hrunning (lt_of_foldl_max_lt (not_le.1 htop)).2 hneeds hfound

lemma interrupted_inv (h : Inv s) : Inv (interrupted s t) := by
  unfold interrupted
  split_ifs
  · have hsub := filter_sublist (p := fun q : Request τ υ => decide (q.sleeper ≠ t))
      (l := s.pending)
    exact h.of_tasks (h.tasks.of_sublist hsub rfl rfl rfl rfl fun q hq =>
      h.tasks.sleeping q (hsub.subset hq)) rfl rfl hsub.subset fun _ _ => rfl
  · exact h

lemma setval_inv (h : Inv s) : Inv (setval s semnum val pid permitted).2 := by
  simp only [setval]
  split_ifs with _ _ hval
  any_goals exact h
  apply updateQueue_inv
  · exact { h.tasks with }
  · intro i hi
    by_cases heq : i = semnum.toNat
    · subst heq
      simp only [update_self]
      omega
    · simp only [update_of_ne heq]
      exact h.inRange i hi

lemma setall_inv {semIo : ℕ → BitVec 16} (h : Inv s) : Inv (setall s semIo permitted).2 := by
  simp only [setall]
  split_ifs with _ hvals
  any_goals exact h
  apply updateQueue_inv
  · exact { h.tasks with }
  · intro i hi
    simp only [if_pos (show i < s.nsems from hi)]
    refine ⟨Int.natCast_nonneg _, ?_⟩
    by_contra hbig
    exact hvals ⟨i, hi, not_le.1 hbig⟩

/-- A task gives up its undo list, and the undo structure of a list that is given up by
the last task goes. -/
lemma Tasks.exit {u : υ} (h : Tasks s) (hrunning : s.Running t) (ht : s.undoList t = some u) :
    Tasks { s with
      undoList := update s.undoList t none
      refcnt := update s.refcnt u (s.refcnt u - 1)
      undo := if s.refcnt u - 1 = 0 then s.undo.erase u else s.undo } := by
  have hother : ∀ u', u' ≠ u → update s.refcnt u (s.refcnt u - 1) u' = s.refcnt u' :=
    fun u' hne => update_of_ne hne _ _
  have hcounted : ∀ u', ∃ ts : Finset τ,
      (∀ t', t' ∈ ts ↔ update s.undoList t none t' = some u') ∧
        ts.card = update s.refcnt u (s.refcnt u - 1) u' := by
    intro u'
    obtain ⟨ts, hts, hcard⟩ := h.counted u'
    have herase : ∀ t', t' ∈ ts.erase t ↔ update s.undoList t none t' = some u' := by
      intro t'
      by_cases htt : t' = t
      · simp [htt]
      · simp [htt, hts]
    refine ⟨ts.erase t, herase, ?_⟩
    by_cases huu : u' = u
    · subst huu
      rw [update_self, Finset.card_erase_of_mem ((hts t).2 ht), hcard]
    · have hout : t ∉ ts := by simp [hts, ht, Ne.symm huu]
      rw [hother u' huu, Finset.erase_eq_of_notMem hout, hcard]
  have hfound : ∀ q ∈ s.pending, ∀ u', q.undo = some u' →
      u' ∈ (if s.refcnt u - 1 = 0 then s.undo.erase u else s.undo) ∧
        update s.undoList t none q.sleeper = some u' := by
    intro q hq u' hu'
    obtain ⟨hmem, hsleeper⟩ := h.found q hq u' hu'
    have hsleeper : update s.undoList t none q.sleeper = some u' := by
      rw [update_of_ne (hrunning q hq), hsleeper]
    refine ⟨?_, hsleeper⟩
    split_ifs with hzero
    · have hne : u' ≠ u := by
        rintro rfl
        obtain ⟨ts, hts, hcard⟩ := hcounted u'
        rw [update_self, hzero, Finset.card_eq_zero] at hcard
        exact absurd ((hts q.sleeper).2 hsleeper) (by simp [hcard])
      exact (mem_erase_of_ne hne).2 hmem
    · exact hmem
  refine { h with found := hfound, undo := ?_, live := ?_, counted := hcounted }
  · split_ifs
    · exact h.undo.erase u
    · exact h.undo
  · show ∀ u' ∈ (if s.refcnt u - 1 = 0 then s.undo.erase u else s.undo),
      update s.refcnt u (s.refcnt u - 1) u' ≠ 0
    intro u' hu'
    split_ifs at hu' with hzero
    · obtain ⟨hne, hmem⟩ := h.undo.mem_erase_iff.1 hu'
      rw [hother u' hne]
      exact h.live u' hmem
    · by_cases huu : u' = u
      · subst huu
        rwa [update_self]
      · rw [hother u' huu]
        exact h.live u' hu'

lemma exitSem_inv (h : Inv s) (hrunning : s.Running t) : Inv (exitSem s t pid) := by
  unfold exitSem
  cases ht : s.undoList t with
  | none => exact h
  | some u =>
    have htasks := h.tasks.exit hrunning ht
    simp only [update_self]
    split_ifs with hzero
    · simp only [if_pos hzero] at htasks
      unfold exitUndo
      split_ifs with hu
      · apply updateQueue_inv
        · exact { htasks with }
        · intro i hi
          have := h.inRange i hi
          simp only [if_pos (show i < s.nsems from hi), adjusted]
          split_ifs <;> omega
      · rw [erase_of_not_mem hu] at htasks
        exact h.of_tasks htasks rfl rfl (List.Subset.refl _) fun _ _ => rfl
    · simp only [if_neg hzero] at htasks
      exact h.of_tasks htasks rfl rfl (List.Subset.refl _) fun _ _ => rfl

end Calls

section Runs
variable {semopm nsems : ℕ} {es : List (Event τ υ)}

lemma step_inv {e : Event τ υ} (h : Inv s) (hstep : Step semopm s e s') : Inv s' := by
  cases e with
  | clone parent child share new =>
    obtain ⟨hparent, hchild, hnone, hne, hnew, rfl⟩ := hstep
    exact copySemundo_inv h hparent hchild hnone hne hnew
  | findUndo t new =>
    obtain ⟨hrunning, hnew, rfl⟩ := hstep
    exact findUndo_inv h hrunning hnew
  | semop t pid sops permitted =>
    obtain ⟨hrunning, rfl⟩ := hstep
    exact sysSemtimedop_inv h hrunning
  | interrupt t =>
    obtain rfl := hstep
    exact interrupted_inv h
  | setval semnum val pid permitted =>
    obtain rfl := hstep
    exact setval_inv h
  | setall semIo permitted =>
    obtain rfl := hstep
    exact setall_inv h
  | exit t pid =>
    obtain ⟨hrunning, rfl⟩ := hstep
    exact exitSem_inv h hrunning

omit [DecidableEq τ] in
lemma new_inv (nsems : ℕ) : Inv (State.new τ υ nsems) := by
  refine ⟨⟨nofun, nofun, nofun, nodup_nil, nofun, nodup_nil, nofun, fun u => ⟨∅, ?_⟩⟩,
    fun i _ => ⟨le_refl 0, show (0 : ℤ) ≤ semvmx by decide⟩, nofun⟩
  simp [State.new]

/-- Whenever the lock is not held, the values are in range and every request in the
queue has to wait. -/
theorem no_runnable_sleeper (hrun : Run (Step semopm) (State.new τ υ nsems) es s) :
    (∀ i < s.nsems, 0 ≤ s.semval i ∧ s.semval i ≤ semvmx) ∧
      ∀ q ∈ s.pending, (tryAtomicSemop s q.sops q.undo q.pid).1 = 1 ∧
        (∀ sop ∈ q.sops, sop.semNum < s.nsems ∧ (sop.semUndo = true → q.undo ≠ none)) ∧
        ∀ u, q.undo = some u → u ∈ s.undo ∧ s.undoList q.sleeper = some u := by
  have h := hrun.invariant (I := Inv) (new_inv nsems) fun _ _ _ h hs => step_inv h hs
  refine ⟨h.inRange, fun q hq => ⟨h.waits q hq, fun sop hsop => ?_, h.tasks.found q hq⟩⟩
  exact ⟨h.tasks.nums q hq sop hsop, h.tasks.needs q hq sop hsop⟩

/-- A task that waits for a semaphore to be positive while another one looks for 0. -/
theorem no_runnable_sleeper_waiting :
    ∃ s : State ℕ ℕ, Run (Step 32) (State.new ℕ ℕ 1)
        [.semop 0 100 [⟨0, -1, false, false⟩] true, .semop 1 101 [⟨0, 0, false, false⟩] true] s ∧
      ∃ q ∈ s.pending, q.sleeper = 0 ∧ (tryAtomicSemop s q.sops q.undo q.pid).1 = 1 := by
  refine Exists.imp (fun s ⟨hrun, hpending⟩ => ⟨hrun, _, hpending ▸ mem_singleton_self _, rfl,
    ((no_runnable_sleeper hrun).2 _ (hpending ▸ mem_singleton_self _)).1⟩)
    (?_ : ∃ s : State ℕ ℕ, Run _ _ _ s ∧
      s.pending = [⟨0, [⟨0, -1, false, false⟩], none, 100, true, rfl⟩])
  refine ⟨_, .cons ⟨fun q hq => absurd hq not_mem_nil, rfl⟩ (.cons ⟨?_, rfl⟩ .nil), rfl⟩
  exact forall_mem_singleton.2 zero_ne_one

end Runs

end BooxKernel.Sem
