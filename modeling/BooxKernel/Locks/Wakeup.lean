import BooxKernel.Locks.RecordMap

/-!
# Waiters stay queued only where they conflict

A lock whose waiters are not woken up by a call is still in the list afterwards,
with the same owner, flags and type, and with at least the range it had. Hence a
waiter that stays queued still conflicts with the lock it is queued on.
-/
namespace BooxKernel.Locks
open Runs List FileLock

variable {ι Owner : Type*} {l l' rest m done done' : List (FileLock Owner)}
  {a b c fl g g' : FileLock Owner} {woken woken' : List ℕ}

/-- Lock `g'` is lock `g`, possibly with a larger range. -/
structure Grows (g g' : FileLock Owner) : Prop where
  addr : g'.addr = g.addr
  owner : g'.flOwner = g.flOwner
  flags : g'.flFlags = g.flFlags
  type : g'.flType = g.flType
  start : g'.flStart ≤ g.flStart
  stop : g.flEnd ≤ g'.flEnd

lemma Grows.refl (g : FileLock Owner) : Grows g g := ⟨rfl, rfl, rfl, rfl, le_rfl, le_rfl⟩

lemma Grows.trans (h : Grows a b) (h' : Grows b c) : Grows a c :=
  ⟨h'.addr.trans h.addr, h'.owner.trans h.owner, h'.flags.trans h.flags, h'.type.trans h.type,
    h'.start.trans h.start, h.stop.trans h'.stop⟩

lemma grows_widen (a b : FileLock Owner) : Grows a (widen a b) :=
  ⟨rfl, rfl, rfl, rfl, by simp, by simp⟩

/-- Every lock of `l` is still there, or its waiters have been woken. -/
def Covered (l : List (FileLock Owner)) (woken : List ℕ) (l' : List (FileLock Owner)) : Prop :=
  ∀ g ∈ l, g.addr ∈ woken ∨ ∃ g' ∈ l', Grows g g'

lemma Covered.trans (h : Covered l woken m) (hsub : woken ⊆ woken') (h' : Covered m woken' l') :
    Covered l woken' l' := by
  intro g hg
  rcases h g hg with hw | ⟨g', hm, hgrow⟩
  · exact .inl (hsub hw)
  · rcases h' g' hm with hw | ⟨g'', hm', hgrow'⟩
    · exact .inl (hgrow.addr ▸ hw)
    · exact .inr ⟨g'', hm', hgrow.trans hgrow'⟩

/-- What the visit of one lock has to show: the locks before it and the lock
itself are still there or woken, and those after it are not touched. -/
lemma Covered.visit (h : Covered l woken (done ++ fl :: rest)) (hsub : woken ⊆ woken')
    (hdone : Covered done woken' done') (hfl : fl.addr ∈ woken' ∨ ∃ fl' ∈ done', Grows fl fl')
    : Covered l woken' (done' ++ rest) := by
  refine h.trans hsub (forall_mem_append.2 ⟨fun d hd => ?_, forall_mem_cons.2
    ⟨?_, fun d hd => .inr ⟨d, mem_append_right _ hd, Grows.refl d⟩⟩⟩)
  · exact (hdone d hd).imp_right fun ⟨d', hm, hgrow⟩ => ⟨d', mem_append_left _ hm, hgrow⟩
  · exact hfl.imp_right fun ⟨fl', hm, hgrow⟩ => ⟨fl', mem_append_left _ hm, hgrow⟩

lemma Covered.of_subset (woken : List ℕ) (h : l ⊆ l') : Covered l woken l' :=
  fun g hg => .inr ⟨g, h hg, Grows.refl g⟩

lemma Grows.conflict [DecidableEq Owner] (h : Grows g g') {w : Request Owner}
    (hc : posixLocksConflict w g.toRequest = true) : posixLocksConflict w g'.toRequest = true := by
  have h1 := h.start
  have h2 := h.stop
  unfold posixLocksConflict locksOverlap posixSameOwner locksConflict at *
  simp only [h.flags, h.owner, h.type]
  all_goals simp_all
  all_goals omega

/-- Invariant of the pass about the locks it must not lose. -/
structure WakeInv (l : List (FileLock Owner)) (p : Pass Owner) (rest : List (FileLock Owner)) :
    Prop where
  covered : Covered l p.woken (p.done ++ rest)
  pointer : ∀ d ∈ p.done, d.addr = p.request.addr → d = p.request
  later : ∀ d ∈ rest, d.addr ≠ p.request.addr
  apart : ((p.done ++ rest).map addr).Nodup

namespace WakeInv
variable {p p' : Pass Owner} {fl : FileLock Owner}

section
variable (h : WakeInv l p (fl :: rest))
include h

lemma not_done : ∀ d ∈ p.done, d.addr ≠ fl.addr := by
  intro d hd he
  have hnd := h.apart
  rw [map_append, nodup_append] at hnd
  exact hnd.2.2 _ (mem_map_of_mem hd) _ mem_cons_self he

lemma not_rest : ∀ d ∈ rest, d.addr ≠ fl.addr := by
  intro d hd he
  have hnd := h.apart
  rw [map_append, map_cons, nodup_append, nodup_cons] at hnd
  exact hnd.2.1.1 (he ▸ mem_map_of_mem hd)

lemma apart_removed : ((p.done ++ rest).map addr).Nodup :=
  h.apart.sublist (((sublist_cons_self _ _).append_left _).map _)

lemma pass_over (hd : p'.done = p.done ++ [fl]) (hr : p'.request = p.request)
    (hw : p'.woken = p.woken) : WakeInv l p' rest := by
  have hsame : p'.done ++ rest = p.done ++ fl :: rest := by
    rw [hd, append_assoc, singleton_append]
  refine ⟨by rw [hw, hsame]; exact h.covered, ?_, ?_, by rw [hsame]; exact h.apart⟩
  · intro d hm he
    rw [hd, mem_append, mem_singleton] at hm
    rw [hr] at he ⊢
    rcases hm with hm | rfl
    · exact h.pointer d hm he
    · exact absurd he (h.later d mem_cons_self)
  · intro d hm
    rw [hr]
    exact h.later d (mem_cons_of_mem _ hm)

/-- The lock just visited becomes `fl'`, at the same address, and the request
points at it. Its waiters are woken unless it only grew. -/
lemma take_over (fl' : FileLock Owner) (haddr : fl'.addr = fl.addr)
    (hd : p'.done = p.done ++ [fl']) (hr : p'.request = fl') (hsub : p.woken ⊆ p'.woken)
    (hkeep : Grows fl fl' ∨ fl.addr ∈ p'.woken) : WakeInv l p' rest := by
  refine ⟨?_, ?_, ?_, ?_⟩
  · rw [hd]
    exact h.covered.visit hsub (.of_subset _ (subset_append_left _ _))
      (hkeep.symm.imp_right fun hk => ⟨fl', by simp, hk⟩)
  · intro d hm he
    rw [hd, mem_append, mem_singleton] at hm
    rw [hr] at he ⊢
    rcases hm with hm | rfl
    · exact absurd (he.trans haddr) (h.not_done d hm)
    · rfl
  · intro d hm
    rw [hr, haddr]
    exact h.not_rest d hm
  · have hsame : (p'.done ++ rest).map addr = (p.done ++ fl :: rest).map addr := by
      rw [hd]
      simp [haddr]
    rw [hsame]
    exact h.apart

lemma absorb (hd : p'.done = store p.request.addr (fun _ => widen p.request fl) p.done)
    (hr : p'.request = widen p.request fl) (hw : p'.woken = p.woken ++ [fl.addr]) :
    WakeInv l p' rest := by
  have hstored : ∀ d ∈ p.done, ∃ d' ∈ p'.done, Grows d d' := by
    intro d hm
    rw [hd]
    by_cases he : d.addr = p.request.addr
    · refine ⟨widen p.request fl, mem_map.2 ⟨d, hm, by rw [if_pos he]⟩, ?_⟩
      rw [h.pointer d hm he]
      exact grows_widen _ _
    · exact ⟨d, mem_map.2 ⟨d, hm, by rw [if_neg he]⟩, Grows.refl d⟩
  refine ⟨?_, ?_, ?_, ?_⟩
  · rw [hw]
    exact h.covered.visit (subset_append_left _ _) (fun d hm => .inr (hstored d hm))
      (.inl (by simp))
  · rw [hd, hr]
    intro d hm he
    obtain ⟨d0, _, rfl⟩ := mem_map.1 hm
    by_cases h0 : d0.addr = p.request.addr
    · rw [if_pos h0]
    · rw [if_neg h0] at he
      exact absurd he h0
  · intro d hm
    rw [hr]
    exact h.later d (mem_cons_of_mem _ hm)
  · have hsame : p'.done.map addr = p.done.map addr := by
      rw [hd, store, map_map]
      apply map_congr_left
      intro d _
      by_cases h0 : d.addr = p.request.addr
      · simp [h0]
      · simp [h0]
    rw [map_append, hsame, ← map_append]
    exact h.apart_removed

lemma remove (hd : p'.done = p.done) (hr : p'.request = p.request)
    (hw : p'.woken = p.woken ++ [fl.addr]) : WakeInv l p' rest := by
  refine ⟨?_, by rw [hd, hr]; exact h.pointer, ?_, by rw [hd]; exact h.apart_removed⟩
  · rw [hw, hd]
    exact h.covered.visit (subset_append_left _ _) (.of_subset _ (List.Subset.refl _))
      (.inl (by simp))
  · intro d hm
    rw [hr]
    exact h.later d (mem_cons_of_mem _ hm)

end

end WakeInv

lemma mem_trim (a : Option ℕ) (f : FileLock Owner → FileLock Owner) (hg : g ∈ l) :
    g.addr ∈ a.toList ∨ g ∈ (match a with | none => l | some a => store a f l) := by
  cases a with
  | none => exact .inr hg
  | some a =>
    by_cases ha : g.addr = a
    · exact .inl (by simp [ha])
    · exact .inr (mem_map.2 ⟨g, hg, if_neg ha⟩)

lemma placeLocks_covered (skipped rest inserted : List (FileLock Owner)) (p : Pass Owner)
    (newFl2 : ℕ) (hg : g ∈ skipped ++ p.done ++ rest) :
    g.addr ∈ (placeLocks skipped rest inserted p newFl2).woken ∨
      g ∈ (placeLocks skipped rest inserted p newFl2).list := by
  unfold placeLocks
  extract_lets split left whole trimmed trimmed'
  have hwhole : g ∈ whole := by
    simp only [whole, mem_append] at hg ⊢
    tauto
  have hright : g.addr ∈ p.right.toList ∨ g ∈ trimmed := mem_trim p.right _ hwhole
  rcases hright with hr | hr
  · exact .inl (mem_append_left _ (mem_append_right _ hr))
  · have hleft : g.addr ∈ left.toList ∨ g ∈ trimmed' := mem_trim left _ hr
    rcases hleft with hl | hl
    · exact .inl (mem_append_right _ hl)
    · exact .inr hl

lemma deref_eq_some (hnd : (l.map addr).Nodup) {a : ℕ}
    : deref l a = some b ↔ b ∈ l ∧ b.addr = a := by
  constructor
  · intro h
    exact ⟨mem_of_find?_eq_some h, by simpa using find?_some h⟩
  · rintro ⟨hm, ha⟩
    cases hd : deref l a with
    | none =>
      have hnone := find?_eq_none.1 hd b hm
      simp [ha] at hnone
    | some b' =>
      have hm' := mem_of_find?_eq_some hd
      have ha' : b'.addr = a := by simpa using find?_some hd
      rw [inj_on_of_nodup_map hnd hm' hm (ha'.trans ha.symm)]

variable [DecidableEq Owner]

lemma processLocks_covered {p : Pass Owner} (h : WakeInv l p rest) :
    Covered l (processLocks p rest).1.woken
      ((processLocks p rest).1.done ++ (processLocks p rest).2) := by
  induction rest generalizing p with
  | nil =>
    exact h.covered
  | cons fl rest ih =>
    unfold processLocks
    by_cases hown : !posixSameOwner p.request.toRequest fl.toRequest
    · rw [if_pos hown]
      exact h.covered
    rw [if_neg hown]
    by_cases htype : p.request.flType = fl.flType
    · rw [if_pos htype]
      by_cases hbefore : fl.flEnd < p.request.flStart - 1
      · rw [if_pos hbefore]
        exact ih (h.pass_over rfl rfl rfl)
      rw [if_neg hbefore]
      by_cases hafter : fl.flStart - 1 > p.request.flEnd
      · rw [if_pos hafter]
        exact h.covered
      rw [if_neg hafter]
      by_cases hadded : p.added = true
      · rw [if_pos hadded]
        exact ih (h.absorb rfl rfl rfl)
      · rw [if_neg hadded]
        exact ih (h.take_over (widen fl p.request) rfl rfl rfl (List.Subset.refl _)
          (.inl (grows_widen _ _)))
    · rw [if_neg htype]
      by_cases hbefore : fl.flEnd < p.request.flStart
      · rw [if_pos hbefore]
        exact ih (h.pass_over rfl rfl rfl)
      rw [if_neg hbefore]
      by_cases hafter : fl.flStart > p.request.flEnd
      · rw [if_pos hafter]
        exact h.covered
      rw [if_neg hafter]
      by_cases hright : fl.flEnd > p.request.flEnd
      · rw [if_pos hright]
        exact h.covered
      rw [if_neg hright]
      by_cases hinside : fl.flStart ≥ p.request.flStart
      · rw [if_pos hinside]
        by_cases hadded : (p.added || decide (p.request.flType = .unlck)) = true
        · rw [if_pos hadded]
          exact ih (h.remove rfl rfl rfl)
        · rw [if_neg hadded]
          exact ih (h.take_over { fl with
            flStart := p.request.flStart, flEnd := p.request.flEnd, flType := p.request.flType }
            rfl rfl rfl (subset_append_left _ _) (.inr (by simp)))
      · rw [if_neg hinside]
        exact ih (h.pass_over rfl rfl rfl)

lemma applyRequest_covered (r0 : FileLock Owner) (hnd : (l.map addr).Nodup)
    (hr0 : r0.addr ∉ l.map addr) (newFl newFl2 : Option ℕ) :
    Covered l (applyRequest l r0 newFl newFl2).woken (applyRequest l r0 newFl newFl2).list := by
  unfold applyRequest
  dsimp only
  generalize hother : (fun fl : FileLock Owner =>
    !fl.flFlags.posix || !posixSameOwner r0.toRequest fl.toRequest) = other
  have hl := takeWhile_append_dropWhile (p := other) (l := l)
  have hsub : (l.dropWhile other).Sublist l := dropWhile_sublist _
  have hstart : WakeInv (l.dropWhile other) ⟨[], r0, false, none, none, []⟩
      (l.dropWhile other) := by
    refine ⟨.of_subset _ (List.Subset.refl _), by simp, ?_, hnd.sublist (hsub.map _)⟩
    intro d hd he
    exact hr0 (he ▸ mem_map_of_mem (hsub.subset hd))
  have hpass := processLocks_covered hstart
  generalize processLocks ⟨[], r0, false, none, none, []⟩ (l.dropWhile other) = pass at hpass ⊢
  have hsame : Covered l pass.1.woken (l.takeWhile other ++ pass.1.done ++ pass.2) := by
    rw [append_assoc]
    nth_rewrite 1 [← hl]
    refine forall_mem_append.2 ⟨Covered.of_subset _ (subset_append_left _ _), ?_⟩
    exact hpass.trans (List.Subset.refl _) (.of_subset _ (subset_append_right _ _))
  have hplace : ∀ inserted a, Covered l
      (placeLocks (l.takeWhile other) pass.2 inserted pass.1 a).woken
      (placeLocks (l.takeWhile other) pass.2 inserted pass.1 a).list := by
    intro inserted a
    refine hsame.trans (fun b hb => mem_append_left _ (mem_append_left _ hb)) ?_
    exact fun g hg => (placeLocks_covered _ _ inserted pass.1 a hg).imp_right
      fun hm => ⟨g, hm, Grows.refl g⟩
  split_ifs
  any_goals exact hsame
  · cases newFl with
    | none => exact hsame
    | some a => exact hplace _ _
  · exact hplace _ _

/-- Every queued request is queued on a lock that is in the list of the inode
and conflicts with it. -/
def WaitersBlocked (s : LockState ι Owner) : Prop :=
  ∀ w ∈ s.blockedList, ∃ b, deref (s.iFlock w.inode) w.flNext = some b ∧
    posixLocksConflict w.request b.toRequest = true

/-- The waiters that a call leaves queued on the locks of its list are blocked
by what became of these locks. -/
lemma waiter_still_blocked {res : ListResult Owner} (hcov : Covered l res.woken res.list)
    (hnd : (l.map addr).Nodup) (hnd' : (res.list.map addr).Nodup)
    {w : Waiter ι Owner} (hw : w.flNext ∉ res.woken)
    (h : ∃ b, deref l w.flNext = some b ∧ posixLocksConflict w.request b.toRequest = true) :
    ∃ b, deref res.list w.flNext = some b ∧ posixLocksConflict w.request b.toRequest = true := by
  obtain ⟨b, hb, hconf⟩ := h
  obtain ⟨hm, ha⟩ := (deref_eq_some hnd).1 hb
  rcases hcov b hm with hwoken | ⟨b', hm', hgrow⟩
  · exact absurd (ha ▸ hwoken) hw
  · exact ⟨b', (deref_eq_some hnd').2 ⟨hm', hgrow.addr.trans ha⟩, hgrow.conflict hconf⟩

variable [DecidableEq ι]

lemma waitersBlocked_posixLockFile {s : LockState ι Owner} {inode : ι} {request : Request Owner}
    (alloc alloc2 : Bool) (hinv : ∀ i, ListInv s.fresh (s.iFlock i)) (hr : ValidRange request)
    (h : WaitersBlocked s) : WaitersBlocked (posixLockFile s inode request alloc alloc2).state := by
  have hinv' := step_listInv (e := .lock inode request alloc alloc2 _) hinv ⟨hr, rfl, rfl⟩
  revert hinv'
  unfold posixLockFile
  extract_lets needed newFl newFl2 conflict
  cases hc : conflict with
  | some fl =>
    simp only
    split_ifs
    · exact fun _ => h
    · exact fun _ => h
    · intro _ w hw
      rcases mem_cons.1 hw with rfl | hw
      · have ht : request.flType ≠ .unlck := by
          intro ht
          simp [conflict, ht] at hc
        simp only [conflict, if_pos ht] at hc
        have hconf := find?_some hc
        rw [Bool.and_eq_true] at hconf
        have hm := mem_of_find?_eq_some hc
        exact ⟨fl, (deref_eq_some (hinv inode).nodup).2 ⟨hm, rfl⟩, hconf.2⟩
      · exact h w hw
  | none =>
    simp only
    split_ifs with hacc
    · exact fun _ => h
    · intro hinv' w hw
      obtain ⟨hqueued, hkeep⟩ := mem_filter.1 hw
      by_cases hi : w.inode = inode
      · subst hi
        have hnd' := (hinv' w.inode).nodup
        simp only [Function.update_self] at hnd'
        have hfresh : s.fresh + 2 ∉ (s.iFlock w.inode).map addr := by
          intro hm
          have := (hinv w.inode).addr_lt _ hm
          omega
        have hcov := applyRequest_covered ⟨request, s.fresh + 2⟩ (hinv w.inode).nodup hfresh
          newFl newFl2
        simp only [decide_true, Bool.true_and, Bool.not_eq_true', decide_eq_false_iff_not] at hkeep
        simp only [Function.update_self]
        exact waiter_still_blocked hcov (hinv w.inode).nodup hnd' hkeep (h w hqueued)
      · simp only [Function.update_of_ne hi]
        exact h w hqueued

/-- No wake-up is lost: in every state that calls of any owners, with woken
waiters calling again, interrupted waiters and failing allocations can reach,
every request still queued is queued on a lock of its inode's list that conflicts
with it. -/
theorem no_lost_wakeup {s : LockState ι Owner} {es : List (Event ι Owner)}
    (hrun : Run Step LockState.initial es s) (w : Waiter ι Owner) (hw : w ∈ s.blockedList) :
    ∃ b ∈ s.iFlock w.inode, b.addr = w.flNext ∧
      posixLocksConflict w.request b.toRequest = true := by
  have hblocked : WaitersBlocked s := by
    clear hw
    induction hrun with
    | nil => exact fun w hw => absurd hw (by simp [LockState.initial])
    | @snoc _ e _ _ hrun hstep hblocked =>
      cases e with
      | lock inode request alloc alloc2 error =>
        obtain ⟨hr, _, rfl⟩ := hstep
        exact waitersBlocked_posixLockFile alloc alloc2 (run_listInv hrun) hr hblocked
      | interrupt waiter =>
        obtain ⟨_, rfl⟩ := hstep
        intro w hw
        exact hblocked w (mem_of_mem_erase hw)
  obtain ⟨b, hb, hconf⟩ := hblocked w hw
  obtain ⟨hm, ha⟩ := (deref_eq_some (run_listInv hrun w.inode).nodup).1 hb
  exact ⟨b, hm, ha, hconf⟩

/-- A writer queued behind a reader. -/
theorem writer_waits_for_reader :
    let s := (posixLockFile (LockState.initial : LockState Unit ℕ) ()
      ⟨1, ⟨true, false, false, false⟩, .rdlck, 0, 9⟩ true true).state
    let s' := (posixLockFile s () ⟨2, ⟨true, false, false, true⟩, .wrlck, 3, 5⟩ true true).state
    ∃ w ∈ s'.blockedList, ∃ b ∈ s'.iFlock w.inode, b.addr = w.flNext ∧
      posixLocksConflict w.request b.toRequest = true := by
  intro s s'
  have hw : ValidRange (⟨2, ⟨true, false, false, true⟩, .wrlck, 3, 5⟩ : Request ℕ) :=
    ⟨rfl, by decide, by decide, by decide⟩
  have hqueued : (⟨⟨2, ⟨true, false, false, true⟩, .wrlck, 3, 5⟩, (), 0⟩ : Waiter Unit ℕ) ∈
      s'.blockedList := by decide
  exact ⟨_, hqueued, no_lost_wakeup
    (run_reader.snoc (e := Event.lock () _ true true .eagain) ⟨hw, rfl, rfl⟩) _ hqueued⟩

end BooxKernel.Locks
