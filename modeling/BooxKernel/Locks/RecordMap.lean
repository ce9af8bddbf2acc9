import BooxKernel.Lib.Runs
import BooxKernel.Locks.Apply

/-!
# Record locks as a map from owners and offsets to lock types

The list of an inode is read as a map: an owner holds an offset with the type of
its lock that covers the offset. Any number of owners call `__posix_lock_file` on
any number of inodes, sleeping waiters may be interrupted, and the allocations
made in advance may fail. Every granted request then updates exactly the map of
its owner on its range, and locks of different owners never clash.
-/
namespace BooxKernel.Locks
open Runs List Function Bool Option FileLock

variable {ι Owner : Type*} [DecidableEq ι] [DecidableEq Owner]

/-- The locks of one owner, in list order. -/
def ownerLocks (o : Owner) (l : List (FileLock Owner)) : List (FileLock Owner) :=
  l.filter fun fl => decide (fl.flOwner = o)

/-- The type with which `o` holds offset `x`, if it holds it at all. -/
def lockMap (l : List (FileLock Owner)) (o : Owner) (x : ℤ) : Option LockType :=
  (l.find? fun fl => decide (fl.flOwner = o ∧ fl.flStart ≤ x ∧ x ≤ fl.flEnd)).map
    fun fl => fl.flType

/-- What a granted request of a type leaves on its range. -/
def granted : LockType → Option LockType
  | .unlck => none
  | t => some t

def LockState.initial : LockState ι Owner := ⟨fun _ => [], [], 0⟩

inductive Event (ι Owner : Type*)
  | lock (inode : ι) (request : Request Owner) (alloc alloc2 : Bool) (error : Errno)
  | interrupt (waiter : Waiter ι Owner)

/-- One call of `__posix_lock_file`, or a signal to a sleeping waiter. A woken
waiter issues its request again as a new call. -/
def Step (s : LockState ι Owner) : Event ι Owner → LockState ι Owner → Prop
  | .lock inode request alloc alloc2 error, s' =>
    ValidRange request ∧ (posixLockFile s inode request alloc alloc2).error = error ∧
      s' = (posixLockFile s inode request alloc alloc2).state
  | .interrupt waiter, s' => waiter ∈ s.blockedList ∧ s' = locksDeleteBlock s waiter

variable {o : Owner} {fresh fresh' : ℕ} {l l' A G G' B F : List (FileLock Owner)}
  {fl : FileLock Owner} {s s' : LockState ι Owner} {request : Request Owner}

/-- The invariant of one lock list. -/
structure ListInv (fresh : ℕ) (l : List (FileLock Owner)) : Prop where
  nodup : (l.map addr).Nodup
  fresh : ∀ fl ∈ l, fl.addr < fresh
  contiguous : ∀ o, ownerLocks o l <:+: l
  group : ∀ o, Group o (ownerLocks o l)

lemma mem_ownerLocks : fl ∈ ownerLocks o l ↔ fl ∈ l ∧ fl.flOwner = o := by
  simp [ownerLocks]

lemma ownerLocks_append (o : Owner) (l r : List (FileLock Owner)) :
    ownerLocks o (l ++ r) = ownerLocks o l ++ ownerLocks o r := filter_append ..

lemma ownerLocks_eq_nil : ownerLocks o l = [] ↔ ∀ fl ∈ l, fl.flOwner ≠ o := by
  simp [ownerLocks]

lemma ownerLocks_eq_self (h : ∀ fl ∈ l, fl.flOwner = o) : ownerLocks o l = l := by
  simpa [ownerLocks] using h

lemma lockMap_eq_some (h : ListInv fresh l) (o : Owner) (x : ℤ) (t : LockType) :
    lockMap l o x = some t ↔ Holds (ownerLocks o l) x t := by
  unfold lockMap
  cases hf : l.find? fun fl => decide (fl.flOwner = o ∧ fl.flStart ≤ x ∧ x ≤ fl.flEnd) with
  | none =>
    simp only [map_none, reduceCtorEq, false_iff]
    rintro ⟨fl, hm, h1, h2, _⟩
    have hnone := find?_eq_none.1 hf fl (mem_ownerLocks.1 hm).1
    simp [(mem_ownerLocks.1 hm).2, h1, h2] at hnone
  | some fl =>
    have hm := mem_of_find?_eq_some hf
    have hp := find?_some hf
    simp only [decide_eq_true_eq] at hp
    have hholds : Holds (ownerLocks o l) x fl.flType :=
      ⟨fl, mem_ownerLocks.2 ⟨hm, hp.1⟩, hp.2.1, hp.2.2, rfl⟩
    simp only [map_some, some.injEq]
    constructor
    · rintro rfl
      exact hholds
    · exact (h.group o).holds_unique hholds

lemma ListInv.split (h : ListInv fresh l) (o : Owner) :
    ∃ A B, l = A ++ ownerLocks o l ++ B ∧ (∀ fl ∈ A, fl.flOwner ≠ o) ∧
      (∀ fl ∈ B, fl.flOwner ≠ o) ∧ (ownerLocks o l = [] → B = []) := by
  by_cases hnil : ownerLocks o l = []
  · exact ⟨l, [], by simp [hnil], ownerLocks_eq_nil.1 hnil, by simp, fun _ => rfl⟩
  · obtain ⟨A, B, hAB⟩ := h.contiguous o
    have hlen := congrArg (fun l => (ownerLocks o l).length) hAB
    simp only [ownerLocks_append, length_append] at hlen
    have hself : ownerLocks o (ownerLocks o l) = ownerLocks o l :=
      ownerLocks_eq_self fun fl hm => (mem_ownerLocks.1 hm).2
    rw [hself] at hlen
    have hA : ownerLocks o A = [] := eq_nil_of_length_eq_zero (by omega)
    have hB : ownerLocks o B = [] := eq_nil_of_length_eq_zero (by omega)
    exact ⟨A, B, hAB.symm, ownerLocks_eq_nil.1 hA, ownerLocks_eq_nil.1 hB,
      fun he => absurd he hnil⟩

omit [DecidableEq Owner] in
lemma infix_other (hG : ∀ fl ∈ G, fl.flOwner = o) (hF : ∀ fl ∈ F, fl.flOwner ≠ o)
    (hGB : G = [] → B = []) (h : F <:+: A ++ G ++ B) : F <:+: A ++ G' ++ B := by
  cases G with
  | nil =>
    rw [hGB rfl, append_nil, append_nil] at h
    rw [append_assoc]
    exact infix_append_of_infix_left h
  | cons g G =>
    rw [append_assoc, cons_append] at h
    rcases infix_append_iff.1 h with hA | hR | ⟨l1, l2, hl, h₁, h₂⟩
    · rw [append_assoc]
      exact infix_append_of_infix_left hA
    · rw [← cons_append] at hR
      rcases infix_append_iff.1 hR with hGF | hB | ⟨l1, l2, hl, h₁, h₂⟩
      · cases F with
        | nil => exact nil_infix
        | cons f F => exact absurd (hG f (hGF.subset (by simp))) (hF f (by simp))
      · exact infix_append_of_infix_right hB
      · cases l1 with
        | nil =>
          rw [hl]
          exact infix_append_of_infix_right h₂.isInfix
        | cons f l1 => exact absurd (hG f (h₁.subset (by simp))) (hF f (by simp [hl]))
    · cases l2 with
      | nil =>
        rw [hl, append_nil, append_assoc]
        exact infix_append_of_infix_left h₁.isInfix
      | cons f l2 =>
        have hfg : f = g := (cons_prefix_cons.1 h₂).1
        exact absurd (hG g (by simp)) (hF g (by simp [hl, hfg]))

lemma ListInv.mono (h : ListInv fresh l) (hle : fresh ≤ fresh') : ListInv fresh' l :=
  { h with fresh := fun fl hm => lt_of_lt_of_le (h.fresh fl hm) hle }

lemma ListInv.addr_lt (h : ListInv fresh l) : ∀ a ∈ l.map addr, a < fresh :=
  forall_mem_map.2 h.fresh

section Update
variable {A B G' : List (FileLock Owner)} {r0 : FileLock Owner} {newFl newFl2 : Option ℕ}

lemma ownerLocks_update (hA : ∀ fl ∈ A, fl.flOwner ≠ r0.flOwner)
    (hB : ∀ fl ∈ B, fl.flOwner ≠ r0.flOwner) (hG' : ∀ fl ∈ G', fl.flOwner = r0.flOwner) :
    ownerLocks r0.flOwner (A ++ G' ++ B) = G' := by
  rw [ownerLocks_append, ownerLocks_append, ownerLocks_eq_nil.2 hA, ownerLocks_eq_nil.2 hB,
    ownerLocks_eq_self hG']
  simp

lemma ownerLocks_update_other (ho : o ≠ r0.flOwner)
    (hl : l = A ++ ownerLocks r0.flOwner l ++ B) (hG' : ∀ fl ∈ G', fl.flOwner = r0.flOwner) :
    ownerLocks o (A ++ G' ++ B) = ownerLocks o l := by
  have hnil : ∀ M : List (FileLock Owner), (∀ fl ∈ M, fl.flOwner = r0.flOwner) →
      ownerLocks o M = [] :=
    fun M hM => ownerLocks_eq_nil.2 fun fl hm he => ho (he.symm.trans (hM fl hm))
  conv_rhs => rw [hl]
  rw [ownerLocks_append, ownerLocks_append, ownerLocks_append, ownerLocks_append, hnil G' hG',
    hnil _ fun fl hm => (mem_ownerLocks.1 hm).2]

lemma ListInv.update (h : ListInv fresh l) (hl : l = A ++ ownerLocks r0.flOwner l ++ B)
    (hA : ∀ fl ∈ A, fl.flOwner ≠ r0.flOwner) (hB : ∀ fl ∈ B, fl.flOwner ≠ r0.flOwner)
    (hGB : ownerLocks r0.flOwner l = [] → B = [])
    (hup : GroupUpdate r0 newFl newFl2 (ownerLocks r0.flOwner l) G')
    (hun : Unused l newFl newFl2) (h1 : ∀ a, newFl = some a → a < fresh + 3)
    (h2 : ∀ a, newFl2 = some a → a < fresh + 3) : ListInv (fresh + 3) (A ++ G' ++ B) := by
  have hG' := hup.group.owner
  have hmem : ∀ fl ∈ A ++ B, fl ∈ l := fun fl hm => by
    rw [hl]
    exact Lists.mem_append_middle.2 (.inr hm)
  have hnd : ((A ++ G' ++ B).map addr).Nodup := by
    apply nodup_replace (G := ownerLocks r0.flOwner l) (hl ▸ h.nodup) hup.nodup
    rw [← hl]
    exact fun a ha => (hup.addrs a ha).imp_right fun hn => hn.elim (hun.fst a) (hun.snd a)
  have hgroups : ∀ o, ownerLocks o (A ++ G' ++ B) <:+: A ++ G' ++ B ∧
      Group o (ownerLocks o (A ++ G' ++ B)) := by
    intro o
    by_cases ho : o = r0.flOwner
    · subst ho
      rw [ownerLocks_update hA hB hG']
      exact ⟨infix_append A G' B, hup.group⟩
    · rw [ownerLocks_update_other ho hl hG']
      have hcont := h.contiguous o
      conv at hcont => rhs; rw [hl]
      exact ⟨infix_other (fun fl hm => (mem_ownerLocks.1 hm).2)
        (fun fl hm he => ho ((mem_ownerLocks.1 hm).2.symm.trans he)) hGB hcont, h.group o⟩
  refine ⟨hnd, fun fl hm => ?_, fun o => (hgroups o).1, fun o => (hgroups o).2⟩
  · rcases Lists.mem_append_middle.1 hm with hm | hm
    · rcases hup.addrs fl.addr (mem_map_of_mem hm) with hg | hn | hn
      · obtain ⟨g, hg, haddr⟩ := mem_map.1 hg
        have := h.fresh g (mem_ownerLocks.1 hg).1
        omega
      · exact h1 _ hn
      · exact h2 _ hn
    · have := h.fresh fl (hmem fl hm)
      omega

end Update

section Calls
variable {s : LockState ι Owner} {inode : ι} {request : Request Owner} (alloc alloc2 : Bool)

/-- The list `l'` is `l` with the range of a granted request changed to its type. -/
def Updates (request : Request Owner) (l l' : List (FileLock Owner)) : Prop :=
  ∀ o x t, Holds (ownerLocks o l') x t ↔
    if o = request.flOwner ∧ request.flStart ≤ x ∧ x ≤ request.flEnd
    then request.flType = t ∧ t ≠ .unlck else Holds (ownerLocks o l) x t

lemma applyRequest_list (r0 : FileLock Owner) (newFl newFl2 : Option ℕ) {res : ListResult Owner}
    (h : ListInv fresh l) (hr : ValidRange r0.toRequest) (h1 : ∀ a, newFl = some a → a = fresh)
    (h2 : ∀ a, newFl2 = some a → a = fresh + 1) (hres : applyRequest l r0 newFl newFl2 = res) :
    (res.error = .success ∧ ListInv (fresh + 3) res.list ∧ Updates r0.toRequest l res.list) ∨
      (res.error ≠ .success ∧ res.list = l ∧ res.woken = []) := by
  subst hres
  obtain ⟨A, B, hl, hA, hB, hGB⟩ := h.split r0.flOwner
  have hun : Unused l newFl newFl2 := by
    refine ⟨fun a ha hm => ?_, fun a ha hm => ?_, fun a ha hb => ?_⟩
    · exact (h.addr_lt a hm).ne (h1 a ha)
    · have := h.addr_lt a hm
      have := h2 a ha
      omega
    · have := h1 a ha
      have := h2 a hb
      omega
  have hspec := applyRequest_spec (A := A) (B := B) (h.group r0.flOwner) hr
    (by rw [← hl]; exact h.nodup) (by rw [← hl]; exact hun) hA hB hGB (by rw [← hl])
  rw [← hl] at hspec
  rcases hspec with ⟨herr, G', hlist, hup⟩ | hfail
  · refine .inl ⟨herr, ?_, ?_⟩
    · rw [hlist]
      exact h.update hl hA hB hGB hup hun (fun a ha => by have := h1 a ha; omega)
        (fun a ha => by have := h2 a ha; omega)
    · intro o x t
      rw [hlist]
      by_cases ho : o = r0.flOwner
      · subst ho
        rw [ownerLocks_update hA hB hup.group.owner, hup.holds x t]
        simp
      · rw [ownerLocks_update_other ho hl hup.group.owner, if_neg (fun hc => ho hc.1)]
  · exact .inr hfail

lemma posixLockFile_cases {res : CallResult ι Owner} (h : ListInv s.fresh (s.iFlock inode))
    (hr : ValidRange request) (hres : posixLockFile s inode request alloc alloc2 = res) :
    (res.state.iFlock = s.iFlock ∧ s.fresh ≤ res.state.fresh ∧
      (res.error = .success → request.flFlags.access = true)) ∨
    (res.error = .success ∧ s.fresh ≤ res.state.fresh ∧
      (request.flType ≠ .unlck → ∀ fl ∈ s.iFlock inode,
        posixLocksConflict request fl.toRequest = false) ∧
      ∃ l', res.state.iFlock = update s.iFlock inode l' ∧ ListInv res.state.fresh l' ∧
        Updates request (s.iFlock inode) l') := by
  subst hres
  unfold posixLockFile
  extract_lets needed newFl newFl2 conflict
  cases hc : conflict with
  | some fl =>
    simp only
    split_ifs <;> exact .inl ⟨rfl, le_rfl, by simp⟩
  | none =>
    simp only
    split_ifs with hacc
    · exact .inl ⟨rfl, le_rfl, fun _ => hacc⟩
    · have hspec := applyRequest_list ⟨request, s.fresh + 2⟩ newFl newFl2 h hr
        (by intro a ha; simp only [newFl] at ha; split_ifs at ha; simpa using ha.symm)
        (by intro a ha; simp only [newFl2] at ha; split_ifs at ha; simpa using ha.symm) rfl
      rcases hspec with ⟨herr, hinv, hup⟩ | ⟨herr, hlist, _⟩
      · refine .inr ⟨herr, by simp, ?_, _, rfl, hinv, hup⟩
        intro ht fl hm
        simp only [conflict, if_pos ht] at hc
        have hnone := find?_eq_none.1 hc fl hm
        have hposix := ((h.group fl.flOwner).valid fl (mem_ownerLocks.2 ⟨hm, rfl⟩)).posix
        simpa [hposix] using hnone
      · refine .inl ⟨?_, by simp, fun he => absurd he herr⟩
        rw [hlist, update_eq_self]

end Calls

lemma step_listInv {e : Event ι Owner} (h : ∀ i, ListInv s.fresh (s.iFlock i))
    (hstep : Step s e s') : ∀ i, ListInv s'.fresh (s'.iFlock i) := by
  cases e with
  | lock inode request alloc alloc2 error =>
    obtain ⟨hr, _, rfl⟩ := hstep
    intro i
    rcases posixLockFile_cases alloc alloc2 (h inode) hr rfl with
      ⟨hlist, hfresh, _⟩ | ⟨_, hfresh, _, l', hlist, hinv, _⟩
    · rw [hlist]
      exact (h i).mono hfresh
    · rw [hlist]
      by_cases hi : i = inode
      · subst hi
        rw [update_self]
        exact hinv
      · rw [update_of_ne hi]
        exact (h i).mono hfresh
  | interrupt waiter =>
    obtain ⟨_, rfl⟩ := hstep
    exact h

lemma listInv_nil : ListInv 0 ([] : List (FileLock Owner)) where
  nodup := by simp
  fresh := by simp
  contiguous := by simp [ownerLocks]
  group := fun o => by
    simp only [ownerLocks, filter_nil]
    exact ⟨by simp, by simp, by simp, List.Pairwise.nil⟩

lemma run_listInv {es : List (Event ι Owner)} (h : Run Step LockState.initial es s)
    : ∀ i, ListInv s.fresh (s.iFlock i) :=
  h.invariant (fun _ => listInv_nil) fun _ _ _ ht hs => step_listInv ht hs

lemma lockMap_of_updates (h : ListInv fresh l) (h' : ListInv fresh' l')
    (hup : Updates request l l') (o : Owner) (x : ℤ) :
    lockMap l' o x =
      if o = request.flOwner ∧ request.flStart ≤ x ∧ x ≤ request.flEnd
      then granted request.flType else lockMap l o x := by
  apply ext
  intro t
  rw [lockMap_eq_some h', hup o x t]
  split_ifs with hin
  · cases request.flType <;> cases t <;> simp [granted]
  · rw [lockMap_eq_some h]

/-- Every call that returns 0 sets the requesting owner's map to the requested
type on the requested range and changes nothing else, and after every call the
locks of an owner stand together in the list, ordered, disjoint, and merged
wherever two of one type meet. -/
theorem posixLockFile_interval_map {s : LockState ι Owner} {es : List (Event ι Owner)}
    (hrun : Run Step LockState.initial es s) (inode : ι) (request : Request Owner)
    (alloc alloc2 : Bool) (hr : ValidRange request) (hacc : request.flFlags.access = false) :
    ((posixLockFile s inode request alloc alloc2).error = .success → ∀ i o x,
      lockMap ((posixLockFile s inode request alloc alloc2).state.iFlock i) o x =
        if i = inode ∧ o = request.flOwner ∧ request.flStart ≤ x ∧ x ≤ request.flEnd
        then granted request.flType else lockMap (s.iFlock i) o x) ∧
    ∀ i o,
      ownerLocks o ((posixLockFile s inode request alloc alloc2).state.iFlock i) <:+:
        (posixLockFile s inode request alloc alloc2).state.iFlock i ∧
      (ownerLocks o ((posixLockFile s inode request alloc alloc2).state.iFlock i)).Pairwise
        fun a b => a.flStart < b.flStart ∧ a.flEnd < b.flStart ∧
          (a.flType = b.flType → a.flEnd + 1 < b.flStart) := by
  have hinv := run_listInv hrun
  have hinv' := step_listInv (e := .lock inode request alloc alloc2 _) hinv ⟨hr, rfl, rfl⟩
  constructor
  · intro herr i o x
    rcases posixLockFile_cases alloc alloc2 (hinv inode) hr rfl with
      ⟨_, _, hself⟩ | ⟨_, _, _, l', hlist, hl', hup⟩
    · exact absurd ((hself herr).symm.trans hacc) (by decide)
    · rw [hlist]
      by_cases hi : i = inode
      · subst hi
        rw [update_self, lockMap_of_updates (hinv i) hl' hup]
        simp
      · rw [update_of_ne hi, if_neg (fun hc => hi hc.1)]
  · intro i o
    have hg := (hinv' i).group o
    refine ⟨(hinv' i).contiguous o, hg.pairwise.imp_of_mem ?_⟩
    intro a b ha _ hab
    have hv := (hg.valid a ha).start_le_end
    exact ⟨by have := hab.1; omega, hab.1, hab.2⟩

lemma run_reader : Run Step (LockState.initial : LockState Unit ℕ)
    [.lock () ⟨1, ⟨true, false, false, false⟩, .rdlck, 0, 9⟩ true true .success]
    (posixLockFile LockState.initial () ⟨1, ⟨true, false, false, false⟩, .rdlck, 0, 9⟩
      true true).state :=
  .cons ⟨⟨rfl, by decide, by decide, by decide⟩, rfl, rfl⟩ .nil

/-- A write lock in the middle of a read lock of the same owner. -/
theorem interval_map_split :
    lockMap ((posixLockFile (posixLockFile (LockState.initial : LockState Unit ℕ) ()
      ⟨1, ⟨true, false, false, false⟩, .rdlck, 0, 9⟩ true true).state ()
      ⟨1, ⟨true, false, false, false⟩, .wrlck, 3, 5⟩ true true).state.iFlock ()) 1 4 =
      some .wrlck := by
  have hw : ValidRange (⟨1, ⟨true, false, false, false⟩, .wrlck, 3, 5⟩ : Request ℕ) :=
    ⟨rfl, by decide, by decide, by decide⟩
  exact (posixLockFile_interval_map run_reader () _ true true hw rfl).1 rfl () 1 4

/-- A request that fails leaves the granted locks of all inodes as they were, although the checks
for memory come after the pass that merges, replaces and deletes locks. -/
theorem posix_lock_file_error_atomic {s : LockState ι Owner} {es : List (Event ι Owner)}
    (hrun : Run Step LockState.initial es s) (inode : ι) (request : Request Owner)
    (alloc alloc2 : Bool) (hr : ValidRange request)
    (herr : (posixLockFile s inode request alloc alloc2).error ≠ .success) :
    (posixLockFile s inode request alloc alloc2).state.iFlock = s.iFlock := by
  rcases posixLockFile_cases alloc alloc2 (run_listInv hrun inode) hr rfl with
    ⟨hlist, -, -⟩ | ⟨hsuccess, -⟩
  · exact hlist
  · exact absurd hsuccess herr

/-- There is no memory for the second part of a read lock that is to be split. -/
theorem split_without_memory :
    (posixLockFile (posixLockFile (LockState.initial : LockState Unit ℕ) ()
      ⟨1, ⟨true, false, false, false⟩, .rdlck, 0, 9⟩ true true).state ()
      ⟨1, ⟨true, false, false, false⟩, .wrlck, 3, 5⟩ true false).state.iFlock () =
    (posixLockFile (LockState.initial : LockState Unit ℕ) ()
      ⟨1, ⟨true, false, false, false⟩, .rdlck, 0, 9⟩ true true).state.iFlock () := by
  have hw : ValidRange (⟨1, ⟨true, false, false, false⟩, .wrlck, 3, 5⟩ : Request ℕ) :=
    ⟨rfl, by decide, by decide, by decide⟩
  exact congrFun (posix_lock_file_error_atomic run_reader () _ true false hw (by decide)) ()

/-- Locks of different owners that overlap are both read locks. -/
def Exclusive (l : List (FileLock Owner)) : Prop :=
  ∀ a ∈ l, ∀ b ∈ l, a.flOwner ≠ b.flOwner → locksOverlap a.toRequest b.toRequest = true →
    a.flType ≠ .wrlck ∧ b.flType ≠ .wrlck

lemma exclusive_iff (h : ListInv fresh l) :
    Exclusive l ↔ ∀ o o' x t t', o ≠ o' → Holds (ownerLocks o l) x t →
      Holds (ownerLocks o' l) x t' → t ≠ .wrlck := by
  constructor
  · rintro hex o o' x t t' ho ⟨a, ha, ha1, ha2, rfl⟩ ⟨b, hb, hb1, hb2, rfl⟩
    obtain ⟨hal, rfl⟩ := mem_ownerLocks.1 ha
    obtain ⟨hbl, rfl⟩ := mem_ownerLocks.1 hb
    refine (hex a hal b hbl ho ?_).1
    simp only [locksOverlap, and_eq_true, decide_eq_true_eq]
    omega
  · intro hh a ha b hb ho hov
    simp only [locksOverlap, and_eq_true, decide_eq_true_eq] at hov
    have ha' := mem_ownerLocks.2 ⟨ha, rfl⟩
    have hb' := mem_ownerLocks.2 ⟨hb, rfl⟩
    have hva := ((h.group a.flOwner).valid a ha').start_le_end
    have hvb := ((h.group b.flOwner).valid b hb').start_le_end
    have hA : Holds (ownerLocks a.flOwner l) (max a.flStart b.flStart) a.flType :=
      ⟨a, ha', by omega, by omega, rfl⟩
    have hB : Holds (ownerLocks b.flOwner l) (max a.flStart b.flStart) b.flType :=
      ⟨b, hb', by omega, by omega, rfl⟩
    exact ⟨hh _ _ _ _ _ ho hA hB, hh _ _ _ _ _ (Ne.symm ho) hB hA⟩

/-- A granted request takes an offset only where no other owner's lock conflicts
with it, and leaves the other owners' offsets alone. -/
lemma exclusive_of_updates (h : ListInv fresh l) (h' : ListInv fresh' l')
    (hup : Updates request l l') (hex : Exclusive l)
    (hfree : request.flType ≠ .unlck → ∀ fl ∈ l, posixLocksConflict request fl.toRequest = false)
    : Exclusive l' := by
  rw [exclusive_iff h] at hex
  rw [exclusive_iff h']
  have hforeign : ∀ o x t, o ≠ request.flOwner → request.flStart ≤ x → x ≤ request.flEnd →
      request.flType ≠ .unlck → Holds (ownerLocks o l) x t →
      t ≠ .wrlck ∧ request.flType ≠ .wrlck := by
    rintro o x t ho h1 h2 hu ⟨fl, hm, h3, h4, rfl⟩
    obtain ⟨hml, rfl⟩ := mem_ownerLocks.1 hm
    have hconf := hfree hu fl hml
    have hposix := ((h.group fl.flOwner).valid fl hm).posix
    have hov : locksOverlap request fl.toRequest = true := by
      simp only [locksOverlap, and_eq_true, decide_eq_true_eq]
      omega
    have hown : posixSameOwner request fl.toRequest = false := by
      simpa [posixSameOwner] using Ne.symm ho
    simp only [posixLocksConflict, hposix, hown, hov, Bool.not_true, Bool.or_self,
      false_eq_true, if_false, locksConflict] at hconf
    split_ifs at hconf with h5 h6
    exact ⟨h5, h6⟩
  intro o o' x t t' ho ht ht'
  rw [hup] at ht ht'
  split_ifs at ht with hin
  · obtain ⟨rfl, hu⟩ := ht
    rw [if_neg (fun hc => ho (hin.1.trans hc.1.symm))] at ht'
    exact (hforeign o' x t' (fun he => ho (hin.1.trans he.symm)) hin.2.1 hin.2.2 hu ht').2
  · split_ifs at ht' with hin'
    · obtain ⟨rfl, hu⟩ := ht'
      exact (hforeign o x t (fun he => ho (he.trans hin'.1.symm)) hin'.2.1 hin'.2.2 hu ht).1
    · exact hex o o' x t t' ho ht ht'

/-- Mutual exclusion: in every state that calls of any owners with any ranges,
types, flags and allocation failures can reach, a write lock overlaps no lock of
another owner. -/
theorem posix_locks_exclusive {s : LockState ι Owner} {es : List (Event ι Owner)}
    (hrun : Run Step LockState.initial es s) (i : ι) : Exclusive (s.iFlock i) := by
  induction hrun generalizing i with
  | nil =>
    intro a ha
    simp [LockState.initial] at ha
  | @snoc _ e _ _ hrun hstep hex =>
    have hinv := run_listInv hrun
    cases e with
    | lock inode request alloc alloc2 error =>
      obtain ⟨hr, _, rfl⟩ := hstep
      rcases posixLockFile_cases alloc alloc2 (hinv inode) hr rfl with
        ⟨hlist, _, _⟩ | ⟨_, _, hfree, l', hlist, hl', hup⟩
      · rw [hlist]
        exact hex i
      · rw [hlist]
        by_cases hi : i = inode
        · subst hi
          rw [update_self]
          exact exclusive_of_updates (hinv i) hl' hup (hex i) hfree
        · rw [update_of_ne hi]
          exact hex i
    | interrupt waiter =>
      obtain ⟨_, rfl⟩ := hstep
      exact hex i

/-- A reader next to a writer whose request was refused. -/
theorem exclusive_after_refusal :
    Exclusive ((posixLockFile (posixLockFile (LockState.initial : LockState Unit ℕ) ()
      ⟨1, ⟨true, false, false, false⟩, .rdlck, 0, 9⟩ true true).state ()
      ⟨2, ⟨true, false, false, true⟩, .wrlck, 3, 5⟩ true false).state.iFlock ()) := by
  have hw : ValidRange (⟨2, ⟨true, false, false, true⟩, .wrlck, 3, 5⟩ : Request ℕ) :=
    ⟨rfl, by decide, by decide, by decide⟩
  exact posix_locks_exclusive
    (run_reader.snoc (e := Event.lock () _ true false .eagain) ⟨hw, rfl, rfl⟩) ()

end BooxKernel.Locks
