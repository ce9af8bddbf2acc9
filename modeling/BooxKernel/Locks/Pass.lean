import BooxKernel.Locks.Model

/-!
# The pass over the locks of one owner

The pass rewrites the owner's locks in place. Its invariant `PassInv` splits what
was passed into the locks wholly below the request, the at most one lock that
sticks out of the request on the left, and the lock that holds the request once
one was found. Offsets outside the grown request are still held as before, and
it only ever grows over offsets the owner already holds with the same type.
-/
namespace BooxKernel.Locks
open List FileLock

variable {Owner : Type*}

/-- Lock `a` ends below `b`, with a gap when both have the same type. -/
def Before (a b : FileLock Owner) : Prop :=
  a.flEnd < b.flStart ∧ (a.flType = b.flType → a.flEnd + 1 < b.flStart)

/-- A list of locks holds offset `x` with type `t`. -/
def Holds (l : List (FileLock Owner)) (x : ℤ) (t : LockType) : Prop :=
  ∃ fl ∈ l, fl.flStart ≤ x ∧ x ≤ fl.flEnd ∧ fl.flType = t

/-- The ranges `__posix_lock_file` is called with. -/
structure ValidRange (fl : Request Owner) : Prop where
  posix : fl.flFlags.posix = true
  start_nonneg : 0 ≤ fl.flStart
  start_le_end : fl.flStart ≤ fl.flEnd
  end_le_max : fl.flEnd ≤ offsetMax

/-- The locks of one owner as the list keeps them. -/
structure Group (o : Owner) (G : List (FileLock Owner)) : Prop where
  owner : ∀ fl ∈ G, fl.flOwner = o
  valid : ∀ fl ∈ G, ValidRange fl.toRequest
  held : ∀ fl ∈ G, fl.flType ≠ .unlck
  pairwise : G.Pairwise Before

lemma Before.trans_of_valid {a b c : FileLock Owner} (hab : Before a b) (hbc : Before b c)
    (hb : b.flStart ≤ b.flEnd) : Before a c := by
  unfold Before at *
  exact ⟨by omega, fun _ => by omega⟩

lemma pairwise_around {l r : List (FileLock Owner)} {q : FileLock Owner}
    (hq : q.flStart ≤ q.flEnd) (hl : l.Pairwise Before) (hr : r.Pairwise Before)
    (hlq : ∀ a ∈ l, Before a q) (hqr : ∀ b ∈ r, Before q b) :
    (l ++ r).Pairwise Before ∧ (l ++ q :: r).Pairwise Before := by
  have hlr : ∀ a ∈ l, ∀ b ∈ r, Before a b :=
    fun a ha b hb => (hlq a ha).trans_of_valid (hqr b hb) hq
  exact ⟨pairwise_append.2 ⟨hl, hr, hlr⟩, pairwise_append.2 ⟨hl, pairwise_cons.2 ⟨hqr, hr⟩,
    fun a ha => forall_mem_cons.2 ⟨hlq a ha, hlr a ha⟩⟩⟩

lemma holds_append (l r : List (FileLock Owner)) (x : ℤ) (t : LockType) :
    Holds (l ++ r) x t ↔ Holds l x t ∨ Holds r x t := by
  simp only [Holds, mem_append, or_and_right, exists_or]

lemma holds_cons (fl : FileLock Owner) (l : List (FileLock Owner)) (x : ℤ) (t : LockType) :
    Holds (fl :: l) x t ↔ (fl.flStart ≤ x ∧ x ≤ fl.flEnd ∧ fl.flType = t) ∨ Holds l x t := by
  simp [Holds]

@[simp] lemma not_holds_nil (x : ℤ) (t : LockType) : ¬ Holds ([] : List (FileLock Owner)) x t := by
  simp [Holds]

section Store
variable (a : ℕ) (f : FileLock Owner → FileLock Owner) {l L r : List (FileLock Owner)}

lemma store_append (l r : List (FileLock Owner)) :
    store a f (l ++ r) = store a f l ++ store a f r := map_append

lemma store_of_not_mem (h : a ∉ l.map addr) : store a f l = l := by
  conv_rhs => rw [← map_id l]
  apply map_congr_left
  intro fl hfl
  have hne : fl.addr ≠ a := by
    rintro rfl
    exact h (mem_map_of_mem hfl)
  rw [if_neg hne, id]

lemma store_cons_self {fl : FileLock Owner} (ha : fl.addr = a) (h : a ∉ l.map addr)
    : store a f (fl :: l) = f fl :: l := by
  have hl := store_of_not_mem a f h
  simp only [store, map_cons, if_pos ha] at hl ⊢
  rw [hl]

lemma store_eq {x : FileLock Owner} (hL : L = l ++ x :: r) (h : (L.map addr).Nodup)
    : store x.addr f L = l ++ f x :: r := by
  rw [hL, map_append, map_cons, nodup_middle, nodup_cons, mem_append, not_or] at h
  rw [hL, store_append, store_of_not_mem _ f h.1.1, store_cons_self _ f rfl h.1.2]

end Store

/-- The lock of the list that `request` points at, once there is one. -/
def ownLock (r0 : FileLock Owner) (p : Pass Owner) : List (FileLock Owner) :=
  if p.added = true ∧ r0.flType ≠ .unlck then [p.request] else []

/-- Invariant of the pass started with request `r0` on the locks `G`, with
`rest` still to be visited. -/
structure PassInv (r0 : FileLock Owner) (G : List (FileLock Owner)) (p : Pass Owner)
    (kept lefts rest : List (FileLock Owner)) : Prop where
  done_eq : p.done = kept ++ lefts ++ ownLock r0 p
  right : p.right = none
  old : ∀ fl ∈ kept ++ lefts ++ rest, fl ∈ G
  pairwise : (kept ++ lefts ++ rest).Pairwise Before
  nodup : ((kept ++ lefts ++ ownLock r0 p ++ rest).map addr).Nodup
  addrs : ∀ fl ∈ ownLock r0 p, fl.addr ∈ G.map addr
  owner : p.request.flOwner = r0.flOwner
  type : p.request.flType = r0.flType
  valid : ValidRange p.request.toRequest
  same : p.added = false ∨ r0.flType = .unlck → p.request = r0
  wide : p.request.flStart ≤ r0.flStart ∧ r0.flEnd ≤ p.request.flEnd
  below : ∀ k ∈ kept, Before k p.request
  left : (lefts = [] ∧ p.left = none) ∨
    ∃ l, lefts = [l] ∧ p.left = some l.addr ∧ l.flType ≠ r0.flType ∧
      l.flStart < p.request.flStart ∧ p.request.flStart ≤ l.flEnd ∧ l.flEnd ≤ p.request.flEnd
  unlck : r0.flType = .unlck → lefts ≠ [] → p.added = true
  engaged : p.added = true ∨ lefts ≠ [] → ∀ b ∈ rest, p.request.flStart < b.flStart
  outside : ∀ x t, ¬ (p.request.flStart ≤ x ∧ x ≤ p.request.flEnd) →
    (Holds (kept ++ lefts ++ rest) x t ↔ Holds G x t)
  inside : ∀ x, p.request.flStart ≤ x → x ≤ p.request.flEnd →
    ¬ (r0.flStart ≤ x ∧ x ≤ r0.flEnd) → Holds G x r0.flType
  quiet : p.added = false → p.woken = [] ∧ kept ++ lefts ++ rest = G

/-- What the pass can end with: no lock sticks out on the right, a lock other
than the left one does, or one lock sticks out on both sides. -/
inductive PassEnd (r0 : FileLock Owner) (G : List (FileLock Owner)) :
    Pass Owner → List (FileLock Owner) → Prop
  | clear {p : Pass Owner} {kept lefts rest : List (FileLock Owner)} :
      PassInv r0 G p kept lefts rest → (∀ b ∈ rest, Before p.request b) → PassEnd r0 G p rest
  | right {p : Pass Owner} {kept lefts rest : List (FileLock Owner)} {fl : FileLock Owner} :
      PassInv r0 G p kept lefts (fl :: rest) → fl.flType ≠ r0.flType →
      p.request.flStart ≤ fl.flStart → fl.flStart ≤ p.request.flEnd →
      p.request.flEnd < fl.flEnd →
      PassEnd r0 G { p with
        added := p.added || decide (r0.flType = .unlck), right := some fl.addr } (fl :: rest)
  | both {p : Pass Owner} {kept rest : List (FileLock Owner)} {fl : FileLock Owner} :
      PassInv r0 G p kept [] (fl :: rest) → p.added = false → fl.flType ≠ r0.flType →
      fl.flStart < p.request.flStart → p.request.flEnd < fl.flEnd →
      PassEnd r0 G { p with
        added := decide (r0.flType = .unlck), left := some fl.addr, right := some fl.addr }
        (fl :: rest)

section Widen
variable (a b : FileLock Owner)

@[simp] lemma widen_flStart : (widen a b).flStart = min a.flStart b.flStart := by
  unfold widen
  simp only
  split_ifs <;> omega

@[simp] lemma widen_flEnd : (widen a b).flEnd = max a.flEnd b.flEnd := by
  unfold widen
  simp only
  split_ifs <;> omega

@[simp] lemma widen_flType : (widen a b).flType = a.flType := rfl

@[simp] lemma widen_addr : (widen a b).addr = a.addr := rfl

lemma widen_valid {a b : FileLock Owner} (ha : ValidRange a.toRequest)
    (hb : ValidRange b.toRequest) : ValidRange (widen a b).toRequest := by
  obtain ⟨h1, h2, h3, h4⟩ := ha
  obtain ⟨_, h6, h7, h8⟩ := hb
  refine ⟨h1, ?_, ?_, ?_⟩
  · rw [widen_flStart]
    omega
  · rw [widen_flStart, widen_flEnd]
    omega
  · rw [widen_flEnd]
    omega

end Widen

namespace PassInv

variable {r0 fl : FileLock Owner} {G kept lefts rest : List (FileLock Owner)} {p : Pass Owner}
  {o : Owner}

lemma start (hG : Group o G) (hnd : (G.map addr).Nodup)
    (hr : ValidRange r0.toRequest) : PassInv r0 G ⟨[], r0, false, none, none, []⟩ [] [] G where
  done_eq := by simp [ownLock]
  right := rfl
  old := by simp
  pairwise := by simpa using hG.pairwise
  nodup := by simpa [ownLock] using hnd
  addrs := by simp [ownLock]
  owner := rfl
  type := rfl
  valid := hr
  same := fun _ => rfl
  wide := ⟨le_rfl, le_rfl⟩
  below := by simp
  left := .inl ⟨rfl, rfl⟩
  unlck := by simp
  engaged := by simp
  outside := by simp
  inside := fun x h1 h2 h3 => absurd ⟨h1, h2⟩ h3
  quiet := fun _ => ⟨rfl, rfl⟩

lemma drop_sublist (kept lefts rest : List (FileLock Owner)) (fl : FileLock Owner) :
    (kept ++ lefts ++ rest).Sublist (kept ++ lefts ++ fl :: rest) :=
  (sublist_cons_self fl rest).append_left _

variable (h : PassInv r0 G p kept lefts (fl :: rest))
include h

lemma mem_old : fl ∈ G := h.old fl (by simp)

lemma before_rest : ∀ b ∈ rest, Before fl b :=
  (pairwise_cons.1 (pairwise_append.1 h.pairwise).2.1).1

lemma before_next : ∀ a ∈ kept ++ lefts, Before a fl :=
  fun a ha => (pairwise_append.1 h.pairwise).2.2 a ha fl (by simp)

lemma old_drop : ∀ b ∈ kept ++ lefts ++ rest, b ∈ G :=
  fun b hb => h.old b ((drop_sublist kept lefts rest fl).subset hb)

lemma pairwise_drop : (kept ++ lefts ++ rest).Pairwise Before :=
  h.pairwise.sublist (drop_sublist kept lefts rest fl)

lemma engaged_drop (hv : fl.flStart ≤ fl.flEnd) (hstart : p.request.flStart ≤ fl.flStart) :
    ∀ b ∈ rest, p.request.flStart < b.flStart := by
  intro b hb
  have hlt := (h.before_rest b hb).1
  omega

lemma idle (hfl : fl.flStart ≤ p.request.flStart) :
    p.added = false ∧ lefts = [] ∧ p.left = none ∧ p.request = r0 := by
  have hnot : ¬ (p.added = true ∨ lefts ≠ []) := by
    intro he
    have := h.engaged he fl (by simp)
    omega
  have hadded : p.added = false := by
    cases hp : p.added with
    | false => rfl
    | true => exact absurd (.inl hp) hnot
  have hlefts : lefts = [] := by
    by_contra hne
    exact hnot (.inr hne)
  refine ⟨hadded, hlefts, ?_, h.same (.inl hadded)⟩
  rcases h.left with ⟨_, hl⟩ | ⟨l, hl, _⟩
  · exact hl
  · simp [hlefts] at hl

lemma skip (hv : fl.flStart ≤ fl.flEnd) (hb : Before fl p.request) :
    PassInv r0 G { p with done := p.done ++ [fl] } (kept ++ [fl]) lefts rest := by
  obtain ⟨hadded, rfl, hleft, hreq⟩ := h.idle (by have := hb.1; omega)
  have hown : ∀ d, ownLock r0 { p with done := d } = [] := fun d => by simp [ownLock, hadded]
  have hlist : kept ++ [fl] ++ [] ++ rest = kept ++ [] ++ fl :: rest := by simp
  refine { h with
    done_eq := ?_, old := ?_, pairwise := ?_, nodup := ?_, addrs := ?_, below := ?_,
    engaged := ?_, outside := ?_, quiet := ?_ }
  · rw [hown, h.done_eq, show ownLock r0 p = [] from hown p.done]
    simp
  · rw [hlist]
    exact h.old
  · rw [hlist]
    exact h.pairwise
  · have hn := h.nodup
    rw [show ownLock r0 p = [] from hown p.done] at hn
    rw [hown]
    simpa using hn
  · rw [hown]
    simp
  · exact forall_mem_append.2 ⟨h.below, forall_mem_singleton.2 hb⟩
  · simp [hadded]
  · rw [hlist]
    exact h.outside
  · rw [hlist]
    exact h.quiet

lemma outside_drop {s e : ℤ} (hs : s ≤ p.request.flStart) (he : p.request.flEnd ≤ e)
    (hfs : s ≤ fl.flStart) (hfe : fl.flEnd ≤ e) (x : ℤ) (t : LockType) (hx : ¬ (s ≤ x ∧ x ≤ e)) :
    Holds (kept ++ lefts ++ rest) x t ↔ Holds G x t := by
  rw [← h.outside x t (by omega), holds_append, holds_append _ (fl :: rest), holds_cons]
  have hfl : ¬ (fl.flStart ≤ x ∧ x ≤ fl.flEnd ∧ fl.flType = t) := by omega
  simp only [hfl, false_or]

/-- A further lock of the request's type is merged into the lock that holds the
request, and deleted. -/
lemma merge_added (hG : Group o G) (hadded : p.added = true) (htype : p.request.flType = fl.flType)
    (hend : ¬ fl.flStart - 1 > p.request.flEnd) :
    PassInv r0 G { p with
      done := store p.request.addr (fun _ => widen p.request fl) p.done
      request := widen p.request fl
      woken := p.woken ++ [fl.addr] } kept lefts rest := by
  have hvfl := hG.valid fl h.mem_old
  have hunlck : r0.flType ≠ .unlck := by
    rw [← h.type, htype]
    exact hG.held fl h.mem_old
  have hstart := h.engaged (.inl hadded) fl (by simp)
  have hmin : min p.request.flStart fl.flStart = p.request.flStart := by omega
  have hown : ownLock r0 p = [p.request] := by simp [ownLock, hadded, hunlck]
  have hnd := h.nodup
  rw [hown] at hnd
  refine
    { done_eq := ?_, right := h.right, old := h.old_drop, pairwise := h.pairwise_drop,
      nodup := ?_, addrs := ?_, owner := h.owner, type := h.type, valid := widen_valid h.valid hvfl,
      same := ?_, wide := ?_, below := ?_, left := ?_, unlck := h.unlck, engaged := ?_,
      outside := ?_, inside := ?_, quiet := ?_ }
  · have hnotin : p.request.addr ∉ (kept ++ lefts).map addr := by
      intro hm
      rw [append_assoc, map_append] at hnd
      exact (nodup_append.1 hnd).2.2 _ hm _ (by simp) rfl
    simp only [ownLock, hadded, hunlck, h.done_eq, store_append, ne_eq, not_false_eq_true,
      and_self, if_true]
    rw [← store_append, store_of_not_mem _ _ hnotin, store_cons_self _ _ rfl (by simp)]
  · have hsub := (drop_sublist (kept ++ lefts) [p.request] rest fl).map addr
    simpa [ownLock, hadded, hunlck] using hnd.sublist hsub
  · have := h.addrs
    simpa [ownLock, hadded, hunlck] using this
  · rintro (hf | hu)
    · exact absurd (hadded.symm.trans hf) (by decide)
    · exact absurd hu hunlck
  · have := h.wide
    simp only [widen_flStart, widen_flEnd]
    omega
  · intro k hk
    have hb := h.below k hk
    simpa only [Before, widen_flStart, widen_flType, hmin] using hb
  · rcases h.left with hl | ⟨l, hl, hp, ht, h1, h2, h3⟩
    · exact .inl hl
    · refine .inr ⟨l, hl, hp, ht, ?_⟩
      simp only [widen_flStart, widen_flEnd, hmin]
      omega
  · intro _ b hb
    have hb' := h.engaged (.inl hadded) b (by simp [hb])
    simpa only [widen_flStart, hmin] using hb'
  · intro x t hx
    simp only [widen_flStart, widen_flEnd] at hx
    exact h.outside_drop (by omega) (by omega) (by omega) (by omega) x t hx
  · intro x h1 h2 h3
    simp only [widen_flStart, widen_flEnd] at h1 h2
    by_cases hx : x ≤ p.request.flEnd
    · exact h.inside x (by omega) hx h3
    · exact ⟨fl, h.mem_old, by omega, by omega, by rw [← htype, h.type]⟩
  · intro hf
    exact absurd (hadded.symm.trans hf) (by decide)

lemma merge_new (hG : Group o G) (ho : fl.flOwner = r0.flOwner) (hadded : p.added = false)
    (htype : p.request.flType = fl.flType) (hstart : ¬ fl.flEnd < p.request.flStart - 1)
    (hend : ¬ fl.flStart - 1 > p.request.flEnd) :
    PassInv r0 G { p with
      done := p.done ++ [widen fl p.request]
      request := widen fl p.request
      added := true } kept lefts rest := by
  have hvfl := hG.valid fl h.mem_old
  have hunlck : r0.flType ≠ .unlck := by
    rw [← h.type, htype]
    exact hG.held fl h.mem_old
  have hreq := h.same (.inl hadded)
  have hown : ownLock r0 p = [] := by simp [ownLock, hadded]
  have hlefts : lefts ≠ [] → p.request.flStart < fl.flStart :=
    fun hne => h.engaged (.inr hne) fl (by simp)
  have hvreq := h.valid
  refine
    { done_eq := ?_, right := h.right, old := h.old_drop, pairwise := h.pairwise_drop,
      nodup := ?_, addrs := ?_, owner := ho, type := htype.symm.trans h.type,
      valid := widen_valid hvfl hvreq,
      same := ?_, wide := ?_, below := ?_, left := ?_, unlck := fun _ _ => rfl, engaged := ?_,
      outside := ?_, inside := ?_, quiet := by simp }
  · simp [ownLock, hunlck, h.done_eq, hadded]
  · have hnd := h.nodup
    rw [hown] at hnd
    simpa [ownLock, hunlck] using hnd
  · simp only [ownLock, hunlck, ne_eq, not_false_eq_true, and_self, if_true, mem_singleton,
      forall_eq, widen_addr]
    exact mem_map_of_mem h.mem_old
  · simp [hunlck]
  · have := h.wide
    simp only [widen_flStart, widen_flEnd]
    omega
  · intro k hk
    have hb := h.below k hk
    have hb' := h.before_next k (mem_append_left _ hk)
    simp only [Before, widen_flStart, widen_flType] at hb hb' ⊢
    rw [htype] at hb
    refine ⟨by omega, fun ht => ?_⟩
    have h1 := hb.2 ht
    have h2 := hb'.2 ht
    omega
  · rcases h.left with hl | ⟨l, hl, hp, ht, h1, h2, h3⟩
    · exact .inl hl
    · have := hlefts (by simp [hl])
      refine .inr ⟨l, hl, hp, ht, ?_⟩
      simp only [widen_flStart, widen_flEnd]
      omega
  · intro _ b hb
    have hb' := (h.before_rest b hb).1
    have := hvfl.start_le_end
    simp only [widen_flStart]
    omega
  · intro x t hx
    simp only [widen_flStart, widen_flEnd] at hx
    exact h.outside_drop (by omega) (by omega) (by omega) (by omega) x t hx
  · intro x h1 h2 h3
    simp only [widen_flStart, widen_flEnd] at h1 h2
    rw [← hreq] at h3
    exact ⟨fl, h.mem_old, by omega, by omega, by rw [← htype, h.type]⟩

lemma delete (hG : Group o G)
    (hstart : p.request.flStart ≤ fl.flStart) (hend : fl.flEnd ≤ p.request.flEnd)
    (hgone : p.added = true ∨ r0.flType = .unlck) :
    PassInv r0 G { p with added := true, woken := p.woken ++ [fl.addr] } kept lefts rest := by
  have hvfl := hG.valid fl h.mem_old
  have hown : ∀ w, ownLock r0 { p with added := true, woken := w } = ownLock r0 p := by
    rcases hgone with ha | hu
    · simp [ownLock, ha]
    · simp [ownLock, hu]
  refine { h with
    done_eq := ?_, old := h.old_drop, pairwise := h.pairwise_drop, nodup := ?_, addrs := ?_,
    same := ?_, unlck := fun _ _ => rfl,
    engaged := fun _ => h.engaged_drop hvfl.start_le_end hstart, outside := ?_, quiet := by simp }
  · rw [hown]
    exact h.done_eq
  · rw [hown]
    exact h.nodup.sublist ((drop_sublist (kept ++ lefts) (ownLock r0 p) rest fl).map _)
  · rw [hown]
    exact h.addrs
  · rintro (hf | hu)
    · exact absurd hf (by simp)
    · exact h.same (.inr hu)
  · exact h.outside_drop le_rfl le_rfl hstart hend

lemma replace (hG : Group o G)
    (ho : fl.flOwner = r0.flOwner) (hadded : p.added = false) (hunlck : r0.flType ≠ .unlck)
    (hstart : p.request.flStart ≤ fl.flStart) (hend : fl.flEnd ≤ p.request.flEnd) :
    PassInv r0 G { p with
      done := p.done ++ [{ fl with
        flStart := p.request.flStart, flEnd := p.request.flEnd, flType := p.request.flType }]
      request := { fl with
        flStart := p.request.flStart, flEnd := p.request.flEnd, flType := p.request.flType }
      added := true
      woken := p.woken ++ [fl.addr] } kept lefts rest := by
  have hvfl := hG.valid fl h.mem_old
  have hown : ownLock r0 p = [] := by simp [ownLock, hadded]
  refine
    { done_eq := ?_, right := h.right, old := h.old_drop, pairwise := h.pairwise_drop,
      nodup := ?_, addrs := ?_, owner := ho, type := h.type, valid := ?_, same := ?_,
      wide := h.wide, below := h.below,
      left := h.left, unlck := fun _ _ => rfl,
      engaged := fun _ => h.engaged_drop hvfl.start_le_end hstart, outside := ?_,
      inside := h.inside, quiet := by simp }
  · simp [ownLock, hunlck, h.done_eq, hadded]
  · have hnd := h.nodup
    rw [hown] at hnd
    simpa [ownLock, hunlck] using hnd
  · simp only [ownLock, hunlck, ne_eq, not_false_eq_true, and_self, if_true, mem_singleton,
      forall_eq]
    exact mem_map_of_mem h.mem_old
  · exact ⟨hvfl.posix, h.valid.start_nonneg, h.valid.start_le_end, h.valid.end_le_max⟩
  · simp [hunlck]
  · exact h.outside_drop le_rfl le_rfl hstart hend

/-- A lock of another type that begins below the request and ends inside it is
remembered as the left one. -/
lemma stick_left (htype : fl.flType ≠ r0.flType)
    (hstart : fl.flStart < p.request.flStart) (hin : p.request.flStart ≤ fl.flEnd)
    (hend : fl.flEnd ≤ p.request.flEnd) :
    PassInv r0 G { p with
      done := p.done ++ [fl]
      added := p.added || decide (r0.flType = .unlck)
      left := some fl.addr } kept [fl] rest := by
  obtain ⟨hadded, rfl, hleft, hreq⟩ := h.idle hstart.le
  have hown : ownLock r0 p = [] := by simp [ownLock, hadded]
  have hown' : ∀ d, ownLock r0 { p with
      done := d, added := p.added || decide (r0.flType = .unlck), left := some fl.addr } = [] := by
    by_cases hu : r0.flType = .unlck <;> simp [ownLock, hadded, hu]
  have hlist : kept ++ [fl] ++ rest = kept ++ [] ++ fl :: rest := by simp
  refine { h with
    done_eq := ?_, old := ?_, pairwise := ?_, nodup := ?_, addrs := ?_, same := ?_, left := ?_,
    unlck := ?_, engaged := ?_, outside := ?_, quiet := ?_ }
  · rw [hown', h.done_eq, hown]
    simp
  · rw [hlist]
    exact h.old
  · rw [hlist]
    exact h.pairwise
  · have hnd := h.nodup
    rw [hown] at hnd
    rw [hown']
    simpa using hnd
  · rw [hown']
    simp
  · exact fun _ => hreq
  · exact .inr ⟨fl, rfl, rfl, htype, hstart, hin, hend⟩
  · intro hu _
    simp [hu]
  · intro _ b hb
    have hb' := (h.before_rest b hb).1
    simp only
    omega
  · rw [hlist]
    exact h.outside
  · rw [hlist]
    exact fun _ => h.quiet hadded

lemma before_all (hv : fl.flStart ≤ fl.flEnd)
    (hb : Before p.request fl) : ∀ b ∈ fl :: rest, Before p.request b :=
  forall_mem_cons.2 ⟨hb, fun b hm => hb.trans_of_valid (h.before_rest b hm) hv⟩

end PassInv

section Loop
variable [DecidableEq Owner] {r0 : FileLock Owner} {G kept lefts rest : List (FileLock Owner)}
  {p : Pass Owner} {o : Owner}

/-- The pass keeps its invariant and ends in one of the three ways. -/
lemma processLocks_end (hG : Group o G) (ho : r0.flOwner = o) (h : PassInv r0 G p kept lefts rest) :
    PassEnd r0 G (processLocks p rest).1 (processLocks p rest).2 := by
  induction rest generalizing p kept lefts with
  | nil => exact PassEnd.clear h (by simp [processLocks])
  | cons fl rest ih =>
    have hfl := h.mem_old
    have hv := (hG.valid fl hfl).start_le_end
    have hflo : fl.flOwner = r0.flOwner := (hG.owner fl hfl).trans ho.symm
    have hsame : posixSameOwner p.request.toRequest fl.toRequest = true := by
      simp [posixSameOwner, h.owner, hflo]
    rw [processLocks]
    simp only [hsame, Bool.not_true, Bool.false_eq_true, if_false]
    by_cases htype : p.request.flType = fl.flType
    · split_ifs with h1 h2 hadded
      · exact ih (h.skip hv ⟨by omega, fun _ => by omega⟩)
      · exact PassEnd.clear h (h.before_all hv ⟨by omega, fun _ => by omega⟩)
      · exact ih (h.merge_added hG hadded htype h2)
      · exact ih (h.merge_new hG hflo (by simpa using hadded) htype h1 h2)
    rw [if_neg htype]
    by_cases h1 : fl.flEnd < p.request.flStart
    · rw [if_pos h1]
      exact ih (h.skip hv ⟨h1, fun he => absurd he.symm htype⟩)
    rw [if_neg h1]
    by_cases h2 : fl.flStart > p.request.flEnd
    · rw [if_pos h2]
      exact PassEnd.clear h (h.before_all hv ⟨h2, fun he => absurd he htype⟩)
    rw [h.type] at htype ⊢
    by_cases hleft : fl.flStart < p.request.flStart
    · obtain ⟨hadded, rfl, _, _⟩ := h.idle hleft.le
      split_ifs with h3 h4
      · rw [hadded]
        exact PassEnd.both h hadded (Ne.symm htype) hleft h3
      · omega
      · omega
      · exact ih (h.stick_left (Ne.symm htype) hleft (by omega) (by omega))
    · split_ifs with h3 h4 hdel
      · exact PassEnd.right h (Ne.symm htype) (by omega) (by omega) h3
      · rw [hdel]
        exact ih (h.delete hG h4 (by omega) (by simpa using hdel))
      · have hnot : p.added = false ∧ r0.flType ≠ .unlck := by simpa using hdel
        simp only [← h.type]
        exact ih (h.replace hG hflo hnot.1 hnot.2 h4 (by omega))
      · omega

lemma processLocks_append {B : List (FileLock Owner)} (hp : p.request.flOwner = o)
    (hrest : ∀ fl ∈ rest, fl.flOwner = o) (hB : ∀ fl ∈ B, fl.flOwner ≠ o) :
    processLocks p (rest ++ B) = ((processLocks p rest).1, (processLocks p rest).2 ++ B) := by
  induction rest generalizing p with
  | nil =>
    cases B with
    | nil => simp [processLocks]
    | cons b B =>
      have hb : posixSameOwner p.request.toRequest b.toRequest = false := by
        simpa [posixSameOwner, hp] using Ne.symm (hB b (by simp))
      simp [processLocks, hb]
  | cons fl rest ih =>
    have hfl := hrest fl (by simp)
    have hsame : posixSameOwner p.request.toRequest fl.toRequest = true := by
      simp [posixSameOwner, hp, hfl]
    have hrest' : ∀ b ∈ rest, b.flOwner = o := fun b hb => hrest b (by simp [hb])
    rw [cons_append, processLocks, processLocks]
    simp only [hsame, Bool.not_true, Bool.false_eq_true, if_false]
    split_ifs
    all_goals first
      | rfl
      | exact ih hp hrest'
      | exact ih hfl hrest'

end Loop

end BooxKernel.Locks
