import BooxKernel.Lib.Lists
import BooxKernel.Locks.Pass

/-!
# The effect of one granted request

The three ways the pass can end are turned into the final list of the owner's
locks: the locks below the request, the lock for the request, and the locks
above it. Reading that list gives exactly the update of the owner's map, and a
refusal leaves the list as it was.
-/
namespace BooxKernel.Locks
open List FileLock

variable {Owner : Type*} {r0 : FileLock Owner} {G kept lefts rest : List (FileLock Owner)}
  {p : Pass Owner}
variable {o : Owner} {b : Bool} {own inserted M : List (FileLock Owner)} {newFl : Option ℕ}
  {fl : FileLock Owner}

/-- The locks `G'` are those of `G` after the request `r0` was granted. -/
structure GroupUpdate (r0 : FileLock Owner) (newFl newFl2 : Option ℕ)
    (G G' : List (FileLock Owner)) : Prop where
  group : Group r0.flOwner G'
  holds : ∀ x t, Holds G' x t ↔
    if r0.flStart ≤ x ∧ x ≤ r0.flEnd then r0.flType = t ∧ t ≠ .unlck else Holds G x t
  nodup : (G'.map addr).Nodup
  addrs : ∀ a ∈ G'.map addr, a ∈ G.map addr ∨ newFl = some a ∨ newFl2 = some a

/-- Lock `fl` is a nonempty piece of the old lock `g`. -/
structure Piece (g fl : FileLock Owner) : Prop where
  owner : fl.flOwner = g.flOwner
  flags : fl.flFlags = g.flFlags
  type : fl.flType = g.flType
  start : g.flStart ≤ fl.flStart
  nonempty : fl.flStart ≤ fl.flEnd
  stop : fl.flEnd ≤ g.flEnd

lemma Group.holds_unique (hG : Group o G) {x : ℤ} {t t' : LockType}
    (h : Holds G x t) (h' : Holds G x t') : t = t' := by
  obtain ⟨a, ha, ha1, ha2, rfl⟩ := h
  obtain ⟨b, hb, hb1, hb2, rfl⟩ := h'
  rcases Lists.pairwise_mem_cases hG.pairwise ha hb with rfl | hab | hba
  · rfl
  · have := hab.1
    omega
  · have := hba.1
    omega

lemma Piece.refl (hG : Group o G) (h : fl ∈ G) : Piece fl fl :=
  ⟨rfl, rfl, rfl, le_rfl, (hG.valid fl h).start_le_end, le_rfl⟩

lemma Group.of_forall (h : ∀ fl ∈ G, fl.flOwner = o ∧ ValidRange fl.toRequest ∧ fl.flType ≠ .unlck)
    (hpw : G.Pairwise Before) : Group o G :=
  ⟨fun fl hm => (h fl hm).1, fun fl hm => (h fl hm).2.1, fun fl hm => (h fl hm).2.2, hpw⟩

/-- The lock for the request, if the request is not an unlock. -/
def IsOwn (r0 : FileLock Owner) (p : Pass Owner) (own : List (FileLock Owner)) : Prop :=
  (r0.flType = .unlck ∧ own = []) ∨
    (r0.flType ≠ .unlck ∧ ∃ q, own = [q] ∧ q.toRequest = p.request.toRequest)

/-- What remains of the locks on one side of the request: they stay ordered, are
pieces of old locks, and hold the same offsets outside the request. -/
structure Side (G : List (FileLock Owner)) (p : Pass Owner) (old new : List (FileLock Owner)) :
    Prop where
  pairwise : new.Pairwise Before
  pieces : ∀ fl ∈ new, ∃ g ∈ G, Piece g fl
  holds : ∀ x t, ¬ (p.request.flStart ≤ x ∧ x ≤ p.request.flEnd) → (Holds new x t ↔ Holds old x t)

/-- Pieces of old locks below the request and pieces of old locks above it, which
together hold the old offsets outside the request. -/
structure Parts (G : List (FileLock Owner)) (p : Pass Owner)
    (old low high : List (FileLock Owner)) : Prop where
  pairwise_low : low.Pairwise Before
  pairwise_high : high.Pairwise Before
  below : ∀ a ∈ low, Before a p.request
  above : ∀ b ∈ high, Before p.request b
  pieces : ∀ fl ∈ low ++ high, ∃ g ∈ G, Piece g fl
  holds : ∀ x t, ¬ (p.request.flStart ≤ x ∧ x ≤ p.request.flEnd) →
    (Holds low x t ∨ Holds high x t ↔ Holds old x t)

section Parts
variable {low high : List (FileLock Owner)}

lemma Parts.group (hparts : Parts G p (kept ++ lefts ++ rest) low high)
    (h : PassInv r0 G p kept lefts rest) (hG : Group r0.flOwner G) (hown : IsOwn r0 p own) :
    Group r0.flOwner (low ++ own ++ high) ∧ ∀ x t, Holds (low ++ own ++ high) x t ↔
      if r0.flStart ≤ x ∧ x ≤ r0.flEnd then r0.flType = t ∧ t ≠ .unlck else Holds G x t := by
  have hv := h.valid.start_le_end
  have hold : ∀ fl ∈ low ++ high, fl.flOwner = r0.flOwner ∧ ValidRange fl.toRequest ∧
      fl.flType ≠ .unlck := by
    intro fl hm
    obtain ⟨g, hg, hp⟩ := hparts.pieces fl hm
    obtain ⟨hposix, hnonneg, -, hmax⟩ := hG.valid g hg
    have h1 := hp.start
    have h2 := hp.stop
    exact ⟨hp.owner.trans (hG.owner g hg), ⟨hp.flags ▸ hposix, by omega, hp.nonempty, by omega⟩,
      hp.type ▸ hG.held g hg⟩
  have hnear : ∀ x t, p.request.flStart ≤ x ∧ x ≤ p.request.flEnd →
      ¬ (Holds low x t ∨ Holds high x t) := by
    rintro x t hx (⟨fl, hm, h1, h2, -⟩ | ⟨fl, hm, h1, h2, -⟩)
    · have := (hparts.below fl hm).1
      omega
    · have := (hparts.above fl hm).1
      omega
  rcases hown with ⟨hu, rfl⟩ | ⟨hu, q, rfl, hq⟩
  · rw [append_nil]
    have hpw := pairwise_around hv hparts.pairwise_low hparts.pairwise_high hparts.below
      hparts.above
    refine ⟨.of_forall hold hpw.1, fun x t => ?_⟩
    rw [holds_append, ← h.same (.inr hu)]
    split_ifs with hx
    · exact iff_of_false (hnear x t hx) fun ⟨ht, hne⟩ => hne (ht.symm.trans (h.type.trans hu))
    · rw [hparts.holds x t hx, h.outside x t hx]
  · have hqs : q.flStart = p.request.flStart := congrArg Request.flStart hq
    have hqe : q.flEnd = p.request.flEnd := congrArg Request.flEnd hq
    have hqt : q.flType = r0.flType := (congrArg Request.flType hq).trans h.type
    have hqo : q.flOwner = r0.flOwner := (congrArg Request.flOwner hq).trans h.owner
    refine ⟨.of_forall ?_ ?_, fun x t => ?_⟩
    · intro fl hm
      rcases Lists.mem_append_middle.1 hm with hm | hm
      · obtain rfl := mem_singleton.1 hm
        exact ⟨hqo, hq ▸ h.valid, hqt ▸ hu⟩
      · exact hold fl hm
    · rw [append_assoc]
      refine (pairwise_around (by omega) hparts.pairwise_low hparts.pairwise_high ?_ ?_).2
      · simpa only [Before, hqs, hqt, h.type] using hparts.below
      · simpa only [Before, hqe, hqt, h.type] using hparts.above
    · have hsplit : Holds (low ++ [q] ++ high) x t ↔
          ((p.request.flStart ≤ x ∧ x ≤ p.request.flEnd) ∧ r0.flType = t) ∨
            Holds low x t ∨ Holds high x t := by
        rw [holds_append, holds_append, holds_cons, hqs, hqe, hqt, and_assoc,
          or_iff_left (not_holds_nil x t), or_assoc, or_left_comm]
      rw [hsplit]
      by_cases hx : p.request.flStart ≤ x ∧ x ≤ p.request.flEnd
      · rw [or_iff_left (hnear x t hx), and_iff_right hx]
        split_ifs with hx0
        · exact ⟨fun ht => ⟨ht, ht ▸ hu⟩, And.left⟩
        · have hin := h.inside x hx.1 hx.2 hx0
          exact ⟨fun ht => ht ▸ hin, hG.holds_unique hin⟩
      · have hwide := h.wide
        rw [if_neg (by omega), or_iff_right fun hx' => hx hx'.1, hparts.holds x t hx,
          h.outside x t hx]

end Parts

/-- A lock cut off below the request, and one cut off above it. -/
def cutEnd (p : Pass Owner) (fl : FileLock Owner) : FileLock Owner :=
  { fl with flEnd := p.request.flStart - 1 }

def cutStart (p : Pass Owner) (fl : FileLock Owner) : FileLock Owner :=
  { fl with flStart := p.request.flEnd + 1 }

section
variable (h : PassInv r0 G p kept lefts rest) (hG : Group r0.flOwner G)
include h hG

lemma PassInv.pieces (hm : fl ∈ kept ++ lefts ++ rest) : ∃ g ∈ G, Piece g fl :=
  ⟨fl, h.old fl hm, Piece.refl hG (h.old fl hm)⟩

lemma low_cut (a : ℕ) (hfl : fl ∈ G) (hkept : ∀ k ∈ kept, Before k fl) (ht : fl.flType ≠ r0.flType)
    (h1 : fl.flStart < p.request.flStart) (h2 : p.request.flStart ≤ fl.flEnd) :
    (kept ++ [cutEnd p { fl with addr := a }]).Pairwise Before ∧
      (∀ k ∈ kept ++ [cutEnd p { fl with addr := a }], ∃ g ∈ G, Piece g k) ∧
      ∀ k ∈ kept ++ [cutEnd p { fl with addr := a }], Before k p.request := by
  have hpw := (pairwise_append.1 (pairwise_append.1 h.pairwise).1).1
  simp only [pairwise_append, forall_mem_append, forall_mem_singleton]
  refine ⟨⟨hpw, pairwise_singleton _ _, hkept⟩, ⟨fun k hk => h.pieces hG (by simp [hk]), ?_⟩,
    h.below, ?_⟩
  · exact ⟨fl, hfl, rfl, rfl, rfl, le_rfl, Int.le_sub_one_of_lt h1, by simp only [cutEnd]; omega⟩
  · exact ⟨Int.sub_one_lt_of_le le_rfl, fun he => absurd (he.trans h.type) ht⟩

lemma low_side : Side G p (kept ++ lefts) (kept ++ lefts.map (cutEnd p)) ∧
      ∀ a ∈ kept ++ lefts.map (cutEnd p), Before a p.request := by
  rcases h.left with ⟨rfl, _⟩ | ⟨l, rfl, _, ht, h1, h2, h3⟩
  · rw [map_nil, append_nil]
    have hpw := (pairwise_append.1 h.pairwise).1
    exact ⟨⟨by simpa using hpw, fun k hk => h.pieces hG (by simp [hk]), fun _ _ _ => Iff.rfl⟩,
      h.below⟩
  · have hkept : ∀ k ∈ kept, Before k l := fun k hk =>
      (pairwise_append.1 (pairwise_append.1 h.pairwise).1).2.2 k hk l (by simp)
    obtain ⟨hpw, hpieces, hbelow⟩ := low_cut h hG l.addr (h.old l (by simp)) hkept ht h1 h2
    refine ⟨⟨hpw, hpieces, fun x t hx => ?_⟩, hbelow⟩
    have hcov : x ≤ p.request.flStart - 1 ↔ x ≤ l.flEnd := by omega
    simp only [map_cons, map_nil, holds_append, holds_cons, cutEnd, hcov]

end

lemma high_side (h : PassInv r0 G p kept lefts (fl :: rest))
    (hG : Group r0.flOwner G) (ht : fl.flType ≠ r0.flType)
    (h1 : fl.flStart ≤ p.request.flEnd) (h2 : p.request.flEnd < fl.flEnd) :
    (cutStart p fl :: rest).Pairwise Before ∧ (∀ a ∈ cutStart p fl :: rest, ∃ g ∈ G, Piece g a) ∧
      ∀ b ∈ cutStart p fl :: rest, Before p.request b := by
  have hcut : Before p.request (cutStart p fl) :=
    ⟨Int.lt_add_one_of_le le_rfl, fun he => absurd (he.symm.trans h.type) ht⟩
  have hrest : ∀ b ∈ rest, Before (cutStart p fl) b := h.before_rest
  have hpw := (pairwise_append.1 h.pairwise).2.1
  simp only [forall_mem_cons]
  refine ⟨pairwise_cons.2 ⟨hrest, (pairwise_cons.1 hpw).2⟩,
    ⟨⟨fl, h.mem_old, rfl, rfl, rfl, ?_, h2, le_rfl⟩, fun a ha => h.pieces hG (by simp [ha])⟩,
    hcut, fun b hb => hcut.trans_of_valid (hrest b hb) h2⟩
  simp only [cutStart]
  omega

/-- The lock inserted for a request that found no lock to take it over. -/
def Inserted (r0 : FileLock Owner) (p : Pass Owner) (newFl : Option ℕ)
    (inserted : List (FileLock Owner)) : Prop :=
  ((p.added = true ∨ r0.flType = .unlck) ∧ inserted = []) ∨
    (p.added = false ∧ r0.flType ≠ .unlck ∧
      ∃ a, newFl = some a ∧ inserted = [{ p.request with addr := a }])

lemma own_spec (h : PassInv r0 G p kept lefts rest) (hins : Inserted r0 p newFl inserted)
    (hnew : ∀ a, newFl = some a → a ∉ G.map addr) :
    IsOwn r0 p (ownLock r0 p ++ inserted) ∧
      ((kept ++ lefts ++ (ownLock r0 p ++ inserted) ++ rest).map addr).Nodup ∧
      ∀ a ∈ (kept ++ lefts ++ (ownLock r0 p ++ inserted) ++ rest).map addr,
        a ∈ G.map addr ∨ newFl = some a := by
  have hold : ∀ fl ∈ kept ++ lefts ++ rest, fl.addr ∈ G.map addr :=
    fun fl hm => mem_map_of_mem (h.old fl hm)
  rw [forall_mem_map]
  rcases hins with ⟨hgone, rfl⟩ | ⟨hadded, hu, a, ha, rfl⟩
  · rw [append_nil]
    refine ⟨?_, h.nodup, fun fl hm => .inl ?_⟩
    · by_cases hu : r0.flType = .unlck
      · exact .inl ⟨hu, by simp [ownLock, hu]⟩
      · have hadded : p.added = true := hgone.resolve_right hu
        exact .inr ⟨hu, p.request, by simp [ownLock, hu, hadded], rfl⟩
    · exact (Lists.mem_append_middle.1 hm).elim (h.addrs fl) (hold fl)
  · have hown : ownLock r0 p = [] := by simp [ownLock, hadded]
    have hnd := h.nodup
    rw [hown, append_nil] at hnd
    rw [hown, nil_append]
    refine ⟨.inr ⟨hu, _, rfl, rfl⟩, ?_, fun fl hm => ?_⟩
    · rw [append_assoc, singleton_append, map_append, map_cons, nodup_middle, ← map_append]
      refine nodup_cons.2 ⟨fun hm => hnew a ha ?_, hnd⟩
      obtain ⟨fl, hfl, rfl : fl.addr = a⟩ := mem_map.1 hm
      exact hold fl hfl
    · rcases Lists.mem_append_middle.1 hm with hm | hm
      · obtain rfl := mem_singleton.1 hm
        exact .inr ha
      · exact .inl (hold fl hm)

section Place
variable {A B : List (FileLock Owner)} {n2 : ℕ}

lemma PassInv.left_ne (h : PassInv r0 G p kept lefts (fl :: rest)) : p.left ≠ some fl.addr := by
  rcases h.left with ⟨_, hl⟩ | ⟨l, rfl, hl, _⟩
  · simp [hl]
  · intro he
    rw [hl, Option.some.injEq] at he
    have hnd := h.nodup
    rw [map_append, nodup_append] at hnd
    exact hnd.2.2 l.addr (by simp) fl.addr (by simp) he

lemma PassInv.quiet_list (h : PassInv r0 G p kept lefts rest) (hadded : p.added = false) :
    A ++ p.done ++ (rest ++ B) = A ++ G ++ B := by
  rw [h.done_eq, ← (h.quiet hadded).2]
  simp [ownLock, hadded]

lemma place_clear (h : PassInv r0 G p kept lefts rest)
    (hnd : ((A ++ (kept ++ lefts ++ (ownLock r0 p ++ inserted) ++ rest) ++ B).map
      addr).Nodup) :
    (placeLocks A (rest ++ B) inserted p n2).list =
      A ++ (kept ++ lefts.map (cutEnd p) ++ (ownLock r0 p ++ inserted) ++ rest) ++ B := by
  unfold placeLocks
  rw [h.right]
  rcases h.left with ⟨rfl, hl⟩ | ⟨l, rfl, hl, _⟩
  · simp [hl, h.done_eq]
  · simp only [hl, reduceCtorEq, if_false, Option.isSome_none, Bool.false_and, Bool.false_eq_true]
    rw [store_eq _ (l := A ++ kept) (r := ownLock r0 p ++ inserted ++ (rest ++ B))
      (by simp [h.done_eq]) (by simpa [h.done_eq] using hnd)]
    simp [cutEnd]

lemma place_right (h : PassInv r0 G p kept lefts (fl :: rest))
    (hnd : ((A ++ (kept ++ lefts ++ (ownLock r0 p ++ inserted) ++ fl :: rest) ++ B).map
      addr).Nodup) :
    (placeLocks A (fl :: rest ++ B) inserted { p with added := b, right := some fl.addr } n2).list =
      A ++ (kept ++ lefts.map (cutEnd p) ++ (ownLock r0 p ++ inserted) ++
        cutStart p fl :: rest) ++ B := by
  unfold placeLocks
  simp only [h.left_ne, if_false, Option.isSome_some, Bool.true_and, decide_false,
    Bool.false_eq_true]
  rw [store_eq _ (l := A ++ kept ++ lefts ++ (ownLock r0 p ++ inserted)) (r := rest ++ B)
    (by simp [h.done_eq]) (by simpa [h.done_eq] using hnd)]
  rcases h.left with ⟨rfl, hl⟩ | ⟨l, rfl, hl, _⟩
  · simp [hl, cutStart]
  · simp only [hl]
    rw [store_eq _ (l := A ++ kept) (r := ownLock r0 p ++ inserted ++ cutStart p fl :: (rest ++ B))
      (by simp [cutStart]) (by simpa using hnd)]
    simp [cutEnd]

lemma place_both (h : PassInv r0 G p kept [] (fl :: rest))
    (hnd : ((A ++ (kept ++ { fl with addr := n2 } :: (ownLock r0 p ++ inserted) ++
      fl :: rest) ++ B).map addr).Nodup) (hadded : p.added = false) :
    (placeLocks A (fl :: rest ++ B) inserted
        { p with added := b, left := some fl.addr, right := some fl.addr } n2).list =
      A ++ (kept ++ cutEnd p { fl with addr := n2 } :: (ownLock r0 p ++ inserted) ++
        cutStart p fl :: rest) ++ B := by
  have hown : ownLock r0 p = [] := by simp [ownLock, hadded]
  have hdone : p.done = kept := by simp [h.done_eq, hown]
  have hderef : deref (fl :: rest ++ B) fl.addr = some fl := by simp [deref]
  rw [hown] at hnd ⊢
  unfold placeLocks
  simp only [if_true, Option.bind_some, hderef, Option.map_some, Option.toList_some,
    Option.isSome_some, decide_true, Bool.and_self, hdone]
  rw [store_eq _ (l := A ++ kept ++ { fl with addr := n2 } :: inserted) (r := rest ++ B)
    (by simp) (by simpa using hnd)]
  rw [store_eq _ (x := { fl with addr := n2 }) (l := A ++ kept)
    (r := inserted ++ cutStart p fl :: (rest ++ B)) (by simp [cutStart]) (by simpa using hnd)]
  simp [cutEnd]

lemma nodup_replace (hctx : ((A ++ G ++ B).map addr).Nodup) (hM : (M.map addr).Nodup)
    (hsub : ∀ a ∈ M.map addr,
      a ∈ G.map addr ∨ a ∉ (A ++ G ++ B).map addr) : ((A ++ M ++ B).map addr).Nodup := by
  simp only [map_append, nodup_append, mem_append] at hctx hsub ⊢
  obtain ⟨⟨hA, hG, hAG⟩, hB, hAGB⟩ := hctx
  refine ⟨⟨hA, hM, ?_⟩, hB, ?_⟩
  · rintro a ha b hb rfl
    rcases hsub a hb with hg | hn
    · exact hAG a ha a hg rfl
    · exact hn (.inl (.inl ha))
  · rintro a (ha | ha) b hb rfl
    · exact hAGB a (.inl ha) a hb rfl
    · rcases hsub a ha with hg | hn
      · exact hAGB a (.inr hg) a hb rfl
      · exact hn (.inr hb)

variable {newFl2 : Option ℕ}

/-- The addresses of the two preallocated structures are not in use. -/
structure Unused (l : List (FileLock Owner)) (newFl newFl2 : Option ℕ) : Prop where
  fst : ∀ a, newFl = some a → a ∉ l.map addr
  snd : ∀ a, newFl2 = some a → a ∉ l.map addr
  ne : ∀ a, newFl = some a → newFl2 ≠ some a

lemma mem_addrs_group {a : ℕ} (h : a ∈ G.map addr) : a ∈ (A ++ G ++ B).map addr := by
  simp only [map_append, mem_append]
  exact .inl (.inr h)

section Update
variable (hG : Group r0.flOwner G) (hins : Inserted r0 p newFl inserted)
  (hctx : ((A ++ G ++ B).map addr).Nodup) (hun : Unused (A ++ G ++ B) newFl newFl2)
include hG hins hctx hun

omit hins in
lemma update_parts {low high list : List (FileLock Owner)}
    (h : PassInv r0 G p kept lefts rest) (hown : IsOwn r0 p own)
    (hparts : Parts G p (kept ++ lefts ++ rest) low high)
    (hsame : (low ++ own ++ high).map addr = M.map addr) (hnd : (M.map addr).Nodup)
    (haddr : ∀ a ∈ M.map addr, a ∈ G.map addr ∨ newFl = some a ∨ newFl2 = some a)
    (hplace : ((A ++ M ++ B).map addr).Nodup → list = A ++ (low ++ own ++ high) ++ B) :
    ∃ G', list = A ++ G' ++ B ∧ GroupUpdate r0 newFl newFl2 G G' := by
  obtain ⟨hgroup, hholds⟩ := hparts.group h hG hown
  exact ⟨_, hplace (nodup_replace hctx hnd fun a ha =>
      (haddr a ha).imp_right fun hn => hn.elim (hun.fst a) (hun.snd a)),
    hgroup, hholds, hsame ▸ hnd, fun a ha => haddr a (hsame ▸ ha)⟩

lemma update_clear (h : PassInv r0 G p kept lefts rest) (habove : ∀ b ∈ rest, Before p.request b) :
    ∃ G', (placeLocks A (rest ++ B) inserted p n2).list = A ++ G' ++ B ∧
      GroupUpdate r0 newFl newFl2 G G' := by
  obtain ⟨hown, hnd, haddr⟩ := own_spec h hins fun a ha hm => hun.fst a ha (mem_addrs_group hm)
  obtain ⟨hlow, hlowq⟩ := low_side h hG
  have hparts : Parts G p (kept ++ lefts ++ rest) (kept ++ lefts.map (cutEnd p)) rest :=
    { pairwise_low := hlow.pairwise, pairwise_high := (pairwise_append.1 h.pairwise).2.1,
      below := hlowq, above := habove,
      pieces := forall_mem_append.2 ⟨hlow.pieces, fun fl hm => h.pieces hG (by simp [hm])⟩,
      holds := fun x t hx => by rw [hlow.holds x t hx, ← holds_append] }
  exact update_parts hG hctx hun h hown hparts (by simp [cutEnd, Function.comp_def]) hnd
    (fun a ha => (haddr a ha).imp_right .inl) (place_clear h)

lemma update_right (h : PassInv r0 G p kept lefts (fl :: rest))
    (ht : fl.flType ≠ r0.flType) (h1 : p.request.flStart ≤ fl.flStart)
    (h2 : fl.flStart ≤ p.request.flEnd) (h3 : p.request.flEnd < fl.flEnd) :
    ∃ G', (placeLocks A (fl :: rest ++ B) inserted
        { p with added := b, right := some fl.addr } n2).list = A ++ G' ++ B ∧
      GroupUpdate r0 newFl newFl2 G G' := by
  obtain ⟨hown, hnd, haddr⟩ := own_spec h hins fun a ha hm => hun.fst a ha (mem_addrs_group hm)
  obtain ⟨hlow, hlowq⟩ := low_side h hG
  obtain ⟨hhigh, hpieces, hqhigh⟩ := high_side h hG ht h2 h3
  have hparts : Parts G p (kept ++ lefts ++ fl :: rest) (kept ++ lefts.map (cutEnd p))
      (cutStart p fl :: rest) :=
    { pairwise_low := hlow.pairwise, pairwise_high := hhigh, below := hlowq, above := hqhigh,
      pieces := forall_mem_append.2 ⟨hlow.pieces, hpieces⟩,
      holds := fun x t hx => by
        have hcov : p.request.flEnd + 1 ≤ x ↔ fl.flStart ≤ x := by omega
        rw [hlow.holds x t hx]
        simp only [holds_append, holds_cons, cutStart, hcov] }
  exact update_parts hG hctx hun h hown hparts (by simp [cutEnd, cutStart, Function.comp_def]) hnd
    (fun a ha => (haddr a ha).imp_right .inl) (place_right h)

omit hG hins hctx in
lemma copy_nodup (hn2 : newFl2 = some n2) (hnd : ((kept ++ [] ++ own ++ fl :: rest).map addr).Nodup)
    (haddr : ∀ a ∈ (kept ++ [] ++ own ++ fl :: rest).map addr,
      a ∈ G.map addr ∨ newFl = some a) :
    ((kept ++ { fl with addr := n2 } :: own ++ fl :: rest).map addr).Nodup ∧
      ∀ a ∈ (kept ++ { fl with addr := n2 } :: own ++ fl :: rest).map addr,
        a ∈ G.map addr ∨ newFl = some a ∨ newFl2 = some a := by
  have hnot : n2 ∉ (kept ++ [] ++ own ++ fl :: rest).map addr := by
    intro hm
    rcases haddr n2 hm with hg | hn
    · exact hun.snd n2 hn2 (mem_addrs_group hg)
    · exact hun.ne n2 hn hn2
  rw [append_nil, append_assoc] at hnot hnd haddr
  rw [append_assoc, cons_append, map_append, map_cons, nodup_middle, ← map_append]
  refine ⟨nodup_cons.2 ⟨hnot, hnd⟩, fun a ha => ?_⟩
  rw [mem_append, mem_cons, or_left_comm, ← mem_append, ← map_append] at ha
  rcases ha with rfl | ha
  · exact .inr (.inr hn2)
  · exact (haddr a ha).imp_right .inl

lemma update_both (h : PassInv r0 G p kept [] (fl :: rest))
    (hadded : p.added = false) (ht : fl.flType ≠ r0.flType)
    (h1 : fl.flStart < p.request.flStart) (h2 : p.request.flEnd < fl.flEnd)
    (hn2 : newFl2 = some n2) :
    ∃ G', (placeLocks A (fl :: rest ++ B) inserted
        { p with added := b, left := some fl.addr, right := some fl.addr } n2).list =
          A ++ G' ++ B ∧ GroupUpdate r0 newFl newFl2 G G' := by
  obtain ⟨hown, hnd, haddr⟩ := own_spec h hins fun a ha hm => hun.fst a ha (mem_addrs_group hm)
  obtain ⟨hndM, haddrM⟩ := copy_nodup hun hn2 hnd haddr
  have hv := h.valid.start_le_end
  obtain ⟨hlow, hlowpieces, hlowq⟩ := low_cut h hG n2 h.mem_old
    (fun k hk => h.before_next k (by simp [hk])) ht h1 (by omega)
  obtain ⟨hhigh, hpieces, hqhigh⟩ := high_side h hG ht (by omega) h2
  have hparts : Parts G p (kept ++ [] ++ fl :: rest) (kept ++ [cutEnd p { fl with addr := n2 }])
      (cutStart p fl :: rest) :=
    { pairwise_low := hlow, pairwise_high := hhigh, below := hlowq, above := hqhigh,
      pieces := forall_mem_append.2 ⟨hlowpieces, hpieces⟩,
      holds := fun x t hx => by
        have hcov : (fl.flStart ≤ x ∧ x ≤ p.request.flStart - 1 ∨
            p.request.flEnd + 1 ≤ x ∧ x ≤ fl.flEnd) ↔ fl.flStart ≤ x ∧ x ≤ fl.flEnd := by omega
        simp only [holds_append, holds_cons, not_holds_nil, or_false, or_assoc, cutEnd, cutStart,
          ← and_assoc, ← hcov, or_and_right] }
  refine update_parts hG hctx hun h hown hparts ?_ hndM haddrM fun hnd => ?_
  · simp [cutEnd, cutStart]
  · rw [place_both h hnd hadded, append_cons kept]

end Update

lemma update_nothing (h : PassInv r0 G p kept lefts rest) (hG : Group r0.flOwner G)
    (habove : ∀ b ∈ rest, Before p.request b) (hadded : p.added = false)
    (hu : r0.flType = .unlck) (hnd : (G.map addr).Nodup) : GroupUpdate r0 newFl newFl2 G G := by
  have hlefts : lefts = [] := by
    by_contra hne
    exact absurd ((h.unlck hu hne).symm.trans hadded) (by decide)
  subst hlefts
  refine ⟨hG, fun x t => ?_, hnd, fun a ha => .inl ha⟩
  split_ifs with hx
  · refine iff_of_false ?_ fun ⟨ht, hne⟩ => hne (ht.symm.trans hu)
    rw [← (h.quiet hadded).2, append_nil, holds_append]
    rw [← h.same (.inl hadded)] at hx
    rintro (⟨fl, hm, h1, h2, _⟩ | ⟨fl, hm, h1, h2, _⟩)
    · have := (h.below fl hm).1
      omega
    · have := (habove fl hm).1
      omega
  · rfl

end Place

section Request
variable [DecidableEq Owner] {A B : List (FileLock Owner)} {newFl2 : Option ℕ}

lemma skip_others (hG : Group r0.flOwner G) (hA : ∀ fl ∈ A, fl.flOwner ≠ r0.flOwner)
    (hGB : G = [] → B = []) :
    let other := fun fl : FileLock Owner =>
      !fl.flFlags.posix || !posixSameOwner r0.toRequest fl.toRequest
    (A ++ G ++ B).takeWhile other = A ∧ (A ++ G ++ B).dropWhile other = G ++ B := by
  intro other
  have hother : ∀ fl ∈ A, other fl = true := by
    intro fl hm
    simp [other, posixSameOwner, Ne.symm (hA fl hm)]
  rw [append_assoc, takeWhile_append_of_pos hother, dropWhile_append_of_pos hother]
  cases G with
  | nil => simp [hGB rfl]
  | cons g G =>
    have hg : other g = false := by
      simp [other, posixSameOwner, hG.owner g (by simp), (hG.valid g (by simp)).posix]
    simp [hg]

/-- A request that passed the conflict check either updates exactly the owner's
locks, or fails with `ENOLCK` or `ENOENT` and changes nothing. -/
lemma applyRequest_spec (hG : Group r0.flOwner G) (hr : ValidRange r0.toRequest)
    (hctx : ((A ++ G ++ B).map addr).Nodup) (hun : Unused (A ++ G ++ B) newFl newFl2)
    (hA : ∀ fl ∈ A, fl.flOwner ≠ r0.flOwner) (hB : ∀ fl ∈ B, fl.flOwner ≠ r0.flOwner)
    (hGB : G = [] → B = []) {res : ListResult Owner}
    (hres : applyRequest (A ++ G ++ B) r0 newFl newFl2 = res) :
    (res.error = .success ∧ ∃ G', res.list = A ++ G' ++ B ∧ GroupUpdate r0 newFl newFl2 G G') ∨
      (res.error ≠ .success ∧ res.list = A ++ G ++ B ∧ res.woken = []) := by
  subst hres
  have hndG : (G.map addr).Nodup := by
    simp only [map_append] at hctx
    exact (nodup_append.1 (nodup_append.1 hctx).1).2.1
  obtain ⟨htake, hdrop⟩ := skip_others hG hA hGB
  have hend := processLocks_end hG rfl (PassInv.start hG hndG hr)
  have happ := processLocks_append (p := ⟨[], r0, false, none, none, []⟩) rfl hG.owner hB
  unfold applyRequest
  simp only [htake, hdrop, happ]
  generalize (processLocks ⟨[], r0, false, none, none, []⟩ G).1 = p at hend
  generalize (processLocks ⟨[], r0, false, none, none, []⟩ G).2 = rest at hend
  cases hend with
  | clear h habove =>
    rw [h.right]
    cases hadded : p.added with
    | true =>
      exact .inl ⟨rfl, update_clear hG (.inl ⟨.inl hadded, rfl⟩) hctx hun h habove⟩
    | false =>
      by_cases hu : r0.flType = .unlck
      · rw [if_pos (h.type.trans hu)]
        by_cases hex : p.request.flFlags.existsFlag = true
        · rw [if_pos hex]
          exact .inr ⟨by simp, h.quiet_list hadded, (h.quiet hadded).1⟩
        · rw [if_neg hex]
          exact .inl ⟨rfl, G, h.quiet_list hadded, update_nothing h hG habove hadded hu hndG⟩
      · rw [if_neg (fun he => hu (h.type.symm.trans he))]
        cases newFl with
        | none => exact .inr ⟨by simp, h.quiet_list hadded, (h.quiet hadded).1⟩
        | some a =>
          exact .inl ⟨rfl, update_clear hG (.inr ⟨hadded, hu, a, rfl, rfl⟩) hctx hun h habove⟩
  | @right p kept lefts rest fl h ht h1 h2 h3 =>
    simp only [h.left_ne, decide_false, Option.isSome_some, Bool.and_false, Bool.false_and,
      Bool.false_eq_true, if_false]
    by_cases hgone : p.added = true ∨ r0.flType = .unlck
    · have hadd : (p.added || decide (r0.flType = .unlck)) = true := by simpa using hgone
      simp only [hadd, Bool.not_true, Bool.false_eq_true, if_false]
      exact .inl ⟨rfl, update_right hG (.inl ⟨hgone, rfl⟩) hctx hun h ht h1 h2 h3⟩
    · obtain ⟨hadded, hu⟩ : p.added = false ∧ r0.flType ≠ .unlck := by simpa using hgone
      have hnu : ¬ p.request.flType = .unlck := fun he => hu (h.type.symm.trans he)
      simp only [hadded, hu, decide_false, Bool.or_self, Bool.not_false, if_true, hnu, if_false]
      cases newFl with
      | none => exact .inr ⟨by simp, h.quiet_list hadded, (h.quiet hadded).1⟩
      | some a =>
        exact .inl ⟨rfl, update_right hG (.inr ⟨hadded, hu, a, rfl, rfl⟩) hctx hun h ht h1 h2 h3⟩
  | @both p kept rest fl h hadded ht h1 h2 =>
    simp only [decide_true, Option.isSome_some, Bool.true_and]
    cases hn2 : newFl2 with
    | none =>
      exact .inr ⟨by simp, h.quiet_list hadded, (h.quiet hadded).1⟩
    | some n2 =>
      rw [hn2] at hun
      by_cases hu : r0.flType = .unlck
      · simp only [hu, decide_true, Bool.not_true, Bool.false_eq_true, if_false]
        exact .inl ⟨rfl, update_both hG (.inl ⟨.inr hu, rfl⟩) hctx hun h hadded ht h1 h2 rfl⟩
      · have hnu : ¬ p.request.flType = .unlck := fun he => hu (h.type.symm.trans he)
        simp only [hu, decide_false, Bool.not_false, if_true, hnu, if_false]
        cases newFl with
        | none => exact .inr ⟨by simp, h.quiet_list hadded, (h.quiet hadded).1⟩
        | some a =>
          exact .inl ⟨rfl,
            update_both hG (.inr ⟨hadded, hu, a, rfl, rfl⟩) hctx hun h hadded ht h1 h2 rfl⟩

end Request

end BooxKernel.Locks
