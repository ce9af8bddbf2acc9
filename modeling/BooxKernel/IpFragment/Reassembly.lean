import BooxKernel.IpFragment.Queue

/-!
# A datagram from its fragments

The fragments of a datagram, in whatever order they come and however often, are put together when
the last of them arrives, and make up the datagram.
-/
namespace BooxKernel.IpFragment

open Tilings List IpFragment

variable {p : Packet} {l : List Skb} {s : ℕ × ℕ} {payload : List Byte} {D : Finset (ℕ × ℕ)}

/-- A datagram of `len` bytes in pieces, each given by its offset and its size. -/
structure Fragmentation (len : ℕ) where
  pieces : Finset (ℕ × ℕ)
  pos : ∀ s ∈ pieces, 0 < s.2
  disjoint : ∀ s ∈ pieces, ∀ t ∈ pieces, s ≠ t → s.1 + s.2 ≤ t.1 ∨ t.1 + t.2 ≤ s.1
  cover : ∀ x, (∃ s ∈ pieces, s.1 ≤ x ∧ x < s.1 + s.2) ↔ x < len

/-- The packet carries the piece `s` of the payload, and its header can be taken off. -/
structure Carries (payload : List Byte) (p : Packet) (s : ℕ × ℕ) : Prop where
  offset : p.offset = s.1
  data : p.payload = (payload.drop s.1).take s.2
  more : p.moreFragments = true ↔ s.1 + s.2 < payload.length
  pull : p.pullHeader = true

section Pieces

variable {len : ℕ} {F : Fragmentation len} {t : ℕ × ℕ}

lemma Fragmentation.eq_of_mem (hs : s ∈ F.pieces) (ht : t ∈ F.pieces) {x : ℕ} (h1 : s.1 ≤ x)
    (h2 : x < s.1 + s.2) (h3 : t.1 ≤ x) (h4 : x < t.1 + t.2) : s = t := by
  by_contra hne
  rcases F.disjoint s hs t ht hne with h | h <;> omega

lemma Fragmentation.stop_le (hs : s ∈ F.pieces) : s.1 + s.2 ≤ len := by
  have hpos := F.pos s hs
  have hlast := (F.cover (s.1 + s.2 - 1)).1 ⟨s, hs, by omega, by omega⟩
  omega

lemma Fragmentation.exists_next (hs : s ∈ F.pieces) (hlt : s.1 + s.2 < len) :
    ∃ t ∈ F.pieces, t.1 = s.1 + s.2 := by
  obtain ⟨t, ht, hle, hlt'⟩ := (F.cover _).2 hlt
  have hne : s ≠ t := by
    rintro rfl
    omega
  rcases F.disjoint s hs t ht hne with h | h
  · exact ⟨t, ht, by omega⟩
  · omega

end Pieces

section Deliver

variable {F : Fragmentation payload.length} {q : Queue} {maxDist : U32}

/-- The piece that a fragment of the queue holds. -/
def Skb.piece (f : Skb) : ℕ × ℕ := (f.offset, f.len)

/-- The queue holds the pieces in `D` of the payload, once each. -/
structure Holds (F : Fragmentation payload.length) (D : Finset (ℕ × ℕ)) (q : Queue) : Prop where
  inv : Inv q
  subset : D ⊆ F.pieces
  open_ : q.complete = false
  piece : ∀ f ∈ q.fragments, f.piece ∈ D
  data : ∀ f ∈ q.fragments, f.data = (payload.drop f.offset).take f.len
  all : ∀ s ∈ D, ∃ f ∈ q.fragments, f.piece = s
  first : ∀ s ∈ D, s.1 = 0 → q.firstIn = true
  last : q.lastIn = true ↔ ∃ s ∈ D, s.1 + s.2 = payload.length
  len_le : q.len ≤ payload.length
  len_eq : q.lastIn = true → q.len = payload.length

lemma Carries.length (h : Carries payload p s) (hs : s ∈ F.pieces) : p.payload.length = s.2 := by
  have hstop := Fragmentation.stop_le hs
  rw [h.data, length_take, length_drop]
  omega

lemma Carries.skb (h : Carries payload p s) (hs : s ∈ F.pieces) :
    (p.skb (s.1 + s.2)).piece = s ∧
      (p.skb (s.1 + s.2)).data = (payload.drop (p.skb (s.1 + s.2)).offset).take
        (p.skb (s.1 + s.2)).len := by
  have hdata : (p.skb (s.1 + s.2)).data = p.payload := by
    simp only [Packet.skb, Skb.data_trim, h.offset, Nat.add_sub_cancel_left]
    exact take_of_length_le (h.length hs).le
  have hlen : (p.skb (s.1 + s.2)).len = s.2 := (congrArg List.length hdata).trans (h.length hs)
  have hoffset : (p.skb (s.1 + s.2)).offset = s.1 := (p.offset_skb _).trans h.offset
  refine ⟨Prod.ext hoffset hlen, ?_⟩
  rw [hlen, hoffset, hdata, h.data]

lemma Holds.extend (h : Holds F D q) (hp : Carries payload p s) (hs : s ∈ F.pieces)
    (halign : s.1 + s.2 < payload.length → (s.1 + s.2) % 8 = 0) :
    ∃ n last, extend q p = some ({ q with len := n, lastIn := last }, s.1 + s.2) ∧
      n ≤ payload.length ∧ s.1 + s.2 ≤ n ∧ (last = true → n = payload.length) ∧
      (last = true ↔ q.lastIn = true ∨ s.1 + s.2 = payload.length) := by
  have hstop := Fragmentation.stop_le hs
  have hlen := hp.length hs
  have hle := h.len_le
  simp only [IpFragment.extend, hp.offset, hlen]
  by_cases hmore : s.1 + s.2 < payload.length
  · rw [if_neg (by simp [hp.more.2 hmore])]
    have hround : (s.1 + s.2) / 8 * 8 = s.1 + s.2 := by
      omega
    rw [hround]
    have hnot : ¬ s.1 + s.2 = payload.length := by omega
    by_cases hlong : s.1 + s.2 > q.len
    · have hlast : q.lastIn = false := by
        by_contra hlast
        have := h.len_eq (by simpa using hlast)
        omega
      rw [if_pos hlong, if_neg (by simp [hlast])]
      exact ⟨_, false, by rw [← hlast], hstop, le_rfl, by simp, by simp [hlast, hnot]⟩
    · rw [if_neg hlong]
      exact ⟨q.len, q.lastIn, rfl, hle, by omega, h.len_eq, by simp [hnot]⟩
  · have hend : s.1 + s.2 = payload.length := by omega
    have hmf : p.moreFragments = false := by
      by_contra hmf
      exact hmore (hp.more.1 (by simpa using hmf))
    rw [if_pos (by simp [hmf]), if_neg]
    · exact ⟨_, true, rfl, hstop, le_rfl, fun _ => hend, by simp [hend]⟩
    · rintro (hlt | ⟨hlast, hne⟩)
      · omega
      · exact hne (hend.trans (h.len_eq hlast).symm)

lemma overrideNext_of_lined {stop hi : ℕ} {meat : ℤ} (h : Lined stop hi l) :
    overrideNext p stop meat l = (true, meat, l) := by
  cases l with
  | nil => rfl
  | cons f l => exact if_neg (not_lt.2 h.1)

/-- A piece overlaps only with itself, so the packet replaces the fragment with that piece, if
there is one, and changes nothing else. -/
lemma placeFragment_piece (hinv : Inv q) (hpiece : ∀ f ∈ q.fragments, f.piece ∈ F.pieces)
    (hp : Carries payload p s) (hs : s ∈ F.pieces) :
    ∃ prev next meat, placeFragment q p (s.1 + s.2) =
        insertFragment q prev next meat (p.skb (s.1 + s.2)) ∧
      ∀ f, f ∈ prev ++ next ↔ f ∈ q.fragments ∧ f.piece ≠ s := by
  obtain ⟨prev, next, hplace, hsplit, hbefore, hafter⟩ := findPlace_spec p.offset [] q.fragments
  rw [hp.offset] at hbefore hafter
  have hprev : ∀ f ∈ prev, f.piece ≠ s := by
    rintro f hf rfl
    exact absurd (hbefore f hf) (lt_irrefl _)
  have hcut : cutHead p prev (p.skb (s.1 + s.2)) (s.1 + s.2) = .ok (p.skb (s.1 + s.2)) := by
    unfold cutHead
    cases hlast : prev.getLast? with
    | none => rfl
    | some f =>
      have hf : f ∈ prev := mem_of_getLast? hlast
      have hlt := hbefore f hf
      have hdisj := F.disjoint f.piece (hpiece f (by simp [hsplit, hf])) s hs (hprev f hf)
      simp only [Skb.piece] at hdisj
      refine if_neg ?_
      simp only [Packet.offset_skb, hp.offset]
      omega
  obtain ⟨mid, -, hnext⟩ := spread_append.1 (hsplit ▸ hinv.lined)
  unfold placeFragment
  simp only [hplace, nil_append, hcut]
  cases next with
  | nil =>
    refine ⟨prev, [], q.meat, rfl, fun f => ?_⟩
    rw [hsplit]
    simpa using hprev f
  | cons f next =>
    have hf : f ∈ q.fragments := by simp [hsplit]
    have hfpos := (hinv.valid f hf).pos
    have hle := hafter f (by simp)
    by_cases hdup : f.piece = s
    · have hover : overrideNext p (s.1 + s.2) q.meat (f :: next) =
          (true, q.meat - f.len, next) := by
        subst hdup
        have hlt : f.offset < f.offset + f.len := by omega
        simp only [overrideNext, Skb.piece, if_pos hlt, Nat.add_sub_cancel_left, lt_irrefl,
          if_false]
        exact overrideNext_of_lined hnext.2
      rw [hover]
      refine ⟨prev, next, _, rfl, fun g => ?_⟩
      have hbehind : ∀ g ∈ next, g.piece ≠ s := by
        rintro g hg rfl
        have hlow := hnext.2.lower hg
        simp only [Skb.piece, Prod.mk.injEq] at hdup
        omega
      rw [hsplit]
      simp only [mem_append, mem_cons]
      constructor
      · rintro (hg | hg)
        · exact ⟨.inl hg, hprev g hg⟩
        · exact ⟨.inr (.inr hg), hbehind g hg⟩
      · rintro ⟨hg | rfl | hg, hne⟩
        · exact .inl hg
        · exact absurd hdup hne
        · exact .inr hg
    · have hdisj := F.disjoint f.piece (hpiece f hf) s hs hdup
      simp only [Skb.piece] at hdisj
      have hlined : Lined (s.1 + s.2) q.len (f :: next) := ⟨by omega, hnext.2⟩
      rw [overrideNext_of_lined hlined]
      refine ⟨prev, f :: next, _, rfl, fun g => ?_⟩
      have hbehind : ∀ g ∈ f :: next, g.piece ≠ s := by
        rintro g hg rfl
        have hlow := hlined.lower hg
        simp only [Skb.piece] at hlow
        have hgpos := (hinv.valid g (by rw [hsplit]; exact mem_append_right _ hg)).pos
        omega
      rw [hsplit]
      constructor
      · intro hg
        exact ⟨hg, (mem_append.1 hg).elim (hprev g) (hbehind g)⟩
      · exact fun hg => hg.1

lemma Holds.tiles (h : Holds F F.pieces q) (hlen : q.len = payload.length) :
    Tiles Skb.offset Skb.len 0 payload.length q.fragments := by
  refine (hlen ▸ h.inv.lined).tiles_of_cover fun x _ hx => ?_
  obtain ⟨s, hs, hcover⟩ := (F.cover x).2 hx
  obtain ⟨f, hf, rfl⟩ := h.all s hs
  exact ⟨f, hf, hcover⟩

lemma Holds.ready_iff (h : Holds F D q) (hs : s ∈ D) : q.Ready ↔ D = F.pieces := by
  have hpos := F.pos s (h.subset hs)
  have hstop := Fragmentation.stop_le (h.subset hs)
  constructor
  · intro hready
    refine h.subset.antisymm fun t ht => ?_
    have hlen := h.len_eq hready.last
    have htiles := hlen ▸ h.inv.tiles hready
    have htpos := F.pos t ht
    have htstop := Fragmentation.stop_le ht
    obtain ⟨f, hf, hle, hlt⟩ := htiles.exists_covers (Nat.zero_le t.1) (by omega)
    have heq : f.piece = t :=
      Fragmentation.eq_of_mem (h.subset (h.piece f hf)) ht hle hlt le_rfl (by omega)
    exact heq ▸ h.piece f hf
  · rintro rfl
    obtain ⟨u, hu, hu1, hu2⟩ := (F.cover 0).2 (by omega)
    obtain ⟨v, hv, hv1, hv2⟩ := (F.cover (payload.length - 1)).2 (by omega)
    have hvstop := Fragmentation.stop_le hv
    have hlast := h.last.2 ⟨v, hv, by omega⟩
    have hlen := h.len_eq hlast
    have htotal := (h.tiles hlen).total_eq
    have hmeat := h.inv.meat
    obtain ⟨f, hf, -⟩ := h.all s hs
    exact ⟨h.first u hu (by omega), hlast, h.open_, by omega, ne_nil_of_mem hf⟩

/-- A piece comes in: it is there afterwards, and the datagram is put together if it was the last
that was missing. -/
lemma Holds.enqueue (h : Holds F D q) (hp : Carries payload p s) (hs : s ∈ F.pieces)
    (halign : s.1 + s.2 < payload.length → (s.1 + s.2) % 8 = 0) :
    ∃ q', Holds F (insert s D) q' ∧ q'.rid = q.rid ∧
      ((∃ prev, enqueue q p = (q', .reasm prev) ∧ insert s D = F.pieces) ∨
        (enqueue q p = (q', .inProgress) ∧ insert s D ≠ F.pieces)) := by
  obtain ⟨n, last, hext, hn, hstop, hlen, hlast⟩ := h.extend hp hs halign
  set q1 : Queue := { q with len := n, lastIn := last }
  have hpos := F.pos s hs
  have hsize := hp.length hs
  have hinv1 : Inv q1 := h.inv.extend (extend_spec hext)
  obtain ⟨prev, next, meat, hplace, hmem⟩ :=
    placeFragment_piece hinv1 (fun f hf => h.subset (h.piece f hf)) hp hs
  have henqueue : IpFragment.enqueue q p = placeFragment q1 p (s.1 + s.2) := by
    simp only [IpFragment.enqueue, hext]
    rw [if_neg (by rw [hp.offset]; omega), if_neg (by simp [hp.pull]), if_neg]
    rw [hp.offset]
    omega
  set skb := p.skb (s.1 + s.2)
  obtain ⟨hskb, hdata⟩ := hp.skb hs
  set q' := q1.withFragment prev next meat skb
  have hfragments : ∀ f, f ∈ q'.fragments ↔ f = skb ∨ (f ∈ q.fragments ∧ f.piece ≠ s) := by
    intro f
    rw [← hmem f]
    simp only [q', Queue.withFragment, mem_append, mem_cons]
    tauto
  have hcases := insertFragment_cases q1 prev next meat skb
  rw [← hplace, ← henqueue] at hcases
  have hinv' : Inv q' := by
    have hkeep := h.inv.enqueue (p := p)
    obtain ⟨-, heq⟩ | ⟨-, heq⟩ := hcases <;> simpa [heq] using hkeep
  have hholds : Holds F (insert s D) q' := by
    refine ⟨hinv', Finset.insert_subset hs h.subset, h.open_, fun f hf => ?_, fun f hf => ?_,
      fun t ht => ?_, fun t ht h0 => ?_, ?_, hn, hlen⟩
    · obtain rfl | ⟨hf, -⟩ := (hfragments f).1 hf
      · exact hskb ▸ Finset.mem_insert_self s D
      · exact Finset.mem_insert_of_mem (h.piece f hf)
    · obtain rfl | ⟨hf, -⟩ := (hfragments f).1 hf
      · exact hdata
      · exact h.data f hf
    · by_cases hts : t = s
      · exact ⟨skb, (hfragments skb).2 (.inl rfl), hskb.trans hts.symm⟩
      · obtain ⟨f, hf, rfl⟩ := h.all t (Finset.mem_of_mem_insert_of_ne ht hts)
        exact ⟨f, (hfragments f).2 (.inr ⟨hf, hts⟩), rfl⟩
    · change (q.firstIn || decide (skb.offset = 0)) = true
      rcases Finset.mem_insert.1 ht with rfl | ht
      · have hoffset : skb.offset = t.1 := congrArg Prod.fst hskb
        simp [hoffset, h0]
      · simp [h.first t ht h0]
    · rw [show q'.lastIn = last from rfl, hlast, h.last]
      simp only [Finset.mem_insert, exists_eq_or_imp]
      exact or_comm
  refine ⟨q', hholds, rfl, ?_⟩
  have hready := hholds.ready_iff (Finset.mem_insert_self s D)
  obtain ⟨hr, heq⟩ | ⟨hr, heq⟩ := hcases
  · exact .inl ⟨_, heq, hready.1 hr⟩
  · exact .inr ⟨heq, fun hall => hr (hready.2 hall)⟩

end Deliver

section Runs

variable {F : Fragmentation payload.length} {q : Queue} (maxDist : U32)

/-- The counter of the peer that the queue remembers after a packet. -/
def nextRid (rid : U32) (p : Packet) : U32 :=
  if p.fragComplete ∨ maxDist = 0 then rid else p.peerRid.getD rid

/-- No packet is too far from the one before. For the first one there is none. -/
def Near : U32 → List Packet → Prop
  | rid, p :: p' :: packets =>
    nextRid maxDist (nextRid maxDist rid p) p' - nextRid maxDist rid p ≤ maxDist ∧
      Near (nextRid maxDist rid p) (p' :: packets)
  | _, _ => True

variable {maxDist} {packets rest : List Packet}

/-- The packet is not too far from the one before, or is the first of the queue. -/
def NearQueue (maxDist : U32) (q : Queue) (p : Packet) : Prop :=
  q.fragments = [] ∨ nextRid maxDist q.rid p - q.rid ≤ maxDist

lemma enter_of_near (hopen : q.complete = false) (hnear : NearQueue maxDist q p) :
    ipFragQueueEnter maxDist q p = enqueue { q with rid := nextRid maxDist q.rid p } p := by
  unfold ipFragQueueEnter
  rw [if_neg (by simp [hopen])]
  by_cases hskip : p.fragComplete = true
  · rw [if_pos hskip, nextRid, if_pos (.inl hskip)]
  rw [if_neg hskip]
  have hfar : ipFragTooFar maxDist q p = (false, { q with rid := nextRid maxDist q.rid p }) := by
    cases hrid : p.peerRid with
    | none => simp [ipFragTooFar, nextRid, hrid]
    | some rid =>
      by_cases hmax : maxDist = 0#32
      · simp [ipFragTooFar, nextRid, hrid, hmax]
      · have hle : q.fragments = [] ∨ rid - q.rid ≤ maxDist := by
          simpa [NearQueue, nextRid, hskip, hmax, hrid] using hnear
        rcases hle with hnil | hle
        · simp [ipFragTooFar, nextRid, hrid, hmax, hskip, hnil]
        · simp [ipFragTooFar, nextRid, hrid, hmax, hskip, hle]
  simp only [hfar]
  rfl

lemma Holds.enter (h : Holds F D q) (hp : Carries payload p s) (hs : s ∈ F.pieces)
    (halign : ∀ s ∈ F.pieces, s.1 % 8 = 0) (hnear : NearQueue maxDist q p) :
    ∃ q', Holds F (insert s D) q' ∧ q'.rid = nextRid maxDist q.rid p ∧
      ((∃ prev, ipFragQueueEnter maxDist q p = (q', .reasm prev) ∧ insert s D = F.pieces) ∨
        (ipFragQueueEnter maxDist q p = (q', .inProgress) ∧ insert s D ≠ F.pieces)) := by
  rw [enter_of_near h.open_ hnear]
  have hrid : Holds F D { q with rid := nextRid maxDist q.rid p } :=
    ⟨⟨h.inv.lined, h.inv.valid, h.inv.meat⟩, h.subset, h.open_, h.piece, h.data, h.all, h.first,
      h.last, h.len_le, h.len_eq⟩
  refine hrid.enqueue hp hs fun hlt => ?_
  obtain ⟨t, ht, heq⟩ := Fragmentation.exists_next hs hlt
  exact heq ▸ halign t ht

lemma Carries.unique {t : ℕ × ℕ} (h : Carries payload p s) (h' : Carries payload p t)
    (hs : s ∈ F.pieces) (ht : t ∈ F.pieces) : s = t := by
  have hspos := F.pos s hs
  have htpos := F.pos t ht
  have heq : s.1 = t.1 := h.offset.symm.trans h'.offset
  exact Fragmentation.eq_of_mem hs ht le_rfl (by omega) heq.ge (by omega)

lemma Holds.receive (halign : ∀ s ∈ F.pieces, s.1 % 8 = 0) (h : Holds F D q)
    (hfirst : ∀ p ∈ (packets ++ rest).head?, NearQueue maxDist q p)
    (hnear : Near maxDist q.rid (packets ++ rest))
    (hcarry : ∀ p ∈ packets, ∃ s ∈ F.pieces, Carries payload p s)
    (hmissing : ∃ s ∈ F.pieces, s ∉ D ∧ ∀ p ∈ packets, ¬ Carries payload p s) :
    ∃ D', Holds F D' (receive maxDist q packets) ∧
      (∀ p ∈ rest.head?, NearQueue maxDist (receive maxDist q packets) p) ∧
      ∀ s ∈ F.pieces, s ∈ D' ↔ s ∈ D ∨ ∃ p ∈ packets, Carries payload p s := by
  induction packets generalizing q D with
  | nil => exact ⟨D, h, hfirst, fun s _ => by simp⟩
  | cons p packets ih =>
    obtain ⟨s, hs, hp⟩ := hcarry p (by simp)
    obtain ⟨t, ht, htD, htp⟩ := hmissing
    have hts : t ≠ s := by
      rintro rfl
      exact htp p (by simp) hp
    obtain ⟨q', hq', hrid, ⟨prev, -, hall⟩ | ⟨heq, -⟩⟩ :=
      h.enter hp hs halign (hfirst p rfl)
    · exact absurd (hall ▸ ht) (by simp [hts, htD])
    have hreceive : receive maxDist q (p :: packets) =
        receive maxDist q' packets := by
      simp [receive, ipFragQueue, heq]
    have hrest : (∀ p' ∈ (packets ++ rest).head?, NearQueue maxDist q' p') ∧
        Near maxDist q'.rid (packets ++ rest) := by
      rw [cons_append] at hnear
      rw [hrid]
      generalize packets ++ rest = list at hnear
      cases list with
      | nil => exact ⟨by simp, trivial⟩
      | cons p' list =>
        refine ⟨fun p'' hp'' => ?_, hnear.2⟩
        obtain rfl := Option.some.inj hp''
        unfold NearQueue
        rw [hrid]
        exact .inr hnear.1
    obtain ⟨D', hD', hnear', hmem⟩ := ih hq' hrest.1 hrest.2
      (fun p' hp' => hcarry p' (by simp [hp']))
      ⟨t, ht, by simp [hts, htD], fun p' hp' => htp p' (by simp [hp'])⟩
    rw [hreceive]
    refine ⟨D', hD', hnear', fun u hu => ?_⟩
    rw [hmem u hu, Finset.mem_insert]
    constructor
    · rintro ((rfl | huD) | ⟨p', hp', hcar⟩)
      · exact .inr ⟨p, by simp, hp⟩
      · exact .inl huD
      · exact .inr ⟨p', by simp [hp'], hcar⟩
    · rintro (huD | ⟨p', hp', hcar⟩)
      · exact .inl (.inr huD)
      · rcases mem_cons.1 hp' with rfl | hp'
        · exact .inl (.inl (hcar.unique hp hu hs))
        · exact .inr ⟨p', hp', hcar⟩

lemma holds_fresh (F : Fragmentation payload.length) (rid : U32) : Holds F ∅ { rid := rid } where
  inv := inv_fresh rid
  subset := Finset.empty_subset _
  open_ := rfl
  piece := by simp
  data := by simp
  all := by simp
  first := by simp
  last := by simp
  len_le := Nat.zero_le _
  len_eq := by simp

lemma flatMap_data_of_tiles {lo : ℕ} (h : Tiles Skb.offset Skb.len lo payload.length l)
    (hdata : ∀ f ∈ l, f.data = (payload.drop f.offset).take f.len) :
    l.flatMap Skb.data = payload.drop lo := by
  induction l generalizing lo with
  | nil =>
    have hlo : lo = payload.length := h
    simp [hlo]
  | cons f l ih =>
    obtain ⟨rfl, hl⟩ := h
    rw [flatMap_cons, ih hl fun g hg => hdata g (by simp [hg]), hdata f (by simp),
      ← drop_drop, take_append_drop]

/-- When the last missing piece comes in, and not before, the fragments are put together, and are
the payload. -/
lemma reasm_of_last (F : Fragmentation payload.length) (rid : U32)
    (hcarry : ∀ p' ∈ packets ++ [p], ∃ s ∈ F.pieces, Carries payload p' s)
    (hnear : Near maxDist rid (packets ++ [p]))
    (hmissing : ∃ s ∈ F.pieces, ∀ p' ∈ packets, ¬ Carries payload p' s)
    (hall : ∀ s ∈ F.pieces, ∃ p' ∈ packets ++ [p], Carries payload p' s) :
    (receive maxDist { rid := rid } packets).complete = false ∧
      ∃ q' prev, ipFragQueueEnter maxDist (receive maxDist { rid := rid } packets) p =
        (q', .reasm prev) ∧ q'.fragments.flatMap Skb.data = payload := by
  have halign : ∀ s ∈ F.pieces, s.1 % 8 = 0 := by
    intro s hs
    obtain ⟨p', -, hp'⟩ := hall s hs
    rw [← hp'.offset]
    exact Nat.mul_mod_left _ _
  obtain ⟨t, ht, hmiss⟩ := hmissing
  obtain ⟨D, hD, hnear', hmem⟩ := (holds_fresh F rid).receive halign
    (fun _ _ => .inl rfl) hnear
    (fun p' hp' => hcarry p' (by simp [hp'])) ⟨t, ht, by simp, hmiss⟩
  obtain ⟨s, hs, hp⟩ := hcarry p (by simp)
  have hlast : insert s D = F.pieces := by
    refine (Finset.insert_subset hs hD.subset).antisymm fun u hu => ?_
    obtain ⟨p', hp', hcar⟩ := hall u hu
    rcases mem_append.1 hp' with hp' | hp'
    · exact Finset.mem_insert_of_mem ((hmem u hu).2 (.inr ⟨p', hp', hcar⟩))
    · obtain rfl := mem_singleton.1 hp'
      exact hcar.unique hp hu hs ▸ Finset.mem_insert_self _ _
  obtain ⟨q', hq', -, ⟨prev, heq, -⟩ | ⟨-, hne⟩⟩ := hD.enter hp hs halign (hnear' p rfl)
  · rw [hlast] at hq'
    have hlen := hq'.len_eq (enter_reasm heq).last
    exact ⟨hD.open_, q', prev, heq, flatMap_data_of_tiles (hq'.tiles hlen) hq'.data⟩
  · exact absurd hlast hne

/-- The queue of the fragments of a datagram. As long as the datagram has not been put together
the fragments are in order, do not overlap, lie within the datagram and are counted by `meat`;
they cover it, each byte once, when they are put together; and that happens when the last missing
piece of a datagram comes in. -/
theorem ip_frag_queue_reassembles (maxDist rid : U32) :
    (∀ packets,
      let q := receive maxDist { rid := rid } packets
      q.fragments.Pairwise (fun f g => f.offset < g.offset ∧ f.offset + f.len ≤ g.offset) ∧
        (∀ f ∈ q.fragments, f.offset + f.len ≤ q.len) ∧
        (q.meat = total Skb.len q.fragments ∨ (q.complete = true ∧ q.fragments = []))) ∧
    (∀ packets p q' prev,
      ipFragQueueEnter maxDist (receive maxDist { rid := rid } packets) p = (q', .reasm prev) →
        q'.fragments.Pairwise (fun f g => f.offset < g.offset ∧ f.offset + f.len ≤ g.offset) ∧
        (∀ f ∈ q'.fragments, f.offset + f.len ≤ q'.len) ∧
        q'.meat = total Skb.len q'.fragments ∧
        ∀ x < q'.len, q'.fragments.countP (Covers Skb.offset Skb.len x) = 1) ∧
    ∀ (payload : List Byte) (F : Fragmentation payload.length) (packets : List Packet) (p : Packet),
      (∀ p' ∈ packets ++ [p], ∃ s ∈ F.pieces, Carries payload p' s) →
      Near maxDist rid (packets ++ [p]) →
      (∃ s ∈ F.pieces, ∀ p' ∈ packets, ¬ Carries payload p' s) →
      (∀ s ∈ F.pieces, ∃ p' ∈ packets ++ [p], Carries payload p' s) →
      (receive maxDist { rid := rid } packets).complete = false ∧
        ∃ q' prev, ipFragQueueEnter maxDist (receive maxDist { rid := rid } packets) p =
          (q', .reasm prev) ∧ q'.fragments.flatMap Skb.data = payload := by
  refine ⟨fun packets => ?_, fun packets p q' prev heq => ?_, fun payload F packets p => ?_⟩
  · rcases sound_receive maxDist (.inl (inv_fresh rid)) packets with hinv | ⟨hcomplete, hnil⟩
    · exact ⟨hinv.pairwise, fun f hf => hinv.lined.upper hf, .inl hinv.meat⟩
    · simp [hcomplete, hnil]
  · rcases sound_receive maxDist (.inl (inv_fresh rid)) packets with hinv | ⟨hcomplete, -⟩
    · have hinv' : Inv q' := by simpa [heq] using hinv.enter (p := p) maxDist
      exact ⟨hinv'.pairwise, fun f hf => hinv'.lined.upper hf, hinv'.meat,
        fun x hx => (hinv'.tiles (enter_reasm heq)).countP (Nat.zero_le x) hx⟩
    · have hclosed : ipFragQueueEnter maxDist (receive maxDist { rid := rid } packets) p =
          (_, .error .enoent) := if_pos hcomplete
      simp [hclosed] at heq
  · exact reasm_of_last F rid

/-- A packet of eight bytes at `8 * k`. -/
def samplePacket (k : ℕ) (more : Bool) (rid : U32) : Packet where
  fragOff := .ofNat 16 k ||| if more then 0x2000 else 0
  header := replicate 20 0
  payload := replicate 8 0
  peerRid := some rid

/-- Sixteen bytes in two pieces. -/
def sampleFragmentation : Fragmentation 16 where
  pieces := {(0, 8), (8, 8)}
  pos := by decide
  disjoint := by decide
  cover x := by
    simp only [Finset.mem_insert, Finset.mem_singleton, exists_eq_or_imp, exists_eq_left]
    omega

/-- The second piece comes twice, then the first. -/
theorem ip_frag_queue_reassembles_two :
    ∃ q' prev,
      ipFragQueueEnter 64 (receive 64 {} [samplePacket 1 false 1001, samplePacket 1 false 1002])
        (samplePacket 0 true 1003) = (q', .reasm prev) ∧
      q'.fragments.flatMap Skb.data = replicate 16 0 := by
  have hsecond : ∀ p' ∈ [samplePacket 1 false 1001, samplePacket 1 false 1002],
      Carries (replicate 16 0) p' (8, 8) := by
    simp only [forall_mem_cons, not_mem_nil, false_imp_iff, implies_true, and_true]
    exact ⟨⟨by decide, by decide, by decide, rfl⟩, ⟨by decide, by decide, by decide, rfl⟩⟩
  have hfirst : Carries (replicate 16 0) (samplePacket 0 true 1003) (0, 8) :=
    ⟨by decide, by decide, by decide, rfl⟩
  refine ((ip_frag_queue_reassembles 64 0).2.2 (replicate 16 0) sampleFragmentation
    [samplePacket 1 false 1001, samplePacket 1 false 1002] (samplePacket 0 true 1003)
    (fun p' hp' => ?_) ⟨by decide, by decide, trivial⟩
    ⟨(0, 8), by decide, fun p' hp' hcarries => ?_⟩ (fun s hs => ?_)).2
  · rcases mem_append.1 hp' with hp' | hp'
    · exact ⟨(8, 8), by decide, hsecond p' hp'⟩
    · exact ⟨(0, 8), by decide, mem_singleton.1 hp' ▸ hfirst⟩
  · exact absurd ((hsecond p' hp').offset.symm.trans hcarries.offset) (by decide)
  · rcases Finset.mem_insert.1 hs with rfl | hs
    · exact ⟨_, mem_append_right _ (mem_singleton_self _), hfirst⟩
    · obtain rfl := Finset.mem_singleton.1 hs
      exact ⟨samplePacket 1 false 1001, by simp, hsecond _ (by simp)⟩

/-- After the datagram has been put together the queue is empty and `meat` is what it was. A
datagram is not put together when other packets of the peer came in between. -/
theorem ip_frag_queue_reassembles_fails :
    ((receive 64 {} [samplePacket 0 true 1, samplePacket 1 false 2]).fragments = [] ∧
      (receive 64 {} [samplePacket 0 true 1, samplePacket 1 false 2]).meat = 16) ∧
    (receive 64 {} [samplePacket 0 true 1, samplePacket 1 false 66]).complete = false := by
  decide +kernel

end Runs

end BooxKernel.IpFragment
