import BooxKernel.Jffs2.Pieces

/-!
# Adding a node to the tree

`jffs2_add_frag_to_fragtree` puts a new fragment over the fragments of the file. What they have
before it and behind it stays, with a hole up to the new fragment when the file ends before it.
-/
namespace BooxKernel.Jffs2

open ColoredTrees Loops Rbtree Tilings List Option Inode Prod

variable {A N : Type} {s s' : Inode A N} {L xs ys : List (A × NodeFrag N)}
  {a newfrag extra : A} {f new : NodeFrag N} {lo e : ℕ}

/-! ## Marks -/

/-- Only flags of nodes change. -/
structure Marked (s s' : Inode A N) : Prop where
  fragtree : s'.fragtree = s.fragtree
  frag : s'.frag = s.frag
  frags : ∀ n, (s'.dnode n).frags = (s.dnode n).frags
  ofs : ∀ n, (s'.dnode n).ofs = (s.dnode n).ofs
  obsoleted : s'.obsoleted = s.obsoleted
  freed : s'.freed = s.freed

lemma Marked.refl (s : Inode A N) : Marked s s := ⟨rfl, rfl, fun _ => rfl, fun _ => rfl, rfl, rfl⟩

lemma Marked.trans {s'' : Inode A N} (h : Marked s s') (h' : Marked s' s'') : Marked s s'' :=
  ⟨h'.fragtree.trans h.fragtree, h'.frag.trans h.frag, fun n => (h'.frags n).trans (h.frags n),
    fun n => (h'.ofs n).trans (h.ofs n), h'.obsoleted.trans h.obsoleted, h'.freed.trans h.freed⟩

lemma Marked.shows (h : Marked s s') (hs : Shows s L) : Shows s' L := hs.congr h.fragtree h.frag

variable [DecidableEq N]

lemma marked_markRefNormal (s : Inode A N) (n : N) : Marked s (s.markRefNormal n) := by
  refine ⟨rfl, rfl, s.frags_modifyDnode n fun _ => rfl, fun k => ?_, rfl, rfl⟩
  rw [markRefNormal, dnode_modifyDnode]
  split_ifs with hk
  · rw [hk]
  · rfl

lemma marked_markRefNormalOf (s : Inode A N) (p : Option N) : Marked s (s.markRefNormalOf p) := by
  cases p with
  | none => exact .refl s
  | some n => exact marked_markRefNormal s n

lemma marked_twice (s : Inode A N) (p q : Option N) :
    Marked s ((s.markRefNormalOf p).markRefNormalOf q) :=
  (marked_markRefNormalOf s p).trans (marked_markRefNormalOf _ q)

lemma Marked.drops {fs : List (NodeFrag N)} (h : Marked s s') (hcounts : Counts s fs) :
    Drops s s' fs fs :=
  .of_same hcounts (fun _ => rfl) h.frags h.obsoleted h.freed

variable [DecidableEq A]

lemma Shows.obsolete (h : Shows s (xs ++ (a, f) :: ys))
    (hcounts : Counts s ((xs ++ (a, f) :: ys).map snd))
    (hfew : ∀ n, refs n ((xs ++ (a, f) :: ys).map snd) < 2 ^ 32) :
    ∃ m, rbErase a s.fragtree = some m ∧ Shows ((s.withTree m).obsoleteNodeFrag a) (xs ++ ys) ∧
      Drops s ((s.withTree m).obsoleteNodeFrag a) ((xs ++ (a, f) :: ys).map snd)
        ((xs ++ ys).map snd) ∧ ∀ n, refs n ((xs ++ ys).map snd) < 2 ^ 32 := by
  have hrefs : ∀ n, refs n ((xs ++ (a, f) :: ys).map snd) = refs n (f :: (xs ++ ys).map snd) := by
    simp only [map_append, map_cons, refs_append, refs_cons]
    omega
  obtain ⟨m, hm, hshows⟩ := h.erase
  refine ⟨m, hm, hshows.obsoleteNodeFrag a, ?_, fun n => ?_⟩
  · refine (Counts.obsoleteNodeFrag (s := s.withTree m) a hcounts (fun n => ?_) hfew).of_withTree
    rw [frag_withTree, h.frag_eq, hrefs]
  · have hn := hfew n
    rw [hrefs, refs_cons] at hn
    omega

/-! ## The fragments behind the new one -/

section
variable (h : Shows s (xs ++ (a, new) :: ys))
    (hcounts : Counts s ((xs ++ (a, new) :: ys).map snd))
    (hfew : ∀ n, refs n ((xs ++ (a, new) :: ys).map snd) < 2 ^ 32)
include h hcounts hfew

lemma swallowLoop_spec : ∃ s' gone rest, ys = gone ++ rest ∧
      s.swallowLoop a = some (s', rest.head?.map fst) ∧
      Shows s' (xs ++ (a, new) :: rest) ∧
      Drops s s' ((xs ++ (a, new) :: ys).map snd) ((xs ++ (a, new) :: rest).map snd) ∧
      (∀ p ∈ gone, p.2.stop ≤ new.stop) ∧ ∀ p ∈ rest.head?, new.stop < p.2.stop := by
  induction ys generalizing s with
  | nil =>
    refine ⟨s, [], [], rfl, ?_, h, .of_same hcounts fun _ => rfl, by simp, by simp⟩
    rw [swallowLoop, loop_eq, swallowRound, h.next]
    rfl
  | cons p ys ih =>
    have hround : swallowRound a s = if p.2.stop ≤ new.stop then
        (rbErase p.1 s.fragtree).bind fun m => some (.next ((s.withTree m).obsoleteNodeFrag p.1))
        else some (.done (s, some p.1)) := by
      rw [swallowRound, h.next]
      simp only [head?_cons, map_some, bind_eq_bind, bind_some]
      rw [h.frag_eq, h.frag p (by simp)]
      rfl
    by_cases hstop : p.2.stop ≤ new.stop
    · have hsplit := append_cons xs (a, new) (p :: ys)
      obtain ⟨m, hm, hshows, hdrop, hfew'⟩ :=
        (hsplit ▸ h).obsolete (hsplit ▸ hcounts) (hsplit ▸ hfew)
      simp only [← append_cons] at hshows hdrop hfew'
      obtain ⟨s', gone, rest, rfl, hrun, hfinal, hdrops, hgone, hrest⟩ :=
        ih hshows hdrop.counts hfew'
      refine ⟨s', p :: gone, rest, rfl, ?_, hfinal, hdrop.trans hdrops, ?_, hrest⟩
      · rw [swallowLoop, loop_eq, hround, if_pos hstop, hm]
        exact hrun
      · intro q hq
        rcases mem_cons.1 hq with rfl | hq
        · exact hstop
        · exact hgone q hq
    · refine ⟨s, [], p :: ys, rfl, ?_, h, .of_same hcounts fun _ => rfl, by simp,
        by simpa using hstop⟩
      rw [swallowLoop, loop_eq, hround, if_neg hstop]
      rfl

lemma trimFollowing_spec (hys : Tiled lo e (ys.map snd)) (hlo : lo ≤ new.ofs + new.size)
    (hnew : new.ofs + new.size < 2 ^ 32) (he : e < 2 ^ 32) :
    ∃ s' zs, s.trimFollowing a = some s' ∧ Shows s' (xs ++ (a, new) :: zs) ∧
      zs.map snd = cutAbove (new.ofs + new.size) (ys.map snd) ∧
      Drops s s' ((xs ++ (a, new) :: ys).map snd) ((xs ++ (a, new) :: zs).map snd) := by
  obtain ⟨s1, gone, rest, rfl, hrun, hshows, hdrops, hgone, hrest⟩ := swallowLoop_spec h hcounts hfew
  have hstop := NodeFrag.stop_eq hnew
  have hpiece : ∀ p ∈ gone ++ rest, p.2.stop = p.2.ofs + p.2.size := by
    intro p hp
    refine NodeFrag.stop_eq (lt_of_le_of_lt ?_ he)
    exact hys.spread.upper (mem_map_of_mem hp)
  have hcut : cutAbove (new.ofs + new.size) ((gone ++ rest).map snd) =
      cutAbove (new.ofs + new.size) (rest.map snd) := by
    rw [map_append]
    refine cutAbove_append fun g hg => ?_
    obtain ⟨p, hp, rfl⟩ := mem_map.1 hg
    rw [← hpiece p (mem_append_left _ hp), ← hstop]
    exact hgone p hp
  rw [hcut, trimFollowing, hrun]
  cases rest with
  | nil => exact ⟨s1, [], rfl, hshows, rfl, hdrops⟩
  | cons p rest =>
    obtain ⟨b, g⟩ := p
    have hgstop : g.stop = g.ofs + g.size := hpiece (b, g) (by simp)
    have hlater : new.ofs + new.size < g.ofs + g.size := by
      have hlt := hrest (b, g) (by simp)
      rwa [hstop, hgstop] at hlt
    have hstart : g.ofs ≤ new.ofs + new.size := by
      rw [map_append] at hys
      obtain ⟨mid, htiles, hmid, -⟩ := tiles_append.1 hys
      refine hmid.trans_le (htiles.le_of_forall hlo fun f hf => ?_)
      obtain ⟨q, hq, rfl⟩ := mem_map.1 hf
      rw [← hpiece q (mem_append_left _ hq), ← hstop]
      exact hgone q hq
    simp only [map_cons, cutAbove, if_neg (not_le.2 hlater)]
    simp only [head?_cons, map_some, bind_eq_bind, bind_some]
    rw [hshows.frag_eq, hshows.frag (b, g) (by simp)]
    by_cases heq : new.stop = g.ofs
    · rw [if_pos heq, if_pos (by omega)]
      exact ⟨s1, (b, g) :: rest, rfl, hshows, rfl, hdrops⟩
    · rw [if_neg heq, if_neg (by omega)]
      have hsize : sub32 g.stop new.stop = g.ofs + g.size - (new.ofs + new.size) := by
        rw [hgstop, hstop, sub32_eq _ (by omega)]
        exact lt_of_le_of_lt (hys.spread.upper (mem_map_of_mem (by simp : (b, g) ∈ _))) he
      set g' : NodeFrag N := { g with size := sub32 g.stop new.stop, ofs := new.stop } with hg'
      have hset : Shows (s1.setFrag b g') (xs ++ (a, new) :: (b, g') :: rest) := by
        rw [append_cons] at hshows ⊢
        exact hshows.setFrag
      have hsame : Drops s1 (s1.setFrag b g') ((xs ++ (a, new) :: (b, g) :: rest).map snd)
          ((xs ++ (a, new) :: (b, g') :: rest).map snd) := by
        refine .of_same hdrops.counts fun n => ?_
        simp only [map_append, map_cons, refs_append, refs_cons, hg']
      refine ⟨_, (b, g') :: rest, rfl, (marked_twice _ _ _).shows hset, ?_,
        (hdrops.trans hsame).trans ((marked_twice _ _ _).drops hsame.counts)⟩
      rw [map_cons, hg', hsize, hstop]

end

/-! ## The new fragment and the old ones -/

/-- The fragments `fs` of a file of length `e` became `ws` before and `zs` behind the new one. -/
structure Spliced (fs ws zs : List (NodeFrag N)) (e : ℕ) (new : NodeFrag N) : Prop where
  before : Tiled 0 new.ofs ws
  after : Tiled (new.ofs + new.size) (max e (new.ofs + new.size)) zs
  piece : ∀ g ∈ ws ++ zs, 0 < g.size ∧
    ((∃ f ∈ fs, g.node = f.node ∧ f.ofs ≤ g.ofs ∧ g.ofs + g.size ≤ f.ofs + f.size) ∨
      (g.node = none ∧ e ≤ g.ofs))

omit [DecidableEq A] [DecidableEq N] in
lemma Valid.spliced (h : Valid s (xs ++ (a, f) :: ys) e) (hle : f.ofs ≤ new.ofs)
    (hlt : new.ofs < f.ofs + f.size) :
    Spliced ((xs ++ (a, f) :: ys).map snd)
      (xs.map snd ++ if f.ofs < new.ofs then [{ f with size := new.ofs - f.ofs }] else [])
      (cutAbove (new.ofs + new.size) (f :: ys.map snd)) e new := by
  obtain ⟨hxs, hys⟩ := h.split
  have hmem : ∀ g ∈ f :: ys.map snd, g ∈ (xs ++ (a, f) :: ys).map snd := by
    intro g hg
    rw [map_append]
    exact mem_append_right _ hg
  have hrest : Tiled f.ofs e (f :: ys.map snd) := ⟨rfl, hys⟩
  have hafter := tiled_cutAbove hrest (x := new.ofs + new.size) (by omega)
  refine ⟨?_, max_comm e _ ▸ hafter, fun g hg => ?_⟩
  · refine tiles_append.2 ⟨f.ofs, hxs, ?_⟩
    split_ifs with hofs
    · exact ⟨rfl, by dsimp only; exact Nat.add_sub_cancel' hle⟩
    · exact le_antisymm hle (not_lt.1 hofs)
  · rw [append_assoc, mem_append, mem_append] at hg
    rcases hg with hg | hg | hg
    · obtain ⟨p, hp, rfl⟩ := mem_map.1 hg
      exact ⟨h.pos p (by simp [hp]), .inl ⟨p.2, mem_map_of_mem (by simp [hp]), rfl, le_rfl, le_rfl⟩⟩
    · split_ifs at hg with hofs
      · obtain rfl := mem_singleton.1 hg
        refine ⟨by dsimp only; omega, .inl ⟨f, hmem f mem_cons_self, rfl, le_rfl, ?_⟩⟩
        dsimp only
        omega
      · simp at hg
    · obtain ⟨f', hf', hnode, hstart, hend, hsize⟩ := of_mem_cutAbove hg
      have hfs := hmem f' hf'
      refine ⟨hsize ?_, .inl ⟨f', hfs, hnode, hstart, hend.le⟩⟩
      obtain ⟨p, hp, rfl⟩ := mem_map.1 hfs
      exact h.pos p hp

omit [DecidableEq A] [DecidableEq N] in
lemma Valid.spliced_end (h : Valid s L e) (he : e ≤ new.ofs) :
    Spliced (L.map snd)
      (L.map snd ++ if e < new.ofs then [⟨none, new.ofs - e, e⟩] else []) [] e new := by
  refine ⟨tiles_append.2 ⟨e, h.tiles, ?_⟩, ?_, fun g hg => ?_⟩
  · split_ifs with hofs
    · exact ⟨rfl, Nat.add_sub_cancel' he⟩
    · exact le_antisymm he (not_lt.1 hofs)
  · exact (max_eq_right (by omega)).symm
  · rw [append_nil, mem_append] at hg
    rcases hg with hg | hg
    · obtain ⟨p, hp, rfl⟩ := mem_map.1 hg
      exact ⟨h.pos p hp, .inl ⟨p.2, hg, rfl, le_rfl, le_rfl⟩⟩
    · split_ifs at hg with hofs
      · obtain rfl := mem_singleton.1 hg
        exact ⟨Nat.sub_pos_of_lt hofs, .inr ⟨rfl, le_rfl⟩⟩
      · simp at hg

/-- What there is before the new fragment is put into the tree. -/
structure Ready (s : Inode A N) (L : List (A × NodeFrag N)) (e : ℕ) (newfrag extra : A)
    (new : NodeFrag N) (n : N) : Prop where
  valid : Valid s L e
  frag : s.frag newfrag = new
  node : new.node = some n
  ofs : (s.dnode n).ofs = new.ofs
  pos : 0 < new.size
  bound : new.ofs + new.size < 2 ^ 32
  newfrag_notMem : newfrag ∉ L.map fst
  extra_notMem : extra ∉ L.map fst
  ne : newfrag ≠ extra
  counts : Counts s (new :: L.map snd)
  unused : refs n (L.map snd) = 0

/-- The new fragment is in the tree. -/
def Added (s s' : Inode A N) (L : List (A × NodeFrag N)) (e : ℕ) (newfrag : A)
    (new : NodeFrag N) : Prop :=
  ∃ ws zs, Shows s' (ws ++ (newfrag, new) :: zs) ∧
    Spliced (L.map snd) (ws.map snd) (zs.map snd) e new ∧
    Drops s s' (new :: L.map snd) ((ws ++ (newfrag, new) :: zs).map snd)

omit [DecidableEq A] in
lemma Added.of_marked {s1 : Inode A N} (h : Added s1 s' L e newfrag new) (hm : Marked s s1)
    (hcounts : Counts s (new :: L.map snd)) : Added s s' L e newfrag new := by
  obtain ⟨ws, zs, hshows, hspliced, hdrops⟩ := h
  exact ⟨ws, zs, hshows, hspliced, (hm.drops hcounts).trans hdrops⟩

namespace Ready
variable {n : N}

omit [DecidableEq A] in
lemma of_marked (h : Ready s L e newfrag extra new n) (hm : Marked s s') :
    Ready s' L e newfrag extra new n :=
  { h with
    valid := { h.valid with shows := hm.shows h.valid.shows }
    frag := by rw [hm.frag, h.frag]
    ofs := by rw [hm.ofs, h.ofs]
    counts := h.counts.congr hm.frags fun _ => rfl }

omit [DecidableEq A] in
lemma refs_lt (h : Ready s L e newfrag extra new n) (k : N) :
    refs k (new :: L.map snd) < 2 ^ 32 := by
  have hbound := h.valid.bound
  have hrefs := h.valid.refs_le k
  rw [refs_cons, h.node]
  by_cases hk : n = k
  · rw [← hk, h.unused]
    norm_num
  · rw [if_neg (by simpa using hk)]
    omega

section
variable (h : Ready s (xs ++ (a, f) :: ys) e newfrag extra new n)
include h

omit [DecidableEq A] in
lemma later {x : ℕ} (hx : x < f.ofs + f.size) : ∀ p ∈ ys, x < p.2.ofs :=
  fun _ hp => hx.trans_le (h.valid.split.2.spread.lower (mem_map_of_mem hp))

omit [DecidableEq A] in
lemma bounds : f.stop = f.ofs + f.size ∧ f.ofs + f.size ≤ e ∧ e < 2 ^ 32 ∧
    new.stop = new.ofs + new.size :=
  ⟨h.valid.stop_eq (p := (a, f)) (by simp), h.valid.le_end (p := (a, f)) (by simp),
    h.valid.bound, NodeFrag.stop_eq h.bound⟩

lemma overlapStart (hofs : f.ofs = new.ofs) :
    ∃ s', s.overlapStart newfrag a = some (s', none) ∧
      Added s s' (xs ++ (a, f) :: ys) e newfrag new := by
  have hf := h.valid.pos (a, f) (by simp)
  have hpos := h.pos
  obtain ⟨hstop, hend, hbound, hnew⟩ := h.bounds
  have hsplice := h.valid.spliced hofs.le (hofs ▸ Nat.lt_add_of_pos_right hf)
  rw [if_neg (by omega), append_nil] at hsplice
  set s1 := s.withTree (rbReplaceNode a newfrag s.fragtree) with hs1
  have hshows : Shows s1 (xs ++ (newfrag, new) :: ys) := by
    rw [← h.frag]
    exact h.valid.shows.replace h.newfrag_notMem
  have hfrag : s1.frag a = f := h.valid.shows.frag_eq
  have hfragNew : s1.frag newfrag = new := h.frag
  rw [Inode.overlapStart, ← hs1, hfrag, hfragNew]
  by_cases hall : f.stop ≤ new.stop
  · rw [if_pos hall]
    have hdrop : Drops s (s1.obsoleteNodeFrag a) (new :: (xs ++ (a, f) :: ys).map snd)
        ((xs ++ (newfrag, new) :: ys).map snd) := by
      refine (Counts.obsoleteNodeFrag (s := s1) a h.counts (fun k => ?_) h.refs_lt).of_withTree
      rw [hfrag]
      simp only [map_append, map_cons, refs_append, refs_cons]
      omega
    have hfew : ∀ k, refs k ((xs ++ (newfrag, new) :: ys).map snd) < 2 ^ 32 := by
      intro k
      refine lt_of_le_of_lt ?_ (h.refs_lt k)
      simp only [map_append, map_cons, refs_append, refs_cons]
      omega
    obtain ⟨s', zs, hrun, hshows', hzs, hdrops⟩ := trimFollowing_spec
      (hshows.obsoleteNodeFrag a) hdrop.counts hfew h.valid.split.2 (by omega) h.bound hbound
    refine ⟨s', by simp [hrun], xs, zs, hshows', ?_, hdrop.trans hdrops⟩
    rw [cutAbove, if_pos (by omega)] at hsplice
    rwa [hzs]
  · rw [if_neg hall]
    set f' : NodeFrag N := { f with ofs := f.ofs + new.size, size := f.size - new.size } with hf'
    have hset : { f with ofs := u32 (f.ofs + new.size), size := sub32 f.size new.size } = f' := by
      rw [u32_eq (by omega), sub32_eq (by omega) (by omega)]
    have ha : a ∉ (xs ++ (newfrag, new) :: ys).map fst := by
      have hmem := h.valid.shows.notMem
      have hne := h.newfrag_notMem
      simp only [map_append, map_cons, mem_append, mem_cons, not_or] at hne ⊢
      exact ⟨hmem.1, Ne.symm hne.2.1, hmem.2⟩
    obtain ⟨m, hm, hshows'⟩ := (hshows.setFrag_of_notMem (f := f') ha).fragtreeInsert ha
      (s1.frag_setFrag_self a f') (show new.ofs < f.ofs + new.size by omega)
      (h.later (show f.ofs + new.size < _ by omega))
    refine ⟨_, by dsimp only; rw [hset, hm]; rfl, xs, (a, f') :: ys, hshows', ?_, ?_⟩
    · rw [cutAbove, if_neg (by omega), if_neg (by omega)] at hsplice
      have hcut : { f with ofs := new.ofs + new.size, size := f.ofs + f.size - (new.ofs + new.size) }
          = f' := by
        rw [← hofs, Nat.add_sub_add_left]
      rwa [hcut] at hsplice
    · refine .of_same h.counts fun k => ?_
      simp only [map_append, map_cons, refs_append, refs_cons, hf']
      omega

omit [DecidableEq A] in
lemma split_drops
    {left tail : NodeFrag N} (hleft : left.node = f.node) (htail : tail.node = f.node)
    (hsize : 1 < f.size) (hobsoleted : s'.obsoleted = s.obsoleted) (hfreed : s'.freed = s.freed)
    (hfrags : ∀ k, (s'.dnode k).frags =
      if f.node = some k then u32 ((s.dnode k).frags + 1) else (s.dnode k).frags) :
    Drops s s' (new :: (xs ++ (a, f) :: ys).map snd)
      ((xs ++ (a, left) :: (newfrag, new) :: (extra, tail) :: ys).map snd) := by
  have hrefs : ∀ k, refs k ((xs ++ (a, left) :: (newfrag, new) :: (extra, tail) :: ys).map snd) =
      refs k (new :: (xs ++ (a, f) :: ys).map snd) + if f.node = some k then 1 else 0 := by
    simp only [map_append, map_cons, refs_append, refs_cons, hleft, htail]
    omega
  have hown : ∀ k, f.node = some k → 0 < refs k (new :: (xs ++ (a, f) :: ys).map snd) ∧
      refs k (new :: (xs ++ (a, f) :: ys).map snd) + 1 < 2 ^ 32 := by
    intro k hk
    have hpos : 0 < refs k ((xs ++ (a, f) :: ys).map snd) := by
      simp only [map_append, map_cons, refs_append, refs_cons, if_pos hk]
      omega
    have hnk : n ≠ k := by
      rintro rfl
      rw [h.unused] at hpos
      exact lt_irrefl 0 hpos
    have hlength : refs k ((xs ++ (a, f) :: ys).map snd) ≤
        ((xs ++ (a, f) :: ys).map snd).length := countP_le_length
    have hle := h.valid.length_le
    have hbound := h.valid.bound
    rw [length_map, length_append, length_cons] at hlength
    rw [refs_cons, h.node, if_neg (by simpa using hnk)]
    omega
  refine ⟨fun k hk => ?_, ⟨[], hobsoleted, hfreed, .nil, fun k => ?_⟩, fun k hk => ?_⟩
  · rw [hrefs] at hk ⊢
    rw [hfrags]
    split_ifs at hk ⊢ with hnode
    · rw [h.counts k (hown k hnode).1, u32_eq (hown k hnode).2]
    · exact h.counts k hk
  · rw [hrefs]
    simp only [not_mem_nil, false_iff]
    omega
  · rw [hrefs, hk]
    split_ifs with hnode
    · have hpos := (hown k hnode).1
      omega
    · rfl

lemma splitFrag (hofs : f.ofs < new.ofs) (hlast : new.ofs + new.size < f.ofs + f.size) :
    ∃ s', s.splitFrag newfrag a (some extra) = some (s', none) ∧
      Added s s' (xs ++ (a, f) :: ys) e newfrag new := by
  have hpos := h.pos
  obtain ⟨hstop, hend, hbound, hnew⟩ := h.bounds
  have hnotMem := h.newfrag_notMem
  have hextra := h.extra_notMem
  set left : NodeFrag N := { f with size := new.ofs - f.ofs } with hleft
  set tail : NodeFrag N :=
    { f with ofs := new.ofs + new.size, size := f.ofs + f.size - (new.ofs + new.size) } with htail
  have hsplice := h.valid.spliced hofs.le (by omega)
  rw [if_pos hofs, cutAbove, if_neg (by omega), if_neg (by omega)] at hsplice
  set s2 := (s.setFrag extra tail).countFrag f.node with hs2
  obtain ⟨hs₂tree, hs₂frag, hobsoleted, hfreed⟩ : s2.fragtree = s.fragtree ∧
      s2.frag = (s.setFrag extra tail).frag ∧ s2.obsoleted = s.obsoleted ∧ s2.freed = s.freed := by
    rw [hs2, countFrag_eq]
    exact ⟨rfl, rfl, rfl, rfl⟩
  have hshows : Shows (s2.setFrag a left) (xs ++ (a, left) :: ys) := by
    refine Shows.setFrag (f := f) ?_
    exact (h.valid.shows.setFrag_of_notMem hextra).congr hs₂tree hs₂frag
  have hne : newfrag ≠ a := fun heq => hnotMem (by simp [heq])
  have hextraNe : extra ≠ a := fun heq => hextra (by simp [heq])
  have hfragNew : (s2.setFrag a left).frag newfrag = new := by
    rw [frag_setFrag_of_ne _ hne, hs₂frag, frag_setFrag_of_ne _ h.ne, h.frag]
  have hfragExtra : (s2.setFrag a left).frag extra = tail := by
    rw [frag_setFrag_of_ne _ hextraNe, hs₂frag, frag_setFrag_self]
  have hnotMem1 : newfrag ∉ (xs ++ (a, left) :: ys).map fst := by simpa using hnotMem
  obtain ⟨m, hm, hshows1⟩ := hshows.fragtreeInsert hnotMem1 hfragNew hofs (h.later (by omega))
  rw [append_cons] at hshows1
  have hextra1 : extra ∉ (xs ++ [(a, left)] ++ (newfrag, new) :: ys).map fst := by
    simp only [map_append, map_cons, map_nil, mem_append, mem_cons,
      not_mem_nil, or_false, not_or] at hextra ⊢
    exact ⟨⟨hextra.1, hextra.2.1⟩, Ne.symm h.ne, hextra.2.2⟩
  obtain ⟨m', hm', hshows2⟩ := hshows1.fragtreeInsert hextra1 hfragExtra
    (show new.ofs < new.ofs + new.size by omega) (h.later hlast)
  have htail' : s.newFragment extra f.node new.stop (sub32 f.stop new.stop) =
      s.setFrag extra tail := by
    rw [newFragment, hstop, hnew, sub32_eq (by omega) hlast.le]
  have hleft' : { f with size := sub32 new.ofs f.ofs } = left := by
    rw [sub32_eq (by omega) hofs.le]
  refine ⟨_, ?_, xs ++ [(a, left)], (extra, tail) :: ys, hshows2, by simpa using hsplice, ?_⟩
  · rw [Inode.splitFrag, h.valid.shows.frag_eq, h.frag]
    rw [htail', hleft', hm]
    simp only [bind_eq_bind, bind_some, hm']
    rfl
  · rw [← append_cons]
    exact h.split_drops rfl rfl (by omega) hobsoleted hfreed fun k =>
      (s.setFrag extra tail).frags_countFrag f.node k

lemma overlapInside (hofs : f.ofs < new.ofs) (hlt : new.ofs < f.ofs + f.size) :
    ∃ s', s.overlapInside newfrag a (some extra) = some (s', none) ∧
      Added s s' (xs ++ (a, f) :: ys) e newfrag new := by
  obtain ⟨s1, hs1, hmarked⟩ : ∃ s1, (s.markRefNormalOf (s.frag newfrag).node).markRefNormalOf
      ((s.markRefNormalOf (s.frag newfrag).node).frag a).node = s1 ∧ Marked s s1 :=
    ⟨_, rfl, marked_twice s _ _⟩
  have h1 := h.of_marked hmarked
  obtain ⟨hstop, hend, hbound, hnew⟩ := h.bounds
  rw [Inode.overlapInside, hs1, h1.frag, h1.valid.shows.frag_eq]
  by_cases hlast : new.stop < f.stop
  · rw [if_pos hlast]
    obtain ⟨s', hrun, hadded⟩ := h1.splitFrag hofs (by omega)
    exact ⟨s', hrun, hadded.of_marked hmarked h.counts⟩
  · rw [if_neg hlast]
    dsimp only
    rw [sub32_eq (by omega) hofs.le]
    set left : NodeFrag N := { f with size := new.ofs - f.ofs } with hleft
    have hsplice := h.valid.spliced hofs.le hlt
    rw [if_pos hofs, cutAbove, if_pos (by omega)] at hsplice
    have hfrag : (s1.setFrag a left).frag newfrag = new := by
      rw [frag_setFrag_of_ne, h1.frag]
      exact fun heq => h.newfrag_notMem (by simp [heq])
    have hshows : Shows (s1.setFrag a left) (xs ++ (a, left) :: ys) := h1.valid.shows.setFrag
    have hnotMem : newfrag ∉ (xs ++ (a, left) :: ys).map fst := by
      simpa using h.newfrag_notMem
    obtain ⟨m, hm, hshows1⟩ := hshows.fragtreeInsert hnotMem hfrag hofs (h.later hlt)
    rw [append_cons] at hshows1
    have hrefs : ∀ k, refs k ((xs ++ [(a, left)] ++ (newfrag, new) :: ys).map snd) =
        refs k (new :: (xs ++ (a, f) :: ys).map snd) := by
      simp only [map_append, map_cons, map_nil, refs_append, refs_cons, refs_nil, hleft]
      omega
    have hdrop : Drops s ((s1.setFrag a left).withTree m) (new :: (xs ++ (a, f) :: ys).map snd)
        ((xs ++ [(a, left)] ++ (newfrag, new) :: ys).map snd) :=
      .of_same h.counts hrefs hmarked.frags hmarked.obsoleted hmarked.freed
    obtain ⟨s', zs, hrun, hshows', hzs, hdrops⟩ := trimFollowing_spec hshows1 hdrop.counts
      (fun k => hrefs k ▸ h.refs_lt k) h.valid.split.2 (by omega) h.bound hbound
    refine ⟨s', ?_, xs ++ [(a, left)], zs, hshows', ?_, hdrop.trans hdrops⟩
    · rw [hm]
      simp only [bind_eq_bind, bind_some, hrun]
      rfl
    · rw [hzs]
      simpa using hsplice

end

lemma noOverlappingNode (h : Ready s L e newfrag extra new n) (he : e ≤ new.ofs) :
    ∃ s', s.noOverlappingNode newfrag (L.getLast?.map fst) e (some extra) = some (s', none) ∧
      Added s s' L e newfrag new := by
  have hsplice := h.valid.spliced_end he
  have hbound := h.bound
  rw [Inode.noOverlappingNode, h.frag, h.node]
  simp only [bind_eq_bind, bind_some]
  rw [h.ofs]
  by_cases hhole : e < new.ofs
  · rw [if_pos hhole] at hsplice ⊢
    set hole : NodeFrag N := ⟨none, new.ofs - e, e⟩ with hhole'
    have hset : s.newFragment extra none e (sub32 new.ofs e) = s.setFrag extra hole := by
      rw [newFragment, sub32_eq (by omega) he]
    have hfrag : (s.setFrag extra hole).frag newfrag = new := by
      rw [frag_setFrag_of_ne _ h.ne, h.frag]
    obtain ⟨m, hm, hshows⟩ := (h.valid.shows.setFrag_of_notMem (f := hole)
      h.extra_notMem).linkBehind h.extra_notMem (s.frag_setFrag_self extra hole)
    have hnotMem : newfrag ∉ (L ++ [(extra, hole)]).map fst := by
      rw [map_append, mem_append, not_or]
      exact ⟨h.newfrag_notMem, by simpa using h.ne⟩
    obtain ⟨m', hm', hshows'⟩ := hshows.linkBehind hnotMem hfrag
    rw [getLast?_concat] at hm'
    refine ⟨_, ?_, L ++ [(extra, hole)], [], hshows', by simpa using hsplice, ?_⟩
    · rw [hset, hm]
      rw [map_some] at hm'
      simp only [bind_some, hm']
      rfl
    · refine .of_same h.counts fun k => ?_
      simp [refs_cons, hhole']
  · rw [if_neg hhole] at hsplice ⊢
    obtain ⟨m, hm, hshows⟩ := h.valid.shows.linkBehind h.newfrag_notMem h.frag
    refine ⟨_, by rw [hm]; rfl, L, [], hshows, by simpa using hsplice, ?_⟩
    refine .of_same h.counts fun k => ?_
    simp [refs_cons]

lemma addFragToFragtree (h : Ready s L e newfrag extra new n) (shift : ℕ) :
    ∃ s', s.addFragToFragtree shift newfrag (some extra) = some (s', none) ∧
      Added s s' L e newfrag new := by
  rw [Inode.addFragToFragtree, h.frag, h.node]
  simp only [bind_eq_bind, bind_some]
  rw [h.ofs]
  rcases h.valid.lookup new.ofs with ⟨rfl, hlookup⟩ | ⟨xs, a, f, ys, rfl, hlookup, hle, hcase⟩
  · obtain rfl : 0 = e := h.valid.tiles
    obtain ⟨s', hrun, hadded⟩ := h.noOverlappingNode (Nat.zero_le _)
    refine ⟨s', ?_, hadded⟩
    rw [hlookup]
    exact hrun
  · have hstop : f.stop = f.ofs + f.size := h.valid.stop_eq (p := (a, f)) (by simp)
    rw [hlookup]
    simp only [bind_some]
    rw [h.valid.shows.frag_eq]
    rcases hcase with hlt | ⟨rfl, he⟩
    · rw [if_neg (by omega)]
      by_cases hofs : f.ofs < new.ofs
      · rw [if_pos hofs]
        exact h.overlapInside hofs hlt
      · rw [if_neg hofs]
        exact h.overlapStart (by omega)
    · obtain rfl : f.ofs + f.size = e := h.valid.split.2
      rw [if_pos (by omega), hstop]
      obtain ⟨s1, hrun1, hmarked⟩ : ∃ s1, s.markSharedPage shift newfrag (some a) (f.ofs + f.size) =
          some s1 ∧ Marked s s1 := by
        rw [markSharedPage]
        split_ifs
        · exact ⟨_, rfl, marked_twice s _ _⟩
        · exact ⟨s, rfl, .refl s⟩
      obtain ⟨s', hrun, hadded⟩ := (h.of_marked hmarked).noOverlappingNode he
      refine ⟨s', ?_, hadded.of_marked hmarked h.counts⟩
      rw [getLast?_concat] at hrun
      rw [hrun1]
      exact hrun

end Ready

/-! ## The whole call -/

lemma markPrevious_marked (h : Shows s (xs ++ (newfrag, new) :: ys))
    (hxs : Tiled 0 new.ofs (xs.map snd)) (shift : ℕ) (fn : N) :
    ∃ s', s.markPrevious shift fn newfrag = some s' ∧ Marked s s' := by
  rw [markPrevious, h.frag_eq]
  split_ifs with hpage
  · rcases eq_nil_or_concat xs with rfl | ⟨xs, p, rfl⟩
    · have hzero : 0 = new.ofs := hxs
      rw [← hzero, Nat.zero_and] at hpage
      exact absurd rfl hpage
    · rw [h.prev, concat_eq_append, getLast?_concat]
      exact ⟨_, rfl, (marked_markRefNormal s fn).trans (marked_markRefNormalOf _ _)⟩
  · exact ⟨s, rfl, .refl s⟩

lemma markNext_marked (h : Shows s (xs ++ (newfrag, new) :: ys)) (shift : ℕ) (fn : N) :
    ∃ s', s.markNext shift fn newfrag = some s' ∧ Marked s s' := by
  rw [markNext]
  split_ifs
  · rw [h.next]
    cases ys with
    | nil => exact ⟨s, rfl, .refl s⟩
    | cons p ys => exact ⟨_, rfl, (marked_markRefNormal s fn).trans (marked_markRefNormalOf _ _)⟩
  · exact ⟨s, rfl, .refl s⟩

lemma Valid.addFullDnodeToInode (h : Valid s L e) (hcounts : Counts s (L.map snd))
    (shift : ℕ) {fn : N} (hunused : refs fn (L.map snd) = 0) (hsize : 0 < (s.dnode fn).size)
    (hbound : (s.dnode fn).ofs + (s.dnode fn).size < 2 ^ 32) (hnewfrag : newfrag ∉ L.map fst)
    (hextra : extra ∉ L.map fst) (hne : newfrag ≠ extra) :
    ∃ s', s.addFullDnodeToInode shift fn (some newfrag) (some extra) = some (s', none) ∧
      Added s s' L e newfrag ⟨some fn, (s.dnode fn).size, (s.dnode fn).ofs⟩ := by
  set new : NodeFrag N := ⟨some fn, (s.dnode fn).size, (s.dnode fn).ofs⟩ with hnew
  set s1 := (s.setFrag newfrag new).modifyDnode fn fun d => { d with frags := 1 } with hs1
  have hready : Ready s1 L e newfrag extra new fn := by
    refine ⟨⟨?_, h.tiles, h.pos, h.bound⟩, ?_, rfl, ?_, hsize, hbound, hnewfrag, hextra, hne, ?_,
      hunused⟩
    · exact (h.shows.setFrag_of_notMem hnewfrag).congr rfl rfl
    · exact s.frag_setFrag_self newfrag new
    · rw [dnode_modifyDnode, if_pos rfl]
      rfl
    · intro k hk
      rw [refs_cons] at hk ⊢
      rw [dnode_modifyDnode]
      by_cases hkn : k = fn
      · rw [if_pos hkn, hkn, hunused, if_pos rfl]
      · have hnode : ¬new.node = some k := by simpa [hnew] using Ne.symm hkn
        rw [if_neg hnode] at hk ⊢
        rw [if_neg hkn]
        exact hcounts k hk
  obtain ⟨s2, hrun2, ws, zs, hshows, hspliced, hdrops⟩ := hready.addFragToFragtree shift
  obtain ⟨s3, hrun3, hmarked3⟩ := markPrevious_marked hshows hspliced.before shift fn
  obtain ⟨s4, hrun4, hmarked4⟩ := markNext_marked (hmarked3.shows hshows) shift fn
  have hmarked := hmarked3.trans hmarked4
  have hfinal := hdrops.trans (hmarked.drops hdrops.counts)
  refine ⟨s4, ?_, ws, zs, hmarked.shows hshows, hspliced, hfinal.counts, hfinal.gone, hfinal.zero⟩
  rw [Inode.addFullDnodeToInode, if_neg hsize.ne']
  dsimp only
  rw [newFragment, hrun2]
  simp only [bind_eq_bind, bind_some, hrun3, hrun4]
  rfl

end BooxKernel.Jffs2
