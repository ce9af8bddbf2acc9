import BooxKernel.Jffs2.Add

/-!
# Truncating the tree

`jffs2_truncate_fragtree` leaves the part of the file below the new size, which is all of it when
the file is not longer.
-/
namespace BooxKernel.Jffs2

open ColoredTrees Loops Rbtree Tilings List Option Prod

variable {A N : Type} [DecidableEq A] [DecidableEq N] {s : Inode A N}
  {L ws rest : List (A × NodeFrag N)} {e size : ℕ}

lemma truncateLoop_spec (h : Shows s (ws ++ rest)) (hcounts : Counts s ((ws ++ rest).map snd))
    (hfew : ∀ n, refs n ((ws ++ rest).map snd) < 2 ^ 32) (hrest : ∀ p ∈ rest, size ≤ p.2.ofs) :
    ∃ s', loop (Inode.truncateRound size) (s, rest.head?.map fst) = some s' ∧ Shows s' ws ∧
      Drops s s' ((ws ++ rest).map snd) (ws.map snd) := by
  induction rest generalizing s with
  | nil =>
    rw [append_nil] at h hcounts ⊢
    refine ⟨s, ?_, h, .of_same hcounts fun _ => rfl⟩
    rw [loop_eq]
    rfl
  | cons p rest ih =>
    obtain ⟨m, hm, hshows, hdrop, hfew'⟩ := h.obsolete hcounts hfew
    obtain ⟨s', hrun, hshows', hdrops⟩ :=
      ih hshows hdrop.counts hfew' fun q hq => hrest q (mem_cons_of_mem p hq)
    refine ⟨s', ?_, hshows', hdrop.trans hdrops⟩
    have hround : Inode.truncateRound size (s, some p.1) =
        some (.next ((s.withTree m).obsoleteNodeFrag p.1, rest.head?.map fst)) := by
      rw [Inode.truncateRound, h.frag_eq, if_pos (hrest p mem_cons_self), h.next, hm]
      rfl
    rw [head?_cons, map_some, loop_eq, hround]
    exact hrun

omit [DecidableEq A] in
lemma finishTruncate_spec (h : Valid s ws (min size e)) (shift : ℕ) :
    ∃ s', s.finishTruncate shift size = some (s', min size e) ∧ Marked s s' := by
  rw [Inode.finishTruncate]
  by_cases hzero : size = 0
  · rw [hzero]
    exact ⟨s, rfl, .refl s⟩
  · rw [if_neg hzero, h.shows.last]
    rcases eq_nil_or_concat ws with rfl | ⟨ws, p, rfl⟩
    · have hend : 0 = min size e := h.tiles
      rw [← hend]
      exact ⟨s, rfl, .refl s⟩
    · rw [concat_eq_append] at h ⊢
      have hend : p.2.ofs + p.2.size = min size e := h.split.2
      have hstop : (s.frag p.1).stop = min size e := by
        rw [h.shows.frag_eq, h.stop_eq (by simp), hend]
      simp only [getLast?_concat, map_some, bind_eq_bind, bind_some, hstop]
      by_cases hshort : min size e < size
      · rw [if_pos hshort]
        exact ⟨s, rfl, .refl s⟩
      · have hall : size = min size e := by omega
        rw [if_neg hshort, ← hall]
        split
        · exact ⟨s, rfl, .refl s⟩
        · split_ifs
          · refine ⟨_, rfl, rfl, rfl, s.frags_modifyDnode _ fun _ => rfl, fun k => ?_, rfl, rfl⟩
            rw [Inode.dnode_modifyDnode]
            split_ifs with hk
            · rw [hk]
            · rfl
          · exact ⟨s, rfl, .refl s⟩

/-- What stays of a file that is cut off at `size`, and what disappears. -/
structure Cut (s s1 : Inode A N) (L ws rest : List (A × NodeFrag N)) (size e : ℕ) : Prop where
  shows : Shows s1 (ws ++ rest)
  tiles : Tiled 0 (min size e) (ws.map snd)
  kept : ∀ p ∈ ws, 0 < p.2.size ∧ ∃ q ∈ L, p.2.node = q.2.node ∧ q.2.ofs ≤ p.2.ofs ∧
    p.2.ofs + p.2.size ≤ q.2.ofs + q.2.size
  later : ∀ p ∈ rest, size ≤ p.2.ofs
  same : ∀ n, refs n ((ws ++ rest).map snd) = refs n (L.map snd)
  drops : Drops s s1 (L.map snd) ((ws ++ rest).map snd)

omit [DecidableEq A] in
lemma Valid.cut (h : Valid s (ws ++ rest) e) (hcounts : Counts s ((ws ++ rest).map snd))
    (htiles : Tiled 0 (min size e) (ws.map snd)) (hlater : ∀ p ∈ rest, size ≤ p.2.ofs) :
    Cut s s (ws ++ rest) ws rest size e := by
  refine ⟨h.shows, htiles, fun p hp => ?_, hlater, fun _ => rfl, .of_same hcounts fun _ => rfl⟩
  have hmem : p ∈ ws ++ rest := mem_append_left _ hp
  exact ⟨h.pos p hmem, p, hmem, rfl, le_rfl, le_rfl⟩

lemma Valid.cutFrag (h : Valid s L e) (hcounts : Counts s (L.map snd)) (size : ℕ) :
    ∃ frag s1 ws rest, s.lookupNodeFrag size = some frag ∧
      s.cutFrag size frag = some (s1, rest.head?.map fst) ∧ Cut s s1 L ws rest size e := by
  rcases h.lookup size with ⟨rfl, hlookup⟩ | ⟨xs, a, f, ys, rfl, hlookup, hle, hcase⟩
  · have hend : 0 = e := h.tiles
    have htiles : Tiled 0 (min size e) (([] : List (A × NodeFrag N)).map snd) := by
      rw [← hend, min_zero]
      exact rfl
    have hcut := Valid.cut (show Valid s ([] ++ []) e from h) hcounts htiles (by simp)
    exact ⟨none, s, [], [], hlookup, rfl, hcut⟩
  · obtain ⟨hxs, hys⟩ := h.split
    have hstop : f.stop = f.ofs + f.size := h.stop_eq (p := (a, f)) (by simp)
    have hend : f.ofs + f.size ≤ e := h.le_end (p := (a, f)) (by simp)
    have hbound := h.bound
    have hys_later : ∀ p ∈ ys, f.ofs + f.size ≤ p.2.ofs := fun p hp =>
      hys.spread.lower (mem_map_of_mem hp)
    refine ⟨some a, ?_⟩
    rw [Inode.cutFrag, h.shows.frag_eq]
    by_cases hofs : f.ofs = size
    · refine ⟨s, xs, (a, f) :: ys, hlookup, ?_, h.cut hcounts ?_ ?_⟩
      · rw [if_neg (by simp [hofs])]
        rfl
      · rw [← hofs, min_eq_left (by omega)]
        exact hxs
      · refine forall_mem_cons.2 ⟨hofs.ge, fun p hp => ?_⟩
        have hlater := hys_later p hp
        omega
    · rw [if_pos hofs]
      rcases hcase with hlt | ⟨rfl, he⟩
      · set f' : NodeFrag N := { f with size := size - f.ofs } with hf'
        have hset : { f with size := sub32 size f.ofs } = f' := by
          rw [sub32_eq (by omega) hle]
        have hshows : Shows (s.setFrag a f') (xs ++ (a, f') :: ys) := h.shows.setFrag
        have hsplit : xs ++ (a, f') :: ys = xs ++ [(a, f')] ++ ys := by simp
        have hsame : ∀ n, refs n ((xs ++ [(a, f')] ++ ys).map snd) =
            refs n ((xs ++ (a, f) :: ys).map snd) := by
          intro n
          rw [← hsplit]
          simp only [map_append, map_cons, refs_append, refs_cons, hf']
        refine ⟨s.setFrag a f', xs ++ [(a, f')], ys, hlookup, ?_, hsplit ▸ hshows, ?_, ?_, ?_, hsame,
          .of_same hcounts hsame⟩
        · simp only [if_pos (hlt.trans_eq hstop.symm), hset, hshows.next]
          rfl
        · rw [map_append, min_eq_left (by omega)]
          exact tiles_append.2 ⟨f.ofs, hxs, rfl, Nat.add_sub_cancel' hle⟩
        · refine forall_mem_append.2 ⟨fun p hp => ⟨h.pos p (by simp [hp]), p, by simp [hp], rfl,
            le_rfl, le_rfl⟩, forall_mem_singleton.2 ⟨?_, (a, f), by simp, rfl, le_rfl, ?_⟩⟩
          · rw [hf']
            dsimp only
            omega
          · rw [hf']
            dsimp only
            omega
        · intro p hp
          have hlater := hys_later p hp
          omega
      · refine ⟨s, xs ++ [(a, f)], [], hlookup, ?_, ?_⟩
        · simp only [if_neg (by omega : ¬size < f.stop), h.shows.next]
          rfl
        · have htiles : Tiled 0 (min size e) ((xs ++ [(a, f)]).map snd) := by
            rw [min_eq_right he]
            exact h.tiles
          rw [← append_nil (xs ++ [(a, f)])] at h hcounts
          have hcut := h.cut hcounts htiles (by simp)
          rwa [append_nil] at hcut

lemma Valid.truncateFragtree (h : Valid s L e) (hcounts : Counts s (L.map snd)) (shift size : ℕ) :
    ∃ s' ws, s.truncateFragtree shift size = some (s', min size e) ∧ Valid s' ws (min size e) ∧
      (∀ p ∈ ws, ∃ q ∈ L, p.2.node = q.2.node ∧ q.2.ofs ≤ p.2.ofs ∧
        p.2.ofs + p.2.size ≤ q.2.ofs + q.2.size) ∧
      Drops s s' (L.map snd) (ws.map snd) := by
  obtain ⟨frag, s1, ws, rest, hlookup, hcutFrag, hcut⟩ := h.cutFrag hcounts size
  have hfew : ∀ n, refs n ((ws ++ rest).map snd) < 2 ^ 32 := fun n =>
    hcut.same n ▸ lt_of_le_of_lt (h.refs_le n) h.bound
  obtain ⟨s2, hloop, hshows, hdrops⟩ :=
    truncateLoop_spec hcut.shows hcut.drops.counts hfew hcut.later
  have hvalid : Valid s2 ws (min size e) :=
    ⟨hshows, hcut.tiles, fun p hp => (hcut.kept p hp).1, lt_of_le_of_lt (min_le_right _ _) h.bound⟩
  obtain ⟨s', hfinish, hmarked⟩ := finishTruncate_spec hvalid shift
  have hall := hcut.drops.trans hdrops
  refine ⟨s', ws, ?_, { hvalid with shows := hmarked.shows hshows }, fun p hp => (hcut.kept p hp).2,
    hall.trans (hmarked.drops hall.counts)⟩
  rw [Inode.truncateFragtree, hlookup]
  simp only [bind_eq_bind, bind_some, hcutFrag, hloop, hfinish]

end BooxKernel.Jffs2
