import BooxKernel.Jffs2.Shape
import BooxKernel.Lib.Tilings

/-!
# The pieces of a file and the nodes that they refer to

The fragments of a tree tile the file. `cutAbove x` is what is left of fragments from the offset
`x` on. `Drops` says what happens to the nodes when some fragments disappear: the counts stay
exact, and the nodes whose last fragment disappears are made obsolete and freed, once each.
-/
namespace BooxKernel.Jffs2

open ColoredTrees Rbtree Tilings Prod
open List hiding after

variable {A N : Type}

/-- The fragments tile the offsets from `lo` to `hi`. -/
abbrev Tiled (lo hi : ℕ) (fs : List (NodeFrag N)) : Prop :=
  Tiles NodeFrag.ofs NodeFrag.size lo hi fs

/-- The fragments of the tree tile the file of length `e`. -/
structure Valid (s : Inode A N) (L : List (A × NodeFrag N)) (e : ℕ) : Prop where
  shows : Shows s L
  tiles : Tiled 0 e (L.map snd)
  pos : ∀ p ∈ L, 0 < p.2.size
  bound : e < 2 ^ 32

lemma u32_eq {x : ℕ} (h : x < 2 ^ 32) : u32 x = x := Nat.mod_eq_of_lt h

lemma sub32_eq {x y : ℕ} (hx : x < 2 ^ 32) (hy : y ≤ x) : sub32 x y = x - y := by
  unfold sub32 u32
  omega

lemma NodeFrag.stop_eq {f : NodeFrag N} (h : f.ofs + f.size < 2 ^ 32) :
    f.stop = f.ofs + f.size := u32_eq h

/-! ## Cutting -/

section Cut
variable {fs : List (NodeFrag N)} {f g : NodeFrag N} {lo hi x : ℕ}

/-- What is left of the fragments from the offset `x` on. -/
def cutAbove (x : ℕ) : List (NodeFrag N) → List (NodeFrag N)
  | [] => []
  | f :: fs =>
    if f.ofs + f.size ≤ x then cutAbove x fs
    else if x ≤ f.ofs then f :: fs
    else { f with ofs := x, size := f.ofs + f.size - x } :: fs

lemma tiled_cutAbove (h : Tiled lo hi fs) (hx : lo ≤ x) : Tiled x (max x hi) (cutAbove x fs) := by
  induction fs generalizing lo with
  | nil =>
    obtain rfl : lo = hi := h
    exact (max_eq_left hx).symm
  | cons f fs ih =>
    obtain ⟨rfl, hfs⟩ := h
    have hroom := hfs.spread.total_le
    rw [cutAbove]
    split_ifs with hbelow habove
    · exact ih hfs hbelow
    · obtain rfl : x = f.ofs := le_antisymm habove hx
      exact ⟨rfl, by rwa [max_eq_right (by omega)]⟩
    · refine ⟨rfl, ?_⟩
      have hstop : x + (f.ofs + f.size - x) = f.ofs + f.size := by omega
      rw [hstop, max_eq_right (by omega)]
      exact hfs

lemma cutAbove_append {gs : List (NodeFrag N)} (h : ∀ g ∈ gs, g.ofs + g.size ≤ x) :
    cutAbove x (gs ++ fs) = cutAbove x fs := by
  induction gs with
  | nil => rfl
  | cons g gs ih =>
    rw [cons_append, cutAbove, if_pos (h g mem_cons_self)]
    exact ih fun g' hg' => h g' (mem_cons_of_mem g hg')

lemma of_mem_cutAbove (h : g ∈ cutAbove x fs) :
    ∃ f ∈ fs, g.node = f.node ∧ f.ofs ≤ g.ofs ∧ g.ofs + g.size = f.ofs + f.size ∧
      (0 < f.size → 0 < g.size) := by
  induction fs with
  | nil => simp [cutAbove] at h
  | cons f fs ih =>
    rw [cutAbove] at h
    split_ifs at h with hbelow habove
    · obtain ⟨f', hf', hrest⟩ := ih h
      exact ⟨f', mem_cons_of_mem f hf', hrest⟩
    · exact ⟨g, h, rfl, le_rfl, rfl, id⟩
    · rcases mem_cons.1 h with rfl | h
      · exact ⟨f, mem_cons_self, rfl, by simp; omega, by simp; omega, fun _ => by simp; omega⟩
      · exact ⟨g, mem_cons_of_mem f h, rfl, le_rfl, rfl, id⟩

end Cut

/-! ## Looking up -/

namespace Valid
variable {s : Inode A N} {L xs ys : List (A × NodeFrag N)} {e : ℕ} {a : A} {f : NodeFrag N}
  {p : A × NodeFrag N}

lemma le_end (h : Valid s L e) (hp : p ∈ L) : p.2.ofs + p.2.size ≤ e :=
  h.tiles.spread.upper (mem_map_of_mem hp)

lemma stop_eq (h : Valid s L e) (hp : p ∈ L) : p.2.stop = p.2.ofs + p.2.size :=
  NodeFrag.stop_eq (lt_of_le_of_lt (h.le_end hp) h.bound)

lemma split (h : Valid s (xs ++ (a, f) :: ys) e) :
    Tiled 0 f.ofs (xs.map snd) ∧ Tiled (f.ofs + f.size) e (ys.map snd) := by
  have htiles := h.tiles
  rw [map_append] at htiles
  obtain ⟨mid, hxs, rfl, hys⟩ := tiles_append.1 htiles
  exact ⟨hxs, hys⟩

lemma length_le (h : Valid s (xs ++ (a, f) :: ys) e) : xs.length + f.size + ys.length ≤ e := by
  have hlength : ∀ l : List (A × NodeFrag N), (∀ p ∈ l, 0 < p.2.size) →
      l.length ≤ total NodeFrag.size (l.map snd) := by
    intro l hl
    induction l with
    | nil => exact le_rfl
    | cons p l ih =>
      have hp := hl p mem_cons_self
      have hrest := ih fun q hq => hl q (mem_cons_of_mem p hq)
      rw [map_cons, total_cons, length_cons]
      omega
  have hxs := hlength xs fun p hp => h.pos p (by simp [hp])
  have hys := hlength ys fun p hp => h.pos p (by simp [hp])
  have htotal := h.tiles.total_eq
  rw [map_append, map_cons, total_append, total_cons] at htotal
  dsimp only at htotal
  omega

/-- The lookup returns the fragment around the offset, or the last fragment when the file ends
before it. -/
lemma lookup (h : Valid s L e) (offset : ℕ) :
    (L = [] ∧ s.lookupNodeFrag offset = some none) ∨
      ∃ xs a f ys, L = xs ++ (a, f) :: ys ∧ s.lookupNodeFrag offset = some (some a) ∧
        f.ofs ≤ offset ∧ (offset < f.ofs + f.size ∨ ys = [] ∧ e ≤ offset) := by
  obtain ⟨t, k, ht, -, horder⟩ := h.shows.tree
  have hstart : ∀ x ∈ t.inorder, ∃ p ∈ L, p.1 = x ∧ s.frag x = p.2 := by
    intro x hx
    rw [horder] at hx
    obtain ⟨p, hp, rfl⟩ := mem_map.1 hx
    exact ⟨p, hp, rfl, h.shows.frag p hp⟩
  have hsorted : t.inorder.Pairwise fun x y =>
      (s.frag x).ofs < (s.frag y).ofs ∧ (s.frag x).stop ≤ (s.frag y).ofs := by
    have hpairs := h.tiles.spread.pairwise
    rw [pairwise_map] at hpairs
    rw [horder, pairwise_map]
    refine (List.Pairwise.and_mem.1 hpairs).imp fun {p q} hpq => ?_
    obtain ⟨hp, hq, hle⟩ := hpq
    have hpos := h.pos p hp
    rw [h.shows.frag p hp, h.shows.frag q hq, h.stop_eq hp]
    omega
  have hstop : ∀ x ∈ t.inorder, (s.frag x).ofs ≤ (s.frag x).stop := by
    intro x hx
    obtain ⟨p, hp, -, hfrag⟩ := hstart x hx
    rw [hfrag, h.stop_eq hp]
    omega
  have hbefore : ∀ x ∈ before ([] : List (Frame A)), (s.frag x).stop ≤ offset := by simp [before]
  obtain ⟨r, hr, hfound⟩ := lookupLoop_found [] t ht hsorted hstop hbefore (by simp [after])
  have hlookup : s.lookupNodeFrag offset = some r := by
    rw [Inode.lookupNodeFrag, ht.root]
    exact hr
  rw [hlookup]
  rw [plug_nil, horder] at hfound
  cases hfound with
  | around hsplit hle hlt =>
    obtain ⟨xs, l, rfl, -, hl⟩ := map_eq_append_iff.1 hsplit
    obtain ⟨p, ys, rfl, rfl, -⟩ := map_eq_cons_iff.1 hl
    have hp : p ∈ xs ++ p :: ys := by simp
    rw [h.shows.frag p hp] at hle hlt
    rw [h.stop_eq hp] at hlt
    exact .inr ⟨xs, p.1, p.2, ys, rfl, rfl, hle, .inl hlt⟩
  | between hsplit hbefore hafter =>
    obtain ⟨xs, ys, rfl, rfl, rfl⟩ := map_eq_append_iff.1 hsplit
    have hxs : ∀ p ∈ xs, p.2.ofs + p.2.size ≤ offset := by
      intro p hp
      have hmem : p ∈ xs ++ ys := mem_append_left _ hp
      rw [← h.stop_eq hmem, ← h.shows.frag p hmem]
      exact hbefore p.1 (mem_map_of_mem hp)
    obtain rfl : ys = [] := by
      refine eq_nil_iff_forall_not_mem.2 fun q hq => ?_
      have hmem : q ∈ xs ++ ys := mem_append_right _ hq
      have hlt := hafter q.1 (mem_map_of_mem hq)
      rw [h.shows.frag q hmem] at hlt
      have hend := h.le_end hmem
      obtain ⟨g, hg, hcover⟩ := h.tiles.exists_covers (Nat.zero_le offset) (by omega)
      obtain ⟨p, hp, rfl⟩ := mem_map.1 hg
      rcases mem_append.1 hp with hp | hp
      · exact absurd hcover.2 (not_lt.2 (hxs p hp))
      · have hlt' := hafter p.1 (mem_map_of_mem hp)
        rw [h.shows.frag p (mem_append_right _ hp)] at hlt'
        exact absurd hcover.1 (not_le.2 hlt')
    rw [append_nil] at h
    rcases eq_nil_or_concat xs with rfl | ⟨xs, p, rfl⟩
    · exact .inl ⟨rfl, rfl⟩
    · rw [concat_eq_append] at h hxs ⊢
      have hle := hxs p (by simp)
      have htiles := h.split
      obtain rfl : p.2.ofs + p.2.size = e := htiles.2
      exact .inr ⟨xs, p.1, p.2, [], by simp, by simp, by omega, .inr ⟨rfl, hle⟩⟩

end Valid

/-! ## The ledger of the nodes -/

section Ledger
variable [DecidableEq N] {s s' s'' : Inode A N} {fs fs' fs'' : List (NodeFrag N)} {n : N}

/-- How many of the fragments refer to a node. -/
def refs (n : N) (fs : List (NodeFrag N)) : ℕ := fs.countP fun f => f.node = some n

/-- The count of every node in use is the number of fragments that refer to it. -/
def Counts (s : Inode A N) (fs : List (NodeFrag N)) : Prop :=
  ∀ n, 0 < refs n fs → (s.dnode n).frags = refs n fs

/-- When the fragments `fs` become `fs'`, the nodes whose last fragment disappears are made
obsolete and freed, once each, and no others. -/
def Reclaims (s s' : Inode A N) (fs fs' : List (NodeFrag N)) : Prop :=
  ∃ gone : List N, s'.obsoleted = gone ++ s.obsoleted ∧ s'.freed = gone ++ s.freed ∧
    gone.Nodup ∧ ∀ n, n ∈ gone ↔ 0 < refs n fs ∧ refs n fs' = 0

/-- The fragments `fs` became `fs'`, and no node is new among them. -/
structure Drops (s s' : Inode A N) (fs fs' : List (NodeFrag N)) : Prop where
  counts : Counts s' fs'
  gone : Reclaims s s' fs fs'
  zero : ∀ n, refs n fs = 0 → refs n fs' = 0

@[simp] lemma refs_nil (n : N) : refs n [] = 0 := rfl

lemma refs_cons (n : N) (f : NodeFrag N) (fs : List (NodeFrag N)) :
    refs n (f :: fs) = refs n fs + if f.node = some n then 1 else 0 := by
  simp [refs, countP_cons]

@[simp] lemma refs_append (n : N) (fs fs' : List (NodeFrag N)) :
    refs n (fs ++ fs') = refs n fs + refs n fs' := countP_append ..

lemma Valid.refs_le {L : List (A × NodeFrag N)} {e : ℕ} (h : Valid s L e) (n : N) :
    refs n (L.map snd) ≤ e := by
  have hrefs : refs n (L.map snd) ≤ (L.map snd).length := countP_le_length
  rw [length_map] at hrefs
  refine hrefs.trans ?_
  cases L with
  | nil => exact Nat.zero_le e
  | cons p L =>
    have hle : 0 + p.2.size + L.length ≤ e := Valid.length_le (show Valid s ([] ++ p :: L) e from h)
    have hp := h.pos p mem_cons_self
    rw [length_cons]
    omega

lemma Counts.congr (h : Counts s fs) (hfrags : ∀ n, (s'.dnode n).frags = (s.dnode n).frags)
    (hrefs : ∀ n, refs n fs' = refs n fs) : Counts s' fs' := by
  intro n hn
  rw [hfrags, hrefs]
  exact h n (hrefs n ▸ hn)

lemma Drops.of_same (h : Counts s fs) (hrefs : ∀ n, refs n fs' = refs n fs)
    (hfrags : ∀ n, (s'.dnode n).frags = (s.dnode n).frags := by intro; rfl)
    (hobsoleted : s'.obsoleted = s.obsoleted := by rfl) (hfreed : s'.freed = s.freed := by rfl) :
    Drops s s' fs fs' := by
  refine ⟨h.congr hfrags hrefs, ⟨[], hobsoleted, hfreed, .nil, fun n => ?_⟩, fun n hn => ?_⟩
  · rw [hrefs]
    simp
    omega
  · rw [hrefs, hn]

lemma Drops.of_withTree {m : Mem A} (h : Drops (s.withTree m) s' fs fs') : Drops s s' fs fs' :=
  ⟨h.counts, h.gone, h.zero⟩

lemma Drops.trans (h : Drops s s' fs fs') (h' : Drops s' s'' fs' fs'') : Drops s s'' fs fs'' := by
  obtain ⟨gone, hobsoleted, hfreed, hnodup, hmem⟩ := h.gone
  obtain ⟨gone', hobsoleted', hfreed', hnodup', hmem'⟩ := h'.gone
  refine ⟨h'.counts, ⟨gone' ++ gone, ?_, ?_, ?_, fun n => ?_⟩, fun n hn => h'.zero n (h.zero n hn)⟩
  · rw [hobsoleted', hobsoleted, append_assoc]
  · rw [hfreed', hfreed, append_assoc]
  · refine nodup_append.2 ⟨hnodup', hnodup, ?_⟩
    rintro n hn _ hn' rfl
    have hpos := ((hmem' n).1 hn).1
    have hzero := ((hmem n).1 hn').2
    omega
  · rw [mem_append, hmem, hmem']
    constructor
    · rintro (⟨hpos, hzero⟩ | ⟨hpos, hzero⟩)
      · refine ⟨pos_of_ne_zero fun hfs => ?_, hzero⟩
        rw [h.zero n hfs] at hpos
        exact absurd hpos (lt_irrefl 0)
      · exact ⟨hpos, h'.zero n hzero⟩
    · rintro ⟨hpos, hzero⟩
      by_cases hmid : refs n fs' = 0
      · exact .inr ⟨hpos, hmid⟩
      · exact .inl ⟨pos_of_ne_zero hmid, hzero⟩

namespace Inode

section
variable (s : Inode A N) (p : Option N)

lemma dnode_modifyDnode (n : N) (g : FullDnode → FullDnode) (k : N) :
    (s.modifyDnode n g).dnode k = if k = n then g (s.dnode n) else s.dnode k :=
  Function.update_apply ..

lemma frags_modifyDnode (n : N) {g : FullDnode → FullDnode}
    (hg : ∀ d, (g d).frags = d.frags) (k : N) :
    ((s.modifyDnode n g).dnode k).frags = (s.dnode k).frags := by
  rw [dnode_modifyDnode]
  split_ifs with hk
  · rw [hg, hk]
  · rfl

lemma frags_countFrag (k : N) : ((s.countFrag p).dnode k).frags =
      if p = some k then u32 ((s.dnode k).frags + 1) else (s.dnode k).frags := by
  cases p with
  | none => rfl
  | some n =>
    rw [countFrag, dnode_modifyDnode]
    by_cases hk : k = n
    · rw [if_pos hk, if_pos (by rw [hk]), hk]
    · rw [if_neg hk, if_neg (by simpa using Ne.symm hk)]

lemma countFrag_eq : s.countFrag p = { s with dnode := (s.countFrag p).dnode } := by
  cases p <;> rfl

end

end Inode

lemma Shows.obsoleteNodeFrag {L : List (A × NodeFrag N)} (h : Shows s L) (a : A) :
    Shows (s.obsoleteNodeFrag a) L := by
  unfold Inode.obsoleteNodeFrag
  split
  · exact h
  · dsimp only
    split_ifs <;> exact h.congr rfl rfl

lemma Counts.obsoleteNodeFrag (a : A) (h : Counts s fs)
    (hrefs : ∀ n, refs n fs = refs n (s.frag a :: fs')) (hfew : ∀ n, refs n fs < 2 ^ 32) :
    Drops s (s.obsoleteNodeFrag a) fs fs' := by
  cases hnode : (s.frag a).node with
  | none =>
    have hsame : s.obsoleteNodeFrag a = s := by
      rw [Inode.obsoleteNodeFrag, hnode]
    rw [hsame]
    refine Drops.of_same h fun n => ?_
    rw [hrefs, refs_cons, hnode, if_neg (by simp), add_zero]
  | some n0 =>
    have hn0 : refs n0 fs = refs n0 fs' + 1 := by
      rw [hrefs, refs_cons, hnode, if_pos rfl]
    have hother : ∀ n, n ≠ n0 → refs n fs = refs n fs' := by
      intro n hn
      rw [hrefs, refs_cons, hnode, if_neg (by simpa using Ne.symm hn), add_zero]
    set s1 := s.modifyDnode n0 fun d => { d with frags := sub32 d.frags 1 } with hs1
    have hcount : (s1.dnode n0).frags = refs n0 fs' := by
      have hfew0 := hfew n0
      rw [Inode.dnode_modifyDnode, if_pos rfl]
      rw [h n0 (by omega), sub32_eq hfew0 (by omega), hn0, Nat.add_sub_cancel]
    have hcounts : Counts s1 fs' := by
      intro n hn
      by_cases hnn : n = n0
      · rw [hnn, hcount]
      · rw [Inode.dnode_modifyDnode, if_neg hnn, h n (hother n hnn ▸ hn), hother n hnn]
    have hzero : ∀ n, refs n fs = 0 → refs n fs' = 0 := by
      intro n hn
      by_cases hnn : n = n0
      · rw [hnn] at hn
        omega
      · rw [← hother n hnn, hn]
    have hgone : ∀ n, 0 < refs n fs ∧ refs n fs' = 0 ↔ n = n0 ∧ refs n0 fs' = 0 := by
      intro n
      by_cases hnn : n = n0
      · rw [hnn]
        simp only [true_and, and_iff_right_iff_imp]
        omega
      · rw [hother n hnn]
        simp only [hnn, false_and, iff_false]
        omega
    have hrun : s.obsoleteNodeFrag a = if refs n0 fs' = 0 then
        (s1.markNodeObsolete n0).freeFullDnode n0 else s1.markRefNormal n0 := by
      rw [Inode.obsoleteNodeFrag, hnode, ← hcount]
    rw [hrun]
    split_ifs with hlast
    · have hfrags : ∀ n, (((s1.markNodeObsolete n0).freeFullDnode n0).dnode n).frags =
          (s1.dnode n).frags :=
        s1.frags_modifyDnode n0 (g := fun d => { d with raw := .obsolete }) fun _ => rfl
      refine ⟨hcounts.congr hfrags fun _ => rfl, ⟨[n0], rfl, rfl, nodup_singleton n0,
        fun n => ?_⟩, hzero⟩
      rw [hgone, mem_singleton, and_iff_left hlast]
    · refine ⟨hcounts.congr (s1.frags_modifyDnode n0 fun _ => rfl) fun _ => rfl,
        ⟨[], rfl, rfl, .nil, fun n => ?_⟩, hzero⟩
      rw [hgone]
      simp [hlast]

end Ledger

end BooxKernel.Jffs2
