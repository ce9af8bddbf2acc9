import BooxKernel.Jffs2.Model
import BooxKernel.Rbtree.Runs

/-!
# The fragments of a tree in their order

`Shows s L` says that the tree of `s` holds the fragments of the list `L`, at their addresses
and in this order. Each operation on the tree gets one lemma here that says what it makes of the
list.
-/
namespace BooxKernel.Jffs2

open ColoredTrees Loops Rbtree ColorTree Prod
open List hiding after

variable {A N : Type}

namespace Inode

section
variable (s : Inode A N)
include s

@[simp] lemma frag_withTree (m : Mem A) : (s.withTree m).frag = s.frag := rfl

variable [DecidableEq A]

@[simp] lemma frag_setFrag_self (a : A) (f : NodeFrag N) :
    (s.setFrag a f).frag a = f := Function.update_self ..

lemma frag_setFrag_of_ne {a b : A} (hne : b ≠ a) (f : NodeFrag N) :
    (s.setFrag a f).frag b = s.frag b := Function.update_of_ne hne _ _

end

end Inode

/-- The tree holds these fragments in this order. -/
structure Shows (s : Inode A N) (L : List (A × NodeFrag N)) : Prop where
  tree : ∃ t k, Holds s.fragtree t ∧ Balanced t .black k ∧ t.inorder = L.map fst
  frag : ∀ p ∈ L, s.frag p.1 = p.2

namespace Shows

variable {s s' : Inode A N} {L xs ys : List (A × NodeFrag N)} {a b : A} {f g : NodeFrag N}

lemma nodup (h : Shows s L) : (L.map fst).Nodup := by
  obtain ⟨t, -, ht, -, horder⟩ := h.tree
  exact horder ▸ ht.nodup

lemma frag_parts (h : Shows s (xs ++ (a, f) :: ys)) :
    (∀ p ∈ xs, s.frag p.1 = p.2) ∧ s.frag a = f ∧ ∀ p ∈ ys, s.frag p.1 = p.2 := by
  have hfrag := h.frag
  rwa [forall_mem_append, forall_mem_cons] at hfrag

lemma frag_eq (h : Shows s (xs ++ (a, f) :: ys)) : s.frag a = f := h.frag_parts.2.1

lemma notMem (h : Shows s (xs ++ (a, f) :: ys)) : a ∉ xs.map fst ∧ a ∉ ys.map fst := by
  have hnodup := h.nodup
  rw [map_append, map_cons, nodup_middle, nodup_cons, mem_append, not_or] at hnodup
  exact hnodup.1

lemma congr (h : Shows s L) (htree : s'.fragtree = s.fragtree) (hfrag : s'.frag = s.frag) :
    Shows s' L :=
  ⟨htree ▸ h.tree, hfrag ▸ h.frag⟩

lemma nil (htree : s.fragtree.root = none) : Shows s [] :=
  ⟨⟨.nil, 0, ⟨trivial, htree, .nil⟩, .nil, rfl⟩, by simp⟩

lemma of_leaves {run : Option (Mem A)} (hrun : Leaves run (L.map fst))
    (hfrag : ∀ p ∈ L, s.frag p.1 = p.2) : ∃ m, run = some m ∧ Shows (s.withTree m) L := by
  obtain ⟨m, t, hm, ht, horder, k, hk⟩ := hrun
  exact ⟨m, hm, ⟨t, k, ht, hk, horder⟩, hfrag⟩

variable [DecidableEq A]

lemma frag_setFrag_of_notMem (hfrag : ∀ p ∈ L, s.frag p.1 = p.2) (ha : a ∉ L.map fst) :
    ∀ p ∈ L, (s.setFrag a f).frag p.1 = p.2 := by
  intro p hp
  have hne : p.1 ≠ a := fun heq => ha (heq ▸ mem_map_of_mem hp)
  rw [s.frag_setFrag_of_ne hne]
  exact hfrag p hp

lemma setFrag_of_notMem (h : Shows s L) (ha : a ∉ L.map fst) : Shows (s.setFrag a f) L :=
  ⟨h.tree, frag_setFrag_of_notMem h.frag ha⟩

section
variable (h : Shows s (xs ++ (a, f) :: ys))
include h

lemma setFrag : Shows (s.setFrag a g) (xs ++ (a, g) :: ys) := by
  obtain ⟨hxs, -, hys⟩ := h.frag_parts
  refine ⟨?_, forall_mem_append.2 ⟨frag_setFrag_of_notMem hxs h.notMem.1, forall_mem_cons.2
    ⟨s.frag_setFrag_self a g, frag_setFrag_of_notMem hys h.notMem.2⟩⟩⟩
  obtain ⟨t, k, ht, hk, horder⟩ := h.tree
  exact ⟨t, k, ht, hk, by simpa using horder⟩

lemma next : rbNext a s.fragtree = some (ys.head?.map fst) := by
  obtain ⟨t, -, ht, -, horder⟩ := h.tree
  rw [map_append] at horder
  rw [rbNext_spec ht horder, head?_map]

lemma prev : rbPrev a s.fragtree = some (xs.getLast?.map fst) := by
  obtain ⟨t, -, ht, -, horder⟩ := h.tree
  rw [map_append] at horder
  rw [rbPrev_spec ht horder, getLast?_map]

end

omit [DecidableEq A] in
lemma last (h : Shows s L) : rbLast s.fragtree = some (L.getLast?.map fst) := by
  obtain ⟨t, -, ht, -, horder⟩ := h.tree
  rw [rbLast_spec ht, horder, getLast?_map]

lemma erase (h : Shows s (xs ++ (a, f) :: ys)) :
    ∃ m, rbErase a s.fragtree = some m ∧ Shows (s.withTree m) (xs ++ ys) := by
  obtain ⟨t, k, ht, hk, horder⟩ := h.tree
  obtain ⟨hxs, -, hys⟩ := h.frag_parts
  rw [map_append, map_cons] at horder
  have hleaves := rbErase_spec ht hk (a := a) (by simp [horder])
  have herase : (xs.map fst ++ a :: ys.map fst).erase a = (xs ++ ys).map fst := by
    rw [erase_append_right _ h.notMem.1, erase_cons_head, map_append]
  rw [horder, herase] at hleaves
  exact of_leaves hleaves (forall_mem_append.2 ⟨hxs, hys⟩)

lemma replace (h : Shows s (xs ++ (a, f) :: ys)) (hb : b ∉ (xs ++ (a, f) :: ys).map fst) :
    Shows (s.withTree (rbReplaceNode a b s.fragtree)) (xs ++ (b, s.frag b) :: ys) := by
  obtain ⟨t, k, ht, hk, horder⟩ := h.tree
  have hb' : b ∉ t.inorder := horder ▸ hb
  rw [map_append] at horder
  have hleaves := rbReplaceNode_spec ht hk horder hb'
  have hmap : xs.map fst ++ b :: ys.map fst =
      (xs ++ (b, s.frag b) :: ys).map fst := by simp
  rw [hmap] at hleaves
  obtain ⟨hxs, -, hys⟩ := h.frag_parts
  obtain ⟨m, hm, hshows⟩ :=
    of_leaves hleaves (forall_mem_append.2 ⟨hxs, forall_mem_cons.2 ⟨rfl, hys⟩⟩)
  cases hm
  exact hshows

lemma linkColor_at {t : ColorTree A} {k : ℕ} {ctx : List (Frame A)}
    (hfrag : ∀ p ∈ L, s.frag p.1 = p.2) (ht : Holds s.fragtree t) (hk : Balanced t .black k)
    (hplug : t = plug ctx .nil) (hb : b ∉ t.inorder)
    (horder : L.map fst = before ctx ++ b :: after ctx) :
    ∃ m, s.linkColor b (above ctx) (linkOf ctx) = some (s.withTree m) ∧ Shows (s.withTree m) L := by
  subst hplug
  have hleaves := insert_at_hole ht hk hb
  rw [← horder] at hleaves
  obtain ⟨m, hm, hshows⟩ := of_leaves hleaves hfrag
  exact ⟨m, by rw [Inode.linkColor, hm]; rfl, hshows⟩

lemma linkBehind_nil (h : Shows s []) :
    ∃ m, s.linkBehind b none = some (s.withTree m) ∧ Shows (s.withTree m) [(b, s.frag b)] := by
  obtain ⟨t, k, ht, hk, horder⟩ := h.tree
  obtain rfl : t = .nil := inorder_eq_nil.1 horder
  have hplug : (.nil : ColorTree A) = plug [] .nil := rfl
  exact linkColor_at (by simp) ht hk hplug (by simp [inorder]) rfl

lemma linkBehind_last (h : Shows s (xs ++ [(a, f)])) (hb : b ∉ (xs ++ [(a, f)]).map fst) :
    ∃ m, s.linkBehind b (some a) = some (s.withTree m) ∧
      Shows (s.withTree m) (xs ++ [(a, f)] ++ [(b, s.frag b)]) := by
  obtain ⟨t, k, ht, hk, horder⟩ := h.tree
  have hb' : b ∉ t.inorder := horder ▸ hb
  rw [map_append] at horder
  obtain ⟨ctx, c, l, r, rfl, hbefore, hafter⟩ := exists_plug_of_split ht.nodup horder
  obtain ⟨hr, hctx⟩ := append_eq_nil_iff.1 hafter.symm
  obtain rfl := inorder_eq_nil.1 hr
  have hplug : plug ctx (.node c l a .nil) = plug (⟨.right, c, a, l⟩ :: ctx) .nil := rfl
  refine linkColor_at (forall_mem_append.2 ⟨h.frag, forall_mem_singleton.2 rfl⟩) ht hk hplug hb' ?_
  simp [before, after, hctx, hbefore]

lemma linkBehind (h : Shows s L) (hb : b ∉ L.map fst) (hg : s.frag b = g) :
    ∃ m, s.linkBehind b (L.getLast?.map fst) = some (s.withTree m) ∧
      Shows (s.withTree m) (L ++ [(b, g)]) := by
  subst hg
  rcases eq_nil_or_concat L with rfl | ⟨xs, p, rfl⟩
  · exact h.linkBehind_nil
  · rw [concat_eq_append] at h hb ⊢
    rw [getLast?_concat]
    exact h.linkBehind_last hb

end Shows

/-! ## Inserting behind a fragment -/

section Insert
variable {s : Inode A N} {newfrag : A}

lemma insert_left {c : Color} {l r : ColorTree A} {x : A} (ctx : List (Frame A))
    (h : Holds s.fragtree (plug ctx (.node c l x r)))
    (hlater : ∀ y ∈ (node c l x r).inorder, (s.frag newfrag).ofs < (s.frag y).ofs) :
    ∃ ctx' y, plug ctx (.node c l x r) = plug ctx' .nil ∧ above ctx' = some y ∧
      linkOf ctx' = .child y .left ∧ before ctx' = before ctx ∧
      after ctx' = (node c l x r).inorder ++ after ctx ∧
      loop (s.insertRound newfrag) x = some (y, .left) := by
  induction l generalizing c x r ctx with
  | nil =>
    have hx := hlater x (by simp [inorder])
    refine ⟨⟨.left, c, x, r⟩ :: ctx, x, rfl, rfl, rfl, rfl, by simp [after, inorder], ?_⟩
    have hnode := h.node_eq (d := .left) ctx
    rw [loop_eq, Inode.insertRound, if_neg (not_lt.2 hx.le), if_pos hx, hnode]
    rfl
  | node cl ll z lr ihl _ =>
    have hx := hlater x (by simp [inorder])
    obtain ⟨ctx', y, hplug, habove, hlink, hbefore, hafter, hrun⟩ :=
      ihl (⟨.left, c, x, r⟩ :: ctx) h fun y hy =>
        hlater y (by rw [inorder]; exact mem_append_left _ hy)
    have hnode := h.node_eq (d := .left) ctx
    refine ⟨ctx', y, hplug, habove, hlink, hbefore, ?_, ?_⟩
    · rw [hafter]
      simp [after, inorder]
    · rw [loop_eq, Inode.insertRound, if_neg (not_lt.2 hx.le), if_pos hx, hnode]
      exact hrun

/-- `jffs2_fragtree_insert` from a fragment on links the new one right behind it. -/
lemma Shows.fragtreeInsert [DecidableEq A] {xs ys : List (A × NodeFrag N)} {a : A}
    {f new : NodeFrag N} (h : Shows s (xs ++ (a, f) :: ys))
    (hb : newfrag ∉ (xs ++ (a, f) :: ys).map fst) (hnew : s.frag newfrag = new)
    (hfirst : f.ofs < new.ofs) (hlater : ∀ p ∈ ys, new.ofs < p.2.ofs) :
    ∃ m, s.fragtreeInsert newfrag a = some (s.withTree m) ∧
      Shows (s.withTree m) (xs ++ (a, f) :: (newfrag, new) :: ys) := by
  subst hnew
  obtain ⟨t, k, ht, hk, horder⟩ := h.tree
  have hb' : newfrag ∉ t.inorder := horder ▸ hb
  rw [map_append] at horder
  obtain ⟨ctx, c, l, r, htree, hbefore, hafter⟩ := exists_plug_of_split ht.nodup horder
  obtain ⟨hxs, ha, hys⟩ := h.frag_parts
  have hfrag : ∀ p ∈ xs ++ (a, f) :: (newfrag, s.frag newfrag) :: ys, s.frag p.1 = p.2 :=
    forall_mem_append.2 ⟨hxs, forall_mem_cons.2 ⟨ha, forall_mem_cons.2 ⟨rfl, hys⟩⟩⟩
  have hlaterAddr : ∀ y ∈ r.inorder, (s.frag newfrag).ofs < (s.frag y).ofs := by
    intro y hy
    have hmem : y ∈ ys.map fst := hafter ▸ mem_append_left _ hy
    obtain ⟨p, hp, rfl⟩ := mem_map.1 hmem
    rw [hys p hp]
    exact hlater p hp
  obtain ⟨ctx', y, d, hplug, habove, hlink, hb1, ha1, hrun⟩ : ∃ ctx' y d, t = plug ctx' .nil ∧
      above ctx' = some y ∧ linkOf ctx' = .child y d ∧ before ctx' = xs.map fst ++ [a] ∧
      after ctx' = ys.map fst ∧ loop (s.insertRound newfrag) a = some (y, d) := by
    have hnode := (htree ▸ ht).node_eq (d := .left) ctx
    have hgo : before (⟨.right, c, a, l⟩ :: ctx) = xs.map fst ++ [a] := by
      rw [hbefore]
      rfl
    rw [loop_eq, Inode.insertRound, if_pos (by rwa [ha]), hnode]
    cases r with
    | nil => exact ⟨⟨.right, c, a, l⟩ :: ctx, a, .right, htree, rfl, rfl, hgo, hafter.symm, rfl⟩
    | node cr rl x rr =>
      obtain ⟨ctx', y, hplug, habove, hlink, hb1, ha1, hrun⟩ :=
        insert_left (⟨.right, c, a, l⟩ :: ctx) (htree ▸ ht) hlaterAddr
      exact ⟨ctx', y, .left, htree.trans hplug, habove, hlink, hb1.trans hgo,
        ha1.trans hafter.symm, hrun⟩
  obtain ⟨m, hm, hshows⟩ := linkColor_at hfrag ht hk hplug hb' (by rw [hb1, ha1]; simp)
  refine ⟨m, ?_, hshows⟩
  rw [Inode.fragtreeInsert, hrun]
  rw [habove, hlink] at hm
  exact hm

end Insert

/-! ## Looking up -/

section Lookup
variable {s : Inode A N} {offset : ℕ}

/-- Where the lookup ends: at a fragment around the offset, or at the last one before it. -/
inductive Found (s : Inode A N) (offset : ℕ) (addrs : List A) : Option A → Prop
  | around {xs ys : List A} {a : A} : addrs = xs ++ a :: ys → (s.frag a).ofs ≤ offset →
      offset < (s.frag a).stop → Found s offset addrs (some a)
  | between {xs ys : List A} : addrs = xs ++ ys → (∀ a ∈ xs, (s.frag a).stop ≤ offset) →
      (∀ a ∈ ys, offset < (s.frag a).ofs) → Found s offset addrs xs.getLast?

/-- The loop goes down with all fragments on its left before the offset and all fragments on
its right behind it, and remembers the last one on the left. -/
lemma lookupLoop_found (ctx : List (Frame A)) (t : ColorTree A) (h : Holds s.fragtree (plug ctx t))
    (hsorted : (plug ctx t).inorder.Pairwise fun a b =>
      (s.frag a).ofs < (s.frag b).ofs ∧ (s.frag a).stop ≤ (s.frag b).ofs)
    (hstop : ∀ a ∈ (plug ctx t).inorder, (s.frag a).ofs ≤ (s.frag a).stop)
    (hbefore : ∀ a ∈ before ctx, (s.frag a).stop ≤ offset)
    (hafter : ∀ a ∈ after ctx, offset < (s.frag a).ofs) :
    ∃ r, s.lookupLoop offset t.root? (before ctx).getLast? = some r ∧
      Found s offset (plug ctx t).inorder r := by
  induction t generalizing ctx with
  | nil =>
    have horder : (plug ctx .nil).inorder = before ctx ++ after ctx := by
      simp [inorder_plug, inorder]
    refine ⟨(before ctx).getLast?, ?_, .between horder hbefore hafter⟩
    rw [Inode.lookupLoop, loop_eq]
    rfl
  | node c l a r ihl ihr =>
    have hnode := h.node_eq (d := .left) ctx
    have hsplit : (plug ctx (.node c l a r)).inorder =
        (before ctx ++ l.inorder) ++ a :: (r.inorder ++ after ctx) := by
      simp [inorder_plug, inorder]
    have hpairs := hsorted
    rw [hsplit, pairwise_append, pairwise_cons] at hpairs
    obtain ⟨-, ⟨hlater, -⟩, hearlier⟩ := hpairs
    have ha := hstop a (by simp [hsplit])
    have hround : s.lookupRound offset (some a) (before ctx).getLast? =
        if (s.frag a).stop ≤ offset then some (.next (r.root?, some a))
        else if offset < (s.frag a).ofs then some (.next (l.root?, (before ctx).getLast?))
        else some (.done (some a)) := by
      unfold Inode.lookupRound
      simp only [hnode]
      cases hprev : (before ctx).getLast? with
      | none => rfl
      | some p =>
        have hp : (s.frag p).ofs < (s.frag a).ofs :=
          (hearlier p (mem_append_left _ (mem_of_getLast? hprev)) a (by simp)).1
        simp only [if_pos hp]
        rfl
    have hroot : (node c l a r).root? = some a := rfl
    rw [Inode.lookupLoop, loop_eq, hroot, hround]
    by_cases hleft : (s.frag a).stop ≤ offset
    · have hbefore' : ∀ b ∈ before (⟨.right, c, a, l⟩ :: ctx), (s.frag b).stop ≤ offset := by
        intro b hb
        rw [before, mem_append, mem_singleton] at hb
        rcases hb with hb | rfl
        · exact ((hearlier b hb a (by simp)).2.trans ha).trans hleft
        · exact hleft
      rw [if_pos hleft]
      obtain ⟨q, hq, hfound⟩ := ihr (⟨.right, c, a, l⟩ :: ctx) h hsorted hstop hbefore' hafter
      refine ⟨q, ?_, hfound⟩
      rw [before, getLast?_concat] at hq
      exact hq
    · rw [if_neg hleft]
      by_cases hright : offset < (s.frag a).ofs
      · have hafter' : ∀ b ∈ after (⟨.left, c, a, r⟩ :: ctx), offset < (s.frag b).ofs := by
          intro b hb
          rw [after, cons_append, mem_cons] at hb
          rcases hb with rfl | hb
          · exact hright
          · exact hright.trans (hlater b hb).1
        rw [if_pos hright]
        obtain ⟨q, hq, hfound⟩ := ihl (⟨.left, c, a, r⟩ :: ctx) h hsorted hstop hbefore hafter'
        exact ⟨q, hq, hfound⟩
      · rw [if_neg hright]
        exact ⟨some a, rfl, .around hsplit (not_lt.1 hright) (not_le.1 hleft)⟩

end Lookup

end BooxKernel.Jffs2
