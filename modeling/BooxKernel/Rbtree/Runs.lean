import BooxKernel.Lib.Runs
import BooxKernel.Rbtree.Splice

/-!
# Runs of the red-black tree

A run starts from `RB_ROOT`. A node that is not in the tree is linked at any null pointer of
the tree and rebalanced in, a node of the tree is erased, or the owner of a node that is not
in the tree writes to it.
-/
namespace BooxKernel.Rbtree

open ColoredTrees Runs ColorTree

variable {A : Type*} {m m' : Mem A} {a b : A} {c : Color} {s t t' l r : ColorTree A}
  {ctx : List (Frame A)} {p q : Option A} {n : ℕ}

/-- The pointers from the root lead to the node. -/
inductive Reach (m : Mem A) : A → Prop
  | root {a : A} : m.root = some a → Reach m a
  | child {a b : A} (d : Side) : Reach m a → (m.node a).child d = some b → Reach m b

/-- A null pointer of the tree. -/
inductive Link.Open (m : Mem A) : Link A → Prop
  | root : m.root = none → Open m .root
  | child {a : A} {d : Side} : Reach m a → (m.node a).child d = none → Open m (.child a d)

/-- The colours of a red-black tree. -/
structure RedBlack (t : ColorTree A) : Prop where
  root_black : t.color = .black
  no_red_red : ∀ path ∈ t.paths, path.IsChain fun parent child => ¬(parent = .red ∧ child = .red)
  black_height : ∃ n, ∀ path ∈ t.paths, path.count .black = n

lemma redBlack_of_balanced (h : Balanced t .black n) : RedBlack t where
  root_black := h.color_eq
  no_red_red := fun _ hp => h.isChain_of_mem_paths hp
  black_height := ⟨n, fun _ hp => h.count_of_mem_paths hp⟩

namespace Holds

lemma reach_plug (ctx : List (Frame A)) (h : Holds m (plug ctx (.node c l a r))) : Reach m a := by
  induction ctx generalizing c l a r with
  | nil => exact .root h.root
  | cons f ctx ih =>
    obtain ⟨⟨⟨hf, -⟩, -⟩, -⟩ := holds_plug.1 h
    have hreach : Reach m f.elem := by
      obtain ⟨d, cf, b, sib⟩ := f
      cases d with
      | left => exact ih h
      | right => exact ih h
    exact .child f.side hreach (by rw [hf, Node.sided_child]; rfl)

lemma reach_iff (h : Holds m t) : Reach m a ↔ a ∈ t.inorder := by
  constructor
  · intro hreach
    induction hreach with
    | root hroot => exact mem_of_root? (h.root ▸ hroot)
    | @child a b d _ hchild ih =>
      obtain ⟨ctx, c, l, r, rfl⟩ := exists_plug_of_mem ih
      have hnode := h.node_eq (d := .left) ctx
      rw [hnode] at hchild
      refine mem_inorder_plug.2 (.inl ?_)
      cases d with
      | left => simp [inorder, mem_of_root? (t := l) hchild]
      | right => simp [inorder, mem_of_root? (t := r) hchild]
  · intro hmem
    obtain ⟨ctx, c, l, r, rfl⟩ := exists_plug_of_mem hmem
    exact h.reach_plug ctx

end Holds

lemma Rep.unique (h : Rep m p t) (h' : Rep m q t') (hroot : t.root? = t'.root?) : t = t' := by
  induction t generalizing p q t' with
  | nil => exact (root?_eq_none.1 hroot.symm).symm
  | node c l a r ihl ihr =>
    cases t' with
    | nil => simp [root?] at hroot
    | node c' l' a' r' =>
      obtain rfl : a = a' := by simpa [root?] using hroot
      obtain ⟨ha, hl, hr⟩ := h
      obtain ⟨ha', hl', hr'⟩ := h'
      rw [ha, Node.mk.injEq] at ha'
      rw [ihl hl hl' ha'.2.2.2, ihr hr hr' ha'.2.2.1, ha'.2.1]

lemma Holds.unique (h : Holds m t) (h' : Holds m t') : t = t' :=
  h.rep.unique h'.rep (h.root.symm.trans h'.root)

lemma Holds.exists_hole (h : Holds m t) {link : Link A} (hopen : link.Open m) :
    ∃ ctx, t = plug ctx .nil ∧ link = linkOf ctx ∧ link.parent = above ctx := by
  cases hopen with
  | root hroot =>
    obtain rfl : t = .nil := root?_eq_none.1 (h.root ▸ hroot)
    exact ⟨[], rfl, rfl, rfl⟩
  | @child a d hreach hchild =>
    obtain ⟨ctx, c, l, r, rfl⟩ := exists_plug_of_mem (h.reach_iff.1 hreach)
    rw [h.node_eq (d := .left) ctx] at hchild
    cases d with
    | left =>
      obtain rfl : l = .nil := root?_eq_none.1 hchild
      exact ⟨⟨.left, c, a, r⟩ :: ctx, rfl, rfl, rfl⟩
    | right =>
      obtain rfl : r = .nil := root?_eq_none.1 hchild
      exact ⟨⟨.right, c, a, l⟩ :: ctx, rfl, rfl, rfl⟩

/-- The memory holds a red-black tree. -/
def Inv (m : Mem A) : Prop := ∃ t, Holds m t ∧ ∃ k, Balanced t .black k

lemma inv_of_leaves {xs : List A} (h : Leaves (some m') xs) : Inv m' := by
  obtain ⟨_, t', hrun, h', -, hbalanced⟩ := h
  cases hrun
  exact ⟨t', h', hbalanced⟩

variable [DecidableEq A]

lemma insert_at_hole (h : Holds m (plug ctx .nil)) (hbalanced : Balanced (plug ctx .nil) .black n)
    (ha : a ∉ (plug ctx .nil).inorder) :
    Leaves (rbInsertColor a (rbLinkNode a (above ctx) (linkOf ctx) m))
      (before ctx ++ a :: after ctx) := by
  obtain ⟨c, k, hhole, hnil⟩ := Hole.of_plug hbalanced
  cases hnil
  have hleaves := rbInsertColor_spec ctx (h.link ha) (Balanced.nil.bin_red .nil)
    (root?_bin ..) hhole
  simpa [inorder_plug, bin, inorder] using hleaves

lemma insert_spec (h : Holds m t) (hbalanced : Balanced t .black n) (ha : a ∉ t.inorder)
    {link : Link A} (hopen : link.Open m) :
    ∃ u, Holds (rbLinkNode a link.parent link m) u ∧
      (∃ xs ys, t.inorder = xs ++ ys ∧ u.inorder = xs ++ a :: ys) ∧
      Leaves (rbInsertColor a (rbLinkNode a link.parent link m)) u.inorder := by
  obtain ⟨ctx, rfl, rfl, habove⟩ := h.exists_hole hopen
  have hleaves := insert_at_hole h hbalanced ha
  have horder : (plug ctx (.bin .left .red a .nil .nil)).inorder = before ctx ++ a :: after ctx := by
    simp [inorder_plug, bin, inorder]
  rw [habove]
  refine ⟨_, h.link ha, ⟨before ctx, after ctx, ?_, horder⟩, horder ▸ hleaves⟩
  simp [inorder_plug, inorder]

/-! ## Steps and runs -/

inductive Op (A : Type*)
  | insert (a : A) (link : Link A)
  | erase (a : A)
  | write (a : A) (node : Node A)

inductive Step (m : Mem A) : Op A → Mem A → Prop
  | insert {a : A} {link : Link A} {m' : Mem A} : ¬Reach m a → link.Open m →
      rbInsertColor a (rbLinkNode a link.parent link m) = some m' → Step m (.insert a link) m'
  | erase {a : A} {m' : Mem A} : Reach m a → rbErase a m = some m' → Step m (.erase a) m'
  | write {a : A} {node : Node A} : ¬Reach m a → Step m (.write a node) (m.update a fun _ => node)

lemma step_inv {op : Op A} (h : Inv m) (hstep : Step m op m') : Inv m' := by
  obtain ⟨t, h, n, hbalanced⟩ := h
  cases hstep with
  | insert hnew hopen hrun =>
    obtain ⟨u, -, -, hleaves⟩ := insert_spec h hbalanced (mt h.reach_iff.2 hnew) hopen
    exact inv_of_leaves (hrun ▸ hleaves)
  | erase hmem hrun =>
    exact inv_of_leaves (hrun ▸ rbErase_spec h hbalanced (h.reach_iff.1 hmem))
  | @write a node hnew =>
    refine ⟨t, h.congr (fun b hb => ?_) rfl, n, hbalanced⟩
    have hne : b ≠ a := by
      rintro rfl
      exact hnew (h.reach_iff.2 hb)
    simp [hne]

lemma run_inv {nodes : A → Node A} {ops : List (Op A)} (hrun : Run Step ⟨nodes, none⟩ ops m) :
    Inv m :=
  hrun.invariant ⟨.nil, ⟨trivial, rfl, .nil⟩, 0, .nil⟩ fun _ _ _ => step_inv

/-- Every memory that a run from `RB_ROOT` reaches holds exactly one tree, with all its parent
pointers, and it is a red-black tree. From there `rb_insert_color` of a new leaf returns with
the order of the nodes unchanged, and `rb_erase` returns with the node taken out. -/
theorem rbtree_sound {nodes : A → Node A} {ops : List (Op A)}
    (hrun : Run Step ⟨nodes, none⟩ ops m) :
    ∃ t, Holds m t ∧ (∀ t', Holds m t' → t' = t) ∧ RedBlack t ∧
      (∀ a (link : Link A), ¬Reach m a → link.Open m →
        ∃ u, Holds (rbLinkNode a link.parent link m) u ∧
          (∃ xs ys, t.inorder = xs ++ ys ∧ u.inorder = xs ++ a :: ys) ∧
          ∃ m' t', rbInsertColor a (rbLinkNode a link.parent link m) = some m' ∧ Holds m' t' ∧
            RedBlack t' ∧ t'.inorder = u.inorder) ∧
      ∀ a, Reach m a →
        ∃ m' t', rbErase a m = some m' ∧ Holds m' t' ∧ RedBlack t' ∧
          t'.inorder = t.inorder.erase a := by
  obtain ⟨t, h, n, hbalanced⟩ := run_inv hrun
  refine ⟨t, h, fun t' h' => h'.unique h, redBlack_of_balanced hbalanced,
    fun a link hnew hopen => ?_, fun a hmem => ?_⟩
  · obtain ⟨u, hu, hplace, m', t', hrun', h', horder, k, hbalanced'⟩ :=
      insert_spec h hbalanced (mt h.reach_iff.2 hnew) hopen
    exact ⟨u, hu, hplace, m', t', hrun', h', redBlack_of_balanced hbalanced', horder⟩
  · obtain ⟨m', t', hrun', h', horder, k, hbalanced'⟩ :=
      rbErase_spec h hbalanced (h.reach_iff.1 hmem)
    exact ⟨m', t', hrun', h', redBlack_of_balanced hbalanced', horder⟩

lemma Holds.push (h : Holds m t) (xs : List A) (hbalanced : Balanced t .black n)
    (horder : t.inorder = xs ++ [b]) (ha : a ∉ t.inorder) :
    ∃ m' t', Step m (.insert a (.child b .right)) m' ∧ Holds m' t' ∧
      t'.inorder = xs ++ [b, a] ∧ ∃ k, Balanced t' .black k := by
  obtain ⟨ctx, c, l, r, rfl, rfl, hafter⟩ := exists_plug_of_split h.nodup horder
  obtain ⟨hr, hctx⟩ := List.append_eq_nil_iff.1 hafter.symm
  obtain rfl : r = .nil := inorder_eq_nil.1 hr
  have hreach : Reach m b := h.reach_iff.2 (by simp [horder])
  have hopen : Link.Open m (.child b .right) :=
    .child hreach (by rw [h.node_eq (d := .left) ctx]; rfl)
  have hplug : plug ctx (.node c l b .nil) = plug (⟨.right, c, b, l⟩ :: ctx) .nil := rfl
  rw [hplug] at h hbalanced ha
  obtain ⟨m', t', hrun, h', horder', hbalanced'⟩ := insert_at_hole h hbalanced ha
  refine ⟨m', t', .insert (mt h.reach_iff.1 ha) hopen hrun, h', horder'.trans ?_, hbalanced'⟩
  simp [before, after, hctx]

/-- Three nodes are linked one behind the other, so that the third one turns the tree, and the
root is erased. -/
theorem rbtree_sound_rotation :
    ∃ m : Mem ℕ, Run Step ⟨fun _ => ⟨none, .red, none, none⟩, none⟩
        [.insert 0 .root, .insert 1 (.child 0 .right), .insert 2 (.child 1 .right), .erase 1] m ∧
      ∃ t, Holds m t ∧ RedBlack t ∧ t.inorder = [0, 2] := by
  have hempty : Holds (⟨fun _ => ⟨none, .red, none, none⟩, none⟩ : Mem ℕ) .nil :=
    ⟨trivial, rfl, .nil⟩
  have hnew : 0 ∉ (.nil : ColorTree ℕ).inorder := by simp [inorder]
  obtain ⟨m1, t1, hrun, h1, horder1, n1, hbalanced1⟩ :=
    insert_at_hole (show Holds _ (plug [] .nil) from hempty) .nil hnew
  have hstep1 := Step.insert (mt hempty.reach_iff.1 hnew) (.root rfl) hrun
  obtain ⟨m2, t2, hstep2, h2, horder2, n2, hbalanced2⟩ :=
    h1.push [] (a := 1) hbalanced1 horder1 (by simp [horder1, before, after])
  obtain ⟨m3, t3, hstep3, h3, horder3, n3, hbalanced3⟩ :=
    h2.push [0] (a := 2) hbalanced2 horder2 (by simp [horder2])
  obtain ⟨m4, t4, herase, h4, horder4, -⟩ := rbErase_spec h3 hbalanced3 (a := 1) (by simp [horder3])
  have hrun := Run.cons hstep1 (.cons hstep2 (.cons hstep3
    (.cons (.erase (h3.reach_iff.2 (by simp [horder3])) herase) .nil)))
  obtain ⟨t, ht, hunique, hredBlack, -⟩ := rbtree_sound hrun
  refine ⟨m4, hrun, t, ht, hredBlack, ?_⟩
  rw [← hunique t4 h4, horder4, horder3]
  rfl

end BooxKernel.Rbtree
