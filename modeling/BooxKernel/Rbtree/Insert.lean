import BooxKernel.Rbtree.Shape

/-!
# `rb_insert_color`

The loop climbs two levels in each round. Its invariant is that the tree would be balanced if
the node were black, that is, that the hole around the node takes a black tree.
-/
namespace BooxKernel.Rbtree

open ColoredTrees ColorTree Option

variable {A : Type*} [DecidableEq A] {m m' : Mem A} {a b g w : A} {d e : Side}
  {c c' c1 c2 : Color} {s s' t u t1 t2 u1 u2 : ColorTree A} {ctx : List (Frame A)} {n : ℕ}

namespace Holds

lemma sideOf (ctx : List (Frame A)) (h : Holds m (plug ctx (.bin d c a s t)))
    (hne : s ≠ .nil ∨ t ≠ .nil) : m.sideOf a s.root? = d := by
  have hroots : t.root? ≠ s.root? := by
    obtain ⟨-, hnodup, -⟩ := holds_plug.1 h
    obtain ⟨-, -, -, hst⟩ := nodup_inorder_bin.1 hnodup
    intro heq
    cases hs : s.root? with
    | none => simp_all
    | some x =>
      exact hst x (mem_of_root? hs) (mem_of_root? (heq.trans hs))
  cases d with
  | left => simp [Mem.sideOf, h.node_eq _, Node.sided]
  | right => simp [Mem.sideOf, h.node_eq _, Node.sided, hroots]

lemma blacken (ctx : List (Frame A)) (h : Holds m (plug ctx t)) :
    Holds (m.setColorOf t.root? .black) (plug ctx t.blacken) := by
  rcases eq_nil_or_bin .left t with rfl | ⟨c, a, s, u, rfl⟩
  · exact h
  · rw [blacken_bin]
    exact h.setColor ctx .black

lemma blackenRoot (h : Holds m t) : Holds (m.setColorOf m.root .black) t.blacken := by
  rw [h.root]
  exact h.blacken []

lemma insertRound_red
    (h : Holds m (plug ctx (.bin d c g (.bin e c1 b s t) (.bin d .red w u1 u2)))) :
    ∃ m', insertRound d a b g m = some (g, m') ∧
      Holds m' (plug ctx (.bin d .red g (.bin e .black b s t) (.bin d .black w u1 u2))) := by
  have hg := h.node_eq _
  rw [plug_sibling] at h
  have hw := h.node_eq _
  replace h := h.setColor _ .black
  rw [← plug_sibling] at h
  replace h := h.setColor (⟨d, c, g, _⟩ :: ctx) .black
  replace h := h.setColor ctx .red
  refine ⟨_, ?_, h⟩
  simp [insertRound, hg, Mem.isBlack, hw, Mem.setColorOf]

lemma insertRound_outer (h : Holds m (plug ctx (.bin d c g (.bin d c1 b t s) u)))
    (ht : t.root? = some a) (hu : u.color = .black) :
    ∃ m', insertRound d a b g m = some (a, m') ∧
      Holds m' (plug ctx (.bin d .black b t (.bin d .red g s u))) := by
  have hg := h.node_eq _
  have hb := h.node_eq (⟨d, c, g, u⟩ :: ctx)
  have huncle : m.isBlack u.root? = true := by
    rw [plug_sibling] at h
    simp [h.isBlack _, hu]
  have houter : s.root? ≠ some a := by
    obtain ⟨-, hnodup, -⟩ := holds_plug.1 h
    obtain ⟨-, hnodup, -⟩ := nodup_inorder_bin.1 hnodup
    obtain ⟨-, -, -, hts⟩ := nodup_inorder_bin.1 hnodup
    exact fun hs => hts a (mem_of_root? ht) (mem_of_root? hs)
  replace h := h.setColor (⟨d, c, g, u⟩ :: ctx) .black
  replace h := h.setColor ctx .red
  rw [← bin_opp, ← bin_opp d .black] at h
  obtain ⟨m', hrotate, h⟩ := h.rotate ctx
  rw [bin_opp, bin_opp] at h
  refine ⟨m', ?_, h⟩
  simp [insertRound, hg, huncle, hb, houter, hrotate]

lemma insertRound_inner
    (h : Holds m (plug ctx (.bin d c g (.bin d.opp c1 b (.bin d c2 a t1 t2) s) u)))
    (hu : u.color = .black) :
    ∃ m', insertRound d a b g m = some (b, m') ∧
      Holds m' (plug ctx (.bin d .black a (.bin d c1 b s t1) (.bin d .red g t2 u))) := by
  have hg := h.node_eq _
  have huncle : m.isBlack u.root? = true := by
    rw [plug_sibling] at h
    simp [h.isBlack _, hu]
  rw [bin_opp] at h
  have hb := h.node_eq (⟨d, c, g, u⟩ :: ctx)
  obtain ⟨m1, hrotate, h⟩ := h.rotate (⟨d, c, g, u⟩ :: ctx)
  replace h := h.setColor (⟨d, c, g, u⟩ :: ctx) .black
  replace h := h.setColor ctx .red
  rw [← bin_opp, ← bin_opp d .black] at h
  obtain ⟨m', hrotate', h⟩ := h.rotate ctx
  rw [bin_opp, bin_opp] at h
  refine ⟨m', ?_, h⟩
  simp [insertRound, hg, huncle, hb, hrotate, hrotate']

end Holds

lemma rbInsertColor_exit (ctx : List (Frame A)) (h : Holds m (plug ctx t))
    (ha : t.root? = some a) (hctx : ∀ f ∈ ctx.head?, f.color = .black) :
    ∃ m', rbInsertColor a m = some m' ∧ Holds m' (plug ctx t).blacken := by
  have hblack := h.blackenRoot
  have hroot : ∃ top, m.root = some top := by
    rw [h.root, ← isSome_iff_exists, isSome_iff_ne_none, ne_eq,
      root?_eq_none]
    intro hnil
    have hmem : a ∈ (plug ctx t).inorder := mem_inorder_plug.2 (.inl (mem_of_root? ha))
    simp [hnil, inorder] at hmem
  obtain ⟨top, hroot⟩ := hroot
  refine ⟨_, ?_, hblack⟩
  rw [rbInsertColor_eq, insertColorRound, h.parent_eq ctx ha]
  cases ctx with
  | nil => simp [hroot, Mem.setColorOf]
  | cons f ctx =>
    have hf := h.node_eq (d := f.side) ctx
    have hcolor := hctx f (by simp)
    simp [hroot, hf, hcolor, Mem.setColorOf]

lemma rbInsertColor_round
    (h : Holds m (plug (⟨e, .red, b, s⟩ :: ⟨d, c, g, u⟩ :: ctx) t)) (ha : t.root? = some a) :
    rbInsertColor a m = (insertRound d a b g m).bind fun next => rbInsertColor next.1 next.2 := by
  have hb := h.node_eq (d := e) (⟨d, c, g, u⟩ :: ctx)
  have hside : m.sideOf g (some b) = d := by
    have hside := h.sideOf (d := d) ctx (.inl
      (by rw [Frame.fill, ne_eq, ← root?_eq_none]; simp))
    rwa [Frame.fill, root?_bin] at hside
  rw [rbInsertColor_eq, insertColorRound, h.parent_eq _ ha]
  simp [hb, hside, bind_assoc]

/-- `run` returns a memory with a balanced tree of the nodes `xs`, in this order. -/
def Leaves (run : Option (Mem A)) (xs : List A) : Prop :=
  ∃ m' t', run = some m' ∧ Holds m' t' ∧ t'.inorder = xs ∧ ∃ k, Balanced t' .black k

lemma leaves_of_black_parent
    (h : Holds m (plug (⟨d, .black, b, s⟩ :: ctx) t)) (ha : t.root? = some a)
    (ht : Balanced t .red n) (hs : Balanced s c n) (hctx : Hole ctx .black (n + 1)) :
    Leaves (rbInsertColor a m) (plug (⟨d, .black, b, s⟩ :: ctx) t).inorder := by
  obtain ⟨m', hrun, h'⟩ := rbInsertColor_exit _ h ha (by simp)
  obtain ⟨k, hk⟩ := (Hole.black (d := d) (a := b) hs hctx).fill ht
  exact ⟨m', _, hrun, h', inorder_blacken, k, by rwa [hk.blacken_eq]⟩

lemma leaves_of_insertRound (hrun : insertRound d a b g m = some (w, m'))
    (h : Holds m (plug (⟨e, .red, b, s⟩ :: ⟨d, c, g, u⟩ :: ctx) t)) (ha : t.root? = some a)
    (hnext : Leaves (rbInsertColor w m') s'.inorder)
    (horder : s'.inorder = (plug (⟨e, .red, b, s⟩ :: ⟨d, c, g, u⟩ :: ctx) t).inorder) :
    Leaves (rbInsertColor a m) (plug (⟨e, .red, b, s⟩ :: ⟨d, c, g, u⟩ :: ctx) t).inorder := by
  obtain ⟨m'', t'', hrun', h'', horder', hbalanced⟩ := hnext
  refine ⟨m'', t'', ?_, h'', horder'.trans horder, hbalanced⟩
  rw [rbInsertColor_round h ha, hrun]
  exact hrun'

/-- `rb_insert_color` returns and leaves a balanced tree with the nodes in the same order. -/
lemma rbInsertColor_spec (ctx : List (Frame A)) (h : Holds m (plug ctx t))
    (ht : Balanced t .red n) (ha : t.root? = some a) (hctx : Hole ctx .black n) :
    Leaves (rbInsertColor a m) (plug ctx t).inorder := by
  induction hlen : ctx.length using Nat.strong_induction_on generalizing ctx t m a n with
  | _ len ih =>
  cases hctx with
  | root =>
    obtain ⟨m', hrun, h'⟩ := rbInsertColor_exit [] h ha (by simp)
    exact ⟨m', _, hrun, h', inorder_blacken, ht.exists_blacken⟩
  | black hs hrest => exact leaves_of_black_parent h ha ht hs hrest
  | @red _ e b s _ hs hrest =>
    cases hrest with
    | @black ctx d g u _ c' _ hu hrest =>
      cases c' with
      | red =>
        obtain ⟨w, u1, u2, rfl, hu1, hu2⟩ := hu.exists_bin_red d
        obtain ⟨m', hrun, h'⟩ := Holds.insertRound_red (a := a) h
        refine leaves_of_insertRound hrun h ha (ih _ (by simp [← hlen]) ctx h' ?_ (by simp) hrest rfl) ?_
        · exact (ht.bin_black hs).bin_red (hu1.bin_black hu2)
        · exact inorder_plug_congr ctx (inorder_bin_congr _
            (inorder_recolor _ _ _ _ _ _) (inorder_recolor _ _ _ _ _ _))
      | black =>
        rcases Side.eq_or_eq_opp d e with rfl | rfl
        · obtain ⟨m', hrun, h'⟩ := Holds.insertRound_outer h ha hu.color_eq
          refine leaves_of_insertRound hrun h ha
            (leaves_of_black_parent (s := .bin e .red g s u) h' ha ht (hs.bin_red hu) hrest) ?_
          exact inorder_plug_congr ctx (inorder_rotate ..).symm
        · obtain ⟨x, t1, t2, rfl, ht1, ht2⟩ := ht.exists_bin_red d
          obtain rfl : x = a := by simpa using ha
          obtain ⟨m', hrun, h'⟩ := Holds.insertRound_inner h hu.color_eq
          refine leaves_of_insertRound hrun h ha
            (leaves_of_black_parent (d := d) (t := .bin d .red b s t1)
            (s := .bin d .red g t2 u) h' (by simp) (hs.bin_red ht1) (ht2.bin_red hu) hrest) ?_
          refine inorder_plug_congr ctx ?_
          cases d <;> simp [Frame.fill, bin, inorder, Side.opp]

end BooxKernel.Rbtree
