import BooxKernel.Rbtree.Insert

/-!
# `rb_erase`

A black node that leaves makes one subtree one black node too low. `__rb_erase_color` climbs
with that subtree until it can be repaired: `Short t n` is what the loop knows about it.
-/
namespace BooxKernel.Rbtree

open ColoredTrees Option ColorTree

variable {A : Type*} [DecidableEq A] {m m' : Mem A} {a b o x y : A} {d e : Side}
  {c c' c1 c2 : Color} {s t u l r t1 t2 s1 s2 : ColorTree A} {ctx : List (Frame A)} {n : ℕ}

namespace Holds

lemma eraseBreak (h : Holds m (plug ctx (.bin d c a t (.bin d c1 o s1 (.bin d c2 y u r))))) :
    ∃ m', eraseBreak d a m = some m' ∧
      Holds m' (plug ctx (.bin d c o (.bin d .black a t s1) (.bin d .black y u r))) := by
  have ha := h.node_eq ctx
  rw [plug_sibling] at h
  replace h := h.setColor _ c
  rw [← plug_sibling] at h
  replace h := h.setColor ctx .black
  rw [plug_sibling] at h
  have ho := h.node_eq _
  rw [plug_sibling] at h
  replace h := h.setColor _ .black
  rw [← plug_sibling, ← plug_sibling] at h
  obtain ⟨m', hrotate, h⟩ := h.rotate ctx
  refine ⟨m', ?_, h⟩
  simp only [Rbtree.eraseBreak, ha, ho, Node.sided_child_opp, Node.sided_color,
    root?_bin, bind_eq_bind, bind_some, Mem.setColorOf, hrotate]

lemma eraseNephews_up (h : Holds m (plug ctx (.bin d c a t (.bin d c1 o s1 s2))))
    (hs1 : s1.color = .black) (hs2 : s2.color = .black) :
    ∃ m', eraseNephews d a m = some (.up m') ∧
      Holds m' (plug ctx (.bin d c a t (.bin d .red o s1 s2))) := by
  have ha := h.node_eq ctx
  rw [plug_sibling] at h
  have htest := h.children_black _
  replace h := h.setColor _ .red
  rw [← plug_sibling] at h
  refine ⟨_, ?_, h⟩
  simp only [eraseNephews, ha, Node.sided_child_opp, root?_bin, bind_eq_bind,
    bind_some, htest]
  simp [hs1, hs2]

lemma eraseNephews_far
    (h : Holds m (plug ctx (.bin d c a t (.bin d c1 o s1 (.bin d .red y u r))))) :
    ∃ m', eraseNephews d a m = some (.break m') ∧
      Holds m' (plug ctx (.bin d c o (.bin d .black a t s1) (.bin d .black y u r))) := by
  obtain ⟨m', hbreak, h'⟩ := h.eraseBreak
  have ha := h.node_eq ctx
  rw [plug_sibling] at h
  have ho := h.node_eq _
  have htest := h.children_black _
  rw [plug_sibling] at h
  have hy := h.isBlack _
  refine ⟨m', ?_, h'⟩
  simp only [eraseNephews, ha, Node.sided_child_opp, root?_bin, bind_eq_bind,
    bind_some, htest]
  rw [root?_bin] at hy
  simp [ho, hy, hbreak]

/-- Only the nephew on the near side is red: a first rotation brings it to the far side. -/
lemma eraseNephews_near
    (h : Holds m (plug ctx (.bin d c a t (.bin d c1 o (.bin d .red y u r) s2))))
    (hs2 : s2.color = .black) :
    ∃ m', eraseNephews d a m = some (.break m') ∧
      Holds m' (plug ctx (.bin d c y (.bin d .black a t u) (.bin d .black o r s2))) := by
  have ha := h.node_eq ctx
  rw [plug_sibling] at h
  have ho := h.node_eq _
  have htest := h.children_black _
  have hfar : m.isBlack s2.root? = decide (s2.color = .black) := by
    rw [plug_sibling] at h
    exact h.isBlack _
  replace h := h.setColor (⟨d, c1, o, s2⟩ :: ⟨d.opp, c, a, t⟩ :: ctx) .black
  replace h := h.setColor (⟨d.opp, c, a, t⟩ :: ctx) .red
  rw [← bin_opp, ← bin_opp d .black] at h
  obtain ⟨m1, hrotate, h⟩ := h.rotate _
  rw [bin_opp, bin_opp, ← plug_sibling] at h
  obtain ⟨m', hbreak, h'⟩ := h.eraseBreak
  refine ⟨m', ?_, h'⟩
  simp only [eraseNephews, ha, Node.sided_child_opp, root?_bin, bind_eq_bind,
    bind_some, htest]
  simp [ho, hfar, hs2, Mem.setColorOf, hrotate, hbreak]

lemma eraseNephews_break (h : Holds m (plug ctx (.bin d c a t (.bin d .black o s1 s2))))
    (hred : ¬(s1.color = .black ∧ s2.color = .black)) (ht : Balanced t .black n)
    (hs1 : Balanced s1 c1 n) (hs2 : Balanced s2 c2 n) :
    ∃ m' x u1 u2, eraseNephews d a m = some (.break m') ∧ Holds m' (plug ctx (.bin d c x u1 u2)) ∧
      (bin d c x u1 u2).inorder =
        (bin d c a t (.bin d .black o s1 s2)).inorder ∧
      Balanced u1 .black (n + 1) ∧ Balanced u2 .black (n + 1) := by
  cases c2 with
  | red =>
    obtain ⟨y, u, r, rfl, hu, hr⟩ := hs2.exists_bin_red d
    obtain ⟨m', hrun, h'⟩ := h.eraseNephews_far
    refine ⟨m', o, _, _, hrun, h', ?_, ht.bin_black hs1, hu.bin_black hr⟩
    cases d <;> simp [bin, inorder]
  | black =>
    obtain rfl : c1 = .red := by
      cases c1 with
      | red => rfl
      | black => exact absurd ⟨hs1.color_eq, hs2.color_eq⟩ hred
    obtain ⟨y, u, r, rfl, hu, hr⟩ := hs1.exists_bin_red d
    obtain ⟨m', hrun, h'⟩ := h.eraseNephews_near hs2.color_eq
    refine ⟨m', y, _, _, hrun, h', ?_, ht.bin_black hu, hr.bin_black hs2⟩
    cases d <;> simp [bin, inorder]

/-- What a round does when the sibling is black: the subtree at the parent is one black node
short, or the whole tree is repaired. -/
lemma eraseNephews_spec (h : Holds m (plug (⟨d, c, b, s⟩ :: ctx) t)) (ht : Balanced t .black n)
    (hs : Balanced s .black (n + 1)) (hctx : Hole (⟨d, c, b, s⟩ :: ctx) .black (n + 1)) :
    (∃ m' t' k, eraseNephews d b m = some (.up m') ∧ Holds m' (plug ctx t') ∧
      t'.root? = some b ∧ t'.color = c ∧
      (plug ctx t').inorder = (plug (⟨d, c, b, s⟩ :: ctx) t).inorder ∧
      Short t' k ∧ Hole ctx .black (k + 1)) ∨
    ∃ m' t', eraseNephews d b m = some (.break m') ∧ Holds m' t' ∧
      t'.inorder = (plug (⟨d, c, b, s⟩ :: ctx) t).inorder ∧ ∃ k, Balanced t' .black k := by
  obtain ⟨o, s1, s2, rfl, ⟨c1, hs1⟩, ⟨c2, hs2⟩⟩ := hs.exists_bin_black d
  by_cases hblack : s1.color = .black ∧ s2.color = .black
  · left
    obtain rfl : c1 = .black := by rw [← hs1.color_eq, hblack.1]
    obtain rfl : c2 = .black := by rw [← hs2.color_eq, hblack.2]
    obtain ⟨m', hrun, h'⟩ := eraseNephews_up h hblack.1 hblack.2
    have horder := inorder_plug_congr ctx
      (inorder_bin_congr (d := d) (c := c) (a := b) c (rfl : t.inorder = _)
        (inorder_recolor d .red .black o s1 s2))
    have hbin : Balanced (.bin d .black b t (.bin d .red o s1 s2)) .black (n + 1) :=
      ht.bin_black (hs1.bin_red hs2)
    cases hctx with
    | red _ hctx =>
      exact ⟨m', _, n, hrun, h', by simp, by simp, horder, by simpa [Short] using hbin,
        hctx.to_black⟩
    | black _ hctx => exact ⟨m', _, n + 1, hrun, h', by simp, by simp, horder, hbin.short, hctx⟩
  · right
    obtain ⟨m', x, u1, u2, hrun, h', horder, hu1, hu2⟩ :=
      eraseNephews_break h hblack ht hs1 hs2
    refine ⟨m', _, hrun, h', inorder_plug_congr ctx horder, ?_⟩
    cases hctx with
    | red _ hctx => exact hctx.fill (hu1.bin_red hu2)
    | black _ hctx => exact hctx.fill (hu1.bin_black hu2)

lemma eraseRound_black (h : Holds m (plug (⟨d, c, b, s⟩ :: ctx) t)) (hs : s.color = .black)
    (hne : s ≠ .nil) : eraseRound d b m = eraseNephews d b m := by
  obtain ⟨c1, o, s1, s2, rfl⟩ := (eq_nil_or_bin d s).resolve_left hne
  obtain rfl : c1 = .black := by simpa using hs
  have hb := h.node_eq (d := d) ctx
  rw [plug_cons, Frame.fill, plug_sibling] at h
  have ho := h.node_eq _
  simp [eraseRound, hb, ho]

lemma eraseRound_red (h : Holds m (plug (⟨d, c, b, .bin d .red o s1 s2⟩ :: ctx) t)) :
    ∃ m', eraseRound d b m = eraseNephews d b m' ∧
      Holds m' (plug (⟨d, .red, b, s1⟩ :: ⟨d, .black, o, s2⟩ :: ctx) t) := by
  have hb := h.node_eq (d := d) ctx
  rw [plug_cons, Frame.fill, plug_sibling] at h
  have ho := h.node_eq _
  replace h := h.setColor _ .black
  rw [← plug_sibling] at h
  replace h := h.setColor ctx .red
  obtain ⟨m', hrotate, h⟩ := h.rotate ctx
  refine ⟨m', ?_, h⟩
  simp [eraseRound, hb, ho, hrotate]

end Holds

lemma rbEraseColor_exit (p : Option A) (h : Holds m (plug ctx t))
    (hstop : t.color = .red ∨ ctx = []) :
    rbEraseColor t.root? p m = some (m.setColorOf t.root? .black) := by
  rw [rbEraseColor_eq, eraseColorRound, if_neg]
  · rfl
  rintro ⟨hblack, hroot⟩
  rcases hstop with hred | rfl
  · simp [h.isBlack ctx, hred] at hblack
  · exact hroot h.root.symm

lemma leaves_of_red (p : Option A) (h : Holds m (plug ctx t)) (hred : t.color = .red)
    (ht : Short t n) (hctx : Hole ctx .black (n + 1)) :
    Leaves (rbEraseColor t.root? p m) (plug ctx t).inorder := by
  refine ⟨_, _, rbEraseColor_exit p h (.inl hred), h.blacken ctx,
    inorder_plug_congr ctx inorder_blacken, hctx.fill ?_⟩
  simpa [Short, hred] using ht

section
variable (h : Holds m (plug (⟨d, c, b, s⟩ :: ctx) t))
include h

section
variable (ht : t.color = .black) (hs : s ≠ .nil)
include ht hs

lemma rbEraseColor_round : rbEraseColor t.root? (some b) m = (eraseRound d b m).bind fun
      | .up m => rbEraseColor (some b) (m.node b).parent m
      | .break m => some (m.setColorOf m.root .black) := by
  have hside := h.sideOf (d := d) ctx (.inr hs)
  have hroot : t.root? ≠ m.root := by
    obtain ⟨x, hx, hplug⟩ := exists_root?_plug ⟨d, c, b, s⟩ ctx t
    obtain ⟨-, -, -, hdisjoint⟩ := holds_plug.1 h
    rw [h.root, hplug]
    exact fun heq => hdisjoint x (mem_of_root? heq) hx
  rw [rbEraseColor_eq, eraseColorRound, if_pos ⟨by simp [h.isBlack _, ht], hroot⟩]
  simp only [bind_eq_bind, bind_some, hside]
  rcases eraseRound d b m with - | (m' | m') <;> rfl

lemma leaves_of_up (hrun : eraseRound d b m = some (.up m'))
    (hnext : Leaves (rbEraseColor (some b) (m'.node b).parent m') u.inorder)
    (horder : u.inorder = (plug (⟨d, c, b, s⟩ :: ctx) t).inorder) :
    Leaves (rbEraseColor t.root? (some b) m) (plug (⟨d, c, b, s⟩ :: ctx) t).inorder := by
  obtain ⟨m'', t'', hrun', h'', horder', hbalanced⟩ := hnext
  refine ⟨m'', t'', ?_, h'', horder'.trans horder, hbalanced⟩
  rw [rbEraseColor_round h ht hs, hrun]
  exact hrun'

lemma leaves_of_break (hrun : eraseRound d b m = some (.break m')) (h' : Holds m' u)
    (horder : u.inorder = (plug (⟨d, c, b, s⟩ :: ctx) t).inorder) (hu : ∃ k, Balanced u .black k) :
    Leaves (rbEraseColor t.root? (some b) m) (plug (⟨d, c, b, s⟩ :: ctx) t).inorder := by
  obtain ⟨k, hu⟩ := hu
  refine ⟨_, _, by rw [rbEraseColor_round h ht hs, hrun]; rfl, h'.blackenRoot, ?_, k, ?_⟩
  · rw [inorder_blacken, horder]
  · rwa [hu.blacken_eq]

end

end

/-- `__rb_erase_color` returns and leaves a balanced tree with the nodes in the same order. -/
lemma rbEraseColor_spec (ctx : List (Frame A)) (h : Holds m (plug ctx t)) (ht : Short t n)
    (hctx : Hole ctx .black (n + 1)) :
    Leaves (rbEraseColor t.root? (above ctx) m) (plug ctx t).inorder := by
  induction ctx generalizing t m n with
  | nil =>
    exact ⟨_, _, rbEraseColor_exit none h (.inr rfl), h.blacken [], by simp, ht.exists_blacken⟩
  | cons f ctx ih =>
    obtain ⟨d, c, b, s⟩ := f
    cases hcolor : t.color with
    | red => exact leaves_of_red _ h hcolor ht hctx
    | black =>
      replace ht : Balanced t .black n := by simpa [Short, hcolor] using ht
      obtain ⟨cs, hs⟩ := hctx.sibling
      cases cs with
      | black =>
        have hround := Holds.eraseRound_black h hs.color_eq hs.ne_nil
        rcases h.eraseNephews_spec ht hs hctx with
          ⟨m', t', k, hrun, h', hroot, -, horder, ht', hctx'⟩ | ⟨m', t', hrun, h', horder, ht'⟩
        · refine leaves_of_up h hcolor hs.ne_nil (hround.trans hrun) ?_ horder
          rw [h'.parent_eq ctx hroot, ← hroot]
          exact ih h' ht' hctx'
        · exact leaves_of_break h hcolor hs.ne_nil (hround.trans hrun) h' horder ht'
      | red =>
        obtain ⟨o, s1, s2, rfl, hs1, hs2⟩ := hs.exists_bin_red d
        obtain ⟨m1, hround, h1⟩ := Holds.eraseRound_red h
        have hctx1 : Hole (⟨d, .red, b, s1⟩ :: ⟨d, .black, o, s2⟩ :: ctx) .black (n + 1) := by
          cases hctx with
          | red hs' _ => exact absurd hs'.of_bin_red.1 (by simp)
          | black _ hctx => exact .red hs1 (.black hs2 hctx)
        have horder1 : (plug (⟨d, .red, b, s1⟩ :: ⟨d, .black, o, s2⟩ :: ctx) t).inorder =
            (plug (⟨d, c, b, .bin d .red o s1 s2⟩ :: ctx) t).inorder :=
          inorder_plug_congr ctx (inorder_rotate ..)
        rcases h1.eraseNephews_spec ht hs1 hctx1 with
          ⟨m', t', k, hrun, h', hroot, hred, horder, ht', hctx'⟩ | ⟨m', t', hrun, h', horder, ht'⟩
        · refine leaves_of_up h hcolor hs.ne_nil (hround.trans hrun) ?_ (horder.trans horder1)
          rw [← hroot]
          exact leaves_of_red _ h' hred ht' hctx'
        · exact leaves_of_break h hcolor hs.ne_nil (hround.trans hrun) h' (horder.trans horder1) ht'

end BooxKernel.Rbtree
