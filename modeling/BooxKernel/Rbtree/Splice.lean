import BooxKernel.Rbtree.Erase

/-!
# The node that leaves

A node with one child at most gives its place to that child. A node with two children is
replaced by its successor, the leftmost node on its right, which has left its own place first.
-/
namespace BooxKernel.Rbtree

open ColoredTrees ColorTree

variable {A : Type*} {m m' : Mem A} {a b x : A} {d : Side}
  {c c' : Color} {s t l r : ColorTree A} {ctx : List (Frame A)} {n : ℕ}

lemma farthest_left (ctx : List (Frame A)) (h : Holds m (plug ctx (.node c l a r))) :
    ∃ lctx c' x u, .node c l a r = plug lctx (.bin .left c' x .nil u) ∧
      (∀ f ∈ lctx, f.side = .left) ∧ farthest .left m a = some x := by
  induction l generalizing c a r ctx with
  | nil =>
    refine ⟨[], c, a, r, rfl, by simp, ?_⟩
    have ha := h.node_eq (d := .left) ctx
    simp [farthest_eq, ha, Node.sided, Node.child]
  | node cl ll b lr ih _ =>
    obtain ⟨lctx, c', x, u, hplug, hleft, hrun⟩ := ih (⟨.left, c, a, r⟩ :: ctx) h
    refine ⟨lctx ++ [⟨.left, c, a, r⟩], c', x, u, ?_, ?_, ?_⟩
    · rw [plug_append, ← hplug]
      rfl
    · exact List.forall_mem_append.2 ⟨hleft, List.forall_mem_singleton.2 rfl⟩
    · have ha := h.node_eq (d := .left) ctx
      rw [farthest_eq, ha]
      exact hrun

variable [DecidableEq A]

lemma leaves_color (h : Holds m (plug ctx t)) (hctx : Hole ctx c' n)
    (ht : Balanced (.bin d c a .nil t) c' n) :
    Leaves (if c = .black then rbEraseColor t.root? (above ctx) m else some m)
      (plug ctx t).inorder := by
  cases c with
  | red =>
    obtain ⟨rfl, -, ht⟩ := ht.of_bin_red
    exact ⟨m, _, by simp, h, rfl, hctx.to_black.fill ht⟩
  | black =>
    obtain ⟨rfl, k, rfl, -, ⟨c2, ht⟩⟩ := ht.of_bin_black
    exact rbEraseColor_spec ctx h ht.short hctx

lemma eraseOuter_spec (h : Holds m (plug ctx (.bin d c a .nil t)))
    (hbalanced : Balanced (plug ctx (.bin d c a .nil t)) .black n) :
    Leaves (eraseOuter a t.root? m) (plug ctx t).inorder := by
  obtain ⟨c', k, hctx, ht⟩ := Hole.of_plug hbalanced
  obtain ⟨-, -, -, hdisjoint⟩ := holds_plug.1 h
  have hne : ∀ y, above ctx = some y → t.root? ≠ some y := fun y hy hroot =>
    hdisjoint y (by simp [mem_of_root? hroot]) (mem_elems_of_above hy)
  have hunlink : Holds ((m.setParentOf t.root? (above ctx)).replaceChild .left (above ctx) a t.root?)
      (plug ctx t) := by
    refine h.unlink .left (by simp) (fun y hy => ?_) (fun y hy => ?_) fun y _ hy hyt => ?_
    · simp [hy, hne y hy]
    · have hy' : above ctx ≠ some y := fun heq => hne y heq hy
      simp [hy, hy']
    · simp [hy, hyt]
  have hleaves := leaves_color hunlink hctx ht
  simpa [eraseOuter, h.node_eq ctx] using hleaves

lemma Holds.unlink_child (f : Frame A) (h : Holds m (plug (f :: ctx) (.bin d c x .nil t))) :
    Holds ((m.setParentOf t.root? (some f.elem)).setChild f.elem f.side t.root?)
      (plug (f :: ctx) t) := by
  obtain ⟨⟨⟨hf, -⟩, -⟩, -, hctxNodup, hdisjoint⟩ := holds_plug.1 h
  have hft : t.root? ≠ some f.elem := fun hroot =>
    hdisjoint _ (by simp [mem_of_root? hroot]) (mem_elems_cons.2 (.inl rfl))
  have hsib : f.sibling.root? ≠ some x := fun hroot =>
    hdisjoint x (by simp) (mem_elems_cons.2 (.inr (.inl (mem_of_root? hroot))))
  refine h.unlink .left (by simp) (fun y hy => ?_) (fun y hy => ?_) fun y _ hy hyt => ?_
  · obtain rfl : f.elem = y := by simpa using hy
    simp [hft, hf, Node.replaceChild_sided _ _ _ _ _ hsib]
  · have hne : y ≠ f.elem := by rintro rfl; exact hft hy
    simp [hy, hne]
  · have hne : y ≠ f.elem := by rintro rfl; simp at hy
    simp [hyt, hne]

lemma Holds.takeOver (h : Holds m (plug ctx (.bin .left c a l r))) (hl : l ≠ .nil)
    (hx : x ∉ (plug ctx (.bin .left c a l r)).inorder) :
    ∃ m', takeOver a x m = some m' ∧ Holds m' (plug ctx (.bin .left c x l r)) := by
  have ha := h.node_eq ctx
  obtain ⟨-, hnodup, -, hdisjoint⟩ := holds_plug.1 h
  obtain ⟨⟨hal, har⟩, -, -, hlr⟩ := nodup_inorder_bin.1 hnodup
  obtain ⟨y, hy⟩ : ∃ y, l.root? = some y := by
    rwa [← Option.ne_none_iff_exists', ne_eq, root?_eq_none]
  have hxin := hx
  simp only [mem_inorder_plug, mem_inorder_bin] at hxin hdisjoint
  have hrun : Rbtree.takeOver a x m = some ((((m.update x fun _ => m.node a).replaceChild .left
      (above ctx) a (some x)).setParent y (some x)).setParentOf r.root? (some x)) := by
    have h1 : a ≠ x := by grind
    have h2 : above ctx ≠ some a := by grind
    have h3 : a ≠ y := by grind
    simp [Rbtree.takeOver, Node.sided, h1, h2, h3, ha, hy]
  refine ⟨_, hrun, h.replace .left hx (by simp) (fun z hz => ?_) ?_ (fun z hz => ?_)
    fun z hza hzx hzc hzl hzr => ?_⟩
  · have h1 : z ≠ x := by grind
    have h2 : z ≠ y := by grind
    have h3 : r.root? ≠ some z := by grind
    simp [h1, h2, h3, hz]
  · have h1 : above ctx ≠ some x := by grind
    have h2 : x ≠ y := by grind
    have h3 : r.root? ≠ some x := by grind
    simp [h1, h2, h3]
  · have h1 : z ≠ x := by grind
    have h2 : above ctx ≠ some z := by grind
    rcases hz with hz | hz
    · obtain rfl : y = z := by grind
      have h3 : r.root? ≠ some y := by grind
      simp [h1, h2, h3]
    · have h3 : z ≠ y := by grind
      simp [h1, h2, h3, hz]
  · have h1 : z ≠ y := by grind
    simp [hzx, hzc, hzr, h1]

lemma exists_frame (c : Color) (l : ColorTree A) (lctx ctx : List (Frame A)) 
    (hleft : ∀ f ∈ lctx, f.side = .left) (ha : ∀ f ∈ lctx, f.elem ≠ a) (x : A) :
    ∃ f k, lctx ++ ⟨.right, c, a, l⟩ :: ctx = f :: k ∧
      f.side = (if f.elem = a then .right else .left) ∧
      above (lctx ++ ⟨.right, c, x, l⟩ :: ctx) = some (if f.elem = a then x else f.elem) := by
  cases lctx with
  | nil => exact ⟨_, _, rfl, by simp, by simp⟩
  | cons f lctx =>
    exact ⟨f, _, rfl, by simp [ha f, hleft f], by simp [ha f]⟩

lemma eraseInner_spec {right : A} (h : Holds m (plug ctx (.bin .left c a l r))) (hl : l ≠ .nil)
    (hr : r.root? = some right) (hbalanced : Balanced (plug ctx (.bin .left c a l r)) .black n) :
    Leaves (eraseInner a right m) ((plug ctx (.bin .left c a l r)).inorder.erase a) := by
  obtain ⟨lctx, c', x, u, rfl, hleft, hrun⟩ : ∃ lctx c' x u,
      r = plug lctx (.bin .left c' x .nil u) ∧ (∀ f ∈ lctx, f.side = .left) ∧
        farthest .left m right = some x := by
    cases r with
    | nil => simp at hr
    | node cr rl b rr =>
      obtain rfl : b = right := by simpa [root?] using hr
      exact farthest_left (⟨.right, c, a, l⟩ :: ctx) h
  have hinner : ∀ b t, plug (lctx ++ ⟨.right, c, b, l⟩ :: ctx) t =
      plug ctx (.bin .left c b l (plug lctx t)) := by
    simp [plug_append, Frame.fill, bin]
  obtain ⟨har, hxu⟩ : a ∉ (plug lctx (.bin .left c' x .nil u)).inorder ∧
      x ∉ (plug ctx (.bin .left c a l (plug lctx u))).inorder := by
    obtain ⟨-, hnodup, -⟩ := holds_plug.1 h
    rw [← hinner] at h ⊢
    obtain ⟨-, hnodup', -, hdisjoint⟩ := holds_plug.1 h
    refine ⟨(nodup_inorder_bin.1 hnodup).1.2, fun hx => ?_⟩
    rcases mem_inorder_plug.1 hx with hx | hx
    · exact (nodup_inorder_bin.1 hnodup').1.2 hx
    · exact hdisjoint x (by simp) hx
  have hne : ∀ f ∈ lctx, f.elem ≠ a := by
    rintro f hf rfl
    exact har (mem_inorder_plug.2 (.inr (elem_mem_elems hf)))
  obtain ⟨f, k, hfk, hside, habove⟩ := exists_frame c l lctx ctx hleft hne x
  have h1 := h
  rw [← hinner, hfk] at h1
  have hx := h1.node_eq (f :: k)
  replace h1 := h1.unlink_child f
  rw [← hfk, hinner] at h1
  obtain ⟨m2, htake, h2⟩ := h1.takeOver hl hxu
  rw [← hinner] at h2 hbalanced
  obtain ⟨ck, j, hhole, hu⟩ := Hole.of_plug hbalanced
  have hleaves := leaves_color h2 hhole.replace_elem hu
  have heq : eraseInner a right m = if c' = .black then
      rbEraseColor u.root? (above (lctx ++ ⟨.right, c, x, l⟩ :: ctx)) m2 else some m2 := by
    have hchild : (if f.elem = a then
          (m.setParentOf u.root? (some f.elem)).setChild f.elem .right u.root?
        else (m.setParentOf u.root? (some f.elem)).setChild f.elem .left u.root?) =
        (m.setParentOf u.root? (some f.elem)).setChild f.elem f.side u.root? := by
      rw [hside]
      split_ifs <;> rfl
    simp [eraseInner, hrun, hx, Node.sided, hchild, htake, habove]
  have horder : (plug (lctx ++ ⟨.right, c, x, l⟩ :: ctx) u).inorder =
      (plug ctx (.bin .left c a l (plug lctx (.bin .left c' x .nil u)))).inorder.erase a := by
    rw [hinner]
    refine inorder_plug_erase h.nodup ?_
    simp [inorder_plug, before_eq_nil hleft, bin, inorder]
  rw [heq, ← horder]
  exact hleaves

/-- `rb_erase` of a node of the tree returns and takes out this node only. -/
lemma rbErase_spec (h : Holds m t) (hbalanced : Balanced t .black n) (ha : a ∈ t.inorder) :
    Leaves (rbErase a m) (t.inorder.erase a) := by
  obtain ⟨ctx, c, l, r, rfl⟩ := exists_plug_of_mem ha
  have hnode := h.node_eq (d := .left) ctx
  cases l with
  | nil =>
    have hleaves := eraseOuter_spec (d := .left) h hbalanced
    rw [inorder_plug_erase h.nodup rfl] at hleaves
    simpa [rbErase, hnode, Node.sided] using hleaves
  | node cl ll b lr =>
    cases r with
    | nil =>
      have hleaves := eraseOuter_spec (d := .right) h hbalanced
      rw [inorder_plug_erase h.nodup (by simp [inorder])] at hleaves
      simpa [rbErase, hnode, Node.sided, root?, bin] using hleaves
    | node cr rl b' rr =>
      have hleaves := eraseInner_spec h (by simp) rfl hbalanced
      simpa [rbErase, hnode, Node.sided, root?, bin] using hleaves

end BooxKernel.Rbtree
