import BooxKernel.Rbtree.Splice

/-!
# The neighbours of a node

`rb_first`, `rb_last`, `rb_next` and `rb_prev` of `lib/rbtree.c`, which follow the order of the
tree, and `rb_replace_node`, which puts a node into the place of another one.
-/
namespace BooxKernel.Rbtree

open ColoredTrees Loops Option
open List hiding after

variable {A : Type*}

def rbFirst (m : Mem A) : Option (Option A) :=
  match m.root with
  | none => some none
  | some node => (farthest .left m node).map some

def rbLast (m : Mem A) : Option (Option A) :=
  match m.root with
  | none => some none
  | some node => (farthest .right m node).map some

section
variable [DecidableEq A]

/-- `while ((parent = rb_parent(node)) && node == parent->rb_right) node = parent`, or the same
with the other child; the result is `parent`. -/
def climb (d : Side) (m : Mem A) (node : A) : Option (Option A) :=
  loop (fun node => match (m.node node).parent with
    | none => some (.done none)
    | some parent =>
      if (m.node parent).child d = some node then some (.next parent)
      else some (.done (some parent))) node

/-- `rb_next` and `rb_prev`: the neighbour of a node in the direction `d`. -/
def rbNeighbour (d : Side) (node : A) (m : Mem A) : Option (Option A) :=
  if (m.node node).parent = some node then some none
  else
    match (m.node node).child d with
    | some child => (farthest d.opp m child).map some
    | none => climb d m node

def rbNext (node : A) (m : Mem A) : Option (Option A) := rbNeighbour .right node m

def rbPrev (node : A) (m : Mem A) : Option (Option A) := rbNeighbour .left node m

def rbReplaceNode (victim new : A) (m : Mem A) : Mem A :=
  let parent := (m.node victim).parent
  let m := m.replaceChild .left parent victim (some new)
  let m := m.setParentOf (m.node victim).left (some new)
  let m := m.setParentOf (m.node victim).right (some new)
  m.update new fun _ => m.node victim

/-- The body of the loop below: `p` and the nodes that it has visited. -/
def visit (m : Mem A) : Option A × List A → Option (Round (Option A × List A) (List A))
  | (none, seen) => some (.done seen)
  | (some a, seen) => (rbNext a m).map fun p => .next (p, seen ++ [a])

/-- The nodes that `for (p = rb_first(root); p; p = rb_next(p))` visits. -/
def traverse (m : Mem A) : Option (List A) := do
  let p ← rbFirst m
  loop (visit m) (p, [])

end

/-- A list in the direction `d`. -/
def along (d : Side) (l : List A) : List A :=
  match d with
  | .left => l.reverse
  | .right => l

/-- The elements of a context on the side `d` of the hole, the nearest first. -/
def beyond (d : Side) (ctx : List (Frame A)) : List A :=
  match d with
  | .left => (before ctx).reverse
  | .right => after ctx

variable {m : Mem A} {a b : A} {c : Color} {d : Side} {s t : ColorTree A} {ctx : List (Frame A)}
  {xs ys : List A} {n : ℕ}

lemma beyond_cons (d : Side) (f : Frame A) (ctx : List (Frame A)) :
    beyond d (f :: ctx) =
      if f.side = d then beyond d ctx
      else f.elem :: along d f.sibling.inorder ++ beyond d ctx := by
  obtain ⟨e, c, b, s⟩ := f
  cases d <;> cases e <;> simp [beyond, before, after, along]

lemma farthest_spec (ctx : List (Frame A)) (h : Holds m (plug ctx t)) (ha : t.root? = some a) :
    farthest d m a = (along d.opp t.inorder).head? := by
  induction t generalizing ctx a with
  | nil => simp at ha
  | node c l x r ihl ihr =>
    obtain rfl : x = a := by simpa [ColorTree.root?] using ha
    obtain ⟨s, u, htree, hs⟩ : ∃ s u, .node c l x r = ColorTree.bin d c x s u ∧
        ∀ ctx y, Holds m (plug ctx s) → s.root? = some y →
          farthest d m y = (along d.opp s.inorder).head? := by
      cases d with
      | left => exact ⟨l, r, rfl, fun ctx y h hy => ihl ctx h hy⟩
      | right => exact ⟨r, l, rfl, fun ctx y h hy => ihr ctx h hy⟩
    rw [htree] at h ⊢
    have hnode := h.node_eq ctx
    have horder : along d.opp (ColorTree.bin d c x s u).inorder =
        along d.opp s.inorder ++ x :: along d.opp u.inorder := by
      cases d <;> simp [along, ColorTree.bin, ColorTree.inorder, Side.opp]
    rw [horder, farthest_eq, hnode, Node.sided_child]
    cases hy : s.root? with
    | none =>
      rw [ColorTree.root?_eq_none.1 hy]
      cases d <;> rfl
    | some y =>
      have hrun := hs (⟨d, c, x, u⟩ :: ctx) y h hy
      have hne : along d.opp s.inorder ≠ [] := by
        cases s with
        | nil => simp at hy
        | node c l z r => cases d <;> simp [along, ColorTree.inorder, Side.opp]
      rw [head?_append_of_ne_nil _ hne]
      exact hrun

lemma farthest_root (h : Holds m t) :
    (match m.root with
      | none => some none
      | some node => (farthest d m node).map some) = some (along d.opp t.inorder).head? := by
  rw [h.root]
  cases ha : t.root? with
  | none =>
    rw [ColorTree.root?_eq_none.1 ha]
    cases d <;> rfl
  | some a =>
    have hrun : farthest d m a = (along d.opp t.inorder).head? := farthest_spec [] h ha
    have hne : along d.opp t.inorder ≠ [] := by
      have hmem := ColorTree.mem_of_root? ha
      cases d <;> simpa [along, Side.opp] using ne_nil_of_mem hmem
    simp only [hrun, head?_eq_some_head hne, map_some]

lemma rbLast_spec (h : Holds m t) : rbLast m = some t.inorder.getLast? := by
  rw [← head?_reverse]
  exact farthest_root h

variable [DecidableEq A]

lemma climb_spec (h : Holds m (plug ctx t)) (ha : t.root? = some a) :
    climb d m a = some (beyond d ctx).head? := by
  induction ctx generalizing t a with
  | nil =>
    have hparent := h.parent_eq [] ha
    rw [climb, loop_eq, hparent]
    cases d <;> rfl
  | cons f ctx ih =>
    have hparent := h.parent_eq (f :: ctx) ha
    obtain ⟨⟨⟨hf, -⟩, -⟩, -, -, hdisjoint⟩ := holds_plug.1 h
    rw [climb, loop_eq, hparent, above_cons, beyond_cons]
    by_cases hside : f.side = d
    · have hchild : (m.node f.elem).child d = some a := by
        rw [hf, ← hside, Node.sided_child, ha]
      simp only [hchild, if_pos hside, if_true, bind_some, Round.elim]
      exact ih h (by simp [Frame.fill])
    · have hopp : f.side = d.opp := by
        rcases Side.eq_or_eq_opp d f.side with heq | heq
        · exact absurd heq hside
        · exact heq
      have hchild : (m.node f.elem).child d ≠ some a := by
        rw [hf, hopp, show (Node.sided d.opp (above ctx) f.color t.root? f.sibling.root?).child d =
          f.sibling.root? by cases d <;> rfl]
        intro heq
        refine hdisjoint a (ColorTree.mem_of_root? ha) (mem_elems_cons.2 (.inr (.inl ?_)))
        exact ColorTree.mem_of_root? heq
      simp only [hchild, if_neg hside, if_false, bind_some, Round.elim]
      rfl

lemma rbNeighbour_spec (ctx : List (Frame A)) (h : Holds m (plug ctx (.bin d c a s t))) :
    rbNeighbour d a m = some (along d s.inorder ++ beyond d ctx).head? := by
  have hnode := h.node_eq ctx
  have habove : above ctx ≠ some a := by
    obtain ⟨-, -, -, hdisjoint⟩ := holds_plug.1 h
    exact fun heq => hdisjoint a (by simp) (mem_elems_of_above heq)
  rw [rbNeighbour, hnode, Node.sided_parent, if_neg habove, Node.sided_child]
  cases hy : s.root? with
  | none =>
    rw [ColorTree.root?_eq_none.1 hy, climb_spec h (by simp)]
    cases d <;> rfl
  | some y =>
    have hrun : farthest d.opp m y = (along d s.inorder).head? := by
      have hfar := farthest_spec (d := d.opp) (⟨d, c, a, t⟩ :: ctx) h hy
      rwa [Side.opp_opp] at hfar
    obtain ⟨z, zs, hz⟩ : ∃ z zs, along d s.inorder = z :: zs := by
      refine exists_cons_of_ne_nil fun hnil => ?_
      have hmem := ColorTree.mem_of_root? hy
      cases d with
      | left => simp [reverse_eq_nil_iff.1 hnil] at hmem
      | right => simp [show s.inorder = [] from hnil] at hmem
    simp only [hrun, hz, head?_cons, map_some, cons_append]

lemma rbNext_spec (h : Holds m t) (ht : t.inorder = xs ++ a :: ys) :
    rbNext a m = some ys.head? := by
  obtain ⟨ctx, c, l, r, rfl, -, rfl⟩ := exists_plug_of_split h.nodup ht
  exact rbNeighbour_spec (d := .right) ctx h

lemma rbPrev_spec (h : Holds m t) (ht : t.inorder = xs ++ a :: ys) :
    rbPrev a m = some xs.getLast? := by
  obtain ⟨ctx, c, l, r, rfl, rfl, -⟩ := exists_plug_of_split h.nodup ht
  have hrun := rbNeighbour_spec (d := .left) ctx h
  rwa [along, beyond, ← reverse_append, head?_reverse] at hrun

lemma rbReplaceNode_holds (h : Holds m (plug ctx (.node c s a t)))
    (hb : b ∉ (plug ctx (.node c s a t)).inorder) :
    Holds (rbReplaceNode a b m) (plug ctx (.node c s b t)) := by
  have ha := h.node_eq (d := .left) ctx
  obtain ⟨-, hnodup, -, hdisjoint⟩ := holds_plug.1 h
  obtain ⟨⟨hal, har⟩, -, -, hlr⟩ := nodup_inorder_bin (d := .left) (c := c).1 hnodup
  have hbin := hb
  simp only [mem_inorder_plug, ColorTree.inorder, mem_append, mem_cons] at hbin hdisjoint
  have hrun : rbReplaceNode a b m = (((m.replaceChild .left (above ctx) a (some b)).setParentOf
      s.root? (some b)).setParentOf t.root? (some b)).update b fun _ => m.node a := by
    have h1 : above ctx ≠ some a := by grind
    have h2 : s.root? ≠ some a := by grind
    have h3 : t.root? ≠ some a := by grind
    simp [rbReplaceNode, ha, Node.sided, h1, h2, h3]
  rw [hrun]
  refine h.replace (d := .left) .left hb (by simp) (fun z hz => ?_) (by simp) (fun z hz => ?_)
    fun z hza hzb hzc hzl hzr => ?_
  · have h1 : z ≠ b := by grind
    have h2 : s.root? ≠ some z := by grind
    have h3 : t.root? ≠ some z := by grind
    simp [h1, h2, h3, hz]
  · have h1 : z ≠ b := by grind
    have h2 : above ctx ≠ some z := by grind
    rcases hz with hz | hz
    · have h3 : t.root? ≠ some z := by grind
      simp [h1, h2, h3, hz]
    · have h3 : s.root? ≠ some z := by grind
      simp [h1, h2, h3, hz]
  · simp [hzb, hzc, hzl, hzr]

lemma rbReplaceNode_spec (h : Holds m t) (hbalanced : Balanced t .black n)
    (ht : t.inorder = xs ++ a :: ys) (hb : b ∉ t.inorder) :
    Leaves (some (rbReplaceNode a b m)) (xs ++ b :: ys) := by
  obtain ⟨ctx, c, l, r, rfl, rfl, rfl⟩ := exists_plug_of_split h.nodup ht
  refine ⟨_, _, rfl, rbReplaceNode_holds h hb, by simp [inorder_plug, ColorTree.inorder], ?_⟩
  obtain ⟨c', k, hhole, hsub⟩ := Hole.of_plug hbalanced
  cases hsub with
  | red hl hr => exact hhole.fill (.red hl hr)
  | black hl hr => exact hhole.fill (.black hl hr)

lemma traverse_spec (h : Holds m t) : traverse m = some t.inorder := by
  have hloop : ∀ xs ys, t.inorder = xs ++ ys →
      loop (visit m) (ys.head?, xs) = some t.inorder := by
    intro xs ys hxs
    induction ys generalizing xs with
    | nil => rw [loop_eq, hxs, append_nil]; rfl
    | cons y ys ih =>
      rw [loop_eq]
      simp only [head?_cons, visit, rbNext_spec h hxs]
      exact ih (xs ++ [y]) (by simp [hxs])
  rw [traverse, show rbFirst m = _ from farthest_root h]
  exact hloop [] _ rfl

/-- For every tree, also an unbalanced one: the loop with `rb_next` visits each node once, in
order, `rb_prev` goes back from a node to the one that `rb_next` came from, and `rb_replace_node`
puts the new node at the place of the old one. -/
theorem rb_traversal (h : Holds m t) :
    (traverse m = some t.inorder ∧ t.inorder.Nodup) ∧
      (∀ a ∈ t.inorder, ∀ b ∈ t.inorder,
        rbNext a m = some (some b) ↔ rbPrev b m = some (some a)) ∧
      ∀ xs a ys b, t.inorder = xs ++ a :: ys → b ∉ t.inorder →
        traverse (rbReplaceNode a b m) = some (xs ++ b :: ys) := by
  refine ⟨⟨traverse_spec h, h.nodup⟩, fun a ha b hb => ⟨fun hnext => ?_, fun hprev => ?_⟩, ?_⟩
  · obtain ⟨xs, ys, hxs⟩ := append_of_mem ha
    rw [rbNext_spec h hxs, some.injEq] at hnext
    obtain ⟨ys, rfl⟩ := head?_eq_some_iff.1 hnext
    have hsplit : t.inorder = (xs ++ [a]) ++ b :: ys := by simp [hxs]
    rw [rbPrev_spec h hsplit, getLast?_concat]
  · obtain ⟨xs, ys, hxs⟩ := append_of_mem hb
    rw [rbPrev_spec h hxs, some.injEq] at hprev
    obtain ⟨xs, rfl⟩ := getLast?_eq_some_iff.1 hprev
    have hsplit : t.inorder = xs ++ a :: b :: ys := by simp [hxs]
    rw [rbNext_spec h hsplit, head?_cons]
  · intro xs a ys b hxs hb
    obtain ⟨ctx, c, l, r, rfl, rfl, rfl⟩ := exists_plug_of_split h.nodup hxs
    rw [traverse_spec (rbReplaceNode_holds h hb)]
    simp [inorder_plug, ColorTree.inorder]

/-- A root with two children. -/
def threeNodes : Mem ℕ :=
  ⟨fun a => if a = 1 then ⟨none, .black, some 2, some 0⟩ else ⟨some 1, .red, none, none⟩, some 1⟩

/-- The root has a node before and one behind it, and another node takes its place. -/
theorem rb_traversal_three :
    traverse threeNodes = some [0, 1, 2] ∧ rbNext 1 threeNodes = some (some 2) ∧
      rbPrev 2 threeNodes = some (some 1) ∧
      traverse (rbReplaceNode 1 3 threeNodes) = some [0, 3, 2] := by
  have h : Holds threeNodes (.node .black (.node .red .nil 0 .nil) 1 (.node .red .nil 2 .nil)) :=
    ⟨⟨rfl, ⟨rfl, trivial, trivial⟩, rfl, trivial, trivial⟩, rfl, by decide⟩
  have hnext : rbNext 1 threeNodes = some (some 2) := rbNext_spec h (show _ = [0] ++ 1 :: [2] from rfl)
  obtain ⟨⟨htraverse, -⟩, hprev, hreplace⟩ := rb_traversal h
  exact ⟨htraverse, hnext, (hprev 1 (by decide) 2 (by decide)).1 hnext,
    hreplace [0] 1 [2] 3 rfl (by decide)⟩

end BooxKernel.Rbtree
