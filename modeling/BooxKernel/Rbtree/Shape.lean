import BooxKernel.Rbtree.Model

/-!
# The tree that a memory holds

`Holds m t` says that the pointers from the root draw the tree `t`, with every parent pointer
in place and no node twice. Each primitive of the code gets one lemma here: it turns a memory
that holds one tree into a memory that holds another, at any place of a larger tree.
-/
namespace BooxKernel.Rbtree

open ColoredTrees ColorTree

variable {A : Type*}

namespace Node

/-- A node by its child on the side `d` and the one on the other side. -/
def sided (d : Side) (parent : Option A) (c : Color) (near far : Option A) : Node A :=
  match d with
  | .left => ⟨parent, c, far, near⟩
  | .right => ⟨parent, c, near, far⟩

variable (d : Side) (parent q : Option A) (c : Color) (near far : Option A)

@[simp] lemma sided_parent : (sided d parent c near far).parent = parent := by cases d <;> rfl

@[simp] lemma sided_color : (sided d parent c near far).color = c := by cases d <;> rfl

@[simp] lemma sided_child : (sided d parent c near far).child d = near := by cases d <;> rfl

@[simp] lemma sided_child_opp : (sided d parent c near far).child d.opp = far := by
  cases d <;> rfl

@[simp] lemma sided_setChild :
    (sided d parent c near far).setChild d q = sided d parent c q far := by
  cases d <;> rfl

@[simp] lemma sided_setChild_opp :
    (sided d parent c near far).setChild d.opp q = sided d parent c near q := by
  cases d <;> rfl

@[simp] lemma sided_setParent : (sided d parent c near far).setParent q = sided d q c near far := by
  cases d <;> rfl

@[simp] lemma sided_setColor (c' : Color) :
    (sided d parent c near far).setColor c' = sided d parent c' near far := by
  cases d <;> rfl

def replaceChild [DecidableEq A] (d : Side) (n : Node A) (old : A) (new : Option A) : Node A :=
  if n.child d = some old then n.setChild d new else n.setChild d.opp new

lemma replaceChild_sided [DecidableEq A] (d e : Side) (parent : Option A) (c : Color) {old : A}
    {far : Option A} (new : Option A) (hfar : far ≠ some old) :
    (sided e parent c (some old) far).replaceChild d old new = sided e parent c new far := by
  rcases Side.eq_or_eq_opp d e with rfl | rfl
  · simp [replaceChild]
  · have hchild : (sided d.opp parent c (some old) far).child d = far := by cases d <;> rfl
    simp [replaceChild, hchild, hfar]

end Node

/-- The nodes of `t` are linked as in `t`, below `parent`. -/
def Rep (m : Mem A) : Option A → ColorTree A → Prop
  | _, .nil => True
  | parent, .node c l a r =>
    m.node a = ⟨parent, c, r.root?, l.root?⟩ ∧ Rep m (some a) l ∧ Rep m (some a) r

/-- The nodes of the context are linked as in it, with `hole` at the hole. -/
def RepCtx (m : Mem A) : List (Frame A) → Option A → Prop
  | [], hole => m.root = hole
  | f :: ctx, hole =>
    m.node f.elem = .sided f.side (above ctx) f.color hole f.sibling.root? ∧
      Rep m (some f.elem) f.sibling ∧ RepCtx m ctx (some f.elem)

/-- The memory holds the tree `t`. -/
structure Holds (m : Mem A) (t : ColorTree A) : Prop where
  rep : Rep m none t
  root : m.root = t.root?
  nodup : t.inorder.Nodup

variable {m m' : Mem A} {a b : A} {d : Side} {p q : Option A} {c c' c1 c2 : Color}
  {s t u : ColorTree A} {ctx : List (Frame A)}

@[simp] lemma rep_nil : Rep m p .nil := trivial

@[simp] lemma rep_bin :
    Rep m p (.bin d c a s t) ↔
      m.node a = .sided d p c s.root? t.root? ∧ Rep m (some a) s ∧ Rep m (some a) t := by
  cases d with
  | left => exact Iff.rfl
  | right => exact and_congr_right fun _ => and_comm

lemma Rep.congr (h : Rep m p t) (hnode : ∀ b ∈ t.inorder, m'.node b = m.node b) : Rep m' p t := by
  induction t generalizing p with
  | nil => trivial
  | node c l a r ihl ihr =>
    simp only [inorder, List.mem_append, List.mem_cons] at hnode
    refine ⟨(hnode a (by simp)).trans h.1, ihl h.2.1 fun b hb => ?_, ihr h.2.2 fun b hb => ?_⟩
    · exact hnode b (.inl hb)
    · exact hnode b (.inr (.inr hb))

lemma Rep.reparent (h : Rep m p t) (hnodup : t.inorder.Nodup)
    (hroot : ∀ b, t.root? = some b → m'.node b = (m.node b).setParent q)
    (hnode : ∀ b ∈ t.inorder, t.root? ≠ some b → m'.node b = m.node b) : Rep m' q t := by
  rcases eq_nil_or_bin .left t with rfl | ⟨c, a, s, u, rfl⟩
  · trivial
  · obtain ⟨ha, hs, hu⟩ := rep_bin.1 h
    obtain ⟨⟨has, hau⟩, -⟩ := nodup_inorder_bin.1 hnodup
    simp only [root?_bin, ne_eq, Option.some.injEq] at hroot hnode
    refine rep_bin.2 ⟨?_, hs.congr fun b hb => ?_, hu.congr fun b hb => ?_⟩
    · rw [hroot a rfl, ha, Node.sided_setParent]
    · exact hnode b (by simp [hb]) (by rintro rfl; exact has hb)
    · exact hnode b (by simp [hb]) (by rintro rfl; exact hau hb)

lemma RepCtx.congr (h : RepCtx m ctx p) (hnode : ∀ b ∈ elems ctx, m'.node b = m.node b)
    (hroot : m'.root = m.root) : RepCtx m' ctx p := by
  induction ctx generalizing p with
  | nil => exact hroot.trans h
  | cons f ctx ih =>
    simp only [mem_elems_cons] at hnode
    refine ⟨(hnode _ (.inl rfl)).trans h.1, h.2.1.congr fun b hb => ?_, ih h.2.2 fun b hb => ?_⟩
    · exact hnode b (.inr (.inl hb))
    · exact hnode b (.inr (.inr hb))

lemma repCtx_and_rep :
    RepCtx m ctx t.root? ∧ Rep m (above ctx) t ↔
      Rep m none (plug ctx t) ∧ m.root = (plug ctx t).root? := by
  induction ctx generalizing t with
  | nil => exact and_comm
  | cons f ctx ih =>
    rw [plug_cons, ← ih, Frame.fill, rep_bin, root?_bin, RepCtx]
    tauto

/-- The pointer at the hole of a context. -/
def linkOf (ctx : List (Frame A)) : Link A :=
  match ctx with
  | [] => .root
  | f :: _ => .child f.elem f.side

lemma holds_plug :
    Holds m (plug ctx t) ↔
      (RepCtx m ctx t.root? ∧ Rep m (above ctx) t) ∧
        t.inorder.Nodup ∧ (elems ctx).Nodup ∧ ∀ b ∈ t.inorder, b ∉ elems ctx := by
  rw [repCtx_and_rep, ← nodup_inorder_plug]
  exact ⟨fun h => ⟨⟨h.rep, h.root⟩, h.nodup⟩, fun h => ⟨h.1.1, h.1.2, h.2⟩⟩

namespace Holds

section
variable (ctx : List (Frame A))

lemma node_eq (h : Holds m (plug ctx (.bin d c a s t))) :
    m.node a = .sided d (above ctx) c s.root? t.root? :=
  (rep_bin.1 (holds_plug.1 h).1.2).1

lemma parent_eq (h : Holds m (plug ctx t)) (ha : t.root? = some a) :
    (m.node a).parent = above ctx := by
  rcases eq_nil_or_bin .left t with rfl | ⟨c, b, s, u, rfl⟩
  · simp at ha
  · obtain rfl : b = a := by simpa using ha
    simp [h.node_eq ctx]

lemma isBlack (h : Holds m (plug ctx t)) : m.isBlack t.root? = decide (t.color = .black) := by
  rcases eq_nil_or_bin .left t with rfl | ⟨c, a, s, u, rfl⟩
  · rfl
  · simp [Mem.isBlack, h.node_eq ctx]

lemma children_black (h : Holds m (plug ctx (.bin d c a s t))) :
    (m.isBlack (m.node a).left && m.isBlack (m.node a).right) =
      (decide (s.color = .black) && decide (t.color = .black)) := by
  have hs : m.isBlack s.root? = decide (s.color = .black) := h.isBlack (⟨d, c, a, t⟩ :: ctx)
  have ht : m.isBlack t.root? = decide (t.color = .black) := by
    rw [plug_sibling] at h
    exact h.isBlack _
  cases d with
  | left => simp [h.node_eq ctx, Node.sided, hs, ht]
  | right => simp [h.node_eq ctx, Node.sided, hs, ht, Bool.and_comm]

end

lemma congr (h : Holds m t) (hnode : ∀ b ∈ t.inorder, m'.node b = m.node b)
    (hroot : m'.root = m.root) : Holds m' t :=
  ⟨h.rep.congr hnode, hroot.trans h.root, h.nodup⟩

end Holds

/-! ## Writes -/

variable [DecidableEq A]

namespace Mem

section
variable (f : Node A → Node A) (p : Option A) (c : Color) (old : A) (new : Option A)

@[simp] lemma node_update : (m.update a f).node b = if b = a then f (m.node b) else m.node b := by
  by_cases h : b = a
  · subst h
    simp [update]
  · simp [update, h]

@[simp] lemma root_update : (m.update a f).root = m.root := rfl

@[simp] lemma node_setParent :
    (m.setParent a p).node b = if b = a then (m.node b).setParent p else m.node b :=
  node_update _

@[simp] lemma root_setParent : (m.setParent a p).root = m.root := rfl

@[simp] lemma node_setColor :
    (m.setColor a c).node b = if b = a then (m.node b).setColor c else m.node b :=
  node_update _

@[simp] lemma node_setChild :
    (m.setChild a d p).node b = if b = a then (m.node b).setChild d p else m.node b :=
  node_update _

@[simp] lemma root_setChild : (m.setChild a d p).root = m.root := rfl

@[simp] lemma node_setParentOf (p q : Option A) :
    (m.setParentOf p q).node b = if p = some b then (m.node b).setParent q else m.node b := by
  cases p <;> simp [setParentOf, eq_comm]

@[simp] lemma root_setParentOf (p q : Option A) : (m.setParentOf p q).root = m.root := by
  cases p <;> rfl

@[simp] lemma node_replaceChild : (m.replaceChild d p old new).node b =
      if p = some b then (m.node b).replaceChild d old new else m.node b := by
  cases p with
  | none => simp [replaceChild]
  | some p =>
    by_cases h : b = p
    · subst h
      simp only [replaceChild, Node.replaceChild]
      split_ifs <;> simp_all
    · simp only [replaceChild]
      split_ifs <;> simp_all [eq_comm]

@[simp] lemma root_replaceChild :
    (m.replaceChild d p old new).root = if p = none then new else m.root := by
  cases p with
  | none => rfl
  | some p =>
    simp only [replaceChild]
    split_ifs <;> simp_all

end

end Mem

lemma RepCtx.retarget {old : A} (h : RepCtx m ctx (some old)) (hnodup : (elems ctx).Nodup)
    (hold : old ∉ elems ctx) (hroot : m'.root = if above ctx = none then q else m.root)
    (habove : ∀ b, above ctx = some b → m'.node b = (m.node b).replaceChild d old q)
    (hnode : ∀ b ∈ elems ctx, above ctx ≠ some b → m'.node b = m.node b) : RepCtx m' ctx q := by
  cases ctx with
  | nil => exact hroot
  | cons f ctx =>
    obtain ⟨⟨hsib, -⟩, -, hctx, -⟩ := nodup_elems_cons.1 hnodup
    simp only [mem_elems_cons, above_cons, ne_eq, Option.some.injEq] at hnode hold
    refine ⟨?_, h.2.1.congr fun b hb => ?_, h.2.2.congr (fun b hb => ?_) (by simpa using hroot)⟩
    · rw [habove _ rfl, h.1]
      refine Node.replaceChild_sided _ _ _ _ _ fun heq => hold ?_
      exact .inr (.inl (mem_of_root? heq))
    · exact hnode b (.inr (.inl hb)) (by rintro rfl; exact hsib hb)
    · exact hnode b (.inr (.inr hb)) (by rintro rfl; exact hctx hb)

namespace Holds

lemma setColor (ctx : List (Frame A)) (h : Holds m (plug ctx (.bin d c a s t))) (c' : Color) :
    Holds (m.setColor a c') (plug ctx (.bin d c' a s t)) := by
  obtain ⟨⟨hctx, hrep⟩, hnodup, hctxNodup, hdisjoint⟩ := holds_plug.1 h
  obtain ⟨ha, hs, ht⟩ := rep_bin.1 hrep
  obtain ⟨⟨has, hat⟩, -⟩ := nodup_inorder_bin.1 hnodup
  rw [inorder_recolor d c c'] at hnodup hdisjoint
  rw [root?_bin] at hctx
  refine holds_plug.2 ⟨⟨?_, rep_bin.2 ⟨?_, ?_, ?_⟩⟩, hnodup, hctxNodup, hdisjoint⟩
  · rw [root?_bin]
    refine hctx.congr (fun b hb => ?_) rfl
    have hne : b ≠ a := by rintro rfl; exact hdisjoint b (by simp) hb
    simp [hne]
  · simp [ha]
  · refine hs.congr fun b hb => ?_
    have hne : b ≠ a := by rintro rfl; exact has hb
    simp [hne]
  · refine ht.congr fun b hb => ?_
    have hne : b ≠ a := by rintro rfl; exact hat hb
    simp [hne]

lemma rotate (ctx : List (Frame A)) (h : Holds m (plug ctx (.bin d c1 a s (.bin d c2 b t u)))) :
    ∃ m', rbRotate d a m = some m' ∧ Holds m' (plug ctx (.bin d c2 b (.bin d c1 a s t) u)) := by
  obtain ⟨⟨hctx, hrep⟩, hnodup, hctxNodup, hdisjoint⟩ := holds_plug.1 h
  obtain ⟨ha, hs, hrep⟩ := rep_bin.1 hrep
  obtain ⟨hb, ht, hu⟩ := rep_bin.1 hrep
  obtain ⟨⟨has, hat⟩, -, htu, hdst⟩ := nodup_inorder_bin.1 hnodup
  obtain ⟨⟨hbt, hbu⟩, htNodup, -, hdtu⟩ := nodup_inorder_bin.1 htu
  rw [← inorder_rotate d c1 c2] at hnodup hdisjoint
  have hin := hdisjoint
  simp only [mem_inorder_bin] at hat hdst hin
  simp only [root?_bin] at hctx
  have hab : a ≠ b := by grind
  obtain ⟨m', hrun, hroot, hma, hmb, hother⟩ : ∃ m', rbRotate d a m = some m' ∧
      m'.root = (if above ctx = none then some b else m.root) ∧
      m'.node a = .sided d (some b) c1 s.root? t.root? ∧
      m'.node b = .sided d (above ctx) c2 (some a) u.root? ∧
      ∀ x, x ≠ a → x ≠ b → m'.node x =
        if above ctx = some x then (m.node x).replaceChild d a (some b)
        else if t.root? = some x then (m.node x).setParent (some a) else m.node x := by
    refine ⟨_, by simp [rbRotate, ha, hb]; rfl, by simp, ?_, ?_, fun x hxa hxb => ?_⟩
    · have h1 : above ctx ≠ some a := by grind
      have h2 : t.root? ≠ some a := by grind
      simp [hab, h1, h2, ha]
    · have h1 : above ctx ≠ some b := by grind
      have h2 : t.root? ≠ some b := by grind
      simp [hab.symm, h1, h2, hb]
    · by_cases hx : above ctx = some x
      · have h2 : t.root? ≠ some x := by grind
        simp [hxa, hxb, hx, h2]
      · simp [hxa, hxb, hx]
  refine ⟨m', hrun, holds_plug.2 ⟨⟨?_, rep_bin.2 ⟨?_, rep_bin.2 ⟨hma, ?_, ?_⟩, ?_⟩⟩,
    hnodup, hctxNodup, hdisjoint⟩⟩
  · rw [root?_bin]
    refine hctx.retarget (d := d) hctxNodup (hin a (by simp)) hroot (fun x hx => ?_)
      fun x hx hxa => ?_
    · rw [hother x (by grind) (by grind), if_pos hx]
    · rw [hother x (by grind) (by grind), if_neg hxa, if_neg (by grind)]
  · rw [hmb, root?_bin]
  · exact hs.congr fun x hx => by
      rw [hother x (by grind) (by grind), if_neg (by grind), if_neg (by grind)]
  · refine ht.reparent htNodup (fun x hx => ?_) fun x hx hxt => ?_
    · rw [hother x (by grind) (by grind), if_neg (by grind), if_pos hx]
    · rw [hother x (by grind) (by grind), if_neg (by grind), if_neg hxt]
  · exact hu.congr fun x hx => by
      rw [hother x (by grind) (by grind), if_neg (by grind), if_neg (by grind)]

lemma unlink (e : Side) (h : Holds m (plug ctx (.bin d c a .nil t)))
    (hroot : m'.root = if above ctx = none then t.root? else m.root)
    (habove : ∀ x, above ctx = some x → m'.node x = (m.node x).replaceChild e a t.root?)
    (hchild : ∀ x, t.root? = some x → m'.node x = (m.node x).setParent (above ctx))
    (hother : ∀ x, x ≠ a → above ctx ≠ some x → t.root? ≠ some x → m'.node x = m.node x) :
    Holds m' (plug ctx t) := by
  obtain ⟨⟨hctx, hrep⟩, hnodup, hctxNodup, hdisjoint⟩ := holds_plug.1 h
  obtain ⟨-, -, ht⟩ := rep_bin.1 hrep
  obtain ⟨⟨-, hat⟩, -, htNodup, -⟩ := nodup_inorder_bin.1 hnodup
  simp only [mem_inorder_bin] at hdisjoint
  rw [root?_bin] at hctx
  refine holds_plug.2 ⟨⟨?_, ?_⟩, htNodup, hctxNodup, by grind⟩
  · refine hctx.retarget hctxNodup (hdisjoint a (by simp)) hroot habove fun x hx hxa => ?_
    exact hother x (by grind) hxa (by grind)
  · refine ht.reparent htNodup hchild fun x hx hxt => ?_
    exact hother x (by grind) (by grind) hxt

lemma replace (e : Side) (h : Holds m (plug ctx (.bin d c a s t)))
    (hb : b ∉ (plug ctx (.bin d c a s t)).inorder)
    (hroot : m'.root = if above ctx = none then some b else m.root)
    (habove : ∀ x, above ctx = some x → m'.node x = (m.node x).replaceChild e a (some b))
    (hnew : m'.node b = m.node a)
    (hchild : ∀ x, s.root? = some x ∨ t.root? = some x → m'.node x = (m.node x).setParent (some b))
    (hother : ∀ x, x ≠ a → x ≠ b → above ctx ≠ some x → s.root? ≠ some x → t.root? ≠ some x →
      m'.node x = m.node x) : Holds m' (plug ctx (.bin d c b s t)) := by
  obtain ⟨⟨hctx, hrep⟩, hnodup, hctxNodup, hdisjoint⟩ := holds_plug.1 h
  obtain ⟨ha, hs, ht⟩ := rep_bin.1 hrep
  obtain ⟨⟨has, hat⟩, hsNodup, htNodup, hst⟩ := nodup_inorder_bin.1 hnodup
  simp only [mem_inorder_plug, mem_inorder_bin] at hdisjoint hb
  rw [root?_bin] at hctx
  refine holds_plug.2 ⟨⟨?_, rep_bin.2 ⟨hnew.trans ha, ?_, ?_⟩⟩, ?_, hctxNodup, ?_⟩
  · rw [root?_bin]
    refine hctx.retarget hctxNodup (hdisjoint a (by simp)) hroot habove fun x hx hxa => ?_
    exact hother x (by grind) (by grind) hxa (by grind) (by grind)
  · refine hs.reparent hsNodup (fun x hx => hchild x (.inl hx)) fun x hx hxs => ?_
    exact hother x (by grind) (by grind) (by grind) hxs (by grind)
  · refine ht.reparent htNodup (fun x hx => hchild x (.inr hx)) fun x hx hxt => ?_
    exact hother x (by grind) (by grind) (by grind) (by grind) hxt
  · exact nodup_inorder_bin.2 ⟨by grind, hsNodup, htNodup, hst⟩
  · simp only [mem_inorder_bin]
    grind

lemma link (h : Holds m (plug ctx .nil)) (ha : a ∉ elems ctx) :
    Holds (rbLinkNode a (above ctx) (linkOf ctx) m) (plug ctx (.bin .left .red a .nil .nil)) := by
  obtain ⟨⟨hctx, -⟩, -, hctxNodup, -⟩ := holds_plug.1 h
  refine holds_plug.2 ⟨⟨?_, rep_bin.2 ⟨?_, trivial, trivial⟩⟩, ?_, hctxNodup, ?_⟩
  · cases ctx with
    | nil => rfl
    | cons f ctx =>
      obtain ⟨⟨hsib, -⟩, -, hfctx, -⟩ := nodup_elems_cons.1 hctxNodup
      obtain ⟨hf, hsibling, hrest⟩ := hctx
      simp only [mem_elems_cons, not_or] at ha
      refine ⟨?_, hsibling.congr fun x hx => ?_, hrest.congr (fun x hx => ?_) rfl⟩
      · simp [rbLinkNode, linkOf, Ne.symm ha.1, hf]
      · have h1 : x ≠ a := by rintro rfl; exact ha.2.1 hx
        have h2 : x ≠ f.elem := by rintro rfl; exact hsib hx
        simp [rbLinkNode, linkOf, h1, h2]
      · have h1 : x ≠ a := by rintro rfl; exact ha.2.2 hx
        have h2 : x ≠ f.elem := by rintro rfl; exact hfctx hx
        simp [rbLinkNode, linkOf, h1, h2]
  · cases ctx with
    | nil => simp [rbLinkNode, linkOf, Mem.update, Node.sided]
    | cons f ctx =>
      have hne : a ≠ f.elem := by rintro rfl; exact ha (mem_elems_cons.2 (.inl rfl))
      simp [rbLinkNode, linkOf, hne, Node.sided]
  · simp [bin, inorder]
  · simp [inorder, ha]

end Holds

end BooxKernel.Rbtree
