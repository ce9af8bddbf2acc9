import BooxKernel.InetPeer.Model

/-!
# The tree that the pool draws

`Rep m t` says that the nodes of `t` are linked as in `t`, each with its height. `RepCtx` is the
same around a hole, but for the heights on the way from the hole to the root: those are what
`peer_avl_rebalance` is about to set.
-/
namespace BooxKernel.InetPeer

open ColoredTrees (Side)
open BalancedTrees
open BinaryTree (nil node)

variable {A : Type*}

namespace Node

variable (n : Node A) (d : Side) (p : Option A) (h : ℕ)

@[simp] lemma child_setChild : (n.setChild d p).child d = p := by cases d <;> rfl

@[simp] lemma child_setChild_opp : (n.setChild d p).child d.opp = n.child d.opp := by
  cases d <;> rfl

@[simp] lemma child_opp_setChild : (n.setChild d.opp p).child d = n.child d := by
  cases d <;> rfl

@[simp] lemma child_setHeight : (n.setHeight h).child d = n.child d := by cases d <;> rfl

@[simp] lemma avlHeight_setChild : (n.setChild d p).avlHeight = n.avlHeight := by
  cases d <;> rfl

@[simp] lemma avlHeight_setHeight : (n.setHeight h).avlHeight = h % 2 ^ 16 := rfl

@[simp] lemma v4daddr_setChild : (n.setChild d p).v4daddr = n.v4daddr := by cases d <;> rfl

@[simp] lemma v4daddr_setHeight : (n.setHeight h).v4daddr = n.v4daddr := rfl

@[simp] lemma refcnt_setChild : (n.setChild d p).refcnt = n.refcnt := by cases d <;> rfl

@[simp] lemma refcnt_setHeight : (n.setHeight h).refcnt = n.refcnt := rfl

end Node

/-- The nodes of `t` are linked as in `t` and know their heights. -/
def Rep (m : Mem A) : BinaryTree A → Prop
  | nil => True
  | node a l r =>
    (m.node a).avlLeft = root? l ∧ (m.node a).avlRight = root? r ∧
      m.height a = (node a l r).height ∧ Rep m l ∧ Rep m r

/-- The nodes of the frames are linked as in them: `hole` is at the hole, `top` at the top. -/
def RepPath (m : Mem A) : List (Frame A) → (hole top : Option A) → Prop
  | [], hole, top => top = hole
  | f :: ctx, hole, top =>
    (m.node f.elem).child f.side = hole ∧ (m.node f.elem).child f.side.opp = root? f.sibling ∧
      Rep m f.sibling ∧ RepPath m ctx (some f.elem) top

/-- The nodes of a context are linked as in it, up to the root. -/
def RepCtx (m : Mem A) (ctx : List (Frame A)) (hole : Option A) : Prop := RepPath m ctx hole m.root

/-- The pointer at the hole of a context. -/
def slotOf : List (Frame A) → Slot A
  | [] => .root
  | f :: _ => .child f.side (some f.elem)

/-- The pointers on the way from the root to the one at the hole, without that one. -/
def slotsAbove : List (Frame A) → List (Slot A)
  | [] => []
  | _ :: ctx => slotsAbove ctx ++ [slotOf ctx]

variable {m m' : Mem A} {a b : A} {d : Side} {p q : Option A} {s t u : BinaryTree A}
  {ctx : List (Frame A)} {v : Slot A}

@[simp] lemma rep_bin :
    Rep m (bin d a s t) ↔
      (m.node a).child d = root? s ∧ (m.node a).child d.opp = root? t ∧
        m.height a = (bin d a s t).height ∧ Rep m s ∧ Rep m t := by
  cases d with
  | left => exact Iff.rfl
  | right =>
    simp only [bin, Rep, Node.child, Side.opp]
    tauto

lemma Rep.congr (h : Rep m t) (hnode : ∀ b ∈ inorder t, m'.node b = m.node b) : Rep m' t := by
  induction t with
  | nil => trivial
  | node a l r ihl ihr =>
    simp only [inorder, List.mem_append, List.mem_cons] at hnode
    obtain ⟨hleft, hright, hheight, hl, hr⟩ := h
    have ha := hnode a (.inr (.inl rfl))
    refine ⟨by rw [ha, hleft], by rw [ha, hright], ?_, ihl hl fun b hb => ?_, ihr hr fun b hb => ?_⟩
    · rw [← hheight, Mem.height, Mem.height, ha]
    · exact hnode b (.inl hb)
    · exact hnode b (.inr (.inr hb))

lemma Rep.height_root (h : Rep m t) (hfake : m.node none = peerFakeNode) :
    m.height (root? t) = t.height := by
  cases t with
  | nil => rw [root?_nil, Mem.height, hfake]; rfl
  | node a l r => exact h.2.2.1

lemma RepPath.congr (h : RepPath m ctx p q) (hnode : ∀ b ∈ elems ctx, m'.node b = m.node b) :
    RepPath m' ctx p q := by
  induction ctx generalizing p with
  | nil => exact h
  | cons f ctx ih =>
    simp only [mem_elems_cons] at hnode
    obtain ⟨hhole, hsibling, hrep, hctx⟩ := h
    have hf := hnode f.elem (.inl rfl)
    refine ⟨by rw [hf, hhole], by rw [hf, hsibling], hrep.congr fun b hb => ?_,
      ih hctx fun b hb => ?_⟩
    · exact hnode b (.inr (.inl hb))
    · exact hnode b (.inr (.inr hb))

lemma repPath_append {inner outer : List (Frame A)} :
    RepPath m (inner ++ outer) p q ↔ ∃ r, RepPath m inner p r ∧ RepPath m outer r q := by
  induction inner generalizing p with
  | nil => simp [RepPath]
  | cons f inner ih =>
    simp only [List.cons_append, RepPath, ih]
    tauto

lemma RepCtx.congr (h : RepCtx m ctx p) (hnode : ∀ b ∈ elems ctx, m'.node b = m.node b)
    (hroot : m'.root = m.root) : RepCtx m' ctx p := by
  unfold RepCtx at h ⊢
  rw [hroot]
  exact RepPath.congr h hnode

lemma RepCtx.deref (h : RepCtx m ctx p) : m.deref (slotOf ctx) = p := by
  cases ctx with
  | nil => exact h
  | cons f ctx => exact h.1

lemma repCtx_and_rep (hrep : Rep m (plug ctx t)) (hroot : m.root = root? (plug ctx t)) :
    RepCtx m ctx (root? t) ∧ Rep m t := by
  induction ctx generalizing t with
  | nil => exact ⟨hroot, hrep⟩
  | cons f ctx ih =>
    obtain ⟨hctx, hfill⟩ := ih hrep hroot
    rw [Frame.fill, root?_bin] at hctx
    obtain ⟨hhole, hsibling, -, ht, hs⟩ := rep_bin.1 hfill
    exact ⟨⟨hhole, hsibling, hs, hctx⟩, ht⟩

variable [DecidableEq A]

namespace Mem

@[simp] lemma node_update (f : Node A → Node A) :
    (m.update p f).node q = if q = p then f (m.node q) else m.node q := by
  by_cases h : q = p
  · subst h
    simp [update]
  · simp [update, h]

@[simp] lemma node_setChild {r : Option A} :
    (m.setChild p d q).node r = if r = p then (m.node r).setChild d q else m.node r :=
  node_update _

@[simp] lemma root_setChild : (m.setChild p d q).root = m.root := rfl

@[simp] lemma node_setHeight {h : ℕ} :
    (m.setHeight p h).node q = if q = p then (m.node q).setHeight h else m.node q :=
  node_update _

@[simp] lemma root_setHeight {h : ℕ} : (m.setHeight p h).root = m.root := rfl

@[simp] lemma assign_deref : m.assign v (m.deref v) = m := by
  cases v with
  | root => rfl
  | child d p =>
    have hself : (m.node p).setChild d ((m.node p).child d) = m.node p := by cases d <;> rfl
    simp only [assign, deref, setChild, update, hself, Function.update_eq_self]

lemma node_assign_of_ne (h : ∀ d, v ≠ .child d p) : (m.assign v q).node p = m.node p := by
  cases v with
  | root => rfl
  | child d r =>
    have hne : p ≠ r := fun heq => h d (heq ▸ rfl)
    simp [assign, hne]

end Mem

/-- A write of links and heights only. -/
structure Relinked (m m' : Mem A) : Prop where
  v4daddr : ∀ p, (m'.node p).v4daddr = (m.node p).v4daddr
  refcnt : ∀ p, (m'.node p).refcnt = (m.node p).refcnt
  total : m'.total = m.total

omit [DecidableEq A] in
lemma Relinked.trans {m'' : Mem A} (h : Relinked m m') (h' : Relinked m' m'') : Relinked m m'' :=
  ⟨fun p => (h'.v4daddr p).trans (h.v4daddr p), fun p => (h'.refcnt p).trans (h.refcnt p),
    h'.total.trans h.total⟩

omit [DecidableEq A] in
@[simp] lemma relinked_refl (m : Mem A) : Relinked m m := ⟨fun _ => rfl, fun _ => rfl, rfl⟩

lemma relinked_update {f : Node A → Node A}
    (hf : ∀ n, (f n).v4daddr = n.v4daddr ∧ (f n).refcnt = n.refcnt) :
    Relinked m (m'.update p f) ↔ Relinked m m' := by
  have h : ∀ r, ((m'.update p f).node r).v4daddr = (m'.node r).v4daddr ∧
      ((m'.update p f).node r).refcnt = (m'.node r).refcnt := by
    intro r
    rw [Mem.node_update]
    split_ifs <;> simp [hf]
  exact ⟨fun ⟨h1, h2, h3⟩ => ⟨fun r => (h r).1 ▸ h1 r, fun r => (h r).2 ▸ h2 r, h3⟩,
    fun ⟨h1, h2, h3⟩ => ⟨fun r => (h r).1 ▸ h1 r, fun r => (h r).2 ▸ h2 r, h3⟩⟩

@[simp] lemma relinked_setChild : Relinked m (m'.setChild p d q) ↔ Relinked m m' :=
  relinked_update fun n => by simp

@[simp] lemma relinked_setHeight {h : ℕ} : Relinked m (m'.setHeight p h) ↔ Relinked m m' :=
  relinked_update fun n => by simp

@[simp] lemma relinked_assign : Relinked m (m'.assign v q) ↔ Relinked m m' := by
  cases v with
  | root => exact ⟨fun ⟨h1, h2, h3⟩ => ⟨h1, h2, h3⟩, fun ⟨h1, h2, h3⟩ => ⟨h1, h2, h3⟩⟩
  | child d p => exact relinked_setChild

/-- The subtree at the slot `v` is now `t`: nothing else has changed. -/
structure Replaced (v : Slot A) (t : BinaryTree A) (m m' : Mem A) : Prop where
  rep : Rep m' t
  root : m'.root = (m.assign v (root? t)).root
  outside : ∀ p, (∀ b ∈ inorder t, p ≠ some b) → m'.node p = (m.assign v (root? t)).node p
  relinked : Relinked m m'

/-- The slot is not a field of one of the nodes, nor of the fake node. -/
def Away (v : Slot A) (xs : List A) : Prop := ∀ d p, v = .child d p → ∃ b ∉ xs, p = some b

lemma Away.node_assign {xs : List A} (h : Away v xs) (ha : a ∈ xs) :
    (m.assign v q).node a = m.node a := by
  refine Mem.node_assign_of_ne fun d hv => ?_
  obtain ⟨b, hb, heq⟩ := h d a hv
  obtain rfl : a = b := Option.some.inj heq
  exact hb ha

omit [DecidableEq A] in
lemma Away.mono {xs ys : List A} (h : Away v xs) (hsub : ∀ b ∈ ys, b ∈ xs) : Away v ys := by
  intro d p hv
  obtain ⟨b, hb, hp⟩ := h d p hv
  exact ⟨b, fun hmem => hb (hsub b hmem), hp⟩

lemma replaced_assign {m1 : Mem A} (xs : List A) (haway : Away v (inorder t)) (hq : q = root? t)
    (hxs : ∀ x ∈ xs, x ∈ inorder t) (hnode : ∀ p, (∀ x ∈ xs, p ≠ some x) → m1.node p = m.node p)
    (hrep : (∀ {u}, Rep m u → (∀ x ∈ xs, x ∉ inorder u) → Rep m1 u) → Rep m1 t)
    (hroot : m1.root = m.root) (hlinks : Relinked m m1) : Replaced v t m (m1.assign v q) := by
  subst hq
  have hrep := hrep fun {u} hu hdisj =>
    hu.congr fun b hb => hnode b fun x hx heq => hdisj x hx (Option.some.inj heq ▸ hb)
  have hnode : ∀ p, (∀ b ∈ inorder t, p ≠ some b) → m1.node p = m.node p :=
    fun p hp => hnode p fun x hx => hp x (hxs x hx)
  refine ⟨hrep.congr fun b hb => haway.node_assign hb, ?_, fun p hp => ?_, relinked_assign.2 hlinks⟩
  · cases v with
    | root => rfl
    | child d p => exact hroot
  · cases v with
    | root => exact hnode p hp
    | child d r => simp only [Mem.assign, Mem.node_setChild, hnode p hp]

/-- The subtrees of the node `a` at the slot `v`, on the side `d` and on the other one. -/
structure Subtrees (m : Mem A) (v : Slot A) (d : Side) (a : A) (near far : BinaryTree A) : Prop where
  fake : m.node none = peerFakeNode
  rep : Rep m near
  rep' : Rep m far
  nodup : (inorder (bin d a near far)).Nodup
  away : Away v (inorder (bin d a near far))
  avl : Avl near
  avl' : Avl far

omit [DecidableEq A] in
lemma Subtrees.opp {near far : BinaryTree A} (h : Subtrees m v d a near far) :
    Subtrees m v d.opp a far near :=
  ⟨h.fake, h.rep', h.rep, by rw [bin_opp]; exact h.nodup, by rw [bin_opp]; exact h.away, h.avl', h.avl⟩

section Rotate
variable {near far outer inner left right : BinaryTree A}

lemma rotate_single (h : Subtrees m v d a (bin d b outer inner) far)
    (hhigh : (bin d b outer inner).height = far.height + 2) (hinner : inner.height ≤ outer.height)
    (hsmall : far.height + 3 < 2 ^ 16) :
    Replaced v (bin d b outer (bin d a inner far)) m
      (rotate d v a (some b) (root? far) far.height m) := by
  obtain ⟨hb, hb', -, houter, hinner'⟩ := rep_bin.1 h.rep
  obtain ⟨-, -, hclose⟩ := avl_bin.1 h.avl
  have hll := houter.height_root h.fake
  have hlr := hinner'.height_root h.fake
  have hnodup := h.nodup
  simp only [nodup_inorder_bin, mem_inorder_bin, not_or] at hnodup
  obtain ⟨⟨⟨hab, haouter, hainner⟩, hafar⟩, ⟨⟨hbouter, hbinner⟩, -, -, -⟩, -, hfaraway⟩ := hnodup
  have hbfar : b ∉ inorder far := hfaraway b (.inl rfl)
  rw [height_bin] at hhigh
  unfold Close at hclose
  rw [rotate, hb, hb', hll, hlr, if_pos hinner]
  refine replaced_assign [a, b] (h.away.mono fun c hc => ?_) (by simp) (by simp)
    (fun p hp => by simp at hp; simp [hp]) (fun hkeep => ?_) (by simp) (by simp)
  · simp only [mem_inorder_bin] at hc ⊢
    tauto
  · refine rep_bin.2 ⟨by simp, by simp, ?_, hkeep houter (by simp [haouter, hbouter]),
      rep_bin.2 ⟨by simp [hab], by simp [hab], ?_, hkeep hinner' (by simp [hainner, hbinner]),
        hkeep h.rep' (by simp [hafar, hbfar])⟩⟩
    all_goals
      simp [Mem.height, hab]
      omega

lemma rotate_double {c : A} (h : Subtrees m v d a (bin d b outer (bin d c left right)) far)
    (hhigh : (bin d b outer (bin d c left right)).height = far.height + 2)
    (hinner : outer.height < (bin d c left right).height) (hsmall : far.height + 3 < 2 ^ 16) :
    Replaced v (bin d c (bin d b outer left) (bin d a right far)) m
      (rotate d v a (some b) (root? far) far.height m) := by
  obtain ⟨hb, hb', -, houter, hinner'⟩ := rep_bin.1 h.rep
  obtain ⟨-, havl, hclose⟩ := avl_bin.1 h.avl
  obtain ⟨-, -, hclose'⟩ := avl_bin.1 havl
  have hlr := hinner'.height_root h.fake
  obtain ⟨hc, hc', -, hleft, hright⟩ := rep_bin.1 hinner'
  have hnodup := h.nodup
  simp only [nodup_inorder_bin, mem_inorder_bin, not_or] at hnodup
  obtain ⟨⟨⟨hab, haouter, hac, haleft, haright⟩, hafar⟩,
    ⟨⟨hbouter, hbc, hbleft, hbright⟩, -, ⟨⟨hcleft, hcright⟩, -, -, -⟩, houteraway⟩, -, hfaraway⟩ :=
      hnodup
  have hcouter : c ∉ inorder outer := fun h => (houteraway c h).1 rfl
  have hbfar : b ∉ inorder far := hfaraway b (.inl rfl)
  have hcfar : c ∉ inorder far := hfaraway c (.inr (.inr (.inl rfl)))
  simp only [height_bin] at hhigh hclose hinner
  unfold Close at hclose hclose'
  rw [root?_bin] at hb'
  rw [rotate, hb, hb', ← root?_bin, hlr, houter.height_root h.fake, root?_bin, hc, hc',
    if_neg (by rw [height_bin]; omega)]
  refine replaced_assign [a, b, c] (h.away.mono fun e he => ?_) (by simp) (by simp)
    (fun p hp => by simp at hp; simp [hp]) (fun hkeep => ?_) (by simp) (by simp)
  · simp only [mem_inorder_bin] at he ⊢
    tauto
  · refine rep_bin.2 ⟨by simp, by simp, ?_,
      rep_bin.2 ⟨by simp [hbc], by simp [hbc], ?_, hkeep houter (by simp [haouter, hbouter, hcouter]),
        hkeep hleft (by simp [haleft, hbleft, hcleft])⟩,
      rep_bin.2 ⟨by simp [hac, hab], by simp [hac, hab], ?_,
        hkeep hright (by simp [haright, hbright, hcright]),
        hkeep h.rep' (by simp [hafar, hbfar, hcfar])⟩⟩
    all_goals
      simp [Mem.height, hbc, hac, hab]
      omega

/-- The rotation of a node whose subtree on the side `d` is 2 higher than the other one. -/
lemma rotate_spec (h : Subtrees m v d a near far) (hhigh : near.height = far.height + 2)
    (hsmall : far.height + 3 < 2 ^ 16) :
    ∃ t, Rebalanced d a near far t ∧
      Replaced v t m (rotate d v a (root? near) (root? far) far.height m) := by
  obtain rfl | ⟨b, outer, inner, rfl⟩ := eq_nil_or_bin d near
  · simp at hhigh
  · rw [root?_bin]
    by_cases hinner : inner.height ≤ outer.height
    · exact ⟨_, rebalanced_single h.avl h.avl' hhigh hinner, rotate_single h hhigh hinner hsmall⟩
    · obtain rfl | ⟨c, left, right, rfl⟩ := eq_nil_or_bin d inner
      · simp at hinner
      · exact ⟨_, rebalanced_double h.avl h.avl' hhigh (not_le.1 hinner),
          rotate_double h hhigh (not_le.1 hinner) hsmall⟩

end Rotate

section Rebalance
variable {l r : BinaryTree A}

lemma rebalanceRound_spec (h : Subtrees m v .left a l r) (hnode : m.deref v = some a)
    (hleft : (m.node a).avlLeft = root? l) (hright : (m.node a).avlRight = root? r)
    (hle : l.height ≤ r.height + 2) (hle' : r.height ≤ l.height + 2)
    (hsmall : max l.height r.height + 2 < 2 ^ 16) :
    ∃ t, Rebalanced .left a l r t ∧ Replaced v t m (rebalanceRound v m) := by
  rw [rebalanceRound, hnode, hleft, hright, h.rep.height_root h.fake, h.rep'.height_root h.fake]
  by_cases hhigh : l.height > r.height + 1
  · simp only [if_pos hhigh]
    exact rotate_spec h (by omega) (by omega)
  · by_cases hhigh' : r.height > l.height + 1
    · simp only [if_neg hhigh, if_pos hhigh']
      obtain ⟨t, ht, hplaced⟩ := rotate_spec h.opp (by omega) (by omega)
      exact ⟨t, Rebalanced.opp ht, hplaced⟩
    · simp only [if_neg hhigh, if_neg hhigh']
      refine ⟨node a l r, rebalanced_self h.avl h.avl' ⟨by omega, by omega⟩, ?_⟩
      have hself : m.assign v (root? (node a l r)) = m := by
        rw [show root? (node a l r) = m.deref v from hnode.symm, Mem.assign_deref]
      have hnodup' := nodup_inorder_bin.1 h.nodup
      refine ⟨rep_bin (d := .left).2 ⟨?_, ?_, ?_, h.rep.congr fun c hc => ?_,
        h.rep'.congr fun c hc => ?_⟩, by rw [hself]; rfl, fun p hp => ?_, by simp⟩
      · rw [Mem.node_setHeight, if_pos rfl]
        exact hleft
      · rw [Mem.node_setHeight, if_pos rfl]
        exact hright
      · simp only [Mem.height, Mem.node_setHeight, if_true, Node.avlHeight_setHeight, height_bin]
        split_ifs <;> omega
      · have hne : c ≠ a := fun h => hnodup'.1.1 (h ▸ hc)
        simp [hne]
      · have hne : c ≠ a := fun h => hnodup'.1.2 (h ▸ hc)
        simp [hne]
      · have hne : p ≠ some a := hp a (by simp [inorder])
        simp [hself, hne]

lemma rebalanceRound_bin {near far : BinaryTree A} (h : Subtrees m v d a near far)
    (hnode : m.deref v = some a) (hnear : (m.node a).child d = root? near)
    (hfar : (m.node a).child d.opp = root? far) (hle : near.height ≤ far.height + 2)
    (hle' : far.height ≤ near.height + 2) (hsmall : max near.height far.height + 2 < 2 ^ 16) :
    ∃ t, Rebalanced d a near far t ∧ Replaced v t m (rebalanceRound v m) := by
  cases d with
  | left => exact rebalanceRound_spec h hnode hnear hfar hle hle' hsmall
  | right =>
    obtain ⟨t, ht, hplaced⟩ :=
      rebalanceRound_spec h.opp hnode hfar hnear hle' hle (by rwa [max_comm])
    exact ⟨t, Rebalanced.opp ht, hplaced⟩

omit [DecidableEq A] in
lemma slotOf_away (xs : List A) (h : ∀ b ∈ xs, b ∉ elems ctx) : Away (slotOf ctx) xs := by
  intro d p hv
  cases ctx with
  | nil => simp [slotOf] at hv
  | cons f ctx =>
    obtain ⟨-, rfl⟩ : f.side = d ∧ some f.elem = p := by simpa [slotOf] using hv
    exact ⟨f.elem, fun hmem => h _ hmem (mem_elems_cons.2 (.inl rfl)), rfl⟩

lemma RepCtx.retarget (h : RepCtx m ctx p) (hnodup : (elems ctx).Nodup)
    (hnode : ∀ b ∈ elems ctx, m'.node b = (m.assign (slotOf ctx) q).node b)
    (hroot : m'.root = (m.assign (slotOf ctx) q).root) : RepCtx m' ctx q := by
  cases ctx with
  | nil => exact hroot
  | cons f ctx =>
    obtain ⟨-, hsibling, hrep, hctx⟩ := h
    obtain ⟨⟨hf, -⟩, -, hf', -⟩ := nodup_elems_cons.1 hnodup
    have hwrite : ∀ b ∈ elems (f :: ctx), m'.node b =
        if b = f.elem then (m.node b).setChild f.side q else m.node b := by
      intro b hb
      rw [hnode b hb]
      simp [slotOf, Mem.assign]
    have hself := hwrite f.elem (mem_elems_cons.2 (.inl rfl))
    refine ⟨by rw [hself]; simp, by rw [hself]; simpa using hsibling, hrep.congr fun b hb => ?_,
      RepCtx.congr hctx (fun b hb => ?_) hroot⟩
    · rw [hwrite b (mem_elems_cons.2 (.inr (.inl hb))), if_neg (by rintro rfl; exact hf hb)]
    · rw [hwrite b (mem_elems_cons.2 (.inr (.inr hb))), if_neg (by rintro rfl; exact hf' hb)]

lemma Replaced.repCtx (h : Replaced (slotOf ctx) t m m') (hctx : RepCtx m ctx p)
    (hnodup : (inorder (plug ctx t)).Nodup) : RepCtx m' ctx (root? t) := by
  obtain ⟨-, hnodup, hout⟩ := nodup_inorder_plug.1 hnodup
  refine hctx.retarget hnodup (fun b hb => h.outside b fun c hc heq => ?_) h.root
  exact hout c hc (Option.some.inj heq ▸ hb)

lemma node_none_assign (ctx : List (Frame A)) :
    (m.assign (slotOf ctx) q).node none = m.node none := by
  refine Mem.node_assign_of_ne fun d hv => ?_
  obtain ⟨b, -, heq⟩ := slotOf_away [] (by simp) d none hv
  exact absurd heq (by simp)

lemma Replaced.fake (h : Replaced (slotOf ctx) t m m') (hfake : m.node none = peerFakeNode) :
    m'.node none = peerFakeNode := by
  rw [h.outside none fun b _ => by simp, node_none_assign, hfake]

/-- The pool draws the tree `t`, in which every node knows its height. -/
structure Draws (m : Mem A) (t : BinaryTree A) : Prop where
  rep : Rep m t
  root : m.root = root? t
  fake : m.node none = peerFakeNode
  nodup : (inorder t).Nodup

/-- `peer_avl_rebalance` restores the balance above a subtree whose height has changed from `h`
by at most 1. -/
lemma peerAvlRebalance_spec {h : ℕ} (hfake : m.node none = peerFakeNode)
    (hctx : RepCtx m ctx (root? t)) (hrep : Rep m t) (hnodup : (inorder (plug ctx t)).Nodup)
    (havl : Avl t) (hhole : AvlCtx ctx h) (hclose : Close t.height h)
    (hsmall : ctxHeight ctx h + 3 < 2 ^ 16) :
    ∃ t', inorder t' = inorder (plug ctx t) ∧ Avl t' ∧
      Draws (peerAvlRebalance (slotsAbove ctx) m) t' ∧
      Relinked m (peerAvlRebalance (slotsAbove ctx) m) := by
  induction ctx generalizing m t h with
  | nil => exact ⟨t, rfl, havl, ⟨hrep, hctx, hfake, hnodup⟩, relinked_refl m⟩
  | cons f ctx ih =>
    obtain ⟨hchild, hsibling, hrep', hctx⟩ := hctx
    obtain ⟨havl', hclose', hhole⟩ := hhole
    have htop := le_ctxHeight ctx (max h f.sibling.height + 1)
    rw [ctxHeight] at hsmall
    obtain ⟨hnodup', -, hout⟩ := nodup_inorder_plug.1 (plug_cons f ctx t ▸ hnodup)
    unfold Close at hclose hclose'
    obtain ⟨t1, hre, hplaced⟩ := rebalanceRound_bin
      ⟨hfake, hrep, hrep', hnodup', slotOf_away _ hout, havl, havl'⟩ (RepCtx.deref hctx) hchild
      hsibling (by omega) (by omega) (by omega)
    have hfill : inorder (plug ctx t1) = inorder (plug (f :: ctx) t) := by
      rw [plug_cons, inorder_plug, inorder_plug, hre.order, Frame.fill]
    obtain ⟨t', horder, havl', hdraws, hlinks⟩ := ih (hplaced.fake hfake)
      (hplaced.repCtx hctx (hfill ▸ hnodup)) hplaced.rep (hfill ▸ hnodup) hre.avl hhole
      (hre.close hclose hclose') hsmall
    have hloop : peerAvlRebalance (slotsAbove (f :: ctx)) m =
        peerAvlRebalance (slotsAbove ctx) (rebalanceRound (slotOf ctx) m) := by
      simp [peerAvlRebalance, slotsAbove]
    rw [hloop]
    exact ⟨t', horder.trans hfill, havl', hdraws, hplaced.relinked.trans hlinks⟩

end Rebalance

end BooxKernel.InetPeer
