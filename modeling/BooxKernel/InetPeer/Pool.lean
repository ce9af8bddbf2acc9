import BooxKernel.InetPeer.Search

/-!
# Linking and unlinking peers

Each operation changes the tree at one place and then restores the balance above it.
-/
namespace BooxKernel.InetPeer

open ColoredTrees (Side)
open BalancedTrees
open List hiding after
open BinaryTree (nil node)

variable {A : Type*} {m m' : Mem A} {t : BinaryTree A} {ctx : List (Frame A)} {daddr : Daddr}
  {a n p : A}

lemma Sorted.congr (h : Sorted m t) (hkey : ∀ a ∈ inorder t, key m' a = key m a) : Sorted m' t := by
  refine h.imp_of_mem fun {a b} ha hb hlt => ?_
  rwa [hkey a ha, hkey b hb]

lemma PoolInv.numNodes_le (h : PoolInv m t) : t.numNodes ≤ 2 ^ 32 := by
  rw [← length_inorder, ← length_map (key m)]
  exact h.sorted.nodup.length_le_card.trans_eq (Fintype.card_fin _)

lemma PoolInv.height_lt (h : PoolInv m t) : t.height < 46 :=
  BalancedTrees.height_lt h.avl (Nat.lt_succ_of_le h.numNodes_le) (by norm_num [Nat.fib])

lemma PoolInv.congr (h : PoolInv m t) (hnode : ∀ b ∈ inorder t, m'.node b = m.node b)
    (hfake : m'.node none = m.node none) (hroot : m'.root = m.root) : PoolInv m' t :=
  ⟨⟨h.rep.congr hnode, hroot.trans h.root, hfake.trans h.fake, h.nodup⟩, h.avl,
    h.sorted.congr fun a ha => congrArg Node.v4daddr (hnode a ha)⟩

variable [DecidableEq A]

/-- A new reference count. -/
def setRefcnt (a : A) (f : ℤ → ℤ) (m : Mem A) : Mem A :=
  m.update a fun node => { node with refcnt := f node.refcnt }

lemma key_setRefcnt (a b : A) (f : ℤ → ℤ) : key (setRefcnt a f m) b = key m b := by
  simp only [key, setRefcnt, Mem.node_update]
  split_ifs <;> rfl

lemma Rep.setRefcnt (h : Rep m t) (a : A) (f : ℤ → ℤ) : Rep (setRefcnt a f m) t := by
  induction t with
  | nil => trivial
  | node b l r ihl ihr =>
    obtain ⟨hleft, hright, hheight, hl, hr⟩ := h
    refine ⟨?_, ?_, ?_, ihl hl, ihr hr⟩
    · rw [← hleft, InetPeer.setRefcnt, Mem.node_update]
      split_ifs <;> rfl
    · rw [← hright, InetPeer.setRefcnt, Mem.node_update]
      split_ifs <;> rfl
    · rw [← hheight, InetPeer.setRefcnt, Mem.height, Mem.node_update]
      split_ifs <;> rfl

lemma PoolInv.setRefcnt (h : PoolInv m t) (a : A) (f : ℤ → ℤ) : PoolInv (setRefcnt a f m) t :=
  ⟨⟨h.rep.setRefcnt a f, h.root, by simp [InetPeer.setRefcnt, h.fake], h.nodup⟩, h.avl,
    h.sorted.congr fun b _ => key_setRefcnt a b f⟩

lemma peerAvlRebalance_inv {h : ℕ} (hfake : m.node none = peerFakeNode)
    (hctx : RepCtx m ctx (root? t)) (hrep : Rep m t) (hnodup : (inorder (plug ctx t)).Nodup)
    (havl : Avl t) (hhole : AvlCtx ctx h) (hclose : Close t.height h)
    (hsmall : ctxHeight ctx h < 46) (hsorted : Sorted m (plug ctx t)) :
    ∃ t', inorder t' = inorder (plug ctx t) ∧
      PoolInv (peerAvlRebalance (slotsAbove ctx) m) t' ∧
      Relinked m (peerAvlRebalance (slotsAbove ctx) m) := by
  obtain ⟨t', horder, havl', hdraws, hlinks⟩ :=
    peerAvlRebalance_spec hfake hctx hrep hnodup havl hhole hclose (by omega)
  refine ⟨t', horder, ⟨hdraws, havl', ?_⟩, hlinks⟩
  have hsorted' : Sorted m t' := by rwa [Sorted, horder]
  exact hsorted'.congr fun a _ => hlinks.v4daddr a

lemma linkToPool_spec (hinv : PoolInv m t) (hn : n ∉ inorder t)
    (hsought : Sought m (key m n) t ctx nil) :
    ∃ m' t', linkToPool n (slots ctx) m = some m' ∧ PoolInv m' t' ∧
      (inorder t').Perm (n :: inorder t) ∧ Relinked m m' := by
  obtain ⟨hplug, ⟨hbefore, hafter⟩, -⟩ := hsought
  subst hplug
  obtain ⟨hctx, -⟩ := repCtx_and_rep hinv.rep hinv.root
  have hout : n ∉ elems ctx := hn
  have horder : inorder (plug ctx (node n nil nil)) = before ctx ++ n :: after ctx := by
    simp [inorder_plug, inorder]
  have hnodup : (inorder (plug ctx (node n nil nil))).Nodup := by
    refine nodup_inorder_plug.2 ⟨by simp [inorder], hinv.nodup, fun a ha => ?_⟩
    obtain rfl : a = n := by simpa [inorder] using ha
    exact hout
  obtain ⟨-, hhole⟩ := (avl_plug ctx nil).1 hinv.avl
  have hplaced : Replaced (slotOf ctx) (node n nil nil) m
      ((((m.setHeight n 1).setChild n .left none).setChild n .right none).assign (slotOf ctx) n) := by
    refine replaced_assign [n] (slotOf_away _ fun b hb => ?_) rfl (by simp [inorder])
      (fun p hp => by simp at hp; simp [hp]) (fun _ => ?_) rfl (by simp)
    · obtain rfl : b = n := by simpa [inorder] using hb
      exact hout
    · exact rep_bin (d := .left).2 ⟨by simp [Node.child, Node.setChild],
        by simp [Side.opp], by simp [Mem.height], trivial, trivial⟩
  have hsorted : Sorted m (plug ctx (node n nil nil)) := by
    have hold := hinv.sorted
    rw [Sorted, ← elems, elems_eq, pairwise_append] at hold
    rw [Sorted, horder, pairwise_append, pairwise_cons]
    exact ⟨hold.1, ⟨hafter, hold.2.1⟩,
      fun x hx => forall_mem_cons.2 ⟨hbefore x hx, hold.2.2 x hx⟩⟩
  have hsmall := hinv.height_lt
  rw [height_plug] at hsmall
  obtain ⟨t', horder', hinv', hlinks⟩ := peerAvlRebalance_inv (hplaced.fake hinv.fake)
    (hplaced.repCtx hctx hnodup) hplaced.rep hnodup ⟨trivial, trivial, by simp [Close]⟩ hhole
    (by simp [Close]) hsmall (hsorted.congr fun a _ => hplaced.relinked.v4daddr a)
  refine ⟨_, t', ?_, hinv', ?_, hplaced.relinked.trans hlinks⟩
  · simp [linkToPool, slots]
  · rw [horder', horder, ← elems, elems_eq]
    exact perm_middle

lemma getpeerWrite_spec (hinv : PoolInv m t) (hn : n ∉ inorder t) (daddr : Daddr) :
    (getpeerWrite daddr n m = none ∧ peerMaxDepth ≤ t.height) ∨
    (∃ a m', getpeerWrite daddr n m = some (some a, false, m') ∧ a ∈ inorder t ∧ key m a = daddr ∧
      PoolInv m' t ∧ (∀ b ∈ inorder t, key m' b = key m b) ∧ m'.total = m.total) ∨
    ∃ m' t', getpeerWrite daddr n m = some (some n, true, m') ∧
      (∀ a ∈ inorder t, key m a ≠ daddr) ∧ PoolInv m' t' ∧ (inorder t').Perm (n :: inorder t) ∧
      key m' n = daddr ∧ (∀ b ∈ inorder t, key m' b = key m b) ∧ m'.total = m.total + 1 := by
  have hfields : PoolInv (m.update n fun node => { node with v4daddr := daddr, refcnt := 1 }) t := by
    refine hinv.congr (fun b hb => ?_) (by simp) rfl
    have hne : b ≠ n := fun h => hn (h ▸ hb)
    simp [hne]
  have hkeys : ∀ b ∈ inorder t,
      key (m.update n fun node => { node with v4daddr := daddr, refcnt := 1 }) b = key m b := by
    intro b hb
    have hne : b ≠ n := fun h => hn (h ▸ hb)
    simp [key, hne]
  have hnew : key (m.update n fun node => { node with v4daddr := daddr, refcnt := 1 }) n = daddr := by
    simp [key]
  unfold getpeerWrite
  have htotal : (m.update n fun node => { node with v4daddr := daddr, refcnt := 1 }).total = m.total :=
    rfl
  generalize (m.update n fun node => { node with v4daddr := daddr, refcnt := 1 }) = m1 at *
  obtain ⟨hnone, hhigh⟩ | ⟨ctx, t', hlookup, hsought⟩ := lookupStack_spec hfields daddr
  · exact .inl ⟨by simp [hnone], hhigh⟩
  · have hroot := fun a => hsought.root?_eq_some (a := a) hfields.sorted
    cases t' with
    | node a l r =>
      obtain ⟨ha, hkey⟩ := (hroot a).1 rfl
      refine .inr (.inl ⟨a, setRefcnt a (· + 1) m1, by simp [hlookup, root?]; rfl, ha,
        (hkeys a ha).symm.trans hkey, hfields.setRefcnt a _, fun b hb => ?_, htotal⟩)
      exact (key_setRefcnt a b _).trans (hkeys b hb)
    | nil =>
      obtain ⟨m', t', hlink, hinv', hperm, hlinks⟩ := linkToPool_spec hfields hn (hnew ▸ hsought)
      refine .inr (.inr ⟨{ m' with total := m'.total + 1 }, t', by simp [hlookup, hlink],
        fun a ha hkey => ?_, hinv'.congr (fun _ _ => rfl) rfl rfl, hperm, ?_, fun b hb => ?_, ?_⟩)
      · have hsome := (hroot a).2 ⟨ha, (hkeys a ha).trans hkey⟩
        simp at hsome
      · exact (hlinks.v4daddr n).trans hnew
      · exact (hlinks.v4daddr b).trans (hkeys b hb)
      · simp [hlinks.total, htotal]

end BooxKernel.InetPeer
