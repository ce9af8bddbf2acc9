import BooxKernel.InetPeer.Pool

/-!
# Unlinking a peer

A peer without a left subtree gives its place to its right subtree. Else the rightmost node of
its left subtree leaves its own place to its left subtree and takes the place of the peer. The
entry of the stack that pointed into the peer is patched to point into that node.
-/
namespace BooxKernel.InetPeer

open ColoredTrees (Side)
open BalancedTrees
open BinaryTree (nil node)

variable {A : Type*} {m m' : Mem A} {t l r : BinaryTree A} {ctx inner : List (Frame A)} {p x : A}

lemma slots_get (f : Frame A) (inner ctx : List (Frame A)) :
    (slots (inner ++ f :: ctx))[ctx.length]? = some (slotOf ctx) ∧
      (slots (inner ++ f :: ctx))[ctx.length + 1]? = some (slotIn f) := by
  have hlen : (slotsAbove ctx).length = ctx.length := by
    have h := length_slots ctx
    rw [slots, List.length_append, List.length_singleton] at h
    omega
  rw [slots_append, slots_cons]
  constructor
  · rw [slots, List.append_assoc, List.append_assoc, List.getElem?_append_right hlen.le]
    simp [hlen]
  · simp

lemma slots_top (ctx : List (Frame A)) :
    (slots ctx)[(slots ctx).length - 1]? = some (slotOf ctx) := by
  rw [← List.getLast?_eq_getElem?, slots, List.getLast?_concat]

lemma slots_patch (f g : Frame A) (inner ctx : List (Frame A)) :
    ((slots (inner ++ f :: ctx)).set (ctx.length + 1) (slotIn g)).take
      ((slots (inner ++ f :: ctx)).length - 1) = slotsAbove (inner ++ g :: ctx) := by
  have hset : (slots (inner ++ f :: ctx)).set (ctx.length + 1) (slotIn g) =
      slots (inner ++ g :: ctx) := by
    rw [slots_append, slots_append, slots_cons, slots_cons]
    simp
  have hlen : (slots (inner ++ f :: ctx)).length = (slots (inner ++ g :: ctx)).length := by simp
  rw [hset, hlen, ← List.dropLast_eq_take, slots, List.dropLast_concat]

variable [DecidableEq A] {tl t' : BinaryTree A}

/-- What is left for `peer_avl_rebalance` when the last node `x` of the left subtree of `p` has
taken its place. -/
structure Spliced (m m' : Mem A) (ctx : List (Frame A)) (t : BinaryTree A) : Prop where
  repCtx : RepCtx m' ctx (root? t)
  rep : Rep m' t
  fake : m'.node none = peerFakeNode
  relinked : Relinked m m'

lemma node_takePlace {q : Option A} (hq : q ≠ some x) :
    (takePlace p x (slotOf ctx) m).node q = (m.assign (slotOf ctx) (some x)).node q := by
  simp [takePlace, hq]

lemma children_takePlace (hxp : p ≠ x) (hp : p ∉ elems ctx) :
    ((takePlace p x (slotOf ctx) m).node x).avlLeft = (m.node p).avlLeft ∧
      ((takePlace p x (slotOf ctx) m).node x).avlRight = (m.node p).avlRight := by
  have hnode : (m.assign (slotOf ctx) (some x)).node (some p) = m.node p :=
    (slotOf_away [p] (by simpa using hp)).node_assign (by simp)
  simp [takePlace, hxp, hnode, Node.setChild, Node.setHeight]

lemma spliced_takePlace (hinv : PoolInv m (plug ctx (node p (plug inner (node x tl nil)) r))) :
    Spliced m (takePlace p x (slotOf ctx)
        (m.assign (slotOf (inner ++ ⟨.left, p, r⟩ :: ctx)) (m.node x).avlLeft))
      (inner ++ ⟨.left, x, r⟩ :: ctx) tl := by
  have htree : plug ctx (node p (plug inner (node x tl nil)) r) =
      plug (inner ++ ⟨.left, p, r⟩ :: ctx) (node x tl nil) := by
    rw [plug_append]
    rfl
  obtain ⟨hctx, hleft, -, -, htl, -⟩ := repCtx_and_rep (htree ▸ hinv.rep) (htree ▸ hinv.root)
  obtain ⟨hnode, hnodup, hout⟩ := nodup_inorder_plug.1 hinv.nodup
  obtain ⟨⟨hpl, hpr⟩, hnodupl, -, hlr⟩ := nodup_inorder_bin (d := .left).1 hnode
  obtain ⟨hnodupx, -, houtx⟩ := nodup_inorder_plug.1 hnodupl
  obtain ⟨⟨hxtl, -⟩, -⟩ := nodup_inorder_bin (d := .left).1 hnodupx
  have hxl : x ∈ inorder (plug inner (node x tl nil)) := mem_inorder_plug.2 (.inl (by simp [inorder]))
  have hxp : x ≠ p := by
    rintro rfl
    exact hpl hxl
  have hinl : ∀ b, b ∈ inorder tl ∨ b ∈ elems inner → b ∈ inorder (plug inner (node x tl nil)) := by
    rintro b (hb | hb)
    · exact mem_inorder_plug.2 (.inl (by simp [inorder, hb]))
    · exact mem_inorder_plug.2 (.inr hb)
  have houtl : ∀ b ∈ inorder (plug inner (node x tl nil)), b ∉ elems ctx := fun b hb =>
    hout b (mem_inorder_bin (d := .left).2 (.inr (.inl hb)))
  have houtr : ∀ b ∈ inorder r, b ∉ elems ctx := fun b hb =>
    hout b (mem_inorder_bin (d := .left).2 (.inr (.inr hb)))
  have houtp : p ∉ elems ctx := hout p (mem_inorder_bin (d := .left).2 (.inl rfl))
  have hnodup1 : (inorder (plug (inner ++ ⟨.left, p, r⟩ :: ctx) tl)).Nodup := by
    have hsub : (inorder (plug (inner ++ ⟨.left, p, r⟩ :: ctx) tl)).Sublist
        (inorder (plug ctx (node p (plug inner (node x tl nil)) r))) := by
      rw [htree, inorder_plug, inorder_plug]
      exact ((List.Sublist.refl _).append (by simp [inorder])).append (List.Sublist.refl _)
    exact hinv.nodup.sublist hsub
  have hplaced : Replaced (slotOf (inner ++ ⟨.left, p, r⟩ :: ctx)) tl m
      (m.assign (slotOf (inner ++ ⟨.left, p, r⟩ :: ctx)) (m.node x).avlLeft) :=
    replaced_assign [] (slotOf_away _ (nodup_inorder_plug.1 hnodup1).2.2) hleft (by simp)
      (fun _ _ => rfl) (fun _ => htl) rfl (relinked_refl m)
  have hctx1 := hplaced.repCtx hctx hnodup1
  have hfake1 := hplaced.fake hinv.fake
  generalize m.assign (slotOf (inner ++ ⟨.left, p, r⟩ :: ctx)) (m.node x).avlLeft = m1 at *
  obtain ⟨mid, hinner, hmid, hright, hr, hctx1⟩ := repPath_append.1 hctx1
  have hsame : ∀ b, b ≠ x → b ∉ elems ctx → (takePlace p x (slotOf ctx) m1).node b = m1.node b := by
    intro b hbx hb
    rw [node_takePlace (by simpa using hbx)]
    exact (slotOf_away [b] (by simpa using hb)).node_assign (by simp)
  obtain ⟨hleft', hright'⟩ := children_takePlace (m := m1) hxp.symm houtp
  refine ⟨repPath_append.2 ⟨mid, hinner.congr fun b hb => ?_, hleft'.trans hmid,
    hright'.trans hright, hr.congr fun b hb => ?_, RepCtx.retarget hctx1 hnodup (fun b hb => ?_) rfl⟩,
    hplaced.rep.congr fun b hb => ?_, ?_, ?_⟩
  · exact hsame b (by rintro rfl; exact houtx b (by simp [inorder]) hb) (houtl b (hinl b (.inr hb)))
  · exact hsame b (by rintro rfl; exact hlr b hxl hb) (houtr b hb)
  · exact node_takePlace fun heq => houtl b (Option.some.inj heq ▸ hxl) hb
  · exact hsame b (by rintro rfl; exact hxtl hb) (houtl b (hinl b (.inl hb)))
  · rw [node_takePlace (by simp), node_none_assign, hfake1]
  · exact hplaced.relinked.trans (by simp [takePlace])

lemma unlinkInner_spec (hinv : PoolInv m (plug ctx (node p l r))) (hne : l ≠ nil) :
    (unlinkInner p (slots ctx) ctx.length m = none ∧
      peerMaxDepth ≤ (plug ctx (node p l r)).height) ∨
    ∃ inner x tl m', l = plug inner (node x tl nil) ∧ after inner = [] ∧
      unlinkInner p (slots ctx) ctx.length m =
        some (slotsAbove (inner ++ ⟨.left, x, r⟩ :: ctx), m') ∧
      Spliced m m' (inner ++ ⟨.left, x, r⟩ :: ctx) tl := by
  obtain ⟨hctx, hleft, hright, -, hl, hr⟩ := repCtx_and_rep hinv.rep hinv.root
  obtain ⟨hnone, hhigh⟩ | ⟨inner, x, tl, rfl, hafter, hcall⟩ :=
    lookupRightempty_spec (r := r) ctx hleft hl hne
  · refine .inl ⟨?_, hhigh⟩
    rw [unlinkInner, hnone]
    rfl
  · refine .inr ⟨inner, x, tl, _, rfl, hafter, ?_, spliced_takePlace hinv⟩
    obtain ⟨hdelp, hdelp'⟩ := slots_get ⟨.left, p, r⟩ inner ctx
    have htop : m.deref (slotOf (inner ++ ⟨.left, p, r⟩ :: ctx)) = some x := by
      have htree : plug ctx (node p (plug inner (node x tl nil)) r) =
          plug (inner ++ ⟨.left, p, r⟩ :: ctx) (node x tl nil) := by
        rw [plug_append]
        rfl
      exact (repCtx_and_rep (htree ▸ hinv.rep) (htree ▸ hinv.root)).1.deref
    rw [unlinkInner, hcall]
    simp only [Option.bind_eq_bind, Option.bind_some, slots_top, hdelp, hdelp', htop]
    rw [if_neg (by simp), if_neg (by simp [slotIn]), ← slots_patch ⟨.left, p, r⟩ ⟨.left, x, r⟩]
    rfl

lemma erase_middle {xs ys : List A} (h : (xs ++ p :: ys).Nodup) :
    (xs ++ p :: ys).erase p = xs ++ ys := by
  have hp : p ∉ xs := fun hmem => (List.nodup_cons.1 (List.nodup_middle.1 h)).1
    (List.mem_append_left _ hmem)
  rw [List.erase_append_right _ hp, List.erase_cons_head]

lemma inorder_plug_right (h : (inorder (plug ctx (node p nil r))).Nodup) :
    inorder (plug ctx r) = (inorder (plug ctx (node p nil r))).erase p := by
  have hsplit : inorder (plug ctx (node p nil r)) = before ctx ++ p :: (inorder r ++ after ctx) := by
    simp [inorder_plug, inorder]
  rw [hsplit] at h ⊢
  rw [erase_middle h, inorder_plug, List.append_assoc]

lemma inorder_plug_inner {tl : BinaryTree A} (hafter : after inner = [])
    (h : (inorder (plug ctx (node p (plug inner (node x tl nil)) r))).Nodup) :
    inorder (plug (inner ++ ⟨.left, x, r⟩ :: ctx) tl) =
      (inorder (plug ctx (node p (plug inner (node x tl nil)) r))).erase p := by
  have hsplit : inorder (plug ctx (node p (plug inner (node x tl nil)) r)) =
      (before ctx ++ before inner ++ inorder tl ++ [x]) ++ p :: (inorder r ++ after ctx) := by
    simp [inorder_plug, inorder, hafter]
  rw [hsplit] at h ⊢
  rw [erase_middle h, plug_append]
  simp [Frame.fill, bin, inorder, inorder_plug, hafter]

lemma Sorted.erase (h : Sorted m t) (horder : inorder t' = (inorder t).erase p) : Sorted m t' := by
  rw [Sorted, horder]
  exact List.Pairwise.sublist List.erase_sublist h

lemma rebalance_outer (hinv : PoolInv m (plug ctx (node p nil r))) :
    ∃ t', inorder t' = (inorder (plug ctx (node p nil r))).erase p ∧
      PoolInv (peerAvlRebalance (slotsAbove ctx) (m.assign (slotOf ctx) (root? r))) t' ∧
      Relinked m (peerAvlRebalance (slotsAbove ctx) (m.assign (slotOf ctx) (root? r))) := by
  obtain ⟨hctx, -, -, -, -, hr⟩ := repCtx_and_rep hinv.rep hinv.root
  obtain ⟨⟨-, havl, hclose⟩, hhole⟩ := (avl_plug ctx _).1 hinv.avl
  have horder := inorder_plug_right hinv.nodup
  have hnodup : (inorder (plug ctx r)).Nodup := by
    rw [horder]
    exact hinv.nodup.erase p
  have hplaced : Replaced (slotOf ctx) r m (m.assign (slotOf ctx) (root? r)) :=
    replaced_assign [] (slotOf_away _ (nodup_inorder_plug.1 hnodup).2.2) rfl (by simp)
      (fun _ _ => rfl) (fun _ => hr) rfl (relinked_refl m)
  have hsmall := hinv.height_lt
  rw [height_plug] at hsmall
  have hsorted := (hinv.sorted.erase horder).congr fun a _ => hplaced.relinked.v4daddr a
  obtain ⟨t', horder', hinv', hlinks⟩ := peerAvlRebalance_inv (hplaced.fake hinv.fake)
    (hplaced.repCtx hctx hnodup) hplaced.rep hnodup havl hhole
    (by simp only [Close, BinaryTree.height]; omega) hsmall hsorted
  exact ⟨t', horder'.trans horder, hinv', hplaced.relinked.trans hlinks⟩

lemma rebalance_inner (hafter : after inner = [])
    (hinv : PoolInv m (plug ctx (node p (plug inner (node x tl nil)) r)))
    (hspliced : Spliced m m' (inner ++ ⟨.left, x, r⟩ :: ctx) tl) :
    ∃ t', inorder t' = (inorder (plug ctx (node p (plug inner (node x tl nil)) r))).erase p ∧
      PoolInv (peerAvlRebalance (slotsAbove (inner ++ ⟨.left, x, r⟩ :: ctx)) m') t' ∧
      Relinked m (peerAvlRebalance (slotsAbove (inner ++ ⟨.left, x, r⟩ :: ctx)) m') := by
  have horder := inorder_plug_inner hafter hinv.nodup
  have hnodup : (inorder (plug (inner ++ ⟨.left, x, r⟩ :: ctx) tl)).Nodup := by
    rw [horder]
    exact hinv.nodup.erase p
  have hsmall := hinv.height_lt
  have htree : (plug ctx (node p (plug inner (node x tl nil)) r)).height =
      ctxHeight (inner ++ ⟨.left, x, r⟩ :: ctx) (node x tl nil).height := by
    rw [height_plug, ctxHeight_append, ← height_plug inner]
    rfl
  have havl : Avl tl ∧ AvlCtx (inner ++ ⟨.left, x, r⟩ :: ctx) (node x tl nil).height := by
    obtain ⟨⟨hl, hr, hclose⟩, hhole⟩ := (avl_plug ctx _).1 hinv.avl
    obtain ⟨⟨htl, -⟩, hinner⟩ := (avl_plug inner _).1 hl
    rw [height_plug] at hclose
    rw [BinaryTree.height, height_plug] at hhole
    exact ⟨htl, (avlCtx_append _ _ _).2 ⟨hinner, hr, hclose, hhole⟩⟩
  rw [htree] at hsmall
  have hsorted := (hinv.sorted.erase horder).congr fun a _ => hspliced.relinked.v4daddr a
  obtain ⟨t', horder', hinv', hlinks⟩ := peerAvlRebalance_inv hspliced.fake hspliced.repCtx
    hspliced.rep hnodup havl.1 havl.2 (by simp only [Close, BinaryTree.height]; omega) hsmall hsorted
  exact ⟨t', horder'.trans horder, hinv', hspliced.relinked.trans hlinks⟩

lemma unlinkFromPool_spec (hinv : PoolInv m t) (hp : p ∈ inorder t) :
    (unlinkFromPool p m = none ∧ peerMaxDepth ≤ t.height) ∨
    (unlinkFromPool p m = some (false, m) ∧ (m.node p).refcnt ≠ 1) ∨
    ∃ m' t', unlinkFromPool p m = some (true, m') ∧ (m.node p).refcnt = 1 ∧ PoolInv m' t' ∧
      inorder t' = (inorder t).erase p ∧ (∀ b, key m' b = key m b) ∧ m'.total = m.total - 1 := by
  by_cases href : (m.node p).refcnt = 1
  · unfold unlinkFromPool
    rw [if_pos href]
    obtain ⟨hnone, hhigh⟩ | ⟨ctx, t', hlookup, hsought⟩ := lookupStack_spec hinv (key m p)
    · unfold key at hnone
      exact .inl ⟨by rw [hnone]; rfl, hhigh⟩
    · have hroot := (hsought.root?_eq_some hinv.sorted).2 ⟨hp, rfl⟩
      obtain ⟨l, r, rfl⟩ : ∃ l r, t' = node p l r := by
        cases t' with
        | nil => simp at hroot
        | node q l r =>
          obtain rfl : q = p := by simpa [root?] using hroot
          exact ⟨l, r, rfl⟩
      obtain rfl := hsought.plug_eq
      obtain ⟨hctx, hleft, hright, -, hl, hr⟩ := repCtx_and_rep hinv.rep hinv.root
      unfold key at hlookup
      simp only [hlookup, Option.bind_eq_bind, Option.bind_some, hroot, length_slots,
        Nat.add_sub_cancel, hleft, hright]
      rw [if_neg (by simp)]
      by_cases hempty : l = nil
      · subst hempty
        obtain ⟨t', horder, hinv', hlinks⟩ := rebalance_outer hinv
        have hdelp : (slots ctx)[ctx.length]? = some (slotOf ctx) := by
          simpa using slots_top ctx
        have htake : (slots ctx).take ctx.length = slotsAbove ctx := by
          rw [show ctx.length = (slots ctx).length - 1 by simp, ← List.dropLast_eq_take, slots,
            List.dropLast_concat]
        rw [hdelp, htake]
        exact .inr (.inr ⟨_, t', rfl, href, hinv'.congr (fun _ _ => rfl) rfl rfl, horder,
          fun b => hlinks.v4daddr b, by simp [hlinks.total]⟩)
      · rw [if_neg (by cases l <;> simp [root?] at hempty ⊢)]
        obtain ⟨hnone, hhigh⟩ | ⟨inner, x, tl, m', rfl, hafter, hcall, hspliced⟩ :=
          unlinkInner_spec hinv hempty
        · exact .inl ⟨by rw [hnone]; rfl, hhigh⟩
        · obtain ⟨t', horder, hinv', hlinks⟩ := rebalance_inner hafter hinv hspliced
          rw [hcall]
          exact .inr (.inr ⟨_, t', rfl, href, hinv'.congr (fun _ _ => rfl) rfl rfl, horder,
            fun b => hlinks.v4daddr b, by simp [hlinks.total]⟩)
  · exact .inr (.inl ⟨if_neg href, href⟩)

end BooxKernel.InetPeer
