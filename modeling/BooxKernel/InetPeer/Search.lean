import BooxKernel.InetPeer.Shape

/-!
# The searches in the pool

`lookup` follows the order of the addresses, and the stack that it leaves has the pointers on the
way. `lookup_rightempty` goes to the last node of a left subtree. Neither writes behind the end of
the stack in a tree that is lower than `PEER_MAXDEPTH`.
-/
namespace BooxKernel.InetPeer

open ColoredTrees (Side)
open BalancedTrees
open BinaryTree (nil node)
open Loops

variable {A : Type*} {m : Mem A} {t r l tree : BinaryTree A} {ctx : List (Frame A)} {daddr : Daddr}
  {a : A} {stack : List (Slot A)}

/-- The address of a peer. -/
def key (m : Mem A) (a : A) : Daddr := (m.node a).v4daddr

/-- The tree is a search tree for the addresses. -/
def Sorted (m : Mem A) (t : BinaryTree A) : Prop :=
  (inorder t).Pairwise fun a b => key m a < key m b

/-- The stack at the hole of a context. -/
def slots (ctx : List (Frame A)) : List (Slot A) := slotsAbove ctx ++ [slotOf ctx]

/-- The child pointer that leads into the hole of a frame. -/
def slotIn (f : Frame A) : Slot A := .child f.side (some f.elem)

lemma slots_cons (f : Frame A) (ctx : List (Frame A)) :
    slots (f :: ctx) = slots ctx ++ [slotIn f] := rfl

@[simp] lemma length_slots (ctx : List (Frame A)) : (slots ctx).length = ctx.length + 1 := by
  induction ctx with
  | nil => rfl
  | cons f ctx ih => rw [slots_cons, List.length_append, ih]; rfl

lemma slots_append (inner outer : List (Frame A)) :
    slots (inner ++ outer) = slots outer ++ inner.reverse.map slotIn := by
  induction inner with
  | nil => simp
  | cons f inner ih => simp [slots_cons, ih]

/-- The stack has room for the pointers to the subtrees of a node, or the tree is high. -/
lemma push_slots (f : Frame A) (a : A) (l r : BinaryTree A) (ctx : List (Frame A)) :
    push (slots ctx) (slotIn f) = some (slots (f :: ctx)) ∨
      push (slots ctx) (slotIn f) = none ∧ peerMaxDepth ≤ (plug ctx (node a l r)).height := by
  rw [push, length_slots]
  by_cases hroom : ctx.length + 1 < peerMaxDepth
  · exact .inl (if_pos hroom)
  · have hlen := length_add_le_ctxHeight ctx (node a l r).height
    have hpos : 0 < (node a l r).height := Nat.succ_pos _
    rw [← height_plug] at hlen
    exact .inr ⟨if_neg hroom, by omega⟩

/-- Everything before the hole has a smaller address, and everything after it a larger one. -/
def Bounds (m : Mem A) (daddr : Daddr) (ctx : List (Frame A)) : Prop :=
  (∀ x ∈ before ctx, key m x < daddr) ∧ ∀ x ∈ after ctx, daddr < key m x

lemma Sorted.node (h : Sorted m (plug ctx (node a l r))) :
    (∀ x ∈ inorder l, key m x < key m a) ∧ ∀ x ∈ inorder r, key m a < key m x := by
  rw [Sorted, inorder_plug, List.pairwise_append, List.pairwise_append] at h
  have hnode := h.1.2.1
  rw [inorder, List.pairwise_append, List.pairwise_cons] at hnode
  exact ⟨fun x hx => hnode.2.2 x hx a (by simp), hnode.2.1.1⟩

lemma Bounds.left (h : Bounds m daddr ctx) (hsorted : Sorted m (plug ctx (node a l r)))
    (hlt : daddr < key m a) : Bounds m daddr (⟨.left, a, r⟩ :: ctx) := by
  refine ⟨h.1, fun x hx => ?_⟩
  simp only [after, List.cons_append, List.mem_cons, List.mem_append] at hx
  rcases hx with rfl | hx | hx
  · exact hlt
  · exact hlt.trans (hsorted.node.2 x hx)
  · exact h.2 x hx

lemma Bounds.right (h : Bounds m daddr ctx) (hsorted : Sorted m (plug ctx (node a l r)))
    (hlt : key m a < daddr) : Bounds m daddr (⟨.right, a, l⟩ :: ctx) := by
  refine ⟨fun x hx => ?_, h.2⟩
  simp only [before, List.mem_append, List.mem_singleton] at hx
  rcases hx with (hx | hx) | rfl
  · exact h.1 x hx
  · exact (hsorted.node.1 x hx).trans hlt
  · exact hlt

/-- Where the search for an address ends: at its peer, or at the place where it would be. -/
structure Sought (m : Mem A) (daddr : Daddr) (tree : BinaryTree A) (ctx : List (Frame A))
    (t : BinaryTree A) : Prop where
  plug_eq : plug ctx t = tree
  bounds : Bounds m daddr ctx
  found : ∀ a l r, t = node a l r → key m a = daddr

lemma lookupLoop_step {record : Bool} {v : Slot A} (hne : daddr ≠ key m a)
    (hv : v = if daddr < key m a then .child .left (some a) else .child .right (some a)) :
    lookupLoop m daddr record stack (some a) =
      (if record then push stack v else some stack).bind fun stack =>
        lookupLoop m daddr record stack (m.deref v) := by
  unfold key at hne hv
  rw [lookupLoop_eq, lookupRound, if_neg hne, ← hv]
  cases record with
  | true => cases hpush : push stack v <;> simp [hpush]
  | false => rfl

/-- What the loop of `lookup` can come to in the tree: with a stack that is too small for it, or
where the address belongs. -/
def LookupSpec (m : Mem A) (daddr : Daddr) (record : Bool) (tree : BinaryTree A)
    (result : Option (List (Slot A) × Option A)) : Prop :=
  (result = none ∧ record = true ∧ peerMaxDepth ≤ tree.height) ∨
    ∃ stack ctx t, result = some (stack, root? t) ∧ Sought m daddr tree ctx t ∧
      (record = true → stack = slots ctx)

lemma lookupLoop_spec {record : Bool} (hctx : RepCtx m ctx (root? t)) (ht : Rep m t)
    (hsorted : Sorted m (plug ctx t)) (hbounds : Bounds m daddr ctx)
    (hstack : record = true → stack = slots ctx) :
    LookupSpec m daddr record (plug ctx t) (lookupLoop m daddr record stack (root? t)) := by
  induction t generalizing ctx stack with
  | nil =>
    refine .inr ⟨stack, ctx, nil, ?_, ⟨rfl, hbounds, fun a l r h => by cases h⟩, hstack⟩
    rw [lookupLoop_eq, root?_nil]
    rfl
  | node a l r ihl ihr =>
    obtain ⟨hleft, hright, -, hl, hr⟩ := ht
    by_cases hkey : daddr = key m a
    · refine .inr ⟨stack, ctx, node a l r, ?_, ⟨rfl, hbounds, fun a' l' r' h => ?_⟩, hstack⟩
      · rw [lookupLoop_eq, lookupRound]
        exact congrArg (Option.bind · _) (if_pos hkey)
      · cases h
        exact hkey.symm
    · have hdown : ∀ (f : Frame A) (u : Option A), m.deref (slotIn f) = u →
          slotIn f = (if daddr < key m a then .child .left (some a) else .child .right (some a)) →
          (∀ stack, (record = true → stack = slots (f :: ctx)) →
            LookupSpec m daddr record (plug ctx (node a l r)) (lookupLoop m daddr record stack u)) →
          LookupSpec m daddr record (plug ctx (node a l r))
            (lookupLoop m daddr record stack (root? (node a l r))) := by
        rintro f u rfl hv hrec
        rw [root?, lookupLoop_step hkey hv]
        cases record with
        | false => exact hrec stack (by simp)
        | true =>
          rw [hstack rfl]
          rcases push_slots f a l r ctx with hpush | ⟨hpush, hhigh⟩
          · rw [hpush]
            exact hrec _ fun _ => rfl
          · rw [hpush]
            exact .inl ⟨rfl, rfl, hhigh⟩
      rcases lt_or_gt_of_ne hkey with hlt | hlt
      · have hframe : RepCtx m (⟨.left, a, r⟩ :: ctx) (root? l) := ⟨hleft, hright, hr, hctx⟩
        exact hdown ⟨.left, a, r⟩ (root? l) hleft (if_pos hlt).symm fun stack hstack =>
          ihl hframe hl hsorted (hbounds.left hsorted hlt) hstack
      · have hframe : RepCtx m (⟨.right, a, l⟩ :: ctx) (root? r) := ⟨hright, hleft, hl, hctx⟩
        exact hdown ⟨.right, a, l⟩ (root? r) hright (if_neg hlt.not_gt).symm fun stack hstack =>
          ihr hframe hr hsorted (hbounds.right hsorted hlt) hstack

/-- The pool is a balanced search tree. -/
structure PoolInv (m : Mem A) (t : BinaryTree A) : Prop extends Draws m t where
  avl : Avl t
  sorted : Sorted m t

lemma Sorted.nodup (h : Sorted m t) : ((inorder t).map (key m)).Nodup := by
  rw [List.Nodup, List.pairwise_map]
  exact h.imp fun hlt => hlt.ne

lemma Sought.root?_eq_some (h : Sought m daddr tree ctx t) (hsorted : Sorted m tree)
    : root? t = some a ↔ a ∈ inorder tree ∧ key m a = daddr := by
  have hmem : ∀ {x}, x ∈ inorder t → x ∈ inorder tree := by
    intro x hx
    rw [← h.plug_eq, inorder_plug]
    simp [hx]
  constructor
  · intro hroot
    cases t with
    | nil => simp at hroot
    | node b l r =>
      obtain rfl : b = a := by simpa [root?] using hroot
      exact ⟨hmem (by simp [inorder]), h.found b l r rfl⟩
  · rintro ⟨ha, rfl⟩
    have hin : a ∈ inorder t := by
      have ha' := ha
      rw [← h.plug_eq, inorder_plug, List.mem_append, List.mem_append] at ha'
      rcases ha' with (hbefore | hin) | hafter
      · exact absurd (h.bounds.1 a hbefore) (lt_irrefl _)
      · exact hin
      · exact absurd (h.bounds.2 a hafter) (lt_irrefl _)
    cases t with
    | nil => simp [inorder] at hin
    | node b l r =>
      have hb : b ∈ inorder tree := hmem (by simp [inorder])
      rw [root?, List.inj_on_of_nodup_map hsorted.nodup hb ha (h.found b l r rfl)]

section Lookups
variable {m : Mem A}

lemma lookup_spec (hinv : PoolInv m t) (daddr : Daddr) :
    ∃ p, lookup m daddr = some p ∧ ∀ a, p = some a ↔ a ∈ inorder t ∧ key m a = daddr := by
  have hctx : RepCtx m [] (root? t) := hinv.root
  have hspec : LookupSpec m daddr false t (lookupLoop m daddr false [] (root? t)) :=
    lookupLoop_spec hctx hinv.rep hinv.sorted ⟨by simp [before], by simp [after]⟩ (by simp)
  obtain ⟨-, hrecord, -⟩ | ⟨stack, ctx, t', hloop, hsought, -⟩ := hspec
  · exact absurd hrecord (by simp)
  · refine ⟨root? t', ?_, fun a => hsought.root?_eq_some hinv.sorted⟩
    rw [lookup, hinv.root, hloop]
    rfl

lemma lookupStack_spec (hinv : PoolInv m t) (daddr : Daddr) :
    (lookupStack m daddr = none ∧ peerMaxDepth ≤ t.height) ∨
      ∃ ctx t', lookupStack m daddr = some (slots ctx, root? t') ∧ Sought m daddr t ctx t' := by
  have hstart : lookupStack m daddr = lookupLoop m daddr true (slots []) (root? t) := by
    rw [← hinv.root]
    rfl
  rw [hstart]
  have hctx : RepCtx m [] (root? t) := hinv.root
  have hspec : LookupSpec m daddr true t (lookupLoop m daddr true (slots []) (root? t)) :=
    lookupLoop_spec hctx hinv.rep hinv.sorted ⟨by simp [before], by simp [after]⟩ (fun _ => rfl)
  obtain ⟨hloop, -, hhigh⟩ | ⟨stack, ctx, t', hloop, hsought, hstack⟩ := hspec
  · exact .inl ⟨hloop, hhigh⟩
  · exact .inr ⟨ctx, t', hstack rfl ▸ hloop, hsought⟩

lemma rightemptyLoop_spec (ctx : List (Frame A)) (ht : Rep m t) (hne : t ≠ nil) :
    (rightemptyLoop m (slots ctx) (root? t) = none ∧ peerMaxDepth ≤ (plug ctx t).height) ∨
      ∃ inner x l, t = plug inner (node x l nil) ∧ after inner = [] ∧
        rightemptyLoop m (slots ctx) (root? t) = some (slots (inner ++ ctx), some x) := by
  induction t generalizing ctx with
  | nil => exact absurd rfl hne
  | node a l r ihl ihr =>
    obtain ⟨-, hright, -, -, hr⟩ := ht
    rw [rightemptyLoop_eq, rightemptyRound, show root? (node a l r) = some a from rfl, hright]
    by_cases hempty : r = nil
    · subst hempty
      exact .inr ⟨[], a, l, rfl, rfl, rfl⟩
    · have hroot : root? r ≠ none := by cases r <;> simp [root?] at hempty ⊢
      rw [if_neg hroot]
      rcases push_slots ⟨.right, a, l⟩ a l r ctx with hpush | ⟨hpush, hhigh⟩
      · dsimp only [slotIn] at hpush
        simp only [hpush, Option.map_some, Option.bind_some, Loops.Round.elim, Mem.deref, Node.child,
          hright]
        rcases ihr (⟨.right, a, l⟩ :: ctx) hr hempty with
          hnone | ⟨inner, x, l', hr', hafter, hloop⟩
        · exact .inl hnone
        · refine .inr ⟨inner ++ [⟨.right, a, l⟩], x, l', ?_, ?_, ?_⟩
          · rw [plug_append, ← hr']
            rfl
          · rw [after_append, hafter]
            rfl
          · rw [List.append_assoc, List.singleton_append, ← hloop]
      · dsimp only [slotIn] at hpush
        simp only [hpush]
        exact .inl ⟨rfl, hhigh⟩

lemma lookupRightempty_spec (ctx : List (Frame A)) {l r : BinaryTree A}
    (hleft : (m.node a).avlLeft = root? l) (hl : Rep m l) (hne : l ≠ nil) :
    (lookupRightempty m (slots ctx) a = none ∧ peerMaxDepth ≤ (plug ctx (node a l r)).height) ∨
      ∃ inner x l', l = plug inner (node x l' nil) ∧ after inner = [] ∧
        lookupRightempty m (slots ctx) a =
          some (slots (inner ++ ⟨.left, a, r⟩ :: ctx), some x) := by
  rw [lookupRightempty]
  rcases push_slots ⟨.left, a, r⟩ a l r ctx with hpush | ⟨hpush, hhigh⟩
  · dsimp only [slotIn] at hpush
    simp only [hpush, Option.bind_some, Mem.deref, Node.child, hleft]
    exact rightemptyLoop_spec (⟨.left, a, r⟩ :: ctx) hl hne
  · dsimp only [slotIn] at hpush
    simp only [hpush]
    exact .inl ⟨rfl, hhigh⟩

end Lookups

end BooxKernel.InetPeer
