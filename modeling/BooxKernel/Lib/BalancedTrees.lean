import BooxKernel.Lib.ColoredTrees

/-!
# Height-balanced trees with a hole

Binary trees whose subtrees differ in height by at most 1 at every node, and contexts: trees
with one hole, written from the hole up to the root. A rotation repairs a node whose subtrees
differ by 2. What comes in two mirrored halves is stated once, for a side `d`.
-/
namespace BooxKernel.BalancedTrees
open Nat

open ColoredTrees (Side)
open BinaryTree (nil node)

variable {α : Type*}

/-- A node by its subtree on the side `d` and the one on the other side. -/
def bin (d : Side) (a : α) (near far : BinaryTree α) : BinaryTree α :=
  match d with
  | .left => node a near far
  | .right => node a far near

def root? : BinaryTree α → Option α
  | nil => none
  | node a _ _ => some a

def inorder : BinaryTree α → List α
  | nil => []
  | node a l r => inorder l ++ a :: inorder r

variable {d : Side} {a b : α} {s t u : BinaryTree α}

lemma bin_opp (d : Side) (a : α) (s t : BinaryTree α) : bin d.opp a s t = bin d a t s := by
  cases d <;> rfl

lemma eq_nil_or_bin (d : Side) (t : BinaryTree α) : t = nil ∨ ∃ a s u, t = bin d a s u := by
  cases t with
  | nil => exact .inl rfl
  | node a l r =>
    cases d with
    | left => exact .inr ⟨a, l, r, rfl⟩
    | right => exact .inr ⟨a, r, l, rfl⟩

@[simp] lemma root?_nil : root? (nil : BinaryTree α) = none := rfl

@[simp] lemma root?_bin : root? (bin d a s t) = some a := by cases d <;> rfl

@[simp] lemma height_bin : (bin d a s t).height = max s.height t.height + 1 := by
  cases d with
  | left => rfl
  | right => exact congrArg (· + 1) (max_comm _ _)

@[simp] lemma mem_inorder_bin :
    b ∈ inorder (bin d a s t) ↔ b = a ∨ b ∈ inorder s ∨ b ∈ inorder t := by
  cases d <;> simp [bin, inorder] <;> tauto

lemma inorder_bin_perm (d : Side) (a : α) (s t : BinaryTree α) :
    (inorder (bin d a s t)).Perm (a :: (inorder s ++ inorder t)) := by
  cases d with
  | left => exact List.perm_middle
  | right => exact List.perm_middle.trans (List.perm_append_comm.cons a)

lemma nodup_inorder_bin :
    (inorder (bin d a s t)).Nodup ↔
      (a ∉ inorder s ∧ a ∉ inorder t) ∧ (inorder s).Nodup ∧ (inorder t).Nodup ∧
        ∀ b ∈ inorder s, b ∉ inorder t := by
  rw [(inorder_bin_perm d a s t).nodup_iff, List.nodup_cons, List.nodup_append', List.mem_append,
    not_or]
  rfl

lemma length_inorder (t : BinaryTree α) : (inorder t).length = t.numNodes := by
  induction t with
  | nil => rfl
  | node a l r ihl ihr => simp [inorder, ihl, ihr, add_assoc]

/-! ## Contexts -/

/-- A node of which the subtree on the side `side` is missing. -/
structure Frame (α : Type*) where
  side : Side
  elem : α
  sibling : BinaryTree α

def Frame.fill (f : Frame α) (t : BinaryTree α) : BinaryTree α := bin f.side f.elem t f.sibling

/-- Fills the hole of a context, whose frames come from the hole upwards. -/
def plug : List (Frame α) → BinaryTree α → BinaryTree α
  | [], t => t
  | f :: ctx, t => plug ctx (f.fill t)

/-- The elements of a context. -/
def elems (ctx : List (Frame α)) : List α := inorder (plug ctx nil)

/-- The elements of a context that come before its hole in the order. -/
def before : List (Frame α) → List α
  | [] => []
  | f :: ctx =>
    match f.side with
    | .left => before ctx
    | .right => before ctx ++ inorder f.sibling ++ [f.elem]

/-- The elements of a context that come after its hole in the order. -/
def after : List (Frame α) → List α
  | [] => []
  | f :: ctx =>
    match f.side with
    | .left => f.elem :: inorder f.sibling ++ after ctx
    | .right => after ctx

variable {ctx : List (Frame α)} {f : Frame α} {outer inner left right : BinaryTree α}

@[simp] lemma plug_nil (t : BinaryTree α) : plug [] t = t := rfl

@[simp] lemma plug_cons (f : Frame α) (ctx : List (Frame α)) (t : BinaryTree α) :
    plug (f :: ctx) t = plug ctx (f.fill t) := rfl

section
variable (inner outer : List (Frame α))

lemma plug_append (t : BinaryTree α) : plug (inner ++ outer) t = plug outer (plug inner t) := by
  induction inner generalizing t with
  | nil => rfl
  | cons f inner ih => exact ih _

section
variable (ctx : List (Frame α)) (t : BinaryTree α)

lemma inorder_plug : inorder (plug ctx t) = before ctx ++ inorder t ++ after ctx := by
  induction ctx generalizing t with
  | nil => simp [before, after]
  | cons f ctx ih =>
    rw [plug_cons, ih, Frame.fill]
    cases hd : f.side <;> simp [before, after, hd, bin, inorder]

lemma after_append : after (inner ++ outer) = after inner ++ after outer := by
  induction inner with
  | nil => rfl
  | cons f inner ih => cases hd : f.side <;> simp [after, hd, ih]

lemma elems_eq : elems ctx = before ctx ++ after ctx := by
  simp [elems, inorder_plug, inorder]

lemma inorder_plug_perm : (inorder (plug ctx t)).Perm (inorder t ++ elems ctx) := by
  rw [inorder_plug, elems_eq, ← List.append_assoc]
  exact List.perm_append_comm.append_right (after ctx)

end

lemma mem_inorder_plug : a ∈ inorder (plug ctx t) ↔ a ∈ inorder t ∨ a ∈ elems ctx := by
  rw [(inorder_plug_perm ctx t).mem_iff, List.mem_append]

lemma nodup_inorder_plug :
    (inorder (plug ctx t)).Nodup ↔
      (inorder t).Nodup ∧ (elems ctx).Nodup ∧ ∀ a ∈ inorder t, a ∉ elems ctx := by
  rw [(inorder_plug_perm ctx t).nodup_iff, List.nodup_append']
  rfl

lemma mem_elems_cons :
    a ∈ elems (f :: ctx) ↔ a = f.elem ∨ a ∈ inorder f.sibling ∨ a ∈ elems ctx := by
  rw [elems, plug_cons, mem_inorder_plug, Frame.fill]
  simp [inorder, or_assoc]

lemma nodup_elems_cons :
    (elems (f :: ctx)).Nodup ↔
      (f.elem ∉ inorder f.sibling ∧ (inorder f.sibling).Nodup) ∧ (elems ctx).Nodup ∧
        f.elem ∉ elems ctx ∧ ∀ a ∈ inorder f.sibling, a ∉ elems ctx := by
  rw [elems, plug_cons, nodup_inorder_plug, Frame.fill, nodup_inorder_bin]
  simp [inorder]

/-! ## Balance -/

/-- Two heights differ by at most 1. -/
def Close (m n : ℕ) : Prop := m ≤ n + 1 ∧ n ≤ m + 1

/-- The heights of the subtrees of each node differ by at most 1. -/
def Avl : BinaryTree α → Prop
  | nil => True
  | node _ l r => Avl l ∧ Avl r ∧ Close l.height r.height

@[simp] lemma avl_bin : Avl (bin d a s t) ↔ Avl s ∧ Avl t ∧ Close s.height t.height := by
  cases d with
  | left => exact Iff.rfl
  | right =>
    simp only [bin, Avl, Close]
    tauto

/-- The height that a context comes to with a subtree of height `h` in its hole. -/
def ctxHeight : List (Frame α) → ℕ → ℕ
  | [], h => h
  | f :: ctx, h => ctxHeight ctx (max h f.sibling.height + 1)

/-- A balanced subtree of height `h` may fill the hole. -/
def AvlCtx : List (Frame α) → ℕ → Prop
  | [], _ => True
  | f :: ctx, h =>
    Avl f.sibling ∧ Close h f.sibling.height ∧ AvlCtx ctx (max h f.sibling.height + 1)

section
variable (ctx : List (Frame α)) (t : BinaryTree α)

lemma height_plug : (plug ctx t).height = ctxHeight ctx t.height := by
  induction ctx generalizing t with
  | nil => rfl
  | cons f ctx ih => rw [plug_cons, ih, Frame.fill, height_bin, ctxHeight]

lemma le_ctxHeight (h : ℕ) : h ≤ ctxHeight ctx h := by
  induction ctx generalizing h with
  | nil => exact le_rfl
  | cons f ctx ih => exact (by omega : h ≤ max h f.sibling.height + 1).trans (ih _)

lemma length_add_le_ctxHeight (h : ℕ) : ctx.length + h ≤ ctxHeight ctx h := by
  induction ctx generalizing h with
  | nil => simp [ctxHeight]
  | cons f ctx ih =>
    have hstep := ih (max h f.sibling.height + 1)
    rw [List.length_cons, ctxHeight]
    omega

lemma avl_plug : Avl (plug ctx t) ↔ Avl t ∧ AvlCtx ctx t.height := by
  induction ctx generalizing t with
  | nil => simp [AvlCtx]
  | cons f ctx ih =>
    rw [plug_cons, ih, Frame.fill, avl_bin, height_bin, AvlCtx]
    tauto

end

lemma ctxHeight_append (h : ℕ) :
    ctxHeight (inner ++ outer) h = ctxHeight outer (ctxHeight inner h) := by
  induction inner generalizing h with
  | nil => rfl
  | cons f inner ih => exact ih _

lemma avlCtx_append (h : ℕ) :
    AvlCtx (inner ++ outer) h ↔ AvlCtx inner h ∧ AvlCtx outer (ctxHeight inner h) := by
  induction inner generalizing h with
  | nil => simp [AvlCtx, ctxHeight]
  | cons f inner ih =>
    simp only [List.cons_append, AvlCtx, ctxHeight, ih]
    tauto

end

/-- What a node may become whose subtrees differ in height by at most 2. -/
structure Rebalanced (d : Side) (a : α) (s t result : BinaryTree α) : Prop where
  order : inorder result = inorder (bin d a s t)
  avl : Avl result
  high : result.height ≤ max s.height t.height + 1
  low : max s.height t.height ≤ result.height
  same : Close s.height t.height → result.height = max s.height t.height + 1

lemma Rebalanced.opp (h : Rebalanced d.opp a t s u) : Rebalanced d a s t u := by
  have hmax := max_comm s.height t.height
  refine ⟨h.order.trans (by rw [bin_opp]), h.avl, hmax ▸ h.high, hmax ▸ h.low, fun hclose => ?_⟩
  rw [hmax]
  exact h.same ⟨hclose.2, hclose.1⟩

lemma rebalanced_self (hs : Avl s) (ht : Avl t) (hclose : Close s.height t.height) :
    Rebalanced d a s t (bin d a s t) :=
  ⟨rfl, avl_bin.2 ⟨hs, ht, hclose⟩, by simp, by simp, fun _ => by simp⟩

lemma rebalanced_single (hnear : Avl (bin d b outer inner)) (hfar : Avl t)
    (hhigh : (bin d b outer inner).height = t.height + 2) (hinner : inner.height ≤ outer.height) :
    Rebalanced d a (bin d b outer inner) t (bin d b outer (bin d a inner t)) := by
  obtain ⟨houter, hinner', hclose⟩ := avl_bin.1 hnear
  rw [height_bin] at hhigh
  unfold Close at hclose
  refine ⟨?_, ?_, ?_, ?_, ?_⟩
  · cases d <;> simp [bin, inorder]
  · simp only [avl_bin, height_bin, Close]
    exact ⟨houter, ⟨hinner', hfar, by omega, by omega⟩, by omega, by omega⟩
  all_goals
    simp only [height_bin, Close]
    omega

lemma rebalanced_double {c : α} (hnear : Avl (bin d b outer (bin d c left right))) (hfar : Avl t)
    (hhigh : (bin d b outer (bin d c left right)).height = t.height + 2)
    (hinner : outer.height < (bin d c left right).height) :
    Rebalanced d a (bin d b outer (bin d c left right)) t
      (bin d c (bin d b outer left) (bin d a right t)) := by
  obtain ⟨houter, hinner', hclose⟩ := avl_bin.1 hnear
  obtain ⟨hleft, hright, hclose'⟩ := avl_bin.1 hinner'
  simp only [height_bin] at hhigh hinner hclose
  unfold Close at hclose hclose'
  refine ⟨?_, ?_, ?_, ?_, ?_⟩
  · cases d <;> simp [bin, inorder]
  · simp only [avl_bin, height_bin, Close]
    exact ⟨⟨houter, hleft, by omega, by omega⟩, ⟨hright, hfar, by omega, by omega⟩, by omega,
      by omega⟩
  all_goals
    simp only [height_bin, Close]
    omega

/-- When a subtree has changed its height by at most 1, so has the node above it. -/
lemma Rebalanced.close {h : ℕ} (hre : Rebalanced d a s t u) (hs : Close s.height h)
    (ht : Close h t.height) : Close u.height (max h t.height + 1) := by
  obtain ⟨-, -, hhigh, hlow, hsame⟩ := hre
  unfold Close at *
  omega

lemma fib_le_of_subtrees (hheight : s.height ≤ t.height + 1)
    (hs : Nat.fib (s.height + 2) ≤ s.numNodes + 1) (ht : Nat.fib (t.height + 2) ≤ t.numNodes + 1) :
    Nat.fib (s.height + 1 + 2) ≤ s.numNodes + t.numNodes + 1 + 1 := by
  have hmono : fib (s.height + 1) ≤ fib (t.height + 2) := fib_mono (by omega)
  have hfib : fib (s.height + 1 + 2) = fib (s.height + 1) + fib (s.height + 2) :=
    fib_add_two
  omega

/-- A balanced tree has at least as many nodes as the thinnest one of its height. -/
lemma fib_le_numNodes (h : Avl t) : Nat.fib (t.height + 2) ≤ t.numNodes + 1 := by
  induction t with
  | nil => simp
  | node a l r ihl ihr =>
    obtain ⟨hl, hr, hclose⟩ := h
    simp only [BinaryTree.height, BinaryTree.numNodes]
    rcases le_total r.height l.height with hle | hle
    · rw [max_eq_left hle]
      exact fib_le_of_subtrees hclose.1 (ihl hl) (ihr hr)
    · rw [max_eq_right hle, add_comm l.numNodes]
      exact fib_le_of_subtrees hclose.2 (ihr hr) (ihl hl)

lemma height_lt {n h : ℕ} (ht : Avl t) (hsize : t.numNodes < n) (hfib : n < Nat.fib (h + 2)) :
    t.height < h := by
  by_contra hle
  have hmono : fib (h + 2) ≤ fib (t.height + 2) := fib_mono (by omega)
  have := fib_le_numNodes ht
  omega

end BooxKernel.BalancedTrees
