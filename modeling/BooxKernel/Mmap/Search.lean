import BooxKernel.Lib.Chains
import BooxKernel.Mmap.Regions
import BooxKernel.Rbtree.Runs

/-!
# The list and the tree of areas

A well-formed address space has its areas in the order of their addresses in the list and in
the tree. Each search finds the place of an address between those areas that end at or below
it and those that end above it.
-/
namespace BooxKernel.Mmap

open Chains ColoredTrees Rbtree ColorTree
open List hiding after

variable {c : Config} {K : Kinds} {V : Type} {mm mm' : Mm c K V} {v w : V} {vs xs ys : List V}
  {addr : ℕ}

def Mm.region (mm : Mm c K V) (v : V) : Region c K.File := (mm.area v).toRegion

/-- What the areas `vs` map. -/
def Mm.regions (mm : Mm c K V) (vs : List V) : List (Region c K.File) := vs.map mm.region

/-- The tree is a red-black tree of the areas `vs`, in this order. -/
def InOrder (rb : Rbtree.Mem V) (vs : List V) : Prop :=
  ∃ t, Holds rb t ∧ t.inorder = vs ∧ ∃ k, Balanced t .black k

/-- The list and the tree of the address space hold the areas `vs` in this order. -/
structure Linked (mm : Mm c K V) (vs : List V) : Prop where
  chain : Chain mm.vmNext mm.mmap vs none
  tree : InOrder mm.rb vs
  count : mm.mapCount = vs.length
  cache : ∀ v, mm.mmapCache = some v → v ∈ vs

/-- The areas of the address space are `vs`. -/
structure WellFormed (mm : Mm c K V) (vs : List V) : Prop extends Linked mm vs where
  sorted : Sorted (mm.regions vs)

namespace Linked

lemma nodup (h : Linked mm vs) : vs.Nodup := by
  obtain ⟨t, ht, rfl, -⟩ := h.tree
  exact ht.nodup

lemma vmNext_eq (h : Linked mm (xs ++ v :: ys)) : mm.vmNext v = ys.head? := by
  obtain ⟨r, -, -, hchain⟩ := chain_append.1 h.chain
  simpa using hchain.head_eq

lemma mmap_eq (h : Linked mm vs) : mm.mmap = vs.head? := by
  simpa using h.chain.head_eq

end Linked

namespace WellFormed

lemma ok (h : WellFormed mm vs) (hv : v ∈ vs) : (mm.area v).Ok :=
  h.sorted.ok _ (mem_map.2 ⟨v, hv, rfl⟩)

lemma apart (h : WellFormed mm vs) :
    vs.Pairwise fun v w => (mm.area v).vmEnd ≤ (mm.area w).vmStart :=
  pairwise_map.1 h.sorted.apart

end WellFormed

/-- The place of `addr`: the areas `xs` end at or below it and the areas `ys` above it. -/
structure Split (mm : Mm c K V) (addr : ℕ) (xs ys : List V) : Prop where
  below : ∀ x ∈ xs, (mm.area x).vmEnd ≤ addr
  above : ∀ y ∈ ys, addr < (mm.area y).vmEnd

section
variable (h : WellFormed mm (xs ++ v :: ys))
include h

lemma WellFormed.apart_of_cons : ∀ y ∈ ys, (mm.area v).vmEnd ≤ (mm.area y).vmStart :=
  (pairwise_cons.1 (pairwise_append.1 h.apart).2.1).1

lemma WellFormed.above_of_cons (hv : addr < (mm.area v).vmEnd)
    : ∀ y ∈ v :: ys, addr < (mm.area y).vmEnd := by
  refine forall_mem_cons.2 ⟨hv, fun y hy => ?_⟩
  have hapart := h.apart_of_cons y hy
  have hlt := (h.ok (v := y) (by simp [hy])).lt
  omega

lemma WellFormed.below_of_append (hv : (mm.area v).vmStart ≤ addr)
    : ∀ x ∈ xs, (mm.area x).vmEnd ≤ addr := by
  intro x hx
  have hapart := (pairwise_append.1 h.apart).2.2 x hx v (by simp)
  omega

lemma WellFormed.start_le (hv : addr ≤ (mm.area v).vmStart)
    : ∀ y ∈ v :: ys, addr ≤ (mm.area y).vmStart := by
  refine forall_mem_cons.2 ⟨hv, fun y hy => ?_⟩
  have hapart := h.apart_of_cons y hy
  have hlt := (h.ok (v := v) (by simp)).lt
  omega

end

/-- A machine with 32 address bits. -/
def config32 : Config := ⟨32, 12, 21, 0xbf000000, 65536, by norm_num⟩

/-- One area of three pages. -/
def threePages : Mm config32 ⟨Unit, Unit, Unit⟩ ℕ where
  area := fun _ => ⟨⟨0x1000, 0x4000, 0, none, 1⟩, false, (), none⟩
  vmNext := fun _ => none
  rb := ⟨fun _ => ⟨none, .black, none, none⟩, some 0⟩
  mmap := some 0
  mmapCache := none
  mapCount := 1
  totalVm := 3
  lockedVm := 0

lemma threePages_wellFormed : WellFormed threePages [0] where
  chain := ⟨rfl, rfl⟩
  tree := ⟨.node .black .nil 0 .nil, ⟨⟨rfl, trivial, trivial⟩, rfl, by simp [inorder]⟩,
    rfl, 1, .black .nil .nil⟩
  count := rfl
  cache := by simp [threePages]
  sorted := by
    refine sorted_cons.2 ⟨⟨?_, ?_, ?_, ?_⟩, Sorted.nil, by simp⟩ <;> decide

section Search

variable {t l r : ColorTree V} {col : Color} {ctx : List (Frame V)}

lemma inorder_plug_node (ctx : List (Frame V)) :
    (plug ctx (.node col l v r)).inorder =
      (before ctx ++ l.inorder) ++ v :: (r.inorder ++ after ctx) := by
  simp [inorder_plug, inorder]

section
variable (hsplit : Split mm addr (before ctx) (after ctx))
    (h : WellFormed mm (plug ctx (.node col l v r)).inorder)
include hsplit h

lemma Split.left (haddr : addr < (mm.area v).vmEnd) :
    Split mm addr (before (⟨.left, col, v, r⟩ :: ctx)) (after (⟨.left, col, v, r⟩ :: ctx)) := by
  rw [inorder_plug_node] at h
  exact ⟨hsplit.below, h.above_of_cons haddr⟩

lemma Split.right (haddr : ¬addr < (mm.area v).vmEnd) :
    Split mm addr (before (⟨.right, col, v, l⟩ :: ctx)) (after (⟨.right, col, v, l⟩ :: ctx)) := by
  rw [inorder_plug_node] at h
  have hlt := (h.ok (v := v) (by simp)).lt
  exact ⟨forall_mem_append.2 ⟨h.below_of_append (by omega), forall_mem_singleton.2 (not_lt.1 haddr)⟩,
    hsplit.above⟩

end

section
variable (ctx : List (Frame V))

lemma linkOf_deref (hrb : Holds mm.rb (plug ctx t)) : (linkOf ctx).deref mm.rb = t.root? := by
  obtain ⟨⟨hctx, -⟩, -⟩ := holds_plug.1 hrb
  cases ctx with
  | nil => exact hctx
  | cons f ctx => rw [linkOf, Link.deref, hctx.1, Node.sided_child]

section
variable (h : WellFormed mm (plug ctx t).inorder)
    (hrb : Holds mm.rb (plug ctx t)) (hsplit : Split mm addr (before ctx) (after ctx))
include h hrb hsplit

lemma findVmaLoop_spec :
    ∃ xs ys, (plug ctx t).inorder = xs ++ ys ∧ Split mm addr xs ys ∧
      findVmaLoop mm addr t.root? (after ctx).head? = some ys.head? := by
  induction t generalizing ctx with
  | nil =>
    refine ⟨before ctx, after ctx, by simp [inorder_plug, inorder], hsplit, ?_⟩
    rw [findVmaLoop_eq]
    rfl
  | node col l a r ihl ihr =>
    have ha := hrb.node_eq (d := .left) ctx
    rw [root?, findVmaLoop_eq, findVmaRound]
    by_cases haddr : addr < (mm.area a).vmEnd
    · by_cases hstart : (mm.area a).vmStart ≤ addr
      · refine ⟨_, _, inorder_plug_node ctx, ⟨?_, (hsplit.left h haddr).above⟩, ?_⟩
        · rw [inorder_plug_node] at h
          exact h.below_of_append hstart
        · simp [haddr, hstart]
      · have hinner := ihl (⟨.left, col, a, r⟩ :: ctx) h hrb (hsplit.left h haddr)
        simpa [haddr, hstart, ha, Node.sided, after, Frame.fill, bin]
          using hinner
    · have hinner := ihr (⟨.right, col, a, l⟩ :: ctx) h hrb (hsplit.right h haddr)
      simpa [haddr, ha, Node.sided, after, Frame.fill, bin] using hinner

lemma findVmaPrevLoop_spec :
    ∃ xs ys, (plug ctx t).inorder = xs ++ ys ∧ Split mm addr xs ys ∧
      findVmaPrevLoop mm addr t.root? (before ctx).getLast? = some xs.getLast? := by
  induction t generalizing ctx with
  | nil =>
    refine ⟨before ctx, after ctx, by simp [inorder_plug, inorder], hsplit, ?_⟩
    rw [findVmaPrevLoop_eq]
    rfl
  | node col l a r ihl ihr =>
    have ha := hrb.node_eq (d := .left) ctx
    have horder : (plug ctx (.node col l a r)).inorder = _ := inorder_plug_node ctx
    rw [root?, findVmaPrevLoop_eq, findVmaPrevRound]
    by_cases haddr : addr < (mm.area a).vmEnd
    · have hinner := ihl (⟨.left, col, a, r⟩ :: ctx) h hrb (hsplit.left h haddr)
      simpa [haddr, ha, Node.sided, before, Frame.fill, bin] using hinner
    · have hbelow := (hsplit.right h haddr).below
      have hnext := (horder ▸ h).vmNext_eq
      have horder' : (plug ctx (.node col l a r)).inorder =
          (before ctx ++ l.inorder ++ [a]) ++ (r.inorder ++ after ctx) := by simp [horder]
      cases hrest : r.inorder ++ after ctx with
      | nil =>
        refine ⟨_, _, horder', ⟨hbelow, by simp [hrest]⟩, ?_⟩
        rw [hrest] at hnext
        simp [haddr, hnext]
      | cons b rest =>
        rw [hrest] at hnext
        by_cases hb : addr < (mm.area b).vmEnd
        · refine ⟨_, _, horder', ⟨hbelow, ?_⟩, by simp [haddr, hnext, hb]⟩
          rw [horder', hrest] at h
          rw [hrest]
          exact h.above_of_cons hb
        · have hinner := ihr (⟨.right, col, a, l⟩ :: ctx) h hrb (hsplit.right h haddr)
          simpa [haddr, hnext, hb, ha, Node.sided, before, Frame.fill, bin] using hinner

lemma findVmaPrepareLoop_spec
    (hfree : ∀ v ∈ (plug ctx t).inorder, addr < (mm.area v).vmEnd → addr < (mm.area v).vmStart) :
    ∃ ctx', plug ctx t = plug ctx' .nil ∧ Split mm addr (before ctx') (after ctx') ∧
      findVmaPrepareLoop mm addr (linkOf ctx) (above ctx) (before ctx).getLast? (after ctx).head? =
        some (.place (after ctx').head? (before ctx').getLast? (linkOf ctx') (above ctx')) := by
  induction t generalizing ctx with
  | nil =>
    refine ⟨ctx, rfl, hsplit, ?_⟩
    rw [findVmaPrepareLoop_eq, findVmaPrepareRound, linkOf_deref ctx hrb]
    rfl
  | node col l a r ihl ihr =>
    rw [findVmaPrepareLoop_eq, findVmaPrepareRound, linkOf_deref ctx hrb]
    by_cases haddr : addr < (mm.area a).vmEnd
    · have hstart : ¬(mm.area a).vmStart ≤ addr := by
        have hlt := hfree a (mem_inorder_plug.2 (.inl (by simp [inorder]))) haddr
        omega
      have hinner := ihl (⟨.left, col, a, r⟩ :: ctx) h hrb (hsplit.left h haddr) hfree
      simpa [haddr, hstart, root?, before, after, linkOf, Frame.fill, bin]
        using hinner
    · have hinner := ihr (⟨.right, col, a, l⟩ :: ctx) h hrb (hsplit.right h haddr) hfree
      simpa [haddr, root?, before, after, linkOf, Frame.fill, bin] using hinner

end

lemma findVma_spec (h : WellFormed mm vs) (addr : ℕ) :
    ∃ xs ys cache, vs = xs ++ ys ∧ Split mm addr xs ys ∧ (∀ v, cache = some v → v ∈ vs) ∧
      findVma addr mm = some (ys.head?, { mm with mmapCache := cache }) := by
  rw [findVma]
  cases hhit : mm.mmapCache.filter fun vma =>
      addr < (mm.area vma).vmEnd ∧ (mm.area vma).vmStart ≤ addr with
  | some vma =>
    obtain ⟨hcache, htest⟩ := Option.filter_eq_some_iff.1 hhit
    obtain ⟨hend, hstart⟩ : addr < (mm.area vma).vmEnd ∧ (mm.area vma).vmStart ≤ addr := by
      simpa using htest
    obtain ⟨xs, ys, rfl⟩ := append_of_mem (h.cache vma hcache)
    exact ⟨xs, vma :: ys, mm.mmapCache, rfl, ⟨h.below_of_append hstart, h.above_of_cons hend⟩,
      h.cache, rfl⟩
  | none =>
    obtain ⟨t, hrb, rfl, -⟩ := h.tree
    obtain ⟨xs, ys, horder, hsplit, hloop⟩ :=
      findVmaLoop_spec [] h hrb ⟨by simp [before], by simp [after]⟩
    rw [plug_nil] at horder
    refine ⟨xs, ys, ys.head?.or mm.mmapCache, horder, hsplit, fun v hv => ?_, ?_⟩
    · rcases Option.or_eq_some_iff.1 hv with hv | ⟨-, hv⟩
      · rw [horder]
        exact mem_append_right _ (mem_of_head? hv)
      · exact h.cache v hv
    · rw [hrb.root]
      simp only [after, head?_nil] at hloop
      simp [hloop]

lemma findVmaPrev_spec (h : WellFormed mm vs) (addr : ℕ) :
    ∃ xs ys, vs = xs ++ ys ∧ Split mm addr xs ys ∧
      findVmaPrev mm addr = some (ys.head?, xs.getLast?) := by
  obtain ⟨t, hrb, rfl, -⟩ := h.tree
  obtain ⟨xs, ys, horder, hsplit, hloop⟩ :=
    findVmaPrevLoop_spec [] h hrb ⟨by simp [before], by simp [after]⟩
  rw [plug_nil] at horder
  refine ⟨xs, ys, horder, hsplit, ?_⟩
  simp only [before, List.getLast?_nil] at hloop
  rw [horder] at h
  rcases xs.eq_nil_or_concat' with rfl | ⟨xs, x, rfl⟩
  · simpa [findVmaPrev, hrb.root, hloop] using h.mmap_eq
  · rw [append_assoc] at h
    simpa [findVmaPrev, hrb.root, hloop] using h.vmNext_eq

end

end Search

end BooxKernel.Mmap
