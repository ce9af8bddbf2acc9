import Mathlib.Tactic

/-!
# Red-black trees with a hole

Binary trees with coloured nodes, and contexts: trees with one hole, written from the hole
up to the root. `Balanced` is the red-black invariant of a tree and `Hole` that of a context.
Everything that comes in two mirrored halves is stated once, for a side `d`.
-/
namespace BooxKernel.ColoredTrees
open List

inductive Color
  | red
  | black
  deriving DecidableEq, Repr

inductive Side
  | left
  | right
  deriving DecidableEq, Repr

namespace Side

def opp : Side → Side
  | left => right
  | right => left

@[simp] lemma opp_opp (d : Side) : d.opp.opp = d := by cases d <;> rfl

lemma eq_or_eq_opp (d e : Side) : e = d ∨ e = d.opp := by cases d <;> cases e <;> simp [opp]

end Side

inductive ColorTree (α : Type*)
  | nil
  | node (color : Color) (left : ColorTree α) (elem : α) (right : ColorTree α)

variable {α : Type*}

namespace ColorTree

/-- A node by its subtree on the side `d` and the one on the other side. -/
def bin (d : Side) (c : Color) (a : α) (near far : ColorTree α) : ColorTree α :=
  match d with
  | .left => node c near a far
  | .right => node c far a near

def root? : ColorTree α → Option α
  | nil => none
  | node _ _ a _ => some a

/-- Nothing counts as black. -/
def color : ColorTree α → Color
  | nil => .black
  | node c _ _ _ => c

def inorder : ColorTree α → List α
  | nil => []
  | node _ l a r => l.inorder ++ a :: r.inorder

/-- The colours along each path from the root to an empty subtree. -/
def paths : ColorTree α → List (List Color)
  | nil => [[]]
  | node c l _ r => (l.paths ++ r.paths).map (c :: ·)

def blacken : ColorTree α → ColorTree α
  | nil => nil
  | node _ l a r => node .black l a r

variable {d : Side} {c : Color} {a b : α} {s t : ColorTree α}

lemma bin_opp (d : Side) (c : Color) (a : α) (s t : ColorTree α) :
    bin d.opp c a s t = bin d c a t s := by
  cases d <;> rfl

lemma eq_nil_or_bin (d : Side) (t : ColorTree α) : t = nil ∨ ∃ c a s u, t = bin d c a s u := by
  cases t with
  | nil => exact .inl rfl
  | node c l a r =>
    cases d with
    | left => exact .inr ⟨c, a, l, r, rfl⟩
    | right => exact .inr ⟨c, a, r, l, rfl⟩

@[simp] lemma root?_nil : (nil : ColorTree α).root? = none := rfl

@[simp] lemma root?_bin : (bin d c a s t).root? = some a := by cases d <;> rfl

@[simp] lemma root?_eq_none : t.root? = none ↔ t = nil := by cases t <;> simp [root?]

@[simp] lemma inorder_eq_nil : t.inorder = [] ↔ t = nil := by cases t <;> simp [inorder]

@[simp] lemma color_bin : (bin d c a s t).color = c := by cases d <;> rfl

@[simp] lemma blacken_bin : (bin d c a s t).blacken = bin d .black a s t := by cases d <;> rfl

@[simp] lemma inorder_blacken : t.blacken.inorder = t.inorder := by cases t <;> rfl

@[simp] lemma mem_inorder_bin :
    b ∈ (bin d c a s t).inorder ↔ b = a ∨ b ∈ s.inorder ∨ b ∈ t.inorder := by
  cases d <;> simp [bin, inorder] <;> tauto

lemma inorder_bin_perm (d : Side) (c : Color) (a : α) (s t : ColorTree α) :
    (bin d c a s t).inorder.Perm (a :: (s.inorder ++ t.inorder)) := by
  cases d with
  | left => exact perm_middle
  | right => exact perm_middle.trans (perm_append_comm.cons a)

@[grind →] lemma mem_of_root? (h : t.root? = some a) : a ∈ t.inorder := by
  cases t with
  | nil => simp at h
  | node c l x r =>
    obtain rfl : x = a := by simpa [root?] using h
    simp [inorder]

lemma inorder_rotate (d : Side) (c1 c2 c3 c4 : Color) (x y : α) (s t u : ColorTree α) :
    (bin d c2 y (bin d c1 x s t) u).inorder = (bin d c3 x s (bin d c4 y t u)).inorder := by
  cases d <;> simp [bin, inorder]

lemma inorder_recolor (d : Side) (c1 c2 : Color) (a : α) (s t : ColorTree α) :
    (bin d c1 a s t).inorder = (bin d c2 a s t).inorder := by
  cases d <;> rfl

lemma inorder_bin_congr {s' t' : ColorTree α} (c' : Color) (hs : s.inorder = s'.inorder)
    (ht : t.inorder = t'.inorder) : (bin d c a s t).inorder = (bin d c' a s' t').inorder := by
  cases d <;> simp [bin, inorder, hs, ht]

end ColorTree

/-- A node of which the subtree on the side `side` is missing. -/
structure Frame (α : Type*) where
  side : Side
  color : Color
  elem : α
  sibling : ColorTree α

def Frame.fill (f : Frame α) (t : ColorTree α) : ColorTree α := .bin f.side f.color f.elem t f.sibling

/-- Fills the hole of a context, whose frames come from the hole upwards. -/
def plug : List (Frame α) → ColorTree α → ColorTree α
  | [], t => t
  | f :: ctx, t => plug ctx (f.fill t)

/-- The element right above the hole. -/
def above (ctx : List (Frame α)) : Option α := ctx.head?.map Frame.elem

/-- The elements of a context. -/
def elems (ctx : List (Frame α)) : List α := (plug ctx .nil).inorder

variable {ctx : List (Frame α)} {f : Frame α} {t : ColorTree α} {a : α} {d : Side} {c : Color}

@[simp] lemma plug_nil (t : ColorTree α) : plug [] t = t := rfl

@[simp] lemma plug_cons (f : Frame α) (ctx : List (Frame α)) (t : ColorTree α) :
    plug (f :: ctx) t = plug ctx (f.fill t) := rfl

lemma plug_append (inner outer : List (Frame α)) (t : ColorTree α) :
    plug (inner ++ outer) t = plug outer (plug inner t) := by
  induction inner generalizing t with
  | nil => rfl
  | cons f inner ih => exact ih _

@[simp] lemma above_nil : above ([] : List (Frame α)) = none := rfl

@[simp] lemma above_cons (f : Frame α) (ctx : List (Frame α)) : above (f :: ctx) = some f.elem :=
  rfl

lemma plug_sibling (d : Side) (c : Color) (a : α) (s t : ColorTree α) (ctx : List (Frame α)) :
    plug ctx (.bin d c a s t) = plug (⟨d.opp, c, a, s⟩ :: ctx) t := by
  simp [Frame.fill, ColorTree.bin_opp]

/-- The elements of a context that come before its hole in the order. -/
def before : List (Frame α) → List α
  | [] => []
  | f :: ctx =>
    match f.side with
    | .left => before ctx
    | .right => before ctx ++ f.sibling.inorder ++ [f.elem]

/-- The elements of a context that come after its hole in the order. -/
def after : List (Frame α) → List α
  | [] => []
  | f :: ctx =>
    match f.side with
    | .left => f.elem :: f.sibling.inorder ++ after ctx
    | .right => after ctx

section
variable (ctx : List (Frame α)) (t : ColorTree α)

lemma inorder_plug : (plug ctx t).inorder = before ctx ++ t.inorder ++ after ctx := by
  induction ctx generalizing t with
  | nil => simp [before, after]
  | cons f ctx ih =>
    rw [plug_cons, ih, Frame.fill]
    cases hd : f.side <;> simp [before, after, hd, ColorTree.bin, ColorTree.inorder]

lemma inorder_plug_congr {t t' : ColorTree α} (h : t.inorder = t'.inorder) :
    (plug ctx t).inorder = (plug ctx t').inorder := by
  rw [inorder_plug, inorder_plug, h]

lemma inorder_plug_perm : (plug ctx t).inorder.Perm (t.inorder ++ elems ctx) := by
  rw [elems, inorder_plug, inorder_plug]
  simpa [ColorTree.inorder, ← append_assoc] using perm_append_comm.append_right (after ctx)

end

lemma mem_inorder_plug : a ∈ (plug ctx t).inorder ↔ a ∈ t.inorder ∨ a ∈ elems ctx := by
  rw [(inorder_plug_perm ctx t).mem_iff, mem_append]

lemma nodup_inorder_plug :
    (plug ctx t).inorder.Nodup ↔
      t.inorder.Nodup ∧ (elems ctx).Nodup ∧ ∀ a ∈ t.inorder, a ∉ elems ctx := by
  rw [(inorder_plug_perm ctx t).nodup_iff, nodup_append']
  rfl

lemma mem_elems_cons :
    a ∈ elems (f :: ctx) ↔ a = f.elem ∨ a ∈ f.sibling.inorder ∨ a ∈ elems ctx := by
  rw [elems, plug_cons, mem_inorder_plug, Frame.fill]
  simp [ColorTree.inorder, or_assoc]

@[grind →] lemma mem_elems_of_above (h : above ctx = some a) : a ∈ elems ctx := by
  cases ctx with
  | nil => simp at h
  | cons f ctx =>
    obtain rfl : f.elem = a := by simpa using h
    exact mem_elems_cons.2 (.inl rfl)

lemma elem_mem_elems (h : f ∈ ctx) : f.elem ∈ elems ctx := by
  induction ctx with
  | nil => simp at h
  | cons g ctx ih =>
    rw [mem_elems_cons]
    rcases mem_cons.1 h with rfl | h
    · exact .inl rfl
    · exact .inr (.inr (ih h))

lemma nodup_inorder_bin {s : ColorTree α} :
    (ColorTree.bin d c a s t).inorder.Nodup ↔
      (a ∉ s.inorder ∧ a ∉ t.inorder) ∧ s.inorder.Nodup ∧ t.inorder.Nodup ∧
        ∀ b ∈ s.inorder, b ∉ t.inorder := by
  rw [(ColorTree.inorder_bin_perm d c a s t).nodup_iff, nodup_cons, nodup_append', mem_append,
    not_or]
  rfl

lemma nodup_elems_cons :
    (elems (f :: ctx)).Nodup ↔
      (f.elem ∉ f.sibling.inorder ∧ f.sibling.inorder.Nodup) ∧ (elems ctx).Nodup ∧
        f.elem ∉ elems ctx ∧ ∀ a ∈ f.sibling.inorder, a ∉ elems ctx := by
  rw [elems, plug_cons, nodup_inorder_plug, Frame.fill, nodup_inorder_bin]
  simp [ColorTree.inorder, elems]

lemma inorder_plug_node (l r : ColorTree α) : (plug ctx (.node c l a r)).inorder =
    (before ctx ++ l.inorder) ++ a :: (r.inorder ++ after ctx) := by
  simp [inorder_plug, ColorTree.inorder]

lemma inorder_plug_erase [DecidableEq α] {l r : ColorTree α}
    (hnodup : (plug ctx (.node c l a r)).inorder.Nodup) (h : t.inorder = l.inorder ++ r.inorder) :
    (plug ctx t).inorder = (plug ctx (.node c l a r)).inorder.erase a := by
  rw [inorder_plug_node] at hnodup ⊢
  have ha : a ∉ before ctx ++ l.inorder := fun hmem =>
    (nodup_cons.1 (nodup_middle.1 hnodup)).1 (mem_append_left _ hmem)
  rw [erase_append_right _ ha, inorder_plug, h]
  simp

lemma before_eq_nil (h : ∀ f ∈ ctx, f.side = .left) : before ctx = [] := by
  induction ctx with
  | nil => rfl
  | cons f ctx ih => simpa [before, h f] using ih fun g hg => h g (by simp [hg])

lemma exists_plug_of_mem (h : a ∈ t.inorder) : ∃ ctx c l r, t = plug ctx (.node c l a r) := by
  induction t with
  | nil => simp [ColorTree.inorder] at h
  | node c l x r ihl ihr =>
    rw [ColorTree.inorder, mem_append, mem_cons] at h
    rcases h with h | rfl | h
    · obtain ⟨ctx, c', l', r', rfl⟩ := ihl h
      exact ⟨ctx ++ [⟨.left, c, x, r⟩], c', l', r', by simp [plug_append, Frame.fill, ColorTree.bin]⟩
    · exact ⟨[], c, l, r, rfl⟩
    · obtain ⟨ctx, c', l', r', rfl⟩ := ihr h
      exact ⟨ctx ++ [⟨.right, c, x, l⟩], c', l', r', by simp [plug_append, Frame.fill, ColorTree.bin]⟩

lemma exists_plug_of_split {xs ys : List α} (hnodup : t.inorder.Nodup)
    (ht : t.inorder = xs ++ a :: ys) :
    ∃ ctx c l r, t = plug ctx (.node c l a r) ∧ xs = before ctx ++ l.inorder ∧
      ys = r.inorder ++ after ctx := by
  obtain ⟨ctx, c, l, r, rfl⟩ := exists_plug_of_mem (t := t) (a := a) (by simp [ht])
  have hsplit := ht.symm.trans (inorder_plug_node l r)
  rw [ht] at hnodup
  have hxs : a ∉ xs ∧ a ∉ ys := by
    have := nodup_cons.1 (nodup_middle.1 hnodup)
    simpa [not_or] using this.1
  obtain ⟨h1, -, h2⟩ := (append_cons_inj_of_notMem hxs.1 hxs.2).1 hsplit
  exact ⟨ctx, c, l, r, rfl, h1, h2⟩

/-! ## The red-black invariant -/

/-- No red node has a red child and every path down has `n` black nodes. -/
inductive Balanced : ColorTree α → Color → ℕ → Prop
  | nil : Balanced .nil .black 0
  | red {l r : ColorTree α} {a : α} {n : ℕ} : Balanced l .black n → Balanced r .black n →
      Balanced (.node .red l a r) .red n
  | black {l r : ColorTree α} {a : α} {c c' : Color} {n : ℕ} : Balanced l c n → Balanced r c' n →
      Balanced (.node .black l a r) .black (n + 1)

/-- A tree with the colour `c` and `n` black nodes on every path may fill the hole. -/
inductive Hole : List (Frame α) → Color → ℕ → Prop
  | root {n : ℕ} : Hole [] .black n
  | red {ctx : List (Frame α)} {d : Side} {a : α} {s : ColorTree α} {n : ℕ} :
      Balanced s .black n → Hole ctx .red n → Hole (⟨d, .red, a, s⟩ :: ctx) .black n
  | black {ctx : List (Frame α)} {d : Side} {a : α} {s : ColorTree α} {c c' : Color} {n : ℕ} :
      Balanced s c' n → Hole ctx .black (n + 1) → Hole (⟨d, .black, a, s⟩ :: ctx) c n

variable {n : ℕ} {k : Color} {s : ColorTree α}

namespace Balanced

lemma color_eq (h : Balanced t c n) : t.color = c := by cases h <;> rfl

lemma bin_red (hs : Balanced s .black n) (ht : Balanced t .black n) :
    Balanced (.bin d .red a s t) .red n := by
  cases d with
  | left => exact .red hs ht
  | right => exact .red ht hs

lemma bin_black {c' : Color} (hs : Balanced s c n) (ht : Balanced t c' n) :
    Balanced (.bin d .black a s t) .black (n + 1) := by
  cases d with
  | left => exact .black hs ht
  | right => exact .black ht hs

lemma of_bin_red (h : Balanced (.bin d .red a s t) c n) :
    c = .red ∧ Balanced s .black n ∧ Balanced t .black n := by
  cases d with
  | left => cases h with | red hs ht => exact ⟨rfl, hs, ht⟩
  | right => cases h with | red ht hs => exact ⟨rfl, hs, ht⟩

lemma of_bin_black (h : Balanced (.bin d .black a s t) c n) :
    c = .black ∧ ∃ k, n = k + 1 ∧ (∃ c1, Balanced s c1 k) ∧ ∃ c2, Balanced t c2 k := by
  cases d with
  | left => cases h with | black hs ht => exact ⟨rfl, _, rfl, ⟨_, hs⟩, ⟨_, ht⟩⟩
  | right => cases h with | black ht hs => exact ⟨rfl, _, rfl, ⟨_, hs⟩, ⟨_, ht⟩⟩

lemma exists_bin_red (d : Side) (h : Balanced t .red n) :
    ∃ a s u, t = .bin d .red a s u ∧ Balanced s .black n ∧ Balanced u .black n := by
  cases h with
  | @red l r a _ hl hr =>
    cases d with
    | left => exact ⟨a, l, r, rfl, hl, hr⟩
    | right => exact ⟨a, r, l, rfl, hr, hl⟩

lemma exists_bin_black (d : Side) (h : Balanced t .black (n + 1)) :
    ∃ a s u, t = .bin d .black a s u ∧ (∃ c1, Balanced s c1 n) ∧ ∃ c2, Balanced u c2 n := by
  cases h with
  | @black l r a _ _ _ hl hr =>
    cases d with
    | left => exact ⟨a, l, r, rfl, ⟨_, hl⟩, ⟨_, hr⟩⟩
    | right => exact ⟨a, r, l, rfl, ⟨_, hr⟩, ⟨_, hl⟩⟩

lemma blacken_of_red (h : Balanced t .red n) : Balanced t.blacken .black (n + 1) := by
  cases h with | red hl hr => exact .black hl hr

lemma exists_blacken (h : Balanced t c n) : ∃ k, Balanced t.blacken .black k := by
  cases h with
  | nil => exact ⟨0, .nil⟩
  | red hl hr => exact ⟨n + 1, .black hl hr⟩
  | black hl hr => exact ⟨_, .black hl hr⟩

lemma ne_nil (h : Balanced t c (n + 1)) : t ≠ .nil := by
  rintro rfl
  cases h

lemma blacken_eq (h : Balanced t .black n) : t.blacken = t := by cases h <;> rfl

variable {p : List Color}

lemma count_of_mem_paths (h : Balanced t c n) (hp : p ∈ t.paths) : p.count .black = n := by
  induction h generalizing p with
  | nil =>
    obtain rfl : p = [] := by simpa [ColorTree.paths] using hp
    rfl
  | red hl hr ihl ihr =>
    obtain ⟨q, hq, rfl⟩ := mem_map.1 hp
    simpa using (mem_append.1 hq).elim ihl ihr
  | black hl hr ihl ihr =>
    obtain ⟨q, hq, rfl⟩ := mem_map.1 hp
    simpa using (mem_append.1 hq).elim ihl ihr

lemma head?_of_mem_paths (hp : p ∈ t.paths) : p.head?.getD .black = t.color := by
  cases t with
  | nil =>
    obtain rfl : p = [] := by simpa [ColorTree.paths] using hp
    rfl
  | node c l a r =>
    obtain ⟨q, -, rfl⟩ := mem_map.1 hp
    rfl

lemma isChain_of_mem_paths (h : Balanced t c n) (hp : p ∈ t.paths) :
    p.IsChain fun parent child => ¬(parent = .red ∧ child = .red) := by
  induction h generalizing p with
  | nil =>
    obtain rfl : p = [] := by simpa [ColorTree.paths] using hp
    exact .nil
  | red hl hr ihl ihr =>
    obtain ⟨q, hq, rfl⟩ := mem_map.1 hp
    have hblack : q.head?.getD .black = .black := by
      rcases mem_append.1 hq with hq | hq
      · rw [head?_of_mem_paths hq, hl.color_eq]
      · rw [head?_of_mem_paths hq, hr.color_eq]
    have hchain := (mem_append.1 hq).elim ihl ihr
    cases q with
    | nil => exact .singleton _
    | cons k q => exact .cons_cons (by simp_all) hchain
  | black hl hr ihl ihr =>
    obtain ⟨q, hq, rfl⟩ := mem_map.1 hp
    have hchain := (mem_append.1 hq).elim ihl ihr
    cases q with
    | nil => exact .singleton _
    | cons k q => exact .cons_cons (by simp) hchain

end Balanced

namespace Hole

lemma to_black (h : Hole ctx c n) : Hole ctx .black n := by
  cases h with
  | root => exact .root
  | red hs hctx => exact .red hs hctx
  | black hs hctx => exact .black hs hctx

lemma fill (h : Hole ctx c n) (ht : Balanced t c n) : ∃ k, Balanced (plug ctx t) .black k := by
  induction h generalizing t with
  | root => exact ⟨_, ht⟩
  | red hs _ ih => exact ih (ht.bin_red hs)
  | black hs _ ih => exact ih (ht.bin_black hs)

lemma of_plug (h : Balanced (plug ctx t) .black n) : ∃ c k, Hole ctx c k ∧ Balanced t c k := by
  induction ctx generalizing t with
  | nil => exact ⟨_, _, .root, h⟩
  | cons f ctx ih =>
    obtain ⟨c, k, hctx, hfill⟩ := ih h
    obtain ⟨d, cf, b, sib⟩ := f
    cases cf with
    | red =>
      obtain ⟨rfl, ht, hsib⟩ := hfill.of_bin_red
      exact ⟨_, _, .red hsib hctx, ht⟩
    | black =>
      obtain ⟨rfl, k, rfl, ⟨c1, ht⟩, ⟨c2, hsib⟩⟩ := hfill.of_bin_black
      exact ⟨_, _, .black hsib hctx, ht⟩

lemma sibling {b : α} (h : Hole (⟨d, c, b, s⟩ :: ctx) .black n) : ∃ c', Balanced s c' n := by
  cases h with
  | red hs _ => exact ⟨_, hs⟩
  | black hs _ => exact ⟨_, hs⟩

lemma replace_elem {inner : List (Frame α)} {b : α}
    (h : Hole (inner ++ ⟨d, c, a, s⟩ :: ctx) k n) : Hole (inner ++ ⟨d, c, b, s⟩ :: ctx) k n := by
  induction inner generalizing k n with
  | nil =>
    cases h with
    | red hs hctx => exact .red hs hctx
    | black hs hctx => exact .black hs hctx
  | cons f inner ih =>
    cases h with
    | red hs hctx => exact .red hs (ih hctx)
    | black hs hctx => exact .black hs (ih hctx)

end Hole

/-- The tree has `n + 1` black nodes on every path once there is one more, at its root. -/
def Short (t : ColorTree α) (n : ℕ) : Prop :=
  if t.color = .black then Balanced t .black n else Balanced t.blacken .black (n + 1)

lemma Balanced.short (h : Balanced t c n) : Short t n := by
  cases c with
  | red => simpa [Short, h.color_eq] using h.blacken_of_red
  | black => simpa [Short, h.color_eq] using h

lemma Short.exists_blacken (h : Short t n) : ∃ k, Balanced t.blacken .black k := by
  cases hcolor : t.color with
  | red => exact ⟨n + 1, by simpa [Short, hcolor] using h⟩
  | black =>
    replace h : Balanced t .black n := by simpa [Short, hcolor] using h
    exact h.exists_blacken

lemma exists_root?_plug (f : Frame α) (ctx : List (Frame α)) (t : ColorTree α) :
    ∃ b ∈ elems (f :: ctx), (plug (f :: ctx) t).root? = some b := by
  induction ctx generalizing f t with
  | nil => exact ⟨f.elem, mem_elems_cons.2 (.inl rfl), by simp [Frame.fill]⟩
  | cons g ctx ih =>
    obtain ⟨b, hb, hroot⟩ := ih g (f.fill t)
    exact ⟨b, mem_elems_cons.2 (.inr (.inr hb)), hroot⟩

end BooxKernel.ColoredTrees
