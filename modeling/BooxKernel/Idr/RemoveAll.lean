import BooxKernel.Idr.Runs

/-!
# Removing all ids

`idr_remove_all` frees the layers of the tree while it walks over it, so here a layer
is a cell of the memory and pointers are addresses. The memory records which layers
the call handed to `free_layer` and whether a layer was read after that.

How far the walk goes up again depends on the id alone: it leaves every layer that
does not cover all ids from 0 to the new one. A layer above the lowest ones is thus
left after its first slot, unless it is on the way to id 0. Where no other such layer
exists the walk frees every layer once; elsewhere it comes back to a freed one.
-/
namespace BooxKernel.Idr
open Digits Runs List Function

variable {α A : Type*} {c : Config}

section Model

/-- A `struct idr_layer *` as the address of a layer, or the pointer of a caller. -/
inductive Link (α A : Type*)
  | null
  | item (a : α)
  | layer (addr : A)

/-- `struct idr_layer`. -/
structure Cell (α A : Type*) (n : ℕ) where
  bitmap : Fin n → Bool
  count : ℕ
  ary : Fin n → Link α A

/-- The layers and the `struct idr`, with the layers that `idr_remove_all` freed, in
this order, and whether it read one of them later. -/
structure Memory (α A : Type*) (n : ℕ) where
  cell : A → Cell α A n
  top : Link α A
  layers : ℕ
  idFree : Link α A
  idFreeCnt : ℕ
  freed : List A
  stale : Bool

variable [DecidableEq A] (c)

/-- Reading `p->ary[d]`. -/
def Memory.readSlot {n : ℕ} (m : Memory α A n) (a : A) (d : Fin n) : Link α A × Memory α A n :=
  ((m.cell a).ary d, { m with stale := m.stale || decide (a ∈ m.freed) })

/-- `memset(p, 0, sizeof *p)` and `free_layer(idp, p)`. -/
def Memory.freeLayer (m : Memory α A c.idrSize) (a : A) : Memory α A c.idrSize :=
  { m with
    cell := update m.cell a ⟨fun _ => false, 0, update (fun _ => .null) c.first m.idFree⟩
    idFree := .layer a
    idFreeCnt := m.idFreeCnt + 1
    freed := m.freed ++ [a] }

/-- The layer that a pointer points at is freed. -/
def Memory.freeLink (m : Memory α A c.idrSize) : Link α A → Option (Memory α A c.idrSize)
  | .null => some m
  | .layer a => some (m.freeLayer c a)
  | .item _ => none

/-- The variables of the loop, with `n` in units of `IDR_BITS`. -/
structure Walk (α A : Type*) (size : ℕ) where
  id : ℕ
  n : ℕ
  p : Link α A
  paa : List (Link α A)
  mem : Memory α A size

/-- The way down, to a lowest layer or to where nothing is. -/
def removeDown (id : ℕ) : ℕ → Link α A → List (Link α A) → Memory α A c.idrSize →
    Option (ℕ × Link α A × List (Link α A) × Memory α A c.idrSize)
  | n + 2, .layer a, paa, m =>
    let r := m.readSlot a (slot c (n + 1) id)
    removeDown id (n + 1) r.1 (.layer a :: paa) r.2
  | _ + 2, .item _, _, _ => none
  | n, p, paa, m => some (n, p, paa, m)

/-- The way up, with enough rounds. When the walk is over it reads the word before
`pa`, which is `before`. -/
def removeUp (id : ℕ) (before : Link α A) : ℕ → ℕ → Link α A → List (Link α A) →
    Memory α A c.idrSize → Option (ℕ × Link α A × List (Link α A) × Memory α A c.idrSize)
  | 0, n, p, paa, m => some (n, p, paa, m)
  | rounds + 1, n, p, paa, m =>
    if n * c.idrBits < id.size then
      match m.freeLink c p with
      | none => none
      | some m => removeUp id before rounds (n + 1) (paa.headD before) paa.tail m
    else some (n, p, paa, m)

/-- One round of the loop. -/
def removeRound (before : Link α A) (w : Walk α A c.idrSize) : Option (Walk α A c.idrSize) :=
  match removeDown c w.id w.n w.p w.paa w.mem with
  | none => none
  | some (n, p, paa, m) =>
    let id := w.id + 2 ^ (n * c.idrBits)
    (removeUp c id before id.size n p paa m).map fun r => ⟨id, r.1, r.2.1, r.2.2.1, r.2.2.2⟩

def removeLoop (before : Link α A) (max : ℕ) : ℕ → Walk α A c.idrSize → Option (Walk α A c.idrSize)
  | 0, w => some w
  | rounds + 1, w =>
    if w.id < max then
      match removeRound c before w with
      | none => none
      | some w => removeLoop before max rounds w
    else some w

/-- `idr_remove_all`; `none` is a fault. With fewer than `MAX_LEVEL` layers `1 << n` and
the ids of the loop fit an `int`. -/
def idrRemoveAll (m : Memory α A c.idrSize) (before : Link α A) : Option (Memory α A c.idrSize) :=
  let max := 2 ^ (m.layers * c.idrBits)
  (removeLoop c before max max ⟨0, m.layers, m.top, [], { m with freed := [], stale := false }⟩).map
    fun w => { w.mem with top := .null, layers := 0 }

end Model

/-- The memory holds the tree `p` at a link. The list has the layers of the tree, each
after those below it. -/
inductive Stored {n : ℕ} (cell : A → Cell α A n) : Ptr α n → Link α A → List A → Prop
  | null : Stored cell .null .null []
  | item (x : α) : Stored cell (.item x) (.item x) []
  | layer {a : A} {ary : Fin n → Ptr α n} {below : Fin n → List A}
      (slots : ∀ d, Stored cell (ary d) ((cell a).ary d) (below d)) :
      Stored cell (.layer (cell a).bitmap (cell a).count ary) (.layer a)
        ((ofFn below).flatten ++ [a])

/-- The layers of the free list, which are linked through `ary[0]` and otherwise zero. -/
def FreeChain (cell : A → Cell α A c.idrSize) : Link α A → List A → Prop
  | head, [] => head = .null
  | head, a :: rest => head = .layer a ∧
    cell a = ⟨fun _ => false, 0, update (fun _ => .null) c.first ((cell a).ary c.first)⟩ ∧
    FreeChain cell ((cell a).ary c.first) rest

/-- The memory holds the allocator `s`, with the layers `xs` of its tree and the layers
`frees` on the free list. -/
structure Represents (m : Memory α A c.idrSize) (s : IdrHandle α c.idrSize) (xs frees : List A) :
    Prop where
  tree : Stored m.cell s.top m.top xs
  layers : m.layers = s.layers
  chain : FreeChain m.cell m.idFree frees
  zero : s.idFree = replicate frees.length .zero
  count : m.idFreeCnt = frees.length
  distinct : (xs ++ frees).Nodup

lemma FreeChain.congr {cell cell' : A → Cell α A c.idrSize} {head : Link α A} {frees : List A}
    (h : FreeChain cell head frees) (hsame : ∀ a ∈ frees, cell' a = cell a) :
    FreeChain cell' head frees := by
  induction frees generalizing head with
  | nil => exact h
  | cons b frees ih =>
    have hb := hsame b mem_cons_self
    refine ⟨h.1, ?_, ?_⟩
    · rw [hb]
      exact h.2.1
    · rw [hb]
      exact ih h.2.2 fun a ha => hsame a (mem_cons_of_mem b ha)

section Paths
variable {n : ℕ}

def Ptr.child : Ptr α n → Fin n → Ptr α n
  | .layer _ _ ary, d => ary d
  | _, _ => .null

def linkAt {B : Type*} (path : List (Fin n)) : Ptr α n → Link α (List (Fin n) ⊕ B)
  | .null => .null
  | .item a => .item a
  | .layer _ _ _ => .layer (.inl path)

/-- The layers of the tree that starts after the given slots. -/
def layersAt {B : Type*} (path : List (Fin n)) : Ptr α n → List (List (Fin n) ⊕ B)
  | .layer _ _ ary => (ofFn fun d => layersAt (path ++ [d]) (ary d)).flatten ++ [.inl path]
  | _ => []

/-- A link to the given free layer when there are so many. -/
def freeLink {B : Type*} (len i : ℕ) : Link α (B ⊕ ℕ) := if i < len then .layer (.inr i) else .null

/-- A memory for the allocator: the address of a layer is the list of the slots on the
way to it, and the free layers are numbered. -/
def layout (c : Config) (s : IdrHandle α c.idrSize) :
    Memory α (List (Fin c.idrSize) ⊕ ℕ) c.idrSize where
  cell
    | .inl path =>
      match path.foldl Ptr.child s.top with
      | .layer bitmap count ary => ⟨bitmap, count, fun d => linkAt (path ++ [d]) (ary d)⟩
      | _ => ⟨fun _ => false, 0, fun _ => .null⟩
    | .inr i => ⟨fun _ => false, 0,
        update (fun _ => .null) c.first (freeLink s.idFree.length (i + 1))⟩
  top := linkAt [] s.top
  layers := s.layers
  idFree := freeLink s.idFree.length 0
  idFreeCnt := s.idFree.length
  freed := []
  stale := false

lemma layersAt_path {B : Type*} {p : Ptr α n} {path : List (Fin n)} {x : List (Fin n) ⊕ B}
    (hx : x ∈ layersAt path p) : ∃ rest, x = .inl (path ++ rest) := by
  induction p generalizing path with
  | layer bitmap count ary ih =>
    rw [layersAt, mem_append, mem_flatten, mem_singleton] at hx
    rcases hx with ⟨below, hbelow, hx⟩ | rfl
    · obtain ⟨d, rfl⟩ := mem_ofFn.1 hbelow
      obtain ⟨rest, rfl⟩ := ih d hx
      exact ⟨d :: rest, by simp⟩
    · exact ⟨[], by simp⟩
  | _ => simp [layersAt] at hx

lemma layersAt_nodup {B : Type*} (p : Ptr α n) (path : List (Fin n)) :
    (layersAt path p : List (List (Fin n) ⊕ B)).Nodup := by
  induction p generalizing path with
  | layer bitmap count ary ih =>
    rw [layersAt, nodup_append]
    refine ⟨nodup_flatten.2 ⟨fun below hbelow => ?_, ?_⟩, nodup_singleton _, ?_⟩
    · obtain ⟨d, rfl⟩ := mem_ofFn.1 hbelow
      exact ih d _
    · rw [pairwise_ofFn]
      intro d e hlt x hd he
      obtain ⟨rest, rfl⟩ := layersAt_path hd
      obtain ⟨rest', hrest'⟩ := layersAt_path he
      simp only [Sum.inl.injEq, append_assoc, append_cancel_left_eq, cons_append,
        nil_append, cons.injEq] at hrest'
      exact hlt.ne hrest'.1
    · intro x hx y hy hxy
      obtain ⟨below, hbelow, hx⟩ := mem_flatten.1 hx
      obtain ⟨d, rfl⟩ := mem_ofFn.1 hbelow
      obtain ⟨rest, rfl⟩ := layersAt_path hx
      rw [← hxy] at hy
      simp at hy
  | _ => simp [layersAt]

lemma layout_stored (s : IdrHandle α c.idrSize) {p : Ptr α c.idrSize} {path : List (Fin c.idrSize)}
    (hp : path.foldl Ptr.child s.top = p) :
    Stored (layout c s).cell p (linkAt path p) (layersAt path p) := by
  induction p generalizing path with
  | null => exact .null
  | item x => exact .item x
  | layer bitmap count ary ih =>
    have hcell : (layout c s).cell (.inl path) =
        ⟨bitmap, count, fun d => linkAt (path ++ [d]) (ary d)⟩ := by
      simp only [layout, hp]
    have hslots : ∀ d, Stored (layout c s).cell (ary d) (((layout c s).cell (.inl path)).ary d)
        (layersAt (path ++ [d]) (ary d)) := by
      intro d
      rw [hcell]
      refine ih d ?_
      rw [foldl_append, hp]
      rfl
    have hstored := Stored.layer hslots
    rw [hcell] at hstored
    exact hstored

lemma layout_chain (s : IdrHandle α c.idrSize) {i k : ℕ} (hlen : i + k = s.idFree.length) :
    FreeChain (layout c s).cell (freeLink s.idFree.length i) ((List.range' i k).map .inr) := by
  induction k generalizing i with
  | zero =>
    exact if_neg (by omega)
  | succ k ih =>
    refine ⟨if_pos (by omega), ?_, ?_⟩
    · simp [layout]
    · have hnext := @ih (i + 1) (by omega)
      simpa [layout] using hnext

lemma layout_represents {s : IdrHandle α c.idrSize} (hzero : ∀ p ∈ s.idFree, p = .zero) :
    Represents (layout c s) s (layersAt [] s.top) ((List.range' 0 s.idFree.length).map .inr) where
  tree := layout_stored s rfl
  layers := rfl
  chain := layout_chain s (zero_add _)
  zero := by
    rw [length_map, length_range']
    exact eq_replicate_iff.2 ⟨rfl, hzero⟩
  count := by rw [length_map, length_range']; rfl
  distinct := by
    rw [nodup_append]
    refine ⟨layersAt_nodup _ _, List.Nodup.map Sum.inr_injective nodup_range', ?_⟩
    intro x hx y hy hxy
    obtain ⟨rest, rfl⟩ := layersAt_path hx
    obtain ⟨i, _, rfl⟩ := mem_map.1 hy
    cases hxy

end Paths

section Freeing
variable [DecidableEq A]

/-- The given layers are freed one after the other. -/
def Memory.freeAll (c : Config) (m : Memory α A c.idrSize) (xs : List A) : Memory α A c.idrSize :=
  xs.foldl (Memory.freeLayer c) m

variable {m : Memory α A c.idrSize} {xs ys frees : List A} {a : A}

lemma freeAll_append : m.freeAll c (xs ++ ys) = (m.freeAll c xs).freeAll c ys := foldl_append

lemma freeAll_cell (ha : a ∉ xs) : (m.freeAll c xs).cell a = m.cell a := by
  induction xs generalizing m with
  | nil => rfl
  | cons b xs ih =>
    rw [mem_cons, not_or] at ha
    exact (ih ha.2).trans (update_of_ne ha.1 _ _)

lemma freeAll_freed : (m.freeAll c xs).freed = m.freed ++ xs := by
  induction xs generalizing m with
  | nil => exact (append_nil _).symm
  | cons b xs ih => exact ih.trans (append_assoc _ _ _)

lemma freeAll_stale : (m.freeAll c xs).stale = m.stale := by
  induction xs generalizing m with
  | nil => rfl
  | cons b xs ih => exact ih

lemma freeAll_count : (m.freeAll c xs).idFreeCnt = m.idFreeCnt + xs.length := by
  induction xs generalizing m with
  | nil => rfl
  | cons b xs ih =>
    refine ih.trans ?_
    simp only [Memory.freeLayer, length_cons]
    omega

lemma freeAll_chain (h : FreeChain m.cell m.idFree frees) (hdistinct : (xs ++ frees).Nodup) :
    FreeChain (m.freeAll c xs).cell (m.freeAll c xs).idFree (xs.reverse ++ frees) := by
  induction xs generalizing m frees with
  | nil => exact h
  | cons b xs ih =>
    rw [cons_append, nodup_cons, mem_append, not_or] at hdistinct
    have hchain : FreeChain (m.freeLayer c b).cell (m.freeLayer c b).idFree (b :: frees) := by
      refine ⟨rfl, ?_, ?_⟩
      · simp [Memory.freeLayer]
      · have hlink : ((m.freeLayer c b).cell b).ary c.first = m.idFree := by simp [Memory.freeLayer]
        rw [hlink]
        refine h.congr fun a ha => update_of_ne ?_ _ _
        rintro rfl
        exact hdistinct.1.2 ha
    have hrest := ih hchain (nodup_middle.2 (nodup_cons.2
      ⟨by rw [mem_append, not_or]; exact hdistinct.1, hdistinct.2⟩))
    rwa [reverse_cons, append_assoc]

end Freeing

section Shapes
variable {p : Ptr α c.idrSize}

/-- Layers are where a tree of the given height has them. -/
def Shaped : ℕ → Ptr α c.idrSize → Prop
  | 0, .layer _ _ _ => False
  | 0, _ => True
  | _ + 1, .null => True
  | _ + 1, .item _ => False
  | l + 1, .layer _ _ ary => ∀ d, Shaped l (ary d)

/-- The layers above the lowest ones are on the way to id 0. -/
def Slim : ℕ → Ptr α c.idrSize → Prop
  | l + 3, .layer _ _ ary => Slim (l + 2) (ary c.first) ∧ ∀ d, d ≠ c.first → ary d = .null
  | _, _ => True

lemma slim_of_layers {l : ℕ} (hl : l ≤ 2) : Slim l p := by
  interval_cases l <;> trivial

lemma Tree.shaped {a : ℕ → Option α} {f : ℕ → Prop} {l base : ℕ} (h : Tree a f l base p) :
    Shaped l p := by
  induction l generalizing base p with
  | zero =>
    obtain rfl := h
    cases a base <;> trivial
  | succ l ih =>
    cases p with
    | null => trivial
    | item x => exact h
    | layer bitmap count ary => exact fun d => ih (h.2.1 d)

/-- A link with at most one layer below it. -/
inductive Short : ℕ → Link α A → List A → Prop
  | null (l : ℕ) : Short l .null []
  | lowest (b : A) : Short 1 (.layer b) [b]

variable {cell : A → Cell α A c.idrSize} {u : Link α A} {xs : List A}

lemma not_mem_below {a : A} {below : Fin c.idrSize → List A}
    (h : ((ofFn below).flatten ++ [a]).Nodup) (e : Fin c.idrSize) : a ∉ below e :=
  fun ha => disjoint_of_nodup_append h (mem_flatten.2 ⟨_, mem_ofFn.2 ⟨e, rfl⟩, ha⟩)
    (mem_singleton_self a)

lemma take_flatten_succ (below : Fin c.idrSize → List A) (d : Fin c.idrSize) :
    ((ofFn below).take (d + 1)).flatten = ((ofFn below).take d).flatten ++ below d := by
  rw [take_add_one, List.getElem?_ofFn, dif_pos d.isLt, Option.toList_some, flatten_append,
    flatten_singleton]

lemma Stored.nil_of_shaped (h : Stored cell p u xs) (hp : Shaped 0 p) : xs = [] := by
  cases h with
  | null => rfl
  | item x => rfl
  | layer slots => exact absurd hp id

lemma Stored.short_of_shaped (h : Stored cell p u xs) (hp : Shaped 1 p) : Short 1 u xs := by
  cases h with
  | null => exact .null 1
  | item x => exact absurd hp id
  | @layer a ary below slots =>
    have hnil : (ofFn below).flatten = [] := by
      rw [flatten_eq_nil_iff]
      intro ys hys
      obtain ⟨d, rfl⟩ := mem_ofFn.1 hys
      exact (slots d).nil_of_shaped (hp d)
    rw [hnil]
    exact .lowest a

lemma Stored.null_or_layer {l : ℕ} (h : Stored cell p u xs) (hp : Shaped (l + 1) p) :
    p = .null ∧ Short (l + 1) u xs ∨ ∃ b, u = .layer b := by
  cases h with
  | null => exact .inl ⟨rfl, .null _⟩
  | item x => exact absurd hp id
  | layer slots => exact .inr ⟨_, rfl⟩

lemma Stored.short_of_null (h : Stored cell (.null : Ptr α c.idrSize) u xs) (l : ℕ) :
    Short l u xs := by
  cases h
  exact .null l

end Shapes

section Walks
variable [DecidableEq A] {before : Link α A} {m : Memory α A c.idrSize} {paa : List (Link α A)}
  {p : Link α A} {id n rounds max l : ℕ} {xs : List A} {a : A}

lemma readSlot_eq (d : Fin c.idrSize) (ha : a ∉ m.freed) :
    m.readSlot a d = ((m.cell a).ary d, m) := by
  simp [Memory.readSlot, ha]

lemma removeUp_stop (h : id < 2 ^ (n * c.idrBits)) :
    removeUp c id before rounds n p paa m = some (n, p, paa, m) := by
  cases rounds with
  | zero => rfl
  | succ rounds => exact if_neg (not_lt.2 (Nat.size_le.2 h))

lemma Short.freeLink (h : Short l p xs) : m.freeLink c p = some (m.freeAll c xs) := by
  cases h <;> rfl

lemma removeUp_leave (h : 2 ^ (n * c.idrBits) ≤ id) (hp : m.freeLink c p = some (m.freeAll c xs))
    (hrounds : 0 < rounds) :
    removeUp c id before rounds n p paa m =
      removeUp c id before (rounds - 1) (n + 1) (paa.headD before) paa.tail (m.freeAll c xs) := by
  obtain ⟨r, rfl⟩ := Nat.exists_eq_succ_of_ne_zero hrounds.ne'
  rw [removeUp, if_pos (Nat.lt_size.2 h), hp]
  rfl

variable {w w' w'' : Walk α A c.idrSize} {P : Option (Walk α A c.idrSize) → Prop}

/-- The loop ends as `P` says. -/
inductive Ends (c : Config) (before : Link α A) (max : ℕ) (P : Option (Walk α A c.idrSize) → Prop) :
    Walk α A c.idrSize → Prop
  | done {u : Walk _ _ _} : max ≤ u.id → P (some u) → Ends c before max P u
  | fault {u : Walk _ _ _} : u.id < max → removeRound c before u = none → P none →
      Ends c before max P u
  | round {u u' : Walk _ _ _} : u.id < max → removeRound c before u = some u' →
      Ends c before max P u' → Ends c before max P u

lemma removeRound_some (h : removeRound c before w = some w') :
    ∃ n p paa m, removeDown c w.id w.n w.p w.paa w.mem = some (n, p, paa, m) ∧
      w'.id = w.id + 2 ^ (n * c.idrBits) ∧
      removeUp c w'.id before w'.id.size n p paa m = some (w'.n, w'.p, w'.paa, w'.mem) := by
  unfold removeRound at h
  cases hdown : removeDown c w.id w.n w.p w.paa w.mem with
  | none => simp [hdown] at h
  | some r =>
    simp only [hdown] at h
    obtain ⟨r', hup, rfl⟩ := Option.map_eq_some_iff.1 h
    exact ⟨_, _, _, _, rfl, rfl, hup⟩

lemma lt_of_removeRound (h : removeRound c before w = some w') : w.id < w'.id := by
  obtain ⟨n, p, paa, m, -, hid, -⟩ := removeRound_some h
  rw [hid]
  exact Nat.lt_add_of_pos_right (by positivity)

lemma Ends.loop (h : Ends c before max P w) (hrounds : max ≤ w.id + rounds) :
    P (removeLoop c before max rounds w) := by
  induction h generalizing rounds with
  | done hle hw =>
    cases rounds with
    | zero => exact hw
    | succ r => rwa [removeLoop, if_neg (not_lt.2 hle)]
  | fault hlt hround hnone =>
    obtain ⟨r, rfl⟩ := Nat.exists_eq_succ_of_ne_zero (by omega : rounds ≠ 0)
    rwa [removeLoop, if_pos hlt, hround]
  | round hlt hround _ ih =>
    obtain ⟨r, rfl⟩ := Nat.exists_eq_succ_of_ne_zero (by omega : rounds ≠ 0)
    rw [removeLoop, if_pos hlt, hround]
    have hid := lt_of_removeRound hround
    exact ih (by omega)

lemma Ends.congr (h : Ends c before max P w) (hlt : w.id < max) (hid : w'.id = w.id)
    (hround : removeRound c before w' = removeRound c before w) : Ends c before max P w' := by
  cases h with
  | done hle => omega
  | fault _ hnone hP => exact .fault (by omega) (hround.trans hnone) hP
  | round _ hsome hend => exact .round (by omega) (hround.trans hsome) hend

/-- Some rounds of the loop lead from one state to the other. -/
def Reaches (c : Config) (before : Link α A) (max : ℕ) (w w' : Walk α A c.idrSize) : Prop :=
  ∀ P, Ends c before max P w' → Ends c before max P w

lemma Reaches.trans (h : Reaches c before max w w') (h' : Reaches c before max w' w'') :
    Reaches c before max w w'' := fun P hend => h P (h' P hend)

lemma Reaches.round (hlt : w.id < max) (hround : removeRound c before w = some w') :
    Reaches c before max w w' := fun _ => .round hlt hround

lemma Short.removeDown (h : Short l p xs) : removeDown c id l p paa m = some (l, p, paa, m) := by
  cases h with
  | null => rcases l with _ | _ | l <;> rfl
  | lowest b => rfl

lemma slot_of_high {d : Fin c.idrSize} (h : high c.idrBits l id = d) : slot c l id = d := by
  apply Fin.ext
  unfold slot
  rw [digit_val, h]
  exact Nat.mod_eq_of_lt d.isLt

lemma slot_first (l : ℕ) (d : Fin c.idrSize) : slot c l (d * 2 ^ (l * c.idrBits)) = d :=
  slot_of_high (high_first _ _ _)

lemma pow_lt_succ_bits (l : ℕ) : 2 ^ (l * c.idrBits) < 2 ^ ((l + 1) * c.idrBits) :=
  Nat.pow_lt_pow_right (by norm_num)
    (mul_lt_mul_of_pos_right (Nat.lt_succ_self l) c.idrBits_pos)

/-- The walk in front of the slot `d` of the layer `a`. -/
def atSlot (m : Memory α A c.idrSize) (a : A) (below : Fin c.idrSize → List A)
    (paa : List (Link α A)) (l d : ℕ) : Walk α A c.idrSize :=
  ⟨d * 2 ^ ((l + 1) * c.idrBits), l + 2, .layer a, paa,
    m.freeAll c ((ofFn below).take d).flatten⟩

lemma atSlot_zero (below : Fin c.idrSize → List A) :
    atSlot m a below paa l 0 = ⟨0, l + 2, .layer a, paa, m⟩ := by
  rw [atSlot, Nat.zero_mul]
  rfl

section
variable {below : Fin c.idrSize → List A} {d e : ℕ} (ha : a ∉ m.freed) (hbelow : ∀ e, a ∉ below e)
include ha hbelow

lemma atSlot_cell : (atSlot m a below paa l d).mem.cell a = m.cell a ∧
    a ∉ (atSlot m a below paa l d).mem.freed := by
  have hnot : a ∉ ((ofFn below).take d).flatten := by
    intro hmem
    obtain ⟨ys, hys, hmem⟩ := mem_flatten.1 hmem
    obtain ⟨e, rfl⟩ := mem_ofFn.1 (mem_of_mem_take hys)
    exact hbelow e hmem
  rw [atSlot, freeAll_cell hnot, freeAll_freed, mem_append, not_or]
  exact ⟨rfl, ha, hnot⟩

variable (hmax : 2 ^ ((l + 2) * c.idrBits) ≤ max)
include hmax

/-- The walk leaves a slot with at most one layer below it. The layer that the slot is
in is left with its last slot. -/
lemma reaches_slot (d : Fin c.idrSize) (hd : Short (l + 1) ((m.cell a).ary d) (below d)) :
    Reaches c before max (atSlot m a below paa l d)
      (if d + 1 < c.idrSize then atSlot m a below paa l (d + 1)
      else ⟨2 ^ ((l + 2) * c.idrBits), l + 3, paa.headD before, paa.tail,
        m.freeAll c ((ofFn below).flatten ++ [a])⟩) := by
  obtain ⟨hcell, hfreed⟩ : (atSlot m a below paa l d).mem.cell a = _ ∧ _ := atSlot_cell ha hbelow
  have hpos : 0 < 2 ^ ((l + 1) * c.idrBits) := by positivity
  have hblock := pow_block c (l + 1)
  have hlt : d.val * 2 ^ ((l + 1) * c.idrBits) < max :=
    (hblock ▸ mul_lt_mul_of_pos_right d.isLt hpos).trans_le hmax
  have hle : 2 ^ ((l + 1) * c.idrBits) ≤ (d.val + 1) * 2 ^ ((l + 1) * c.idrBits) :=
    Nat.le_mul_of_pos_left _ (Nat.succ_pos d)
  have hsize : (l + 1) * c.idrBits < ((d.val + 1) * 2 ^ ((l + 1) * c.idrBits)).size :=
    Nat.lt_size.2 hle
  refine .round hlt ?_
  have hdown : removeDown c (d * 2 ^ ((l + 1) * c.idrBits)) (l + 2) (.layer a) paa
      (atSlot m a below paa l d).mem =
        some (l + 1, (m.cell a).ary d, .layer a :: paa, (atSlot m a below paa l d).mem) := by
    rw [removeDown, slot_first, readSlot_eq d hfreed, hcell]
    exact hd.removeDown
  unfold removeRound
  rw [atSlot] at hdown ⊢
  simp only [hdown]
  have hstep : d * 2 ^ ((l + 1) * c.idrBits) + _ = (d.val + 1) * _ := (Nat.succ_mul _ _).symm
  rw [hstep, removeUp_leave hle hd.freeLink (by omega), ← freeAll_append, ← take_flatten_succ]
  by_cases hlast : d + 1 < c.idrSize
  · rw [if_pos hlast, removeUp_stop (hblock ▸ mul_lt_mul_of_pos_right hlast hpos)]
    rfl
  · have hend : d.val + 1 = c.idrSize := by omega
    have hall : (ofFn below).take c.idrSize = ofFn below := take_of_length_le (by simp)
    have hbits : 0 < (l + 1) * c.idrBits := mul_pos (Nat.succ_pos l) c.idrBits_pos
    rw [hend, ← hblock] at hsize ⊢
    rw [if_neg (lt_irrefl _), hall, headD_cons, tail_cons,
      removeUp_leave le_rfl (Short.lowest a).freeLink (by omega),
      removeUp_stop (pow_lt_succ_bits (l + 2)), ← freeAll_append]
    rfl

lemma reaches_between (hde : d ≤ e) (he : e < c.idrSize)
    (hshort : ∀ k : Fin c.idrSize, d ≤ k → k < e → Short (l + 1) ((m.cell a).ary k) (below k)) :
    Reaches c before max (atSlot m a below paa l d) (atSlot m a below paa l e) := by
  induction e, hde using Nat.le_induction with
  | base => exact fun _ => id
  | succ e hde ih =>
    have hlt : e < c.idrSize := by omega
    have hslot : Reaches c before max (atSlot m a below paa l e) _ :=
      reaches_slot ha hbelow hmax ⟨e, hlt⟩ (hshort _ hde (Nat.lt_succ_self e))
    rw [if_pos he] at hslot
    exact (ih hlt fun k hk hke => hshort k hk (by omega)).trans hslot

/-- The walk over the slots from `d` on of a layer, each with at most one layer below it,
frees those and the layer. -/
lemma walk_slots (hd : d < c.idrSize)
    (hshort : ∀ k : Fin c.idrSize, d ≤ k → Short (l + 1) ((m.cell a).ary k) (below k)) :
    Reaches c before max (atSlot m a below paa l d) ⟨2 ^ ((l + 2) * c.idrBits), l + 3,
      paa.headD before, paa.tail, m.freeAll c ((ofFn below).flatten ++ [a])⟩ := by
  have hlt : c.idrSize - 1 < c.idrSize := by omega
  have hlast : Reaches c before max (atSlot m a below paa l (c.idrSize - 1)) _ :=
    reaches_slot ha hbelow hmax ⟨_, hlt⟩ (hshort _ (Nat.le_sub_one_of_lt hd))
  rw [if_neg (by dsimp only; omega)] at hlast
  exact (reaches_between ha hbelow hmax (Nat.le_sub_one_of_lt hd) hlt
    fun k hk _ => hshort k hk).trans hlast

end

lemma Reaches.loop (h : Reaches c before max w w') (hend : w'.id = max) :
    removeLoop c before max max w = some w' :=
  (h (· = some w') (.done hend.ge rfl)).loop (Nat.le_add_left _ _)

lemma walk_short (hp : Short l p xs) (hmax : 2 ^ (l * c.idrBits) ≤ max) :
    Reaches c before max ⟨0, l, p, paa, m⟩
      ⟨2 ^ (l * c.idrBits), l + 1, paa.headD before, paa.tail, m.freeAll c xs⟩ := by
  have hpos : 0 < 2 ^ (l * c.idrBits) := by positivity
  refine Reaches.round (lt_of_lt_of_le hpos hmax) ?_
  have hdown : removeDown c 0 l p paa m = some (l, p, paa, m) := hp.removeDown
  unfold removeRound
  simp only [hdown, zero_add]
  rw [removeUp_leave le_rfl hp.freeLink (Nat.size_pos.2 hpos), removeUp_stop (pow_lt_succ_bits l)]
  rfl

lemma removeRound_enter (ha : a ∉ m.freed) :
    removeRound c before ⟨0, l + 2, .layer a, paa, m⟩ =
      removeRound c before ⟨0, l + 1, (m.cell a).ary c.first, .layer a :: paa, m⟩ := by
  have hslot := slot_first (l + 1) c.first
  rw [show (c.first : ℕ) = 0 from rfl, Nat.zero_mul] at hslot
  unfold removeRound
  simp only [removeDown, hslot, readSlot_eq c.first ha]

end Walks

/-! ## Trees with other layers above the lowest ones -/

section Again
variable {before : Link α A} {m m' m'' : Memory α A c.idrSize} {paa paa' ps : List (Link α A)}
  {p p' : Link α A} {id n n' rounds max l j d : ℕ} {a b : A} {w w' : Walk α A c.idrSize}

/-- What the steps of the walk may do to the memory. -/
structure Later (m m' : Memory α A c.idrSize) : Prop where
  freed : m.freed ⊆ m'.freed
  cell : ∀ x ∉ m'.freed, m'.cell x = m.cell x
  stale : m.stale = true → m'.stale = true

lemma Later.refl (m : Memory α A c.idrSize) : Later m m := ⟨fun _ => id, fun _ _ => rfl, id⟩

lemma Later.trans (h : Later m m') (h' : Later m' m'') : Later m m'' where
  freed _ hx := h'.freed (h.freed hx)
  cell x hx := (h'.cell x hx).trans (h.cell x fun hmem => hx (h'.freed hmem))
  stale hm := h'.stale (h.stale hm)

variable [DecidableEq A]

lemma later_readSlot (a : A) (e : Fin c.idrSize) : Later m (m.readSlot a e).2 :=
  ⟨fun _ => id, fun _ _ => rfl, fun h => by simp [Memory.readSlot, h]⟩

lemma later_freeLink (h : m.freeLink c p = some m') :
    Later m m' ∧ ∀ x, p = .layer x → x ∈ m'.freed := by
  cases p with
  | null =>
    obtain rfl := Option.some.inj h
    exact ⟨.refl m, by simp⟩
  | item x => cases h
  | layer x =>
    obtain rfl := Option.some.inj h
    refine ⟨⟨subset_append_left _ _, fun y hy => update_of_ne ?_ _ _, id⟩, ?_⟩
    · rintro rfl
      exact hy (mem_append_right _ (mem_singleton_self _))
    · rintro y ⟨⟩
      exact mem_append_right _ (mem_singleton_self _)

lemma later_removeDown (h : removeDown c id n p paa m = some (n', p', paa', m')) :
    Later m m' ∧ ∃ ps, paa' = ps ++ paa ∧ n' + ps.length = n := by
  fun_induction removeDown c id n p paa m with
  | case1 n x paa m r ih =>
    obtain ⟨hlater, ps, rfl, hlen⟩ := ih h
    refine ⟨(later_readSlot x _).trans hlater, ps ++ [.layer x], by simp, ?_⟩
    rw [length_append, length_singleton]
    omega
  | case2 => cases h
  | case3 n p paa m =>
    obtain ⟨rfl, rfl, rfl, rfl⟩ := by simpa using h
    exact ⟨.refl m, [], rfl, rfl⟩

lemma later_removeUp (h : removeUp c id before rounds n p paa m = some (n', p', paa', m')) :
    Later m m' := by
  fun_induction removeUp c id before rounds n p paa m with
  | case1 =>
    obtain ⟨-, -, -, rfl⟩ := by simpa using h
    exact .refl _
  | case2 => cases h
  | case3 rounds n p paa m hlt m1 hfree ih => exact (later_freeLink hfree).1.trans (ih h)
  | case4 =>
    obtain ⟨-, -, -, rfl⟩ := by simpa using h
    exact .refl _

/-- The way up to the layer `a` frees all that is between. -/
lemma removeUp_climbs (hid : 2 ^ (j * c.idrBits) ≤ id) (hid' : id < 2 ^ ((j + 1) * c.idrBits))
    (hn : n + ps.length = j) (hrounds : ps.length < rounds)
    (h : removeUp c id before rounds n p (ps ++ .layer a :: paa) m = some (n', p', paa', m')) :
    n' = j + 1 ∧ p' = .layer a ∧ ∀ x, .layer x ∈ p :: ps → x ∈ m'.freed := by
  induction ps generalizing n p m rounds with
  | nil =>
    obtain ⟨r, rfl⟩ := Nat.exists_eq_succ_of_ne_zero hrounds.ne'
    obtain rfl : n = j := hn
    rw [removeUp, if_pos (Nat.lt_size.2 hid)] at h
    cases hfree : m.freeLink c p with
    | none => simp [hfree] at h
    | some m1 =>
      simp only [hfree, nil_append, headD_cons, tail_cons, removeUp_stop hid'] at h
      obtain ⟨rfl, rfl, rfl, rfl⟩ := by simpa using h
      exact ⟨rfl, rfl, fun x hx => (later_freeLink hfree).2 x (mem_singleton.1 hx).symm⟩
  | cons q ps ih =>
    obtain ⟨r, rfl⟩ := Nat.exists_eq_succ_of_ne_zero (Nat.zero_lt_of_lt hrounds).ne'
    rw [length_cons] at hn hrounds
    have hlow : 2 ^ (n * c.idrBits) ≤ id :=
      (Nat.pow_le_pow_right two_pos (Nat.mul_le_mul_right _ (by omega))).trans hid
    rw [removeUp, if_pos (Nat.lt_size.2 hlow)] at h
    cases hfree : m.freeLink c p with
    | none => simp [hfree] at h
    | some m1 =>
      simp only [hfree, cons_append, headD_cons, tail_cons] at h
      obtain ⟨hn', hp', hfreed⟩ := ih (by omega) (by omega) h
      refine ⟨hn', hp', fun x hx => ?_⟩
      rcases mem_cons.1 hx with hx | hx
      · exact (later_removeUp h).freed ((later_freeLink hfree).2 x hx.symm)
      · exact hfreed x hx

lemma later_removeRound (h : removeRound c before w = some w') : Later w.mem w'.mem := by
  obtain ⟨n, p, paa, m, hdown, -, hup⟩ := removeRound_some h
  exact (later_removeDown hdown).1.trans (later_removeUp hup)

lemma removeDown_stale (hb : b ∈ m.freed)
    (h : removeDown c id (n + 2) (.layer b) paa m = some (n', p', paa', m')) : m'.stale = true := by
  rw [removeDown] at h
  exact (later_removeDown h).1.stale (by simp [Memory.readSlot, hb])

/-- A freed layer is read before the walk ends. -/
def Spoilt (c : Config) (before : Link α A) (max : ℕ) (w : Walk α A c.idrSize) : Prop :=
  Ends c before max (fun r => ∀ w', r = some w' → w'.mem.stale = true) w

lemma spoilt_of_round (hlt : w.id < max)
    (h : ∀ w', removeRound c before w = some w' → Spoilt c before max w') :
    Spoilt c before max w := by
  cases hround : removeRound c before w with
  | none => exact .fault hlt hround fun _ hw => by cases hw
  | some w' => exact .round hlt hround (h w' hround)

lemma spoilt_of_stale (h : w.mem.stale = true) : Spoilt c before max w := by
  induction hk : max - w.id using Nat.strong_induction_on generalizing w with
  | _ k ih =>
    by_cases hlt : w.id < max
    · refine spoilt_of_round hlt fun w' hround => ?_
      have hid := lt_of_removeRound hround
      exact ih _ (by omega) ((later_removeRound hround).stale h) rfl
    · exact .done (not_lt.1 hlt) fun w' hw => by rwa [← Option.some.inj hw]

/-- Below a slot that is not the first one a layer above the lowest ones is freed too early, and the
next round reads it. -/
lemma spoilt_layer {e : Fin c.idrSize} (he : 0 < e.val) (hb : (m.cell a).ary e = .layer b)
    (hmax : 2 ^ ((l + 3) * c.idrBits) ≤ max) :
    Spoilt c before max ⟨e * 2 ^ ((l + 2) * c.idrBits), l + 3, .layer a, paa, m⟩ := by
  have hfirst : 2 ^ ((l + 2) * c.idrBits) ≤ e.val * 2 ^ ((l + 2) * c.idrBits) :=
    Nat.le_mul_of_pos_left _ he
  have hlast : (e.val + 1) * 2 ^ ((l + 2) * c.idrBits) ≤ 2 ^ ((l + 3) * c.idrBits) := by
    rw [pow_block c (l + 2)]
    exact Nat.mul_le_mul_right _ e.isLt
  rw [Nat.succ_mul] at hlast
  have hpos : 0 < 2 ^ ((l + 2) * c.idrBits) := by positivity
  refine spoilt_of_round (by dsimp only; omega) fun w hround => ?_
  obtain ⟨n, p, paa1, m1, hdown, hid, hup⟩ := removeRound_some hround
  have hread : (m.readSlot a e).1 = .layer b := hb
  dsimp only at hdown hid
  rw [removeDown, slot_first, hread, removeDown] at hdown
  obtain ⟨hlater, ps, rfl, hlen⟩ := later_removeDown hdown
  have hpow : 2 ^ (n * c.idrBits) < 2 ^ ((l + 2) * c.idrBits) :=
    Nat.pow_lt_pow_right (by norm_num) (mul_lt_mul_of_pos_right (by omega) c.idrBits_pos)
  have hstep : 0 < 2 ^ (n * c.idrBits) := by positivity
  have hlow : 2 ^ ((l + 2) * c.idrBits) ≤ w.id := by omega
  have hhigh : w.id < 2 ^ ((l + 2 + 1) * c.idrBits) := lt_of_lt_of_le (by omega) hlast
  have hsize : l + 2 < w.id.size :=
    (Nat.le_mul_of_pos_right _ c.idrBits_pos).trans_lt (Nat.lt_size.2 hlow)
  have hbetween : (ps ++ [(.layer b : Link α A)]).length = ps.length + 1 := length_append
  rw [append_cons] at hup
  obtain ⟨hn, hp, hfreed⟩ := removeUp_climbs hlow hhigh (by omega) (by omega) hup
  refine spoilt_of_round (by omega) fun w' hround' => spoilt_of_stale ?_
  obtain ⟨n', p', paa', m', hdown', -, hup'⟩ := removeRound_some hround'
  refine (later_removeUp hup').stale ?_
  rw [hn, hp] at hdown'
  by_cases ha : a ∈ w.mem.freed
  · exact removeDown_stale ha hdown'
  · have hslot : slot c (l + 2) w.id = e := slot_of_high (high_eq_iff.2
      ⟨by omega, by rw [Nat.succ_mul]; omega⟩)
    have hcell := ((later_readSlot a e).trans ((later_readSlot b _).trans
      (hlater.trans (later_removeUp hup)))).cell a ha
    have hread' : (w.mem.readSlot a e).1 = .layer b := (congrArg (Cell.ary · e) hcell).trans hb
    have hfreed' : b ∈ (w.mem.readSlot a e).2.freed := hfreed b (by simp)
    rw [removeDown, hslot, hread'] at hdown'
    exact removeDown_stale hfreed' hdown'

/-- The walk over the slots after the first one of a layer, one of which has a layer below it. -/
lemma spoilt_slots {below : Fin c.idrSize → List A} (ha : a ∉ m.freed) (hbelow : ∀ e, a ∉ below e)
    (hslots : ∀ e, Short (l + 2) ((m.cell a).ary e) (below e) ∨ ∃ b, (m.cell a).ary e = .layer b)
    {e : Fin c.idrSize} (he : 0 < e.val) (hb : (m.cell a).ary e = .layer b)
    (hmax : 2 ^ ((l + 3) * c.idrBits) ≤ max) :
    Spoilt c before max (atSlot m a below paa (l + 1) 1) := by
  obtain ⟨d, ⟨hd, b, hb⟩, hmin⟩ := (wellFounded_lt (α := Fin c.idrSize)).has_min
    {e | 0 < e.val ∧ ∃ b, (m.cell a).ary e = .layer b} ⟨e, he, b, hb⟩
  refine reaches_between ha hbelow hmax hd d.isLt (fun k hk hkd => ?_) _
    (spoilt_layer (b := b) hd ?_ hmax)
  · exact (hslots k).resolve_right fun hb => hmin k ⟨hk, hb⟩ hkd
  · have hcell : (atSlot m a below paa (l + 1) d).mem.cell a = _ := (atSlot_cell ha hbelow).1
    exact (congrArg (Cell.ary · d) hcell).trans hb

/-- The walk over a tree in which the layers above the lowest ones are on the way to id 0 frees
every layer of it. The walk over any other tree reads a freed layer. -/
lemma walk_tree {q : Ptr α c.idrSize} {xs : List A} (hshape : Shaped (l + 1) q)
    (hstored : Stored m.cell q p xs) (hxs : xs.Nodup) (hfresh : ∀ x ∈ xs, x ∉ m.freed)
    (hmax : 2 ^ ((l + 1) * c.idrBits) ≤ max) :
    (Slim (l + 1) q → Reaches c before max ⟨0, l + 1, p, paa, m⟩
      ⟨2 ^ ((l + 1) * c.idrBits), l + 2, paa.headD before, paa.tail, m.freeAll c xs⟩) ∧
    (¬ Slim (l + 1) q → Spoilt c before max ⟨0, l + 1, p, paa, m⟩) := by
  induction l generalizing q p xs paa with
  | zero =>
    exact ⟨fun _ => walk_short (hstored.short_of_shaped hshape) hmax,
      fun hslim => absurd (slim_of_layers (by omega)) hslim⟩
  | succ l ih =>
    cases hstored with
    | null =>
      exact ⟨fun _ => walk_short (.null _) hmax, fun hslim => absurd (by cases l <;> trivial) hslim⟩
    | item x => exact absurd hshape id
    | @layer a ary below slots =>
      have hnot := not_mem_below hxs
      have ha : a ∉ m.freed := hfresh a (mem_append_right _ (mem_singleton_self a))
      cases l with
      | zero =>
        refine ⟨fun _ => ?_, fun hslim => absurd (slim_of_layers le_rfl) hslim⟩
        rw [← atSlot_zero below]
        exact walk_slots ha hnot hmax c.first.isLt fun e _ => (slots e).short_of_shaped (hshape e)
      | succ l =>
        have hlt : 2 ^ ((l + 2) * c.idrBits) ≤ max := (pow_lt_succ_bits (l + 2)).le.trans hmax
        have hpos : 0 < max := lt_of_lt_of_le (by positivity) hlt
        have hmem : below c.first ∈ ofFn below := mem_ofFn.2 ⟨_, rfl⟩
        have hbelow := nodup_flatten.1 (nodup_append.1 hxs).1
        obtain ⟨hreaches, hspoilt⟩ := @ih (.layer a :: paa) _ _ _ (hshape c.first) (slots c.first)
          (hbelow.1 _ hmem) (fun x hx => hfresh x (mem_append_left _ (mem_flatten.2 ⟨_, hmem, hx⟩))) hlt
        have henter : Slim (l + 2) (ary c.first) → Reaches c before max ⟨0, l + 3, .layer a, paa, m⟩
            (atSlot m a below paa (l + 1) 1) := by
          intro hfirst P hend
          have hone : ((ofFn below).take 1).flatten = below c.first := take_flatten_succ _ c.first
          rw [atSlot, one_mul, hone] at hend
          exact (hreaches hfirst P hend).congr hpos rfl (removeRound_enter ha)
        refine ⟨fun hslim => ?_, fun hslim => ?_⟩
        · refine (henter hslim.1).trans (walk_slots ha hnot hmax
            (Nat.one_lt_two_pow c.idrBits_pos.ne') fun e he => ?_)
          have hne : e ≠ c.first := fun h => ne_of_gt he (congrArg Fin.val h)
          have hnull := slots e
          rw [hslim.2 e hne] at hnull
          exact hnull.short_of_null _
        · by_cases hfirst : Slim (l + 2) (ary c.first)
          · obtain ⟨e, he, hne⟩ : ∃ e, e ≠ c.first ∧ ary e ≠ .null := by
              by_contra hall
              push Not at hall
              exact hslim ⟨hfirst, hall⟩
            have hslots d := (slots d).null_or_layer (hshape d)
            obtain ⟨b, hb⟩ := (hslots e).resolve_left fun h => hne h.1
            exact henter hfirst _ (spoilt_slots ha hnot (fun d => (hslots d).imp_left And.right)
              (Nat.pos_of_ne_zero fun hzero => he (Fin.ext hzero)) hb hmax)
          · exact (hspoilt hfirst).congr hpos rfl (removeRound_enter ha)

end Again

section Result
variable [DecidableEq A]

/-- The allocator without ids, with the given number of free layers. -/
def emptied (α : Type*) (c : Config) (free : ℕ) : IdrHandle α c.idrSize :=
  ⟨.null, 0, replicate free .zero⟩

lemma idrFind_emptied (free id : ℕ) : idrFind c (emptied α c free) id = some .null := by
  unfold idrFind emptied
  dsimp only
  split_ifs <;> rfl

/-- The walk of `idr_remove_all`. -/
lemma walk_all {m : Memory α A c.idrSize} {s : IdrHandle α c.idrSize} {xs : List A}
    (hstored : Stored m.cell s.top m.top xs) (hxs : xs.Nodup) (hfresh : m.freed = [])
    (hshape : Shaped s.layers s.top) (hempty : s.layers = 0 → s.top = .null) (before : Link α A) :
    (Slim s.layers s.top → Reaches c before (2 ^ (s.layers * c.idrBits))
      ⟨0, s.layers, m.top, [], m⟩
      ⟨2 ^ (s.layers * c.idrBits), s.layers + 1, before, [], m.freeAll c xs⟩) ∧
    (¬ Slim s.layers s.top → Spoilt c before (2 ^ (s.layers * c.idrBits))
      ⟨0, s.layers, m.top, [], m⟩) := by
  generalize s.layers = layers at hshape hempty ⊢
  cases layers with
  | zero =>
    rw [hempty rfl] at hstored ⊢
    exact ⟨fun _ => walk_short (hstored.short_of_null 0) le_rfl, fun hslim => absurd trivial hslim⟩
  | succ l => exact walk_tree hshape hstored hxs (by simp [hfresh]) le_rfl

/-- For every allocator that calls lead to, `idr_remove_all` frees each layer of the tree once and
reads none after that, leaves no id, and puts the layers on the free list with those that were
there, if and only if the layers above the lowest ones are on the way to id 0. -/
theorem idr_remove_all_slim {es : List (Call α)} {s : IdrHandle α c.idrSize}
    (hrun : Run (CallStep c) (IdrHandle.init α c.idrSize) es s)
    {m : Memory α A c.idrSize} {xs frees : List A} (hm : Represents m s xs frees)
    (before : Link α A) :
    (∃ m', idrRemoveAll c m before = some m' ∧ (m'.freed = xs ∧ xs.Nodup) ∧ m'.stale = false ∧
      ∃ s', Represents m' s' [] (xs.reverse ++ frees) ∧ ∀ id, idrFind c s' id = some .null) ↔
    Slim s.layers s.top := by
  have hinv := calls_spec hrun
  have hxs := (nodup_append.1 hm.distinct).1
  obtain ⟨hreaches, hspoilt⟩ := walk_all (m := { m with freed := [], stale := false }) hm.tree hxs
    rfl hinv.tree.shaped hinv.empty.2 before
  rw [← hm.layers] at hreaches hspoilt ⊢
  constructor
  · rintro ⟨m', hm', -, hfresh, -⟩
    by_contra hslim
    obtain ⟨w, hloop, rfl⟩ := Option.map_eq_some_iff.1 hm'
    cases hfresh.symm.trans ((hspoilt hslim).loop (Nat.le_add_left _ _) w hloop)
  · intro hslim
    refine ⟨_, congrArg (Option.map _) ((hreaches hslim).loop rfl), ⟨freeAll_freed, hxs⟩,
      freeAll_stale, emptied α c (xs.reverse ++ frees).length, ⟨.null, rfl,
      freeAll_chain hm.chain hm.distinct, rfl, ?_, ?_⟩, fun id => idrFind_emptied _ id⟩
    · rw [length_append, length_reverse, ← hm.count]
      exact freeAll_count.trans (add_comm _ _)
    · rw [nil_append]
      exact ((reverse_perm xs).append_right frees).nodup_iff.2 hm.distinct

/-- Two layers, one of them the lowest. -/
theorem remove_all_two_layers :
    ∃ s : IdrHandle ℕ Config.long32.idrSize, isAllocated .long32 s 1000 = true ∧
      ∃ m', idrRemoveAll .long32 (layout .long32 s) .null = some m' ∧ m'.freed.length = 2 ∧
        m'.stale = false := by
  have hrun := run_one (Covered .long32) 1000 (by decide) (by decide +kernel) (by decide +kernel)
  have hlayers : (idrGetNewAbove .long32 15 primed 10 1000).2.layers = 2 := by
    decide +kernel
  obtain ⟨m', hm', hfreed, hstale, _⟩ := (idr_remove_all_slim hrun
    (layout_represents (calls_spec hrun).free) .null).2 (slim_of_layers hlayers.le)
  refine ⟨_, ?_, m', hm', ?_, hstale⟩
  · decide +kernel
  · rw [hfreed.1]
    decide +kernel

/-- With id 1024 the layer that covers the ids from 1024 to 2047 is read after it was
freed, and freed again. -/
theorem remove_all_frees_twice :
    ∃ (es : List (Call ℕ)) (s : IdrHandle ℕ Config.long32.idrSize),
      Run (CallStep .long32) (IdrHandle.init ℕ Config.long32.idrSize) es s ∧
      Represents (layout .long32 s) s (layersAt [] s.top)
        ((List.range' 0 s.idFree.length).map .inr) ∧
      ∃ m', idrRemoveAll .long32 (layout .long32 s) .null = some m' ∧ m'.stale = true ∧
        ∃ a, 1 < m'.freed.count a := by
  have hrun := run_one (Covered .long32) 1024 (by decide) (by decide +kernel) (by decide +kernel)
  refine ⟨_, _, hrun, layout_represents (calls_spec hrun).free, ?_⟩
  have hall : (idrRemoveAll .long32 (layout .long32 (idrGetNewAbove .long32 15 primed 10 1024).2)
      .null).any (fun m => m.stale && decide (1 < m.freed.count (.inl [slot .long32 0 1]))) = true := by
    decide +kernel
  rw [Option.any_eq_true_iff_get] at hall
  obtain ⟨hsome, htwice⟩ := hall
  rw [Bool.and_eq_true, decide_eq_true_iff] at htwice
  exact ⟨_, (Option.some_get hsome).symm, htwice.1, _, htwice.2⟩

end Result

end BooxKernel.Idr
