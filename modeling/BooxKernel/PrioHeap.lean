import BooxKernel.Lib.Heaps
import BooxKernel.Lib.Loops

/-!
# The priority heap

`heap_insert` with what it does to the array of the heap. An element is one of a type `α`; the
element `NULL` that a call may return is `none`. An index into the array is a number.
-/
namespace BooxKernel.PrioHeap
open Heaps Loops List Function

variable {α : Type*}

/-- `struct ptr_heap`. -/
structure PtrHeap (α : Type*) where
  ptrs : ℕ → α
  max : ℕ
  size : ℕ

section Model

variable (gt : α → α → Bool) (p : α)

/-- A round of the loop that inserts into a heap that is not full. -/
def insertRound (s : (ℕ → α) × ℕ) : Option (Round ((ℕ → α) × ℕ) (ℕ → α)) :=
  let (ptrs, pos) := s
  if 0 < pos ∧ gt p (ptrs ((pos - 1) / 2)) then
    some (.next (update ptrs pos (ptrs ((pos - 1) / 2)), (pos - 1) / 2))
  else some (.done (update ptrs pos p))

/-- A round of the loop that moves the new element down. -/
def heapifyRound (size : ℕ) (s : (ℕ → α) × ℕ) : Option (Round ((ℕ → α) × ℕ) (ℕ → α)) :=
  let (ptrs, pos) := s
  let left := 2 * pos + 1
  let right := 2 * pos + 2
  let largest := if left < size ∧ gt (ptrs left) p then left else pos
  let largest := if right < size ∧ gt (ptrs right) (ptrs largest) then right else largest
  if largest = pos then some (.done ptrs)
  else some (.next (update (update ptrs pos (ptrs largest)) largest p, largest))

def heapInsert (heap : PtrHeap α) : Option (PtrHeap α × Option α) :=
  if heap.size < heap.max then do
    let ptrs ← loop (insertRound gt p) (heap.ptrs, heap.size)
    some ({ heap with ptrs := ptrs, size := heap.size + 1 }, none)
  else if gt p (heap.ptrs 0) then some (heap, some p)
  else do
    let ptrs ← loop (heapifyRound gt p heap.size) (update heap.ptrs 0 p, 0)
    some ({ heap with ptrs := ptrs }, some (heap.ptrs 0))

/-- Calls in a row, with the elements that they return. -/
def insertAll : List α → PtrHeap α → Option (PtrHeap α × List α)
  | [], heap => some (heap, [])
  | p :: ps, heap => do
    let (heap, res) ← heapInsert gt p heap
    let (heap, rest) ← insertAll ps heap
    some (heap, res.toList ++ rest)

end Model

def elements (heap : PtrHeap α) : List α := (range heap.size).map heap.ptrs

/-- `gt` is the strict part of a total preorder. -/
structure TotalPreorder (gt : α → α → Bool) : Prop where
  total : ∀ a b, gt a b = false ∨ gt b a = false
  trans : ∀ {a b c}, gt a b = false → gt b c = false → gt a c = false

variable {gt : α → α → Bool} {p : α} {n : ℕ} {f : ℕ → α} {inserted returned : List α}
  {heap : PtrHeap α}

section
variable (hgt : TotalPreorder gt)
include hgt

lemma TotalPreorder.refl (a : α) : gt a a = false := (hgt.total a a).elim id id

lemma TotalPreorder.asymm {a b : α} (h : gt a b = true) : gt b a = false :=
  (hgt.total a b).resolve_left (by simp [h])

/-- The order of the elements. -/
abbrev Le (gt : α → α → Bool) (a b : α) : Prop := gt a b = false

/-- The new element moves up from the end, as if it were in the array all the time. -/
lemma insert_loop (hf : HeapOrder (Le gt) 0 n f) :
    ∃ g, loop (insertRound gt p) (f, n) = some g ∧ HeapOrder (Le gt) 0 (n + 1) g ∧
      Shuffle (n + 1) (update f n p) g := by
  refine loop_rule (P := fun s => s.2 ≤ n ∧ UpOrder (Le gt) (n + 1) s.2 (update s.1 s.2 p) ∧
      Shuffle (n + 1) (update f n p) (update s.1 s.2 p)) Prod.snd ?_
    ⟨le_rfl, ⟨fun i hi hin hne => ?_, fun _ c _ hc hcn => by omega⟩, .refl _ _⟩
  · rintro ⟨ptrs, pos⟩ ⟨hpos, hup, hsh⟩
    by_cases hmove : 0 < pos ∧ gt p (ptrs ((pos - 1) / 2))
    · have hne : (pos - 1) / 2 ≠ pos := by omega
      have hg := update_update_eq_exchange (update ptrs pos p) pos ((pos - 1) / 2)
      rw [update_idem, update_self, update_of_ne hne] at hg
      refine .inl ⟨_, if_pos hmove, show (pos - 1) / 2 < pos by omega, by omega, ?_⟩
      rw [hg]
      refine ⟨hup.move hgt.trans hmove.1 (by omega) ?_,
        hsh.trans (shuffle_exchange _ (by omega) (by omega))⟩
      rw [update_of_ne hne, update_self]
      exact hgt.asymm hmove.2
    · refine .inr ⟨_, if_neg hmove, hup.finish fun h0 => ?_, hsh⟩
      rw [update_self, update_of_ne (by omega)]
      simpa [h0] using hmove
  · rw [update_of_ne hne, update_of_ne (by omega)]
    exact hf i hi (by omega) (Nat.zero_le _)

lemma pick_spec {a b c : ℕ} (hc : (if b < n ∧ gt (f b) (f a) then b else a) = c) :
    (c = a ∨ c = b ∧ b < n) ∧ Le gt (f a) (f c) ∧ (b < n → Le gt (f b) (f c)) := by
  split_ifs at hc with h <;> subst hc
  · exact ⟨.inr ⟨rfl, h.1⟩, hgt.asymm h.2, fun _ => hgt.refl _⟩
  · exact ⟨.inl rfl, hgt.refl _, fun hb => by simpa [hb] using h⟩

lemma heapify_loop (hf : DownOrder (Le gt) 0 n 0 f) (hn : 0 < n) (hp : f 0 = p)
    : ∃ g, loop (heapifyRound gt p n) (f, 0) = some g ∧ HeapOrder (Le gt) 0 n g ∧
      Shuffle n f g := by
  refine loop_rule
    (P := fun s => s.2 < n ∧ s.1 s.2 = p ∧ DownOrder (Le gt) 0 n s.2 s.1 ∧ Shuffle n f s.1)
    (fun s => n - s.2) ?_ ⟨hn, hp, hf, .refl _ _⟩
  rintro ⟨ptrs, pos⟩ ⟨hpos, rfl, hdown, hsh⟩
  obtain ⟨l, hl⟩ : ∃ l, (if 2 * pos + 1 < n ∧ gt (ptrs (2 * pos + 1)) (ptrs pos) then
    2 * pos + 1 else pos) = l := ⟨_, rfl⟩
  obtain ⟨c, hc⟩ : ∃ c, (if 2 * pos + 2 < n ∧ gt (ptrs (2 * pos + 2)) (ptrs l) then
    2 * pos + 2 else l) = c := ⟨_, rfl⟩
  have hround : heapifyRound gt (ptrs pos) n (ptrs, pos) = if c = pos then some (.done ptrs) else
      some (.next (update (update ptrs pos (ptrs c)) c (ptrs pos), c)) := by
    rw [← hc, ← hl]
    rfl
  obtain ⟨hlcases, hle, hleft⟩ := pick_spec hgt hl
  obtain ⟨hccases, hle', hright⟩ := pick_spec hgt hc
  have hmax : ∀ d, 0 < d → d < n → (d - 1) / 2 = pos → Le gt (ptrs d) (ptrs c) := by
    intro d hd hdn hdp
    obtain rfl | rfl : d = 2 * pos + 1 ∨ d = 2 * pos + 2 := by omega
    · exact hgt.trans (hleft hdn) hle'
    · exact hright hdn
  by_cases hstop : c = pos
  · rw [if_pos hstop] at hround
    exact .inr ⟨_, hround, hdown.finish fun d hd hdn hdp => hstop ▸ hmax d hd hdn hdp, hsh⟩
  · rw [if_neg hstop] at hround
    have hcn : c < n ∧ 0 < c ∧ (c - 1) / 2 = pos := by omega
    refine .inl ⟨_, hround, show n - c < n - pos by omega, hcn.1, update_self .., ?_⟩
    rw [update_update_eq_exchange]
    exact ⟨hdown.move (Nat.zero_le _) hcn.2.1 hcn.1 hcn.2.2 (hgt.trans hle hle') hmax,
      hsh.trans (shuffle_exchange _ hpos hcn.1)⟩

end

/-- The heap after calls that inserted some elements and returned others. -/
structure Inv (gt : α → α → Bool) (heap : PtrHeap α) (inserted returned : List α) : Prop where
  pos : 0 < heap.max
  size_le : heap.size ≤ heap.max
  order : HeapOrder (Le gt) 0 heap.size heap.ptrs
  perm : elements heap ++ returned ~ inserted
  full : heap.size < heap.max → returned = []
  smallest : ∀ i < heap.size, ∀ r ∈ returned, Le gt (heap.ptrs i) r

lemma map_range_update_last (f : ℕ → α) (n : ℕ) (p : α) :
    (range (n + 1)).map (update f n p) = (range n).map f ++ [p] := by
  rw [range_succ, map_append, map_singleton, update_self]
  exact congrArg (· ++ [p]) (map_congr_left fun i hi => update_of_ne (mem_range.1 hi).ne _ _)

lemma map_range_update_first (f : ℕ → α) (p : α) (hn : 0 < n) :
    f 0 :: (range n).map (update f 0 p) ~ p :: (range n).map f := by
  obtain ⟨m, rfl⟩ := Nat.exists_eq_succ_of_ne_zero hn.ne'
  rw [range_succ_eq_map, map_cons, map_cons, map_map, map_map]
  exact .swap ..

lemma Inv.heapInsert (hgt : TotalPreorder gt) (h : Inv gt heap inserted returned) (p : α) :
    ∃ heap' res, PrioHeap.heapInsert gt p heap = some (heap', res) ∧
      Inv gt heap' (inserted ++ [p]) (returned ++ res.toList) := by
  rw [PrioHeap.heapInsert]
  by_cases hsize : heap.size < heap.max
  · obtain ⟨g, hg, horder, hsh⟩ := insert_loop (p := p) hgt h.order
    have hnil := h.full hsize
    subst hnil
    refine ⟨⟨g, heap.max, heap.size + 1⟩, none, by rw [if_pos hsize, hg]; rfl, h.pos, hsize, horder,
      ?_, fun _ => rfl, by simp⟩
    have hin := h.perm
    rw [append_nil] at hin
    exact (append_nil _).symm ▸
      (map_range_update_last _ _ p ▸ hsh.perm).trans (hin.append_right [p])
  rw [if_neg hsize]
  have hfull : heap.size = heap.max := by have := h.size_le; omega
  have hn : 0 < heap.size := hfull ▸ h.pos
  have hfirst : ∀ i < heap.size, Le gt (heap.ptrs i) (heap.ptrs 0) :=
    fun i hi => h.order.le_first hgt.trans hgt.refl hi
  by_cases hp : gt p (heap.ptrs 0)
  · refine ⟨heap, some p, if_pos hp, h.pos, h.size_le, h.order, ?_, fun hlt => absurd hlt hsize, ?_⟩
    · rw [← append_assoc]
      exact h.perm.append_right [p]
    · exact fun i hi => forall_mem_append.2 ⟨h.smallest i hi,
        forall_mem_singleton.2 (hgt.trans (hfirst i hi) (hgt.asymm hp))⟩
  · rw [Bool.not_eq_true] at hp
    have hdown : DownOrder (Le gt) 0 heap.size 0 (update heap.ptrs 0 p) := by
      refine HeapOrder.down fun i hi hin hlo => ?_
      rw [update_of_ne (by omega), update_of_ne (by omega)]
      exact h.order i hi hin (Nat.zero_le _)
    obtain ⟨g, hg, horder, hsh⟩ := heapify_loop hgt hdown hn (update_self ..)
    refine ⟨⟨g, heap.max, heap.size⟩, some (heap.ptrs 0), by rw [if_neg (by simp [hp]), hg]; rfl,
      h.pos, h.size_le, horder, ?_, fun hlt => absurd hlt hsize, ?_⟩
    · calc
        (range heap.size).map g ++ (returned ++ [heap.ptrs 0])
          ~ (range heap.size).map (update heap.ptrs 0 p) ++ (returned ++ [heap.ptrs 0]) :=
            hsh.perm.append_right _
        _ ~ (heap.ptrs 0 :: (range heap.size).map (update heap.ptrs 0 p)) ++ returned := by
            rw [← append_assoc]
            exact perm_append_singleton _ _
        _ ~ (p :: elements heap) ++ returned := (map_range_update_first _ p hn).append_right _
        _ ~ inserted ++ [p] := (h.perm.cons p).trans (perm_append_singleton p _).symm
    · have hle : ∀ i < heap.size, Le gt (update heap.ptrs 0 p i) (heap.ptrs 0) := by
        intro i hi
        rw [update_apply]
        split_ifs
        · exact hp
        · exact hfirst i hi
      intro i hi r hr
      exact hgt.trans (hsh.forall_lt (P := (Le gt · (heap.ptrs 0))) hle i hi)
        (forall_mem_append.2 ⟨h.smallest 0 hn, forall_mem_singleton.2 (hgt.refl _)⟩ r hr)

lemma Inv.insertAll (hgt : TotalPreorder gt) (ps : List α) (h : Inv gt heap inserted returned) :
    ∃ heap' rs, PrioHeap.insertAll gt ps heap = some (heap', rs) ∧
      Inv gt heap' (inserted ++ ps) (returned ++ rs) := by
  induction ps generalizing heap inserted returned with
  | nil => exact ⟨heap, [], rfl, by rwa [append_nil, append_nil]⟩
  | cons p ps ih =>
    obtain ⟨heap1, res, hres, h1⟩ := h.heapInsert hgt p
    obtain ⟨heap2, rs, hrs, h2⟩ := ih h1
    rw [append_assoc, append_assoc] at h2
    exact ⟨heap2, _, by rw [insertAll, hres]; simp [hrs], h2⟩

/-- The elements in the heap and the returned ones are the inserted ones, and none in the heap is
greater than a returned one. -/
theorem heap_keeps_smallest (hgt : TotalPreorder gt) {max : ℕ} (hmax : 1 ≤ max) (ptrs : ℕ → α)
    (ps : List α) : ∃ heap returned, insertAll gt ps ⟨ptrs, max, 0⟩ = some (heap, returned) ∧
      (∀ i, 0 < i → i < heap.size → gt (heap.ptrs i) (heap.ptrs ((i - 1) / 2)) = false) ∧
      elements heap ++ returned ~ ps ∧ ∀ a ∈ elements heap, ∀ r ∈ returned, gt a r = false := by
  have hinit : Inv gt ⟨ptrs, max, 0⟩ [] [] :=
    ⟨hmax, Nat.zero_le _, fun i _ hi => absurd hi (Nat.not_lt_zero i), .refl _, fun _ => rfl,
      by simp⟩
  obtain ⟨heap, rs, hrs, h⟩ := hinit.insertAll hgt ps
  refine ⟨heap, rs, hrs, fun i hi hin => h.order i hi hin (Nat.zero_le _), h.perm, fun a ha => ?_⟩
  obtain ⟨i, hi, rfl⟩ := mem_map.1 ha
  exact h.smallest i (mem_range.1 hi)

/-- Two places for three elements that are compared by their halves. -/
theorem heap_keeps_smallest_of_three :
    ∃ heap returned, insertAll (fun a b => b / 2 < a / 2) [7, 2, 3] ⟨fun _ => 0, 2, 0⟩ =
        some (heap, returned) ∧
      (∀ i, 0 < i → i < heap.size →
        decide (heap.ptrs ((i - 1) / 2) / 2 < heap.ptrs i / 2) = false) ∧
      elements heap ++ returned ~ [7, 2, 3] ∧
      ∀ a ∈ elements heap, ∀ r ∈ returned, decide (r / 2 < a / 2) = false :=
  heap_keeps_smallest ⟨fun a b => by simp; omega, fun h h' => by simp at *; omega⟩ (by decide) _ _

end BooxKernel.PrioHeap
