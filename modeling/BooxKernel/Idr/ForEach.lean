import BooxKernel.Idr.Invariant
import Mathlib.Data.Nat.Size

/-!
# Walking over all ids

`idr_for_each` keeps the layers from the top down to where it is on a stack. To get
to the next id it goes up until the layer covers every id from 0 to it, and down
again. A missing layer is skipped as a whole; the walk stands at its first id then,
because it enters a layer that exists at the first id of the layer.
-/
namespace BooxKernel.Idr
open Digits Slots List Nat Option

variable {α : Type*} {c : Config}
variable {a : ℕ → Option α} {paa : List (Ptr α c.idrSize)}

section Paths

/-- The pointer at block `base` of level `n`, with the layers above it. -/
inductive Path (top : Ptr α c.idrSize) (layers : ℕ) :
    ℕ → ℕ → Ptr α c.idrSize → List (Ptr α c.idrSize) → Prop
  | root : Path top layers layers 0 top []
  | down {n base count : ℕ} {bitmap : Fin c.idrSize → Bool} {ary : Fin c.idrSize → Ptr α c.idrSize}
      {paa : List (Ptr α c.idrSize)} (d : Fin c.idrSize)
      (h : Path top layers (n + 1) base (.layer bitmap count ary) paa) :
      Path top layers n (c.idrSize * base + d) (ary d) (.layer bitmap count ary :: paa)

variable {f : ℕ → Prop} {top p q : Ptr α c.idrSize} {layers n base id : ℕ}
  {paa' : List (Ptr α c.idrSize)}

section
variable (h : Path top layers n base p paa)
include h

lemma Path.le : n ≤ layers := by
  induction h with
  | root => exact le_rfl
  | down d h ih => omega

lemma Path.tree (htree : Tree a f layers 0 top) : Tree a f n base p := by
  induction h with
  | root => exact htree
  | down d h ih => exact ih.2.1 d

lemma Path.unique (h' : Path top layers n base q paa') : p = q := by
  induction h generalizing q paa' with
  | root =>
    generalize hb : 0 = b at h'
    cases h' with
    | root => rfl
    | down d h' => exact absurd h'.le (by omega)
  | @down n base count bitmap ary paa d h ih =>
    generalize hb : c.idrSize * base + d.val = b at h'
    cases h' with
    | root => exact absurd h.le (by omega)
    | @down _ base' count' bitmap' ary' paa' d' h' =>
      have hbase : base = base' ∧ d = d' := by
        have hd := d.isLt
        have hd' := d'.isLt
        have hdiv := congrArg (· / c.idrSize) hb
        have hpos : 0 < c.idrSize := by omega
        simp only [mul_add_div hpos, div_eq_of_lt hd, div_eq_of_lt hd', add_zero] at hdiv
        subst hdiv
        exact ⟨rfl, Fin.ext (by omega)⟩
      obtain ⟨rfl, rfl⟩ := hbase
      have hsame := ih h'
      simp only [Ptr.layer.injEq] at hsame
      rw [hsame.2.2]

end

section
variable (h : Path top layers n (high c.idrBits n id) p paa)
include h

lemma Path.up (hlt : n < layers) :
    ∃ q paa', paa = q :: paa' ∧ q.isNull = false ∧
      Path top layers (n + 1) (high c.idrBits (n + 1) id) q paa' := by
  generalize hb : high c.idrBits n id = b at h
  cases h with
  | root => exact absurd hlt (lt_irrefl _)
  | down d h =>
    rw [← (high_slot.1 hb).1] at h
    exact ⟨_, _, rfl, rfl, h⟩

lemma Path.climb (k : ℕ) (hk : n + k ≤ layers) :
    ∃ q paa', Path top layers (n + k) (high c.idrBits (n + k) id) q paa' ∧
      (0 < k → q.isNull = false) := by
  induction k with
  | zero => exact ⟨p, paa, h, fun h0 => absurd h0 (lt_irrefl 0)⟩
  | succ k ih =>
    obtain ⟨q, paa', hq, _⟩ := ih (by omega)
    obtain ⟨r, paa'', _, hr, hup⟩ := hq.up (by omega)
    exact ⟨r, paa'', hup, fun _ => hr⟩

lemma Path.above {j : ℕ} (hj : n < j) (h' : Path top layers j (high c.idrBits j id) q paa')
    : q.isNull = false := by
  obtain ⟨k, rfl⟩ := Nat.exists_eq_add_of_lt hj
  obtain ⟨r, _, hr, hnull⟩ := h.climb (k + 1) h'.le
  rw [h'.unique hr]
  exact hnull (succ_pos k)

end

end Paths

section Steps
variable {top p : Ptr α c.idrSize} {layers n id : ℕ}

lemma pushDown_spec (htree : Tree a f layers 0 top)
    (h : Path top layers n (high c.idrBits n id) p paa) :
    ∃ n' p' paa', pushDown c id n p paa = some (n', p', paa') ∧
      Path top layers n' (high c.idrBits n' id) p' paa' ∧
      (p' = .null ∨ (n' = 0 ∧ ∃ x, a id = some x ∧ p' = .item x)) := by
  induction n generalizing p paa with
  | zero =>
    refine ⟨0, p, paa, rfl, h, ?_⟩
    have hp := h.tree htree
    unfold Tree at hp
    rw [high_zero] at hp
    cases hm : a id with
    | none =>
      rw [hm] at hp
      exact .inl hp
    | some x =>
      rw [hm] at hp
      exact .inr ⟨rfl, x, rfl, hp⟩
  | succ n ih =>
    cases p with
    | null => exact ⟨n + 1, .null, paa, rfl, h, .inl rfl⟩
    | item x => exact absurd (h.tree htree) (fun hf => hf)
    | layer bitmap count ary =>
      have hdown := Path.down (slot c n id) h
      rw [← high_slot.2 ⟨rfl, rfl⟩] at hdown
      exact ih hdown

/-- The way up ends at the first layer that covers all ids up to the new one. -/
lemma popUp_spec {next : ℕ} (before : Ptr α c.idrSize) (rounds : ℕ)
    (hrounds : next.size ≤ n * c.idrBits + rounds) (hnext : next < 2 ^ (layers * c.idrBits))
    (h : Path top layers n (high c.idrBits n id) p paa) :
    ∃ n' p' paa', popUp c next before rounds n p paa = (n', p', paa') ∧
      Path top layers n' (high c.idrBits n' id) p' paa' ∧ next < 2 ^ (n' * c.idrBits) := by
  induction rounds generalizing n p paa with
  | zero => exact ⟨n, p, paa, rfl, h, size_le.1 hrounds⟩
  | succ rounds ih =>
    unfold popUp
    by_cases hlt : n * c.idrBits < next.size
    · rw [if_pos hlt]
      have hn : n < layers := by
        have hsize : next.size ≤ layers * c.idrBits := size_le.2 hnext
        exact Nat.lt_of_mul_lt_mul_right (lt_of_lt_of_le hlt hsize)
      obtain ⟨q, paa', rfl, _, hup⟩ := h.up hn
      refine ih ?_ hup
      have hbits := c.idrBits_pos
      rw [add_mul]
      omega
    · rw [if_neg hlt]
      exact ⟨n, p, paa, rfl, h, size_le.1 (not_lt.1 hlt)⟩

end Steps

section Entries
/-- The allocated ids of a range with their pointers, in increasing order. -/
def entriesFrom (a : ℕ → Option α) (id count : ℕ) : List (ℕ × α) :=
  (List.range' id count).filterMap fun i => (a i).map fun x => (i, x)

variable {id count width : ℕ}

lemma mem_entriesFrom {i : ℕ} {x : α} :
    (i, x) ∈ entriesFrom a id count ↔ (id ≤ i ∧ i < id + count) ∧ a i = some x := by
  unfold entriesFrom
  rw [mem_filterMap]
  constructor
  · rintro ⟨j, hj, hmap⟩
    obtain ⟨y, hy, hpair⟩ := map_eq_some_iff.1 hmap
    obtain ⟨rfl, rfl⟩ := Prod.mk.inj hpair
    exact ⟨mem_range'_1.1 hj, hy⟩
  · rintro ⟨hi, hx⟩
    exact ⟨i, mem_range'_1.2 hi, by rw [hx]; rfl⟩

lemma entriesFrom_sorted (a : ℕ → Option α) (id count : ℕ) :
    (entriesFrom a id count).Pairwise fun e e' => e.1 < e'.1 := by
  refine List.Pairwise.filterMap _ ?_ (pairwise_lt_range' (s := id) (n := count))
  intro i j hij e he e' he'
  obtain ⟨x, _, rfl⟩ := map_eq_some_iff.1 he
  obtain ⟨y, _, rfl⟩ := map_eq_some_iff.1 he'
  exact hij

lemma entriesFrom_skip (hwidth : width ≤ count)
    (habsent : ∀ i, id ≤ i → i < id + width → a i = none) :
    entriesFrom a id count = entriesFrom a (id + width) (count - width) := by
  have hsplit : List.range' id count =
      List.range' id width ++ List.range' (id + width) (count - width) := by
    rw [range'_append_1, Nat.add_sub_cancel' hwidth]
  unfold entriesFrom
  rw [hsplit, filterMap_append]
  have hnil : ((List.range' id width).filterMap fun i => (a i).map fun x => (i, x)) = [] := by
    rw [filterMap_eq_nil_iff]
    intro i hi
    obtain ⟨hle, hlt⟩ := mem_range'_1.1 hi
    rw [habsent i hle hlt]
    rfl
  rw [hnil, nil_append]

lemma entriesFrom_cons {x : α} (hx : a id = some x) :
    entriesFrom a id (count + 1) = (id, x) :: entriesFrom a (id + 1) count := by
  unfold entriesFrom
  rw [range'_succ, filterMap_cons_some (by rw [hx]; rfl)]

variable {σ : Type*}

/-- Calling `fn` for one entry after the other, up to the first nonzero result. -/
def visit (fn : σ → ℕ → α → ℤ × σ) (data : σ) : List (ℕ × α) → ℤ × σ
  | [] => (0, data)
  | (id, x) :: rest =>
    let r := fn data id x
    if r.1 ≠ 0 then r else visit fn r.2 rest

end Entries

section Loop
variable {σ : Type*} {top p : Ptr α c.idrSize} {layers n id : ℕ}

/-- Where the loop stands at the start of a round: at a layer that covers the ids up
to `id`, and at the first id of every block of its path that is missing. -/
structure Stands (top : Ptr α c.idrSize) (layers id n : ℕ) (p : Ptr α c.idrSize)
    (paa : List (Ptr α c.idrSize)) : Prop where
  path : Path top layers n (high c.idrBits n id) p paa
  first : ∀ j q paa', Path top layers j (high c.idrBits j id) q paa' → q = .null →
    2 ^ (j * c.idrBits) ∣ id

lemma Stands.next (before : Ptr α c.idrSize) (hfirst : 2 ^ (n * c.idrBits) ∣ id)
    (h : Path top layers n (high c.idrBits n id) p paa)
    (hlt : id + 2 ^ (n * c.idrBits) < 2 ^ (layers * c.idrBits)) :
    let popped := popUp c (id + 2 ^ (n * c.idrBits)) before (id + 2 ^ (n * c.idrBits)).size n p paa
    Stands top layers (id + 2 ^ (n * c.idrBits)) popped.1 popped.2.1 popped.2.2 := by
  obtain ⟨n', p', paa', hpop, hpath, hcover⟩ := popUp_spec before
    (id + 2 ^ (n * c.idrBits)).size (le_add_left _ _) hlt h
  have hzero : high c.idrBits n' id = high c.idrBits n' (id + 2 ^ (n * c.idrBits)) := by
    rw [high_eq_zero.2 hcover, high_eq_zero.2 (by omega)]
  rw [hpop]
  refine ⟨hzero ▸ hpath, ?_⟩
  intro j q paa'' hq hnull
  by_contra hndvd
  have hnj : n < j := by
    by_contra hle
    have hsmaller : 2 ^ (j * c.idrBits) ∣ 2 ^ (n * c.idrBits) :=
      pow_dvd_pow 2 (mul_le_mul_right _ (not_lt.1 hle))
    exact hndvd ((hsmaller.trans hfirst).add hsmaller)
  rw [high_add_block hnj hfirst hndvd] at hq
  have habove := h.above hnj hq
  rw [hnull] at habove
  simp [Ptr.isNull] at habove

section
variable (fn : σ → ℕ → α → ℤ × σ) (before : Ptr α c.idrSize)

lemma forEachLoop_spec (htree : Tree a f layers 0 top) (rounds : ℕ) (data : σ)
    (hid : id ≤ 2 ^ (layers * c.idrBits)) (hrounds : 2 ^ (layers * c.idrBits) - id ≤ rounds)
    (hstands : id < 2 ^ (layers * c.idrBits) → Stands top layers id n p paa) :
    forEachLoop c fn before (2 ^ (layers * c.idrBits)) rounds id n p paa data =
      some (visit fn data (entriesFrom a id (2 ^ (layers * c.idrBits) - id))) := by
  induction rounds generalizing id n p paa data with
  | zero =>
    have hnone : 2 ^ (layers * c.idrBits) - id = 0 := by omega
    rw [hnone]
    rfl
  | succ rounds ih =>
    by_cases hlt : id < 2 ^ (layers * c.idrBits)
    · obtain ⟨n', p', paa', hpush, hpath, hend⟩ := pushDown_spec htree (hstands hlt).path
      have hfirst : 2 ^ (n' * c.idrBits) ∣ id := by
        rcases hend with hnull | ⟨rfl, _⟩
        · exact (hstands hlt).first n' p' paa' hpath hnull
        · simp
      have hle : id + 2 ^ (n' * c.idrBits) ≤ 2 ^ (layers * c.idrBits) := by
        have hdvd : 2 ^ (n' * c.idrBits) ∣ 2 ^ (layers * c.idrBits) :=
          pow_dvd_pow 2 (mul_le_mul_right _ hpath.le)
        have hwhole := le_of_dvd (by omega) (dvd_sub hdvd hfirst)
        omega
      have hrest := fun data => ih data hle (by omega) (Stands.next before hfirst hpath)
      unfold forEachLoop
      rw [if_pos hlt, hpush]
      rcases hend with rfl | ⟨rfl, x, hx, rfl⟩
      · have habsent : ∀ i, id ≤ i → i < id + 2 ^ (n' * c.idrBits) → a i = none := by
          intro i hi hi'
          refine tree_null.1 (hpath.tree htree) i (high_eq_iff.2 ?_)
          have hblock : high c.idrBits n' id * 2 ^ (n' * c.idrBits) = id := by
            rw [high_eq_div]
            exact Nat.div_mul_cancel hfirst
          rw [add_mul, one_mul, hblock]
          exact ⟨hi, hi'⟩
        dsimp only
        rw [hrest, entriesFrom_skip (by omega) habsent, Nat.sub_sub]
      · rw [Nat.zero_mul, pow_zero] at hrest
        have hcons : 2 ^ (layers * c.idrBits) - id = 2 ^ (layers * c.idrBits) - (id + 1) + 1 := by
          omega
        rw [hcons, entriesFrom_cons hx]
        simp only [visit, zero_mul, pow_zero]
        by_cases herror : (fn data id x).1 ≠ 0
        · rw [if_pos herror, if_pos herror]
        · rw [if_neg herror, if_neg herror, hrest]
    · have hnone : 2 ^ (layers * c.idrBits) - id = 0 := by omega
      unfold forEachLoop
      rw [if_neg hlt, hnone]
      rfl

/-- `idr_for_each` calls `fn` for the allocated ids in increasing order, whatever the
word before its stack is. -/
lemma idrForEach_spec {s : IdrHandle α c.idrSize} (data : σ) (hinv : Inv a s) :
    idrForEach c s fn before data =
      some (visit fn data (entriesFrom a 0 (2 ^ (s.layers * c.idrBits)))) := by
  have hzero : high c.idrBits s.layers 0 = 0 := by simp [high]
  refine forEachLoop_spec fn before hinv.tree _ data (zero_le _) (sub_le _ _) fun _ => ?_
  exact ⟨by rw [hzero]; exact Path.root, fun _ _ _ _ _ => Dvd.intro_left 0 (zero_mul _)⟩

end

end Loop

end BooxKernel.Idr
