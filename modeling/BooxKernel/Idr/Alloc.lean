import BooxKernel.Idr.Search
import Mathlib.Data.Nat.Size

/-!
# Allocation of an id

Before the search the tree gets as many layers as the start of the search needs. When
the tree has nothing left from the start on it grows by one layer, the first new id of
which is free. Storing the pointer marks its id, and every layer that became full.
-/
namespace BooxKernel.Idr
open Digits Slots Function Nat

variable {α : Type*} {c : Config} {a : ℕ → Option α} {f : ℕ → Prop}
variable {p : Ptr α c.idrSize} {s : IdrHandle α c.idrSize} {free : List (Ptr α c.idrSize)}

section Grow
variable {l built : ℕ}

/-- The given number of layers on top were built with nothing but their first slot. -/
def Built (c : Config) : ℕ → Ptr α c.idrSize → Prop
  | 0, _ => True
  | built + 1, .layer _ _ ary => (∀ d, d ≠ c.first → ary d = .null) ∧ Built c built (ary c.first)
  | _ + 1, _ => False

lemma freeLayer_zero {bitmap : Fin c.idrSize → Bool} {ary : Fin c.idrSize → Ptr α c.idrSize}
    (hbitmap : ∀ d, bitmap d = false) (hary : ∀ d, d ≠ c.first → ary d = .null)
    (hfree : ∀ q ∈ free, q = .zero) : ∀ q ∈ freeLayer c free (.layer bitmap 0 ary), q = .zero := by
  refine List.forall_mem_cons.2 ⟨?_, hfree⟩
  simp only [Ptr.zero, Ptr.layer.injEq, true_and]
  refine ⟨funext hbitmap, funext fun d => ?_⟩
  by_cases hd : d = c.first
  · rw [hd, update_self]
  · rw [update_of_ne hd, hary d hd]

lemma tearDown_zero (hbuilt : Built c built p) (hfree : ∀ q ∈ free, q = .zero) :
    ∀ q ∈ tearDown c built p free, q = .zero := by
  induction built generalizing p free with
  | zero =>
    exact hfree
  | succ built ih =>
    cases p with
    | null => exact absurd hbuilt (fun h => h)
    | item x => exact absurd hbuilt (fun h => h)
    | layer bitmap count ary =>
      refine ih hbuilt.2 (freeLayer_zero (fun _ => rfl) (fun d hd => ?_) hfree)
      rw [update_of_ne hd, hbuilt.1 d hd]

section
variable (hmarks : ∀ i, f i → a i ≠ none) (htree : Tree a f (l + 1) 0 p) (hnull : p.isNull = false)
  (hrange : ∀ i, a i ≠ none → high c.idrBits (l + 1) i = 0)
include hmarks htree hnull hrange

lemma tree_raise : Tree a f (l + 2) 0 (raise c p .zero) := by
  have hother : ∀ d, d ≠ c.first → ∀ i, high c.idrBits (l + 1) i = c.idrSize * 0 + d → a i = none := by
    intro d hd i hi
    by_contra hne
    have hzero := hrange i hne
    exact hd (Fin.ext (show d.val = 0 by omega))
  refine ⟨?_, ?_, ?_⟩
  · refine (filled_one (d := c.first) ?_ fun e he => ?_).symm
    · rw [update_self, hnull]
    · rw [update_of_ne he]
      rfl
  · intro d
    by_cases hd : d = c.first
    · subst hd
      exact htree
    · rw [update_of_ne hd]
      exact hother d hd
  · intro d
    by_cases hd : d = c.first
    · subst hd
      have hfull := htree.isFull hmarks
      show _ ↔ Marked c f (l + 1) 0
      cases hp : p.isFull with
      | true => simpa [hp] using hfull
      | false =>
        rw [hp] at hfull
        simpa using hfull
    · have hno := not_marked_of_absent hmarks (hother d hd)
      rw [iff_false_right hno]
      cases hp : p.isFull <;> simp [hd]

lemma tree_of_count_zero (hcount : p.count = 0) (l' : ℕ) : Tree a f (l' + 1) 0 p := by
  cases p with
  | null => simp [Ptr.isNull] at hnull
  | item x => exact absurd htree (fun h => h)
  | layer bitmap count ary =>
    have hempty : ∀ d, ary d = .null := fun d =>
      isNull_iff.1 (filled_eq_zero (htree.1.symm.trans hcount) d)
    have habsent : ∀ i, a i = none := by
      intro i
      by_contra hne
      have hslot := htree.2.1 (slot c l i)
      rw [hempty, tree_null] at hslot
      exact hne (hslot i (high_down (hrange i hne)))
    refine ⟨htree.1, ?_, ?_⟩
    · intro d
      rw [hempty d, tree_null]
      exact fun i _ => habsent i
    · intro d
      rw [htree.2.2 d]
      exact iff_of_false (not_marked_of_absent hmarks fun i _ => habsent i)
        (not_marked_of_absent hmarks fun i _ => habsent i)

end

/-- What adding layers comes to: a failed allocation, or a tree of at least `low`
layers that represents the same map and has just enough layers for `id`, unless it
has reached the limit. -/
inductive GrowSpec (a : ℕ → Option α) (f : ℕ → Prop) (id low limit : ℕ) :
    Bool × Ptr α c.idrSize × ℕ × List (Ptr α c.idrSize) → Prop
  | failed {p : Ptr α c.idrSize} {layers : ℕ} {free : List (Ptr α c.idrSize)}
      (hfree : ∀ q ∈ free, q = .zero) : GrowSpec a f id low limit (false, p, layers, free)
  | grown {p : Ptr α c.idrSize} {layers : ℕ} {free : List (Ptr α c.idrSize)}
      (hlayer : Layer a f layers 0 p free)
      (hrange : ∀ i, a i ≠ none → high c.idrBits layers i = 0)
      (hlow : low ≤ layers) (hlimit : layers ≤ limit)
      (henough : id < 2 ^ (layers * c.idrBits) ∨ layers = limit)
      (hleast : ∀ k, low ≤ k → k < layers → 2 ^ (k * c.idrBits) ≤ id) :
      GrowSpec a f id low limit (true, p, layers, free)

lemma GrowSpec.from_lower {id low limit : ℕ}
    {r : Bool × Ptr α c.idrSize × ℕ × List (Ptr α c.idrSize)}
    (h : GrowSpec a f id (low + 1) limit r) (hbig : 2 ^ (low * c.idrBits) ≤ id) :
    GrowSpec a f id low limit r := by
  cases h with
  | failed hfree => exact .failed hfree
  | grown hlayer hrange hlow hlimit henough hleast =>
    refine .grown hlayer hrange (by omega) hlimit henough fun k hk hk' => ?_
    rcases eq_or_lt_of_le hk with rfl | hlt
    · exact hbig
    · exact hleast k hlt hk'

lemma growLoop_spec {id limit : ℕ} (hmarks : ∀ i, f i → a i ≠ none)
    (hsmall : id < 2 ^ c.maxIdShift) (left layers : ℕ)
    (hlimit : layers + left = limit) (hpos : 0 < layers) (hlayer : Layer a f layers 0 p free)
    (hrange : ∀ i, a i ≠ none → high c.idrBits layers i = 0) (hbuilt : Built c built p) :
    GrowSpec a f id layers limit (growLoop c id left p layers built free) := by
  induction left generalizing p layers built free with
  | zero =>
    refine .grown hlayer hrange le_rfl (by omega) (.inr (by omega)) fun k hk hk' => ?_
    exact absurd hk' (not_lt.2 hk)
  | succ left ih =>
    obtain ⟨l, rfl⟩ : ∃ l, layers = l + 1 := ⟨layers - 1, by omega⟩
    have hrange' : ∀ i, a i ≠ none → high c.idrBits (l + 2) i = 0 := fun i hi =>
      high_eq_zero_mono (hrange i hi) (by omega)
    unfold growLoop
    by_cases hbig : 2 ^ ((l + 1) * c.idrBits) ≤ id
    · rw [if_pos ⟨hbig, hsmall⟩]
      refine GrowSpec.from_lower ?_ hbig
      by_cases hcount : p.count = 0
      · rw [if_pos hcount]
        have htree := tree_of_count_zero hmarks hlayer.tree hlayer.null hrange hcount (l + 1)
        exact ih _ (by omega) (by omega) ⟨htree, hlayer.null, hlayer.free⟩ hrange' hbuilt
      · rw [if_neg hcount]
        cases free with
        | nil => exact .failed (tearDown_zero hbuilt hlayer.free)
        | cons new free =>
          obtain rfl := hlayer.free new (by simp)
          refine ih _ (by omega) (by omega) ⟨tree_raise hmarks hlayer.tree hlayer.null hrange, rfl,
            fun q hq => hlayer.free q (by simp [hq])⟩ hrange' ⟨fun d hd => ?_, ?_⟩
          · rw [update_of_ne hd]
          · rw [update_self]
            exact hbuilt
    · rw [if_neg (fun h => hbig h.1)]
      refine .grown hlayer hrange le_rfl (by omega) (.inl (not_le.1 hbig)) fun k hk hk' => ?_
      exact absurd hk' (not_lt.2 hk)

end Grow

section Slots
variable {id layers l fuel start : ℕ}

/-- What `idr_get_empty_slot` comes to: the first unmarked id from `start` on with all
layers on its path, or a failed allocation. An id that `layers` layers cover is found
in a tree with that many. -/
def SlotSpec (a : ℕ → Option α) (f : ℕ → Prop) (start layers : ℕ)
    (r : Outcome × IdrHandle α c.idrSize) : Prop :=
  (∃ id, r.1 = .found id ∧ IsLeast {i | start ≤ i ∧ ¬ f i} id ∧ Holds a f r.2 ∧
    0 < r.2.layers ∧ high c.idrBits r.2.layers id = 0 ∧ Open c id r.2.layers r.2.top ∧
    (id < 2 ^ (layers * c.idrBits) → r.2.layers = layers)) ∨
  (r.1 = .noMem ∧ Holds a f r.2)

/-- The number of layers of the tree in which a search from `id` on begins. -/
def layersFor (c : Config) (s : IdrHandle α c.idrSize) (id : ℕ) : ℕ :=
  max (max s.layers 1) ((id.size + c.idrBits - 1) / c.idrBits)

lemma layersFor_pos (s : IdrHandle α c.idrSize) (id : ℕ) : 0 < layersFor c s id :=
  lt_of_lt_of_le one_pos ((le_max_right _ _).trans (le_max_left _ _))

lemma lt_pow_iff_layers :
    id < 2 ^ (layers * c.idrBits) ↔ (id.size + c.idrBits - 1) / c.idrBits ≤ layers := by
  have hpos := c.idrBits_pos
  rw [← size_le, ← Nat.lt_succ_iff (n := layers), div_lt_iff_lt_mul hpos, succ_mul]
  omega

lemma layersFor_eq (hlow : max s.layers 1 ≤ layers) (hid : id < 2 ^ (layers * c.idrBits))
    (hleast : ∀ k, max s.layers 1 ≤ k → k < layers → 2 ^ (k * c.idrBits) ≤ id) :
    layers = layersFor c s id := by
  have hle : layersFor c s id ≤ layers := max_le hlow (lt_pow_iff_layers.1 hid)
  by_contra hne
  have hge := hleast (layersFor c s id) (le_max_left _ _) (by omega)
  have hlt : id < 2 ^ (layersFor c s id * c.idrBits) := lt_pow_iff_layers.2 (le_max_right _ _)
  omega

lemma startLayer_spec (h : Holds a f s) :
    startLayer c s = none ∨ ∃ p built free,
      startLayer c s = some (p, max s.layers 1, built, free) ∧
      Layer a f (max s.layers 1) 0 p free ∧ Built c built p ∧
      ∀ i, a i ≠ none → high c.idrBits (max s.layers 1) i = 0 := by
  have hrange : ∀ i, a i ≠ none → high c.idrBits (max s.layers 1) i = 0 := fun i hi =>
    high_eq_zero_mono (h.range i hi) (le_max_left _ _)
  have htree := h.tree
  unfold startLayer
  cases htop : s.top with
  | null =>
    have hzero := h.empty.1 htop
    rw [htop, tree_null, hzero] at htree
    cases hfree : s.idFree with
    | nil => exact .inl rfl
    | cons new free =>
      have hzeros := h.free
      rw [hfree] at hzeros
      obtain rfl := hzeros new (by simp)
      refine .inr ⟨.zero, 1, free, ?_, ⟨?_, rfl, fun q hq => hzeros q (by simp [hq])⟩,
        ⟨fun _ _ => rfl, trivial⟩, hrange⟩
      · rw [hzero]
        rfl
      · rw [hzero]
        refine tree_zero h.marks fun i _ => ?_
        by_contra hne
        have hi := h.range i hne
        rw [hzero] at hi
        exact hne (htree i hi)
  | item x =>
    have hne : s.layers ≠ 0 := fun hz => by simp [h.empty.2 hz] at htop
    obtain ⟨l, hl⟩ := exists_eq_succ_of_ne_zero hne
    rw [htop, hl] at htree
    exact absurd htree (fun hf => hf)
  | layer bitmap count ary =>
    have hne : s.layers ≠ 0 := fun hz => by simp [h.empty.2 hz] at htop
    have hmax : max s.layers 1 = s.layers := max_eq_left (one_le_iff_ne_zero.2 hne)
    rw [hmax]
    rw [hmax] at hrange
    rw [htop] at htree
    exact .inr ⟨_, 0, _, rfl, ⟨htree, rfl, h.free⟩, trivial, hrange⟩

lemma Layer.holds (h : Layer a f (l + 1) 0 p free) (hmarks : ∀ i, f i → a i ≠ none)
    (hrange : ∀ i, a i ≠ none → high c.idrBits (l + 1) i = 0) (hlayers : l + 1 ≤ c.maxLevel - 1) :
    Holds a f (⟨p, l + 1, free⟩ : IdrHandle α c.idrSize) := by
  refine ⟨h.tree, hmarks, hrange, hlayers, ?_, h.free⟩
  rw [← isNull_iff, h.null]
  simp

lemma mul_idrBits_le (c : Config) (hl : l ≤ c.maxLevel - 1) : l * c.idrBits ≤ c.maxIdShift :=
  (mul_le_mul_right _ hl).trans (maxLevel_shift c).le

/-- The search in a tree with the layers that `start` needs does its work. -/
abbrev Searches (a : ℕ → Option α) (f : ℕ → Prop) (s : IdrHandle α c.idrSize) (fuel start : ℕ) :
    Prop :=
  ∀ l p free, l + 1 = layersFor c s start → l + 1 ≤ c.maxLevel - 1 →
    start < 2 ^ ((l + 1) * c.idrBits) → Layer a f (l + 1) 0 p free →
    SearchSpec a f (l + 1) 0 start (subAlloc c fuel (l + 1) p start free)

/-- A round of `idr_get_empty_slot`, when the search in the tree it begins with does its work: a
tree that has nothing left from the start on is left to the next round. -/
lemma slot_round (h : Holds a f s) (hstart : start < 2 ^ ((c.maxLevel - 1) * c.idrBits))
    (hsearch : Searches a f s fuel start)
    (hnext : ∀ {l p free}, l + 1 = layersFor c s start → l + 1 ≤ c.maxLevel - 1 →
      start < 2 ^ ((l + 1) * c.idrBits) → Holds a f ⟨p, l + 1, free⟩ →
      (∀ i, start ≤ i → i < 2 ^ ((l + 1) * c.idrBits) → f i) →
      SlotSpec a f start (l + 1) (idrGetEmptySlot c fuel ⟨p, l + 1, free⟩ (2 ^ ((l + 1) * c.idrBits)))) :
    SlotSpec a f start (layersFor c s start) (idrGetEmptySlot c (fuel + 1) s start) := by
  have hlevel := two_le_maxLevel c
  have hsmall : start < 2 ^ c.maxIdShift :=
    lt_of_lt_of_le hstart (Nat.pow_le_pow_right (by norm_num) (maxLevel_shift c).le)
  rcases startLayer_spec h with hnone | ⟨p, built, free, hsome, hlayer, hbuilt, hrange⟩
  · simp only [idrGetEmptySlot, hnone]
    exact .inr ⟨rfl, h⟩
  have hlow : max s.layers 1 ≤ c.maxLevel - 1 := max_le h.layers (by omega)
  have hgrow : GrowSpec a f start (max s.layers 1) (c.maxLevel - 1)
      (growLoop c start (c.maxLevel - 1 - max s.layers 1) p (max s.layers 1) built free) :=
    growLoop_spec h.marks hsmall _ _ (by omega) (by omega) hlayer hrange hbuilt
  simp only [idrGetEmptySlot, hsome]
  generalize growLoop c start (c.maxLevel - 1 - max s.layers 1) p (max s.layers 1) built free = r
    at hgrow
  cases hgrow with
  | failed hfree => exact .inr ⟨rfl, h.tree, h.marks, h.range, h.layers, h.empty, hfree⟩
  | @grown p' layers free' hlayer' hrange' hlow' hlimit henough hleast =>
    have hfits : start < 2 ^ (layers * c.idrBits) := by
      rcases henough with hlt | heq
      · exact hlt
      · rw [heq]
        exact hstart
    have hlayers := layersFor_eq hlow' hfits hleast
    obtain ⟨l, rfl⟩ : ∃ l, layers = l + 1 := ⟨layers - 1, by omega⟩
    have hspec := hsearch l p' free' hlayers hlimit hfits hlayer'
    generalize subAlloc c fuel (l + 1) p' start free' = search at hspec
    cases hspec with
    | noMem hlayer'' => exact .inr ⟨rfl, hlayer''.holds h.marks hrange' hlimit⟩
    | found hlayer'' hopen hj hleast' =>
      exact .inl ⟨_, rfl, hleast', hlayer''.holds h.marks hrange' hlimit, succ_pos _, hj, hopen,
        fun _ => hlayers⟩
    | up hlayer'' hoid hall =>
      rw [Nat.one_mul, ← hlayers]
      exact hnext hlayers hlimit hfits (hlayer''.holds h.marks hrange' hlimit) fun i hi hlt =>
        hall i hi (high_eq_zero.2 hlt)

lemma slot_after_up (h : Holds a f s) (hlayers : s.layers = l + 1)
    (hmore : l + 1 < c.maxLevel - 1) (hfuel : c.maxLevel ≤ fuel)
    (hstart : start ≤ 2 ^ ((l + 1) * c.idrBits))
    (hall : ∀ i, start ≤ i → i < 2 ^ ((l + 1) * c.idrBits) → f i) :
    SlotSpec a f start (l + 1) (idrGetEmptySlot c (fuel + 1) s (2 ^ ((l + 1) * c.idrBits))) := by
  have hgrows : ∀ {k}, l + 1 < k → 2 ^ ((l + 1) * c.idrBits) < 2 ^ (k * c.idrBits) := fun hk =>
    Nat.pow_lt_pow_right (by norm_num) ((Nat.mul_lt_mul_right c.idrBits_pos).2 hk)
  have hround : SlotSpec a f _ _ (idrGetEmptySlot c (fuel + 1) s _) :=
    slot_round h (hgrows hmore) ?_ ?_
  · rcases hround with ⟨id, hr, hleast, hinv, hpos, hid, hopen, -⟩ | hround
    · refine .inl ⟨id, hr, ⟨⟨hstart.trans hleast.1.1, hleast.1.2⟩, ?_⟩, hinv, hpos, hid, hopen,
        fun hlt => absurd hleast.1.1 (not_le.2 hlt)⟩
      rintro i ⟨hi, hfree⟩
      by_cases hlt : i < 2 ^ ((l + 1) * c.idrBits)
      · exact absurd (hall i hi hlt) hfree
      · exact hleast.2 ⟨not_lt.1 hlt, hfree⟩
    · exact .inr hround
  · intro k p free hk hlimit hfits hlayer
    have hle : layersFor c s (2 ^ ((l + 1) * c.idrBits)) ≤ l + 2 :=
      max_le (by omega) (lt_pow_iff_layers.1 (hgrows (lt_succ_self _)))
    exact subAlloc_aligned h.marks hlayer hfits (mul_idrBits_le c hlimit) (by omega)
      (pow_dvd_pow 2 (mul_le_mul_right _ (by omega)))
  · intro k p free hk hlimit hfits hholds hmarked
    have hin := high_eq_zero.1 (h.range _ (h.marks _ (hmarked _ le_rfl hfits)))
    rw [hlayers] at hin
    exact absurd hin (lt_irrefl _)

lemma slot_of_search (h : Holds a f s) (hstart : start < 2 ^ ((c.maxLevel - 1) * c.idrBits))
    (hspace : ∃ i < 2 ^ ((c.maxLevel - 1) * c.idrBits), start ≤ i ∧ ¬ f i)
    (hfuel : c.maxLevel + 2 ≤ fuel + 1) (hsearch : Searches a f s fuel start) :
    SlotSpec a f start (layersFor c s start) (idrGetEmptySlot c (fuel + 1) s start) := by
  refine slot_round h hstart hsearch fun {l p free} _ hlimit hfits hholds hrest => ?_
  have hmore : l + 1 < c.maxLevel - 1 := by
    obtain ⟨i, hi, hle, hfree⟩ := hspace
    by_contra hge
    have heq : l + 1 = c.maxLevel - 1 := by omega
    exact hfree (hrest i hle (by rw [heq]; exact hi))
  obtain ⟨fuel, rfl⟩ : ∃ n, fuel = n + 1 := ⟨fuel - 1, by omega⟩
  exact slot_after_up hholds rfl hmore (by omega) hfits.le hrest

lemma idrGetEmptySlot_zero (h : Holds a f s)
    (hspace : ∃ i < 2 ^ ((c.maxLevel - 1) * c.idrBits), ¬ f i) (hfuel : c.maxLevel + 2 ≤ fuel) :
    SlotSpec a f 0 (layersFor c s 0) (idrGetEmptySlot c fuel s 0) := by
  obtain ⟨fuel, rfl⟩ : ∃ n, fuel = n + 1 := ⟨fuel - 1, by omega⟩
  obtain ⟨i, hi, hfree⟩ := hspace
  refine slot_of_search h (by positivity) ⟨i, hi, zero_le i, hfree⟩ hfuel ?_
  intro l p free _ hlimit hfits hlayer
  exact subAlloc_aligned h.marks hlayer hfits (mul_idrBits_le c hlimit) (by omega) (dvd_zero _)

/-- `idr_get_empty_slot` from any id on, unless the search overlooks the end of the
tree. -/
lemma idrGetEmptySlot_spec (h : Holds a f s)
    (hspace : ∃ i < 2 ^ ((c.maxLevel - 1) * c.idrBits), start ≤ i ∧ ¬ f i)
    (hseen : ¬ Overlooked c f (layersFor c s start) start) (hfuel : 2 * c.maxLevel + 1 ≤ fuel) :
    SlotSpec a f start (layersFor c s start) (idrGetEmptySlot c fuel s start) := by
  obtain ⟨fuel, rfl⟩ : ∃ n, fuel = n + 1 := ⟨fuel - 1, by omega⟩
  have hlevel := two_le_maxLevel c
  have hstart : start < 2 ^ ((c.maxLevel - 1) * c.idrBits) := by
    obtain ⟨i, hi, hle, _⟩ := hspace
    exact lt_of_le_of_lt hle hi
  refine slot_of_search h hstart hspace (by omega) ?_
  intro l p free hl hlimit hfits hlayer
  refine subAlloc_spec (k := 0) h.marks hlayer hfits (mul_idrBits_le c hlimit) (l + 1) (by omega)
    (by omega)
    ?_ (by rw [hl]; exact hseen)
  rw [zero_mul]
  exact one_dvd _

end Slots

section Straight

/-- All layers on the path of the id exist, and its bits there are clear. -/
def Straight (c : Config) (id : ℕ) : ℕ → Ptr α c.idrSize → Prop
  | 0, .layer bitmap _ _ => bitmap (slot c 0 id) = false
  | l + 1, .layer bitmap _ ary =>
    bitmap (slot c (l + 1) id) = false ∧ Straight c id l (ary (slot c (l + 1) id))
  | _, _ => False

variable {l id fuel : ℕ}

lemma Straight.exists_layer (h : Straight c id l p) :
    ∃ bitmap count ary, p = .layer bitmap count ary := by
  cases p with
  | layer bitmap count ary => exact ⟨bitmap, count, ary, rfl⟩
  | _ => cases l <;> exact absurd h fun h => h

lemma subAllocLoop_straight (h : Straight c id l p)
    (hfuel : l < fuel) (hid : id < 2 ^ c.maxIdShift) :
    subAllocLoop c fuel l p id free = (.found id, p, free) := by
  induction l generalizing fuel p with
  | zero =>
    obtain ⟨fuel, rfl⟩ : ∃ n, fuel = n + 1 := ⟨fuel - 1, by omega⟩
    obtain ⟨bitmap, count, ary, rfl⟩ := h.exists_layer
    have hm : findNextZero bitmap (slot c 0 id) = some (slot c 0 id) := findNextZero_self h
    simp [subAllocLoop, hm, hid]
  | succ l ih =>
    obtain ⟨fuel, rfl⟩ : ∃ n, fuel = n + 1 := ⟨fuel - 1, by omega⟩
    obtain ⟨bitmap, count, ary, rfl⟩ := h.exists_layer
    have hm : findNextZero bitmap (slot c (l + 1) id) = some (slot c (l + 1) id) :=
      findNextZero_self h.1
    have hopen : openSlot free count (ary (slot c (l + 1) id)) =
        some (ary (slot c (l + 1) id), count, free) := by
      obtain ⟨_, _, _, hs⟩ := h.2.exists_layer
      rw [hs]
      rfl
    have hbelow : subAllocLoop c fuel l (ary (slot c (l + 1) id)) id free =
        (.found id, ary (slot c (l + 1) id), free) := ih h.2 (by omega)
    simp [subAllocLoop, hm, not_le.2 hid, hopen, hbelow]

lemma idrGetEmptySlot_straight (h : Straight c id l s.top)
    (hl : s.layers = l + 1) (hfuel : l + 2 < fuel) (hid : id < 2 ^ (s.layers * c.idrBits))
    (hmax : s.layers ≤ c.maxLevel - 1) : idrGetEmptySlot c fuel s id = (.found id, s) := by
  obtain ⟨fuel, rfl⟩ : ∃ n, fuel = n + 2 := ⟨fuel - 2, by omega⟩
  have hstart : startLayer c s = some (s.top, s.layers, 0, s.idFree) := by
    obtain ⟨_, _, _, htop⟩ := h.exists_layer
    rw [startLayer, htop]
  have hgrow : growLoop c id (c.maxLevel - 1 - s.layers) s.top s.layers 0 s.idFree =
      (true, s.top, s.layers, s.idFree) := by
    cases c.maxLevel - 1 - s.layers with
    | zero => rfl
    | succ left => simp [growLoop, not_le.2 hid]
  have hsmall : id < 2 ^ c.maxIdShift :=
    hid.trans_le (Nat.pow_le_pow_right (by norm_num) (mul_idrBits_le c hmax))
  have hsearch : subAlloc c (fuel + 1) s.layers s.top id s.idFree = (.found id, s.top, s.idFree) := by
    simp [subAlloc, hl, subAllocLoop_straight h (show l < fuel by omega) hsmall]
  simp [idrGetEmptySlot, hstart, hgrow, hsearch]
end Straight

section Install
variable {l base id : ℕ}

lemma Open.notNull (h : Open c id (l + 1) p) : p.isNull = false := by
  obtain ⟨_, _, _, rfl⟩ := h.exists_layer
  rfl

lemma Open.storeSlot {q : Ptr α c.idrSize} {new : Bool} (h : Open c id l p) :
    Open c id l (storeSlot c id q new l p) := by
  induction l generalizing p with
  | zero => trivial
  | succ l ih =>
    cases p with
    | null => exact h
    | item x => exact h
    | layer bitmap count ary =>
      simp only [storeSlot, Open, update_self]
      exact ih h

lemma storeSlot_spec (x : α) (new : Bool) (htree : Tree a f l base p) (hopen : Open c id l p)
    (hid : high c.idrBits l id = base) (hnew : new = true ↔ a id = none) :
    Tree (update a id (some x)) f l base (storeSlot c id (.item x) new l p) ∧
      (storeSlot c id (.item x) new l p).isNull = false := by
  induction l generalizing base p with
  | zero =>
    subst hid
    simp [Tree, storeSlot, Ptr.ofOption, Ptr.isNull]
  | succ l ih =>
    obtain ⟨bitmap, count, ary, rfl⟩ := hopen.exists_layer
    have hdown := high_down hid
    obtain ⟨hbelow, hnull⟩ := ih (htree.2.1 _) hopen hdown
    refine ⟨(htree.elsewhere _).update (fun j hj => update_of_ne (fun h => hj (by rw [h, hdown])) _ _)
      (fun _ _ => Iff.rfl) hbelow ?_ (fun _ _ => rfl) (htree.2.2 _), rfl⟩
    cases l with
    | zero =>
      have hslot : ary (slot c 0 id) = .ofOption (a (c.idrSize * base + (slot c 0 id).val)) :=
        htree.2.1 _
      rw [← hdown, high_zero] at hslot
      cases hm : a id with
      | none =>
        rw [hm] at hslot
        rw [if_pos ⟨rfl, hnew.2 hm⟩, filled_update_fill (by rw [hslot]; rfl) hnull, htree.1]
      | some y =>
        rw [hm] at hslot hnew
        rw [if_neg (by simpa using hnew), filled_update_same (by rw [hslot]; rfl)]
        exact htree.1
    | succ l =>
      have hthere : (ary (slot c (l + 1) id)).isNull = false := Open.notNull hopen
      rw [filled_update_same (hthere.trans hnull.symm)]
      exact htree.1

lemma marks_or (hmarks : ∀ i, f i → a i ≠ none) (hthere : a id ≠ none) :
    ∀ i, (i = id ∨ f i) → a i ≠ none := by
  rintro i (rfl | hi)
  · exact hthere
  · exact hmarks i hi

/-- Marking an id, and the layers that are full then. The bit above is to be set when
the block is marked now. -/
lemma idrMarkFull_spec (hmarks : ∀ i, f i → a i ≠ none) (htree : Tree a f l base p)
    (hopen : Open c id l p) (hid : high c.idrBits l id = base) (hthere : a id ≠ none) :
    Tree a (fun i => i = id ∨ f i) l base (idrMarkFull c id l p).1 ∧
    ((idrMarkFull c id l p).2 = true ↔ Marked c (fun i => i = id ∨ f i) l base) ∧
    (idrMarkFull c id l p).1.isNull = p.isNull := by
  induction l generalizing base p with
  | zero =>
    subst hid
    refine ⟨htree, ?_, rfl⟩
    rw [marked_zero]
    simp [idrMarkFull]
  | succ l ih =>
    obtain ⟨bitmap, count, ary, rfl⟩ := hopen.exists_layer
    have hdown := high_down hid
    obtain ⟨hbelow, hflag, hnull⟩ := ih (htree.2.1 _) hopen hdown
    generalize hr : idrMarkFull c id l (ary (slot c l id)) = below at hbelow hflag hnull
    have hbits : ∀ d, d ≠ slot c l id →
        (if below.2 then update bitmap (slot c l id) true else bitmap) d = bitmap d := by
      intro d hd
      cases below.2 <;> simp [hd]
    have hbit : (if below.2 then update bitmap (slot c l id) true else bitmap)
        (slot c l id) = true ↔
        Marked c (fun i => i = id ∨ f i) l (c.idrSize * base + (slot c l id).val) := by
      rw [← hflag]
      cases hb : below.2 with
      | true => simp
      | false =>
        rw [hb] at hflag
        simp only [Bool.false_eq_true, if_false, iff_false, htree.2.2]
        intro hall
        exact absurd (hflag.2 fun i hi => .inr (hall i hi)) (by simp)
    have hlayer : Tree a (fun i => i = id ∨ f i) (l + 1) base
        (idrMarkFull c id (l + 1) (.layer bitmap count ary)).1 := by
      simp only [idrMarkFull, hr]
      refine (htree.elsewhere _).update (fun _ _ => rfl)
        (fun j hj => or_iff_right fun h => hj (by rw [h, hdown])) hbelow ?_ hbits hbit
      rw [filled_update_same hnull.symm]
      exact htree.1
    refine ⟨hlayer, ?_, rfl⟩
    have hwhole := hlayer.isFull (marks_or hmarks hthere)
    rw [← hwhole]
    simp only [idrMarkFull, hr, Ptr.isFull, Bool.and_eq_true, decide_eq_true_eq,
      and_iff_right_iff_imp]
    intro hall
    exact hflag.2 (hbit.1 (hall _))

lemma store_mark_spec (ptr : α) (hmarks : ∀ i, f i → a i ≠ none) (htree : Tree a f l base p)
    (hopen : Open c id l p) (hid : high c.idrBits l id = base) (habsent : a id = none) :
    Tree (update a id (some ptr)) (fun i => i = id ∨ f i) l base
      (idrMarkFull c id l (storeSlot c id (.item ptr) true l p)).1 ∧
    (idrMarkFull c id l (storeSlot c id (.item ptr) true l p)).1.isNull = false := by
  obtain ⟨hstored, hnull⟩ := storeSlot_spec ptr true htree hopen hid (by simp [habsent])
  have hmarks' : ∀ i, f i → update a id (some ptr) i ≠ none := by
    intro i hi
    rw [update_of_ne fun h => hmarks i hi (by rw [h, habsent])]
    exact hmarks i hi
  obtain ⟨hmarked, _, hsame⟩ := idrMarkFull_spec hmarks' hstored hopen.storeSlot hid (by simp)
  exact ⟨hmarked, hsame.trans hnull⟩

variable {fuel start layers : ℕ}

/-- The pointer was stored for the smallest of the given ids, or layers were wanting. -/
def NewSpec (a : ℕ → Option α) (ids : Set ℕ) (ptr : α) (r : Ret × IdrHandle α c.idrSize) : Prop :=
  (∃ id, r.1 = .ok id ∧ IsLeast ids id ∧ Inv (update a id (some ptr)) r.2) ∨
    (r.1 = .eagain ∧ Inv a r.2)

lemma idrGetNewAbove_of_slot (ptr : α)
    (hslot : SlotSpec a (fun i => a i ≠ none) start layers (idrGetEmptySlot c fuel s start)) :
    NewSpec a {i | start ≤ i ∧ a i = none} ptr (idrGetNewAbove c fuel s ptr start) := by
  unfold idrGetNewAbove idrGetNewAboveInt
  generalize idrGetEmptySlot c fuel s start = r at hslot
  obtain ⟨outcome, s'⟩ := r
  simp only [SlotSpec, not_not] at hslot
  rcases hslot with ⟨id, rfl, hleast, hinv, hpos, hid, hopen, _⟩ | ⟨rfl, hinv⟩
  · obtain ⟨htree, hnull⟩ := store_mark_spec ptr hinv.marks hinv.tree hopen hid hleast.1.2
    refine .inl ⟨id, rfl, hleast, htree.congr (fun _ _ => rfl) fun i _ => ?_, fun _ hi => hi,
      range_update hinv.range hid _, hinv.layers, ?_, hinv.free⟩
    · by_cases hi : i = id
      · simp [hi]
      · simp [hi]
    · dsimp only
      rw [← isNull_iff, hnull]
      exact iff_of_false (by simp) hpos.ne'
  · exact .inr ⟨rfl, hinv⟩

/-- `idr_get_new_above` returns the smallest free id from the start on, or fails for
want of layers, unless the search overlooks the end of the tree. -/
lemma idrGetNewAbove_spec (ptr : α) (hinv : Inv a s)
    (hspace : ∃ i < 2 ^ ((c.maxLevel - 1) * c.idrBits), start ≤ i ∧ a i = none)
    (hseen : ¬ Overlooked c (fun i => a i ≠ none) (layersFor c s start) start)
    (hfuel : 2 * c.maxLevel + 1 ≤ fuel) :
    NewSpec a {i | start ≤ i ∧ a i = none} ptr (idrGetNewAbove c fuel s ptr start) := by
  obtain ⟨i, hi, hle, hfree⟩ := hspace
  exact idrGetNewAbove_of_slot ptr
    (idrGetEmptySlot_spec hinv ⟨i, hi, hle, not_not.2 hfree⟩ hseen hfuel)

lemma idrGetNew_spec (ptr : α) (hinv : Inv a s)
    (hspace : ∃ i < 2 ^ ((c.maxLevel - 1) * c.idrBits), a i = none) (hfuel : c.maxLevel + 2 ≤ fuel) :
    NewSpec a {i | a i = none} ptr (idrGetNew c fuel s ptr) := by
  obtain ⟨i, hi, hfree⟩ := hspace
  have hspec := idrGetNewAbove_of_slot ptr
    (idrGetEmptySlot_zero hinv ⟨i, hi, not_not.2 hfree⟩ hfuel)
  simp only [zero_le, true_and] at hspec
  exact hspec

end Install

end BooxKernel.Idr
