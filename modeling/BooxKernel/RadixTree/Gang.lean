import BooxKernel.Lib.Scans
import BooxKernel.RadixTree.Runs

/-!
# Looking up many items at once

`radix_tree_gang_lookup` calls `__lookup` again and again with the index that the last call got
to. Each call skips the subtrees in which there is nothing to find, and then takes items from
one node of height 1. The index 0 stands for the end of the index space: the index has wrapped.
-/
namespace BooxKernel.RadixTree
open Digits Runs Scans Loops List Nat Bool Option

variable {α : Type*} {c : Config}

/-- What `radix_tree_lookup` returns for an index. -/
def Spec.value (c : Config) (a : Spec α) (i : ℕ) : Ptr α c.mapSize := .ofOption (a.map i)

/-- Where a search that ended with this index has got to. -/
def reached (c : Config) (index : ℕ) : ℕ := if index = 0 then 2 ^ c.indexBits else index

variable {t : Fin maxTags} {a : Spec α} {index maxItems : ℕ} {value : ℕ → Ptr α c.mapSize}
  {P : ℕ → Prop} {hit : Fin c.mapSize → Bool} {pick : Fin c.mapSize → Option (Ptr α c.mapSize)}

lemma reached_mod {n : ℕ} (hpos : 0 < n) (hle : n ≤ 2 ^ c.indexBits) :
    reached c (n % 2 ^ c.indexBits) = n := by
  unfold reached
  by_cases hn : n = 2 ^ c.indexBits
  · rw [hn, mod_self, if_pos rfl]
  · rw [mod_eq_of_lt (by omega), if_neg (by omega)]

section Seek
variable {level base index' i next : ℕ}

/-- What the search for a slot comes to when the slots that it does not take have nothing of `P`
below them. -/
def SeekSpec (c : Config) (P : ℕ → Prop) (hit : Fin c.mapSize → Bool) (level base index : ℕ) :
    Sought c.mapSize → Prop
  | .slot d next => hit d = true ∧ index ≤ next ∧ next < 2 ^ c.indexBits ∧
      high c.mapShift level next = c.mapSize * base + d ∧ ∀ j, index ≤ j → j < next → ¬ P j
  | .out next => next < 2 ^ c.indexBits ∧ index < reached c next ∧
      ∀ j, index ≤ j → j < reached c next → ¬ P j

lemma SeekSpec.skip {r : Sought c.mapSize} (h : SeekSpec c P hit level base index' r)
    (hle : index ≤ index') (hnone : ∀ j, index ≤ j → j < index' → ¬ P j)
    : SeekSpec c P hit level base index r := by
  have hall : ∀ {stop}, (∀ j, index' ≤ j → j < stop → ¬ P j) → ∀ j, index ≤ j → j < stop → ¬ P j :=
    fun hskip j hj hstop => (lt_or_ge j index').elim (hnone j hj) fun hj => hskip j hj hstop
  cases r with
  | slot d next =>
    obtain ⟨hhit, hnext, hlt, hhigh, hskip⟩ := h
    exact ⟨hhit, by omega, hlt, hhigh, hall hskip⟩
  | out next =>
    obtain ⟨hlt, hreached, hskip⟩ := h
    exact ⟨hlt, by omega, hall hskip⟩

section
variable (hlevel : level * c.mapShift ≤ c.indexBits)
include hlevel

lemma next_subtree (hindex : index < 2 ^ c.indexBits) :
    ∃ n, n ≤ 2 ^ c.indexBits ∧ index < n ∧ high c.mapShift level n = high c.mapShift level index + 1 ∧
      (∀ j, index ≤ j → j < n → high c.mapShift level j = high c.mapShift level index) ∧
      index - index % 2 ^ (level * c.mapShift) + 2 ^ (level * c.mapShift) = n := by
  have hpos : 0 < 2 ^ (level * c.mapShift) := by positivity
  obtain ⟨hle, hlt⟩ := high_eq_iff.1 (rfl : high c.mapShift level index = _)
  refine ⟨(high c.mapShift level index + 1) * 2 ^ (level * c.mapShift), ?_, hlt, ?_, ?_, ?_⟩
  · obtain ⟨k, hk⟩ := pow_dvd_pow 2 hlevel
    rw [hk, mul_comm (2 ^ _) k] at hindex ⊢
    rw [high_eq_div]
    exact mul_le_mul_right _ ((div_lt_iff_lt_mul hpos).2 hindex)
  · rw [high_eq_div _ _ (_ * _), Nat.mul_div_cancel _ hpos]
  · exact fun j hj hj' => high_eq_iff.2 ⟨by omega, hj'⟩
  · have hdiv := div_add_mod' index (2 ^ (level * c.mapShift))
    rw [high_eq_div, add_mul]
    omega

section
variable (hmiss : ∀ d, hit d = false → ∀ j, high c.mapShift level j = c.mapSize * base + d → ¬ P j)
include hmiss

lemma seek_miss (hi : i < c.mapSize) (hhit : ¬ hit ⟨i, hi⟩ = true)
    (hindex : index < 2 ^ c.indexBits) (hhigh : high c.mapShift level index = c.mapSize * base + i)
    (hnext : next = (index - index % 2 ^ (level * c.mapShift) + 2 ^ (level * c.mapShift)) %
      2 ^ c.indexBits) :
    SeekSpec c P hit level base index (.out next) ∧
      (next ≠ 0 → high c.mapShift level next = c.mapSize * base + (i + 1)) := by
  obtain ⟨n, hle, hlt, hhighn, hsame, hn⟩ := next_subtree hlevel hindex
  rw [hn] at hnext
  have hreached : reached c next = n := hnext ▸ reached_mod (by omega) hle
  refine ⟨⟨hnext ▸ mod_lt _ (by positivity), by omega, fun j hj hj' => ?_⟩, fun hne => ?_⟩
  · exact hmiss ⟨i, hi⟩ (eq_false_iff.2 hhit) j (by rw [hsame j hj (by omega), hhigh])
  · obtain rfl : next = n := by rwa [reached, if_neg hne] at hreached
    rw [hhighn, hhigh, add_assoc]

lemma seekLoop_spec (hi : i < c.mapSize) (hindex : index < 2 ^ c.indexBits)
    (hhigh : high c.mapShift level index = c.mapSize * base + i) :
    SeekSpec c P hit level base index (seekLoop c hit (level * c.mapShift) i index) := by
  fun_induction seekLoop c hit (level * c.mapShift) i index with
  | case1 i index _ hhit => exact ⟨hhit, le_rfl, hindex, hhigh, fun j hj hj' => by omega⟩
  | case2 i index _ hhit start next _ => exact (seek_miss hlevel hmiss hi hhit hindex hhigh rfl).1
  | case3 i index _ hhit start next _ _ => exact (seek_miss hlevel hmiss hi hhit hindex hhigh rfl).1
  | case4 i index _ hhit start next hne hlast ih =>
    obtain ⟨⟨hlt, hreached, hskip⟩, hhigh'⟩ := seek_miss hlevel hmiss hi hhit hindex hhigh rfl
    rw [reached, if_neg hne] at hreached hskip
    exact (ih (by omega) hlt (hhigh' hne)).skip hreached.le hskip
  | case5 i index h => exact absurd hi h

end

end

end Seek

section Grab
variable {base n m i : ℕ} {r : List (Ptr α c.mapSize) × ℕ}

/-- The results of a search from `index` to `stop`: all that is to be found there, and not more
than `maxItems`. -/
def Gathered (P : ℕ → Prop) (value : ℕ → Ptr α c.mapSize) (maxItems index stop : ℕ)
    (results : List (Ptr α c.mapSize)) : Prop :=
  ∃ xs, Scan P index stop xs ∧ results = xs.map value ∧ xs.length ≤ maxItems ∧ index ≤ stop

/-- The results of a search that began at `index`, and the index that it got to. -/
def Grabbed (c : Config) (P : ℕ → Prop) (value : ℕ → Ptr α c.mapSize) (maxItems index : ℕ)
    (r : List (Ptr α c.mapSize) × ℕ) : Prop :=
  Gathered P value maxItems index (reached c r.2) r.1 ∧ r.2 < 2 ^ c.indexBits

lemma grabbed_nil (hpos : 0 < n) (hle : n ≤ 2 ^ c.indexBits) :
    Grabbed c P value maxItems n ([], n % 2 ^ c.indexBits) := by
  have hreached := reached_mod hpos hle
  refine ⟨⟨[], scan_nil fun i hi hi' => ?_, rfl, zero_le _, hreached.ge⟩,
    mod_lt _ (by positivity)⟩
  rw [hreached] at hi'
  omega

lemma Grabbed.lt (h : Grabbed c P value maxItems (n + 1) r) : n < reached c r.2 := by
  obtain ⟨⟨xs, -, -, -, hle⟩, -⟩ := h
  exact hle

lemma Grabbed.cons (h : Grabbed c P value maxItems (n + 1) r) (hn : P n) :
    Grabbed c P value (maxItems + 1) n (value n :: r.1, r.2) := by
  obtain ⟨⟨xs, hscan, hvalues, hlen, hle⟩, hlt⟩ := h
  exact ⟨⟨n :: xs, (scan_singleton hn).append hscan (le_succ n) hle, by simp [hvalues],
    by simpa using hlen, (le_succ n).trans hle⟩, hlt⟩

lemma Grabbed.skip (h : Grabbed c P value maxItems m r) (hle : n ≤ m)
    (hnone : ∀ i, n ≤ i → i < m → ¬ P i) : Grabbed c P value maxItems n r := by
  obtain ⟨⟨xs, hscan, hvalues, hlen, hm⟩, hlt⟩ := h
  exact ⟨⟨xs, hscan.skip hle hm hnone, hvalues, hlen, hle.trans hm⟩, hlt⟩

lemma grabLoop_spec (hnode : c.mapSize * base + c.mapSize ≤ 2 ^ c.indexBits)
    (hpick : ∀ d : Fin c.mapSize, P (c.mapSize * base + d) →
      pick d = some (value (c.mapSize * base + d)))
    (hskip : ∀ d : Fin c.mapSize, ¬ P (c.mapSize * base + d) → pick d = none)
    (hi : i ≤ c.mapSize) (hmax : 0 < maxItems) (hn : n = c.mapSize * base + i) :
    Grabbed c P value maxItems n (grabLoop c pick maxItems i (n % 2 ^ c.indexBits)) ∧
      (i < c.mapSize → n < reached c (grabLoop c pick maxItems i (n % 2 ^ c.indexBits)).2) := by
  have hsize := mapSize_pos c
  have hpicked : ∀ {i n : ℕ} {node : Ptr α c.mapSize} (hlt : i < c.mapSize),
      n = c.mapSize * base + i → pick ⟨i, hlt⟩ = some node → P n ∧ node = value n := by
    rintro i n node hlt rfl hfound
    by_cases hp : P (c.mapSize * base + i)
    · rw [hpick ⟨i, hlt⟩ hp] at hfound
      exact ⟨hp, (some.inj hfound).symm⟩
    · rw [hskip ⟨i, hlt⟩ hp] at hfound
      exact absurd hfound (by simp)
  generalize hindex : n % 2 ^ c.indexBits = index
  fun_induction grabLoop c pick maxItems i index generalizing n with
  | case1 i index hlt next node =>
    rename_i hfound
    obtain ⟨hp, rfl⟩ := hpicked hlt hn hfound
    have hrest : Grabbed c P value 0 (n + 1) ([], next) := by
      have hnext : next = (n + 1) % 2 ^ c.indexBits := by
        show (index + 1) % _ = _
        rw [← hindex, mod_add_mod]
      rw [hnext]
      exact grabbed_nil (by omega) (by omega)
    exact ⟨hrest.cons hp, fun _ => hrest.lt⟩
  | case2 maxItems i index hlt next node hfound hone rest =>
    rename_i ih
    obtain ⟨hp, rfl⟩ := hpicked hlt hn hfound
    have hrest := (ih (n := n + 1) hlt (by omega) (by omega) (by rw [← mod_add_mod, hindex])).1
    have hcons := hrest.cons hp
    rw [Nat.sub_add_cancel hmax] at hcons
    exact ⟨hcons, fun _ => hrest.lt⟩
  | case3 maxItems i index hlt next hfound =>
    rename_i ih
    have hp : ¬ P n := by
      intro hp
      rw [hpick ⟨i, hlt⟩ (hn ▸ hp)] at hfound
      exact absurd hfound (by simp)
    have hrest := (ih (n := n + 1) hlt hmax (by omega) (by rw [← mod_add_mod, hindex])).1
    refine ⟨hrest.skip (le_succ n) fun j hj hj' => ?_, fun _ => hrest.lt⟩
    obtain rfl : j = n := by omega
    exact hp
  | case4 maxItems i index hlt =>
    rw [← hindex]
    exact ⟨grabbed_nil (by omega) (by omega), fun h => absurd h hlt⟩

end Grab

section Lookup
variable {level base : ℕ} {p : Ptr α c.mapSize}

/-- A search from `index` succeeds, and gets past it. -/
def Advances (c : Config) (P : ℕ → Prop) (value : ℕ → Ptr α c.mapSize) (maxItems index : ℕ)
    (result : Option (List (Ptr α c.mapSize) × ℕ)) : Prop :=
  ∃ r, result = some r ∧ Grabbed c P value maxItems index r ∧ index < reached c r.2

lemma Advances.skip {index' : ℕ} {result : Option (List (Ptr α c.mapSize) × ℕ)}
    (h : Advances c P value maxItems index' result) (hle : index ≤ index')
    (hnone : ∀ j, index ≤ j → j < index' → ¬ P j) : Advances c P value maxItems index result := by
  obtain ⟨r, hr, hgrabbed, hlt⟩ := h
  exact ⟨r, hr, hgrabbed.skip hle hnone, by omega⟩

lemma advances_seek {result : Sought c.mapSize} (hseek : SeekSpec c P hit level base index result)
    {found : Fin c.mapSize → ℕ → Option (List (Ptr α c.mapSize) × ℕ)}
    (hfound : ∀ d next, hit d = true → next < 2 ^ c.indexBits →
      high c.mapShift level next = c.mapSize * base + d →
      Advances c P value maxItems next (found d next)) :
    Advances c P value maxItems index
      (match result with
      | .out next => some ([], next)
      | .slot d next => found d next) := by
  cases result with
  | out next =>
    obtain ⟨hnext, hlt, hnone⟩ := hseek
    exact ⟨_, rfl, ⟨⟨[], scan_nil hnone, rfl, zero_le _, hlt.le⟩, hnext⟩, hlt⟩
  | slot d next =>
    obtain ⟨hhit, hle, hnext, hhigh, hnone⟩ := hseek
    exact (hfound d next hhit hnext hhigh).skip hle hnone

lemma advances_grab (hshift : c.mapShift ≤ c.indexBits)
    (hpick : ∀ d : Fin c.mapSize, P (c.mapSize * base + d) →
      pick d = some (value (c.mapSize * base + d)))
    (hskip : ∀ d : Fin c.mapSize, ¬ P (c.mapSize * base + d) → pick d = none)
    (hmax : 0 < maxItems) (hindex : index < 2 ^ c.indexBits) (hbase : high c.mapShift 1 index = base) :
    Advances c P value maxItems index
      (some (grabLoop c pick maxItems (offset c 0 index) index)) := by
  have hn : index = c.mapSize * base + (offset c 0 index).val := by
    rw [← high_offset hbase, high_zero]
  have hnode : c.mapSize * base + c.mapSize ≤ 2 ^ c.indexBits := by
    have hshift' : 1 * c.mapShift ≤ c.indexBits := by rwa [one_mul]
    obtain ⟨n, hle, -, hhigh, -⟩ := next_subtree hshift' hindex
    rw [hbase, high_eq_iff, one_mul] at hhigh
    calc c.mapSize * base + c.mapSize = (base + 1) * c.mapSize := by ring
      _ ≤ n := hhigh.1
      _ ≤ 2 ^ c.indexBits := hle
  have hgrab := grabLoop_spec hnode hpick hskip (offset c 0 index).isLt.le hmax hn
  rw [mod_eq_of_lt hindex] at hgrab
  exact ⟨_, rfl, hgrab.1, hgrab.2 (offset c 0 index).isLt⟩

lemma not_tagged {tags : Fin maxTags → Fin c.mapSize → Bool}
    (htags : ∀ (t : Fin maxTags) (d : Fin c.mapSize), tags t d = true ↔
      ∃ i ∈ a.tagged t, high c.mapShift level i = c.mapSize * base + d)
    {d : Fin c.mapSize} (hd : tags t d = false) (j : ℕ)
    (hj : high c.mapShift level j = c.mapSize * base + d) : j ∉ a.tagged t := by
  intro hmem
  exact eq_false_iff.1 hd ((htags t d).2 ⟨j, hmem, hj⟩)

lemma isNull_value {i : ℕ} (hi : a.map i ≠ none) : (a.value c i).isNull = false := by
  unfold Spec.value
  cases hm : a.map i with
  | none => exact absurd hm hi
  | some x => rfl

section
variable (hshift : c.mapShift ≤ c.indexBits) (hmax : 0 < maxItems) (hrep : Rep a (level + 1) base p)
  (hp : p.isNull = false) (hlevel : level * c.mapShift ≤ c.indexBits)
  (hindex : index < 2 ^ c.indexBits) (hbase : high c.mapShift (level + 1) index = base)
include hshift hmax hrep hp hlevel hindex hbase

lemma lookupItems_spec : Advances c (fun i => a.map i ≠ none) (a.value c) maxItems index
    (lookupItems c maxItems (level + 1) p index) := by
  induction level generalizing base p index with
  | zero =>
    obtain ⟨ht, count, tags, slots, rfl⟩ := hrep.exists_node hp
    have hslot : ∀ d : Fin c.mapSize, slots d = a.value c (c.mapSize * base + d) := hrep.2.2.1
    refine advances_grab hshift (fun d hd => ?_) (fun d hd => ?_) hmax hindex hbase
    · rw [hslot d, isNull_value hd]
      rfl
    · rw [hslot d, Spec.value, not_not.1 hd]
      rfl
  | succ level ih =>
    obtain ⟨ht, count, tags, slots, rfl⟩ := hrep.exists_node hp
    refine advances_seek (seekLoop_spec hlevel
      (fun d hd j hj => not_not.2 (hrep.absent (by simpa using hd) hj))
      (offset c (level + 1) index).isLt hindex (high_offset hbase)) fun d next hhit hnext hhigh => ?_
    have hfull : (slots d).isNull = false := by simpa using hhit
    rw [if_neg (by simp [hfull])]
    exact ih (hrep.2.2.1 d) hfull ((mul_le_mul_right _ (le_succ level)).trans hlevel)
      hnext hhigh

lemma lookupTagged_spec (hpresent : ∀ i ∈ a.tagged t, a.map i ≠ none) :
    Advances c (· ∈ a.tagged t) (a.value c) maxItems index
      (lookupTagged c t maxItems (level + 1) p index) := by
  induction level generalizing base p index with
  | zero =>
    obtain ⟨ht, count, tags, slots, rfl⟩ := hrep.exists_node hp
    obtain ⟨-, -, hslots, htags⟩ := hrep
    have hslot : ∀ d : Fin c.mapSize, slots d = a.value c (c.mapSize * base + d) := hslots
    have htag : ∀ d : Fin c.mapSize, tags t d = true ↔ c.mapSize * base + d ∈ a.tagged t := by
      simpa using htags t
    refine advances_seek (seekLoop_spec hlevel (fun d hd => (not_tagged htags hd))
      (offset c 0 index).isLt hindex (high_offset hbase)) fun d next _ hnext hhigh => ?_
    refine advances_grab hshift (fun d hd => ?_) (fun d hd => ?_) hmax hnext (high_slot.1 hhigh).1
    · rw [(htag d).2 hd, hslot d, isNull_value (hpresent _ hd)]
      rfl
    · rw [eq_false_iff.2 fun h => hd ((htag d).1 h)]
      rfl
  | succ level ih =>
    obtain ⟨ht, count, tags, slots, rfl⟩ := hrep.exists_node hp
    obtain ⟨-, -, hslots, htags⟩ := hrep
    refine advances_seek (seekLoop_spec hlevel (fun d hd => (not_tagged htags hd))
      (offset c (level + 1) index).isLt hindex (high_offset hbase)) fun d next hhit hnext hhigh => ?_
    have hfull : (slots d).isNull = false := by
      obtain ⟨i, hi, hhigh'⟩ := (htags t d).1 hhit
      exact (hslots d).notNull hhigh' (hpresent i hi)
    rw [if_neg (succ_ne_zero level), if_neg (by simp [hfull])]
    exact ih (hslots d) hfull ((mul_le_mul_right _ (le_succ level)).trans hlevel) hnext hhigh

end

end Lookup

section Gang
variable {maxIndex first : ℕ} {results found : List (Ptr α c.mapSize)}

/-- The first `maxItems` items of `P` from `first` on, in the order of their indices. -/
def FirstItems (c : Config) (P : ℕ → Prop) (value : ℕ → Ptr α c.mapSize) (first maxItems : ℕ)
    (results : List (Ptr α c.mapSize)) : Prop :=
  ∃ xs, Scan P first (2 ^ c.indexBits) xs ∧ results = (xs.take maxItems).map value

lemma Gathered.append {mid stop : ℕ} (h : Gathered P value maxItems first mid results)
    (h' : Gathered P value (maxItems - results.length) mid stop found) :
    Gathered P value maxItems first stop (results ++ found) := by
  obtain ⟨xs, hscan, rfl, hlen, hle⟩ := h
  obtain ⟨ys, hscan', rfl, hlen', hle'⟩ := h'
  refine ⟨xs ++ ys, hscan.append hscan' hle hle', map_append.symm, ?_, hle.trans hle'⟩
  rw [length_map] at hlen'
  rw [length_append]
  omega

lemma Gathered.firstItems {stop : ℕ} (h : Gathered P value maxItems first stop results)
    (hstop : stop ≤ 2 ^ c.indexBits)
    (hend : maxItems ≤ results.length ∨ ∀ i, stop ≤ i → i < 2 ^ c.indexBits → ¬ P i) :
    FirstItems c P value first maxItems results := by
  obtain ⟨xs, hscan, rfl, hlen, hle⟩ := h
  obtain ⟨ys, hys⟩ := exists_scan P stop (2 ^ c.indexBits)
  refine ⟨xs ++ ys, hscan.append hys hle hstop, ?_⟩
  rcases hend with hfull | hnone
  · rw [length_map] at hfull
    rw [take_left' (hlen.antisymm hfull)]
  · rw [hys.unique (scan_nil hnone), append_nil, take_of_length_le hlen]

lemma gangLoop_spec {lookup : ℕ → ℕ → Option (List (Ptr α c.mapSize) × ℕ)}
    (hlookup : ∀ maxItems index, 0 < maxItems → index < 2 ^ c.indexBits → index ≤ maxIndex →
      Advances c P value maxItems index (lookup maxItems index)) (hrange : ∀ i, P i → i ≤ maxIndex)
    (hindex : index < 2 ^ c.indexBits) (hresults : Gathered P value maxItems first index results) :
    ∃ r, gangLoop c lookup maxIndex maxItems results index = some r ∧
      FirstItems c P value first maxItems r := by
  induction hk : 2 ^ c.indexBits - index using Nat.strong_induction_on generalizing results index with
  | _ k ih =>
    rw [gangLoop_eq, gangRound]
    by_cases hfull : results.length < maxItems
    · rw [if_pos hfull]
      by_cases hbig : index > maxIndex
      · rw [if_pos hbig]
        refine ⟨results, rfl, hresults.firstItems hindex.le (.inr fun i hi _ hp => ?_)⟩
        have := hrange i hp
        omega
      · rw [if_neg hbig]
        obtain ⟨⟨found, next⟩, hcall, ⟨hfound, hnext⟩, hlt⟩ :=
          hlookup (maxItems - results.length) index (by omega) hindex (by omega)
        have hall := hresults.append hfound
        rw [hcall]
        by_cases hwrap : next = 0
        · have hreached : reached c next = 2 ^ c.indexBits := if_pos hwrap
          simp only [if_pos hwrap, bind_some, Round.elim]
          rw [hreached] at hall
          exact ⟨_, rfl, hall.firstItems le_rfl (.inr fun i hi hi' => absurd hi' hi.not_gt)⟩
        · have hreached : reached c next = next := if_neg hwrap
          simp only [if_neg hwrap, bind_some, Round.elim]
          rw [hreached] at hall hlt
          exact ih _ (by omega) hnext hall rfl
    · rw [if_neg hfull]
      exact ⟨results, rfl, hresults.firstItems hindex.le (.inl (not_lt.1 hfull))⟩

lemma gathered_nil : Gathered P value maxItems first first [] :=
  ⟨[], scan_nil fun i hi hi' => by omega, rfl, zero_le _, le_rfl⟩

lemma firstItems_nil (hnone : ∀ i, first ≤ i → i < 2 ^ c.indexBits → ¬ P i) :
    FirstItems c P value first maxItems [] := ⟨[], scan_nil hnone, by simp⟩

lemma firstItems_zero (honly : ∀ i, P i → i = 0) (hzero : P 0) (hmax : 0 < maxItems)
    (hvalue : value 0 = q) : ∃ r, (if first > 0 then some [] else some [q]) = some r ∧
      FirstItems c P value first maxItems r := by
  subst hvalue
  split_ifs with hfirst
  · exact ⟨[], rfl, firstItems_nil fun i hi _ hp => by have := honly i hp; omega⟩
  · obtain rfl : first = 0 := by omega
    have hone : Scan P 0 (2 ^ c.indexBits) ([0] ++ []) := by
      refine (scan_singleton hzero).append (scan_nil fun i hi _ hp => ?_) (by omega)
        (Nat.one_le_two_pow)
      have := honly i hp
      omega
    exact ⟨_, rfl, _, hone, by rw [take_of_length_le hmax]; rfl⟩

variable {root : Root α c.mapSize}

section
variable (hshift : c.mapShift ≤ c.indexBits) (hinv : RootInv a root)
  (hfirst : first < 2 ^ c.indexBits) (hmax : 0 < maxItems)
include hshift hinv hfirst hmax

lemma radixTreeGangLookup_spec : ∃ r, radixTreeGangLookup c root first maxItems = some r ∧
      FirstItems c (fun i => a.map i ≠ none) (a.value c) first maxItems r := by
  unfold radixTreeGangLookup
  obtain ⟨hroot, hnone⟩ | ⟨x, hroot, hzero, honly⟩ | ⟨level, count, tags, slots, hroot, hheight, hrep⟩ :=
    hinv.rnode_cases
  · rw [hroot]
    exact ⟨[], rfl, firstItems_nil fun i _ _ hi => hi (hnone i)⟩
  · rw [hroot]
    exact firstItems_zero honly (by simp [hzero]) hmax (by rw [Spec.value, hzero]; rfl)
  · rw [hroot]
    refine gangLoop_spec (fun maxItems index hmax hindex hle => ?_)
      (fun i hi => hheight ▸ hinv.le_maxindex hi) hfirst gathered_nil
    exact lookupItems_spec hshift hmax hrep rfl (hinv.shift level hheight).le hindex
      (not_not.1 fun hne => ((maxindex_lt hindex).2 hne).not_ge hle)

lemma radixTreeGangLookupTag_spec :
    ∃ r, radixTreeGangLookupTag c root first maxItems t = some r ∧
      FirstItems c (· ∈ a.tagged t) (a.value c) first maxItems r := by
  unfold radixTreeGangLookupTag
  by_cases htag : root.tags t = true
  · obtain ⟨j, hj⟩ := (hinv.rootTags t).1 htag
    rw [if_neg (by simp [htag])]
    obtain ⟨hroot, hnone⟩ | ⟨x, hroot, hzero, honly⟩ |
      ⟨level, count, tags, slots, hroot, hheight, hrep⟩ := hinv.rnode_cases
    · exact absurd (hnone j) (hinv.present t j hj)
    · rw [hroot]
      have honly' : ∀ i ∈ a.tagged t, i = 0 := fun i hi => honly i (hinv.present t i hi)
      exact firstItems_zero honly' (honly' j hj ▸ hj) hmax (by rw [Spec.value, hzero]; rfl)
    · rw [hroot]
      refine gangLoop_spec (fun maxItems index hmax hindex hle => ?_)
        (fun i hi => hheight ▸ hinv.le_maxindex (hinv.present t i hi)) hfirst gathered_nil
      exact lookupTagged_spec hshift hmax hrep rfl (hinv.shift level hheight).le hindex
        (not_not.1 fun hne => ((maxindex_lt hindex).2 hne).not_ge hle) (hinv.present t)
  · rw [if_pos (by simp [htag])]
    refine ⟨[], rfl, firstItems_nil fun i _ _ hi => ?_⟩
    exact htag ((hinv.rootTags t).2 ⟨i, hi⟩)

end

/-- The gang lookups end and return the first items, or the first tagged items, in the order of
their indices. `RADIX_TREE_MAP_SHIFT` is 4 or 6 and `BITS_PER_LONG` is 32 or 64. -/
theorem radix_tree_gang_lookup_ordered {es : List (Event α)} {root : Root α c.mapSize}
    (hshift : c.mapShift ≤ c.indexBits) (hrun : Run (Step c) (Root.empty α c.mapSize) es root)
    {first maxItems : ℕ} (hfirst : first < 2 ^ c.indexBits) (hmax : 1 ≤ maxItems) :
    (∃ xs : List ℕ, xs.Pairwise (· < ·) ∧
      (∀ i, i ∈ xs ↔ first ≤ i ∧ i < 2 ^ c.indexBits ∧ (history es).map i ≠ none) ∧
      radixTreeGangLookup c root first maxItems =
        some ((xs.take maxItems).map fun i => .ofOption ((history es).map i))) ∧
    ∀ t : Fin maxTags, ∃ xs : List ℕ, xs.Pairwise (· < ·) ∧
      (∀ i, i ∈ xs ↔ first ≤ i ∧ i < 2 ^ c.indexBits ∧ i ∈ (history es).tagged t) ∧
      radixTreeGangLookupTag c root first maxItems t =
        some ((xs.take maxItems).map fun i => .ofOption ((history es).map i)) := by
  have hinv := run_spec hrun
  constructor
  · obtain ⟨r, hcall, xs, hscan, rfl⟩ := radixTreeGangLookup_spec hshift hinv hfirst hmax
    exact ⟨xs, hscan.sorted, hscan.mem, hcall⟩
  · intro t
    obtain ⟨r, hcall, xs, hscan, rfl⟩ := radixTreeGangLookupTag_spec hshift hinv hfirst hmax
    exact ⟨xs, hscan.sorted, hscan.mem, hcall⟩

/-- The lookup of an item at the last index of all. -/
theorem gang_lookup_last_index :
    ∃ xs : List ℕ, xs.Pairwise (· < ·) ∧
      (∀ i, i ∈ xs ↔ 2 ≤ i ∧ i < 8 ∧ (history [.insert 1 70 .ok, .insert 7 90 .ok]).map i ≠ none) ∧
      radixTreeGangLookup ⟨1, 3, by decide⟩
        (radixTreeInsert ⟨1, 3, by decide⟩
          (radixTreeInsert ⟨1, 3, by decide⟩ (Root.empty ℕ 2) 1 70 [true]).2 7 90
            [true, true, true, true]).2 2 5 =
        some ((xs.take 5).map fun i =>
          .ofOption ((history [.insert 1 70 .ok, .insert 7 90 .ok]).map i)) := by
  have hrun : Run (Step ⟨1, 3, by decide⟩) (Root.empty ℕ 2)
      [.insert 1 70 .ok, .insert 7 90 .ok] _ :=
    .snoc (.snoc .nil ⟨by decide, [true], Prod.ext (by decide) rfl⟩)
      ⟨by decide, [true, true, true, true], Prod.ext (by decide) rfl⟩
  exact (radix_tree_gang_lookup_ordered (by decide) hrun (by decide) (by decide)).1

end Gang

end BooxKernel.RadixTree
