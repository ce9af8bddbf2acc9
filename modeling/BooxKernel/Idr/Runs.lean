import BooxKernel.Idr.ForEach
import BooxKernel.Idr.Remove
import BooxKernel.Lib.Runs

/-!
# Runs of the id allocator

A history of calls determines the map from ids to pointers. After every run the tree
represents the map of its history, wherever layers ran out on the way, and a new id
is the smallest one from its start on that the map does not have.

This holds as long as `idr_get_new_above` has room for its start and `idr_remove` is
called for ids that the layers of the tree cover. Of any other id `idr_remove` takes the
lowest digits, and removes what they stand for.
-/
namespace BooxKernel.Idr
open Digits Runs Function Nat Finset

variable {α : Type*} {c : Config}

/-- The id is allocated: `idr_find` does not return NULL. -/
def isAllocated (c : Config) (s : IdrHandle α c.idrSize) (id : ℕ) : Bool :=
  match idrFind c s id with
  | some .null => false
  | _ => true

section Calls

/-- The layers of the tree cover the id, or there are none. -/
def Covered (c : Config) (s : IdrHandle α c.idrSize) (id : ℕ) : Prop :=
  s.layers = 0 ∨ id % 2 ^ c.maxIdShift < 2 ^ (s.layers * c.idrBits)

/-- An id from `start` on that the highest tree covers is free, and the search does not
overlook the end of the tree. -/
def Room (c : Config) (s : IdrHandle α c.idrSize) (start : ℕ) : Prop :=
  (∃ id < 2 ^ (c.idrBits * (c.maxLevel - 1)), start ≤ id ∧ isAllocated c s id = false) ∧
    ¬ Overlooked c (fun id => isAllocated c s id = true) (layersFor c s start) start

/-- The calls, with what `idr_get_new_above` returned. `idr_get_new` is
`idr_get_new_above` from id 0 on. -/
inductive Call (α : Type*)
  | preGet
  | getNewAbove (ptr : α) (start : ℕ) (ret : Ret)
  | replace (ptr : α) (id : ℕ)
  | remove (id : ℕ)

/-- One call, with a condition on the start of a search and one on the id to remove. -/
def StepIf (c : Config) (room removable : IdrHandle α c.idrSize → ℕ → Prop)
    (s : IdrHandle α c.idrSize) : Call α → IdrHandle α c.idrSize → Prop
  | .preGet, s' => ∃ alloc, s' = (idrPreGet c s alloc).2
  | .getNewAbove ptr start ret, s' =>
    room s start ∧ ret ≠ .timeout ∧ ∃ fuel, idrGetNewAbove c fuel s ptr start = (ret, s')
  | .replace ptr id, s' => s' = (idrReplace c s ptr id).2
  | .remove id, s' => removable s id ∧ s' = idrRemove c s id

def CallStep (c : Config) : IdrHandle α c.idrSize → Call α → IdrHandle α c.idrSize → Prop :=
  StepIf c (Room c) (Covered c)

def allocatedCount (c : Config) (s : IdrHandle α c.idrSize) : ℕ :=
  ((range (2 ^ c.maxIdShift)).filter fun id => isAllocated c s id = true).card

/-- New ids are asked for by `idr_get_new` and only while not all are taken, and
`idr_remove` is called for allocated ids. -/
def Step (c : Config) : IdrHandle α c.idrSize → Call α → IdrHandle α c.idrSize → Prop :=
  StepIf c (fun s start => start = 0 ∧ allocatedCount c s < 2 ^ (c.idrBits * (c.maxLevel - 1)))
    fun s id => isAllocated c s id = true

/-- What one call does to the map. An `int` id is masked with `MAX_ID_MASK`. -/
def after (c : Config) (a : ℕ → Option α) : Call α → ℕ → Option α
  | .preGet => a
  | .getNewAbove ptr _ (.ok id) => update a id (some ptr)
  | .getNewAbove _ _ _ => a
  | .replace ptr id =>
    match a (id % 2 ^ c.maxIdShift) with
    | none => a
    | some _ => update a (id % 2 ^ c.maxIdShift) (some ptr)
  | .remove id => update a (id % 2 ^ c.maxIdShift) none

/-- The map that a history of calls leads to. -/
def history (c : Config) (es : List (Call α)) : ℕ → Option α := es.foldl (after c) fun _ => none

variable {a : ℕ → Option α} {s s' : IdrHandle α c.idrSize}

lemma isAllocated_iff (hinv : Inv a s) (id : ℕ) :
    isAllocated c s id = true ↔ a (id % 2 ^ c.maxIdShift) ≠ none := by
  unfold isAllocated
  rw [hinv.idrFind id]
  cases a (id % 2 ^ c.maxIdShift) <;> simp [Ptr.ofOption]

lemma isAllocated_of_lt (hinv : Inv a s) {id : ℕ} (hid : id < 2 ^ c.maxIdShift) :
    isAllocated c s id = true ↔ a id ≠ none := by
  rw [isAllocated_iff hinv, mod_eq_of_lt hid]

lemma Room.map {start : ℕ} (hroom : Room c s start) (hinv : Inv a s) :
    (∃ id < 2 ^ ((c.maxLevel - 1) * c.idrBits), start ≤ id ∧ a id = none) ∧
      ¬ Overlooked c (fun id => a id ≠ none) (layersFor c s start) start := by
  obtain ⟨⟨id, hid, hle, hfree⟩, hseen⟩ := hroom
  rw [mul_comm] at hid
  have hlevel := two_le_maxLevel c
  have hcap : ∀ {k : ℕ}, k ≤ c.maxLevel - 1 → 2 ^ (k * c.idrBits) ≤ 2 ^ c.maxIdShift := fun hk =>
    Nat.pow_le_pow_right (by norm_num) (mul_idrBits_le c hk)
  refine ⟨⟨id, hid, hle, ?_⟩, ?_⟩
  · rw [← Bool.not_eq_true, isAllocated_of_lt hinv (hid.trans_le (hcap le_rfl)), not_not] at hfree
    exact hfree
  · have hlayers : layersFor c s start ≤ c.maxLevel - 1 :=
      max_le (max_le hinv.layers (by omega)) (lt_pow_iff_layers.1 (lt_of_le_of_lt hle hid))
    rwa [← overlooked_congr (layersFor_pos s start) fun i hi =>
      isAllocated_of_lt hinv (hi.trans_le (hcap hlayers))]

lemma idrRemove_covered (hinv : Inv a s) {id : ℕ} (hcovered : Covered c s id) :
    Inv (update a (id % 2 ^ c.maxIdShift) none) (idrRemove c s id) := by
  have hremoved := idrRemove_spec hinv id
  rcases hcovered with hzero | hlt
  · have htree := hinv.tree
    rw [hinv.empty.2 hzero, tree_null, hzero] at htree
    have hnone : ∀ i, a i = none := fun i => by
      by_contra hne
      have hi := hinv.range i hne
      rw [hzero] at hi
      exact hne (htree i hi)
    have hsame : ∀ i, update a i none = a := fun i => by rw [← hnone i, update_eq_self]
    rwa [hsame] at hremoved ⊢
  · rwa [← mod_mod_of_dvd id (pow_dvd_pow 2 (mul_idrBits_le c hinv.layers)),
      mod_eq_of_lt hlt] at hremoved

lemma call_spec {e : Call α} (hinv : Inv a s) (hstep : CallStep c s e s') :
    Inv (after c a e) s' := by
  cases e with
  | preGet =>
    obtain ⟨alloc, rfl⟩ := hstep
    exact idrPreGet_holds alloc hinv
  | getNewAbove ptr start ret =>
    obtain ⟨hroom, hret, fuel, hcall⟩ := hstep
    obtain ⟨hspace, hseen⟩ := hroom.map hinv
    have hmono := idrGetNewAbove_mono (le_max_left fuel (2 * c.maxLevel + 1))
      (by rw [hcall]; exact hret)
    have hspec := idrGetNewAbove_spec ptr hinv hspace hseen
      (le_max_right fuel (2 * c.maxLevel + 1))
    rw [hmono, hcall] at hspec
    rcases hspec with ⟨id, rfl, _, hinv'⟩ | ⟨rfl, hinv'⟩
    · exact hinv'
    · exact hinv'
  | replace ptr id =>
    obtain rfl := hstep
    rcases idrReplace_spec hinv ptr id with ⟨x, hx, _, hinv'⟩ | ⟨hnone, _, hsame⟩
    · simp only [after, hx]
      exact hinv'
    · simp only [after, hnone, hsame]
      exact hinv
  | remove id =>
    obtain ⟨hcovered, rfl⟩ := hstep
    exact idrRemove_covered hinv hcovered

lemma inv_init : Inv (fun _ => none) (IdrHandle.init α c.idrSize) :=
  ⟨rfl, fun _ hi => hi, fun _ hi => absurd rfl hi, zero_le _, Iff.rfl.trans (by simp [IdrHandle.init]),
    fun _ hp => absurd hp (by simp [IdrHandle.init])⟩

lemma calls_spec {es : List (Call α)} (hrun : Run (CallStep c) (IdrHandle.init α c.idrSize) es s) :
    Inv (history c es) s :=
  hrun.simulates (R := fun s a => Inv a s) inv_init fun _ _ _ _ hinv hs => call_spec hinv hs

end Calls

/-- With room for its start `idr_get_new_above` ends. When it succeeds the id is a new
one from the start on, the pointer is found there and no other id changes. -/
theorem idr_get_new_above_room {es : List (Call α)} {s : IdrHandle α c.idrSize}
    (hrun : Run (CallStep c) (IdrHandle.init α c.idrSize) es s) (start : ℕ)
    (hroom : Room c s start) (ptr : α) (fuel : ℕ) (hfuel : 2 * c.maxLevel + 1 ≤ fuel) :
    ((idrGetNewAbove c fuel s ptr start).1 = .eagain ∨
      ∃ id, (idrGetNewAbove c fuel s ptr start).1 = .ok id) ∧
    ∀ id, (idrGetNewAbove c fuel s ptr start).1 = .ok id →
      start ≤ id ∧ isAllocated c s id = false ∧
      idrFind c (idrGetNewAbove c fuel s ptr start).2 id = some (.item ptr) ∧
      ∀ i, i % 2 ^ c.maxIdShift ≠ id →
        idrFind c (idrGetNewAbove c fuel s ptr start).2 i = idrFind c s i := by
  have hinv := calls_spec hrun
  obtain ⟨hspace, hseen⟩ := hroom.map hinv
  rcases idrGetNewAbove_spec ptr hinv hspace hseen hfuel with ⟨id, hok, hleast, hinv'⟩ | ⟨hagain, _⟩
  · refine ⟨.inr ⟨id, hok⟩, fun id' hid' => ?_⟩
    obtain rfl : id = id' := Ret.ok.inj (hok.symm.trans hid')
    have hsmall : id < 2 ^ c.maxIdShift := hinv'.small (by simp)
    refine ⟨hleast.1.1, ?_, ?_, fun i hi => ?_⟩
    · rw [← Bool.not_eq_true, isAllocated_of_lt hinv hsmall, not_not]
      exact hleast.1.2
    · rw [hinv'.idrFind, mod_eq_of_lt hsmall, update_self]
      rfl
    · rw [hinv'.idrFind, hinv.idrFind, update_of_ne hi]
  · refine ⟨.inl hagain, fun id hid => ?_⟩
    rw [hagain] at hid
    cases hid

/-- An allocator without ids, after `idr_pre_get`. -/
def primed : IdrHandle ℕ Config.long32.idrSize :=
  (idrPreGet .long32 (IdrHandle.init ℕ _) (List.replicate 14 true)).2

lemma run_one (removable : IdrHandle ℕ Config.long32.idrSize → ℕ → Prop) (start : ℕ)
    (hstart : start < 2 ^ (5 * 6)) (hfree : isAllocated .long32 primed start = false)
    (hok : (idrGetNewAbove .long32 15 primed 10 start).1 = .ok start) :
    Run (StepIf .long32 (Room .long32) removable) (IdrHandle.init ℕ Config.long32.idrSize)
      [.preGet, .getNewAbove 10 start (.ok start)] (idrGetNewAbove .long32 15 primed 10 start).2 := by
  refine .snoc (.snoc .nil ⟨_, rfl⟩) ⟨⟨⟨start, hstart, le_rfl, hfree⟩, fun hover => ?_⟩, by simp, 15,
    Prod.ext hok rfl⟩
  have hthere := hover.2.1 start le_rfl (lt_pow_iff_layers.2 (le_max_right _ _))
  exact Bool.false_ne_true (hfree.symm.trans hthere)

/-- A second id from 1000 on. -/
theorem new_above_allocated :
    ∃ s : IdrHandle ℕ Config.long32.idrSize, isAllocated .long32 s 1000 = true ∧
      idrFind .long32 (idrGetNewAbove .long32 15 s 11 1000).2 1001 = some (.item 11) := by
  have hrun := run_one (Covered .long32) 1000 (by decide) (by decide +kernel) (by decide +kernel)
  refine ⟨_, ?_, ((idr_get_new_above_room hrun 1000 ?_ 11 15 (by decide)).2 1001
    (by decide +kernel)).2.2.1⟩
  · decide +kernel
  · refine ⟨⟨1001, by decide +kernel, by decide, by decide +kernel⟩, fun hover => ?_⟩
    exact absurd (hover.2.1 1001 (by decide) (by decide +kernel)) (by decide +kernel)

/-- The search for an id from 1023 on, in a tree of two layers in which this is the only
allocated one, wraps around: it hands out id 1024 and stores the pointer at id 0. -/
theorem new_above_wraps_around :
    ∃ (es : List (Call ℕ)) (s : IdrHandle ℕ Config.long32.idrSize),
      Run (CallStep .long32) (IdrHandle.init ℕ Config.long32.idrSize) es s ∧
      (idrGetNewAbove .long32 15 s 11 1023).1 = .ok 1024 ∧
      isAllocated .long32 (idrGetNewAbove .long32 15 s 11 1023).2 1024 = false ∧
      isAllocated .long32 s 0 = false ∧
      (idrFind .long32 (idrGetNewAbove .long32 15 s 11 1023).2 0).map Ptr.value = some (some 11) :=
  ⟨_, _, run_one (Covered .long32) 1023 (by decide) (by decide +kernel) (by decide +kernel),
    by decide +kernel, by decide +kernel, by decide +kernel, by decide +kernel⟩

lemma exists_inv {es : List (Call α)} {s : IdrHandle α c.idrSize}
    (hrun : Run (StepIf c (Room c) fun _ _ => True) (IdrHandle.init α c.idrSize) es s) :
    ∃ a, Inv a s := by
  refine hrun.invariant (I := fun s => ∃ a, Inv a s) ⟨_, inv_init⟩ ?_
  rintro s e s' ⟨a, hinv⟩ hstep
  cases e with
  | preGet => exact ⟨_, call_spec (e := .preGet) hinv hstep⟩
  | getNewAbove ptr start ret => exact ⟨_, call_spec (e := .getNewAbove ptr start ret) hinv hstep⟩
  | replace ptr id => exact ⟨_, call_spec (e := .replace ptr id) hinv hstep⟩
  | remove id =>
    obtain ⟨_, rfl⟩ := hstep
    exact ⟨_, idrRemove_spec hinv id⟩

/-- In every reachable state: `idr_remove` leaves every other id its pointer, and an
allocated one is not handed out again, if and only if the layers of the tree cover the
removed id, or nothing is allocated at the id that its lowest digits stand for. -/
theorem idr_remove_local {es : List (Call α)} {s : IdrHandle α c.idrSize}
    (hrun : Run (StepIf c (Room c) fun _ _ => True) (IdrHandle.init α c.idrSize) es s) (id : ℕ) :
    (∀ id', id' % 2 ^ c.maxIdShift ≠ id % 2 ^ c.maxIdShift →
      idrFind c (idrRemove c s id) id' = idrFind c s id' ∧
      (isAllocated c s id' = true → isAllocated c (idrRemove c s id) id' = true ∧
        ∀ (ptr : α) (fuel new : ℕ), (idrGetNew c fuel (idrRemove c s id) ptr).1 = .ok new →
          new ≠ id' % 2 ^ c.maxIdShift)) ↔
    id % 2 ^ c.maxIdShift < 2 ^ (s.layers * c.idrBits) ∨
      isAllocated c s (id % 2 ^ (s.layers * c.idrBits)) = false := by
  obtain ⟨a, hinv⟩ := exists_inv hrun
  have hfit := mul_idrBits_le c hinv.layers
  have hinv' := idrRemove_spec hinv id
  have hmod := mod_mod_of_dvd id (pow_dvd_pow 2 hfit)
  have hlow : id % 2 ^ (s.layers * c.idrBits) < 2 ^ (s.layers * c.idrBits) :=
    mod_lt _ (by positivity)
  have hsmall := hlow.trans_le (Nat.pow_le_pow_right (by norm_num) hfit)
  constructor
  · intro hlocal
    by_contra hbad
    push Not at hbad
    obtain ⟨hfar, hthere⟩ := hbad
    rw [ne_eq, Bool.not_eq_false, isAllocated_of_lt hinv hsmall] at hthere
    have hfind := (hlocal (id % 2 ^ (s.layers * c.idrBits))
      (by rw [mod_eq_of_lt hsmall]; omega)).1
    rw [hinv'.idrFind, hinv.idrFind, mod_eq_of_lt hsmall, update_self] at hfind
    cases hm : a (id % 2 ^ (s.layers * c.idrBits)) with
    | none => exact hthere hm
    | some x => simp [hm, Ptr.ofOption] at hfind
  · intro hgood id' hid'
    have hsame : update a (id % 2 ^ (s.layers * c.idrBits)) none (id' % 2 ^ c.maxIdShift) =
        a (id' % 2 ^ c.maxIdShift) := by
      rcases hgood with hlt | hfree
      · rw [mod_eq_of_lt hlt] at hmod
        rw [← hmod, update_of_ne hid']
      · rw [← Bool.not_eq_true, isAllocated_of_lt hinv hsmall, not_not] at hfree
        rw [← hfree, update_eq_self]
    have hfind : idrFind c (idrRemove c s id) id' = idrFind c s id' := by
      rw [hinv'.idrFind, hinv.idrFind, hsame]
    refine ⟨hfind, fun hthere => ⟨?_, fun ptr fuel new hnew heq => ?_⟩⟩
    · unfold isAllocated at hthere ⊢
      rw [hfind]
      exact hthere
    · have hmono : idrGetNew c (max fuel (c.maxLevel + 2)) (idrRemove c s id) ptr =
          idrGetNew c fuel (idrRemove c s id) ptr :=
        idrGetNewAbove_mono (le_max_left _ _) (by rw [← idrGetNew, hnew]; simp)
      have hspec := idrGetNew_spec ptr hinv' ⟨_, hlow.trans_le (Nat.pow_le_pow_right (by norm_num)
        (mul_le_mul_right _ hinv.layers)), update_self _ _ _⟩ (le_max_right fuel (c.maxLevel + 2))
      rw [hmono] at hspec
      rcases hspec with ⟨j, hj, hleast, _⟩ | ⟨hagain, _⟩
      · obtain rfl : new = j := Ret.ok.inj (hnew.symm.trans hj)
        have hnone : update a (id % 2 ^ (s.layers * c.idrBits)) none new = none := hleast.1
        rw [heq, hsame] at hnone
        exact (isAllocated_iff hinv id').1 hthere hnone
      · cases hnew.symm.trans hagain

/-- Of the ids 0 and 1, the second stays when the first is removed, and both stay when id
34 is, the lowest digit of which is 2. -/
theorem remove_one_of_two :
    ∃ s : IdrHandle ℕ Config.long32.idrSize,
      isAllocated .long32 s 0 = true ∧ isAllocated .long32 s 1 = true ∧
      idrFind .long32 (idrRemove .long32 s 0) 1 = idrFind .long32 s 1 ∧
      idrFind .long32 (idrRemove .long32 s 34) 0 = idrFind .long32 s 0 := by
  have hone := run_one (fun _ _ => True) 0 (by decide) (by decide +kernel) (by decide +kernel)
  have hrun := hone.snoc (e := Call.getNewAbove 11 0 (.ok 1))
    (u := (idrGetNewAbove .long32 15 (idrGetNewAbove .long32 15 primed 10 0).2 11 0).2)
    ⟨⟨⟨1, by decide +kernel, by decide, by decide +kernel⟩, fun hover =>
      absurd (hover.2.1 1 (by decide) (by decide +kernel)) (by decide +kernel)⟩, by simp, 15,
      Prod.ext (by decide +kernel) rfl⟩
  refine ⟨_, ?_, ?_, ((idr_remove_local hrun 0).2 (.inl ?_) 1 ?_).1,
    ((idr_remove_local hrun 34).2 (.inr ?_) 0 ?_).1⟩
  all_goals decide +kernel

/-- In a tree of one layer the removal of id 32 removes id 0. -/
theorem remove_beyond_layer :
    ∃ (es : List (Call ℕ)) (s : IdrHandle ℕ Config.long32.idrSize),
      Run (CallStep .long32) (IdrHandle.init ℕ Config.long32.idrSize) es s ∧
      isAllocated .long32 s 0 = true ∧ isAllocated .long32 (idrRemove .long32 s 32) 0 = false :=
  ⟨_, _, run_one (Covered .long32) 0 (by decide) (by decide +kernel) (by decide +kernel),
    by decide +kernel, by decide +kernel⟩

section Smallest
variable {s : IdrHandle α c.idrSize}

section
variable (hcount : allocatedCount c s < 2 ^ (c.idrBits * (c.maxLevel - 1)))
include hcount

lemma exists_free : ∃ i < 2 ^ (c.idrBits * (c.maxLevel - 1)), isAllocated c s i = false := by
  by_contra hall
  push Not at hall
  refine absurd hcount (not_lt.2 ?_)
  have hsub : range (2 ^ (c.idrBits * (c.maxLevel - 1))) ⊆
      (range (2 ^ c.maxIdShift)).filter fun id => isAllocated c s id = true := by
    intro i hi
    rw [mem_range] at hi
    rw [mem_filter, mem_range]
    refine ⟨lt_of_lt_of_le hi (Nat.pow_le_pow_right (by norm_num) ?_), by simpa using hall i hi⟩
    rw [mul_comm]
    exact (maxLevel_shift c).le
  have hcard := card_le_card hsub
  rwa [card_range] at hcard

/-- There is room for `idr_get_new` while not all ids are taken: a search from id 0 on
overlooks nothing. -/
lemma room_zero : Room c s 0 := by
  obtain ⟨i, hi, hfree⟩ := exists_free hcount
  refine ⟨⟨i, hi, zero_le i, hfree⟩, fun hover => ?_⟩
  have hlast := hover.1
  have hzero : high c.idrBits (layersFor c s 0 - 1) 0 = 0 := high_eq_zero.2 (by positivity)
  have htwo : 2 ^ 1 ≤ c.idrSize := Nat.pow_le_pow_right (by norm_num) c.idrBits_pos
  omega

end

lemma run_spec {es : List (Call α)} (hrun : Run (Step c) (IdrHandle.init α c.idrSize) es s) :
    Inv (history c es) s := by
  refine hrun.simulates (R := fun s a => Inv a s) inv_init fun s e s' a hinv hstep => ?_
  refine call_spec hinv ?_
  cases e with
  | getNewAbove ptr start ret =>
    obtain ⟨⟨rfl, hcount⟩, hcall⟩ := hstep
    exact ⟨room_zero hcount, hcall⟩
  | remove id =>
    obtain ⟨hthere, rfl⟩ := hstep
    refine ⟨.inr ?_, rfl⟩
    exact high_eq_zero.1 (hinv.range _ ((isAllocated_iff hinv id).1 hthere))
  | _ => exact hstep

/-- Over whole runs the id allocator hands out the smallest free id, finds the last
pointer stored for each id, and visits each allocated id once, in increasing order. -/
theorem idr_smallest_id (σ : Type*) {es : List (Call α)}
    (hrun : Run (Step c) (IdrHandle.init α c.idrSize) es s) :
    (∀ id < 2 ^ c.maxIdShift, idrFind c s id = some (.ofOption (history c es id))) ∧
    (allocatedCount c s < 2 ^ (c.idrBits * (c.maxLevel - 1)) →
      ∀ (ptr : α) (fuel : ℕ), c.maxLevel + 2 ≤ fuel →
        (∃ id, (idrGetNew c fuel s ptr).1 = .ok id ∧ IsLeast {i | history c es i = none} id) ∨
        ((idrGetNew c fuel s ptr).1 = .eagain ∧
          ∀ id, idrFind c (idrGetNew c fuel s ptr).2 id = idrFind c s id)) ∧
    ∃ calls : List (ℕ × α), calls.Pairwise (fun e e' => e.1 < e'.1) ∧
      (∀ id ptr, (id, ptr) ∈ calls ↔ history c es id = some ptr) ∧
      ∀ (fn : σ → ℕ → α → ℤ × σ) (before : Ptr α c.idrSize) (data : σ),
        idrForEach c s fn before data = some (visit fn data calls) := by
  have hinv := run_spec hrun
  refine ⟨?_, ?_, ?_⟩
  · intro id hid
    rw [hinv.idrFind, mod_eq_of_lt hid]
  · intro hcount ptr fuel hfuel
    obtain ⟨⟨i, hi, _, hfree⟩, _⟩ := (room_zero hcount).map hinv
    rcases idrGetNew_spec ptr hinv ⟨i, hi, hfree⟩ hfuel with
      ⟨id, hok, hleast, _⟩ | ⟨heagain, hinv'⟩
    · exact .inl ⟨id, hok, hleast⟩
    · refine .inr ⟨heagain, fun id => ?_⟩
      rw [hinv'.idrFind, hinv.idrFind]
  · refine ⟨entriesFrom (history c es) 0 (2 ^ (s.layers * c.idrBits)), entriesFrom_sorted _ _ _, ?_,
      fun fn before data => idrForEach_spec fn before data hinv⟩
    intro id ptr
    rw [mem_entriesFrom]
    refine ⟨fun h => h.2, fun hptr => ⟨⟨zero_le _, ?_⟩, hptr⟩⟩
    rw [zero_add]
    exact high_eq_zero.1 (hinv.range id (by simp [hptr]))

/-- The second of two ids stays when the first is removed. -/
theorem smallest_id_after_remove :
    idrFind ⟨1, 3, by decide, by decide⟩
      (idrRemove ⟨1, 3, by decide, by decide⟩
        (idrGetNew ⟨1, 3, by decide, by decide⟩ 5
          (idrGetNew ⟨1, 3, by decide, by decide⟩ 5
            (idrPreGet ⟨1, 3, by decide, by decide⟩ (IdrHandle.init ℕ 2) [true, true]).2 10).2 11).2 0)
      1 = some (.item 11) := by
  have hrun : Run (Step ⟨1, 3, by decide, by decide⟩) (IdrHandle.init ℕ 2)
      [.preGet, .getNewAbove 10 0 (.ok 0), .getNewAbove 11 0 (.ok 1), .remove 0] _ :=
    .snoc (.snoc (.snoc (.snoc .nil ⟨[true, true], rfl⟩)
      ⟨⟨rfl, by decide⟩, by decide, 5, Prod.ext (by decide) rfl⟩)
      ⟨⟨rfl, by decide⟩, by decide, 5, Prod.ext (by decide) rfl⟩)
      ⟨by decide, rfl⟩
  exact (idr_smallest_id Unit hrun).1 1 (by decide)

end Smallest

end BooxKernel.Idr
