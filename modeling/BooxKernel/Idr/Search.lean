import BooxKernel.Idr.Invariant

/-!
# The search for an unmarked id

The search goes down to the first unmarked id from its start on. A clear bit
promises an unmarked id below its slot, but on the path of the start this may be an
id before it. The search then comes back up from the slot: it goes on in the same
layer, or starts again from the top when the slot was the last of its layer. From the
first id of a slot on it never has to come back up. When the whole tree has nothing
left it returns to add a layer.

A search that starts again beyond the last id of the tree would wrap around to the
first slot; `Overlooked` says when this happens.
-/
namespace BooxKernel.Idr
open Digits Slots Function Nat

variable {α : Type*} {c : Config} {a : ℕ → Option α} {f : ℕ → Prop}
variable {p : Ptr α c.idrSize} {ary : Fin c.idrSize → Ptr α c.idrSize}
  {free : List (Ptr α c.idrSize)}

section Bits

section
variable {n : ℕ} {bitmap : Fin n → Bool}

lemma findNextZero_some {start m : Fin n} (h : findNextZero bitmap start = some m) :
    start ≤ m ∧ bitmap m = false ∧ ∀ d, start ≤ d → d < m → bitmap d = true := by
  unfold findNextZero at h
  rw [Fin.find?_eq_some_iff] at h
  simp only [Bool.and_eq_true, decide_eq_true_eq, Bool.not_eq_true', Bool.and_eq_false_iff,
    decide_eq_false_iff_not, Bool.not_eq_false'] at h
  refine ⟨h.1.1, h.1.2, fun d hstart hd => ?_⟩
  exact (h.2 d hd).resolve_left (not_not.2 hstart)

lemma findNextZero_self {m : Fin n} (h : bitmap m = false) : findNextZero bitmap m = some m := by
  unfold findNextZero
  rw [Fin.find?_eq_some_iff]
  refine ⟨by simp [h], fun d hd => ?_⟩
  simp [not_le.2 hd]

lemma findNextZero_none {start : Fin n}
    (h : findNextZero bitmap start = none) (d : Fin n) (hd : start ≤ d) : bitmap d = true := by
  unfold findNextZero at h
  rw [Fin.find?_eq_none_iff] at h
  simpa [hd] using h d

end

variable {l id base : ℕ} {m : Fin c.idrSize}

lemma replaceDigit_eq (hbase : high c.idrBits (l + 1) id = base)
    (hfit : (c.idrSize * base + m) * 2 ^ (l * c.idrBits) < 2 ^ (c.maxIdShift + 1)) :
    replaceDigit c l id (slot c l id) m = (c.idrSize * base + m) * 2 ^ (l * c.idrBits) := by
  have hslot : (slot c l id).val = high c.idrBits l id % 2 ^ c.idrBits := digit_val _ _ _
  unfold replaceDigit
  rw [hslot, xor_digit m.isLt, ← high_succ, hbase, shiftLeft_eq]
  exact mod_eq_of_lt hfit

lemma nextId_eq (hfit : (high c.idrBits l id + 1) * 2 ^ (l * c.idrBits) ≤ 2 ^ c.maxIdShift) :
    nextId c l id = (high c.idrBits l id + 1) * 2 ^ (l * c.idrBits) := by
  unfold nextId
  rw [or_low_add_one, ← high_eq_div]
  exact mod_eq_of_lt (lt_of_le_of_lt hfit (Nat.pow_lt_pow_right (by norm_num) (by omega)))

lemma pow_block (c : Config) (l : ℕ) :
    2 ^ ((l + 1) * c.idrBits) = c.idrSize * 2 ^ (l * c.idrBits) := by
  rw [add_mul, one_mul, pow_add, mul_comm]
  rfl

lemma slot_block_le (m : Fin c.idrSize) :
    (c.idrSize * base + m + 1) * 2 ^ (l * c.idrBits) ≤ (base + 1) * 2 ^ ((l + 1) * c.idrBits) := by
  rw [pow_block, ← mul_assoc]
  apply Nat.mul_le_mul_right
  rw [add_mul, mul_comm base]
  omega

variable {bitmap : Fin c.idrSize → Bool} {count : ℕ}

lemma search_none (htree : Tree a f (l + 1) base (.layer bitmap count ary))
    (hbase : high c.idrBits (l + 1) id = base) (hm : findNextZero bitmap (slot c l id) = none) :
    ∀ i, id ≤ i → high c.idrBits (l + 1) i = base → f i := by
  intro i hle hi
  have hdown := high_down hi
  refine (htree.2.2 _).1 (findNextZero_none hm _ ?_) i hdown
  have hmono := high_mono (b := c.idrBits) (l := l) hle
  rw [high_down hbase] at hmono
  omega

/-- The id at which the search goes on below the slot with the first clear bit. -/
structure Descent (c : Config) (f : ℕ → Prop) (l base id : ℕ) (m : Fin c.idrSize) (next : ℕ) :
    Prop where
  block : high c.idrBits l next = c.idrSize * base + m
  space : ¬ Marked c f l (c.idrSize * base + m)
  le : id ≤ next
  gap : ∀ i, id ≤ i → i < next → f i
  small : next < 2 ^ c.maxIdShift
  start : next = id ∨ next = (c.idrSize * base + m) * 2 ^ (l * c.idrBits)

lemma search_some (htree : Tree a f (l + 1) base (.layer bitmap count ary))
    (hbase : high c.idrBits (l + 1) id = base) (hm : findNextZero bitmap (slot c l id) = some m)
    (hfit : (base + 1) * 2 ^ ((l + 1) * c.idrBits) ≤ 2 ^ c.maxIdShift) :
    Descent c f l base id m
      (if m ≠ slot c l id then replaceDigit c l id (slot c l id) m else id) := by
  obtain ⟨hle, hclear, hset⟩ := findNextZero_some hm
  have hspace : ¬ Marked c f l (c.idrSize * base + m) := by
    rw [← htree.2.2 m, hclear]
    simp
  have hdown := high_down hbase
  by_cases hne : m ≠ slot c l id
  · have hlt : (c.idrSize * base + m) * 2 ^ (l * c.idrBits) < 2 ^ c.maxIdShift := by
      refine lt_of_lt_of_le ?_ ((slot_block_le m).trans hfit)
      exact mul_lt_mul_of_pos_right (lt_succ_self _) (by positivity)
    rw [if_pos hne, replaceDigit_eq hbase
      (hlt.trans (Nat.pow_lt_pow_right (by norm_num) (by omega)))]
    refine ⟨high_first c l _, hspace, ?_, ?_, hlt, .inr rfl⟩
    · refine (high_eq_iff.1 hdown).2.le.trans (mul_le_mul_right _ ?_)
      omega
    · intro i hi hlt'
      have hlow := high_mono (b := c.idrBits) (l := l) hi
      have hblock : high c.idrBits l i < c.idrSize * base + m := by
        rw [high_eq_div]
        exact Nat.div_lt_of_lt_mul (by rwa [mul_comm])
      have hd : high c.idrBits l i - c.idrSize * base < c.idrSize := by
        omega
      refine (htree.2.2 ⟨high c.idrBits l i - c.idrSize * base, hd⟩).1 (hset _ ?_ ?_) i ?_
      · rw [Fin.le_def]
        dsimp only
        omega
      · rw [Fin.lt_def]
        dsimp only
        omega
      · dsimp only
        omega
  · rw [not_not] at hne
    subst hne
    rw [if_neg (fun h => h rfl)]
    refine ⟨hdown, hspace, le_rfl, fun i hi hlt => absurd hlt (not_lt.2 hi), ?_, .inl rfl⟩
    exact lt_of_lt_of_le (high_eq_iff.1 hbase).2 hfit

end Bits

section Search

/-- All layers on the path of the id exist. -/
def Open (c : Config) (id : ℕ) : ℕ → Ptr α c.idrSize → Prop
  | 0, _ => True
  | l + 1, .layer _ _ ary => Open c id l (ary (slot c l id))
  | _ + 1, _ => False

lemma Open.exists_layer {id l : ℕ} (h : Open c id (l + 1) p) :
    ∃ bitmap count ary, p = .layer bitmap count ary := by
  cases p with
  | layer bitmap count ary => exact ⟨bitmap, count, ary, rfl⟩
  | _ => exact absurd h fun h => h

/-- A layer during a search, and the free layers. -/
structure Layer (a : ℕ → Option α) (f : ℕ → Prop) (l base : ℕ) (p : Ptr α c.idrSize)
    (free : List (Ptr α c.idrSize)) : Prop where
  tree : Tree a f l base p
  null : p.isNull = false
  free : ∀ q ∈ free, q = .zero

/-- What the search from `id` on below a layer comes to: the first unmarked id, a
failed allocation, or nothing unmarked in the rest of the block. -/
inductive SearchSpec (a : ℕ → Option α) (f : ℕ → Prop) (l base id : ℕ) :
    Outcome × Ptr α c.idrSize × List (Ptr α c.idrSize) → Prop
  | found {j : ℕ} {p : Ptr α c.idrSize} {free : List (Ptr α c.idrSize)}
      (hlayer : Layer a f l base p free) (hopen : Open c j l p) (hj : high c.idrBits l j = base)
      (hleast : IsLeast {i | id ≤ i ∧ ¬ f i} j) : SearchSpec a f l base id (.found j, p, free)
  | noMem {p : Ptr α c.idrSize} {free : List (Ptr α c.idrSize)} (hlayer : Layer a f l base p free) :
      SearchSpec a f l base id (.noMem, p, free)
  | up {oid : ℕ} {p : Ptr α c.idrSize} {free : List (Ptr α c.idrSize)}
      (hlayer : Layer a f l base p free) (hoid : high c.idrBits l oid = base)
      (hall : ∀ i, id ≤ i → high c.idrBits l i = base → f i) :
      SearchSpec a f l base id (.up oid ((base + 1) * 2 ^ (l * c.idrBits)), p, free)

/-- The search came up from the last slot of a layer, and is to start again at the end
of the blocks of level `k` and `k + 1` that `id` belongs to. -/
inductive RestartSpec (a : ℕ → Option α) (f : ℕ → Prop) (l base id : ℕ) :
    Outcome × Ptr α c.idrSize × List (Ptr α c.idrSize) → Prop
  | restart {k : ℕ} {p : Ptr α c.idrSize} {free : List (Ptr α c.idrSize)}
      (hlayer : Layer a f (l + 1) base p free) (hpos : 0 < k) (hk : k ≤ l)
      (hlast : 2 ^ ((k + 1) * c.idrBits) ∣ (high c.idrBits k id + 1) * 2 ^ (k * c.idrBits))
      (hall : ∀ i, id ≤ i → i < (high c.idrBits k id + 1) * 2 ^ (k * c.idrBits) → f i)
      (hspace : ¬ Marked c f l (high c.idrBits l id)) :
      RestartSpec a f l base id (.restart ((high c.idrBits k id + 1) * 2 ^ (k * c.idrBits)), p, free)

variable {l base id count fuel : ℕ} {bitmap : Fin c.idrSize → Bool}
  {r : Outcome × Ptr α c.idrSize × List (Ptr α c.idrSize)} {m : Fin c.idrSize}

/-- A layer with the entry count `count` takes any layer for the ids of its slot `m`. -/
def Takes (a : ℕ → Option α) (f : ℕ → Prop) (l base : ℕ) (bitmap : Fin c.idrSize → Bool)
    (ary : Fin c.idrSize → Ptr α c.idrSize) (m : Fin c.idrSize) (count : ℕ) : Prop :=
  ∀ q free, Layer a f (l + 1) (c.idrSize * base + m) q free →
    Layer a f (l + 2) base (.layer bitmap count (update ary m q)) free

lemma openSlot_spec (hmarks : ∀ i, f i → a i ≠ none)
    (hlayer : Layer a f (l + 2) base (.layer bitmap count ary) free) (m : Fin c.idrSize) :
    openSlot free count (ary m) = none ∨
    ∃ child count' free', openSlot free count (ary m) = some (child, count', free') ∧
      Layer a f (l + 1) (c.idrSize * base + m) child free' ∧
      Takes a f l base bitmap ary m count' := by
  have hslot := hlayer.tree.2.1 m
  have hcount := hlayer.tree.1
  have habove : ∀ count', (∀ q : Ptr α c.idrSize, q.isNull = false →
      count' = filled Ptr.isNull (update ary m q)) → Takes a f l base bitmap ary m count' := by
    intro count' hcount' q free'' hq
    refine ⟨?_, rfl, hq.free⟩
    exact (hlayer.tree.elsewhere m).update (fun _ _ => rfl) (fun _ _ => Iff.rfl) hq.tree
      (hcount' q hq.null) (fun _ _ => rfl) (hlayer.tree.2.2 m)
  cases hm : ary m with
  | null =>
    rw [hm] at hslot
    cases free with
    | nil => exact .inl rfl
    | cons new free =>
      obtain rfl := hlayer.free new (by simp)
      refine .inr ⟨.zero, count + 1, free, rfl, ⟨tree_zero hmarks hslot, rfl,
        fun q hq => hlayer.free q (by simp [hq])⟩, habove _ fun q hq => ?_⟩
      rw [filled_update_fill (by rw [hm]; rfl) hq, hcount]
  | item x =>
    rw [hm] at hslot
    exact absurd hslot id
  | layer bitmap' count' ary' =>
    rw [hm] at hslot
    refine .inr ⟨_, count, free, rfl, ⟨hslot, rfl, hlayer.free⟩, habove _ fun q hq => ?_⟩
    rw [filled_update_same (by rw [hm, hq]; rfl)]
    exact hcount

lemma SearchSpec.start_earlier {id' : ℕ} (h : SearchSpec a f l base id' r) (hle : id ≤ id')
    (hgap : ∀ i, id ≤ i → i < id' → f i) : SearchSpec a f l base id r := by
  cases h with
  | noMem hlayer => exact .noMem hlayer
  | found hlayer hopen hj hleast =>
    refine .found hlayer hopen hj ⟨⟨hle.trans hleast.1.1, hleast.1.2⟩, ?_⟩
    rintro i ⟨hi, hfree⟩
    by_cases hlt : i < id'
    · exact absurd (hgap i hi hlt) hfree
    · exact hleast.2 ⟨not_lt.1 hlt, hfree⟩
  | up hlayer hoid hall =>
    refine .up hlayer hoid fun i hi hblock => ?_
    by_cases hlt : i < id'
    · exact hgap i hi hlt
    · exact hall i (not_lt.1 hlt) hblock

lemma subAllocLoop_up {oid : ℕ} (hlayer : Layer a f (l + 2) base p free)
    (hid : high c.idrBits (l + 1) id = c.idrSize * base + m)
    (hoid : high c.idrBits (l + 1) oid = c.idrSize * base + m)
    (hspace : ¬ Marked c f (l + 1) (c.idrSize * base + m))
    (hall : ∀ i, id ≤ i → high c.idrBits (l + 1) i = c.idrSize * base + m → f i)
    (hgo : ∀ {next}, 2 ^ ((l + 1) * c.idrBits) ∣ next → high c.idrBits (l + 2) next = base →
      SearchSpec a f (l + 2) base next (subAllocLoop c fuel (l + 1) p next free))
    (hr : r = if high c.idrBits (l + 2) oid =
        high c.idrBits (l + 2) ((c.idrSize * base + m + 1) * 2 ^ ((l + 1) * c.idrBits)) then
      subAllocLoop c fuel (l + 1) p ((c.idrSize * base + m + 1) * 2 ^ ((l + 1) * c.idrBits)) free
      else (.restart ((c.idrSize * base + m + 1) * 2 ^ ((l + 1) * c.idrBits)), p, free)) :
    SearchSpec a f (l + 2) base id r ∨ RestartSpec a f (l + 1) base id r := by
  have hrest : ∀ i, id ≤ i → i < (c.idrSize * base + m + 1) * 2 ^ ((l + 1) * c.idrBits) → f i := by
    intro i hle hlt
    refine hall i hle (high_eq_iff.2 ⟨?_, hlt⟩)
    exact (high_eq_iff.1 hid).1.trans hle
  have hbase := (high_slot.1 hoid).1
  by_cases hlast : m.val + 1 < c.idrSize
  · have hnext : high c.idrBits (l + 2)
        ((c.idrSize * base + m + 1) * 2 ^ ((l + 1) * c.idrBits)) = base := by
      have hfirst := high_first c (l + 1) (c.idrSize * base + (⟨m + 1, hlast⟩ : Fin c.idrSize))
      exact (high_slot.1 hfirst).1
    rw [if_pos (hbase.trans hnext.symm)] at hr
    subst hr
    refine .inl ((hgo (Dvd.intro_left _ rfl) hnext).start_earlier ?_ hrest)
    exact (high_eq_iff.1 hid).2.le
  · have hm : c.idrSize * base + m + 1 = c.idrSize * (base + 1) := by
      rw [mul_add]
      omega
    have hblock : (c.idrSize * base + m + 1) * 2 ^ ((l + 1) * c.idrBits) =
        (base + 1) * 2 ^ ((l + 2) * c.idrBits) := by
      rw [hm, pow_block c (l + 1)]
      ring
    rw [if_neg] at hr
    · subst hr
      rw [← hid] at hspace hrest hblock ⊢
      refine .inr (.restart hlayer (succ_pos l) le_rfl ?_ hrest hspace)
      rw [hblock]
      exact Dvd.intro_left _ rfl
    · rw [hbase, hblock, high_first]
      omega

/-- The search. From the first id of a slot on it does not start again, because it does not come
back up from the slots below. -/
lemma subAllocLoop_spec (hmarks : ∀ i, f i → a i ≠ none) (hfuel : l < fuel)
    (hfuel' : ¬ 2 ^ (l * c.idrBits) ∣ id → l + 1 < fuel) (hlayer : Layer a f (l + 1) base p free)
    (hbase : high c.idrBits (l + 1) id = base)
    (hfit : (base + 1) * 2 ^ ((l + 1) * c.idrBits) ≤ 2 ^ c.maxIdShift) :
    SearchSpec a f (l + 1) base id (subAllocLoop c fuel l p id free) ∨
      ¬ 2 ^ (l * c.idrBits) ∣ id ∧ RestartSpec a f l base id (subAllocLoop c fuel l p id free) := by
  induction fuel generalizing l p base id free with
  | zero => omega
  | succ fuel ih =>
    obtain ⟨bitmap, count, ary, rfl⟩ := hlayer.tree.exists_layer hlayer.null
    rw [subAllocLoop]
    cases hm : findNextZero bitmap (slot c l id) with
    | none =>
      refine .inl ?_
      rw [nextId_eq (by rwa [hbase]), hbase]
      exact .up hlayer hbase (search_none hlayer.tree hbase hm)
    | some m =>
      have hdescent := search_some hlayer.tree hbase hm hfit
      dsimp only
      generalize (if m ≠ slot c l id then replaceDigit c l id (slot c l id) m else id) = next
        at hdescent ⊢
      rw [if_neg (not_le.2 hdescent.small)]
      cases l with
      | zero =>
        have hblock := hdescent.block
        have hspace := hdescent.space
        rw [high_zero] at hblock
        rw [marked_zero, ← hblock] at hspace
        refine .inl (.found hlayer trivial (high_slot.1 hdescent.block).1 ⟨⟨hdescent.le, hspace⟩, ?_⟩)
        rintro i ⟨hle, hfree⟩
        by_contra hlt
        exact hfree (hdescent.gap i hle (not_le.1 hlt))
      | succ l =>
        rcases openSlot_spec hmarks hlayer m with hnone | ⟨child, count', free', hsome, hchild, habove⟩
        · rw [hnone]
          exact .inl (.noMem hlayer)
        have hsame : ¬ 2 ^ ((l + 1) * c.idrBits) ∣ next → next = id :=
          fun h => hdescent.start.resolve_right fun heq => h (heq ▸ Dvd.intro_left _ rfl)
        have hdvd : 2 ^ (l * c.idrBits) ∣ 2 ^ ((l + 1) * c.idrBits) :=
          pow_dvd_pow 2 (mul_le_mul_right _ (le_succ l))
        have hbelow := ih (by omega) (fun h : ¬ 2 ^ (l * c.idrBits) ∣ next => by
          have h' := mt hdvd.trans h
          have := hfuel' (hsame h' ▸ h')
          omega) hchild hdescent.block ((slot_block_le m).trans hfit)
        rw [hsome]
        dsimp only
        generalize subAllocLoop c fuel l child next free' = below at hbelow
        rcases hbelow with hbelow | ⟨hnot, hbelow⟩
        · cases hbelow with
          | noMem hq => exact .inl (.noMem (habove _ _ hq))
          | @found j q free'' hq hopen hj hleast =>
            obtain ⟨hjbase, hslot⟩ := high_slot.1 hj
            refine .inl (SearchSpec.start_earlier ?_ hdescent.le hdescent.gap)
            refine .found (habove _ _ hq) ?_ hjbase hleast
            show Open c j (l + 1) (update ary m q (slot c (l + 1) j))
            rw [hslot, update_self]
            exact hopen
          | up hq hoid hall =>
            have hstart : ¬ 2 ^ ((l + 1) * c.idrBits) ∣ next := fun h => hdescent.space fun i hi => by
              refine hall i ?_ hi
              rw [← Nat.div_mul_cancel h, ← high_eq_div, hdescent.block]
              exact (high_eq_iff.1 hi).1
            obtain rfl := hsame hstart
            refine (subAllocLoop_up (habove _ _ hq) hdescent.block hoid hdescent.space hall
              (fun hnext hhigh => ?_) rfl).imp_right fun h => ⟨hstart, h⟩
            exact (ih (by omega) (fun h => absurd hnext h) (habove _ _ hq) hhigh
              hfit).resolve_right fun h => h.1 hnext
        · cases hbelow with
          | restart hq hpos hk hlast hall hspace =>
            have hstart := mt hdvd.trans hnot
            obtain rfl := hsame hstart
            refine .inr ⟨hstart, .restart (habove _ _ hq) hpos (by omega) hlast hall ?_⟩
            rw [hdescent.block]
            exact hdescent.space

end Search

section Tree
variable {l id fuel : ℕ} {top : Ptr α c.idrSize}

/-- The search overlooks the end of the tree: the last slot at the top has unmarked ids,
but only before `id`, which is one of its ids. -/
def Overlooked (c : Config) (f : ℕ → Prop) (layers id : ℕ) : Prop :=
  high c.idrBits (layers - 1) id = c.idrSize - 1 ∧
    (∀ i, id ≤ i → i < 2 ^ (layers * c.idrBits) → f i) ∧
    ¬ Marked c f (layers - 1) (c.idrSize - 1)

lemma overlooked_congr {f' : ℕ → Prop} {layers : ℕ} (hpos : 0 < layers)
    (hsame : ∀ i < 2 ^ (layers * c.idrBits), f' i ↔ f i) :
    Overlooked c f' layers id ↔ Overlooked c f layers id := by
  obtain ⟨l, rfl⟩ : ∃ l, layers = l + 1 := ⟨layers - 1, by omega⟩
  unfold Overlooked
  refine and_congr Iff.rfl (and_congr ?_ (not_congr (marked_congr fun i hi => hsame i ?_)))
  · exact forall_congr' fun i => forall_congr' fun _ => forall_congr' fun hi => hsame i hi
  · have hlt := (high_eq_iff.1 hi).2
    rwa [Nat.sub_add_cancel c.first.pos, ← pow_block] at hlt

lemma restart_inside {k : ℕ} (hid : id < 2 ^ ((l + 1) * c.idrBits)) (hk : k ≤ l)
    (hall : ∀ i, id ≤ i → i < (high c.idrBits k id + 1) * 2 ^ (k * c.idrBits) → f i)
    (hspace : ¬ Marked c f l (high c.idrBits l id)) (hseen : ¬ Overlooked c f (l + 1) id) :
    (high c.idrBits k id + 1) * 2 ^ (k * c.idrBits) < 2 ^ ((l + 1) * c.idrBits) ∧
      ¬ Overlooked c f (l + 1) ((high c.idrBits k id + 1) * 2 ^ (k * c.idrBits)) := by
  have hsize : 0 < c.idrSize := c.first.pos
  have hpow : 2 ^ (l * c.idrBits) = 2 ^ ((l - k) * c.idrBits) * 2 ^ (k * c.idrBits) := by
    rw [← pow_add, ← add_mul, Nat.sub_add_cancel hk]
  have htop : 2 ^ ((l + 1) * c.idrBits) = (c.idrSize - 1) * 2 ^ (l * c.idrBits) +
      2 ^ (l * c.idrBits) := by
    rw [pow_block, ← succ_mul, succ_eq_add_one, Nat.sub_add_cancel hsize]
  have hbefore : id < (c.idrSize - 1) * 2 ^ (l * c.idrBits) →
      (high c.idrBits k id + 1) * 2 ^ (k * c.idrBits) ≤ (c.idrSize - 1) * 2 ^ (l * c.idrBits) := by
    intro hlt
    rw [hpow, ← mul_assoc] at hlt ⊢
    apply Nat.mul_le_mul_right
    rw [high_eq_div]
    exact Nat.div_lt_of_lt_mul (by rwa [mul_comm])
  have hlast : ¬ id < (c.idrSize - 1) * 2 ^ (l * c.idrBits) → high c.idrBits l id = c.idrSize - 1 := by
    intro hge
    rw [high_eq_iff, Nat.sub_add_cancel hsize, ← pow_block]
    exact ⟨not_lt.1 hge, hid⟩
  have hpos : 0 < 2 ^ (l * c.idrBits) := by positivity
  generalize (high c.idrBits k id + 1) * 2 ^ (k * c.idrBits) = next at *
  by_cases hlt : id < (c.idrSize - 1) * 2 ^ (l * c.idrBits)
  · have hle := hbefore hlt
    refine ⟨by omega, fun hover => hover.2.2 fun i hi => ?_⟩
    have hblock := high_eq_iff.1 hi
    rw [Nat.sub_add_cancel hsize, ← pow_block] at hblock
    exact hover.2.1 i (hle.trans hblock.1) hblock.2
  · have hblock := hlast hlt
    rw [hblock] at hspace
    constructor
    · by_contra hge
      exact hseen ⟨hblock, fun i hi hi' => hall i hi (by omega), hspace⟩
    · intro hover
      refine hseen ⟨hblock, fun i hi hi' => ?_, hspace⟩
      by_cases hnext : i < next
      · exact hall i hi hnext
      · exact hover.2.1 i (not_lt.1 hnext) hi'

lemma subAlloc_of_loop (h : SearchSpec a f (l + 1) 0 id (subAllocLoop c fuel l top id free)) :
    SearchSpec a f (l + 1) 0 id (subAlloc c (fuel + 1) (l + 1) top id free) := by
  rw [subAlloc, Nat.add_sub_cancel]
  generalize subAllocLoop c fuel l top id free = r at h
  cases h with
  | found hlayer hopen hj hleast => exact .found hlayer hopen hj hleast
  | noMem hlayer => exact .noMem hlayer
  | up hlayer hoid hall => exact .up hlayer hoid hall

section
variable (hmarks : ∀ i, f i → a i ≠ none) (hlayer : Layer a f (l + 1) 0 top free)
  (hid : id < 2 ^ ((l + 1) * c.idrBits)) (hfit : (l + 1) * c.idrBits ≤ c.maxIdShift)
include hmarks hlayer hid hfit

lemma subAlloc_aligned (hfuel : l + 1 < fuel) (haligned : 2 ^ (l * c.idrBits) ∣ id) :
    SearchSpec a f (l + 1) 0 id (subAlloc c fuel (l + 1) top id free) := by
  obtain ⟨fuel, rfl⟩ : ∃ n, fuel = n + 1 := ⟨fuel - 1, by omega⟩
  refine subAlloc_of_loop ((subAllocLoop_spec hmarks (by omega) (fun h => absurd haligned h) hlayer
    (high_eq_zero.2 hid) ?_).resolve_right fun h => h.1 haligned)
  rw [Nat.one_mul]
  exact Nat.pow_le_pow_right (by norm_num) hfit

/-- `sub_alloc`. Each time the search starts again it does so at an id of a higher
level. -/
lemma subAlloc_spec {k : ℕ} (n : ℕ) (hk : l + 1 ≤ k + n) (hfuel : n + l + 3 ≤ fuel)
    (haligned : 2 ^ (k * c.idrBits) ∣ id) (hseen : ¬ Overlooked c f (l + 1) id) :
    SearchSpec a f (l + 1) 0 id (subAlloc c fuel (l + 1) top id free) := by
  induction n generalizing fuel top free id k with
  | zero =>
    refine subAlloc_aligned hmarks hlayer hid hfit (by omega) ?_
    exact (pow_dvd_pow 2 (Nat.mul_le_mul_right _ (by omega))).trans haligned
  | succ n ih =>
    obtain ⟨fuel, rfl⟩ : ∃ m, fuel = m + 1 := ⟨fuel - 1, by omega⟩
    have hfit' : (0 + 1) * 2 ^ ((l + 1) * c.idrBits) ≤ 2 ^ c.maxIdShift := by
      rw [Nat.one_mul]
      exact Nat.pow_le_pow_right (by norm_num) hfit
    have hfuel' : l + 1 < fuel := by omega
    rcases subAllocLoop_spec hmarks (by omega) (fun _ => hfuel') hlayer (high_eq_zero.2 hid)
      hfit' with hspec | ⟨-, hspec⟩
    · exact subAlloc_of_loop hspec
    · rw [subAlloc, Nat.add_sub_cancel]
      generalize subAllocLoop c fuel l top id free = r at hspec
      cases hspec with
      | @restart k' p free' hlayer' hpos hk' hlast hall hspace =>
        obtain ⟨hinside, hseen'⟩ := restart_inside hid hk' hall hspace hseen
        have hhigher : k < k' + 1 := by
          by_contra hle
          refine not_dvd_next c.idrBits_pos (dvd_trans (pow_dvd_pow 2 ?_) haligned) hlast
          exact mul_le_mul_right _ (not_lt.1 hle)
        refine SearchSpec.start_earlier (ih (k := k' + 1) hlayer' hinside (by omega) (by omega) hlast
          hseen') ?_ hall
        exact (high_eq_iff.1 rfl).2.le

end

end Tree

end BooxKernel.Idr
