import Mathlib.Data.List.Nodup
import Mathlib.Logic.Equiv.Basic
import Mathlib.Order.Nat

/-!
# Heaps in arrays

An array is a function of the position. The entries behind position `i` of a heap are at
`2 * i + 1` and `2 * i + 2`, and none of them is greater than the entry at `i`. An entry that may be
out of order is moved by exchanges: down while an entry behind it is greater, or up while the entry
before it is less.
-/
namespace BooxKernel.Heaps
open List Function

variable {α : Type*}

/-- The array with two entries exchanged. -/
def exchange (f : ℕ → α) (i j : ℕ) : ℕ → α := f ∘ Equiv.swap i j

lemma exchange_apply (f : ℕ → α) (i j k : ℕ) :
    exchange f i j k = if k = i then f j else if k = j then f i else f k := by
  rw [exchange, comp_apply, Equiv.swap_apply_def]
  split_ifs <;> rfl

lemma update_update_eq_exchange (f : ℕ → α) (i j : ℕ) :
    update (update f i (f j)) j (f i) = exchange f i j := by
  funext k
  rw [exchange_apply, update_apply]
  split_ifs <;> simp_all

/-- The first `n` entries are in another order. -/
def Shuffle (n : ℕ) (f g : ℕ → α) : Prop := ∃ σ : Equiv.Perm ℕ, (∀ i, n ≤ i → σ i = i) ∧ g = f ∘ σ

section Shuffle

variable {n : ℕ} {f g h : ℕ → α}

lemma Shuffle.refl (n : ℕ) (f : ℕ → α) : Shuffle n f f := ⟨Equiv.refl ℕ, fun _ _ => rfl, rfl⟩

lemma Shuffle.trans (hfg : Shuffle n f g) (hgh : Shuffle n g h) : Shuffle n f h := by
  obtain ⟨σ, hσ, rfl⟩ := hfg
  obtain ⟨τ, hτ, rfl⟩ := hgh
  exact ⟨τ.trans σ, fun i hi => by rw [Equiv.trans_apply, hτ i hi, hσ i hi], rfl⟩

lemma shuffle_exchange (f : ℕ → α) {i j : ℕ} (hi : i < n) (hj : j < n) :
    Shuffle n f (exchange f i j) :=
  ⟨Equiv.swap i j, fun k hk => Equiv.swap_apply_of_ne_of_ne (by omega) (by omega), rfl⟩

lemma Shuffle.forall_lt (hfg : Shuffle n f g) {P : α → Prop} (hP : ∀ i < n, P (f i)) :
    ∀ i < n, P (g i) := by
  obtain ⟨σ, hσ, rfl⟩ := hfg
  intro i hi
  refine hP _ (lt_of_not_ge fun h => ?_)
  have := σ.injective (hσ _ h)
  omega

lemma Shuffle.perm (hfg : Shuffle n f g) : (range n).map g ~ (range n).map f := by
  obtain ⟨σ, hσ, rfl⟩ := hfg
  have hrange : (range n).map σ ~ range n := by
    refine (perm_ext_iff_of_nodup (nodup_range.map σ.injective) nodup_range).2 fun i => ?_
    constructor
    · intro hi
      obtain ⟨j, hj, rfl⟩ := mem_map.1 hi
      exact mem_range.2 (Shuffle.forall_lt (f := id) ⟨σ, hσ, rfl⟩ (P := (· < n)) (fun _ => id) j
        (mem_range.1 hj))
    · intro hi
      refine mem_map.2 ⟨σ.symm i, mem_range.2 (lt_of_not_ge fun h => ?_), σ.apply_symm_apply i⟩
      have := hσ _ h
      rw [σ.apply_symm_apply] at this
      exact (not_lt.2 (this ▸ h)) (mem_range.1 hi)
  rw [← map_map]
  exact hrange.map f

end Shuffle

variable (le : α → α → Prop) {lo n : ℕ} {f : ℕ → α}

/-- The entries behind the positions from `lo` on are in order. -/
def HeapOrder (lo n : ℕ) (f : ℕ → α) : Prop :=
  ∀ i, 0 < i → i < n → lo ≤ (i - 1) / 2 → le (f i) (f ((i - 1) / 2))

/-- The entry at `hole` may be less than one behind it. -/
structure DownOrder (lo n hole : ℕ) (f : ℕ → α) : Prop where
  except : ∀ i, 0 < i → i < n → lo ≤ (i - 1) / 2 → (i - 1) / 2 ≠ hole → le (f i) (f ((i - 1) / 2))
  grand : 0 < hole → lo ≤ (hole - 1) / 2 → ∀ c, 0 < c → c < n → (c - 1) / 2 = hole →
    le (f c) (f ((hole - 1) / 2))

/-- The entry at `hole` may be greater than the one before it. -/
structure UpOrder (n hole : ℕ) (f : ℕ → α) : Prop where
  except : ∀ i, 0 < i → i < n → i ≠ hole → le (f i) (f ((i - 1) / 2))
  grand : 0 < hole → ∀ c, 0 < c → c < n → (c - 1) / 2 = hole → le (f c) (f ((hole - 1) / 2))

variable {le} {hole c : ℕ}

lemma HeapOrder.down (h : HeapOrder le (lo + 1) n f) : DownOrder le lo n lo f where
  except i hi hin hlo hne := h i hi hin (by omega)
  grand hlo hle := by omega

lemma DownOrder.finish (h : DownOrder le lo n hole f)
    (hstop : ∀ c, 0 < c → c < n → (c - 1) / 2 = hole → le (f c) (f hole)) :
    HeapOrder le lo n f := by
  intro i hi hin hlo
  by_cases hhole : (i - 1) / 2 = hole
  · exact hhole ▸ hstop i hi hin hhole
  · exact h.except i hi hin hlo hhole

lemma DownOrder.move (h : DownOrder le lo n hole f) (hlo : lo ≤ hole) (hc : 0 < c) (hcn : c < n)
    (hparent : (c - 1) / 2 = hole) (hle : le (f hole) (f c))
    (hmax : ∀ d, 0 < d → d < n → (d - 1) / 2 = hole → le (f d) (f c)) :
    DownOrder le lo n c (exchange f hole c) := by
  constructor
  · intro i hi hin hloi hne
    by_cases hic : i = c
    · rw [hic, hparent, exchange_apply, exchange_apply, if_neg (by omega), if_pos rfl, if_pos rfl]
      exact hle
    by_cases hih : (i - 1) / 2 = hole
    · rw [hih, exchange_apply, exchange_apply, if_neg (by omega), if_neg hic, if_pos rfl]
      exact hmax i hi hin hih
    rw [exchange_apply f hole c ((i - 1) / 2), if_neg hih, if_neg hne, exchange_apply]
    by_cases hhole : i = hole
    · rw [if_pos hhole, hhole]
      exact h.grand (by omega) (hhole ▸ hloi) c hc hcn hparent
    · rw [if_neg hhole, if_neg hic]
      exact h.except i hi hin hloi hih
  · intro _ _ d hd hdn hdc
    rw [hparent, exchange_apply, exchange_apply, if_neg (by omega), if_neg (by omega), if_pos rfl]
    exact hdc ▸ h.except d hd hdn (by omega) (by omega)

lemma UpOrder.finish (h : UpOrder le n hole f)
    (hstop : 0 < hole → le (f hole) (f ((hole - 1) / 2))) : HeapOrder le 0 n f := by
  intro i hi hin _
  by_cases hhole : i = hole
  · exact hhole ▸ hstop (hhole ▸ hi)
  · exact h.except i hi hin hhole

lemma UpOrder.move (htrans : ∀ {a b c}, le a b → le b c → le a c) (h : UpOrder le n hole f)
    (hpos : 0 < hole) (_ : hole < n) (hle : le (f ((hole - 1) / 2)) (f hole)) :
    UpOrder le n ((hole - 1) / 2) (exchange f hole ((hole - 1) / 2)) := by
  generalize hq : (hole - 1) / 2 = q at hle ⊢
  have hbehind : ∀ d, 0 < d → d < n → (d - 1) / 2 = q → d ≠ hole → le (f d) (f q) :=
    fun d hd hdn hdq hne => hdq ▸ h.except d hd hdn hne
  constructor
  · intro i hi hin hne
    by_cases hiq : (i - 1) / 2 = q
    · rw [hiq, exchange_apply, exchange_apply, if_neg (show q ≠ hole by omega), if_pos rfl]
      by_cases hih : i = hole
      · rw [if_pos hih]
        exact hle
      · rw [if_neg hih, if_neg hne]
        exact htrans (hbehind i hi hin hiq hih) hle
    rw [exchange_apply, if_neg (by omega), if_neg hne, exchange_apply]
    by_cases hih : (i - 1) / 2 = hole
    · rw [if_pos hih]
      exact hq ▸ h.grand hpos i hi hin hih
    · rw [if_neg hih, if_neg hiq]
      exact h.except i hi hin (by omega)
  · intro hq0 d hd hdn hdq
    have hup : le (f q) (f ((q - 1) / 2)) := h.except q hq0 (by omega) (by omega)
    rw [exchange_apply f hole q ((q - 1) / 2), if_neg (by omega), if_neg (by omega), exchange_apply]
    by_cases hdh : d = hole
    · rw [if_pos hdh]
      exact hup
    · rw [if_neg hdh, if_neg (by omega)]
      exact htrans (hbehind d hd hdn hdq hdh) hup

lemma HeapOrder.le_first (h : HeapOrder le 0 n f)
    (htrans : ∀ {a b c}, le a b → le b c → le a c) (hrefl : ∀ a, le a a) {i : ℕ} (hi : i < n) :
    le (f i) (f 0) := by
  induction i using Nat.strongRecOn with
  | ind i ih =>
    obtain rfl | hpos := Nat.eq_zero_or_pos i
    · exact hrefl _
    · exact htrans (h i hpos hi (Nat.zero_le _)) (ih _ (by omega) (by omega))

end BooxKernel.Heaps
