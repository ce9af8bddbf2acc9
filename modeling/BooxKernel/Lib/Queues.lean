import Mathlib.Tactic

/-!
# Elements queued on lists

Structures that carry one list link are on at most one of many lists. `Queued` says
so of a family of lists indexed by their heads; the operations are those of a doubly
linked list, where an element is taken off whatever list it is on.
-/
namespace BooxKernel.Queues
open Function List

variable {π τ : Type*} [DecidableEq π] {q : π → List τ} {p p' : π} {t u : τ}

/-- No element is on two lists, or twice on one. -/
structure Queued (q : π → List τ) : Prop where
  nodup : ∀ p, (q p).Nodup
  unique : ∀ {p p' t}, t ∈ q p → t ∈ q p' → p = p'

/-- Adding an element at the tail of a list. -/
def addTail (p : π) (t : τ) (q : π → List τ) : π → List τ := update q p (q p ++ [t])

/-- Adding an element at the head of a list. -/
def add (p : π) (t : τ) (q : π → List τ) : π → List τ := update q p (t :: q p)

/-- Taking an element off the list it is on. -/
def del [DecidableEq τ] (t : τ) (q : π → List τ) : π → List τ := fun p => (q p).erase t

/-- The elements at `p` go to the empty list at `p'`. -/
def replaceInit (p p' : π) (q : π → List τ) : π → List τ := update (update q p' (q p)) p []

lemma mem_addTail : u ∈ addTail p t q p' ↔ u ∈ q p' ∨ u = t ∧ p' = p := by
  unfold addTail
  by_cases h : p' = p
  · subst h
    simp
  · simp [h]

lemma mem_add : u ∈ add p t q p' ↔ u ∈ q p' ∨ u = t ∧ p' = p := by
  unfold add
  by_cases h : p' = p
  · subst h
    simp [or_comm]
  · simp [h]

lemma mem_replaceInit {r : π} (hne : p ≠ p') (hempty : q p' = []) :
    u ∈ replaceInit p p' q r ↔ (u ∈ q r ∧ r ≠ p) ∨ (u ∈ q p ∧ r = p') := by
  unfold replaceInit
  by_cases hp : r = p
  · subst hp
    simp [hne]
  · by_cases hp' : r = p'
    · subst hp'
      simp [hp, hempty]
    · simp [hp, hp']

omit [DecidableEq π] in
lemma Queued.mem_del [DecidableEq τ] (h : Queued q) : u ∈ del t q p ↔ u ∈ q p ∧ u ≠ t := by
  rw [del, (h.nodup p).mem_erase_iff, and_comm]

omit [DecidableEq π] in
lemma Queued.del [DecidableEq τ] (h : Queued q) (t : τ) : Queued (del t q) where
  nodup p := (h.nodup p).erase t
  unique hp hp' := h.unique (mem_of_mem_erase hp) (mem_of_mem_erase hp')

lemma Queued.length_del [DecidableEq τ] (h : Queued q) (ht : t ∈ q p) (r : π) :
    (Queues.del t q r).length + (if r = p then 1 else 0) = (q r).length := by
  unfold Queues.del
  split_ifs with hr
  · subst hr
    rw [length_erase_of_mem ht]
    have := length_pos_of_mem ht
    omega
  · rw [erase_of_not_mem fun hmem => hr (h.unique hmem ht), Nat.add_zero]

lemma length_add (r : π) : (add p t q r).length = (q r).length + if r = p then 1 else 0 := by
  unfold add
  split_ifs with hr
  · subst hr
    simp
  · simp [hr]

lemma Queued.addTail (h : Queued q) (hnew : ∀ r, t ∉ q r) : Queued (addTail p t q) where
  nodup r := by
    unfold Queues.addTail
    by_cases hr : r = p
    · subst hr
      rw [update_self]
      exact nodup_append.2 ⟨h.nodup r, nodup_singleton t, by
        intro a ha b hb hab
        rw [mem_singleton] at hb
        exact hnew r (hb ▸ hab ▸ ha)⟩
    · rw [update_of_ne hr]
      exact h.nodup r
  unique := by
    intro r r' u hr hr'
    rw [mem_addTail] at hr hr'
    rcases hr with hr | ⟨rfl, rfl⟩ <;> rcases hr' with hr' | ⟨hu, rfl⟩
    · exact h.unique hr hr'
    · exact absurd (hu ▸ hr) (hnew r)
    · exact absurd hr' (hnew r')
    · rfl

lemma Queued.add (h : Queued q) (hnew : ∀ r, t ∉ q r) : Queued (add p t q) where
  nodup r := by
    unfold Queues.add
    by_cases hr : r = p
    · subst hr
      rw [update_self]
      exact nodup_cons.2 ⟨hnew r, h.nodup r⟩
    · rw [update_of_ne hr]
      exact h.nodup r
  unique := by
    intro r r' u hr hr'
    rw [mem_add] at hr hr'
    rcases hr with hr | ⟨rfl, rfl⟩ <;> rcases hr' with hr' | ⟨hu, rfl⟩
    · exact h.unique hr hr'
    · exact absurd (hu ▸ hr) (hnew r)
    · exact absurd hr' (hnew r')
    · rfl

lemma Queued.replaceInit (h : Queued q) (hne : p ≠ p') (hempty : q p' = []) :
    Queued (replaceInit p p' q) where
  nodup r := by
    unfold Queues.replaceInit
    by_cases hp : r = p
    · subst hp
      simp
    · rw [update_of_ne hp]
      by_cases hp' : r = p'
      · subst hp'
        rw [update_self]
        exact h.nodup p
      · rw [update_of_ne hp']
        exact h.nodup r
  unique := by
    intro r r' u hr hr'
    rw [mem_replaceInit hne hempty] at hr hr'
    rcases hr with ⟨hr, hrp⟩ | ⟨hr, rfl⟩ <;> rcases hr' with ⟨hr', hrp'⟩ | ⟨hr', rfl⟩
    · exact h.unique hr hr'
    · exact absurd (h.unique hr hr') hrp
    · exact absurd (h.unique hr' hr) hrp'
    · rfl

end BooxKernel.Queues
