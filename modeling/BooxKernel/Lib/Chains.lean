import Mathlib.Tactic

/-!
# Singly linked chains

`Chain next p xs q`: from the pointer `p` on, the pointers of `next` lead through the elements
`xs` and arrive at the pointer `q`.
-/
namespace BooxKernel.Chains

variable {α : Type*} {next next' : α → Option α} {p q r : Option α} {x : α} {xs ys : List α}

def Chain (next : α → Option α) : Option α → List α → Option α → Prop
  | p, [], q => p = q
  | p, x :: xs, q => p = some x ∧ Chain next (next x) xs q

@[simp] lemma chain_nil : Chain next p [] q ↔ p = q := Iff.rfl

@[simp] lemma chain_cons : Chain next p (x :: xs) q ↔ p = some x ∧ Chain next (next x) xs q :=
  Iff.rfl

lemma chain_append : Chain next p (xs ++ ys) q ↔ ∃ r, Chain next p xs r ∧ Chain next r ys q := by
  induction xs generalizing p with
  | nil => simp
  | cons x xs ih => simp [ih, and_assoc]

lemma chain_concat : Chain next p (xs ++ [x]) q ↔ Chain next p xs (some x) ∧ next x = q := by
  simp [chain_append]

namespace Chain

lemma head_eq (h : Chain next p xs q) : p = xs.head?.or q := by
  cases xs with
  | nil => simpa using h
  | cons x xs => exact h.1

lemma congr (h : Chain next p xs q) (hnext : ∀ x ∈ xs, next' x = next x) : Chain next' p xs q := by
  induction xs generalizing p with
  | nil => exact h
  | cons x xs ih =>
    refine ⟨h.1, ?_⟩
    rw [hnext x (by simp)]
    exact ih h.2 fun y hy => hnext y (by simp [hy])

/-- The last pointer of a chain is set to `r`: it is the one of the last element, or the one
in front of the chain if there is no element. -/
lemma redirect (h : Chain next p xs q) (hnodup : xs.Nodup) {p' : Option α}
    (hhead : p' = if xs.getLast? = none then r else p)
    (hlast : ∀ x, xs.getLast? = some x → next' x = r)
    (hnext : ∀ x ∈ xs, xs.getLast? ≠ some x → next' x = next x) : Chain next' p' xs r := by
  rcases xs.eq_nil_or_concat' with rfl | ⟨ys, y, rfl⟩
  · simpa using hhead
  · obtain ⟨hys, -⟩ := chain_concat.1 h
    have hy : y ∉ ys := fun hmem => (List.disjoint_of_nodup_append hnodup) hmem (by simp)
    refine chain_concat.2 ⟨?_, hlast y (by simp)⟩
    rw [show p' = p by simpa using hhead]
    refine hys.congr fun x hx => hnext x (by simp [hx]) ?_
    rintro heq
    obtain rfl : y = x := by simpa using heq
    exact hy hx

end Chain

end BooxKernel.Chains
