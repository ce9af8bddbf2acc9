import Mathlib.Data.List.Infix
import Mathlib.Order.Bounds.Basic

/-!
# Matching the prefixes of a pattern

A matcher that reads a text from left to right keeps the length of the longest prefix
of the pattern that the text read so far ends with. When the next character does not
continue this prefix, the candidates that are left are the prefixes that the matched
one itself ends with, so the longest proper one of them is all that has to be known
of each prefix.
-/
namespace BooxKernel.Borders
open List Nat

variable {α : Type*} {p t u : List α} {c : α} {q r k e s : ℕ}

/-- The first `q` characters are the longest prefix of the pattern `p` that `t` ends with. -/
structure Longest (p t : List α) (q : ℕ) : Prop where
  le : q ≤ p.length
  ends : p.take q <:+ t
  greatest : ∀ k ≤ p.length, p.take k <:+ t → k ≤ q

/-- The first `q` characters are the longest prefix that `t` ends with and that `c`
continues; `q` is 0 when there is none. -/
structure LongestBefore (p t : List α) (c : α) (q : ℕ) : Prop where
  le : q ≤ p.length
  ends : p.take q <:+ t
  continued : q = 0 ∨ p[q]? = some c
  greatest : ∀ k ≤ p.length, p.take k <:+ t → p[k]? = some c → k ≤ q

lemma longest_nil (p : List α) : Longest p [] 0 where
  le := zero_le _
  ends := nil_suffix
  greatest k hk h := by
    have hnil := suffix_nil.1 h
    rcases take_eq_nil_iff.1 hnil with rfl | rfl
    · exact le_rfl
    · exact hk

lemma Longest.le_length (h : Longest p t q) : q ≤ t.length := by
  have hle := h.ends.length_le
  rwa [length_take_of_le h.le] at hle

lemma take_succ_suffix (hk : k < p.length) :
    p.take (k + 1) <:+ t ++ [c] ↔ p.take k <:+ t ∧ p[k]? = some c := by
  rw [take_succ_eq_append_getElem hk, getElem?_eq_getElem hk, Option.some.injEq,
    suffix_concat_iff]
  constructor
  · rintro (hnil | ⟨l, hl, hsuffix⟩)
    · exact absurd hnil (append_ne_nil_of_right_ne_nil _ (cons_ne_nil _ _))
    · obtain ⟨rfl, hc⟩ := append_inj' hl rfl
      exact ⟨hsuffix, singleton_inj.1 hc⟩
  · rintro ⟨hsuffix, hc⟩
    exact .inr ⟨_, by rw [hc], hsuffix⟩

lemma Longest.suffix_take (h : Longest p t q) (hk : k ≤ q) (hs : p.take k <:+ t) :
    p.take k <:+ p.take q := by
  refine suffix_of_suffix_length_le hs h.ends ?_
  rw [length_take_of_le (hk.trans h.le), length_take_of_le h.le]
  exact hk

lemma Longest.before (h : Longest p t q) (hc : q = 0 ∨ p[q]? = some c) : LongestBefore p t c q :=
  ⟨h.le, h.ends, hc, fun k hk hs _ => h.greatest k hk hs⟩

/-- When `c` does not continue the longest prefix, the longest one that it continues is
found among those that the longest prefix properly ends with. -/
lemma Longest.fall (h : Longest p t q) (hc : p[q]? ≠ some c)
    (hr : LongestBefore p (p.take q).tail c r) : LongestBefore p t c r where
  le := hr.le
  ends := hr.ends.trans ((tail_suffix _).trans h.ends)
  continued := hr.continued
  greatest k hk hs hkc := by
    have hle := h.greatest k hk hs
    have hne : k ≠ q := by
      rintro rfl
      exact hc hkc
    refine hr.greatest k hk ?_ hkc
    refine suffix_of_suffix_length_le (h.suffix_take hle hs) (tail_suffix _) ?_
    rw [length_tail, length_take_of_le hk, length_take_of_le h.le]
    omega

lemma LongestBefore.next (h : LongestBefore p t c q) (hc : p[q]? = some c) :
    Longest p (t ++ [c]) (q + 1) := by
  have hq : q < p.length := List.getElem?_eq_some_iff.1 hc |>.1
  refine ⟨hq, (take_succ_suffix hq).2 ⟨h.ends, hc⟩, fun k hk hs => ?_⟩
  cases k with
  | zero => exact zero_le _
  | succ k =>
    obtain ⟨hks, hkc⟩ := (take_succ_suffix hk).1 hs
    exact succ_le_succ (h.greatest k (le_of_succ_le hk) hks hkc)

lemma LongestBefore.restart (h : LongestBefore p t c q) (hc : p[q]? ≠ some c) :
    q = 0 ∧ Longest p (t ++ [c]) 0 := by
  obtain rfl : q = 0 := h.continued.resolve_right hc
  refine ⟨rfl, zero_le _, nil_suffix, fun k hk hs => ?_⟩
  cases k with
  | zero => exact le_rfl
  | succ k =>
    obtain ⟨hks, hkc⟩ := (take_succ_suffix hk).1 hs
    have hzero := le_zero.1 (h.greatest k (le_of_succ_le hk) hks hkc)
    rw [hzero] at hkc
    exact absurd hkc hc

/-- The pattern does not end at any place of `t`. -/
def Unmatched (p t : List α) : Prop := ∀ v, v <+: t → ¬ p <:+ v

lemma unmatched_nil (hp : p ≠ []) : Unmatched p [] := by
  intro v hv hs
  rw [prefix_nil.1 hv, suffix_nil] at hs
  exact hp hs

lemma Unmatched.concat (h : Unmatched p t) (hc : ¬ p <:+ t ++ [c]) : Unmatched p (t ++ [c]) := by
  intro v hv
  rcases prefix_concat_iff.1 hv with rfl | hv
  · exact hc
  · exact h v hv

lemma Longest.not_suffix (h : Longest p t q) (hq : q < p.length) : ¬ p <:+ t := by
  intro hs
  have hle := h.greatest p.length le_rfl (by rwa [take_length])
  omega

lemma suffix_take_of_occurs (h : p <+: t.drop k) : p <:+ t.take (k + p.length) := by
  obtain ⟨rest, hrest⟩ := h
  refine ⟨t.take k, ?_⟩
  rw [take_add, ← hrest, take_left]

lemma occurs_of_suffix_take (he : e ≤ t.length) (h : p <:+ t.take e) :
    p.length ≤ e ∧ p <+: t.drop (e - p.length) := by
  have hle := h.length_le
  rw [length_take_of_le he] at hle
  obtain ⟨x, hx⟩ := h
  have hlen : x.length = e - p.length := by
    have hlen := congrArg length hx
    rw [length_append, length_take_of_le he] at hlen
    omega
  have ht : t = x ++ (p ++ t.drop e) := by rw [← append_assoc, hx, take_append_drop]
  refine ⟨hle, t.drop e, ?_⟩
  conv_rhs => rw [ht, ← hlen, drop_left]

lemma Unmatched.not_occurs (h : Unmatched p t) (k : ℕ) : ¬ p <+: t.drop k := fun hk =>
  h _ ( take_prefix _ _) (suffix_take_of_occurs hk)

/-- The first place where the text ends with the pattern is the end of the first
occurrence. -/
lemma isLeast_occurrence (he : e < t.length) (h : p <:+ t.take (e + 1))
    (hbefore : Unmatched p (t.take e)) :
    p.length ≤ e + 1 ∧ IsLeast {k | p <+: t.drop k} (e + 1 - p.length) := by
  obtain ⟨hle, hoccurs⟩ := occurs_of_suffix_take he h
  refine ⟨hle, hoccurs, fun k hk => ?_⟩
  by_contra hlt
  refine hbefore _ ?_ (suffix_take_of_occurs hk)
  rw [prefix_take_iff]
  exact ⟨ take_prefix _ _, by rw [length_take]; omega⟩

end BooxKernel.Borders
