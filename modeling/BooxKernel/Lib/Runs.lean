import Mathlib.Data.List.Induction

/-!
# Runs of a labelled transition relation

A run records its events in the order in which they happened, so a property of
the whole history can be stated by folding over the events. Every safety result
below the abstract layer is an instance of `Run.invariant` or `Run.simulates`.
-/
namespace BooxKernel.Runs
open List

variable {σ ε τ : Type*} {step : σ → ε → σ → Prop} {es es1 es2 : List ε} {s t u : σ}

/-- Finite runs from `s`, extended by one step at the end. -/
inductive Run (step : σ → ε → σ → Prop) (s : σ) : List ε → σ → Prop
  | nil : Run step s [] s
  | snoc {es : List ε} {e : ε} {t u : σ} : Run step s es t → step t e u → Run step s (es ++ [e]) u

lemma Run.cons {e : ε} (hs : step s e t) (h : Run step t es u) : Run step s (e :: es) u := by
  induction h with
  | nil => exact Run.snoc Run.nil hs
  | snoc _ hl ih => exact Run.snoc ih hl

lemma Run.unsnoc {e : ε} (h : Run step s (es ++ [e]) u) : ∃ t, Run step s es t ∧ step t e u := by
  generalize hes : es ++ [e] = es' at h
  cases h with
  | nil => simp at hes
  | snoc hl hs =>
    obtain ⟨rfl, hlast⟩ := append_inj' hes rfl
    obtain rfl : e = _ := by simpa using hlast
    exact ⟨_, hl, hs⟩

lemma Run.split (h : Run step s (es1 ++ es2) u) : ∃ t, Run step s es1 t ∧ Run step t es2 u := by
  induction es2 using reverseRecOn generalizing u with
  | nil => exact ⟨u, by simpa using h, Run.nil⟩
  | append_singleton es2 e ih =>
    rw [← append_assoc] at h
    obtain ⟨v, hl, hs⟩ := h.unsnoc
    obtain ⟨t, h1, h2⟩ := ih hl
    exact ⟨t, h1, h2.snoc hs⟩

/-- A predicate kept by every step holds after every run. -/
lemma Run.invariant {I : σ → Prop} (h0 : I s) (hstep : ∀ t e u, I t → step t e u → I u)
    (h : Run step s es t) : I t := by
  induction h with
  | nil => exact h0
  | snoc _ hs ih => exact hstep _ _ _ ih hs

/-- Forward simulation of a run by a deterministic abstract machine that reads
the same events. -/
lemma Run.simulates {abs : τ → ε → τ} {R : σ → τ → Prop} {a : τ} (h0 : R s a)
    (hstep : ∀ t e u b, R t b → step t e u → R u (abs b e)) (h : Run step s es t) :
    R t (es.foldl abs a) := by
  induction h with
  | nil => exact h0
  | snoc _ hs ih =>
    rw [foldl_append]
    exact hstep _ _ _ _ ih hs

end BooxKernel.Runs
