import Mathlib.Data.Nat.Notation
import Mathlib.Tactic.Basic

/-!
# Loops

A loop is given by its round. It has a value when each of its rounds has one and
some round is the last, so a result stated as `loop round s = some r` says that the
loop ends. A loop that counts up to a bound has its own form, with its rule.
-/
namespace BooxKernel.Loops

variable {σ ρ : Type*} {body body' : ℕ → σ → Option σ} {N n i : ℕ} {P : ℕ → σ → Prop}

/-- How a round ends: with the variables of the next one, or with the result. -/
inductive Round (σ ρ : Type*)
  | next (s : σ)
  | done (r : ρ)
  deriving DecidableEq

/-- The loop that starts with the variables `s`. -/
def loop (round : σ → Option (Round σ ρ)) (s : σ) : Option ρ :=
  match round s with
  | none => none
  | some (.done r) => some r
  | some (.next s) => by
    apply loop
    · exact round
    · exact s
partial_fixpoint

/-- What is left to do after a round. -/
@[simp]
def Round.elim (goOn : σ → Option ρ) : Round σ ρ → Option ρ
  | .next s => goOn s
  | .done r => some r

section
variable {round : σ → Option (Round σ ρ)} {P : σ → Prop} {s : σ}

lemma loop_eq (round : σ → Option (Round σ ρ)) (s : σ) :
    loop round s = (round s).bind (Round.elim (loop round)) := by
  rw [loop]
  rcases round s with - | (s' | r) <;> rfl

/-- A loop ends when each round keeps `P` and lowers `measure`, or ends it with a result of `Q`. -/
lemma loop_rule {Q : ρ → Prop} (measure : σ → ℕ)
    (hround : ∀ s, P s → (∃ s', round s = some (.next s') ∧ measure s' < measure s ∧ P s') ∨
      ∃ r, round s = some (.done r) ∧ Q r) (h : P s) : ∃ r, loop round s = some r ∧ Q r := by
  induction hm : measure s using Nat.strongRecOn generalizing s with
  | ind m ih =>
    subst hm
    rw [loop_eq]
    rcases hround s h with ⟨s', hs', hlt, h'⟩ | ⟨r, hr, hQ⟩
    · rw [hs']
      exact ih _ hlt h' rfl
    · exact ⟨r, by rw [hr]; rfl, hQ⟩

/-- What each round keeps holds at the end of a loop that ends. -/
lemma loop_inv {Q : ρ → Prop} {r : ρ} (hnext : ∀ s s', P s → round s = some (.next s') → P s')
    (hdone : ∀ s r, P s → round s = some (.done r) → Q r) (h : P s)
    (hloop : loop round s = some r) : Q r := by
  refine loop.partial_correctness round (fun s r => P s → Q r) (fun goOn ih s r hr hs => ?_) s r
    hloop h
  rcases hround : round s with - | (s' | r')
  · simp [hround] at hr
  · rw [hround] at hr
    exact ih s' r hr (hnext s s' hs hround)
  · rw [hround] at hr
    obtain rfl := Option.some.inj hr
    exact hdone s r' hs hround

end

/-- `for (i = 0; i < n; i++)`, with `n` rounds to go from `i` on. -/
def forUpto (body : ℕ → σ → Option σ) : ℕ → ℕ → σ → Option σ
  | 0, _, s => some s
  | n + 1, i, s => (body i s).bind (forUpto body n (i + 1))

/-- The same loop, when a round may leave it. -/
def forBreak (body : ℕ → σ → Option (Round σ ρ)) : ℕ → ℕ → σ → Option (Round σ ρ)
  | 0, _, s => some (.next s)
  | n + 1, i, s => (body i s).bind fun
    | .next s => forBreak body n (i + 1) s
    | .done r => some (.done r)

/-- An invariant that every round keeps. -/
lemma forUpto_rule (hbody : ∀ i s, i < N → P i s → ∃ s', body i s = some s' ∧ P (i + 1) s')
    {s : σ} (hN : i + n = N) (h : P i s) : ∃ s', forUpto body n i s = some s' ∧ P N s' := by
  induction n generalizing i s with
  | zero =>
    obtain rfl : i = N := hN
    exact ⟨s, rfl, h⟩
  | succ n ih =>
    obtain ⟨s1, hs1, h1⟩ := hbody i s (by omega) h
    obtain ⟨s', hs', h'⟩ := ih (by omega) h1
    exact ⟨s', by rw [forUpto, hs1]; exact hs', h'⟩

/-- An invariant that every round keeps, unless it leaves the loop. -/
lemma forBreak_rule {body : ℕ → σ → Option (Round σ ρ)} {P : ℕ → σ → Prop} {Q : ρ → Prop} {N : ℕ}
    (hbody : ∀ i s, i < N → P i s → (∃ s', body i s = some (.next s') ∧ P (i + 1) s') ∨
      ∃ r, body i s = some (.done r) ∧ Q r) {n i : ℕ} {s : σ} (hN : i + n = N) (h : P i s) :
    (∃ s', forBreak body n i s = some (.next s') ∧ P N s') ∨
      ∃ r, forBreak body n i s = some (.done r) ∧ Q r := by
  induction n generalizing i s with
  | zero =>
    obtain rfl : i = N := hN
    exact .inl ⟨s, rfl, h⟩
  | succ n ih =>
    rcases hbody i s (by omega) h with ⟨s1, hs1, h1⟩ | ⟨r, hr, hQ⟩
    · rcases ih (by omega) h1 with ⟨s', hs', h'⟩ | ⟨r, hr, hQ⟩
      · exact .inl ⟨s', by rw [forBreak, hs1]; exact hs', h'⟩
      · exact .inr ⟨r, by rw [forBreak, hs1]; exact hr, hQ⟩
    · exact .inr ⟨r, by rw [forBreak, hr]; rfl, hQ⟩

end BooxKernel.Loops
