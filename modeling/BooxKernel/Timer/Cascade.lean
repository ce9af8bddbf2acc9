import BooxKernel.Timer.Wheel

/-!
# Cascading

`__run_timers` cascades level after level while the index of the level is 0. After
that, no slot above level 0 holds a timer that should have been cascaded by now.
-/
namespace BooxKernel.Timer
open Queues List Nat Function

variable {τ : Type*} {c : Config} {clock : Ulong} {expires : τ → Ulong} {lists : Place → List τ}

section Lists

variable {p r : Place}

lemma mem_foldl_add {ts : List τ} {u : τ} :
    u ∈ ts.foldl (internalAddTimer c clock expires) lists p ↔
      u ∈ lists p ∨ u ∈ ts ∧ p = vecOf c clock (expires u) := by
  induction ts generalizing lists with
  | nil => simp
  | cons t ts ih =>
    rw [foldl_cons, ih, internalAddTimer, mem_addTail, mem_cons]
    constructor
    · rintro ((h | ⟨rfl, rfl⟩) | ⟨h, rfl⟩)
      · exact .inl h
      · exact .inr ⟨.inl rfl, rfl⟩
      · exact .inr ⟨.inr h, rfl⟩
    · rintro (h | ⟨rfl | h, rfl⟩)
      · exact .inl (.inl h)
      · exact .inl (.inr ⟨rfl, rfl⟩)
      · exact .inr ⟨h, rfl⟩

lemma queued_foldl_add {ts : List τ} (hq : Queued lists) (hts : ts.Nodup)
    (hnew : ∀ u ∈ ts, ∀ p, u ∉ lists p) :
    Queued (ts.foldl (internalAddTimer c clock expires) lists) := by
  induction ts generalizing lists with
  | nil => exact hq
  | cons t ts ih =>
    obtain ⟨ht, hts⟩ := nodup_cons.1 hts
    apply ih (hq.addTail (hnew t mem_cons_self)) hts
    intro u hu p hmem
    rcases mem_addTail.1 hmem with hmem | ⟨rfl, -⟩
    · exact hnew u (mem_cons_of_mem t hu) p hmem
    · exact ht hu

lemma mem_clear {u : τ} : u ∈ update lists p [] r ↔ u ∈ lists r ∧ r ≠ p := by
  by_cases h : r = p
  · subst h
    simp
  · simp [h]

lemma mem_cascade {n i : ℕ} {u : τ} :
    u ∈ cascade c clock expires lists n i p ↔
      u ∈ lists p ∧ p ≠ .vec n i ∨ u ∈ lists (.vec n i) ∧ p = vecOf c clock (expires u) := by
  rw [cascade, mem_foldl_add, mem_clear]

lemma queued_cascade (hq : Queued lists) (n i : ℕ) : Queued (cascade c clock expires lists n i) := by
  have hclear : Queued (update lists (.vec n i) []) := by
    refine ⟨fun p => ?_, ?_⟩
    · by_cases h : p = .vec n i
      · subst h
        simp
      · rw [update_of_ne h]
        exact hq.nodup p
    · intro p p' u hp hp'
      exact hq.unique (mem_clear.1 hp).1 (mem_clear.1 hp').1
  apply queued_foldl_add hclear (hq.nodup _)
  intro u hu p hp
  exact (mem_clear.1 hp).2 (hq.unique (mem_clear.1 hp).1 hu)

lemma exists_mem_cascade {n i : ℕ} {u : τ} :
    (∃ p, u ∈ cascade c clock expires lists n i p) ↔ ∃ p, u ∈ lists p := by
  constructor
  · rintro ⟨p, hp⟩
    rcases mem_cascade.1 hp with ⟨hp, -⟩ | ⟨hp, -⟩
    · exact ⟨p, hp⟩
    · exact ⟨_, hp⟩
  · rintro ⟨p, hp⟩
    by_cases h : p = .vec n i
    · exact ⟨_, mem_cascade.2 (.inr ⟨h ▸ hp, rfl⟩)⟩
    · exact ⟨p, mem_cascade.2 (.inl ⟨hp, h⟩)⟩

lemma vecOf_ne_work (expires : Ulong) : vecOf c clock expires ≠ .work := by
  simp only [vecOf]
  split_ifs <;> simp

lemma cascade_work {n i : ℕ} (h : lists .work = []) :
    cascade c clock expires lists n i .work = [] := by
  apply eq_nil_iff_forall_not_mem.2
  intro u hu
  rcases mem_cascade.1 hu with ⟨hu, -⟩ | ⟨-, hu⟩
  · simp [h] at hu
  · exact vecOf_ne_work _ hu.symm

/-- What holds of cascading on any levels. -/
structure Requeued (lists lists' : Place → List τ) : Prop where
  queued : Queued lists'
  mem : ∀ u, (∃ p, u ∈ lists' p) ↔ ∃ p, u ∈ lists p
  work : lists' .work = []

lemma cascadeLevels_requeued {levels : List ℕ} (hq : Queued lists) (hwork : lists .work = []) :
    Requeued lists (cascadeLevels c clock expires lists levels) := by
  induction levels generalizing lists with
  | nil => exact ⟨hq, fun _ => Iff.rfl, hwork⟩
  | cons n levels ih =>
    have hq' : Queued (cascade c clock expires lists n (c.index n clock)) := queued_cascade hq n _
    have hwork' : cascade c clock expires lists n (c.index n clock) .work = [] := cascade_work hwork
    simp only [cascadeLevels]
    split_ifs
    · have hrest := ih hq' hwork'
      exact ⟨hrest.queued, fun u => (hrest.mem u).trans exists_mem_cascade, hrest.work⟩
    · exact ⟨hq', fun u => exists_mem_cascade, hwork'⟩

end Lists

section Levels
variable {armed : τ → Option Armed}

/-- Every timer stands where it should, and below level `n` nothing is left to cascade. -/
def Cascaded (c : Config) (clock : Ulong) (expires : τ → Ulong) (armed : τ → Option Armed) (n : ℕ)
    (lists : Place → List τ) : Prop :=
  ∀ u p, u ∈ lists p → ∃ x, armed u = some x ∧ x.expires = expires u ∧ Placed c clock x p ∧
    ∀ m i, p = .vec m i → m < n → Ahead c clock x p

lemma cascade_step {n : ℕ} (h : Cascaded c clock expires armed (n + 1) lists) :
    Cascaded c clock expires armed (n + 2)
      (cascade c clock expires lists (n + 1) (c.index (n + 1) clock)) := by
  intro u p hu
  rcases mem_cascade.1 hu with ⟨hold, hslot⟩ | ⟨hold, rfl⟩
  · obtain ⟨x, hx, hexp, hplaced, hahead⟩ := h u p hold
    refine ⟨x, hx, hexp, hplaced, fun m i hp hm => ?_⟩
    rcases lt_or_ge m (n + 1) with hlt | hge
    · exact hahead m i hp hlt
    · obtain rfl : m = n + 1 := by omega
      subst hp
      by_contra hnot
      exact hslot (by rw [(clock_of_not_ahead hplaced hnot).2])
  · obtain ⟨x, hx, hexp, ⟨-, hdue, -, hlt, -⟩, -⟩ := h u _ hold
    have hahead : Ahead c clock x (vecOf c clock (expires u)) := by
      have hplace := vecOf_ahead (c := c) clock (expires u)
      rw [← hexp, dueTime_of_lt hlt] at hplace
      rw [← hexp]
      cases x
      simp only at hdue
      subst hdue
      exact hplace
    exact ⟨x, hx, hexp, hahead.placed, fun _ _ _ _ => hahead⟩

/-- When `clock` is no multiple of the width of a level's slots, the levels from there
on need no cascading. -/
lemma cascaded_of_mod_ne {n : ℕ} (h : Cascaded c clock expires armed n lists)
    (hmod : clock.toNat % 2 ^ c.shift n ≠ 0) : Cascaded c clock expires armed 5 lists := by
  intro u p hu
  obtain ⟨x, hx, hexp, hplaced, hahead⟩ := h u p hu
  refine ⟨x, hx, hexp, hplaced, fun m i hp hm => ?_⟩
  rcases lt_or_ge m n with hlt | hge
  · exact hahead m i hp hlt
  · subst hp
    by_contra hnot
    obtain _ | m := m
    · exact hnot hplaced
    · have hdvd : 2 ^ c.shift n ∣ clock.toNat :=
        (pow_dvd_pow 2 (shift_mono hge)).trans
          (dvd_of_mod_eq_zero (clock_of_not_ahead hplaced hnot).1)
      exact hmod (mod_eq_zero_of_dvd hdvd)

lemma mod_shift_succ {n : ℕ} (hmod : clock.toNat % 2 ^ c.shift (n + 1) = 0) :
    clock.toNat % 2 ^ c.shift (n + 2) = 0 ↔ c.index (n + 1) clock = 0 := by
  have hpow : 2 ^ c.shift (n + 2) = 2 ^ c.shift (n + 1) * 2 ^ c.tvnBits := by
    rw [shift_succ, shift_succ]
    ring
  rw [index_eq, hpow, mod_mul, hmod, zero_add, mul_eq_zero]
  have hpos : 2 ^ c.shift (n + 1) ≠ 0 := by positivity
  tauto

lemma cascadeLevels_cascaded {k n : ℕ} (hn : n + k = 4)
    (hmod : clock.toNat % 2 ^ c.shift (n + 1) = 0)
    (h : Cascaded c clock expires armed (n + 1) lists) :
    Cascaded c clock expires armed 5
      (cascadeLevels c clock expires lists (List.range' (n + 1) k)) := by
  induction k generalizing n lists with
  | zero =>
    obtain rfl : n = 4 := by omega
    exact h
  | succ k ih =>
    rw [range'_succ]
    simp only [cascadeLevels]
    split_ifs with hindex
    · exact ih (by omega) ((mod_shift_succ hmod).2 hindex) (cascade_step h)
    · exact cascaded_of_mod_ne (cascade_step h) fun hzero => hindex ((mod_shift_succ hmod).1 hzero)

end Levels

end BooxKernel.Timer
