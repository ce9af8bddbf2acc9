import BooxKernel.Lib.Runs
import BooxKernel.Timer.Cascade

/-!
# Runs of the timer wheel

The abstract timer base knows only which timers are armed, when each is due, and the
time. A run of the wheel starts the handlers of exactly the timers that are due.
-/
namespace BooxKernel.Timer
open Queues Runs List Function BitVec Option

variable {τ : Type*} [DecidableEq τ] {c : Config}

/-- The armed timers, and the value of `timer_jiffies`. -/
structure Spec (τ : Type*) where
  clock : Ulong
  armed : τ → Option Armed

namespace Spec

def arm (a : Spec τ) (t : τ) (expires : Ulong) : Spec τ :=
  { a with armed := update a.armed t (some ⟨expires, dueTime a.clock expires⟩) }

def disarm (a : Spec τ) (t : τ) : Spec τ := { a with armed := update a.armed t none }

/-- What one event does. `mod_timer` leaves a timer alone that is armed with the same
expiry. -/
def after (a : Spec τ) : Event τ → Spec τ
  | .arm t expires => a.arm t expires
  | .modify t expires =>
    if (a.armed t).map Armed.expires = some expires then a else a.arm t expires
  | .delete t => a.disarm t
  | .tick _ => a
  | .iteration => { a with clock := a.clock + 1 }
  | .handler t => a.disarm t

end Spec

def history (jiffies : Ulong) (es : List (Event τ)) : Spec τ :=
  es.foldl Spec.after ⟨jiffies, fun _ => none⟩

/-- The wheel holds the armed timers, each on the list from which it will be run. -/
structure Inv (c : Config) (s : State τ) (a : Spec τ) : Prop where
  clock : s.timerJiffies = a.clock
  queued : Queued s.lists
  listed : ∀ t, s.pending t = true ↔ ∃ p, t ∈ s.lists p
  armed : ∀ t, s.pending t = true ↔ a.armed t ≠ none
  placed : ∀ t p, t ∈ s.lists p →
    ∃ x, a.armed t = some x ∧ x.expires = s.expires t ∧ Placed c a.clock x p

section Steps
variable {s s' : State τ} {a : Spec τ} {t u : τ}

section
variable (h : Inv c s a)
include h

omit [DecidableEq τ] in
lemma Inv.not_mem (ht : s.pending t ≠ true) (p : Place) : t ∉ s.lists p :=
  fun hp => ht ((h.listed t).2 ⟨p, hp⟩)

omit [DecidableEq τ] in
lemma Inv.armed_expires (expires : Ulong) :
    (a.armed t).map Armed.expires = some expires ↔ s.expires t = expires ∧ s.pending t = true := by
  constructor
  · intro hmap
    have hpending : s.pending t = true := (h.armed t).2 fun hnone => by simp [hnone] at hmap
    obtain ⟨p, hp⟩ := (h.listed t).1 hpending
    obtain ⟨x, hx, hexp, -⟩ := h.placed t p hp
    rw [hx, map_some, some_inj] at hmap
    exact ⟨hexp.symm.trans hmap, hpending⟩
  · rintro ⟨hexpires, hpending⟩
    obtain ⟨p, hp⟩ := (h.listed t).1 hpending
    obtain ⟨x, hx, hexp, -⟩ := h.placed t p hp
    rw [hx, map_some, hexp, hexpires]

lemma Inv.mem_detached {p : Place} :
    u ∈ (if s.pending t then detachTimer s t else s).lists p ↔ u ∈ s.lists p ∧ u ≠ t := by
  split_ifs with ht
  · exact h.queued.mem_del
  · constructor
    · intro hu
      exact ⟨hu, fun heq => h.not_mem ht p (heq ▸ hu)⟩
    · exact fun hu => hu.1

lemma Inv.queued_detached : Queued (if s.pending t then detachTimer s t else s).lists := by
  split_ifs
  · exact h.queued.del t
  · exact h.queued

lemma doModTimer_spec (t : τ) (expires : Ulong) :
    Inv c (doModTimer c s t expires) (a.arm t expires) := by
  have hmem : ∀ u p, u ∈ (doModTimer c s t expires).lists p ↔
      (u ∈ s.lists p ∧ u ≠ t) ∨ u = t ∧ p = vecOf c s.timerJiffies expires := by
    intro u p
    simp only [doModTimer, internalAddTimer, mem_addTail, h.mem_detached, update_self]
  have hnew : ∀ p, t ∉ (if s.pending t then detachTimer s t else s).lists p :=
    fun p hp => (h.mem_detached.1 hp).2 rfl
  refine ⟨?_, h.queued_detached.addTail hnew, ?_, ?_, ?_⟩
  · show (if s.pending t then detachTimer s t else s).timerJiffies = a.clock
    split_ifs
    · exact h.clock
    · exact h.clock
  · intro u
    show update s.pending t true u = true ↔ _
    by_cases hu : u = t
    · subst hu
      simp only [update_self, true_iff]
      exact ⟨_, (hmem _ _).2 (.inr ⟨rfl, rfl⟩)⟩
    · rw [update_of_ne hu, h.listed u]
      simp only [hmem, hu, ne_eq, not_false_eq_true, and_true, false_and, or_false]
  · intro u
    show update s.pending t true u = true ↔
      update a.armed t (some ⟨expires, dueTime a.clock expires⟩) u ≠ none
    by_cases hu : u = t
    · subst hu
      simp
    · rw [update_of_ne hu, update_of_ne hu]
      exact h.armed u
  · intro u p hu
    show ∃ x, update a.armed t (some ⟨expires, dueTime a.clock expires⟩) u = some x ∧
      x.expires = update s.expires t expires u ∧ Placed c a.clock x p
    rcases (hmem u p).1 hu with ⟨hp, hut⟩ | ⟨rfl, rfl⟩
    · rw [update_of_ne hut, update_of_ne hut]
      exact h.placed u p hp
    · rw [update_self, update_self, h.clock]
      exact ⟨_, rfl, rfl, (vecOf_ahead a.clock expires).placed⟩

lemma detach_spec (t : τ) :
    Inv c { detachTimer s t with pending := update s.pending t false } (a.disarm t) := by
  have hmem : ∀ {u p}, u ∈ del t s.lists p ↔ u ∈ s.lists p ∧ u ≠ t := h.queued.mem_del
  refine ⟨h.clock, h.queued.del t, ?_, ?_, ?_⟩
  · intro u
    show update s.pending t false u = true ↔ ∃ p, u ∈ del t s.lists p
    by_cases hu : u = t
    · subst hu
      simp [hmem]
    · rw [update_of_ne hu, h.listed u]
      simp [hmem, hu]
  · intro u
    show update s.pending t false u = true ↔ update a.armed t none u ≠ none
    by_cases hu : u = t
    · subst hu
      simp
    · rw [update_of_ne hu, update_of_ne hu]
      exact h.armed u
  · intro u p hu
    obtain ⟨hp, hut⟩ := hmem.1 hu
    show ∃ x, update a.armed t none u = some x ∧ x.expires = s.expires u ∧ Placed c a.clock x p
    rw [update_of_ne hut]
    exact h.placed u p hp

lemma delTimer_spec (t : τ) : Inv c (delTimer s t) (a.disarm t) := by
  unfold delTimer
  split_ifs with ht
  · exact detach_spec h t
  · have hnone : a.armed t = none := by
      by_contra hne
      exact ht ((h.armed t).2 hne)
    have hsame : a.disarm t = a := by
      unfold Spec.disarm
      rw [← hnone, update_eq_self]
    rwa [hsame]

omit [DecidableEq τ] in
lemma cascaded_lists (hwork : s.lists .work = []) :
    let slot := (s.timerJiffies &&& c.tvrMask).toNat
    let cascaded :=
      if slot = 0 then cascadeLevels c s.timerJiffies s.expires s.lists [1, 2, 3, 4] else s.lists
    Requeued s.lists cascaded ∧ Cascaded c a.clock s.expires a.armed 5 cascaded := by
  intro slot cascaded
  have hslot : slot = a.clock.toNat % 2 ^ c.shift 1 := by
    rw [shift_succ, Nat.zero_mul, ← h.clock]
    exact toNat_and_tvrMask s.timerJiffies
  have hstart : Cascaded c a.clock s.expires a.armed 1 s.lists := by
    intro u p hu
    obtain ⟨x, hx, hexp, hplaced⟩ := h.placed u p hu
    refine ⟨x, hx, hexp, hplaced, fun m i hp hm => ?_⟩
    obtain rfl : m = 0 := by omega
    subst hp
    exact hplaced
  show Requeued s.lists (if slot = 0 then _ else _) ∧ Cascaded _ _ _ _ _ (if slot = 0 then _ else _)
  by_cases hzero : slot = 0
  · rw [if_pos hzero, h.clock]
    exact ⟨cascadeLevels_requeued h.queued hwork,
      cascadeLevels_cascaded (n := 0) (k := 4) rfl (hslot.symm.trans hzero) hstart⟩
  · rw [if_neg hzero]
    exact ⟨⟨h.queued, fun _ => Iff.rfl, hwork⟩,
      cascaded_of_mod_ne hstart fun hmod => hzero (hslot.trans hmod)⟩

lemma startIteration_spec (hwork : s.lists .work = []) :
    Inv c (startIteration c s) (a.after .iteration) := by
  obtain ⟨hrequeued, hcascaded⟩ := cascaded_lists h hwork
  have hne : Place.vec 0 (s.timerJiffies &&& c.tvrMask).toNat ≠ .work := by simp
  have hmem := fun {u r} => mem_replaceInit (u := u) (r := r) hne hrequeued.work
  have hclock : s.timerJiffies + 1 = a.clock + 1 := by rw [h.clock]
  refine ⟨hclock, hrequeued.queued.replaceInit hne hrequeued.work, ?_, h.armed, ?_⟩
  · intro u
    show s.pending u = true ↔ _
    rw [h.listed u, ← hrequeued.mem u]
    constructor
    · rintro ⟨p, hp⟩
      by_cases hslot : p = .vec 0 (s.timerJiffies &&& c.tvrMask).toNat
      · exact ⟨.work, hmem.2 (.inr ⟨hslot ▸ hp, rfl⟩)⟩
      · exact ⟨p, hmem.2 (.inl ⟨hp, hslot⟩)⟩
    · rintro ⟨p, hp⟩
      rcases hmem.1 hp with ⟨hp, -⟩ | ⟨hp, -⟩
      · exact ⟨p, hp⟩
      · exact ⟨_, hp⟩
  · intro u p hu
    have hindex : (s.timerJiffies &&& c.tvrMask).toNat = a.clock.toNat % 2 ^ c.tvrBits := by
      rw [toNat_and_tvrMask, h.clock]
    rcases hmem.1 hu with ⟨hp, hslot⟩ | ⟨hp, rfl⟩
    · obtain ⟨x, hx, hexp, hplaced, hahead⟩ := hcascaded u p hp
      refine ⟨x, hx, hexp, ?_⟩
      have hp' : Ahead c a.clock x p := by
        match p, hplaced, hp with
        | .vec 0 i, hplaced, _ => exact hahead 0 i rfl (by omega)
        | .vec (n + 1) i, hplaced, _ => exact hahead (n + 1) i rfl (by have := hplaced.1; omega)
        | .work, _, hp =>
          rw [hrequeued.work] at hp
          exact absurd hp not_mem_nil
      apply hp'.tick
      intro hdue
      match p, hp', hslot with
      | .vec 0 i, hp', hslot =>
        exact hslot (by rw [hindex, hp'.2, hdue])
      | .vec (n + 1) i, hp', _ =>
        have hzero : (x.expires - a.clock).toNat = 0 := by
          rw [← hp'.2.1, hdue, sub_self]
          rfl
        have := hp'.2.2.2.2
        omega
    · obtain ⟨x, hx, hexp, -, hahead⟩ := hcascaded u _ hp
      have hdue := due_eq_clock (hahead 0 _ rfl (by omega)) hindex
      exact ⟨x, hx, hexp, show x.due + 1 = a.clock + 1 by rw [hdue]⟩

lemma step_spec {e : Event τ} (hstep : Step c s e s') : Inv c s' (a.after e) := by
  cases e with
  | arm t expires =>
    obtain rfl := hstep
    exact doModTimer_spec h t expires
  | modify t expires =>
    obtain rfl := hstep
    simp only [modTimer, Spec.after, h.armed_expires]
    split_ifs
    · exact h
    · exact doModTimer_spec h t expires
  | delete t =>
    obtain rfl := hstep
    exact delTimer_spec h t
  | tick n =>
    obtain ⟨-, rfl⟩ := hstep
    exact ⟨h.clock, h.queued, h.listed, h.armed, h.placed⟩
  | iteration =>
    obtain ⟨hwork, -, rfl⟩ := hstep
    exact startIteration_spec h hwork
  | handler t =>
    obtain ⟨-, rfl⟩ := hstep
    exact detach_spec h t

end

lemma run_spec {jiffies : Ulong} {es : List (Event τ)}
    (hrun : Run (Step c) (State.boot τ jiffies) es s) : Inv c s (history jiffies es) := by
  refine hrun.simulates (R := fun s a => Inv c s a) ?_ fun _ _ _ _ h hs => step_spec h hs
  exact ⟨rfl, ⟨fun _ => nodup_nil, fun hp => absurd hp not_mem_nil⟩,
    by simp [State.boot], by simp [State.boot], fun _ _ hp => absurd hp not_mem_nil⟩

end Steps

section Exactness
variable {s : State τ} {a : Spec τ} {t : τ} {x : Armed} {jiffies : Ulong}
  {es₁ es₂ es : List (Event τ)} {e : Event τ}

/-- The event arms or re-arms the timer. -/
def Event.arms (t : τ) : Event τ → Prop
  | .arm u _ => u = t
  | .modify u _ => u = t
  | _ => False

omit [DecidableEq τ] in
lemma Inv.mem_work_iff (h : Inv c s a) (hx : a.armed t = some x) :
    t ∈ s.lists .work ↔ x.due + 1 = a.clock := by
  have hplaced : ∀ p, t ∈ s.lists p → Placed c a.clock x p := by
    intro p hp
    obtain ⟨y, hy, -, hplaced⟩ := h.placed t p hp
    rw [hx, some_inj] at hy
    exact hy ▸ hplaced
  constructor
  · exact hplaced .work
  · intro hdue
    have hfar : (x.due - a.clock).toNat = 2 ^ 32 - 1 := by
      rw [← hdue]
      have hone : (1 : Ulong).toNat = 1 := rfl
      rw [toNat_sub, toNat_add]
      omega
    obtain ⟨p, hp⟩ := (h.listed t).1 ((h.armed t).2 (by simp [hx]))
    match p, hp, hplaced p hp with
    | .work, hp, _ => exact hp
    | .vec 0 _, _, ⟨hlt, _⟩ =>
      have hpow : 2 ^ c.tvrBits < 2 ^ 31 :=
        Nat.pow_lt_pow_right (by norm_num) (by have := c.shift_lt; omega)
      omega
    | .vec (_ + 1) _, _, ⟨_, hexpires, _, hlt, _⟩ =>
      rw [← hexpires] at hlt
      omega

lemma history_snoc (es : List (Event τ)) (e : Event τ) :
    history jiffies (es ++ [e]) = (history jiffies es).after e :=
  foldl_append

lemma after_armed (harm : ¬ e.arms t) (hdelete : e ≠ .delete t) (hrun : e ≠ .handler t)
    : (a.after e).armed t = a.armed t := by
  cases e with
  | arm u expires => exact update_of_ne (Ne.symm harm) _ _
  | modify u expires =>
    simp only [Spec.after]
    split_ifs
    · rfl
    · exact update_of_ne (Ne.symm harm) _ _
  | delete u => exact update_of_ne (fun heq => hdelete (by rw [heq])) _ _
  | tick n => rfl
  | iteration => rfl
  | handler u => exact update_of_ne (fun heq => hrun (by rw [heq])) _ _

lemma history_not_armed (h : (history jiffies es₁).armed t = none) (harm : ∀ e ∈ es₂, ¬ e.arms t)
    : (history jiffies (es₁ ++ es₂)).armed t = none := by
  induction es₂ using reverseRecOn with
  | nil => simpa using h
  | append_singleton es₂ e ih =>
    have hnone := ih fun e he => harm e (mem_append_left _ he)
    rw [← List.append_assoc, history_snoc]
    by_cases hdelete : e = .delete t
    · simp [hdelete, Spec.after, Spec.disarm]
    · by_cases hhandler : e = .handler t
      · simp [hhandler, Spec.after, Spec.disarm]
      · rw [after_armed (harm e (by simp)) hdelete hhandler, hnone]

lemma after_clock (he : e ≠ .iteration) : (a.after e).clock = a.clock := by
  cases e with
  | modify t expires =>
    simp only [Spec.after]
    split_ifs
    · rfl
    · rfl
  | iteration => exact absurd rfl he
  | _ => rfl

lemma history_clock (es₁ es₂ : List (Event τ)) :
    (history jiffies (es₁ ++ es₂)).clock =
      (history jiffies es₁).clock + BitVec.ofNat 32 (es₂.count .iteration) := by
  induction es₂ using reverseRecOn with
  | nil => simp
  | append_singleton es₂ e ih =>
    rw [← List.append_assoc, history_snoc]
    by_cases he : e = .iteration
    · subst he
      show (history jiffies (es₁ ++ es₂)).clock + 1#32 = _
      rw [ih, count_append, count_singleton_self, add_assoc, ofNat_add]
    · rw [after_clock he, ih, count_append, count_singleton, beq_eq_false_iff_ne.2 he]
      simp

lemma mem_work_iff_count (h : Inv c s (history jiffies (es₁ ++ es₂)))
    (hx : (history jiffies (es₁ ++ es₂)).armed t = some x)
    (hlt : (x.due - (history jiffies es₁).clock).toNat < 2 ^ 31)
    (hle : es₂.count .iteration ≤ (x.due - (history jiffies es₁).clock).toNat + 1) :
    t ∈ s.lists .work ↔ es₂.count .iteration = (x.due - (history jiffies es₁).clock).toNat + 1 := by
  rw [h.mem_work_iff hx, history_clock]
  show x.due + 1#32 = _ ↔ _
  have hdue : x.due = (history jiffies es₁).clock +
      BitVec.ofNat 32 (x.due - (history jiffies es₁).clock).toNat := by
    rw [ofNat_toNat, setWidth_eq, add_comm, sub_add_cancel]
  constructor
  · intro heq
    rw [hdue] at heq
    have := congrArg BitVec.toNat heq
    simp only [toNat_add, toNat_ofNat] at this
    omega
  · intro heq
    rw [heq, ofNat_add, ← add_assoc, ← hdue]

/-- A timer that is due in `k` ticks and that nobody changes: its handler starts in the
iteration after these, and not again. -/
lemma handler_once (hrun : Run (Step c) (State.boot τ jiffies) (es₁ ++ es₂) s)
    (hx : (history jiffies es₁).armed t = some x)
    (hlt : (x.due - (history jiffies es₁).clock).toNat < 2 ^ 31) (harm : ∀ e ∈ es₂, ¬ e.arms t)
    (hdelete : ∀ e ∈ es₂, e ≠ .delete t) :
    let k := (x.due - (history jiffies es₁).clock).toNat
    ((history jiffies (es₁ ++ es₂)).armed t = some x ∧ es₂.count (.handler t) = 0 ∧
      es₂.count .iteration ≤ k + 1) ∨
    ((history jiffies (es₁ ++ es₂)).armed t = none ∧ es₂.count (.handler t) = 1 ∧
      k + 1 ≤ es₂.count .iteration) := by
  induction es₂ using reverseRecOn generalizing s with
  | nil => exact .inl ⟨by simpa using hx, rfl, Nat.zero_le _⟩
  | append_singleton es₂ e ih =>
    rw [← List.append_assoc] at hrun
    obtain ⟨s0, hrun0, hstep⟩ := hrun.unsnoc
    have hinv := run_spec hrun0
    have hkeep := after_armed (a := history jiffies (es₁ ++ es₂)) (harm e (by simp))
      (hdelete e (by simp))
    rw [← List.append_assoc, history_snoc, count_append, count_append]
    rcases ih hrun0 (fun e he => harm e (mem_append_left _ he))
      (fun e he => hdelete e (mem_append_left _ he)) with ⟨hy, hcount, hle⟩ | ⟨hy, hcount, hle⟩
    · have hwork := mem_work_iff_count hinv hy hlt hle
      by_cases hhandler : e = .handler t
      · subst hhandler
        refine .inr ⟨by simp [Spec.after, Spec.disarm], by simp [hcount], ?_⟩
        have := hwork.1 (mem_of_mem_head? hstep.1)
        omega
      · refine .inl ⟨(hkeep hhandler).trans hy, ?_, ?_⟩
        · rw [hcount, count_singleton, beq_eq_false_iff_ne.2 hhandler]
          rfl
        · by_cases hiter : e = .iteration
          · subst hiter
            have hnot := hstep.1 ▸ not_mem_nil (a := t)
            have := mt hwork.2 hnot
            rw [count_singleton_self]
            omega
          · rw [count_singleton, beq_eq_false_iff_ne.2 hiter]
            exact hle
    · have hhandler : e ≠ .handler t := by
        rintro rfl
        obtain ⟨z, hz, -⟩ := hinv.placed t .work (mem_of_mem_head? hstep.1)
        simp [hy] at hz
      refine .inr ⟨(hkeep hhandler).trans hy, ?_, hle.trans (Nat.le_add_right _ _)⟩
      rw [hcount, count_singleton, beq_eq_false_iff_ne.2 hhandler]
      rfl

lemma work_eq_nil (hrun : Run (Step c) (State.boot τ jiffies) es s) (hes : .iteration ∉ es)
    : s.lists .work = [] := by
  induction hrun with
  | nil => rfl
  | @snoc es e s0 s hrun0 hstep ih =>
    have hnil : s0.lists .work = [] := ih fun hmem => hes (mem_append_left _ hmem)
    have hdetached : ∀ t, del t s0.lists .work = [] := by
      intro t
      rw [del, hnil]
      rfl
    have hmod : ∀ t expires, (doModTimer c s0 t expires).lists .work = [] := by
      intro t expires
      simp only [doModTimer, internalAddTimer, addTail]
      rw [update_of_ne (vecOf_ne_work _).symm]
      split_ifs
      · exact hdetached t
      · exact hnil
    cases e with
    | arm t expires =>
      obtain rfl := hstep
      exact hmod t expires
    | modify t expires =>
      obtain rfl := hstep
      unfold modTimer
      split_ifs
      · exact hnil
      · exact hmod t expires
    | delete t =>
      obtain rfl := hstep
      unfold delTimer
      split_ifs
      · exact hdetached t
      · exact hnil
    | tick n =>
      obtain ⟨-, rfl⟩ := hstep
      exact hnil
    | iteration => simp at hes
    | handler t =>
      obtain ⟨hhead, -⟩ := hstep
      simp [hnil] at hhead

lemma handler_iteration (hrun : Run (Step c) (State.boot τ jiffies) (es ++ [.handler t]) s) :
    ∃ x u v, (history jiffies es).armed t = some x ∧ es = u ++ .iteration :: v ∧
      .iteration ∉ v ∧ (history jiffies u).clock = x.due := by
  obtain ⟨s0, hrun0, hhead, -⟩ := hrun.unsnoc
  have ht : t ∈ s0.lists .work := mem_of_mem_head? hhead
  obtain ⟨x, hx, -, hdue⟩ := (run_spec hrun0).placed t .work ht
  have hmem : Event.iteration ∈ es := by
    by_contra hmem
    rw [work_eq_nil hrun0 hmem] at ht
    exact not_mem_nil ht
  obtain ⟨v, u, hes, hv⟩ := eq_append_cons_of_mem (mem_reverse.2 hmem)
  have hes : es = u.reverse ++ .iteration :: v.reverse := by
    rw [← reverse_reverse es, hes]
    simp
  have hv : Event.iteration ∉ v.reverse := fun hmem => hv (mem_reverse.1 hmem)
  refine ⟨x, u.reverse, v.reverse, hx, hes, hv, ?_⟩
  have hclock : (history jiffies es).clock = (history jiffies u.reverse).clock + 1#32 := by
    rw [hes, history_clock, count_cons_self, count_eq_zero_of_not_mem hv]
  rw [hclock] at hdue
  exact ((add_left_inj _).1 hdue).symm

lemma after_arm {expires : Ulong}
    (he : e = .arm t expires ∨ e = .modify t expires ∧ (a.armed t).map Armed.expires ≠ some expires) :
    a.after e = a.arm t expires := by
  rcases he with rfl | ⟨rfl, hne⟩
  · rfl
  · exact if_neg hne

/-- Every pending timer is on exactly one list, and a timer that is armed runs exactly
once, in the iteration of its expiry (or at once, if that has passed), unless it is
changed before. -/
theorem timer_wheel_exact {es : List (Event τ)} (hrun : Run (Step c) (State.boot τ jiffies) es s) :
    (s.timerJiffies = (history jiffies es).clock ∧ ∀ p, (s.lists p).Nodup) ∧
    (∀ t, if s.pending t then ∃! p, t ∈ s.lists p else ∀ p, t ∉ s.lists p) ∧
    (∀ es₁ t es₂, es = es₁ ++ .handler t :: es₂ →
      ∃ x u v, (history jiffies es₁).armed t = some x ∧ es₁ = u ++ .iteration :: v ∧
        .iteration ∉ v ∧ (history jiffies u).clock = x.due) ∧
    (∀ es₁ t es₂, es = es₁ ++ .delete t :: es₂ → (∀ e ∈ es₂, ¬ e.arms t) → .handler t ∉ es₂) ∧
    (∀ es₁ t expires e es₂, es = es₁ ++ e :: es₂ →
      e = .arm t expires ∨ e = .modify t expires ∧
        ((history jiffies es₁).armed t).map Armed.expires ≠ some expires →
      (∀ e ∈ es₂, ¬ e.arms t ∧ e ≠ .delete t) →
      let now := (history jiffies es₁).clock
      let k := (expires - now).toInt.toNat
      (history jiffies (es₁ ++ [e])).armed t = some ⟨expires, dueTime now expires⟩ ∧
      ((s.pending t = true ∧ t ∉ s.lists .work ∧ .handler t ∉ es₂ ∧ es₂.count .iteration ≤ k) ∨
       (t ∈ s.lists .work ∧ .handler t ∉ es₂ ∧ es₂.count .iteration = k + 1) ∨
       (s.pending t = false ∧ es₂.count (.handler t) = 1 ∧ k + 1 ≤ es₂.count .iteration))) := by
  have hinv := run_spec hrun
  have hcut : ∀ es₁ t es₂, es = es₁ ++ .handler t :: es₂ →
      ∃ s1, Run (Step c) (State.boot τ jiffies) (es₁ ++ [.handler t]) s1 := by
    intro es₁ t es₂ hes
    rw [hes, append_cons] at hrun
    obtain ⟨s1, hrun1, -⟩ := hrun.split
    exact ⟨s1, hrun1⟩
  refine ⟨⟨hinv.clock, hinv.queued.nodup⟩, ?_, ?_, ?_, ?_⟩
  · intro t
    split_ifs with ht
    · obtain ⟨p, hp⟩ := (hinv.listed t).1 ht
      exact ⟨p, hp, fun p' hp' => hinv.queued.unique hp' hp⟩
    · exact hinv.not_mem ht
  · intro es₁ t es₂ hes
    obtain ⟨s1, hrun1⟩ := hcut es₁ t es₂ hes
    exact handler_iteration hrun1
  · intro es₁ t es₂ hes harm hmem
    obtain ⟨u, v, rfl⟩ := append_of_mem hmem
    obtain ⟨s1, hrun1⟩ := hcut (es₁ ++ .delete t :: u) t v (by rw [hes]; simp)
    obtain ⟨x, -, -, hx, -⟩ := handler_iteration hrun1
    have hnone : (history jiffies (es₁ ++ [.delete t])).armed t = none := by
      rw [history_snoc]
      exact update_self _ _ _
    have hstill : (history jiffies (es₁ ++ [.delete t] ++ u)).armed t = none :=
      history_not_armed hnone fun e he => harm e (mem_append_left _ he)
    rw [List.append_assoc, singleton_append, hx] at hstill
    exact some_ne_none _ hstill
  · intro es₁ t expires e es₂ hes he hfree now k
    have hafter := after_arm he
    have hclock : (history jiffies (es₁ ++ [e])).clock = now := by
      rw [history_snoc, hafter]
      rfl
    have hx : (history jiffies (es₁ ++ [e])).armed t = some ⟨expires, dueTime now expires⟩ := by
      rw [history_snoc, hafter]
      exact update_self _ _ _
    have hk : (dueTime now expires - (history jiffies (es₁ ++ [e])).clock).toNat = k := by
      rw [hclock, toNat_dueTime_sub]
    have hlt : k < 2 ^ 31 := by
      have := toInt_lt (x := expires - now)
      omega
    refine ⟨hx, ?_⟩
    rw [append_cons] at hes
    subst hes
    have honce := handler_once hrun hx (hk.trans_lt hlt) (fun e he => (hfree e he).1)
      (fun e he => (hfree e he).2)
    simp only [hk] at honce
    rcases honce with ⟨harmed, hcount, hle⟩ | ⟨hnone, hcount, hle⟩
    · have hwork := mem_work_iff_count hinv harmed (hk.trans_lt hlt) (hk.symm ▸ hle)
      rw [hk] at hwork
      have hhandler := count_eq_zero.1 hcount
      by_cases hmem : t ∈ s.lists .work
      · exact .inr (.inl ⟨hmem, hhandler, hwork.1 hmem⟩)
      · refine .inl ⟨(hinv.armed t).2 (harmed ▸ some_ne_none _), hmem, hhandler, ?_⟩
        have := mt hwork.2 hmem
        omega
    · refine .inr (.inr ⟨?_, hcount, hle⟩)
      have hnot := mt (hinv.armed t).1 (not_not.2 hnone)
      simpa using hnot

/-- A timer armed at the last jiffy before the wrap, for the first one after it. -/
theorem timer_wheel_exact_at_wrap :
    ∃ s, Run (Step ⟨6, 8, by decide⟩) (State.boot Unit 0xffffffff)
        [.arm () 0, .tick 1, .iteration, .iteration, .handler ()] s ∧
      ∃ x u v, (history 0xffffffff [.arm () 0, .tick 1, .iteration, .iteration]).armed () = some x ∧
        [Event.arm () 0, .tick 1, .iteration, .iteration] = u ++ .iteration :: v ∧
        .iteration ∉ v ∧ (history 0xffffffff u).clock = x.due := by
  refine Exists.imp (fun s hrun => ⟨hrun, (timer_wheel_exact hrun).2.2.1 _ () [] rfl⟩)
    (?_ : ∃ s, Run _ _ _ s)
  exact ⟨_, .cons rfl (.cons ⟨by decide, rfl⟩ (.cons ⟨by decide, by decide, rfl⟩
    (.cons ⟨by decide, by decide, rfl⟩ (.cons ⟨by decide, rfl⟩ .nil))))⟩

end Exactness

end BooxKernel.Timer
