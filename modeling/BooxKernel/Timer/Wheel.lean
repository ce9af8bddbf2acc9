import BooxKernel.Timer.Model

/-!
# Where a timer stands in the wheel

A timer of a level above 0 stands in the slot of its expiry's digit, and the slot is
cascaded when `timer_jiffies` reaches the expiry with its low bits cleared. That is
all there is to the invariant: this time has not passed yet. `Placed` states it, and
`Ahead` states it for a base whose slots have just been cascaded.
-/
namespace BooxKernel.Timer
open Queues BitVec Nat

variable {τ : Type*} {c : Config}

/-- What a pending timer was armed with: its expiry, and the time that it is due,
which is the time of arming when the expiry has passed then. -/
structure Armed where
  expires : Ulong
  due : Ulong
  deriving DecidableEq

def dueTime (clock expires : Ulong) : Ulong := if (expires - clock).toInt < 0 then clock else expires

/-- The timer's slot is cascaded in time, at `clock` at the earliest. -/
def Placed (c : Config) (clock : Ulong) (x : Armed) : Place → Prop
  | .vec 0 i => (x.due - clock).toNat < 2 ^ c.tvrBits ∧ i = x.due.toNat % 2 ^ c.tvrBits
  | .vec (n + 1) i => n < 4 ∧ x.due = x.expires ∧
      i = x.expires.toNat / 2 ^ c.shift (n + 1) % 2 ^ c.tvnBits ∧
      (x.expires - clock).toNat < 2 ^ 31 ∧
      x.expires.toNat % 2 ^ c.shift (n + 1) ≤ (x.expires - clock).toNat
  | .work => x.due + 1 = clock

/-- The timer's slot is cascaded in time, after `clock`. -/
def Ahead (c : Config) (clock : Ulong) (x : Armed) : Place → Prop
  | .vec 0 i => (x.due - clock).toNat < 2 ^ c.tvrBits ∧ i = x.due.toNat % 2 ^ c.tvrBits
  | .vec (n + 1) i => n < 4 ∧ x.due = x.expires ∧
      i = x.expires.toNat / 2 ^ c.shift (n + 1) % 2 ^ c.tvnBits ∧
      (x.expires - clock).toNat < 2 ^ 31 ∧
      x.expires.toNat % 2 ^ c.shift (n + 1) < (x.expires - clock).toNat
  | .work => False

lemma Ahead.placed {clock : Ulong} {x : Armed} {p : Place} (h : Ahead c clock x p) :
    Placed c clock x p := by
  match p, h with
  | .vec 0 _, h => exact h
  | .vec (_ + 1) _, ⟨hn, hdue, hi, hlt, hahead⟩ => exact ⟨hn, hdue, hi, hlt, hahead.le⟩

lemma toNat_and_tvrMask (x : Ulong) : (x &&& c.tvrMask).toNat = x.toNat % 2 ^ c.tvrBits := by
  have hpow : 2 ^ c.tvrBits < 2 ^ 32 :=
    Nat.pow_lt_pow_right (by norm_num) (by have := c.shift_lt; omega)
  unfold Config.tvrMask
  rw [toNat_and, toNat_ofNat, mod_eq_of_lt (by omega), and_two_pow_sub_one_eq_mod]

lemma index_eq (level : ℕ) (x : Ulong) :
    c.index level x = x.toNat / 2 ^ c.shift level % 2 ^ c.tvnBits := by
  have hpow : 2 ^ c.tvnBits < 2 ^ 32 :=
    Nat.pow_lt_pow_right (by norm_num) (by have := c.shift_lt; omega)
  unfold Config.index Config.tvnMask
  rw [toNat_and, toNat_ofNat, mod_eq_of_lt (by omega),
    and_two_pow_sub_one_eq_mod, toNat_ushiftRight, shiftRight_eq_div_pow]

lemma shift_succ (n : ℕ) : c.shift (n + 1) = c.tvrBits + n * c.tvnBits := by
  simp [Config.shift]

lemma shift_mono {m n : ℕ} (h : m ≤ n) : c.shift m ≤ c.shift n :=
  Nat.add_le_add_left (Nat.mul_le_mul_right _ (by omega)) _

lemma shift_le {n : ℕ} (h : n < 4) : c.shift (n + 1) ≤ 30 := by
  have hmono : c.shift (n + 1) ≤ c.shift 4 := shift_mono (by omega)
  have hlast : c.shift 4 < 31 := c.shift_lt
  omega

lemma toInt_neg_iff (x : Ulong) : x.toInt < 0 ↔ 2 ^ 31 ≤ x.toNat := by
  rw [toInt_eq_toNat_cond]
  split_ifs with h <;> omega

section Adding

variable {clock expires : Ulong}

lemma ahead_of_le {n : ℕ} (hn : n < 4) (hle : 2 ^ c.shift (n + 1) ≤ (expires - clock).toNat)
    (hlt : (expires - clock).toNat < 2 ^ 31) :
    Ahead c clock ⟨expires, expires⟩ (.vec (n + 1) (c.index (n + 1) expires)) :=
  ⟨hn, rfl, index_eq _ _, hlt, lt_of_lt_of_le (mod_lt _ (by positivity)) hle⟩

lemma two_pow_shift_lt {n : ℕ} (h : n < 4) : 2 ^ c.shift (n + 1) < 2 ^ 31 :=
  Nat.pow_lt_pow_right (by norm_num) (by have := shift_le (c := c) h; omega)

lemma dueTime_of_lt (h : (expires - clock).toNat < 2 ^ 31) : dueTime clock expires = expires := by
  unfold dueTime
  rw [if_neg]
  rw [toInt_neg_iff]
  omega

lemma toNat_dueTime_sub (clock expires : Ulong) :
    (dueTime clock expires - clock).toNat = (expires - clock).toInt.toNat := by
  unfold dueTime
  split_ifs with hneg
  · rw [sub_self, Int.toNat_eq_zero.2 hneg.le]
    rfl
  · have hlt : ¬ 2 ^ 31 ≤ (expires - clock).toNat := fun hle => hneg ((toInt_neg_iff _).2 hle)
    rw [toInt_eq_toNat_of_lt (by omega), Int.toNat_natCast]

/-- `internal_add_timer` chooses a list from which the timer will be run when it is due. -/
lemma vecOf_ahead (clock expires : Ulong) :
    Ahead c clock ⟨expires, dueTime clock expires⟩ (vecOf c clock expires) := by
  have hroot : 2 ^ c.tvrBits = 2 ^ c.shift 1 := by simp [Config.shift]
  have h1 : 2 ^ c.shift 1 < 2 ^ 31 := two_pow_shift_lt (by omega)
  have h2 : 2 ^ c.shift 2 < 2 ^ 31 := two_pow_shift_lt (by omega)
  have h3 : 2 ^ c.shift 3 < 2 ^ 31 := two_pow_shift_lt (by omega)
  have h4 : 2 ^ c.shift 4 < 2 ^ 31 := two_pow_shift_lt (by omega)
  simp only [vecOf, toInt_neg_iff]
  by_cases hpast : 2 ^ 31 ≤ (expires - clock).toNat
  · rw [if_neg (by omega), if_neg (by omega), if_neg (by omega), if_neg (by omega), if_pos hpast]
    have hdue : dueTime clock expires = clock := if_pos ((toInt_neg_iff _).2 hpast)
    refine ⟨?_, ?_⟩
    · rw [hdue, sub_self]
      exact Nat.two_pow_pos _
    · rw [hdue]
      exact toNat_and_tvrMask clock
  · have hlt : (expires - clock).toNat < 2 ^ 31 := by omega
    rw [dueTime_of_lt hlt]
    split_ifs with hlevel0 hlevel1 hlevel2 hlevel3
    · exact ⟨hlevel0, toNat_and_tvrMask expires⟩
    · exact ahead_of_le (n := 0) (by omega) (hroot ▸ not_lt.1 hlevel0) hlt
    · exact ahead_of_le (n := 1) (by omega) (not_lt.1 hlevel1) hlt
    · exact ahead_of_le (n := 2) (by omega) (not_lt.1 hlevel2) hlt
    · exact ahead_of_le (n := 3) (by omega) (not_lt.1 hlevel3) hlt

end Adding

section Ticking
variable {clock time : Ulong} {x : Armed}

lemma toNat_add_sub (clock time : Ulong) :
    clock.toNat + (time - clock).toNat = time.toNat ∨
      clock.toNat + (time - clock).toNat = time.toNat + 2 ^ 32 := by
  rw [toNat_sub]
  omega

lemma toNat_sub_succ (h : time ≠ clock) :
    (time - (clock + 1)).toNat + 1 = (time - clock).toNat := by
  have hne : time.toNat ≠ clock.toNat := fun heq => h (eq_of_toNat_eq heq)
  have hone : (1 : Ulong).toNat = 1 := rfl
  rw [toNat_sub, toNat_sub, toNat_add]
  omega

lemma eq_of_toNat_sub_eq_zero (h : (time - clock).toNat = 0) : time = clock := by
  apply eq_of_toNat_eq
  have := toNat_add_sub clock time
  omega

lemma due_eq_clock {i : ℕ} (h : Ahead c clock x (.vec 0 i))
    (hi : i = clock.toNat % 2 ^ c.tvrBits) : x.due = clock := by
  obtain ⟨hlt, hslot⟩ := h
  have hdvd : 2 ^ c.tvrBits ∣ 2 ^ 32 := pow_dvd_pow 2 (by have := c.shift_lt; omega)
  have hmod : clock.toNat ≡ clock.toNat + (x.due - clock).toNat [MOD 2 ^ c.tvrBits] := by
    have hsame : clock.toNat ≡ x.due.toNat [MOD 2 ^ c.tvrBits] := hi.symm.trans hslot
    rcases toNat_add_sub clock x.due with heq | heq
    · rwa [heq]
    · rw [heq]
      exact hsame.trans (Nat.ModEq.symm (by
        simpa using Nat.ModEq.add_left x.due.toNat ((modEq_zero_iff_dvd).2 hdvd)))
  have hzero : (x.due - clock).toNat ≡ 0 [MOD 2 ^ c.tvrBits] :=
    (Nat.ModEq.add_left_cancel' clock.toNat (by simpa using hmod)).symm
  apply eq_of_toNat_sub_eq_zero
  exact eq_zero_of_dvd_of_lt ((modEq_zero_iff_dvd).1 hzero) hlt

lemma Ahead.tick {p : Place} (h : Ahead c clock x p) (hdue : x.due ≠ clock) :
    Placed c (clock + 1) x p := by
  match p, h with
  | .vec 0 _, ⟨hlt, hi⟩ =>
    have := toNat_sub_succ hdue
    exact ⟨by omega, hi⟩
  | .vec (_ + 1) _, ⟨hn, hexpires, hi, hlt, hahead⟩ =>
    have := toNat_sub_succ (hexpires ▸ hdue)
    exact ⟨hn, hexpires, hi, by omega, by omega⟩

/-- A timer whose slot is cascaded at `clock` at the latest: `clock` is its expiry
with the low bits cleared. -/
lemma clock_of_not_ahead {n i : ℕ} (h : Placed c clock x (.vec (n + 1) i))
    (hnot : ¬ Ahead c clock x (.vec (n + 1) i)) :
    clock.toNat % 2 ^ c.shift (n + 1) = 0 ∧ i = c.index (n + 1) clock := by
  obtain ⟨hn, hdue, hi, hlt, hle⟩ := h
  have heq : (x.expires - clock).toNat = x.expires.toNat % 2 ^ c.shift (n + 1) := by
    by_contra hne
    exact hnot ⟨hn, hdue, hi, hlt, lt_of_le_of_ne hle (Ne.symm hne)⟩
  have hfloor : clock.toNat = 2 ^ c.shift (n + 1) * (x.expires.toNat / 2 ^ c.shift (n + 1)) := by
    have hsplit := div_add_mod x.expires.toNat (2 ^ c.shift (n + 1))
    rcases toNat_add_sub clock x.expires with hsum | hsum <;> omega
  refine ⟨by rw [hfloor, mul_mod_right], ?_⟩
  rw [index_eq, hfloor, Nat.mul_div_cancel_left _ (by positivity)]
  exact hi

end Ticking

end BooxKernel.Timer
