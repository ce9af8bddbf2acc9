import BooxKernel.Locks.Model

/-!
# The ranges of `fcntl` locks

`flock_to_posix_lock` and `flock64_to_posix_lock` of a 32 bit kernel. They differ in the type of
the offsets that they compute with, `off_t` or `loff_t`; a value is converted to it each time it is
stored. What they set besides the range and the type of the lock is the same.
-/
namespace BooxKernel.Locks
inductive FlockError
  | einval
  | eoverflow
  deriving Repr, DecidableEq

/-- What the conversions find out for a `struct file_lock`. -/
structure PosixLock where
  flStart : ℤ
  flEnd : ℤ
  flType : LockType
  deriving Repr, DecidableEq

/-- `assign_type`. -/
def assignType (type : BitVec 16) : Except FlockError LockType :=
  if type = 0 then .ok .rdlck
  else if type = 1 then .ok .wrlck
  else if type = 2 then .ok .unlck
  else .error .einval

/-- The end of a conversion. -/
def finishLock (start stop : ℤ) (type : BitVec 16) : Except FlockError PosixLock :=
  if stop < start then .error .eoverflow else (assignType type).map (PosixLock.mk start stop)

/-- The offset that `l_start` is counted from. -/
def seekBase (fPos iSize : ℤ) (whence : BitVec 16) : Option ℤ :=
  if whence = 0 then some 0
  else if whence = 1 then some fPos
  else if whence = 2 then some iSize
  else none

/-- A conversion with offsets of the type that `conv` converts to. -/
def toPosixLock (conv : ℤ → ℤ) (fPos iSize : ℤ) (type whence : BitVec 16) (lStart lLen : ℤ) :
    Except FlockError PosixLock :=
  match seekBase fPos iSize whence with
  | none => .error .einval
  | some base =>
    let start := conv (conv base + lStart)
    if start < 0 then .error .einval
    else if lLen > 0 then finishLock start (conv (start + lLen - 1)) type
    else if lLen < 0 then
      if conv (start + lLen) < 0 then .error .einval
      else finishLock (conv (start + lLen)) (conv (start - 1)) type
    else finishLock start offsetMax type

def flockToPosixLock := toPosixLock fun z => z.bmod (2 ^ 32)

def flock64ToPosixLock := toPosixLock fun z => z.bmod (2 ^ 64)

/-- The results are the same, both are errors, or there is an error because the range does not
fit an `off_t`. -/
def Agree (r r64 : Except FlockError PosixLock) : Prop :=
  r = r64 ∨ ((∃ e, r = .error e) ∧ ∃ e, r64 = .error e) ∨
    ∃ e fl, r = .error e ∧ r64 = .ok fl ∧
      (2 ^ 31 ≤ fl.flStart ∨ 2 ^ 31 ≤ fl.flEnd ∧ fl.flEnd ≠ offsetMax)

lemma agree_ok {fl : PosixLock} {r64 : Except FlockError PosixLock} :
    Agree (.ok fl) r64 ↔ r64 = .ok fl := by
  simp [Agree, eq_comm]

lemma agree_error {e : FlockError} {r64 : Except FlockError PosixLock} :
    Agree (.error e) r64 ↔ ∀ fl, r64 = .ok fl →
      2 ^ 31 ≤ fl.flStart ∨ 2 ^ 31 ≤ fl.flEnd ∧ fl.flEnd ≠ offsetMax := by
  cases r64 with
  | error e' => simp [Agree]
  | ok fl => simp [Agree]

/-- What a conversion finds out from its start, with offsets below `half`. -/
def posixRange (half : ℕ) (start n : ℤ) (t : LockType) : Except FlockError PosixLock :=
  if start < 0 then .error .einval
  else if 0 < n then
    if half ≤ start + n - 1 then .error .eoverflow else .ok ⟨start, start + n - 1, t⟩
  else if n < 0 then if start + n < 0 then .error .einval else .ok ⟨start + n, start - 1, t⟩
  else .ok ⟨start, offsetMax, t⟩

section
variable {fPos iSize base s n : ℤ} {type whence : BitVec 16}

lemma toPosixLock_eq (m half : ℕ) {t : LockType} (hm : m = 2 * half)
    (hhalf : 2 ^ 31 ≤ half ∧ half ≤ 2 ^ 63) (hseek : seekBase fPos iSize whence = some base)
    (htype : assignType type = .ok t) (hn : -2 ^ 31 ≤ n ∧ n < 2 ^ 31) :
    toPosixLock (fun z => z.bmod m) fPos iSize type whence s n =
      posixRange half ((base + s).bmod m) n t := by
  have hlo := Int.le_bmod (x := base + s) (m := m) (by omega)
  have hhi := Int.bmod_lt (x := base + s) (m := m) (by omega)
  have hconv : ∀ z : ℤ, -half ≤ z → z < half → z.bmod m = z := fun z h h' =>
    Int.bmod_eq_of_le (by omega) (by omega)
  have hsum : (base.bmod m + s).bmod m = (base + s).bmod m := Int.bmod_add_bmod
  simp only [toPosixLock, hseek, hsum, posixRange, finishLock, htype, Except.map]
  generalize (base + s).bmod m = start at hlo hhi ⊢
  by_cases hstart : start < 0
  · rw [if_pos hstart, if_pos hstart]
  rw [if_neg hstart, if_neg hstart]
  by_cases hpos : 0 < n
  · rw [if_pos hpos, if_pos hpos]
    by_cases hend : half ≤ start + n - 1
    · have hwrap : (start + n - 1).bmod m = start + n - 1 - m := by
        rw [← Int.sub_bmod_right, hconv _ (by omega) (by omega)]
      rw [hwrap, if_pos (by omega), if_pos hend]
    · rw [hconv _ (by omega) (by omega), if_neg (by omega), if_neg hend]
  rw [if_neg hpos, if_neg hpos]
  by_cases hneg : n < 0
  · rw [if_pos hneg, if_pos hneg, hconv (start + n) (by omega) (by omega),
      hconv (start - 1) (by omega) (by omega), if_neg (show ¬ start - 1 < start + n by omega)]
  · rw [if_neg hneg, if_neg hneg, if_neg (by rw [offsetMax]; omega)]

lemma toPosixLock_error {conv : ℤ → ℤ} {e : FlockError} (htype : assignType type = .error e) :
    ∃ e, toPosixLock conv fPos iSize type whence s n = .error e := by
  simp only [toPosixLock, finishLock, htype, Except.map]
  split
  · exact ⟨_, rfl⟩
  · split_ifs <;> exact ⟨_, rfl⟩

end

/-- An offset `v` with a length `n` from it on, or back from it if `n` is negative. It fits an
`off_t`; or the range does not end right before `2 ^ 31`, and what an `off_t` keeps of `v` is
negative or gives no range. -/
def Representable (v n : ℤ) : Prop :=
  0 ≤ v ∧ v < 2 ^ 31 ∨ (v = 2 ^ 31 → 0 ≤ n) ∧
    (v % 2 ^ 32 < 2 ^ 31 → v % 2 ^ 32 + n < 0 ∨ 2 ^ 31 < v % 2 ^ 32 + n)

lemma agree_posixRange {v n : ℤ} (hv : -2 ^ 63 - 2 ^ 31 ≤ v ∧ v < 2 ^ 63 + 2 ^ 31)
    (hn : -2 ^ 31 ≤ n ∧ n < 2 ^ 31) (t : LockType) :
    Agree (posixRange (2 ^ 31) (v.bmod (2 ^ 32)) n t) (posixRange (2 ^ 63) (v.bmod (2 ^ 64)) n t) ↔
      Representable v n := by
  have h32 : v.bmod (2 ^ 32) = if v % 2 ^ 32 < 2 ^ 31 then v % 2 ^ 32 else v % 2 ^ 32 - 2 ^ 32 := by
    rw [Int.bmod_def]
    rfl
  have h64 : v.bmod (2 ^ 64) = if v % 2 ^ 64 < 2 ^ 63 then v % 2 ^ 64 else v % 2 ^ 64 - 2 ^ 64 := by
    rw [Int.bmod_def]
    rfl
  generalize v.bmod (2 ^ 32) = start at h32 ⊢
  generalize v.bmod (2 ^ 64) = start64 at h64 ⊢
  unfold posixRange Representable
  split_ifs at h32 h64 ⊢ <;> simp [agree_ok, agree_error, offsetMax] <;> omega

/-- The conversions agree exactly if the type or the origin of the range is not valid, or the range
is `Representable`. -/
theorem flock_conversions_agree (fPos iSize : ℤ) (type whence : BitVec 16) (lStart lLen : BitVec 32)
    (hpos : -2 ^ 63 ≤ fPos ∧ fPos < 2 ^ 63) (hsize : -2 ^ 63 ≤ iSize ∧ iSize < 2 ^ 63) :
    Agree (flockToPosixLock fPos iSize type whence lStart.toInt lLen.toInt)
      (flock64ToPosixLock fPos iSize type whence lStart.toInt lLen.toInt) ↔
    ∀ base t, seekBase fPos iSize whence = some base → assignType type = .ok t →
      Representable (base + lStart.toInt) lLen.toInt := by
  have hs := lStart.toInt_lt
  have hs' := lStart.le_toInt
  have hn : -2 ^ 31 ≤ lLen.toInt ∧ lLen.toInt < 2 ^ 31 := ⟨lLen.le_toInt, lLen.toInt_lt⟩
  cases htype : assignType type with
  | error e =>
    refine iff_of_true (.inr (.inl ⟨toPosixLock_error htype, toPosixLock_error htype⟩)) ?_
    simp
  | ok t =>
    cases hseek : seekBase fPos iSize whence with
    | none =>
      refine iff_of_true (.inl ?_) (by simp)
      simp only [flockToPosixLock, flock64ToPosixLock, toPosixLock, hseek]
    | some base =>
      have hbase : -2 ^ 63 ≤ base ∧ base < 2 ^ 63 := by
        simp only [seekBase] at hseek
        split_ifs at hseek <;> obtain rfl := Option.some.inj hseek
        · decide
        · exact hpos
        · exact hsize
      rw [flockToPosixLock, flock64ToPosixLock,
        toPosixLock_eq (2 ^ 32) (2 ^ 31) (by decide) (by decide) hseek htype hn,
        toPosixLock_eq (2 ^ 64) (2 ^ 63) (by decide) (by decide) hseek htype hn]
      refine (agree_posixRange (by omega) hn t).trans ⟨fun h base' t' hb _ => ?_, fun h => ?_⟩
      · exact Option.some.inj hb ▸ h
      · exact h base t rfl rfl

/-- A range of the last two bytes that an `off_t` reaches, from the end of the file back; and a
position that is out of reach, from which even the `off_t` that is left of it gives no range. -/
theorem flock_conversions_agree_backwards :
    Agree (flockToPosixLock 0 (2 ^ 31 - 1) 0 2 (0#32).toInt (-2#32).toInt)
      (flock64ToPosixLock 0 (2 ^ 31 - 1) 0 2 (0#32).toInt (-2#32).toInt) ∧
    Agree (flockToPosixLock (2 ^ 32) 0 1 1 (0#32).toInt (-2#32).toInt)
      (flock64ToPosixLock (2 ^ 32) 0 1 1 (0#32).toInt (-2#32).toInt) :=
  ⟨(flock_conversions_agree _ _ _ _ _ _ (by decide) (by decide)).2 fun base t h _ =>
      Option.some.inj h ▸ .inl (by decide),
    (flock_conversions_agree _ _ _ _ _ _ (by decide) (by decide)).2 fun base t h _ =>
      Option.some.inj h ▸ .inr (by decide)⟩

/-- A range behind the first 4 GiB of a file, from the file position on. -/
theorem flock_position_truncated :
    flockToPosixLock (2 ^ 32) 0 1 1 0 1 = .ok ⟨0, 0, .wrlck⟩ ∧
      flock64ToPosixLock (2 ^ 32) 0 1 1 0 1 = .ok ⟨2 ^ 32, 2 ^ 32, .wrlck⟩ := by
  decide

end BooxKernel.Locks
