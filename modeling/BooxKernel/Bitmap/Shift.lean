import BooxKernel.Bitmap.Words

/-!
# Shifting a bitmap

`__bitmap_shift_right` and `__bitmap_shift_left`. The source is another bitmap or, when none is
given, the destination; the words are taken in an order in which each is read before it is written.
-/
namespace BooxKernel.Bitmap
open BitWords Loops BitVec

variable {w : ℕ}

/-- The word `k` without the bits behind the last one of the bitmap. -/
def topMask (bits k : ℕ) (v : BitVec w) : BitVec w :=
  if bits % w ≠ 0 ∧ k = bitsToLongs w bits - 1 then v &&& (1#w <<< (bits % w) - 1#w) else v

section
variable (bits off rem : ℕ) (src : Option (List (BitVec w))) (dst : List (BitVec w)) (k : ℕ)

/-- A round of the loop of `__bitmap_shift_right`. -/
def shiftRightWord : Option (List (BitVec w)) :=
  match if rem = 0 ∨ off + k + 1 ≥ bitsToLongs w bits then some 0#w
      else (src.getD dst)[off + k + 1]?.map (topMask bits (off + k + 1)),
    (src.getD dst)[off + k]? with
  | some upper, some lower =>
    modifyWord dst k fun _ =>
      topMask bits k (upper <<< (w - rem) ||| topMask bits (off + k) lower >>> rem)
  | _, _ => none

/-- A round of the loop of `__bitmap_shift_left`. -/
def shiftLeftWord : Option (List (BitVec w)) :=
  match if rem ≠ 0 ∧ k > 0 then (src.getD dst)[k - 1]? else some 0#w, (src.getD dst)[k]? with
  | some lower, some upper =>
    modifyWord dst (k + off) fun _ =>
      topMask bits (k + off) (lower >>> (w - rem) ||| topMask bits k upper <<< rem)
  | _, _ => none

end

section
variable (src : Option (List (BitVec w))) (dst : List (BitVec w)) (shift bits : ℕ)

/-- `memset` of `n` words from `index` on to 0. -/
def zeroWords (ws : List (BitVec w)) (index n : ℕ) : Option (List (BitVec w)) :=
  forUpto (fun i ws => modifyWord ws (index + i) fun _ => 0#w) n 0 ws

/-- `__bitmap_shift_right`. -/
def bitmapShiftRight : Option (List (BitVec w)) :=
  let lim := bitsToLongs w bits
  let off := shift / w
  (forUpto (fun k dst => shiftRightWord bits off (shift % w) src dst k) (lim - off) 0 dst).bind
    (zeroWords · (lim - off) off)

/-- `__bitmap_shift_left`. -/
def bitmapShiftLeft : Option (List (BitVec w)) :=
  let lim := bitsToLongs w bits
  let off := shift / w
  (forUpto (fun i dst => shiftLeftWord bits off (shift % w) src dst (lim - off - 1 - i)) (lim - off)
    0 dst).bind (zeroWords · 0 off)

end

variable {ws dst : List (BitVec w)} {src : Option (List (BitVec w))} {bits shift k : ℕ}

lemma lt_bitsToLongs (hw : 0 < w) : k < bitsToLongs w bits ↔ k * w < bits := by
  rw [bitsToLongs, ← Nat.succ_le_iff, Nat.le_div_iff_mul_le hw, Nat.succ_mul]
  omega

lemma zeroWords_spec (hw : 0 < w) {index n : ℕ} (h : index + n ≤ ws.length) :
    ∃ ws', zeroWords ws index n = some ws' ∧ ws'.length = ws.length ∧
      ∀ j, bit ws' j = if index ≤ j / w ∧ j / w < index + n then false else bit ws j :=
  modifyWords_spec hw (g := fun _ _ => false) (fun _ _ _ => getLsbD_zero) h

lemma getLsbD_pair (lo hi : BitVec w) {r j : ℕ} (hr : r ≤ w) (hj : j < w) :
    (lo >>> r ||| hi <<< (w - r)).getLsbD j =
      if j + r < w then lo.getLsbD (j + r) else hi.getLsbD (j + r - w) := by
  rw [getLsbD_or, getLsbD_ushiftRight, getLsbD_shiftLeft, decide_eq_true hj, add_comm r]
  split_ifs with h
  · simp [show j < w - r by omega]
  · rw [getLsbD_of_ge _ _ (by omega), decide_eq_false (by omega),
      show j - (w - r) = j + r - w by omega]
    rfl

lemma getLsbD_topMask (hw : 0 < w) {j : ℕ} (v : BitVec w) (hk : k < bitsToLongs w bits)
    (hj : j < w) : (topMask bits k v).getLsbD j = (decide (k * w + j < bits) && v.getLsbD j) := by
  have hmod := Nat.mod_lt bits hw
  have hdiv := Nat.div_add_mod' bits w
  have hlt := (lt_bitsToLongs hw).1 hk
  have hnext : k + 1 < bitsToLongs w bits ↔ _ := lt_bitsToLongs hw
  rw [topMask]
  split_ifs with h
  · have hq : k = bits / w := by
      have hlow := Nat.lt_of_mul_lt_mul_right (a := w) (show bits / w * w < (k + 1) * w by omega)
      have hhigh := (Nat.le_div_iff_mul_le hw).2 hlt.le
      omega
    rw [getLsbD_and, ← testBit_toNat (x := 1#w <<< (bits % w) - 1#w),
      toNat_one_shiftLeft_sub hmod, Nat.testBit_two_pow_sub_one, Bool.and_comm, hq]
    congr 2
    exact propext (by omega)
  · have hle : (k + 1) * w ≤ bits := by
      by_cases h0 : bits % w = 0
      · rw [h0] at hdiv
        exact hdiv ▸ Nat.mul_le_mul_right w (Nat.lt_of_mul_lt_mul_right (hdiv.symm ▸ hlt))
      · exact (hnext.1 (by omega)).le
    rw [Nat.succ_mul] at hle
    rw [decide_eq_true (by omega), Bool.true_and]

lemma decide_and_and {p q r : Prop} [Decidable p] [Decidable q] [Decidable r] (h : p ∧ q ↔ r)
    (b : Bool) : (decide p && (decide q && b)) = (decide r && b) := by
  rw [← Bool.and_assoc, ← Bool.decide_and, decide_eq_decide.2 h]

section

variable {off rem : ℕ} (hw : 0 < w) (hdst : bitsToLongs w bits ≤ dst.length)
  (hsrc : bitsToLongs w bits ≤ (src.getD dst).length) (hrem : rem < w)
  (hshift : off * w + rem = shift)
include hw hdst hsrc hrem hshift

lemma shiftRightWord_spec (hk : off + k < bitsToLongs w bits) :
    ∃ dst', shiftRightWord bits off rem src dst k = some dst' ∧
      dst'.length = dst.length ∧ ∀ x, bit dst' x = if x / w = k then
        (decide (x + shift < bits) && bit (src.getD dst) (x + shift)) else bit dst x := by
  have hlower := List.getElem?_eq_getElem (hk.trans_le hsrc)
  obtain ⟨upper, hupper, hup⟩ : ∃ upper,
      (if rem = 0 ∨ off + k + 1 ≥ bitsToLongs w bits then some 0#w
        else (src.getD dst)[off + k + 1]?.map (topMask bits (off + k + 1))) = some upper ∧
      ∀ j < rem, upper.getLsbD j = (decide ((off + k + 1) * w + j < bits) &&
        bit (src.getD dst) ((off + k + 1) * w + j)) := by
    by_cases hlim : off + k + 1 < bitsToLongs w bits
    · by_cases hr : rem = 0
      · exact ⟨0#w, by rw [if_pos (.inl hr)], fun j hj => by omega⟩
      have hget := List.getElem?_eq_getElem (hlim.trans_le hsrc)
      refine ⟨_, by rw [if_neg (by omega), hget]; rfl, fun j hj => ?_⟩
      rw [getLsbD_topMask hw _ hlim (by omega), bit_of_getElem? hget (by omega)]
    · refine ⟨0#w, by rw [if_pos (.inr (by omega))], fun j hj => ?_⟩
      rw [lt_bitsToLongs hw] at hlim
      rw [getLsbD_zero, decide_eq_false (by omega), Bool.false_and]
  rw [shiftRightWord, hupper, hlower]
  refine (modifyWord_spec (show k < dst.length by omega) _).imp fun dst' ⟨hset, hlen, hbits⟩ =>
    ⟨hset, hlen, fun x => ?_⟩
  rw [hbits]
  refine if_ctx_congr Iff.rfl (fun hx => ?_) fun _ => rfl
  have hplace := Nat.mod_lt x hw
  have hxdiv := Nat.div_add_mod' x w
  rw [hx] at hxdiv
  rw [Nat.succ_mul, Nat.add_mul] at hup
  rw [getLsbD_topMask hw _ (by omega) hplace, BitVec.or_comm, getLsbD_pair _ _ hrem.le hplace]
  split_ifs with hj
  · rw [getLsbD_topMask hw _ hk hj, ← bit_of_getElem? hlower hj, Nat.add_mul,
      show off * w + k * w + (x % w + rem) = x + shift by omega]
    exact decide_and_and (by omega) _
  · rw [hup _ (by omega), show off * w + k * w + w + (x % w + rem - w) = x + shift by omega]
    exact decide_and_and (by omega) _

lemma shiftLeftWord_spec (hk : k + off < bitsToLongs w bits) :
    ∃ dst', shiftLeftWord bits off rem src dst k = some dst' ∧
      dst'.length = dst.length ∧ ∀ x, bit dst' x = if x / w = k + off then
        (decide (shift ≤ x ∧ x < bits) && bit (src.getD dst) (x - shift)) else bit dst x := by
  have hupper := List.getElem?_eq_getElem (show k < (src.getD dst).length by omega)
  obtain ⟨lower, hlower, hlow⟩ : ∃ lower,
      (if rem ≠ 0 ∧ k > 0 then (src.getD dst)[k - 1]? else some 0#w) = some lower ∧
      ∀ j < w, w ≤ j + rem → lower.getLsbD j =
        (decide (0 < k) && bit (src.getD dst) ((k - 1) * w + j)) := by
    by_cases hk0 : 0 < k
    · by_cases hr : rem = 0
      · exact ⟨0#w, by simp [hr], fun j hj => by omega⟩
      · have hget := List.getElem?_eq_getElem (show k - 1 < (src.getD dst).length by omega)
        refine ⟨_, by rw [if_pos ⟨hr, hk0⟩, hget], fun j hj _ => ?_⟩
        rw [bit_of_getElem? hget hj, decide_eq_true hk0, Bool.true_and]
    · exact ⟨0#w, by simp [hk0], fun j hj => by simp [hk0]⟩
  rw [shiftLeftWord, hupper, hlower]
  refine (modifyWord_spec (hk.trans_le hdst) _).imp fun dst' ⟨hset, hlen, hbits⟩ =>
    ⟨hset, hlen, fun x => ?_⟩
  rw [hbits]
  refine if_ctx_congr Iff.rfl (fun hx => ?_) fun _ => rfl
  have hplace := Nat.mod_lt x hw
  have hxdiv := Nat.div_add_mod' x w
  rw [hx, Nat.add_mul] at hxdiv
  have hpair := getLsbD_pair lower (topMask bits k (src.getD dst)[k]) (Nat.sub_le w rem) hplace
  rw [Nat.sub_sub_self hrem.le] at hpair
  rw [getLsbD_topMask hw _ hk hplace, hpair, Nat.add_mul, hxdiv]
  split_ifs with hj
  · rw [hlow _ (by omega) (by omega)]
    cases k with
    | zero =>
      rw [decide_eq_false (Nat.lt_irrefl 0), Bool.false_and, Bool.and_false,
        decide_eq_false (by omega), Bool.false_and]
    | succ k =>
      rw [Nat.succ_mul] at hxdiv
      rw [Nat.add_sub_cancel, show k * w + (x % w + (w - rem)) = x - shift by omega]
      exact decide_and_and (by omega) _
  · rw [getLsbD_topMask hw _ (by omega) (by omega), ← bit_of_getElem? hupper (by omega),
      show k * w + (x % w + (w - rem) - w) = x - shift by omega]
    exact decide_and_and (by omega) _

end

/-- A loop that writes the words `target 0`, `target 1` and so on, each from bits that are not
written before it. -/
lemma fillWords_spec (dst : List (BitVec w)) (n : ℕ) (target : ℕ → ℕ)
    (value : List (BitVec w) → ℕ → Bool) {body : ℕ → List (BitVec w) → Option (List (BitVec w))}
    (htarget : ∀ i j, i < j → j < n → target i ≠ target j)
    (hbody : ∀ i < n, ∀ ws : List (BitVec w), ws.length = dst.length → ∃ ws', body i ws = some ws' ∧
      ws'.length = ws.length ∧ ∀ x, bit ws' x = if x / w = target i then value ws x else bit ws x)
    (hvalue : ∀ i < n, ∀ (ws : List (BitVec w)) x, x / w = target i →
      (∀ y, (∀ j < i, y / w ≠ target j) → bit ws y = bit dst y) → value ws x = value dst x) :
    ∃ dst', forUpto body n 0 dst = some dst' ∧ dst'.length = dst.length ∧
      ∀ i < n, ∀ x, x / w = target i → bit dst' x = value dst x := by
  have hstep : ∀ k ws, k < n → (ws.length = dst.length ∧
      (∀ i < k, ∀ x, x / w = target i → bit ws x = value dst x) ∧
      ∀ x, (∀ i < k, x / w ≠ target i) → bit ws x = bit dst x) →
      ∃ ws', body k ws = some ws' ∧ ws'.length = dst.length ∧
        (∀ i < k + 1, ∀ x, x / w = target i → bit ws' x = value dst x) ∧
        ∀ x, (∀ i < k + 1, x / w ≠ target i) → bit ws' x = bit dst x := by
    rintro k ws hk ⟨hlen, hdone, hkeep⟩
    obtain ⟨ws', hws', hlen', hbits⟩ := hbody k hk ws hlen
    refine ⟨ws', hws', hlen'.trans hlen, fun i hi x hx => ?_, fun x hx => ?_⟩
    · rw [hbits]
      obtain rfl | hlt : i = k ∨ i < k := by omega
      · rw [if_pos hx, hvalue i hk ws x hx hkeep]
      · rw [if_neg (hx ▸ htarget i k hlt hk), hdone i hlt x hx]
    · rw [hbits, if_neg (hx k (Nat.lt_succ_self k)), hkeep x fun i hi => hx i (by omega)]
  obtain ⟨dst', hloop, hlen, hdone, -⟩ := forUpto_rule hstep (zero_add n)
    ⟨rfl, fun i hi => absurd hi (Nat.not_lt_zero i), fun _ _ => rfl⟩
  exact ⟨dst', hloop, hlen, hdone⟩

lemma source_eq {ws : List (BitVec w)} :
    (ws.length = dst.length → (src.getD ws).length = (src.getD dst).length) ∧
      ∀ {y}, bit ws y = bit dst y → bit (src.getD ws) y = bit (src.getD dst) y := by
  cases src <;> simp

section

variable (hw : 0 < w) (hdst : bitsToLongs w bits ≤ dst.length)
  (hsrc : bitsToLongs w bits ≤ (src.getD dst).length)
include hw hdst hsrc

lemma bitmapShiftRight_spec (hoff : shift / w ≤ bitsToLongs w bits) :
    ∃ dst', bitmapShiftRight src dst shift bits = some dst' ∧ dst'.length = dst.length ∧
      ∀ x, x / w < bitsToLongs w bits → bit dst' x =
        (decide (x + shift < bits) && bit (src.getD dst) (x + shift)) := by
  have hsdiv := Nat.div_add_mod' shift w
  have hmod := Nat.mod_lt shift hw
  rw [bitmapShiftRight]
  generalize shift / w = off, shift % w = rem at *
  have hword : ∀ x, off + x / w ≤ (x + shift) / w := fun x => by
    rw [Nat.le_div_iff_mul_le hw, Nat.add_mul]
    have := Nat.div_mul_le_self x w
    omega
  obtain ⟨dst1, hloop, hlen1, hbits1⟩ := fillWords_spec dst (bitsToLongs w bits - off) (fun k => k)
    (fun ws x => decide (x + shift < bits) && bit (src.getD ws) (x + shift))
    (fun i j hij _ => hij.ne)
    (fun i hi ws hlen => shiftRightWord_spec hw (hlen ▸ hdst) ((source_eq.1 hlen).symm ▸ hsrc) hmod
      hsdiv (by omega))
    (fun i hi ws x hx hkeep => by
      have := hword x
      rw [source_eq.2 (hkeep _ fun j hj => by omega)])
  obtain ⟨dst', hzero, hlen', hbits'⟩ := zeroWords_spec hw
    (show bitsToLongs w bits - off + off ≤ dst1.length by omega)
  refine ⟨dst', by rw [hloop]; exact hzero, hlen'.trans hlen1, fun x hx => ?_⟩
  rw [hbits']
  split_ifs with hx'
  · have hbig : ¬ x + shift < bits := fun h => by
      have := (lt_bitsToLongs hw).2 ((Nat.div_mul_le_self _ w).trans_lt h)
      have := hword x
      omega
    rw [decide_eq_false hbig, Bool.false_and]
  · exact hbits1 (x / w) (by omega) x rfl

lemma bitmapShiftLeft_spec (hoff : shift / w ≤ dst.length) :
    ∃ dst', bitmapShiftLeft src dst shift bits = some dst' ∧ dst'.length = dst.length ∧
      ∀ x, x / w < bitsToLongs w bits → bit dst' x =
        (decide (shift ≤ x ∧ x < bits) && bit (src.getD dst) (x - shift)) := by
  have hsdiv := Nat.div_add_mod' shift w
  have hmod := Nat.mod_lt shift hw
  rw [bitmapShiftLeft]
  generalize shift / w = off, shift % w = rem at *
  obtain ⟨dst1, hloop, hlen1, hbits1⟩ := fillWords_spec dst (bitsToLongs w bits - off)
    (bitsToLongs w bits - off - 1 - · + off)
    (fun ws x => decide (shift ≤ x ∧ x < bits) && bit (src.getD ws) (x - shift))
    (fun i j hij _ => by omega)
    (fun i hi ws hlen => shiftLeftWord_spec hw (hlen ▸ hdst) ((source_eq.1 hlen).symm ▸ hsrc) hmod
      hsdiv (by omega))
    (fun i hi ws x hx hkeep => by
      have := Nat.div_le_div_right (c := w) (Nat.sub_le x shift)
      rw [source_eq.2 (hkeep _ fun j hj => by omega)])
  obtain ⟨dst', hzero, hlen', hbits'⟩ := zeroWords_spec hw (show 0 + off ≤ dst1.length by omega)
  refine ⟨dst', by rw [hloop]; exact hzero, hlen'.trans hlen1, fun x hx => ?_⟩
  rw [hbits']
  split_ifs with hx'
  · have hlow : ¬ shift ≤ x := fun h => by
      have := (Nat.le_div_iff_mul_le hw).2 (show off * w ≤ x by omega)
      omega
    rw [decide_eq_false (fun h => hlow h.1), Bool.false_and]
  · have := Nat.zero_le (x / w)
    exact hbits1 (bitsToLongs w bits - 1 - x / w) (by omega) x (by omega)

end

/-- The shifts of a bitmap that has just the words it needs. -/
theorem bitmap_shifts (hw : 0 < w) (hshift : shift ≤ bits) (hdst : dst.length = bitsToLongs w bits)
    (hsrc : ∀ ws ∈ src, ws.length = bitsToLongs w bits) :
    (∃ dst', bitmapShiftRight src dst shift bits = some dst' ∧ dst'.length = dst.length ∧
      ∀ i, i / w < bitsToLongs w bits →
        bit dst' i = (decide (i + shift < bits) && bit (src.getD dst) (i + shift))) ∧
    ∃ dst', bitmapShiftLeft src dst shift bits = some dst' ∧ dst'.length = dst.length ∧
      ∀ i, i / w < bitsToLongs w bits →
        bit dst' i = (decide (shift ≤ i ∧ i < bits) && bit (src.getD dst) (i - shift)) := by
  have hlen : bitsToLongs w bits ≤ (src.getD dst).length := by
    cases src with
    | none => exact hdst.ge
    | some ws => exact (hsrc ws rfl).ge
  have hoff : shift / w ≤ bitsToLongs w bits := Nat.div_le_div_right (by omega)
  exact ⟨bitmapShiftRight_spec hw hdst.ge hlen hoff,
    bitmapShiftLeft_spec hw hdst.ge hlen (hoff.trans hdst.ge)⟩

/-- A shift by one bit of two words of four bits, of which seven bits count. -/
theorem bitmap_shifts_seven_bits :
    ∃ dst', bitmapShiftRight none [0b1010#4, 0b1011#4] 1 7 = some dst' ∧ dst'.length = 2 :=
  (bitmap_shifts (by decide) (by decide) rfl (by simp : ∀ ws ∈ none, _)).1.imp
    fun _ h => ⟨h.1, h.2.1⟩

end BooxKernel.Bitmap
