import Mathlib.Data.Int.Notation
import Mathlib.Data.List.GetD
import Mathlib.Data.Nat.Notation
import Mathlib.Tactic.SplitIfs

/-!
# Conversion of UTF-8 (`fs/nls/nls_base.c`)

A byte string is the memory from its first byte on. The values of type `long` are never
negative here, and a wide character has 16 bits.
-/
namespace BooxKernel.Nls
open Nat BitVec List

/-- `struct utf8_table`. -/
structure Utf8Table where
  cmask : ℕ
  cval : ℕ
  shift : ℕ
  lmask : ℕ
  lval : ℕ

/-- `utf8_table`, without the entry that ends it. -/
def utf8Table : List Utf8Table :=
  [⟨0x80, 0x00, 0 * 6, 0x7F, 0⟩,
    ⟨0xE0, 0xC0, 1 * 6, 0x7FF, 0x80⟩,
    ⟨0xF0, 0xE0, 2 * 6, 0xFFFF, 0x800⟩,
    ⟨0xF8, 0xF0, 3 * 6, 0x1FFFFF, 0x10000⟩,
    ⟨0xFC, 0xF8, 4 * 6, 0x3FFFFFF, 0x200000⟩,
    ⟨0xFE, 0xFC, 5 * 6, 0x7FFFFFFF, 0x4000000⟩]

variable {s : ℕ → BitVec 8} {n : ℤ} {k l nc : ℕ} {w : BitVec 16}
  {ts : List Utf8Table}

/-- The loop of `utf8_mbtowc` when `nc` entries have been tried. -/
def mbtowcLoop (s : ℕ → BitVec 8) (n : ℤ) : List Utf8Table → ℕ → ℕ → Option (ℕ × BitVec 16)
  | [], _, _ => none
  | t :: ts, nc, l =>
    if (s 0).toNat &&& t.cmask = t.cval then
      if l &&& t.lmask < t.lval then none
      else some (nc + 1, BitVec.ofNat 16 (l &&& t.lmask))
    else if n ≤ (nc + 1 : ℕ) then none
    else
      let c := (s (nc + 1) ^^^ 0x80#8).toNat
      if c &&& 0xC0 ≠ 0 then none
      else mbtowcLoop s n ts (nc + 1) (l <<< 6 ||| c)

/-- `utf8_mbtowc`: the returned count with the character stored at `p`, or `-1`. -/
def utf8Mbtowc (s : ℕ → BitVec 8) (n : ℤ) : Option (ℕ × BitVec 16) :=
  mbtowcLoop s n utf8Table 0 (s 0).toNat

/-- The bytes that `while (c > 0)` writes. -/
def tailBytes (l : ℕ) : ℕ → List (BitVec 8)
  | c + 6 => BitVec.ofNat 8 (0x80 ||| (l >>> c &&& 0x3F)) :: tailBytes l c
  | _ => []

/-- The loop of `utf8_wctomb`. -/
def wctombLoop (l : ℕ) : List Utf8Table → ℤ → Option (List (BitVec 8))
  | [], _ => none
  | t :: ts, maxlen =>
    if maxlen = 0 then none
    else if l ≤ t.lmask then
      some (BitVec.ofNat 8 (t.cval ||| l >>> t.shift) :: tailBytes l t.shift)
    else wctombLoop l ts (maxlen - 1)

/-- `utf8_wctomb` into a buffer: the bytes written, as many as are returned, or `-1`. -/
def utf8Wctomb (wc : BitVec 16) (maxlen : ℤ) : Option (List (BitVec 8)) :=
  wctombLoop wc.toNat utf8Table maxlen

/-- A character of 16 bits in UTF-8. -/
def encode (l : ℕ) : List (BitVec 8) :=
  List.map (.ofNat 8) <|
    if l < 0x80 then [l]
    else if l < 0x800 then [0xC0 + l / 64, 0x80 + l % 64]
    else [0xE0 + l / 4096, 0x80 + l / 64 % 64, 0x80 + l % 64]

lemma lead_cases (b : BitVec 8) :
    (b.toNat &&& 0x80 = 0 ↔ b.toNat < 0x80) ∧
      (b.toNat &&& 0xE0 = 0xC0 ↔ 0xC0 ≤ b.toNat ∧ b.toNat < 0xE0) ∧
      (b.toNat &&& 0xF0 = 0xE0 ↔ 0xE0 ≤ b.toNat ∧ b.toNat < 0xF0) := by
  revert b
  decide +kernel

lemma continuation (b : BitVec 8) : (b ^^^ 0x80#8).toNat &&& 0xC0 = 0 →
    (b ^^^ 0x80#8).toNat < 64 ∧ b.toNat = 0x80 + (b ^^^ 0x80#8).toNat := by
  revert b
  decide +kernel

/-- An entry of the table is the form of the sequence, or one more byte is taken in. -/
lemma mbtowcLoop_cons {cmask cval shift lmask lval : ℕ}
    (h : mbtowcLoop s n (⟨cmask, cval, shift, lmask, lval⟩ :: ts) nc l = some (k, w)) :
    (s 0).toNat &&& cmask = cval ∧ lval ≤ l &&& lmask ∧ k = nc + 1 ∧
        w = BitVec.ofNat 16 (l &&& lmask) ∨
      (s 0).toNat &&& cmask ≠ cval ∧ ∃ d < 64, (s (nc + 1)).toNat = 0x80 + d ∧
        mbtowcLoop s n ts (nc + 1) (l * 64 + d) = some (k, w) := by
  dsimp only [mbtowcLoop] at h
  split_ifs at h with hlead hlow hn hc
  · cases h
    exact .inl ⟨hlead, by omega, rfl, rfl⟩
  · obtain ⟨hd, hb⟩ := continuation _ (Decidable.not_not.1 hc)
    refine .inr ⟨hlead, _, hd, hb, ?_⟩
    rwa [← shiftLeft_add_eq_or_of_lt (i := 6) hd, Nat.shiftLeft_eq] at h

lemma lt_of_mbtowcLoop (h : mbtowcLoop s n ts nc l = some (k, w)) : nc < k := by
  induction ts generalizing nc l with
  | nil => cases h
  | cons t ts ih =>
    rcases mbtowcLoop_cons h with ⟨-, -, rfl, -⟩ | ⟨-, d, -, -, h⟩
    · omega
    · have := ih h
      omega

lemma lead_of_mbtowcLoop (h : mbtowcLoop s n ts nc l = some (k, w)) :
    ∃ t ∈ ts, (s 0).toNat &&& t.cmask = t.cval := by
  induction ts generalizing nc l with
  | nil => cases h
  | cons t ts ih =>
    rcases mbtowcLoop_cons h with ⟨hlead, -⟩ | ⟨-, d, -, -, h⟩
    · exact ⟨t, mem_cons_self, hlead⟩
    · obtain ⟨t', ht', hlead⟩ := ih h
      exact ⟨t', mem_cons_of_mem t ht', hlead⟩

lemma or_low : ∀ x < 64, 0x80 ||| x = 0x80 + x ∧ 0xC0 ||| x = 0xC0 + x ∧
    (x < 32 → 0xE0 ||| x = 0xE0 + x) := by
  decide

lemma encode_one (hl : l < 0x80) : encode l = [.ofNat 8 l] := by
  rw [encode, if_pos hl]
  rfl

lemma encode_two (hlow : 0x80 ≤ l) (hl : l < 0x800) :
    encode l = [.ofNat 8 (0xC0 + l / 64), .ofNat 8 (0x80 + l % 64)] := by
  rw [encode, if_neg (Nat.not_lt.2 hlow), if_pos hl]
  rfl

lemma encode_three (hlow : 0x800 ≤ l) : encode l =
    [.ofNat 8 (0xE0 + l / 4096), .ofNat 8 (0x80 + l / 64 % 64), .ofNat 8 (0x80 + l % 64)] := by
  rw [encode, if_neg (by omega), if_neg (Nat.not_lt.2 hlow)]
  rfl

lemma length_encode (l : ℕ) : (encode l).length ≤ 3 := by
  rw [encode]
  split_ifs <;> simp

lemma utf8Wctomb_eq (hl : l < 0x10000) {maxlen : ℤ} (hmax : 0 ≤ maxlen) :
    utf8Wctomb (BitVec.ofNat 16 l) maxlen =
      if (encode l).length ≤ maxlen then some (encode l) else none := by
  have hcont : ∀ x, 0x80 ||| (x &&& 0x3F) = 0x80 + x % 64 := fun x => by
    rw [and_two_pow_sub_one_eq_mod x 6]
    exact (or_low (x % 64) (mod_lt _ (by decide))).1
  simp only [utf8Wctomb, utf8Table, wctombLoop, toNat_ofNat, mod_eq_of_lt hl, tailBytes,
    hcont, shiftRight_eq_div_pow]
  rcases Nat.lt_or_ge l 0x80 with h1 | h1
  · rw [encode_one h1, if_pos (show l ≤ 0x7F by omega)]
    simp
    grind
  rw [if_neg (show ¬ l ≤ 0x7F by omega)]
  rcases Nat.lt_or_ge l 0x800 with h2 | h2
  · rw [encode_two h1 h2, if_pos (show l ≤ 0x7FF by omega), (or_low (l / 2 ^ 6) (by omega)).2.1]
    simp
    grind
  · rw [encode_three h2, if_neg (show ¬ l ≤ 0x7FF by omega), if_pos (show l ≤ 0xFFFF by omega),
      (or_low (l / 2 ^ 12) (by omega)).2.2 (by omega)]
    simp
    grind

lemma utf8Wctomb_eq_encode (w : BitVec 16) {maxlen : ℤ} (hmax : 6 ≤ maxlen) :
    utf8Wctomb w maxlen = some (encode w.toNat) := by
  have hlen := length_encode w.toNat
  have heq := utf8Wctomb_eq w.isLt (show 0 ≤ maxlen by omega)
  rwa [ofNat_toNat, setWidth_eq, if_pos (by omega)] at heq

/-- The forms of up to three bytes are the characters in UTF-8, and the longer ones begin with
`F0` or more. -/
lemma utf8Mbtowc_cases (h : utf8Mbtowc s n = some (k, w)) :
    (s 0).toNat < 0xF0 ∧ (range k).map s = encode w.toNat ∨ 0xF0 ≤ (s 0).toNat ∧ 3 < k := by
  obtain ⟨hlead1, hlead2, hlead3⟩ := lead_cases (s 0)
  have hbyte : ∀ {i x}, (s i).toNat = x → BitVec.ofNat 8 x = s i := fun hx => by
    rw [← hx, ofNat_toNat, setWidth_eq]
  have hmask := and_two_pow_sub_one_eq_mod
  rcases mbtowcLoop_cons h with ⟨h1, -, rfl, rfl⟩ | ⟨-, d1, hd1, hs1, h⟩
  · have := hlead1.1 h1
    rw [hmask _ 7, toNat_ofNat, mod_eq_of_lt (by omega), encode_one (by omega),
      hbyte (i := 0) (by omega)]
    exact .inl ⟨by omega, rfl⟩
  rcases mbtowcLoop_cons h with ⟨h2, hlow, rfl, rfl⟩ | ⟨-, d2, hd2, hs2, h⟩
  · have := hlead2.1 h2
    rw [hmask _ 11] at hlow ⊢
    rw [toNat_ofNat, mod_eq_of_lt (by omega), encode_two hlow (by omega),
      hbyte (i := 0) (by omega), hbyte (i := 0 + 1) (by omega)]
    exact .inl ⟨by omega, rfl⟩
  rcases mbtowcLoop_cons h with ⟨h3, hlow, rfl, rfl⟩ | ⟨-, d3, hd3, hs3, h⟩
  · have := hlead3.1 h3
    rw [hmask _ 16] at hlow ⊢
    rw [toNat_ofNat, mod_eq_of_lt (by omega), encode_three hlow, hbyte (i := 0) (by omega),
      hbyte (i := 0 + 1) (by omega), hbyte (i := 0 + 1 + 1) (by omega)]
    exact .inl ⟨by omega, rfl⟩
  · obtain ⟨t, ht, hlead⟩ := lead_of_mbtowcLoop h
    have hle : 0xF0 ≤ t.cval := by
      simp only [mem_cons, not_mem_nil, or_false] at ht
      rcases ht with rfl | rfl | rfl <;> decide
    exact .inr ⟨Nat.le_trans hle (hlead ▸ and_le_left), lt_of_mbtowcLoop h⟩

/-- The character of a sequence is written back as the sequence exactly if its first byte is below
`F0`, and no two such sequences decode to one character. -/
theorem utf8_no_aliases (h : utf8Mbtowc s n = some (k, w)) :
    ((∀ maxlen ≥ 6, utf8Wctomb w maxlen = some ((range k).map s)) ↔ (s 0).toNat < 0xF0) ∧
      ((s 0).toNat < 0xF0 → ∀ s' n' k', utf8Mbtowc s' n' = some (k', w) → (s' 0).toNat < 0xF0 →
        (List.range k').map s' = (List.range k).map s) := by
  refine ⟨⟨fun hback => ?_, fun hlead maxlen hmax => ?_⟩, fun hlead s' n' k' h' hlead' => ?_⟩
  · rcases utf8Mbtowc_cases h with ⟨hlead, -⟩ | ⟨-, hk⟩
    · exact hlead
    · have hlen := congrArg (Option.map length) (hback 6 (Int.le_refl 6))
      rw [utf8Wctomb_eq_encode w (Int.le_refl 6)] at hlen
      have hle := length_encode w.toNat
      simp only [Option.map_some, Option.some.injEq, length_map, length_range] at hlen
      omega
  · rw [utf8Wctomb_eq_encode w hmax]
    rcases utf8Mbtowc_cases h with ⟨-, heq⟩ | ⟨hge, -⟩
    · rw [heq]
    · omega
  · rcases utf8Mbtowc_cases h, utf8Mbtowc_cases h' with ⟨⟨-, heq⟩ | ⟨hge, -⟩, ⟨-, heq'⟩ | ⟨hge', -⟩⟩
    · rw [heq, heq']
    all_goals omega

/-- The two bytes of U+00E9. -/
theorem utf8_no_aliases_two :
    utf8Wctomb 0xE9 6 = some ((range 2).map fun i => [0xC3, 0xA9].getD i 0) :=
  (utf8_no_aliases (s := fun i => [0xC3, 0xA9].getD i 0) (n := 2) (k := 2) (by decide)).1.2
    (by decide) 6 (by decide)

/-- The bytes `F0 90 80 AF` decode to the character of `/`, of which the high bits are lost. -/
theorem utf8_aliases_slash :
    utf8Mbtowc (fun i => [0xF0, 0x90, 0x80, 0xAF].getD i 0) 4 = some (4, 0x2F) ∧
      utf8Mbtowc (fun i => [0x2F].getD i 0) 1 = some (1, 0x2F) ∧
      utf8Wctomb 0x2F 6 = some [0x2F] := by
  decide

end BooxKernel.Nls
