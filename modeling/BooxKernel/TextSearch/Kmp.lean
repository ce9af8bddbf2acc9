import BooxKernel.Lib.Borders
import BooxKernel.TextSearch.Model

/-!
# Knuth-Morris-Pratt search

While it reads the text from the offset on, `q` is the length of the longest prefix of
the pattern that the characters read end with, whatever the blocks are. The prefix
table is what the same matching gives when the pattern, without its first character, is
the text.
-/
namespace BooxKernel.TextSearch
open Borders Loops List Nat

variable {α : Type*} {p t : List α} {tbl : List ℕ} {c : α} {q k : ℕ}

/-- The entries of the table for the prefixes of up to `q` characters: the length of the
longest prefix that such a prefix properly ends with. -/
def Table (p : List α) (tbl : List ℕ) (q : ℕ) : Prop :=
  ∀ j, 1 ≤ j → j ≤ q → ∃ b, tbl[j - 1]? = some b ∧ Longest p (p.take j).tail b

lemma Table.mono (h : Table p tbl q) (hk : k ≤ q) : Table p tbl k := fun j h1 h2 =>
  h j h1 (h2.trans hk)

lemma border_lt {b : ℕ} (hq : 0 < q) (hb : Longest p (p.take q).tail b) : b < q := by
  have hle := hb.le_length
  rw [length_tail, length_take] at hle
  omega

section Finding
variable {text : Text α} {consumed s : ℕ}

/-- What `kmp_find` has to do from an offset on: return the first occurrence and advance
the offset behind it, or `UINT_MAX` when there is none. -/
def Finds (p : List α) (text : Text α) (s : ℕ) (result : ℕ × ℕ) : Prop :=
  (∃ k, IsLeast {k | s ≤ k ∧ p <+: text.chars.drop k} k ∧ k < uintMax ∧ result = (k, k + p.length)) ∨
    (∀ k, s ≤ k → ¬ p <+: text.chars.drop k) ∧ result = (uintMax, s)

lemma finds_none (h : Unmatched p (text.chars.drop s)) : Finds p text s (uintMax, s) := by
  refine .inr ⟨fun k hk hoccurs => h.not_occurs (k - s) ?_, rfl⟩
  rwa [drop_drop, Nat.add_sub_cancel' hk]

lemma finds_match (hp : p ≠ []) {e : ℕ} (he : s + e < text.chars.length)
    (h : p <:+ (text.chars.drop s).take (e + 1))
    (hbefore : Unmatched p ((text.chars.drop s).take e)) :
    Finds p text s (((s + e + 1) % 2 ^ 32 + 2 ^ 32 - p.length) % 2 ^ 32, (s + e + 1) % 2 ^ 32) := by
  have hfits := text.fits
  have hpos : 0 < p.length := length_pos_of_ne_nil hp
  obtain ⟨hle, hoccurs, hleast⟩ := isLeast_occurrence (by rw [length_drop]; omega) h hbefore
  have hk : s + e + 1 - p.length = s + (e + 1 - p.length) := by omega
  refine .inl ⟨s + e + 1 - p.length, ⟨⟨by omega, ?_⟩, fun k hk' => ?_⟩, by unfold uintMax; omega, ?_⟩
  · rw [hk, ← drop_drop]
    exact hoccurs
  · have hless := hleast (a := k - s) (by
      show p <+: _
      rw [drop_drop, Nat.add_sub_cancel' hk'.1]
      exact hk'.2)
    have hsk := hk'.1
    omega
  · rw [mod_eq_of_lt (show s + e + 1 < 2 ^ 32 by omega),
      show s + e + 1 + 2 ^ 32 - p.length = s + e + 1 - p.length + 2 ^ 32 by omega,
      add_mod_right, mod_eq_of_lt (by omega), Nat.sub_add_cancel (by omega)]

lemma read_block (blocks : Blocks text) (hs : s ≤ consumed) {n : ℕ}
    (hn : n ≤ (blocks.getNextBlock consumed).length) :
    (text.chars.drop s).take (consumed - s) ++ (blocks.getNextBlock consumed).take n =
      (text.chars.drop s).take (consumed - s + n) := by
  rw [take_add, drop_drop, Nat.add_sub_cancel' hs]
  obtain ⟨rest, hrest⟩ := blocks.follows consumed
  rw [← hrest, take_append_of_le_length hn]

end Finding

variable [DecidableEq α]

/-- The `while` loop ends with the longest prefix that the character continues. -/
lemma fall_spec (htbl : Table p tbl q) (h : Longest p t q) (hq : q < p.length) (c : α) :
    ∃ r, loop (fallRound p tbl c) q = some r ∧ r ≤ q ∧ LongestBefore p t c r := by
  induction q using Nat.strong_induction_on generalizing t with
  | _ q ih =>
    rw [loop_eq]
    unfold fallRound
    by_cases hpos : q > 0
    · rw [if_pos hpos, getElem?_eq_getElem hq]
      dsimp only
      by_cases hc : p[q] ≠ c
      · obtain ⟨b, hentry, hborder⟩ := htbl q hpos le_rfl
        have hlt := border_lt hpos hborder
        obtain ⟨r, hr, hle, hbefore⟩ := ih b hlt (htbl.mono hlt.le) hborder (hlt.trans hq)
        rw [if_pos hc, hentry]
        refine ⟨r, hr, by omega, h.fall ?_ hbefore⟩
        rw [getElem?_eq_getElem hq]
        exact fun heq => hc (Option.some.inj heq)
      · rw [if_neg hc]
        refine ⟨q, rfl, le_rfl, h.before (.inr ?_)⟩
        rw [getElem?_eq_getElem hq, not_not.1 hc]
    · rw [if_neg hpos]
      exact ⟨q, rfl, le_rfl, h.before (.inl (Nat.eq_zero_of_not_pos hpos))⟩

lemma advance_spec (htbl : Table p tbl q) (h : Longest p t q) (hq : q < p.length) (c : α) :
    ∃ r, advance p tbl q c = some r ∧ r ≤ q + 1 ∧ Longest p (t ++ [c]) r := by
  obtain ⟨r, hr, hle, hbefore⟩ := fall_spec htbl h hq c
  have hlt : r < p.length := lt_of_le_of_lt hle hq
  unfold advance
  rw [hr]
  dsimp only
  rw [getElem?_eq_getElem hlt]
  dsimp only
  by_cases hc : p[r] = c
  · rw [if_pos hc]
    refine ⟨r + 1, rfl, by omega, hbefore.next ?_⟩
    rw [getElem?_eq_getElem hlt, hc]
  · rw [if_neg hc]
    have hne : p[r]? ≠ some c := by
      rw [getElem?_eq_getElem hlt]
      exact fun heq => hc (Option.some.inj heq)
    obtain ⟨rfl, hlongest⟩ := hbefore.restart hne
    exact ⟨0, rfl, by omega, hlongest⟩

lemma prefixLoop_spec {rounds : ℕ} (hq : 1 ≤ q) (hrounds : q + rounds = p.length)
    (hlen : tbl.length = p.length) (htbl : Table p tbl q) (hk : Longest p (p.take q).tail k) :
    ∃ tbl', prefixLoop p rounds q k tbl = some tbl' ∧ Table p tbl' p.length := by
  induction rounds generalizing q k tbl with
  | zero =>
    exact ⟨tbl, rfl, hrounds ▸ htbl⟩
  | succ rounds ih =>
    have hlt : q < p.length := by omega
    have hkq := border_lt hq hk
    obtain ⟨r, hr, hle, hlongest⟩ := advance_spec (htbl.mono hkq.le) hk (hkq.trans hlt) p[q]
    have htail : (p.take q).tail ++ [p[q]] = (p.take (q + 1)).tail := by
      rw [take_succ_eq_append_getElem hlt, tail_append_of_ne_nil]
      intro hnil
      have hzero := congrArg length hnil
      rw [length_take, length_nil] at hzero
      omega
    rw [htail] at hlongest
    rw [prefixLoop, getElem?_eq_getElem hlt]
    dsimp only
    rw [hr]
    refine ih (by omega) (by omega) (by rw [length_set, hlen]) ?_ hlongest
    intro j h1 h2
    by_cases hj : j = q + 1
    · refine ⟨r, ?_, hj ▸ hlongest⟩
      rw [hj, Nat.add_sub_cancel, getElem?_set_self (by omega)]
    · obtain ⟨b, hb, hborder⟩ := htbl j h1 (by omega)
      refine ⟨b, ?_, hborder⟩
      rwa [getElem?_set_ne (by omega)]

lemma computePrefixTbl_spec (hp : p ≠ []) :
    ∃ tbl, computePrefixTbl p = some tbl ∧ Table p tbl p.length := by
  have hpos : 0 < p.length := length_pos_of_ne_nil hp
  have hone : Longest p (p.take 1).tail 0 := by
    have hnil : (p.take 1).tail = [] := length_eq_zero_iff.1 (by simp)
    rw [hnil]
    exact longest_nil p
  refine prefixLoop_spec le_rfl (by omega) length_replicate ?_ hone
  intro j h1 h2
  obtain rfl : j = 1 := le_antisymm h2 h1
  exact ⟨0, by simp [hpos], hone⟩

section Search

/-- The characters `t` have been read without a match, and `q` of them match. -/
structure Reading (p t : List α) (q : ℕ) : Prop where
  longest : Longest p t q
  lt : q < p.length
  unmatched : Unmatched p t

lemma scanBlock_spec (htbl : Table p tbl p.length) (h : Reading p t q) (text : List α) (i : ℕ) :
    (∃ r, scanBlock ⟨p, tbl⟩ text i q = some (.matching r) ∧ Reading p (t ++ text) r) ∨
    ∃ n < text.length, scanBlock ⟨p, tbl⟩ text i q = some (.found (i + n)) ∧
      Unmatched p (t ++ text.take n) ∧ p <:+ t ++ text.take (n + 1) := by
  induction text generalizing t q i with
  | nil => exact .inl ⟨q, rfl, by rwa [append_nil]⟩
  | cons c text ih =>
    obtain ⟨r, hr, hle, hlongest⟩ := advance_spec (htbl.mono h.lt.le) h.longest h.lt c
    rw [scanBlock, hr]
    dsimp only
    by_cases hmatch : r = p.length
    · rw [if_pos hmatch]
      refine .inr ⟨0, by simp, by simp, by simpa using h.unmatched, ?_⟩
      have hends := hlongest.ends
      rwa [hmatch, take_length] at hends
    · rw [if_neg hmatch]
      have hlt : r < p.length := by
        have hr := hlongest.le
        omega
      have hread : Reading p (t ++ [c]) r :=
        ⟨hlongest, hlt, h.unmatched.concat (hlongest.not_suffix hlt)⟩
      have happend : ∀ l, t ++ [c] ++ l = t ++ c :: l := fun l => by simp
      rcases ih hread (i + 1) with ⟨r', hr', hread'⟩ | ⟨n, hn, hfound, hbefore, hends⟩
      · rw [happend] at hread'
        exact .inl ⟨r', hr', hread'⟩
      · rw [happend] at hbefore hends
        refine .inr ⟨n + 1, by simpa using hn, ?_, hbefore, hends⟩
        rw [hfound, show i + 1 + n = i + (n + 1) by omega]

variable {text : Text α} {consumed s : ℕ}

lemma findLoop_spec (hp : p ≠ []) (htbl : Table p tbl p.length) (blocks : Blocks text)
    (hs : s ≤ consumed) (hread : Reading p ((text.chars.drop s).take (consumed - s)) q) :
    ∃ result, loop (findRound ⟨p, tbl⟩ blocks.getNextBlock s) (consumed, q) = some result ∧
      Finds p text s result := by
  induction hleft : text.chars.length - consumed using Nat.strong_induction_on
    generalizing consumed q with
  | _ left ih =>
    have hfits := text.fits
    have hlen := (blocks.follows consumed).length_le
    rw [length_drop] at hlen
    rw [loop_eq, findRound]
    by_cases hempty : (blocks.getNextBlock consumed).length = 0
    · rw [if_pos hempty]
      have hend : text.chars.length ≤ consumed := by
        by_contra hlt
        exact blocks.nonempty consumed (not_le.1 hlt) (length_eq_zero_iff.1 hempty)
      refine ⟨_, rfl, finds_none ?_⟩
      have hunmatched := hread.unmatched
      rwa [take_of_length_le (by rw [length_drop]; omega)] at hunmatched
    · rw [if_neg hempty]
      rcases scanBlock_spec htbl hread (blocks.getNextBlock consumed) 0 with
        ⟨r, hscan, hread'⟩ | ⟨n, hn, hscan, hbefore, hends⟩
      · have hall := read_block blocks hs le_rfl
        rw [take_length] at hall
        rw [hall, show consumed - s + (blocks.getNextBlock consumed).length =
          consumed + (blocks.getNextBlock consumed).length - s by omega] at hread'
        rw [hscan]
        rw [mod_eq_of_lt (by omega)]
        exact ih _ (by omega) (by omega) hread' rfl
      · rw [read_block blocks hs hn.le] at hbefore
        rw [read_block blocks hs (show n + 1 ≤ _ from hn), ← add_assoc] at hends
        rw [hscan]
        refine ⟨_, rfl, ?_⟩
        have hmatch := finds_match hp (by omega) hends hbefore
        rwa [show s + (consumed - s + n) + 1 = consumed + (0 + n) + 1 by omega] at hmatch

end Search

/-- For every pattern with at least one character, every text and every way of cutting it
into blocks, a search from an offset on returns the first occurrence of the pattern from
there on, also across blocks, and advances the offset behind it; it returns `UINT_MAX`
when there is none. -/
theorem kmp_find_exact (pattern : List α) (hpattern : pattern ≠ []) (text : Text α)
    (blocks : Blocks text) (s : ℕ) :
    ∃ kmp, kmpInit pattern = some kmp ∧
      ∃ result, kmpFind kmp blocks.getNextBlock s = some result ∧ Finds pattern text s result := by
  obtain ⟨tbl, htbl, hentries⟩ := computePrefixTbl_spec hpattern
  refine ⟨⟨pattern, tbl⟩, by rw [kmpInit, htbl]; rfl, ?_⟩
  refine findLoop_spec hpattern hentries blocks le_rfl ?_
  rw [Nat.sub_self]
  exact ⟨longest_nil pattern, length_pos_of_ne_nil hpattern, unmatched_nil hpattern⟩

/-- Blocks of one character; the second character of the text is matched twice. -/
theorem kmp_find_single_blocks :
    ∃ kmp result, kmpInit [0, 0, 1] = some kmp ∧
      kmpFind kmp (fun n => ([0, 0, 0, 1].drop n).take 1) 0 = some result ∧
      Finds [0, 0, 1] ⟨[0, 0, 0, 1], by decide⟩ 0 result := by
  have hblocks : ∀ n, n < 4 → ([0, 0, 0, 1].drop n).take 1 ≠ [] := by decide
  obtain ⟨kmp, hkmp, result, hresult, hfinds⟩ := kmp_find_exact [0, 0, 1] (by decide)
    ⟨[0, 0, 0, 1], by decide⟩
    ⟨fun n => ([0, 0, 0, 1].drop n).take 1, fun n => take_prefix _ _, hblocks⟩ 0
  exact ⟨kmp, result, hkmp, hresult, hfinds⟩

end BooxKernel.TextSearch
