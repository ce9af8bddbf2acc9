import BooxKernel.Lib.Loops
import Mathlib.Algebra.Group.Nat.Defs
import Mathlib.Data.List.Infix

/-!
# Text search

The text is handed out in blocks by `get_next_block`, which is asked for what follows the
characters consumed so far. Offsets into the text are `unsigned int`s, which the length
of a text has to fit. A read outside of the pattern or of the prefix table has no value.
-/
namespace BooxKernel.TextSearch
open Loops

variable {α : Type*}

def uintMax : ℕ := 2 ^ 32 - 1

/-- A text whose offsets are `unsigned int`s. -/
structure Text (α : Type*) where
  chars : List α
  fits : chars.length < 2 ^ 32

/-- A way of cutting a text into blocks: what `get_next_block` returns when so many
characters have been consumed. At the end of the text it is the empty block. -/
structure Blocks (text : Text α) where
  getNextBlock : ℕ → List α
  follows : ∀ consumed, getNextBlock consumed <+: text.chars.drop consumed
  nonempty : ∀ consumed, consumed < text.chars.length → getNextBlock consumed ≠ []

/-- `struct ts_kmp`; `pattern_len` is the length of the pattern. -/
structure TsKmp (α : Type*) where
  pattern : List α
  prefixTbl : List ℕ
  deriving Repr, DecidableEq

variable [DecidableEq α]

section Matching
variable (pattern : List α) (prefixTbl : List ℕ)

/-- One round of `while (q > 0 && pattern[q] != c) q = prefix_tbl[q - 1];`. -/
def fallRound (c : α) (q : ℕ) : Option (Round ℕ ℕ) :=
  if q > 0 then
    match pattern[q]? with
    | none => none
    | some x => if x ≠ c then (prefixTbl[q - 1]?).map .next else some (.done q)
  else some (.done q)

/-- What both functions do with a character `c`: fall back while it does not continue what
is matched, and count it when it does. -/
def advance (q : ℕ) (c : α) : Option ℕ :=
  match loop (fallRound pattern prefixTbl c) q with
  | none => none
  | some q =>
    match pattern[q]? with
    | none => none
    | some x => some (if x = c then q + 1 else q)

end Matching

section Prefixes

/-- The loop of `compute_prefix_tbl` from `q` on, for the given number of rounds. -/
def prefixLoop (pattern : List α) : ℕ → ℕ → ℕ → List ℕ → Option (List ℕ)
  | 0, _, _, tbl => some tbl
  | rounds + 1, q, k, tbl =>
    match pattern[q]? with
    | none => none
    | some c =>
      match advance pattern tbl k c with
      | none => none
      | some k => prefixLoop pattern rounds (q + 1) k (tbl.set q k)

/-- `compute_prefix_tbl`, on the table that `alloc_ts_config` has set to zero. -/
def computePrefixTbl (pattern : List α) : Option (List ℕ) :=
  prefixLoop pattern (pattern.length - 1) 1 0 (List.replicate pattern.length 0)

def kmpInit (pattern : List α) : Option (TsKmp α) :=
  (computePrefixTbl pattern).map fun tbl => ⟨pattern, tbl⟩

end Prefixes

section Search

/-- How the loop over a block ends: at a match, or with what is matched at its end. -/
inductive Scanned
  | found (i : ℕ)
  | matching (q : ℕ)
  deriving Repr, DecidableEq

/-- The loop over the characters of a block from `i` on. -/
def scanBlock (kmp : TsKmp α) : (text : List α) → (i q : ℕ) → Option Scanned
  | [], _, q => some (.matching q)
  | c :: text, i, q =>
    match advance kmp.pattern kmp.prefixTbl q c with
    | none => none
    | some q => if q = kmp.pattern.length then some (.found i) else scanBlock kmp text (i + 1) q

/-- One round of the loop of `kmp_find`, with `consumed` and `q`. The result is what it
returns and `state->offset`, which is `offset` before the call. -/
def findRound (kmp : TsKmp α) (getNextBlock : ℕ → List α) (offset : ℕ) :
    ℕ × ℕ → Option (Round (ℕ × ℕ) (ℕ × ℕ))
  | (consumed, q) =>
    let text := getNextBlock consumed
    if text.length = 0 then some (.done (uintMax, offset))
    else
      match scanBlock kmp text 0 q with
      | none => none
      | some (.found i) =>
        let offset := (consumed + i + 1) % 2 ^ 32
        some (.done ((offset + 2 ^ 32 - kmp.pattern.length) % 2 ^ 32, offset))
      | some (.matching q) => some (.next ((consumed + text.length) % 2 ^ 32, q))

/-- `kmp_find`, which `textsearch_next` calls; `textsearch_find` sets the offset to 0
before. -/
def kmpFind (kmp : TsKmp α) (getNextBlock : ℕ → List α) (offset : ℕ) : Option (ℕ × ℕ) :=
  loop (findRound kmp getNextBlock offset) (offset, 0)

end Search

end BooxKernel.TextSearch
