import BooxKernel.Jbd.Model
import BooxKernel.Lib.Lists

/-!
# What a log says

The tags of a descriptor block, the block numbers of a revoke block, and a log as a list of
transactions. Each transaction is a list of chunks, which are a descriptor block with the data
blocks that it describes, or a revoke block.
-/
namespace BooxKernel.Jbd

open Writes

variable {c : Config}

/-- The tags of a descriptor block from `tagp` on. -/
def Block.tagsFrom (bh : Block c) (tagp : ℕ) : List Tag :=
  if tagp + 8 ≤ c.blocksize then
    let tag := bh.tag tagp
    if tag.isLast then [tag] else tag :: bh.tagsFrom (tag.next tagp)
  else []
termination_by c.blocksize - tagp
decreasing_by
  have := (bh.tag tagp).lt_next tagp
  omega

/-- The tags of a descriptor block. -/
def Block.tags (bh : Block c) : List Tag := bh.tagsFrom 12

/-- The block numbers of a revoke block from `offset` on. -/
def Block.revokesFrom (bh : Block c) (max : ℤ) (offset : ℕ) : List (BitVec 32) :=
  if offset < max then bh.be32 offset :: bh.revokesFrom max (offset + 4) else []
termination_by (max - offset).toNat

/-- The block numbers of a revoke block. -/
def Block.revokes (bh : Block c) : List (BitVec 32) := bh.revokesFrom bh.rCount.toInt 16

/-- The header of a block of the transaction `id`. -/
structure Header (bh : Block c) (blocktype id : BitVec 32) : Prop where
  magic : bh.hMagic = jfsMagicNumber
  blocktype : bh.hBlocktype = blocktype
  sequence : bh.hSequence = id

inductive Chunk (c : Config)
  | descriptor (bh : Block c) (data : List (Block c))
  | revoke (bh : Block c)

namespace Chunk

def blocks : Chunk c → List (Block c)
  | .descriptor bh data => bh :: data
  | .revoke bh => [bh]

/-- The logged copies of filesystem blocks. -/
def copies : Chunk c → List (BitVec 32 × Block c)
  | .descriptor bh data => (bh.tags.zip data).map fun x => (x.1.blocknr, unescape x.1.flags x.2)
  | .revoke _ => []

/-- The revoked filesystem blocks. -/
def revokes : Chunk c → List (BitVec 32)
  | .descriptor _ _ => []
  | .revoke bh => bh.revokes

/-- The blocks of the chunk belong together and to the transaction `id`. -/
def Ok (id : BitVec 32) : Chunk c → Prop
  | .descriptor bh data => Header bh jfsDescriptorBlock id ∧ data.length = bh.tags.length
  | .revoke bh => Header bh jfsRevokeBlock id

end Chunk

/-- A transaction with its commit block. -/
structure Transaction (c : Config) where
  chunks : List (Chunk c)
  commit : Block c

namespace Transaction

def blocks (t : Transaction c) : List (Block c) := t.chunks.flatMap Chunk.blocks ++ [t.commit]

def copies (t : Transaction c) : List (BitVec 32 × Block c) := t.chunks.flatMap Chunk.copies

def revokes (t : Transaction c) : List (BitVec 32) := t.chunks.flatMap Chunk.revokes

structure Ok (id : BitVec 32) (t : Transaction c) : Prop where
  chunks : ∀ ch ∈ t.chunks, ch.Ok id
  counts : ∀ bh, .revoke bh ∈ t.chunks → bh.rCount.toNat ≤ c.blocksize
  commit : Header t.commit jfsCommitBlock id

end Transaction

/-! ## The loops over tags and records -/

lemma countTagsLoop_eq (bh : Block c) (tagp nr : ℕ) :
    countTagsLoop bh tagp nr = nr + (bh.tagsFrom tagp).length := by
  fun_induction bh.tagsFrom tagp generalizing nr with
  | case1 tagp hfit tag hlast => rw [countTagsLoop]; simp [hfit, tag, hlast]
  | case2 tagp hfit tag hlast ih =>
    rw [countTagsLoop]
    simp [hfit, tag, hlast, ih]
    omega
  | case3 tagp hfit => rw [countTagsLoop]; simp [hfit]

lemma countTags_eq (bh : Block c) : countTags bh = bh.tags.length := by
  simp [countTags, countTagsLoop_eq, Block.tags]

lemma length_tagsFrom (bh : Block c) (tagp : ℕ) :
    tagp + 8 * (bh.tagsFrom tagp).length ≤ max tagp c.blocksize := by
  fun_induction bh.tagsFrom tagp with
  | case1 tagp hfit tag hlast => simp; omega
  | case2 tagp hfit tag hlast ih =>
    have hnext : tagp + 8 ≤ tag.next tagp := Nat.le_add_right _ _
    simp only [List.length_cons]
    omega
  | case3 tagp hfit => simp

lemma scanRevokeLoop_eq (bh : Block c) (id : BitVec 32) (max : ℤ) (offset : ℕ)
    (table : RevokeTable c) :
    scanRevokeLoop bh id max offset table =
      (bh.revokesFrom max offset).foldl (fun table b => journalSetRevoke table b id) table := by
  fun_induction scanRevokeLoop bh id max offset table with
  | case1 offset table hlt ih => rw [ih, Block.revokesFrom.eq_def bh max offset, if_pos hlt]; rfl
  | case2 offset table hlt => rw [Block.revokesFrom, if_neg hlt]; rfl

end BooxKernel.Jbd
