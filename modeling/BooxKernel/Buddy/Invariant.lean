import BooxKernel.Buddy.Model

/-!
# The invariant of the buddy allocator

The free blocks and the blocks that were taken tile the pages. While a call runs, the
block that it holds counts as taken, and the counter of free pages is off by the
`deficit`.
-/
namespace BooxKernel.Buddy
open Buddies Queues Function Set Finset Nat Block Prod

/-- The blocks on the free lists. -/
def Zone.free (z : Zone) : Set Block := {b | ∃ m, b.start ∈ z.freeList (b.order, m)}

def Zone.freePages (z : Zone) : Set ℕ := {x | ∃ b ∈ z.free, x ∈ b.pages}

structure Inv (c : Config) (P : Finset ℕ) (z : Zone) (taken : Set Block) (deficit : ℤ) : Prop where
  queued : Queued z.freeList
  marked : ∀ b : Block, b ∈ z.free ↔ z.buddy b.start = true ∧ z.pageOrder b.start = b.order
  order_lt : ∀ b ∈ z.free, b.order < c.maxOrder
  tiling : Tiling P (taken ∪ z.free)
  apart : ∀ b ∈ taken, b ∉ z.free
  noPair : ∀ b ∈ z.free, b.order + 1 < c.maxOrder → b.buddy ∉ z.free
  nrFree : ∀ order < c.maxOrder, z.nrFree order = ∑ m, ((z.freeList (order, m)).length : ℤ)
  nrFreePages : z.nrFreePages + deficit = z.freePages.ncard

variable {c : Config} {P : Finset ℕ} {z : Zone} {taken : Set Block} {deficit : ℤ} {b : Block}

section
variable (h : Inv c P z taken deficit)
include h

lemma Inv.eq_of_mem {b' : Block} {x : ℕ} (hb : b ∈ taken ∪ z.free) (hb' : b' ∈ taken ∪ z.free)
    (hx : x ∈ b.pages) (hx' : x ∈ b'.pages) : b = b' := h.tiling.unique b hb b' hb' x hx hx'

lemma Inv.finite_freePages : z.freePages.Finite := by
  apply P.finite_toSet.subset
  rintro x ⟨b, hb, hx⟩
  exact (h.tiling.cover x).2 ⟨b, .inr hb, hx⟩

lemma Inv.modFreePages (n : ℤ) : Inv c P (modFreePages z n) taken (deficit - n) := by
  refine ⟨h.queued, h.marked, h.order_lt, h.tiling, h.apart, h.noPair, h.nrFree, ?_⟩
  have hcount : z.nrFreePages + n + (deficit - n) = z.freePages.ncard := by
    rw [← h.nrFreePages]
    ring
  exact hcount

lemma Inv.setPageblockMigratetype (page : ℕ) (m : Migratetype) :
    Inv c P (setPageblockMigratetype c z page m) taken deficit :=
  ⟨h.queued, h.marked, h.order_lt, h.tiling, h.apart, h.noPair, h.nrFree, h.nrFreePages⟩

end

/-- A block is taken off its free list. -/
def take (z : Zone) (b : Block) : Zone :=
  rmvPageOrder (incNrFree (listDel z b.start) b.order (-1)) b.start

section
variable (h : Inv c P z taken deficit) (hb : b ∈ z.free)
include h hb

lemma Inv.free_take : (take z b).free = z.free \ {b} := by
  obtain ⟨m, hm⟩ := hb
  ext x
  have hmem : ∀ m', x.start ∈ (take z b).freeList (x.order, m') ↔
      x.start ∈ z.freeList (x.order, m') ∧ x.start ≠ b.start := fun m' => h.queued.mem_del
  simp only [Zone.free, mem_ofPred_eq, hmem, mem_sdiff, mem_singleton_iff]
  constructor
  · rintro ⟨m', hm', hne⟩
    exact ⟨⟨m', hm'⟩, fun heq => hne (heq ▸ rfl)⟩
  · rintro ⟨⟨m', hm'⟩, hne⟩
    refine ⟨m', hm', fun heq => hne ?_⟩
    rw [heq] at hm'
    exact Block.ext heq (congrArg fst (h.queued.unique hm' hm))

lemma Inv.freePages_take : (take z b).freePages = z.freePages \ b.pages := by
  ext x
  simp only [Zone.freePages, h.free_take hb, mem_ofPred_eq, mem_sdiff, mem_singleton_iff,
    mem_coe]
  constructor
  · rintro ⟨b', ⟨hb', hne⟩, hx⟩
    exact ⟨⟨b', hb', hx⟩, fun hxb => hne (h.eq_of_mem (.inr hb') (.inr hb) hx hxb)⟩
  · rintro ⟨⟨b', hb', hx⟩, hxb⟩
    exact ⟨b', ⟨hb', fun heq => hxb (heq ▸ hx)⟩, hx⟩

lemma Inv.take : Inv c P (take z b) (insert b taken) (deficit - 2 ^ b.order) := by
  have hfree := h.free_take hb
  have hmem : ∀ b', b' ∈ (Buddy.take z b).free ↔ b' ∈ z.free ∧ b' ≠ b := by
    intro b'
    rw [hfree]
    rfl
  obtain ⟨m, hm⟩ := hb
  have hb : b ∈ z.free := ⟨m, hm⟩
  refine ⟨h.queued.del b.start, ?_, ?_, ?_, ?_, ?_, ?_, ?_⟩
  · intro b'
    rw [hmem]
    show _ ↔ update z.buddy b.start false b'.start = true ∧
      update z.pageOrder b.start 0 b'.start = b'.order
    by_cases hstart : b'.start = b.start
    · rw [hstart]
      simp only [update_self, Bool.false_eq_true, false_and, iff_false, not_and, not_not]
      intro hb'
      exact h.eq_of_mem (.inr hb') (.inr hb) b'.start_mem_pages (hstart ▸ b.start_mem_pages)
    · rw [update_of_ne hstart, update_of_ne hstart, ← h.marked]
      exact and_iff_left fun heq => hstart (heq ▸ rfl)
  · exact fun b' hb' => h.order_lt b' ((hmem b').1 hb').1
  · rw [hfree, insert_union, ← union_insert, insert_sdiff_singleton,
      insert_eq_of_mem hb]
    exact h.tiling
  · rintro b' (rfl | hb') hfree'
    · exact ((hmem b').1 hfree').2 rfl
    · exact h.apart b' hb' ((hmem b').1 hfree').1
  · intro b' hb' hlt hbuddy
    exact h.noPair b' ((hmem b').1 hb').1 hlt ((hmem _).1 hbuddy).1
  · intro order horder
    show update z.nrFree b.order (z.nrFree b.order + -1) order =
      ∑ m', ((del b.start z.freeList (order, m')).length : ℤ)
    have hsum := h.nrFree order horder
    simp only [← h.queued.length_del hm (order, _), cast_add, cast_ite, cast_one, cast_zero,
      sum_add_distrib] at hsum
    by_cases heq : order = b.order
    · subst heq
      simp only [Prod.mk.injEq, true_and, sum_ite_eq', Finset.mem_univ, if_true] at hsum
      rw [update_self, hsum]
      ring
    · simp only [Prod.mk.injEq, heq, false_and, if_false, sum_const_zero, add_zero] at hsum
      rw [update_of_ne heq, hsum]
  · show z.nrFreePages + (deficit - 2 ^ b.order) = _
    have hsub : (b.pages : Set ℕ) ⊆ z.freePages := fun x hx => ⟨b, hb, hx⟩
    have hcard := ncard_le_ncard hsub h.finite_freePages
    rw [h.freePages_take hb, ncard_sdiff hsub, ncard_coe_finset, card_pages]
    rw [ncard_coe_finset, card_pages] at hcard
    have := h.nrFreePages
    push_cast [cast_sub hcard]
    linarith

end

section
variable (z : Zone) (b : Block) (m : Migratetype)

/-- A block is put on a free list. -/
def put : Zone :=
  incNrFree (listAdd (setPageOrder z b.start b.order) b.start b.order m) b.order 1

lemma free_put : (put z b m).free = insert b z.free := by
  ext x
  have hmem : ∀ m', x.start ∈ (put z b m).freeList (x.order, m') ↔
      x.start ∈ z.freeList (x.order, m') ∨ x.start = b.start ∧ (x.order, m') = (b.order, m) :=
    fun m' => mem_add
  simp only [Zone.free, mem_ofPred_eq, hmem, mem_insert_iff, exists_or, Prod.mk.injEq]
  constructor
  · rintro (hx | ⟨m', hstart, horder, -⟩)
    · exact .inr hx
    · exact .inl (Block.ext hstart horder)
  · rintro (rfl | hx)
    · exact .inr ⟨m, rfl, rfl, rfl⟩
    · exact .inl hx

lemma freePages_put : (put z b m).freePages = (b.pages : Set ℕ) ∪ z.freePages := by
  ext x
  simp only [Zone.freePages, free_put, mem_ofPred_eq, mem_insert_iff, exists_eq_or_imp,
    mem_union, mem_coe]

lemma buddy_buddy : b.buddy.buddy = b := by
  simp [buddy]

lemma buddy_ne : b.buddy ≠ b := by
  intro heq
  have hstart : b.start ^^^ 2 ^ b.order = b.start := congrArg start heq
  have hzero : 2 ^ b.order = 0 := by
    have := congrArg (b.start ^^^ ·) hstart
    rwa [← Nat.xor_assoc, Nat.xor_self, zero_xor] at this
  exact absurd hzero (by positivity)

end

lemma Inv.put (h : Inv c P z (insert b taken) deficit) (hb : b ∉ taken)
    (horder : b.order < c.maxOrder) (hbuddy : b.order + 1 < c.maxOrder → b.buddy ∉ z.free)
    (m : Migratetype) : Inv c P (put z b m) taken (deficit + 2 ^ b.order) := by
  have hfree := free_put z b m
  have hheld : b ∈ insert b taken ∪ z.free := .inl (mem_insert _ _)
  have hout : b ∉ z.free := h.apart b (mem_insert _ _)
  have hne : ∀ b' ∈ z.free, b'.start ≠ b.start := by
    intro b' hb' hstart
    have heq := h.eq_of_mem (.inr hb') hheld b'.start_mem_pages (hstart ▸ b.start_mem_pages)
    exact hout (heq ▸ hb')
  refine ⟨h.queued.add fun r hr => hne ⟨b.start, r.1⟩ ⟨r.2, hr⟩ rfl, ?_, ?_, ?_, ?_, ?_, ?_, ?_⟩
  · intro b'
    rw [hfree]
    show b' = b ∨ b' ∈ z.free ↔ update z.buddy b.start true b'.start = true ∧
      update z.pageOrder b.start b.order b'.start = b'.order
    by_cases hstart : b'.start = b.start
    · rw [hstart]
      simp only [update_self, true_and]
      constructor
      · rintro (rfl | hb')
        · rfl
        · exact absurd hstart (hne b' hb')
      · exact fun heq => .inl (Block.ext hstart heq.symm)
    · rw [update_of_ne hstart, update_of_ne hstart, ← h.marked]
      exact or_iff_right fun heq => hstart (heq ▸ rfl)
  · rw [hfree]
    rintro b' (rfl | hb')
    · exact horder
    · exact h.order_lt b' hb'
  · rw [hfree, union_insert, ← insert_union]
    exact h.tiling
  · intro b' hb'
    rw [hfree]
    rintro (rfl | hb'')
    · exact hb hb'
    · exact h.apart b' (.inr hb') hb''
  · rw [hfree]
    rintro b' (rfl | hb') hlt (heq | hmem)
    · exact buddy_ne b' heq
    · exact hbuddy hlt hmem
    · have hflip : b.buddy = b' := by rw [← heq, buddy_buddy]
      have horder' : b'.buddy.order = b.order := congrArg order heq
      exact hbuddy (horder' ▸ hlt) (hflip ▸ hb')
    · exact h.noPair b' hb' hlt hmem
  · intro order hlt
    show update z.nrFree b.order (z.nrFree b.order + 1) order =
      ∑ m', ((add (b.order, m) b.start z.freeList (order, m')).length : ℤ)
    simp only [length_add, cast_add, cast_ite, cast_one, cast_zero,
      sum_add_distrib, ← h.nrFree order hlt]
    by_cases heq : order = b.order
    · subst heq
      simp
    · simp [heq]
  · have hdisjoint : Disjoint (b.pages : Set ℕ) z.freePages := by
      rw [Set.disjoint_left]
      rintro x hx ⟨b', hb', hx'⟩
      exact hout (h.eq_of_mem hheld (.inr hb') hx hx' ▸ hb')
    rw [freePages_put, ncard_union_eq hdisjoint (finite_toSet _) h.finite_freePages,
      ncard_coe_finset, card_pages]
    have := h.nrFreePages
    show z.nrFreePages + (deficit + 2 ^ b.order) = _
    push_cast
    linarith

section Held
variable {p k : ℕ}

lemma Inv.split (h : Inv c P z (insert ⟨p, k + 1⟩ taken) deficit) (hout : ⟨p, k + 1⟩ ∉ taken) :
    Inv c P z (insert ⟨p, k⟩ (insert ⟨p + 2 ^ k, k⟩ taken)) deficit := by
  have hheld : (⟨p, k + 1⟩ : Block) ∈ insert ⟨p, k + 1⟩ taken ∪ z.free := .inl (mem_insert _ _)
  have hfree : (⟨p, k + 1⟩ : Block) ∉ z.free := h.apart _ (mem_insert _ _)
  have hhalf : ∀ b : Block, b.order = k → b.start ∈ (⟨p, k + 1⟩ : Block).pages → b ∉ z.free := by
    intro b hk hstart hb
    have heq := h.eq_of_mem (.inr hb) hheld b.start_mem_pages hstart
    rw [heq] at hk
    exact absurd hk (succ_ne_self k)
  refine ⟨h.queued, h.marked, h.order_lt, ?_, ?_, h.noPair, h.nrFree, h.nrFreePages⟩
  · have htiling := h.tiling
    rw [insert_union] at htiling
    rw [insert_union, insert_union]
    exact htiling.split fun hmem => hmem.elim hout hfree
  · rintro b (rfl | rfl | hb)
    · exact hhalf _ rfl (mem_halves.1 (.inl (start_mem_pages _)))
    · exact hhalf _ rfl (mem_halves.1 (.inr (start_mem_pages _)))
    · exact h.apart b (.inr hb)

lemma start_mem_joined {b : Block} (h : 2 ^ b.order ∣ b.start) :
    b.start ∈ (⟨ldiff b.start (2 ^ b.order), b.order + 1⟩ : Block).pages := by
  obtain ⟨p, k⟩ := b
  simp only at h ⊢
  rcases first_or_second h with hp | ⟨q, hq, rfl⟩
  · rw [ldiff_of_first hp]
    exact start_mem_pages _
  · rw [ldiff_of_second hq]
    exact mem_halves.1 (.inr (start_mem_pages _))

lemma Inv.join (h : Inv c P z (insert b.buddy (insert b taken)) deficit) (hb : b ∉ taken)
    (hbuddy : b.buddy ∉ taken) :
    Inv c P z (insert ⟨ldiff b.start (2 ^ b.order), b.order + 1⟩ taken) deficit ∧
      (⟨ldiff b.start (2 ^ b.order), b.order + 1⟩ : Block) ∉ taken := by
  have hheld : b ∈ insert b.buddy (insert b taken) ∪ z.free :=
    .inl (mem_insert_of_mem _ (mem_insert _ _))
  have hnew : ∀ b' ∈ insert b.buddy (insert b taken) ∪ z.free,
      b' ≠ ⟨ldiff b.start (2 ^ b.order), b.order + 1⟩ := by
    rintro b' hb' rfl
    have heq := h.eq_of_mem hheld hb' b.start_mem_pages
      (start_mem_joined (h.tiling.aligned b hheld))
    exact absurd (congrArg order heq) (succ_ne_self b.order).symm
  have hbuddyfree : b.buddy ∉ z.free := h.apart _ (mem_insert _ _)
  have hbfree : b ∉ z.free := h.apart _ (mem_insert_of_mem _ (mem_insert _ _))
  refine ⟨⟨h.queued, h.marked, h.order_lt, ?_, ?_, h.noPair, h.nrFree, h.nrFreePages⟩, ?_⟩
  · have htiling := h.tiling
    rw [insert_union, insert_union, insert_comm] at htiling
    rw [insert_union]
    exact htiling.join_buddy (fun hmem => hmem.elim hb hbfree)
      fun hmem => hmem.elim hbuddy hbuddyfree
  · rintro b' (rfl | hb') hfree
    · exact hnew _ (.inr hfree) rfl
    · exact h.apart b' (.inr (.inr hb')) hfree
  · intro hmem
    exact hnew _ (.inl (.inr (.inr hmem))) rfl

end Held

end BooxKernel.Buddy
