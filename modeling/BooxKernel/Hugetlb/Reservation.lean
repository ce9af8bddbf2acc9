import BooxKernel.Hugetlb.Region
import BooxKernel.Lib.Lists
import BooxKernel.Lib.Runs

/-!
# Reserving and unreserving huge pages

The page cache of a hugetlbfs inode is charged in two stages: `region_chg`
counts the missing pages and prepares the list, `region_add` commits. Quota and
pool accounting in between are free to refuse. The results below are about any
sequence of reservations and truncations of one inode.
-/
namespace BooxKernel.Hugetlb
open Runs

def eNOSPC : ℤ := 28

/-- The answers of the allocator, `hugetlb_get_quota` and `hugetlb_acct_memory`
to one reservation. -/
structure Outcome where
  kmalloc : Bool
  getQuota : ℤ
  acctMemory : ℤ
  deriving Repr, DecidableEq

/-- The reservation state of an inode: its `private_list`, its `i_blocks`, and
the net number of pages charged to the quota and to the huge page pool. -/
structure Inode where
  privateList : List FileRegion
  iBlocks : ℤ
  quota : ℤ
  accounted : ℤ
  deriving Repr, DecidableEq

def Inode.empty : Inode := ⟨[], 0, 0, 0⟩

/-- `hugetlb_reserve_pages`. A refusal after `region_chg` keeps the list it left. -/
def hugetlbReservePages (inode : Inode) (f t : ℤ) (out : Outcome) : Option (ℤ × Inode) :=
  let chg := regionChg inode.privateList f t out.kmalloc
  let prepared := { inode with privateList := chg.2 }
  if chg.1 < 0 then some (chg.1, prepared)
  else if out.getQuota ≠ 0 then some (-eNOSPC, prepared)
  else if out.acctMemory < 0 then some (out.acctMemory, prepared)
  else
    (regionAdd prepared.privateList f t).map fun l =>
      (0, { prepared with
        privateList := l
        quota := prepared.quota + chg.1
        accounted := prepared.accounted + chg.1 })

/-- `hugetlb_unreserve_pages`, for a given number of blocks per huge page. -/
def hugetlbUnreservePages (blocksPerHugepage : ℤ) (inode : Inode) (offset freed : ℤ) : Inode :=
  let chg := regionTruncate inode.privateList offset
  { privateList := chg.2
    iBlocks := inode.iBlocks - blocksPerHugepage * freed
    quota := inode.quota - (chg.1 - freed)
    accounted := inode.accounted - (chg.1 - freed) }

inductive Event
  | reserve (f t : ℤ) (out : Outcome) (ret : ℤ)
  | unreserve (offset freed : ℤ)

/-- One call on the inode together with the value it returned. -/
def Step (blocksPerHugepage : ℤ) (s : Inode) : Event → Inode → Prop
  | .reserve f t out ret, s' => f ≤ t ∧ hugetlbReservePages s f t out = some (ret, s')
  | .unreserve offset freed, s' => s' = hugetlbUnreservePages blocksPerHugepage s offset freed

/-- Pages reserved according to the history: successful reservations add their
range, each unreserve cuts everything from its offset on. -/
def reservedStep (pages : Set ℤ) : Event → Set ℤ
  | .reserve f t _ ret => if ret = 0 then pages ∪ Set.Ico f t else pages
  | .unreserve offset _ => pages ∩ Set.Iio offset

def reserved (es : List Event) : Set ℤ := es.foldl reservedStep ∅

/-- A reservation from page `f` that failed, or that asked for no page at all. -/
def Event.leavesPlaceholder (f : ℤ) : Event → Prop
  | .reserve f' t _ ret => f' = f ∧ (ret ≠ 0 ∨ t = f)
  | .unreserve _ _ => False

variable {f t blocksPerHugepage : ℤ} {s s' : Inode}

lemma reserve_spec (hs : Sorted s.privateList) (hft : f ≤ t) (out : Outcome) :
    ∃ ret s', hugetlbReservePages s f t out = some (ret, s') ∧ Sorted s'.privateList ∧
      covered s'.privateList = reservedStep (covered s.privateList) (.reserve f t out ret) ∧
      ∀ rg ∈ s'.privateList, rg.fromPage = rg.toPage →
        rg ∈ s.privateList ∨ (Event.reserve f t out ret).leavesPlaceholder rg.fromPage := by
  rcases regionChg_spec hs hft out.kmalloc with ⟨_, hnomem⟩ | hchg
  · refine ⟨-eNOMEM, s, ?_, hs, by simp [reservedStep, eNOMEM], fun rg h _ => .inl h⟩
    simp [hugetlbReservePages, hnomem, eNOMEM]
  have hnonneg : ¬ (regionChg s.privateList f t out.kmalloc).1 < 0 := by
    rw [hchg.count]
    omega
  have hrefused : ∀ ret : ℤ, ret ≠ 0 →
      covered (regionChg s.privateList f t out.kmalloc).2 =
        reservedStep (covered s.privateList) (.reserve f t out ret) ∧
      ∀ rg ∈ (regionChg s.privateList f t out.kmalloc).2, rg.fromPage = rg.toPage →
        rg ∈ s.privateList ∨ (Event.reserve f t out ret).leavesPlaceholder rg.fromPage := by
    intro ret hret
    refine ⟨by simp [reservedStep, hret, hchg.same], fun rg h _ => ?_⟩
    rcases hchg.placed rg h with h | rfl
    · exact .inl h
    · exact .inr ⟨rfl, .inl hret⟩
  by_cases hquota : out.getQuota ≠ 0
  · exact ⟨-eNOSPC, { s with privateList := (regionChg s.privateList f t out.kmalloc).2 },
      by simp only [hugetlbReservePages, if_neg hnonneg, if_pos hquota],
      hchg.sorted, hrefused _ (by decide)⟩
  by_cases hacct : out.acctMemory < 0
  · exact ⟨out.acctMemory, { s with privateList := (regionChg s.privateList f t out.kmalloc).2 },
      by simp only [hugetlbReservePages, if_neg hnonneg, if_neg hquota, if_pos hacct],
      hchg.sorted, hrefused _ (ne_of_lt hacct)⟩
  obtain ⟨l, hadd, hl, hcov, hmem⟩ := regionAdd_spec hchg.sorted hft hchg.prepared
  refine ⟨0, ⟨l, s.iBlocks, s.quota + (regionChg s.privateList f t out.kmalloc).1,
    s.accounted + (regionChg s.privateList f t out.kmalloc).1⟩, ?_, hl, ?_, ?_⟩
  · simp only [hugetlbReservePages, if_neg hnonneg, if_neg hquota, if_neg hacct, hadd,
      Option.map_some]
  · simp [reservedStep, hcov, hchg.same]
  · intro rg hrg hzero
    rcases hmem rg hrg with hold | ⟨hlo, hhi⟩
    · rcases hchg.placed rg hold with hold | rfl
      · exact .inl hold
      · refine .inr ⟨rfl, .inr ?_⟩
        by_contra hne
        have hf : f ∈ covered l := by
          rw [hcov]
          exact .inr ⟨le_rfl, lt_of_le_of_ne hft (Ne.symm hne)⟩
        obtain ⟨b, hb, hb1, hb2⟩ := hf
        rcases Lists.pairwise_mem_cases hl.separated hrg hb with rfl | h | h <;>
          simp only at * <;> omega
    · exact .inr ⟨by omega, .inr (by omega)⟩

/-- The relation between the inode and the history that every step keeps. -/
structure Refines (s : Inode) (es : List Event) : Prop where
  sorted : Sorted s.privateList
  pages : covered s.privateList = reserved es
  placeholders : ∀ rg ∈ s.privateList, rg.fromPage = rg.toPage →
    ∃ e ∈ es, e.leavesPlaceholder rg.fromPage

lemma reserved_snoc (es : List Event) (e : Event) :
    reserved (es ++ [e]) = reservedStep (reserved es) e := by
  simp [reserved, List.foldl_append]

lemma Refines.step {es : List Event} {e : Event} (h : Refines s es)
    (hstep : Step blocksPerHugepage s e s') : Refines s' (es ++ [e]) := by
  cases e with
  | reserve f t out ret =>
    obtain ⟨hft, hcall⟩ := hstep
    obtain ⟨ret', s'', hcall', hs, hcov, hz⟩ := reserve_spec h.sorted hft out
    rw [hcall] at hcall'
    obtain ⟨rfl, rfl⟩ := hcall'
    refine ⟨hs, by rw [reserved_snoc, hcov, h.pages], fun rg hrg hzero => ?_⟩
    rcases hz rg hrg hzero with hold | hnew
    · obtain ⟨e, he, hleft⟩ := h.placeholders rg hold hzero
      exact ⟨e, by simp [he], hleft⟩
    · exact ⟨_, by simp, hnew⟩
  | unreserve offset freed =>
    obtain ⟨_, hs, hcov, hz⟩ := regionTruncate_spec h.sorted offset
    cases hstep
    refine ⟨hs, ?_, fun rg hrg hzero => ?_⟩
    · rw [reserved_snoc, ← h.pages]
      exact hcov
    · obtain ⟨e, he, hleft⟩ := h.placeholders rg (hz rg hrg hzero) hzero
      exact ⟨e, by simp [he], hleft⟩

lemma refines_of_run {es : List Event} (h : Run (Step blocksPerHugepage) Inode.empty es s)
    : Refines s es := by
  induction h with
  | nil => exact ⟨sorted_nil, by simp [Inode.empty, reserved], by simp [Inode.empty]⟩
  | snoc _ hs ih => exact ih.step hs

/-- After any run of reservations and truncations the list is sorted, disjoint
and non-touching, its zero-size regions sit where a reservation failed or asked
for nothing, and it covers exactly the reserved pages. The next `region_chg`
counts the missing pages, the next `region_truncate` the pages it gives back,
and `region_add` always finds the region it rewrites. -/
theorem reservation_map {blocksPerHugepage : ℤ} {es : List Event} {s : Inode}
    (h : Run (Step blocksPerHugepage) Inode.empty es s) :
    (∀ rg ∈ s.privateList, rg.fromPage ≤ rg.toPage) ∧
    s.privateList.Pairwise (fun a b => a.toPage < b.fromPage) ∧
    (∀ rg ∈ s.privateList, rg.fromPage = rg.toPage → ∃ e ∈ es, e.leavesPlaceholder rg.fromPage) ∧
    covered s.privateList = reserved es ∧
    (∀ f t kmalloc, f ≤ t →
      (kmalloc = false ∧ regionChg s.privateList f t kmalloc = (-eNOMEM, s.privateList)) ∨
        (regionChg s.privateList f t kmalloc).1 = (Set.Ico f t \ reserved es).ncard) ∧
    (∀ offset, (regionTruncate s.privateList offset).1 = (reserved es ∩ Set.Ici offset).ncard) ∧
    ∀ f t out, f ≤ t → (hugetlbReservePages s f t out).isSome := by
  have hr := refines_of_run h
  refine ⟨hr.sorted.ordered, hr.sorted.separated, hr.placeholders, hr.pages, ?_, ?_, ?_⟩
  · intro f t kmalloc hft
    rw [← hr.pages]
    rcases regionChg_spec hr.sorted hft kmalloc with hnomem | hchg
    · exact .inl hnomem
    · exact .inr hchg.count
  · intro offset
    rw [← hr.pages]
    exact (regionTruncate_spec hr.sorted offset).1
  · intro f t out hft
    obtain ⟨ret, s', hcall, _⟩ := reserve_spec hr.sorted hft out
    simp [hcall]

/-- Two reservations, the second refused by the quota, and a truncation. -/
theorem reservation_map_run :
    covered [⟨2, 4⟩] = reserved [.reserve 2 5 ⟨true, 0, 0⟩ 0,
      .reserve 8 9 ⟨true, -12, 0⟩ (-eNOSPC), .unreserve 4 0] := by
  have h : Run (Step 4096) Inode.empty [.reserve 2 5 ⟨true, 0, 0⟩ 0,
      .reserve 8 9 ⟨true, -12, 0⟩ (-eNOSPC), .unreserve 4 0] ⟨[⟨2, 4⟩], 0, 2, 2⟩ := by
    refine .cons (t := ⟨[⟨2, 5⟩], 0, 3, 3⟩) ⟨by decide, by decide⟩ ?_
    refine .cons (t := ⟨[⟨2, 5⟩, ⟨8, 8⟩], 0, 3, 3⟩) ⟨by decide, by decide⟩ ?_
    exact .cons (show _ = _ by decide) .nil
  exact (reservation_map h).2.2.2.1

/-- A reservation of no page succeeds and leaves a zero-size region although
nothing failed. -/
theorem empty_reservation_leaves_region :
    ¬ ∀ (b : ℤ) (es : List Event) (s : Inode), Run (Step b) Inode.empty es s →
      ∀ rg ∈ s.privateList, rg.fromPage = rg.toPage →
        ∃ f t out ret, Event.reserve f t out ret ∈ es ∧ ret ≠ 0 := by
  intro hall
  have hrun : Run (Step 4096) Inode.empty [.reserve 5 5 ⟨true, 0, 0⟩ 0] ⟨[⟨5, 5⟩], 0, 0, 0⟩ :=
    .cons ⟨by decide, by decide⟩ .nil
  obtain ⟨f, t, out, ret, hmem, hret⟩ := hall 4096 _ _ hrun ⟨5, 5⟩ (by simp) rfl
  simp only [List.mem_singleton, Event.reserve.injEq] at hmem
  exact hret hmem.2.2.2

end BooxKernel.Hugetlb
