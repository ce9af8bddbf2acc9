import BooxKernel.Buddy.Invariant
import BooxKernel.Lib.Runs

/-!
# Runs of the buddy allocator

Every call keeps the invariant: `expand` splits the block it holds, `__free_one_page`
joins it with its buddy, and moving blocks between the lists of an order does not change
the free blocks.
-/
namespace BooxKernel.Buddy
open Buddies Queues Runs List Nat Block

variable {c : Config} {P : Finset ℕ} {z : Zone} {taken : Set Block} {deficit : ℤ}

section Free
variable {page order : ℕ}

lemma second_mod {q k n : ℕ} (hq : 2 ^ (k + 1) ∣ q) (hk : k < n) :
    (q + 2 ^ k) % 2 ^ n = q % 2 ^ n + 2 ^ k := by
  obtain ⟨a, ha⟩ := (dvd_mod_iff (pow_dvd_pow 2 hk)).2 hq
  obtain ⟨b, hb⟩ : 2 ^ (k + 1) ∣ 2 ^ n := pow_dvd_pow 2 hk
  have hlt : q % 2 ^ n < 2 ^ n := mod_lt _ (by positivity)
  have hab : a < b := by
    rw [ha, hb] at hlt
    exact lt_of_mul_lt_mul_left hlt (zero_le _)
  have hroom : q % 2 ^ n + 2 ^ k < 2 ^ n := by
    have : 2 ^ (k + 1) * (a + 1) ≤ 2 ^ (k + 1) * b := mul_le_mul_left _ hab
    rw [ha, hb]
    calc 2 ^ (k + 1) * a + 2 ^ k < 2 ^ (k + 1) * a + 2 ^ (k + 1) := by rw [pow_succ]; omega
      _ = 2 ^ (k + 1) * (a + 1) := by ring
      _ ≤ 2 ^ (k + 1) * b := this
  rw [add_mod, mod_eq_of_lt (lt_of_le_of_lt (le_add_left _ _) hroom), mod_eq_of_lt hroom]

lemma pageFindBuddy_eq (h : 2 ^ order ∣ page) (hlt : order < c.maxOrder) :
    pageFindBuddy page (page % 2 ^ c.maxOrder) order = page ^^^ 2 ^ order := by
  unfold pageFindBuddy
  rcases first_or_second h with hp | ⟨q, hq, rfl⟩
  · rw [xor_of_first hp, xor_of_first ((dvd_mod_iff (pow_dvd_pow 2 hlt)).2 hp)]
    omega
  · rw [xor_of_second hq, second_mod hq hlt,
      xor_of_second ((dvd_mod_iff (pow_dvd_pow 2 hlt)).2 hq)]
    omega

lemma findCombinedIndex_eq (h : 2 ^ order ∣ page) (hlt : order < c.maxOrder) :
    findCombinedIndex (page % 2 ^ c.maxOrder) order = ldiff page (2 ^ order) % 2 ^ c.maxOrder ∧
      page + findCombinedIndex (page % 2 ^ c.maxOrder) order - page % 2 ^ c.maxOrder =
        ldiff page (2 ^ order) := by
  unfold findCombinedIndex
  rcases first_or_second h with hp | ⟨q, hq, rfl⟩
  · rw [ldiff_of_first hp, ldiff_of_first ((dvd_mod_iff (pow_dvd_pow 2 hlt)).2 hp)]
    exact ⟨rfl, by omega⟩
  · rw [ldiff_of_second hq, second_mod hq hlt,
      ldiff_of_second ((dvd_mod_iff (pow_dvd_pow 2 hlt)).2 hq)]
    exact ⟨rfl, by omega⟩

lemma Inv.pageIsBuddy_iff (h : Inv c P z taken deficit) (hzone : ∀ x ∈ P, c.inZone x = true)
    (b : Block) : pageIsBuddy c z b.start b.order = true ↔ b ∈ z.free := by
  rw [h.marked]
  simp only [pageIsBuddy, Bool.and_eq_true, beq_iff_eq]
  constructor
  · exact fun hb => ⟨hb.1.2, hb.2⟩
  · intro hb
    have hfree := (h.marked b).2 hb
    exact ⟨⟨hzone _ ((h.tiling.cover _).2 ⟨b, .inr hfree, b.start_mem_pages⟩), hb.1⟩, hb.2⟩

lemma freeLoop_inv {z : Zone} {page order : ℕ} (hzone : ∀ x ∈ P, c.inZone x = true)
    (m : Migratetype) (horder : order < c.maxOrder) (hout : ⟨page, order⟩ ∉ taken)
    (h : Inv c P z (insert ⟨page, order⟩ taken) (-2 ^ order)) :
    Inv c P (freeLoop c z page (page % 2 ^ c.maxOrder) order m) taken 0 := by
  have halign : 2 ^ order ∣ page := h.tiling.aligned ⟨page, order⟩ (.inl (Set.mem_insert _ _))
  have hiff := h.pageIsBuddy_iff hzone (buddy ⟨page, order⟩)
  obtain ⟨hindex, hcombined⟩ := findCombinedIndex_eq (c := c) halign horder
  rw [freeLoop, pageFindBuddy_eq halign horder]
  split_ifs with hcond
  · obtain ⟨hlt, hbuddy⟩ := hcond
    have hfree : buddy ⟨page, order⟩ ∈ z.free := hiff.1 hbuddy
    have hbuddyout : buddy ⟨page, order⟩ ∉ taken := fun hmem => h.apart _ (.inr hmem) hfree
    obtain ⟨hjoined, hjoinedout⟩ := (h.take hfree).join hout hbuddyout
    show Inv c P (freeLoop c (take z (buddy ⟨page, order⟩))
      (page + findCombinedIndex (page % 2 ^ c.maxOrder) order - page % 2 ^ c.maxOrder)
      (findCombinedIndex (page % 2 ^ c.maxOrder) order) (order + 1) m) taken 0
    rw [hcombined, hindex]
    have hnext : order + 1 < c.maxOrder := by omega
    apply freeLoop_inv hzone m hnext hjoinedout
    have hdeficit : -2 ^ order - 2 ^ (buddy ⟨page, order⟩).order = -(2 ^ (order + 1) : ℤ) := by
      simp only [buddy, pow_succ]
      ring
    rw [← hdeficit]
    exact hjoined
  · have hput := h.put hout horder
      (fun (hlt : order + 1 < c.maxOrder) hfree => hcond ⟨by omega, hiff.2 hfree⟩) m
    rw [neg_add_cancel] at hput
    exact hput
termination_by c.maxOrder - order

lemma freeOnePage_inv (hzone : ∀ x ∈ P, c.inZone x = true) (horder : order < c.maxOrder)
    (hout : ⟨page, order⟩ ∉ taken) (h : Inv c P z (insert ⟨page, order⟩ taken) 0) :
    Inv c P (freeOnePage c z page order) taken 0 := by
  apply freeLoop_inv hzone _ horder hout
  rw [← zero_sub]
  exact h.modFreePages _

end Free

section Rmqueue
variable {page order low endPage pagesMoved currentOrder : ℕ} {m : Migratetype} {r : ℕ × Zone}

lemma expand_inv (m : Migratetype) (high : ℕ) (hle : low ≤ high) (hhigh : high < c.maxOrder)
    (hout : ⟨page, high⟩ ∉ taken) (h : Inv c P z (insert ⟨page, high⟩ taken) deficit) :
    Inv c P (expand z page low m high) (insert ⟨page, low⟩ taken) (deficit + 2 ^ high - 2 ^ low) ∧
      (⟨page, low⟩ : Block) ∉ taken := by
  induction high generalizing z deficit with
  | zero =>
    obtain rfl : low = 0 := by omega
    simp only [expand, add_sub_cancel_right]
    exact ⟨h, hout⟩
  | succ high ih =>
    simp only [expand]
    split_ifs with hlt
    · have hsplit := h.split hout
      have hhalf : ∀ b : Block, b.order = high → b.start ∈ (⟨page, high + 1⟩ : Block).pages →
          b ∉ taken := by
        intro b hb hstart hmem
        have heq := h.eq_of_mem (.inl (.inr hmem)) (.inl (Set.mem_insert _ _))
          b.start_mem_pages hstart
        rw [heq] at hb
        exact absurd hb (succ_ne_self high)
      have hfirst := hhalf ⟨page, high⟩ rfl (mem_halves.1 (.inl (start_mem_pages _)))
      have hsecond := hhalf ⟨page + 2 ^ high, high⟩ rfl
        (mem_halves.1 (.inr (start_mem_pages _)))
      have halign : 2 ^ (high + 1) ∣ page :=
        h.tiling.aligned ⟨page, high + 1⟩ (.inl (Set.mem_insert _ _))
      have hbuddy : buddy ⟨page + 2 ^ high, high⟩ = ⟨page, high⟩ := by
        rw [buddy, xor_of_second halign]
      have hfree : (⟨page, high⟩ : Block) ∉ z.free := hsplit.apart _ (Set.mem_insert _ _)
      rw [Set.insert_comm] at hsplit
      have hput := hsplit.put (fun hmem => hmem.elim (fun heq => halves_ne heq.symm) hsecond)
        (by simp only; omega) (fun _ => hbuddy ▸ hfree) m
      obtain ⟨hrest, hlow⟩ := ih (by omega) (by omega) hfirst hput
      refine ⟨?_, hlow⟩
      have hdeficit : deficit + 2 ^ high + 2 ^ high - 2 ^ low = deficit + 2 ^ (high + 1) - 2 ^ low := by
        ring
      rw [← hdeficit]
      exact hrest
    · obtain rfl : low = high + 1 := by omega
      rw [add_sub_cancel_right]
      exact ⟨h, hout⟩

/-- A call has taken a block of the order that was not out before. -/
abbrev Handed (c : Config) (P : Finset ℕ) (taken : Set Block) (order : ℕ) (r : ℕ × Zone) : Prop :=
  Inv c P r.2 (insert ⟨r.1, order⟩ taken) 0 ∧ (⟨r.1, order⟩ : Block) ∉ taken

lemma Inv.take_mod {b : Block} (h : Inv c P z taken 0) (hb : b ∈ z.free) (order : ℕ) :
    Inv c P (Buddy.modFreePages (Buddy.take z b) (-2 ^ order)) (insert b taken)
      (2 ^ order - 2 ^ b.order) := by
  have hmod := (h.take hb).modFreePages (-2 ^ order)
  rwa [show 0 - 2 ^ b.order - -2 ^ order = (2 ^ order - 2 ^ b.order : ℤ) by ring] at hmod

lemma Inv.expand_taken {b : Block} (h : Inv c P z (insert b taken) (2 ^ order - 2 ^ b.order))
    (hb : b ∉ taken) (hlt : b.order < c.maxOrder) (horder : order ≤ b.order) (m : Migratetype) :
    Handed c P taken order (b.start, expand z b.start order m b.order) := by
  have hexpand := expand_inv m b.order horder hlt hb h
  rwa [show 2 ^ order - 2 ^ b.order + 2 ^ b.order - 2 ^ order = (0 : ℤ) by ring] at hexpand

lemma rmqueueSmallest_inv (h : Inv c P z taken 0) (hr : rmqueueSmallest c z order m = some r) :
    Handed c P taken order r := by
  have hloop : ∀ orders, (∀ k ∈ orders, order ≤ k) → smallestLoop z order m orders = some r →
      Handed c P taken order r := by
    intro orders horders hr
    induction orders with
    | nil => cases hr
    | cons k orders ih =>
      rw [smallestLoop] at hr
      split at hr
      · exact ih (fun k hk => horders k (mem_cons_of_mem _ hk)) hr
      · next page rest hlist =>
        obtain rfl := Option.some.inj hr
        have hb : (⟨page, k⟩ : Block) ∈ z.free := ⟨m, hlist ▸ mem_cons_self⟩
        exact (h.take_mod hb order).expand_taken (fun hmem => h.apart _ hmem hb)
          (h.order_lt _ hb) (horders k mem_cons_self) m
  exact hloop _ (fun k hk => (mem_range'_1.1 hk).1) hr

section
variable (h : Inv c P z taken deficit) (m : Migratetype)
include h

lemma Inv.move {b : Block} (hb : b ∈ z.free) :
    Inv c P (listAdd (listDel z b.start) b.start b.order m) taken deficit ∧
      (listAdd (listDel z b.start) b.start b.order m).free = z.free := by
  obtain ⟨m0, hm0⟩ := hb
  have hmem : ∀ p k m', p ∈ (listAdd (listDel z b.start) b.start b.order m).freeList (k, m') ↔
      p ∈ z.freeList (k, m') ∧ p ≠ b.start ∨ p = b.start ∧ (k, m') = (b.order, m) := by
    intro p k m'
    show p ∈ add (b.order, m) b.start (del b.start z.freeList) (k, m') ↔ _
    rw [mem_add, h.queued.mem_del]
  have hfree : (listAdd (listDel z b.start) b.start b.order m).free = z.free := by
    ext x
    simp only [Zone.free, Set.mem_ofPred_eq, hmem]
    constructor
    · rintro ⟨m', ⟨hx, -⟩ | ⟨hstart, hlist⟩⟩
      · exact ⟨m', hx⟩
      · obtain ⟨horder, -⟩ := Prod.mk.inj hlist
        exact ⟨m0, by rwa [hstart, horder]⟩
    · rintro ⟨m', hx⟩
      by_cases hstart : x.start = b.start
      · have horder : x.order = b.order := by
          rw [hstart] at hx
          exact congrArg Prod.fst (h.queued.unique hx hm0)
        exact ⟨m, .inr ⟨hstart, by rw [horder]⟩⟩
      · exact ⟨m', .inl ⟨hx, hstart⟩⟩
  refine ⟨⟨(h.queued.del b.start).add fun r hr => (h.queued.mem_del.1 hr).2 rfl, ?_, ?_, ?_, ?_, ?_,
    ?_, ?_⟩, hfree⟩
  · rw [hfree]
    exact h.marked
  · rw [hfree]
    exact h.order_lt
  · rw [hfree]
    exact h.tiling
  · rw [hfree]
    exact h.apart
  · rw [hfree]
    exact h.noPair
  · intro order horder
    show z.nrFree order = ∑ m', ((add (b.order, m) b.start (del b.start z.freeList)
      (order, m')).length : ℤ)
    rw [h.nrFree order horder]
    simp only [← h.queued.length_del hm0 (order, _), length_add, cast_add, cast_ite, cast_one,
      cast_zero, Finset.sum_add_distrib]
    by_cases heq : order = b.order
    · simp [heq]
    · simp [heq]
  · unfold Zone.freePages
    rw [hfree]
    exact h.nrFreePages

lemma moveFreepages_inv : let z' := (moveFreepages c z page endPage m pagesMoved).2
    Inv c P z' taken deficit ∧ z'.free = z.free := by
  fun_induction moveFreepages c z page endPage m pagesMoved with
  | case1 z page pagesMoved hle hskip ih => exact ih h
  | case2 z page pagesMoved hle hskip order ih =>
    have hbuddy : z.buddy page = true := by
      rw [Bool.or_eq_true, not_or] at hskip
      simpa using hskip.2
    have hb : (⟨page, z.pageOrder page⟩ : Block) ∈ z.free := (h.marked _).2 ⟨hbuddy, rfl⟩
    obtain ⟨hmoved, hfree⟩ := h.move m hb
    obtain ⟨hrest, hfree'⟩ := ih hmoved
    exact ⟨hrest, hfree'.trans hfree⟩
  | case3 => exact ⟨h, rfl⟩

lemma stealBlock_inv (page : ℕ) :
    Inv c P (stealBlock c z page m) taken deficit ∧ (stealBlock c z page m).free = z.free := by
  have hmoved : Inv c P (moveFreepagesBlock c z page m).2 taken deficit ∧
      (moveFreepagesBlock c z page m).2.free = z.free := by
    simp only [moveFreepagesBlock]
    split_ifs
    · exact ⟨h, rfl⟩
    · exact moveFreepages_inv h m
    · exact moveFreepages_inv h m
  simp only [stealBlock]
  split_ifs
  · exact ⟨hmoved.1.setPageblockMigratetype page m, hmoved.2⟩
  · exact hmoved

end

lemma moveFreepages_incNrFree (k : ℕ) (n : ℤ) (m : Migratetype) :
    moveFreepages c (incNrFree z k n) page endPage m pagesMoved =
      ((moveFreepages c z page endPage m pagesMoved).1,
        incNrFree (moveFreepages c z page endPage m pagesMoved).2 k n) := by
  fun_induction moveFreepages c z page endPage m pagesMoved with
  | case1 z page pagesMoved hle hskip ih =>
    rw [moveFreepages, if_pos hle, if_pos
      (show (!c.inZone page || !(incNrFree z k n).buddy page) = true from hskip)]
    exact ih
  | case2 z page pagesMoved hle hskip order ih =>
    rw [moveFreepages, if_pos hle, if_neg
      (show ¬ (!c.inZone page || !(incNrFree z k n).buddy page) = true from hskip)]
    exact ih
  | case3 z page pagesMoved hlt =>
    rw [moveFreepages, if_neg hlt]

lemma stealBlock_incNrFree (k : ℕ) (n : ℤ) (m : Migratetype) :
    stealBlock c (incNrFree z k n) page m = incNrFree (stealBlock c z page m) k n := by
  have hmoved : moveFreepagesBlock c (incNrFree z k n) page m =
      ((moveFreepagesBlock c z page m).1, incNrFree (moveFreepagesBlock c z page m).2 k n) := by
    simp only [moveFreepagesBlock, moveFreepages_incNrFree]
    split_ifs <;> rfl
  simp only [stealBlock, hmoved]
  split_ifs <;> rfl

lemma takeFallback_inv {startMigratetype : Migratetype} (h : Inv c P z taken 0)
    (hb : ⟨page, currentOrder⟩ ∈ z.free) (horder : order ≤ currentOrder) :
    let r := takeFallback c z page order currentOrder startMigratetype m
    Handed c P taken order r := by
  have hout : (⟨page, currentOrder⟩ : Block) ∉ taken := fun hmem => h.apart _ hmem hb
  have hrest : ∀ z1 m1, Inv c P z1 taken 0 → z1.free = z.free →
      let z2 := modFreePages (take z1 ⟨page, currentOrder⟩) (-2 ^ order)
      Handed c P taken order (page, expand (if currentOrder = c.pageblockOrder then
        setPageblockMigratetype c z2 page startMigratetype else z2) page order m1 currentOrder) := by
    intro z1 m1 h1 hfree z2
    have hz2 : Inv c P z2 (insert ⟨page, currentOrder⟩ taken) (2 ^ order - 2 ^ currentOrder) :=
      h1.take_mod (hfree ▸ hb) order
    split_ifs
    · exact (hz2.setPageblockMigratetype page startMigratetype).expand_taken
        (b := ⟨page, currentOrder⟩) hout (h.order_lt _ hb) horder m1
    · exact hz2.expand_taken (b := ⟨page, currentOrder⟩) hout (h.order_lt _ hb) horder m1
  simp only [takeFallback]
  cases decide (c.pageblockOrder / 2 ≤ currentOrder) || startMigratetype == .reclaimable with
  | true =>
    rw [stealBlock_incNrFree]
    obtain ⟨hsteal, hfree⟩ := stealBlock_inv h startMigratetype page
    exact hrest _ _ hsteal hfree
  | false => exact hrest z m h rfl

lemma rmqueueFallback_inv (h : Inv c P z taken 0) (hr : rmqueueFallback c z order m = some r) :
    Handed c P taken order r := by
  have htypes : ∀ k, order ≤ k → ∀ ms, fallbackTypes c z order k m ms = some r →
      Handed c P taken order r := by
    intro k hk ms hr
    induction ms with
    | nil => cases hr
    | cons m' ms ih =>
      rw [fallbackTypes] at hr
      split_ifs at hr
      · exact ih hr
      · split at hr
        · exact ih hr
        · next page rest hlist =>
          obtain rfl := Option.some.inj hr
          exact takeFallback_inv h ⟨m', hlist ▸ mem_cons_self⟩ hk
  have hloop : ∀ orders, (∀ k ∈ orders, order ≤ k) → fallbackLoop c z order m orders = some r →
      Handed c P taken order r := by
    intro orders horders hr
    induction orders with
    | nil => exact rmqueueSmallest_inv h hr
    | cons k orders ih =>
      rw [fallbackLoop] at hr
      split at hr
      · next r' hr' =>
        obtain rfl := Option.some.inj hr
        exact htypes k (horders k mem_cons_self) _ hr'
      · exact ih (fun k hk => horders k (mem_cons_of_mem _ hk)) hr
  exact hloop _ (fun k hk => (mem_range'_1.1 (mem_reverse.1 hk)).1) hr

lemma rmqueue_inv (h : Inv c P z taken 0) (hr : rmqueue c z order m = some r) :
    Handed c P taken order r := by
  unfold rmqueue at hr
  split at hr
  · next r' hr' =>
    obtain rfl := Option.some.inj hr
    exact rmqueueSmallest_inv h hr'
  · exact rmqueueFallback_inv h hr

end Rmqueue

section Runs
variable {s s₀ s' : State} {es : List Event}

/-- The invariant of a zone between the calls. -/
structure Sound (c : Config) (P : Finset ℕ) (s : State) : Prop where
  /-- Every page belongs to exactly one free or outstanding block. -/
  tiled : ∀ x ∈ P, ∃! b : Block, (b ∈ s.outstanding ∨ b ∈ s.zone.free) ∧ x ∈ b.pages
  inside : ∀ b : Block, b ∈ s.outstanding ∨ b ∈ s.zone.free → b.pages ⊆ P
  apart : ∀ b ∈ s.outstanding, b ∉ s.zone.free
  queued : Queued s.zone.freeList
  order_lt : ∀ b : Block, b ∈ s.outstanding ∨ b ∈ s.zone.free → b.order < c.maxOrder
  aligned : ∀ b : Block, b ∈ s.outstanding ∨ b ∈ s.zone.free → 2 ^ b.order ∣ b.start
  marked : ∀ b : Block,
    b ∈ s.zone.free ↔ s.zone.buddy b.start = true ∧ s.zone.pageOrder b.start = b.order
  nrFree : ∀ order < c.maxOrder,
    s.zone.nrFree order = ∑ m, ((s.zone.freeList (order, m)).length : ℤ)
  nrFreePages : s.zone.nrFreePages = s.zone.freePages.ncard
  noPair : ∀ b ∈ s.zone.free, b.order + 1 < c.maxOrder → b.buddy ∉ s.zone.free

lemma Sound.inv (h : Sound c P s) : Inv c P s.zone s.outstanding 0 where
  queued := h.queued
  marked := h.marked
  order_lt b hb := h.order_lt b (.inr hb)
  tiling := by
    refine ⟨h.aligned, ?_, ?_⟩
    · intro b hb b' hb' x hx hx'
      exact (h.tiled x (h.inside b hb hx)).unique ⟨hb, hx⟩ ⟨hb', hx'⟩
    · intro x
      constructor
      · intro hx
        obtain ⟨b, hb, -⟩ := h.tiled x hx
        exact ⟨b, hb.1, hb.2⟩
      · rintro ⟨b, hb, hx⟩
        exact h.inside b hb hx
  apart := h.apart
  noPair := h.noPair
  nrFree := h.nrFree
  nrFreePages := by rw [add_zero, h.nrFreePages]

lemma Inv.sound (h : Inv c P s.zone s.outstanding 0)
    (horder : ∀ b ∈ s.outstanding, b.order < c.maxOrder) : Sound c P s where
  tiled x hx := by
    obtain ⟨b, hb, hxb⟩ := (h.tiling.cover x).1 hx
    exact ⟨b, ⟨hb, hxb⟩, fun b' hb' => h.eq_of_mem hb'.1 hb hb'.2 hxb⟩
  inside b hb x hx := (h.tiling.cover x).2 ⟨b, hb, hx⟩
  apart := h.apart
  queued := h.queued
  order_lt b hb := hb.elim (horder b) (h.order_lt b)
  aligned b hb := h.tiling.aligned b hb
  marked := h.marked
  nrFree := h.nrFree
  nrFreePages := by rw [← h.nrFreePages, add_zero]
  noPair := h.noPair

lemma step_sound {e : Event} (hzone : ∀ x ∈ P, c.inZone x = true) (h : Sound c P s)
    (hstep : Step c s e s') : Sound c P s' := by
  cases e with
  | rmqueue order m result =>
    obtain ⟨horder, hresult⟩ := hstep
    cases hr : rmqueue c s.zone order m with
    | none =>
      rw [hr] at hresult
      exact hresult.2 ▸ h
    | some r =>
      rw [hr] at hresult
      obtain ⟨-, rfl⟩ := hresult
      apply (rmqueue_inv h.inv hr).1.sound
      rintro b (rfl | hb)
      · exact horder
      · exact h.order_lt b (.inl hb)
  | free page order =>
    obtain ⟨hmem, rfl⟩ := hstep
    have hinv := h.inv
    rw [← Set.insert_eq_of_mem hmem, ← Set.insert_sdiff_singleton] at hinv
    have hlt : order < c.maxOrder := h.order_lt ⟨page, order⟩ (.inl hmem)
    apply (freeOnePage_inv hzone hlt (fun hin => hin.2 rfl) hinv).sound
    exact fun b hb => h.order_lt b (.inl hb.1)

/-- The invariant of the buddy allocator over any run. A block that is taken was not
outstanding before. -/
theorem buddy_allocator_sound (hzone : ∀ x ∈ P, c.inZone x = true) (h₀ : Sound c P s₀)
    (hrun : Run (Step c) s₀ es s) :
    Sound c P s ∧ ∀ order m page s', Step c s (.rmqueue order m (some page)) s' →
      (⟨page, order⟩ : Block) ∉ s.outstanding := by
  have h := hrun.invariant (I := Sound c P) h₀ fun _ _ _ h hs => step_sound hzone h hs
  refine ⟨h, fun order m page s' hstep => ?_⟩
  obtain ⟨-, hresult⟩ := hstep
  cases hr : rmqueue c s.zone order m with
  | none =>
    rw [hr] at hresult
    exact absurd hresult.1 (Option.some_ne_none page)
  | some r =>
    rw [hr] at hresult
    obtain ⟨hpage, -⟩ := hresult
    obtain rfl := Option.some.inj hpage
    exact (rmqueue_inv h.inv hr).2

/-- A zone of two pages, which are one free block. -/
def twoPageZone : Zone where
  freeList p := if p = (1, .movable) then [0] else []
  nrFree order := if order = 1 then 1 else 0
  nrFreePages := 2
  buddy page := page == 0
  pageOrder page := if page = 0 then 1 else 0
  pageblock _ := .movable

def twoPageConfig : Config := ⟨2, 1, false, 0, 2, fun page => page < 2, by decide, by decide⟩

lemma mem_twoPageZone_free (b : Block) : b ∈ twoPageZone.free ↔ b = ⟨0, 1⟩ := by
  constructor
  · rintro ⟨m, hm⟩
    by_cases hlist : (b.order, m) = (1, .movable)
    · simp only [twoPageZone, hlist, if_true, mem_singleton] at hm
      exact Block.ext hm (congrArg Prod.fst hlist)
    · simp [twoPageZone, hlist] at hm
  · rintro rfl
    exact ⟨.movable, by simp [twoPageZone]⟩

lemma twoPageZone_sound : Sound twoPageConfig (Finset.range 2) ⟨twoPageZone, ∅⟩ := by
  have hpages : (⟨0, 1⟩ : Block).pages = Finset.range 2 := by decide
  have hfree : ∀ b : Block, b ∈ (∅ : Set Block) ∨ b ∈ twoPageZone.free ↔ b = ⟨0, 1⟩ := by
    intro b
    rw [mem_twoPageZone_free]
    exact or_iff_right (Set.notMem_empty b)
  refine ⟨?_, ?_, ?_, ⟨?_, ?_⟩, ?_, ?_, ?_, ?_, ?_, ?_⟩
  · intro x hx
    simp only [hfree]
    exact ⟨⟨0, 1⟩, ⟨rfl, hpages ▸ hx⟩, fun b hb => hb.1⟩
  · intro b hb
    rw [(hfree b).1 hb, hpages]
  · exact fun b hb => absurd hb (Set.notMem_empty b)
  · intro p
    simp only [twoPageZone]
    split_ifs
    · exact nodup_singleton 0
    · exact nodup_nil
  · intro p p' t hp hp'
    simp only [twoPageZone] at hp hp'
    split_ifs at hp hp' with heq heq'
    · rw [heq, heq']
    · exact absurd hp' not_mem_nil
    · exact absurd hp not_mem_nil
    · exact absurd hp not_mem_nil
  · intro b hb
    rw [(hfree b).1 hb]
    decide
  · intro b hb
    rw [(hfree b).1 hb]
    exact dvd_zero _
  · intro b
    rw [mem_twoPageZone_free]
    simp only [twoPageZone, beq_iff_eq]
    constructor
    · rintro rfl
      exact ⟨rfl, rfl⟩
    · rintro ⟨hstart, horder⟩
      rw [if_pos hstart] at horder
      exact Block.ext hstart horder.symm
  · intro order horder
    have horder : order < 2 := horder
    interval_cases order
    · rfl
    · rfl
  · have hset : twoPageZone.freePages = (Finset.range 2 : Set ℕ) := by
      ext x
      simp only [Zone.freePages, mem_twoPageZone_free, Set.mem_ofPred_eq, exists_eq_left, hpages,
        Finset.mem_coe]
    rw [hset, Set.ncard_coe_finset]
    rfl
  · intro b hb hlt
    rw [(mem_twoPageZone_free b).1 hb] at hlt
    exact absurd hlt (by decide)

/-- Half of the free block is taken, and freed again. -/
theorem buddy_allocator_sound_two_pages :
    ∃ s, Run (Step twoPageConfig) ⟨twoPageZone, ∅⟩
        [.rmqueue 0 .movable (some 0), .free 0 0] s ∧ Sound twoPageConfig (Finset.range 2) s := by
  obtain ⟨s, hrun⟩ : ∃ s, Run (Step twoPageConfig) ⟨twoPageZone, ∅⟩
      [.rmqueue 0 .movable (some 0), .free 0 0] s :=
    ⟨_, .cons ⟨by decide, rfl, rfl⟩ (.cons ⟨Set.mem_insert _ _, rfl⟩ .nil)⟩
  refine ⟨s, hrun, (buddy_allocator_sound (c := twoPageConfig) ?_ twoPageZone_sound hrun).1⟩
  intro x hx
  simpa [twoPageConfig] using hx

end Runs

end BooxKernel.Buddy
