import BooxKernel.Mmap.Model

/-!
# The map of an address space

What the areas of a process are for: each page is mapped with certain flags to a page of a
file, or is not mapped. Splitting a region and moving the boundary of two regions that fit
together do not change this map.
-/
namespace BooxKernel.Mmap
open List Set Nat

variable {c : Config} {F : Type}

/-- How one page is mapped. -/
@[ext]
structure Mapping (c : Config) (F : Type) where
  flags : ℕ
  file : Option F
  pgoff : BitVec c.bits

namespace Region

/-- The region has at least one page and only whole pages. -/
structure Ok (a : Region c F) : Prop where
  lt : a.vmStart < a.vmEnd
  start_dvd : c.pageSize ∣ a.vmStart
  end_dvd : c.pageSize ∣ a.vmEnd
  end_lt : a.vmEnd < 2 ^ c.bits

/-- The page number `p` is in the region. -/
def Covers (a : Region c F) (p : ℕ) : Prop := a.vmStart ≤ p * c.pageSize ∧ p * c.pageSize < a.vmEnd

instance (a : Region c F) (p : ℕ) : Decidable (a.Covers p) := instDecidableAnd

/-- How the region maps its page number `p`. -/
def mappingAt (a : Region c F) (p : ℕ) : Mapping c F :=
  ⟨a.vmFlags, a.vmFile, a.vmPgoff + BitVec.ofNat c.bits (p - a.vmStart / c.pageSize)⟩

def mapPage (a : Region c F) (p : ℕ) : Option (Mapping c F) :=
  if a.Covers p then some (a.mappingAt p) else none

end Region

/-- The map of all pages. -/
def mapOf (as : List (Region c F)) (p : ℕ) : Option (Mapping c F) :=
  as.findSome? fun a => a.mapPage p

/-- The regions are apart and in the order of their addresses. -/
structure Sorted (as : List (Region c F)) : Prop where
  ok : ∀ a ∈ as, a.Ok
  apart : as.Pairwise fun a b => a.vmEnd ≤ b.vmStart

/-- `b` goes on where `a` ends, with the same flags and the file pages that follow. -/
structure Fits (a b : Region c F) : Prop where
  touch : a.vmEnd = b.vmStart
  flags : a.vmFlags = b.vmFlags
  file : a.vmFile = b.vmFile
  pgoff : b.vmPgoff = a.vmPgoff + BitVec.ofNat c.bits a.vmaPages

variable {a b r : Region c F} {as bs cs : List (Region c F)} {p : ℕ}

@[simp] lemma mapOf_nil : mapOf ([] : List (Region c F)) p = none := rfl

@[simp] lemma mapOf_cons : mapOf (a :: as) p = (a.mapPage p).or (mapOf as p) := by
  rw [mapOf, findSome?_cons]
  cases a.mapPage p <;> rfl

@[simp] lemma mapOf_append : mapOf (as ++ bs) p = (mapOf as p).or (mapOf bs p) := by
  rw [mapOf, findSome?_append]
  rfl

lemma mapPage_join (hfits : Fits a b) (ha : a.Ok) (hb : b.Ok) :
    ({ a with vmEnd := b.vmEnd } : Region c F).mapPage p = (a.mapPage p).or (b.mapPage p) := by
  obtain ⟨i, hi⟩ := ha.start_dvd
  obtain ⟨j, hj⟩ := hb.start_dvd
  have hlt := ha.lt
  have hlt' := hb.lt
  have htouch := hfits.touch
  have hpos : 0 < c.pageSize := Nat.two_pow_pos _
  have hij : i < j := by
    have : c.pageSize * i < c.pageSize * j := by omega
    exact Nat.lt_of_mul_lt_mul_left this
  have hpages : a.vmaPages = j - i := by
    rw [Region.vmaPages, htouch, hi, hj, ← Nat.mul_sub, Nat.mul_div_cancel_left _ hpos]
  by_cases hp : p * c.pageSize < b.vmStart
  · have hleft : a.Covers p ↔ ({ a with vmEnd := b.vmEnd } : Region c F).Covers p := by
      simp only [Region.Covers]
      omega
    have hright : ¬b.Covers p := by simp only [Region.Covers]; omega
    simp [Region.mapPage, hright, hleft, Region.mappingAt]
  · have hleft : ¬a.Covers p := by simp only [Region.Covers]; omega
    have hright : b.Covers p ↔ ({ a with vmEnd := b.vmEnd } : Region c F).Covers p := by
      simp only [Region.Covers]
      omega
    have hjp : j ≤ p := by
      rw [not_lt, hj, mul_comm p] at hp
      exact le_of_mul_le_mul_left hp hpos
    have hpgoff : a.mappingAt p = b.mappingAt p := by
      simp only [Region.mappingAt, hfits.flags, hfits.file, hfits.pgoff, hpages, hi, hj,
        Nat.mul_div_cancel_left _ hpos, BitVec.add_assoc, ← BitVec.ofNat_add]
      rw [show j - i + (p - j) = p - i by omega]
    simp only [Region.mapPage, hleft, hright, if_false, Option.none_or]
    split_ifs
    · rw [← hpgoff]
      rfl
    · rfl

lemma mapPage_eq_none : a.mapPage p = none ↔ ¬a.Covers p := by
  simp [Region.mapPage]

lemma mapOf_eq_none : mapOf as p = none ↔ ∀ a ∈ as, ¬a.Covers p := by
  simp [mapOf, findSome?_eq_none_iff, mapPage_eq_none]

lemma Region.Ok.covers_iff (h : a.Ok) :
    a.Covers p ↔ a.vmStart / c.pageSize ≤ p ∧ p < a.vmEnd / c.pageSize := by
  obtain ⟨i, hi⟩ := h.start_dvd
  obtain ⟨j, hj⟩ := h.end_dvd
  have hpos : 0 < c.pageSize := Nat.two_pow_pos _
  rw [Region.Covers, hi, hj, Nat.mul_div_cancel_left _ hpos, Nat.mul_div_cancel_left _ hpos,
    mul_comm p, Nat.mul_le_mul_left_iff hpos, Nat.mul_lt_mul_left hpos]

lemma Region.Ok.vmaPages_eq (h : a.Ok) :
    a.vmaPages = a.vmEnd / c.pageSize - a.vmStart / c.pageSize := by
  obtain ⟨i, hi⟩ := h.start_dvd
  have hpos : 0 < c.pageSize := Nat.two_pow_pos _
  rw [Region.vmaPages, hi, sub_mul_div, Nat.mul_div_cancel_left _ hpos]

lemma Sorted.nil : Sorted ([] : List (Region c F)) := ⟨by simp, .nil⟩

lemma sorted_cons : Sorted (a :: as) ↔ a.Ok ∧ Sorted as ∧ ∀ b ∈ as, a.vmEnd ≤ b.vmStart := by
  constructor
  · rintro ⟨hok, hapart⟩
    obtain ⟨ha, hapart⟩ := pairwise_cons.1 hapart
    exact ⟨hok a (by simp), ⟨fun b hb => hok b (by simp [hb]), hapart⟩, ha⟩
  · rintro ⟨ha, ⟨hok, hapart⟩, hle⟩
    exact ⟨forall_mem_cons.2 ⟨ha, hok⟩, pairwise_cons.2 ⟨hle, hapart⟩⟩

lemma sorted_append :
    Sorted (as ++ bs) ↔ Sorted as ∧ Sorted bs ∧ ∀ a ∈ as, ∀ b ∈ bs, a.vmEnd ≤ b.vmStart := by
  constructor
  · rintro ⟨hok, hapart⟩
    obtain ⟨has, hbs, hle⟩ := pairwise_append.1 hapart
    exact ⟨⟨fun a ha => hok a (by simp [ha]), has⟩, ⟨fun b hb => hok b (by simp [hb]), hbs⟩, hle⟩
  · rintro ⟨has, hbs, hle⟩
    refine ⟨fun a ha => ?_, pairwise_append.2 ⟨has.apart, hbs.apart, hle⟩⟩
    exact (mem_append.1 ha).elim (has.ok a) (hbs.ok a)

lemma Sorted.replace (h : Sorted (as ++ a :: bs)) (hcs : Sorted cs)
    (hstart : ∀ r ∈ cs, a.vmStart ≤ r.vmStart) (hend : ∀ r ∈ cs, r.vmEnd ≤ a.vmEnd) :
    Sorted (as ++ cs ++ bs) := by
  simp only [sorted_append, sorted_cons, mem_append, mem_cons] at h ⊢
  obtain ⟨has, ⟨-, hbs, hab⟩, hle⟩ := h
  refine ⟨⟨has, hcs, fun x hx r hr => (hle x hx a (.inl rfl)).trans (hstart r hr)⟩, hbs, ?_⟩
  rintro x (hx | hx) y hy
  · exact hle x hx y (.inr hy)
  · exact (hend x hx).trans (hab y hy)

lemma Sorted.ncard_mapped (h : Sorted as) :
    {p | mapOf as p ≠ none}.Finite ∧
      {p | mapOf as p ≠ none}.ncard = (as.map Region.vmaPages).sum := by
  induction as with
  | nil => simp
  | cons a as ih =>
    obtain ⟨ha, hrest, hapart⟩ := sorted_cons.1 h
    obtain ⟨hfinite, hcard⟩ := ih hrest
    have hpages : {p | a.Covers p} = Set.Ico (a.vmStart / c.pageSize) (a.vmEnd / c.pageSize) := by
      ext p
      simp [ha.covers_iff]
    have hunion : {p | mapOf (a :: as) p ≠ none} = {p | a.Covers p} ∪ {p | mapOf as p ≠ none} := by
      ext p
      simp only [mapOf_cons, ne_eq, Option.or_eq_none_iff, mapPage_eq_none, mem_union,
        mem_ofPred_eq]
      tauto
    have hdisjoint : Disjoint {p | a.Covers p} {p | mapOf as p ≠ none} := by
      rw [Set.disjoint_left]
      intro p hp hmapped
      refine hmapped (mapOf_eq_none.2 fun b hb hbp => ?_)
      have hle := hapart b hb
      have hlt := hp.2
      have hge := hbp.1
      omega
    have hafinite : {p | a.Covers p}.Finite := hpages ▸ finite_Ico _ _
    rw [hunion]
    refine ⟨hafinite.union hfinite, ?_⟩
    rw [ncard_union_eq hdisjoint hafinite hfinite, hcard, hpages, map_cons,
      sum_cons, ha.vmaPages_eq]
    rw [ncard_eq_toFinset_card', toFinset_Ico, card_Ico]

end BooxKernel.Mmap
