import BooxKernel.Mmap.Splitting

/-!
# `vma_merge`

The request is a region of its own. If the areas beside it fit, one or two of them are joined
with it, and an area below it gives up its pages. The result is the map with the pages of the
request painted over.
-/
namespace BooxKernel.Mmap

open Chains List Option Function Mm Region BitVec

variable {c : Config} {K : Kinds} {V : Type} {mm mm' : Mm c K V} {v w : V}
  {vs vs' xs ys olds news : List V}

section Algebra

variable {F : Type} {a b r : Region c F} {p : ℕ} {z : Option (Mapping c F)}

lemma or_mapPage_comm (h : a.vmEnd ≤ b.vmStart) :
    (a.mapPage p).or ((b.mapPage p).or z) = (b.mapPage p).or ((a.mapPage p).or z) := by
  by_cases ha : a.Covers p
  · have hb : b.mapPage p = none := mapPage_eq_none.2 fun hb =>
      absurd (ha.2.trans_le (h.trans hb.1)) (lt_irrefl _)
    simp [hb]
  · simp [mapPage_eq_none.2 ha]

lemma or_mapPage_hidden (hstart : r.vmStart ≤ a.vmStart) (hend : a.vmEnd ≤ r.vmEnd) :
    (r.mapPage p).or ((a.mapPage p).or z) = (r.mapPage p).or z := by
  by_cases ha : a.Covers p
  · have hr : r.Covers p := ⟨hstart.trans ha.1, ha.2.trans_le hend⟩
    simp [mapPage, hr]
  · simp [mapPage_eq_none.2 ha]

lemma Fits.extend (h : Fits a r) (e : ℕ) : Fits a { r with vmEnd := e } :=
  ⟨h.touch, h.flags, h.file, h.pgoff⟩

lemma Region.Ok.join (ha : a.Ok) (hb : b.Ok) (hle : a.vmEnd ≤ b.vmStart) :
    ({ a with vmEnd := b.vmEnd } : Region c F).Ok :=
  ⟨ha.lt.trans_le (hle.trans hb.lt.le), ha.start_dvd, hb.end_dvd, hb.end_lt⟩

lemma mapPage_join_three {b' : Region c F} (hab : Fits a r) (hrb : Fits r b') (ha : a.Ok)
    (hr : r.Ok) (hb : b'.Ok) :
    ({ a with vmEnd := b'.vmEnd } : Region c F).mapPage p =
      (a.mapPage p).or ((r.mapPage p).or (b'.mapPage p)) := by
  rw [← mapPage_join hrb hr hb]
  exact mapPage_join (hab.extend b'.vmEnd) ha (hr.join hb hrb.touch.le)

end Algebra

/-- The pages of `r` are mapped as it says, and all others as before. -/
structure Painted (mm : Mm c K V) (vs : List V) (r : Region c K.File) (mm' : Mm c K V)
    (vs' : List V) : Prop where
  wellFormed : WellFormed mm' vs'
  mapping : ∀ p, mapOf (mm'.regions vs') p = (r.mapPage p).or (mapOf (mm.regions vs) p)

variable {r : Region c K.File}

lemma Painted.of_replaced (h : WellFormed mm (xs ++ olds ++ ys))
    (hlinked : Linked mm' (xs ++ news ++ ys)) (hothers : ∀ w ∈ xs ++ ys, mm'.region w = mm.region w)
    (hsorted : Sorted (mm'.regions news))
    (hstart : ∀ a ∈ mm'.regions news, ∀ x ∈ xs, (mm.region x).vmEnd ≤ a.vmStart)
    (hend : ∀ a ∈ mm'.regions news, ∀ y ∈ ys, a.vmEnd ≤ (mm.region y).vmStart)
    (hxs : ∀ x ∈ xs, (mm.region x).vmEnd ≤ r.vmStart)
    (hmap : ∀ p, mapOf (mm'.regions news) p = (r.mapPage p).or (mapOf (mm.regions olds) p)) :
    Painted mm (xs ++ olds ++ ys) r mm' (xs ++ news ++ ys) := by
  have hxs' : mm'.regions xs = mm.regions xs :=
    regions_congr mm mm' xs fun w hw => hothers w (by simp [hw])
  have hys' : mm'.regions ys = mm.regions ys :=
    regions_congr mm mm' ys fun w hw => hothers w (by simp [hw])
  have hold := h.sorted
  simp only [regions_append, sorted_append, mem_append] at hold
  obtain ⟨⟨hsxs, -, -⟩, hsys, hapart⟩ := hold
  refine ⟨⟨hlinked, ?_⟩, fun p => ?_⟩
  · simp only [regions_append, sorted_append, mem_append, hxs', hys']
    refine ⟨⟨hsxs, hsorted, forall_mem_map.2 fun x hx a ha => hstart a ha x hx⟩, hsys, ?_⟩
    rintro a (ha | ha) b hb
    · exact hapart a (.inl ha) b hb
    · obtain ⟨y, hy, rfl⟩ := mem_map.1 hb
      exact hend a ha y hy
  · simp only [regions_append, mapOf_append, hxs', hys', hmap]
    by_cases hp : r.Covers p
    · have hnone : mapOf (mm.regions xs) p = none := by
        refine mapOf_eq_none.2 (forall_mem_map.2 fun x hx hcovers => ?_)
        exact absurd (hcovers.2.trans_le ((hxs x hx).trans hp.1)) (lt_irrefl _)
      simp [hnone, Option.or_assoc]
    · simp [mapPage_eq_none.2 hp]

lemma WellFormed.around (h : WellFormed mm (xs ++ olds ++ ys)) :
    (∀ o ∈ olds, ∀ z ∈ xs, (mm.region z).vmEnd ≤ (mm.region o).vmStart) ∧
      ∀ o ∈ olds, ∀ y ∈ ys, (mm.region o).vmEnd ≤ (mm.region y).vmStart := by
  have hapart := h.apart
  simp only [pairwise_append, mem_append] at hapart
  exact ⟨fun o ho z hz => hapart.1.2.2 z hz o ho, fun o ho y hy => hapart.2.2 o (.inr ho) y hy⟩

variable [DecidableEq V] {a b : Region c K.File}

/-- The caller sets the flags of the area that `vma_merge` returns. -/
def Mm.setFlags (mm : Mm c K V) (v : V) (vmFlags : ℕ) : Mm c K V :=
  mm.setArea v { mm.area v with vmFlags := vmFlags }

lemma Mm.region_setFlags (mm : Mm c K V) (v : V) (vmFlags : ℕ) :
    (mm.setFlags v vmFlags).region =
      update mm.region v { mm.region v with vmFlags := vmFlags } :=
  region_setArea _

/-- An adjustment that turns the areas `olds` into `news`, with the regions `as`. -/
lemma Painted.of_adjusted {g : V → Region c K.File} (as : List (Region c K.File))
    (h : WellFormed mm (xs ++ olds ++ ys)) (hadjusted : Adjusted mm mm' (xs ++ news ++ ys) g)
    (hg : ∀ w ∉ olds, g w = mm.region w) (hv : v ∈ olds)
    (has : news.map (update g v { g v with vmFlags := r.vmFlags }) = as)
    (hsorted : Sorted as) (hstart : ∀ a ∈ as, ∀ x ∈ xs, (mm.region x).vmEnd ≤ a.vmStart)
    (hend : ∀ a ∈ as, ∀ y ∈ ys, a.vmEnd ≤ (mm.region y).vmStart)
    (hxs : ∀ x ∈ xs, (mm.region x).vmEnd ≤ r.vmStart)
    (hmap : ∀ p, mapOf as p = (r.mapPage p).or (mapOf (mm.regions olds) p)) :
    Painted mm (xs ++ olds ++ ys) r (mm'.setFlags v r.vmFlags) (xs ++ news ++ ys) := by
  have hregions : (mm'.setFlags v r.vmFlags).regions news = as := by
    rw [regions, region_setFlags, hadjusted.region, has]
  have hothers : ∀ w ∈ xs ++ ys, w ∉ olds := by
    intro w hw hmem
    have hnodup := h.nodup
    simp only [nodup_append, mem_append] at hnodup hw
    rcases hw with hw | hw
    · exact hnodup.1.2.2 w hw w hmem rfl
    · exact hnodup.2.2 w (.inr hmem) w hw rfl
  have hlinked := hadjusted.linked
  refine .of_replaced h ⟨hlinked.chain, hlinked.tree, hlinked.count, hlinked.cache⟩
    (fun w hw => ?_) ?_ ?_ ?_ hxs ?_
  · have hne : w ≠ v := by
      rintro rfl
      exact hothers w hw hv
    rw [region_setFlags, update_of_ne hne, hadjusted.region, hg w (hothers w hw)]
  all_goals rw [hregions]
  · exact hsorted
  · exact hstart
  · exact hend
  · exact hmap

lemma Region.Ok.moved_eq_upper (h : a.Ok) {stop : ℕ} (hle : a.vmStart ≤ stop)
    (hdvd : c.pageSize ∣ stop) : a.moved ((stop - a.vmStart) / c.pageSize : ℕ) = a.upper stop := by
  have hmul : (stop - a.vmStart) / c.pageSize * c.pageSize = stop - a.vmStart :=
    Nat.div_mul_cancel (Nat.dvd_sub hdvd h.start_dvd)
  simp only [moved, Region.upper, mk.injEq, true_and]
  refine ⟨?_, congrArg (a.vmPgoff + ·) (ofInt_natCast _ _)⟩
  omega

lemma Fits.moved_eq (h : Fits a b) (ha : a.Ok) :
    b.moved (-(a.vmaPages : ℕ)) = { a with vmEnd := b.vmEnd } := by
  have hlt := ha.lt
  have hmul : a.vmaPages * c.pageSize = a.vmEnd - a.vmStart :=
    Nat.div_mul_cancel (Nat.dvd_sub ha.end_dvd ha.start_dvd)
  ext1
  · have htouch := h.touch
    simp only [moved, neg_mul, ← Nat.cast_mul, hmul]
    omega
  · rfl
  · exact h.flags.symm
  · exact h.file.symm
  · simp only [moved, h.pgoff, ofInt_neg, ofInt_natCast, BitVec.add_assoc,
      add_right_neg, BitVec.add_zero]

/-- What `vma_merge` leaves: nothing has changed, or the request is painted over. -/
inductive Merged (mm : Mm c K V) (vs : List V) (r : Region c K.File) :
    Option (Option V × Mm c K V) → Prop
  | unchanged : Merged mm vs r (some (none, mm))
  | painted (v : V) (mm' : Mm c K V) (vs' : List V) :
      Painted mm vs r (mm'.setFlags v r.vmFlags) vs' → Merged mm vs r (some (some v, mm'))

/-! ## The eight cases -/

section Cases

variable {p n x : V}

lemma extendPrev_eq {stop : ℕ}
    (h : vmaAdjust p (mm.region p).vmStart stop (mm.region p).vmPgoff none mm = some mm') :
    extendPrev p stop mm = some (some p, mm') := by
  rw [region] at h
  simp [extendPrev, h]

/-- The area `p` grows over the request up to the end of `b`, and the areas `os` go. -/
lemma Merged.of_extended {os : List V} {b : Region c K.File}
    (h : WellFormed mm (xs ++ p :: os ++ ys)) (hpr : Fits (mm.region p) r) (hb : b.Ok)
    (hle : (mm.region p).vmEnd ≤ b.vmStart) (hys : ∀ y ∈ ys, b.vmEnd ≤ (mm.region y).vmStart)
    (hrun : ∃ mm', vmaAdjust p (mm.region p).vmStart b.vmEnd (mm.region p).vmPgoff none mm =
      some mm' ∧ Adjusted mm mm' (xs ++ p :: ys)
        (mm.bounded p (mm.region p).vmStart b.vmEnd (mm.region p).vmPgoff))
    (hmap : ∀ q, ({ mm.region p with vmEnd := b.vmEnd } : Region c K.File).mapPage q =
      ((mm.region p).mapPage q).or ((r.mapPage q).or (mapOf (mm.regions os) q))) :
    Merged mm (xs ++ p :: os ++ ys) r (extendPrev p b.vmEnd mm) := by
  have hp : (mm.region p).Ok := h.ok (by simp)
  obtain ⟨hbelow, -⟩ := h.around
  obtain ⟨mm', hrun, hadjusted⟩ := hrun
  refine extendPrev_eq hrun ▸ .painted p mm' (xs ++ [p] ++ ys) (.of_adjusted
    [{ mm.region p with vmEnd := b.vmEnd }] h (by simpa using hadjusted) (fun w hw => ?_) (by simp)
    ?_ ?_ ?_ (by simpa using hys) ?_ fun q => ?_)
  · simp_all
  · simp [← hpr.flags]
  · exact sorted_cons.2 ⟨hp.join hb hle, Sorted.nil, by simp⟩
  · simpa using hbelow p (by simp)
  · exact fun z hz => (hbelow p (by simp) z hz).trans (hp.lt.le.trans hpr.touch.le)
  · simp [hmap, or_mapPage_comm hpr.touch.le]

/-- Case 1: the request fills the gap between two areas. -/
lemma extendPrev_fill (xs ys : List V) (h : WellFormed mm vs) (hvs : vs = xs ++ [p, x] ++ ys)
    (hanon : mm.Mergeable p x) (hpr : Fits (mm.region p) r) (hrx : Fits r (mm.region x))
    (hr : r.Ok) : Merged mm vs r (extendPrev p (mm.area x).vmEnd mm) := by
  subst hvs
  have hx : (mm.region x).Ok := h.ok (by simp)
  have hle := hpr.touch.le.trans (hr.lt.le.trans hrx.touch.le)
  have hlinked : Linked mm (xs ++ p :: x :: ys) := by simpa using h.toLinked
  refine .of_extended (b := mm.region x) h hpr hx hle (h.around.2 x (by simp))
    (vmaAdjust_remove _ _ hlinked hanon) fun q => ?_
  simp [mapPage_join_three hpr hrx (h.ok (by simp)) hr hx]

omit [DecidableEq V] in
lemma WellFormed.before_head {stop : ℕ} (h : WellFormed mm (xs ++ ys))
    (hys : ∀ y ∈ ys, stop ≤ (mm.region y).vmStart) (n : V) (hn : ys.head? = some n) :
    stop ≤ (mm.region n).vmStart ∧ stop < (mm.region n).vmEnd := by
  have hmem := mem_of_head? hn
  have hok : (mm.region n).Ok := h.ok (by simp [hmem])
  exact ⟨hys n hmem, (hys n hmem).trans_lt hok.lt⟩

/-- Case 2: the request extends the area in front of it. -/
lemma extendPrev_plain (h : WellFormed mm (xs ++ [p] ++ ys)) (hpr : Fits (mm.region p) r)
    (hr : r.Ok) (hys : ∀ y ∈ ys, r.vmEnd ≤ (mm.region y).vmStart) :
    Merged mm (xs ++ [p] ++ ys) r (extendPrev p r.vmEnd mm) := by
  have hlinked : Linked mm (xs ++ p :: ys) := by simpa using h.toLinked
  refine .of_extended h hpr hr hpr.touch.le hys (vmaAdjust_plain _ _ hlinked (h.before_head hys)
    (hpr.touch.le.trans hr.lt.le)) fun q => ?_
  simp [mapPage_join hpr (h.ok (by simp)) hr]

section
variable (xs ys : List V) (h : WellFormed mm vs) (hvs : vs = xs ++ [p, n] ++ ys)
  (hpr : Fits (mm.region p) r) (hr : r.Ok) (hstart : (mm.region n).vmStart = r.vmStart)
include h hvs hpr hr hstart

/-- Case 5: the request takes the first pages of the area behind. -/
lemma extendPrev_boundary (hend : r.vmEnd < (mm.region n).vmEnd) :
    Merged mm vs r (extendPrev p r.vmEnd mm) := by
  subst hvs
  have hp : (mm.region p).Ok := h.ok (by simp)
  have hn : (mm.region n).Ok := h.ok (by simp)
  have hlt : (mm.region n).vmStart < r.vmEnd := hstart.trans_lt hr.lt
  have hin : (mm.region n).Inside r.vmEnd := ⟨hlt, hend, hr.end_dvd⟩
  obtain ⟨hbelow, habove⟩ := h.around
  have hlinked : Linked mm (xs ++ p :: n :: ys) := by simpa using h.toLinked
  have hne := hlinked.next_ne
  obtain ⟨mm', hrun, hadjusted⟩ := vmaAdjust_up (mm.region p).vmPgoff (mm.region p).vmStart hlinked
    hlt hend
  rw [hn.moved_eq_upper hlt.le hr.end_dvd] at hadjusted
  refine extendPrev_eq hrun ▸ .painted p mm' (xs ++ [p, n] ++ ys) (.of_adjusted
    [{ mm.region p with vmEnd := r.vmEnd }, (mm.region n).upper r.vmEnd] h
    (by simpa using hadjusted) (fun w hw => ?_) (by simp) ?_ ?_ ?_ ?_ ?_ fun q => ?_)
  · simp_all
  · simp [← hpr.flags, hne, hne.symm]
  · simp [sorted_cons, Sorted.nil, hp.join hr hpr.touch.le, hn.upper hin]
  · have hpn : (mm.region p).vmStart ≤ r.vmEnd := hp.lt.le.trans (hpr.touch.le.trans hr.lt.le)
    simpa using ⟨hbelow p (by simp), fun z hz => (hbelow p (by simp) z hz).trans hpn⟩
  · simpa using ⟨fun y hy => hend.le.trans (habove n (by simp) y hy), habove n (by simp)⟩
  · exact fun z hz => (hbelow p (by simp) z hz).trans (hp.lt.le.trans hpr.touch.le)
  · simp only [regions_cons, regions_nil, mapOf_cons, mapOf_nil, or_none,
      mapPage_join hpr hp hr, mapPage_split hn hin]
    rw [← or_mapPage_comm hpr.touch.le,
      or_mapPage_hidden (a := (mm.region n).lower r.vmEnd) hstart.ge le_rfl, Option.or_assoc]

/-- Case 7: the request extends the area in front of it over the area that it covers. -/
lemma extendPrev_over (hanon : mm.Mergeable p n) (hend : (mm.region n).vmEnd = r.vmEnd) :
    Merged mm vs r (extendPrev p r.vmEnd mm) := by
  subst hvs
  have hlinked : Linked mm (xs ++ p :: n :: ys) := by simpa using h.toLinked
  refine .of_extended h hpr hr hpr.touch.le (hend ▸ h.around.2 n (by simp))
    (hend ▸ vmaAdjust_remove _ _ hlinked hanon) fun q => ?_
  rw [mapPage_join hpr (h.ok (by simp)) hr, regions_cons, mapOf_cons,
    or_mapPage_hidden hstart.ge hend.le]
  simp

end

section
variable (hrx : Fits r (mm.region x)) (hr : r.Ok)
include hrx hr

/-- Case 6: the request extends the area in front of it over the area that it covers and the one
behind it. -/
lemma extendPrev_over_fill (xs ys : List V) (h : WellFormed mm vs)
    (hvs : vs = xs ++ [p, n, x] ++ ys) (hpn : mm.Mergeable p n) (hpx : mm.Mergeable p x)
    (hanon : mm.Mergeable n x) (hpr : Fits (mm.region p) r)
    (hstart : (mm.region n).vmStart = r.vmStart) (hend : (mm.region n).vmEnd = r.vmEnd) :
    Merged mm vs r (extendPrev p (mm.area x).vmEnd mm) := by
  subst hvs
  have hx : (mm.region x).Ok := h.ok (by simp)
  have hle := hpr.touch.le.trans (hr.lt.le.trans hrx.touch.le)
  have hlinked : Linked mm (xs ++ p :: n :: x :: ys) := by simpa using h.toLinked
  have hnx : (mm.region n).vmEnd < (mm.region x).vmEnd := by
    rw [hend, hrx.touch]
    exact hx.lt
  refine .of_extended (b := mm.region x) h hpr hx hle (h.around.2 x (by simp))
    (vmaAdjust_remove_two _ _ hlinked hpn hpx hanon hnx) fun q => ?_
  simp only [regions_cons, regions_nil, mapOf_cons, mapOf_nil, or_none,
    mapPage_join_three hpr hrx (h.ok (by simp)) hr hx, or_mapPage_hidden hstart.ge hend.le]

lemma Painted.of_front {os : List V} (h : WellFormed mm (xs ++ v :: os ++ ys)) (hx : (mm.region x).Ok)
    (hfile : (mm.region v).vmFile = r.vmFile) (hxs : ∀ z ∈ xs, (mm.region z).vmEnd ≤ r.vmStart)
    (hys : ∀ y ∈ ys, (mm.region x).vmEnd ≤ (mm.region y).vmStart)
    (hadjusted : Adjusted mm mm' (xs ++ v :: ys)
      (mm.bounded v r.vmStart (mm.region x).vmEnd r.vmPgoff))
    (hmap : ∀ q, (r.mapPage q).or ((mm.region x).mapPage q) =
      (r.mapPage q).or (mapOf (mm.regions (v :: os)) q)) :
    Painted mm (xs ++ v :: os ++ ys) r (mm'.setFlags v r.vmFlags) (xs ++ [v] ++ ys) := by
  refine .of_adjusted [{ r with vmEnd := (mm.region x).vmEnd }] h (by simpa using hadjusted)
    (fun w hw => ?_) (by simp) ?_ ?_ (by simpa using hxs) (by simpa using hys) hxs fun q => ?_
  · simp_all
  · simp [hfile]
  · exact sorted_cons.2 ⟨hr.join hx hrx.touch.le, Sorted.nil, by simp⟩
  · rw [← hmap q, ← mapPage_join hrx hr hx]
    simp

/-- Case 3: the request is put in front of an area. -/
lemma vmaAdjust_front (h : WellFormed mm (xs ++ x :: ys))
    (hxs : ∀ z ∈ xs, (mm.region z).vmEnd ≤ r.vmStart) :
    ∃ mm', vmaAdjust x r.vmStart (mm.region x).vmEnd r.vmPgoff none mm = some mm' ∧
      Painted mm (xs ++ x :: ys) r (mm'.setFlags x r.vmFlags) (xs ++ [x] ++ ys) := by
  have hlinked := h.toLinked
  rw [append_cons] at h ⊢
  have habove := h.around.2 x (by simp)
  obtain ⟨mm', hrun, hadjusted⟩ := vmaAdjust_plain r.vmPgoff r.vmStart hlinked (h.before_head habove)
    le_rfl
  exact ⟨mm', hrun, .of_front hrx hr h (h.ok (by simp)) hrx.file.symm hxs habove hadjusted
    fun q => by simp⟩

/-- Case 8: the request is put in front of an area, in the area that it covers. -/
lemma vmaAdjust_over (h : WellFormed mm (xs ++ n :: x :: ys)) (hanon : mm.Mergeable n x)
    (hstart : (mm.region n).vmStart = r.vmStart) (hend : (mm.region n).vmEnd = r.vmEnd)
    (hfile : (mm.region n).vmFile = r.vmFile) :
    ∃ mm', vmaAdjust n r.vmStart (mm.region x).vmEnd r.vmPgoff none mm = some mm' ∧
      Painted mm (xs ++ n :: x :: ys) r (mm'.setFlags n r.vmFlags) (xs ++ [n] ++ ys) := by
  obtain ⟨mm', hrun, hadjusted⟩ := vmaAdjust_remove r.vmPgoff r.vmStart h.toLinked hanon
  rw [append_cons, append_cons, append_assoc xs] at h ⊢
  refine ⟨mm', hrun, .of_front hrx hr h (h.ok (by simp)) hfile (hstart ▸ h.around.1 n (by simp))
    (h.around.2 x (by simp)) hadjusted fun q => ?_⟩
  simp [or_mapPage_hidden hstart.ge hend.le]

/-- Case 4: the request gives the last pages of an area to the area behind. -/
lemma vmaAdjust_boundary (h : WellFormed mm (xs ++ [n, x] ++ ys))
    (hstart : (mm.region n).vmStart < r.vmStart) (hend : (mm.region n).vmEnd = r.vmEnd) :
    ∃ mm', vmaAdjust n (mm.region n).vmStart r.vmStart (mm.region n).vmPgoff none mm = some mm' ∧
      Painted mm (xs ++ [n, x] ++ ys) r (mm'.setFlags x r.vmFlags) (xs ++ [n, x] ++ ys) := by
  have hn : (mm.region n).Ok := h.ok (by simp)
  have hx : (mm.region x).Ok := h.ok (by simp)
  have hlt : r.vmStart < (mm.region n).vmEnd := hend ▸ hr.lt
  have hin : (mm.region n).Inside r.vmStart := ⟨hstart, hlt, hr.start_dvd⟩
  have hle : r.vmStart ≤ (mm.region x).vmStart := hr.lt.le.trans hrx.touch.le
  obtain ⟨hbelow, habove⟩ := h.around
  have hlinked : Linked mm (xs ++ n :: x :: ys) := by simpa using h.toLinked
  have hne := hlinked.next_ne.symm
  obtain ⟨mm', hrun, hadjusted⟩ := vmaAdjust_down (mm.region n).vmPgoff (mm.region n).vmStart hlinked
    hle (hle.trans_lt hx.lt) hlt
  have hpages : ((mm.region n).vmEnd - r.vmStart) / c.pageSize = r.vmaPages := by
    rw [hend]
    rfl
  rw [hpages, hrx.moved_eq hr] at hadjusted
  refine ⟨mm', hrun, .of_adjusted
    [(mm.region n).lower r.vmStart, { r with vmEnd := (mm.region x).vmEnd }] h
    (by simpa using hadjusted) (fun w hw => ?_) (by simp) ?_ ?_ ?_ ?_ ?_ fun q => ?_⟩
  · simp_all
  · simp [hne, lower]
  · simp [sorted_cons, Sorted.nil, hn.lower hin, hr.join hx hrx.touch.le]
  · simpa using ⟨hbelow n (by simp), fun z hz => (hbelow n (by simp) z hz).trans hstart.le⟩
  · simpa using ⟨fun y hy => hlt.le.trans (habove n (by simp) y hy), habove x (by simp)⟩
  · exact fun z hz => (hbelow n (by simp) z hz).trans hstart.le
  · simp only [regions_cons, regions_nil, mapOf_cons, mapOf_nil, or_none,
      mapPage_join hrx hr hx, mapPage_split hn hin, Option.or_assoc]
    rw [or_mapPage_comm (a := (mm.region n).lower r.vmStart) (b := r) le_rfl,
      or_mapPage_comm (a := (mm.region n).lower r.vmStart)
        (b := (mm.region n).upper r.vmStart) le_rfl,
      or_mapPage_hidden (r := r) (a := (mm.region n).upper r.vmStart) le_rfl hend.le]

end

end Cases

/-! ## The whole function -/

lemma Fits.pgoff_sub (h : Fits a b) : b.vmPgoff - BitVec.ofNat c.bits a.vmaPages = a.vmPgoff := by
  rw [h.pgoff, add_sub_cancel]

/-- The calls of `vma_merge`: the pages of the request are not mapped and `prev` is the area in
front of them, or they are inside one area, with its `anon_vma`, whose flags are to change, and
`prev` is this area or, if they are its first pages, the area in front of it. -/
inductive Call (mm : Mm c K V) (vs : List V) (q : MergeRequest c K) : Option V → Prop
  | unmapped (xs ys : List V) : vs = xs ++ ys → (∀ x ∈ xs, (mm.area x).vmEnd ≤ q.vmStart) →
      (∀ y ∈ ys, q.vmEnd ≤ (mm.area y).vmStart) → Call mm vs q xs.getLast?
  | inside (xs : List V) (n : V) (ys : List V) : vs = xs ++ n :: ys →
      (mm.area n).vmStart < q.vmStart → q.vmEnd ≤ (mm.area n).vmEnd →
      (mm.area n).vmFlags ≠ q.vmFlags → q.vmFile = (mm.area n).vmFile →
      q.anonVma = (mm.area n).anonVma → q.vmPgoff = (mm.area n).vmPgoff +
        BitVec.ofNat c.bits ((q.vmStart - (mm.area n).vmStart) / c.pageSize) →
      Call mm vs q (some n)
  | front (xs : List V) (n : V) (ys : List V) : vs = xs ++ n :: ys →
      (mm.area n).vmStart = q.vmStart → q.vmEnd ≤ (mm.area n).vmEnd →
      (mm.area n).vmFlags ≠ q.vmFlags → q.vmFile = (mm.area n).vmFile →
      q.anonVma = (mm.area n).anonVma → q.vmPgoff = (mm.area n).vmPgoff → Call mm vs q xs.getLast?

variable {q : MergeRequest c K} {prev next : Option V}

lemma mergeNext_front {area n : V} {vs' : List V} (hrn : Fits q.toRegion (mm.region n))
    (hxs : ∀ x ∈ xs, (mm.area x).vmEnd ≤ q.vmStart)
    (hrun : ∃ mm', vmaAdjust area q.vmStart (mm.region n).vmEnd q.vmPgoff none mm = some mm' ∧
      Painted mm vs q.toRegion (mm'.setFlags area q.vmFlags) vs') :
    Merged mm vs q.toRegion (mergeNext xs.getLast? (some area) n q mm) := by
  obtain ⟨mm', hrun, hpainted⟩ := hrun
  have hfilter : (xs.getLast?.filter fun p => decide (q.vmStart < (mm.area p).vmEnd)) = none :=
    filter_eq_none_iff.2 fun p hp => by simpa using hxs p (mem_of_getLast? hp)
  have hpgoff := hrn.pgoff_sub
  rw [region] at hrun hpgoff
  have heq : mergeNext xs.getLast? (some area) n q mm = some (some area, mm') := by
    simp [mergeNext, hfilter, hpgoff, hrun]
  exact heq ▸ .painted area mm' vs' hpainted

variable [DecidableEq K.File] {mpolEqual : K.Policy → K.Policy → Bool}

lemma mergesAfter_fits {a : Area c K} (h : mergesAfter mpolEqual a q = true) :
    Fits a.toRegion q.toRegion ∧ isMergeableAnonVma a.anonVma q.anonVma = true := by
  simp only [mergesAfter, canVmaMergeAfter, isMergeableVma, Bool.and_eq_true, decide_eq_true_eq] at h
  exact ⟨⟨h.1.1, h.2.1.1.1, h.2.1.1.2.1, h.2.2.symm⟩, isMergeableAnonVma_comm.trans h.2.1.2⟩

lemma mergesBefore_fits {a : Area c K} (h : mergesBefore mpolEqual q a = true) :
    Fits q.toRegion a.toRegion ∧ isMergeableAnonVma q.anonVma a.anonVma = true := by
  simp only [mergesBefore, canVmaMergeBefore, isMergeableVma, Bool.and_eq_true, decide_eq_true_eq] at h
  exact ⟨⟨h.1.1, h.2.1.1.1.symm, h.2.1.1.2.1.symm, h.2.2⟩, h.2.1.2⟩

/-- What is to be shown of `vma_merge`: it extends `prev` if that fits, and else puts the request
in front of `next` if that fits. -/
lemma Merged.of_fits (hnext : ((mm.after prev).bind fun a =>
      if (mm.area a).vmEnd = q.vmEnd then mm.vmNext a else some a) = next)
    (hboth : ∀ p n, prev = some p → next = some n → mm.Mergeable p n →
      Fits (mm.region p) q.toRegion ∧ isMergeableAnonVma (mm.area p).anonVma q.anonVma = true →
      Fits q.toRegion (mm.region n) ∧ isMergeableAnonVma q.anonVma (mm.area n).anonVma = true →
      Merged mm vs q.toRegion (extendPrev p (mm.area n).vmEnd mm))
    (hprev : ∀ p, prev = some p →
      Fits (mm.region p) q.toRegion ∧ isMergeableAnonVma (mm.area p).anonVma q.anonVma = true →
      Merged mm vs q.toRegion (extendPrev p q.vmEnd mm))
    (hfront : ∀ n, next = some n →
      Fits q.toRegion (mm.region n) ∧ isMergeableAnonVma q.anonVma (mm.area n).anonVma = true →
      Merged mm vs q.toRegion (mergeNext prev (mm.after prev) n q mm)) :
    Merged mm vs q.toRegion (vmaMerge mpolEqual prev q mm) := by
  rw [vmaMerge]
  split
  · exact .unchanged
  simp only [hnext]
  split
  case h_1 p n hp hn =>
    obtain ⟨hp, hpr⟩ := filter_eq_some_iff.1 hp
    obtain ⟨hn, hrn⟩ := filter_eq_some_iff.1 hn
    split
    · exact hboth p n hp hn ‹_› (mergesAfter_fits hpr) (mergesBefore_fits hrn)
    · exact hprev p hp (mergesAfter_fits hpr)
  case h_2 p hp hn =>
    obtain ⟨hp, hpr⟩ := filter_eq_some_iff.1 hp
    exact hprev p hp (mergesAfter_fits hpr)
  case h_3 n hp hn =>
    obtain ⟨hn, hrn⟩ := filter_eq_some_iff.1 hn
    exact hfront n hn (mergesBefore_fits hrn)
  case h_4 => exact .unchanged

lemma vmaMerge_unmapped (h : WellFormed mm (xs ++ ys)) (hr : q.Ok)
    (hxs : ∀ x ∈ xs, (mm.area x).vmEnd ≤ q.vmStart) (hys : ∀ y ∈ ys, q.vmEnd ≤ (mm.area y).vmStart) :
    Merged mm (xs ++ ys) q.toRegion (vmaMerge mpolEqual xs.getLast? q mm) := by
  have hnext : ((mm.after xs.getLast?).bind fun a =>
      if (mm.area a).vmEnd = q.vmEnd then mm.vmNext a else some a) = ys.head? := by
    rw [h.toLinked.after_eq]
    cases ys with
    | nil => rfl
    | cons y ys =>
      have hlt := (h.ok (v := y) (by simp)).lt
      have hne : (mm.area y).vmEnd ≠ q.vmEnd := ((hys y (by simp)).trans_lt hlt).ne'
      simp [hne]
  refine .of_fits hnext (fun p n hp hn hanon ⟨hpr, _⟩ ⟨hrn, _⟩ => ?_) (fun p hp ⟨hpr, _⟩ => ?_)
    fun n hn ⟨hrn, _⟩ => ?_
  · obtain ⟨xs, rfl⟩ := getLast?_eq_some_iff.1 hp
    obtain ⟨ys, rfl⟩ := head?_eq_some_iff.1 hn
    exact extendPrev_fill xs ys h (by simp) hanon hpr hrn hr
  · obtain ⟨xs, rfl⟩ := getLast?_eq_some_iff.1 hp
    exact extendPrev_plain h hpr hr hys
  · obtain ⟨ys, rfl⟩ := head?_eq_some_iff.1 hn
    have hafter : mm.after xs.getLast? = some n := h.toLinked.after_eq
    rw [hafter]
    exact mergeNext_front hrn hxs (vmaAdjust_front hrn hr h hxs)

lemma vmaMerge_inside {n : V} (h : WellFormed mm (xs ++ n :: ys)) (hr : q.Ok)
    (hstart : (mm.area n).vmStart < q.vmStart) (hend : q.vmEnd ≤ (mm.area n).vmEnd) :
    Merged mm (xs ++ n :: ys) q.toRegion (vmaMerge mpolEqual (some n) q mm) := by
  have hlt := hr.lt
  have hafter : mm.after (some n) = ys.head? := h.vmNext_eq
  have hys := h.apart_of_cons
  have hnext : ((mm.after (some n)).bind fun a =>
      if (mm.area a).vmEnd = q.vmEnd then mm.vmNext a else some a) = ys.head? := by
    rw [hafter]
    cases ys with
    | nil => rfl
    | cons y ys =>
      have hylt := (h.ok (v := y) (by simp)).lt
      have hle := hys y (by simp)
      have hne : (mm.area y).vmEnd ≠ q.vmEnd := by omega
      simp [hne]
  have hnot : ¬Fits (mm.region n) q.toRegion := fun hfits => by
    have htouch : (mm.area n).vmEnd = q.vmStart := hfits.touch
    omega
  refine .of_fits hnext (fun p x hp _ _ ⟨hpr, _⟩ _ => ?_) (fun p hp ⟨hpr, _⟩ => ?_)
    fun x hx ⟨hrx, _⟩ => ?_
  · cases hp
    exact absurd hpr hnot
  · cases hp
    exact absurd hpr hnot
  · obtain ⟨ys, rfl⟩ := head?_eq_some_iff.1 hx
    have htouch : q.vmEnd = (mm.area x).vmStart := hrx.touch
    have hle := hys x (by simp)
    have hlist : xs ++ n :: x :: ys = xs ++ [n, x] ++ ys := by simp
    rw [hlist] at h ⊢
    obtain ⟨mm', hrun, hpainted⟩ := vmaAdjust_boundary hrx hr h hstart (le_antisymm (by
      rw [htouch]
      exact hle) hend)
    have hinside : q.vmStart < (mm.area n).vmEnd := by omega
    have hfilter : ((some n).filter fun p => decide (q.vmStart < (mm.area p).vmEnd)) = some n :=
      filter_some_pos (decide_eq_true hinside)
    rw [region] at hrun
    simp only [mergeNext, hafter, hfilter, hrun]
    exact .painted x mm' _ hpainted

lemma vmaMerge_front {n : V} (h : WellFormed mm (xs ++ n :: ys)) (hr : q.Ok)
    (hstart : (mm.area n).vmStart = q.vmStart) (hend : q.vmEnd ≤ (mm.area n).vmEnd)
    (hfile : (mm.area n).vmFile = q.vmFile) (hanon : q.anonVma = (mm.area n).anonVma) :
    Merged mm (xs ++ n :: ys) q.toRegion (vmaMerge mpolEqual xs.getLast? q mm) := by
  have hafter : mm.after xs.getLast? = some n := h.toLinked.after_eq
  have hxs := h.below_of_append hstart.le
  by_cases hcovered : (mm.area n).vmEnd = q.vmEnd
  · have hnext : ((mm.after xs.getLast?).bind fun a =>
        if (mm.area a).vmEnd = q.vmEnd then mm.vmNext a else some a) = ys.head? := by
      simp [hafter, hcovered, h.vmNext_eq]
    refine .of_fits hnext (fun p x hp hx hpx ⟨hpr, hpn⟩ ⟨hrx, hnx⟩ => ?_)
      (fun p hp ⟨hpr, hpn⟩ => ?_) fun x hx ⟨hrx, hnx⟩ => ?_
    · obtain ⟨xs, rfl⟩ := getLast?_eq_some_iff.1 hp
      obtain ⟨ys, rfl⟩ := head?_eq_some_iff.1 hx
      rw [hanon] at hpn hnx
      exact extendPrev_over_fill hrx hr xs ys h (by simp) hpn hpx hnx hpr hstart hcovered
    · obtain ⟨xs, rfl⟩ := getLast?_eq_some_iff.1 hp
      rw [hanon] at hpn
      exact extendPrev_over xs ys h (by simp) hpr hr hstart hpn hcovered
    · obtain ⟨ys, rfl⟩ := head?_eq_some_iff.1 hx
      rw [hafter]
      rw [hanon] at hnx
      exact mergeNext_front hrx hxs (vmaAdjust_over hrx hr h hnx hstart hcovered hfile)
  · have hnext : ((mm.after xs.getLast?).bind fun a =>
        if (mm.area a).vmEnd = q.vmEnd then mm.vmNext a else some a) = some n := by
      simp [hafter, hcovered]
    have hnot : ¬Fits q.toRegion (mm.region n) := fun hfits => by
      have htouch : q.vmEnd = (mm.area n).vmStart := hfits.touch
      have hlt := hr.lt
      omega
    refine .of_fits hnext (fun p x hp hx _ _ ⟨hrx, _⟩ => ?_) (fun p hp ⟨hpr, _⟩ => ?_)
      fun x hx ⟨hrx, _⟩ => ?_
    · cases hx
      exact absurd hrx hnot
    · obtain ⟨xs, rfl⟩ := getLast?_eq_some_iff.1 hp
      have hlt : q.vmEnd < (mm.area n).vmEnd := by omega
      exact extendPrev_boundary xs ys h (by simp) hpr hr hstart hlt
    · cases hx
      exact absurd hrx hnot

/-- `vma_merge` maps the pages of the request as asked for and changes no other page, or changes
nothing. -/
theorem vma_merge_preserves_map (mpolEqual : K.Policy → K.Policy → Bool) (h : WellFormed mm vs)
    (q : MergeRequest c K) (hr : q.Ok) (hcall : Call mm vs q prev) :
    ∃ res mm', vmaMerge mpolEqual prev q mm = some (res, mm') ∧
      (res = none → mm' = mm) ∧
      ∀ v, res = some v → ∃ vs', WellFormed (mm'.setFlags v q.vmFlags) vs' ∧
        ∀ p, mapOf ((mm'.setFlags v q.vmFlags).regions vs') p =
          if q.vmStart ≤ p * c.pageSize ∧ p * c.pageSize < q.vmEnd then
            some ⟨q.vmFlags, q.vmFile, q.vmPgoff + BitVec.ofNat c.bits (p - q.vmStart / c.pageSize)⟩
          else mapOf (mm.regions vs) p := by
  have hmerged : Merged mm vs q.toRegion (vmaMerge mpolEqual prev q mm) := by
    cases hcall with
    | unmapped xs ys hvs hxs hys =>
      subst hvs
      exact vmaMerge_unmapped h hr hxs hys
    | inside xs n ys hvs hstart hend =>
      subst hvs
      exact vmaMerge_inside h hr hstart hend
    | front xs n ys hvs hstart hend _ hfile hanon =>
      subst hvs
      exact vmaMerge_front h hr hstart hend hfile.symm hanon
  cases hres : vmaMerge mpolEqual prev q mm with
  | none => rw [hres] at hmerged; cases hmerged
  | some out =>
    obtain ⟨res, mm'⟩ := out
    refine ⟨res, mm', rfl, ?_, ?_⟩
    · rintro rfl
      rw [hres] at hmerged
      cases hmerged
      rfl
    · rintro v rfl
      rw [hres] at hmerged
      obtain ⟨⟩ | ⟨_, _, vs', hpainted⟩ := hmerged
      refine ⟨vs', hpainted.wellFormed, fun p => ?_⟩
      rw [hpainted.mapping p]
      by_cases hp : q.Covers p
      · rw [mapPage, if_pos hp]
        exact (if_pos hp).symm
      · rw [mapPage, if_neg hp]
        exact (if_neg hp).symm

/-- A page behind the three pages of one area. -/
theorem vma_merge_preserves_map_behind :
    ∃ res mm', vmaMerge (fun _ _ => true) (some 0)
        ⟨⟨0x4000, 0x5000, 0, none, 4⟩, none, ()⟩ threePages = some (res, mm') ∧
      (res = none → mm' = threePages) ∧
      ∀ v, res = some v → ∃ vs', WellFormed (mm'.setFlags v 0) vs' ∧
        ∀ p, mapOf ((mm'.setFlags v 0).regions vs') p =
          if 0x4000 ≤ p * config32.pageSize ∧ p * config32.pageSize < 0x5000 then
            some ⟨0, none, 4 + BitVec.ofNat config32.bits (p - 0x4000 / config32.pageSize)⟩
          else mapOf (threePages.regions [0]) p := by
  have hr : (⟨0x4000, 0x5000, 0, none, 4⟩ : Region config32 Unit).Ok := by
    refine ⟨?_, ?_, ?_, ?_⟩ <;> decide
  have hcall : Call threePages [0] ⟨⟨0x4000, 0x5000, 0, none, 4⟩, none, ()⟩ (some 0) :=
    .unmapped [0] [] rfl (by simp [threePages]) (by simp)
  exact vma_merge_preserves_map (fun _ _ => true) threePages_wellFormed _ hr hcall

end BooxKernel.Mmap
