import BooxKernel.Lib.LinkedRings
import BooxKernel.Lib.Loops
import BooxKernel.Lib.Runs

/-!
# Lists sorted by priority

The functions of `lib/plist.c`. `none` is the head of the list, which has the same two list entries
as a node.
-/
namespace BooxKernel.Plist
open LinkedRings Loops Runs List

variable {ν : Type*} {prio : ν → ℤ} {l : Links (Option ν)} {ns ks ls xs : List ν} {x m : ν}

/-- The first node of each priority. -/
def leaders (prio : ν → ℤ) : List ν → List ν
  | [] => []
  | x :: l => x :: (leaders prio l).filter fun y => prio y ≠ prio x

lemma leaders_append (ks ls : List ν) : leaders prio (ks ++ ls) =
    leaders prio ks ++ (leaders prio ls).filter fun y => ∀ k ∈ ks, prio y ≠ prio k := by
  induction ks with
  | nil => simp [leaders]
  | cons x ks ih => simp [leaders, ih, filter_filter]

lemma mem_of_mem_leaders (h : x ∈ leaders prio ls) : x ∈ ls := by
  induction ls with
  | nil => exact h
  | cons y ls ih =>
    rcases mem_cons.1 h with rfl | h
    · exact mem_cons_self
    · exact mem_cons_of_mem y (ih (mem_filter.1 h).1)

lemma exists_leader (h : x ∈ ls) : ∃ i ∈ leaders prio ls, prio i = prio x := by
  induction ls with
  | nil => exact absurd h not_mem_nil
  | cons y ls ih =>
    by_cases hy : prio x = prio y
    · exact ⟨y, mem_cons_self, hy.symm⟩
    · obtain ⟨i, hi, heq⟩ := ih ((mem_cons.1 h).resolve_left fun hxy => hy (by rw [hxy]))
      exact ⟨i, mem_cons_of_mem y (mem_filter.2 ⟨hi, decide_eq_true (heq ▸ hy)⟩), heq⟩

lemma leaders_append_of_lt (h : ∀ k ∈ ks, ∀ y ∈ ls, prio k < prio y) :
    leaders prio (ks ++ ls) = leaders prio ks ++ leaders prio ls := by
  rw [leaders_append, filter_eq_self.2]
  exact fun y hy => decide_eq_true fun k hk => (h k hk y (mem_of_mem_leaders hy)).ne'

lemma leaders_cons_of_lt (h : ∀ y ∈ ls, prio x < prio y) :
    leaders prio (x :: ls) = x :: leaders prio ls := by
  rw [leaders, filter_eq_self.2]
  exact fun y hy => decide_eq_true (h y (mem_of_mem_leaders hy)).ne'

lemma leaders_append_cons (hx : ∃ k ∈ ks, prio k = prio x) :
    leaders prio (ks ++ x :: ls) = leaders prio (ks ++ ls) := by
  obtain ⟨k, hk, heq⟩ := hx
  rw [leaders_append, leaders_append, leaders,
    filter_cons_of_neg (by simpa using ⟨k, hk, heq.symm⟩),
    filter_filter]
  refine congrArg _ (filter_congr fun y _ => ?_)
  simp only [Bool.and_eq_left_iff_imp, decide_eq_true_eq]
  exact fun hy => heq ▸ hy k hk

lemma head?_leaders (ls : List ν) : (leaders prio ls).head? = ls.head? := by cases ls <;> rfl

lemma leaders_sorted (h : ls.Pairwise (prio · ≤ prio ·)) :
    (leaders prio ls).Pairwise (prio · < prio ·) := by
  induction ls with
  | nil => exact .nil
  | cons x ls ih =>
    obtain ⟨hx, hls⟩ := pairwise_cons.1 h
    refine pairwise_cons.2 ⟨fun y hy => ?_, (ih hls).filter _⟩
    obtain ⟨hy, hne⟩ := mem_filter.1 hy
    exact lt_of_le_of_ne (hx y (mem_of_mem_leaders hy)) (Ne.symm (of_decide_eq_true hne))

lemma exists_split (p : ℤ) (h : ns.Pairwise (prio · ≤ prio ·)) :
    ∃ ks ls, ns = ks ++ ls ∧ (∀ k ∈ ks, prio k ≤ p) ∧ ∀ y ∈ ls, p < prio y := by
  induction ns with
  | nil => exact ⟨[], [], rfl, by simp, by simp⟩
  | cons x ns ih =>
    obtain ⟨hx, hns⟩ := pairwise_cons.1 h
    by_cases hle : prio x ≤ p
    · obtain ⟨ks, ls, rfl, hks, hls⟩ := ih hns
      exact ⟨x :: ks, ls, rfl, by simpa [hle] using hks, hls⟩
    · exact ⟨[], x :: ns, rfl, by simp, by simpa [not_le.1 hle] using
        fun y hy => (not_le.1 hle).trans_le (hx y hy)⟩

/-- The nodes of the list, from its head on. -/
def Holds (l : Links (Option ν)) (xs : List ν) : Prop := l.Ring ↑(none :: xs.map some)

lemma holds_iff :
    Holds l (ks ++ x :: ls) ↔ l.Ring ↑(some x :: (ls.map some ++ none :: ks.map some)) := by
  rw [Holds, map_append, ← cons_append]
  exact iff_of_eq (congrArg _ (Cycle.coe_eq_coe.2 isRotated_append))

lemma Holds.nodup (h : Holds l xs) : xs.Nodup :=
  (nodup_cons.1 (Cycle.nodup_coe_iff.1 (Links.Ring.nodup h))).2.of_map some

lemma Holds.joins_self (h : Holds l xs) (hx : x ∉ xs) : l.Joins (some x) (some x) :=
  Links.Ring.alone h _ (by simpa using hx)

lemma Holds.first (h : Holds l xs) : l.next none = xs.head? := by
  cases xs with
  | nil => exact ((Cycle.chain_singleton _ _).1 (Links.Ring.joins h)).1
  | cons x xs => exact Links.Ring.next_eq h

lemma Holds.next (h : Holds l (ks ++ x :: ls)) : l.next (some x) = ls.head? := by
  cases ls with
  | nil => exact (holds_iff.1 h).next_eq
  | cons y ls => exact (holds_iff.1 h).next_eq

lemma Holds.next_eq_self (h : Holds l xs) : l.next (some x) = some x ↔ x ∉ xs := by
  refine ⟨fun heq hx => ?_, fun hx => (h.joins_self hx).1⟩
  obtain ⟨ks, ls, rfl⟩ := append_of_mem hx
  rw [h.next] at heq
  exact (nodup_cons.1 (nodup_append.1 h.nodup).2.1).1 (mem_of_head? heq)

lemma holds_initial : Holds (⟨id, id⟩ : Links (Option ν)) [] :=
  ⟨Cycle.nodup_coe_iff.2 (nodup_singleton none), (Cycle.chain_singleton _ _).2 ⟨rfl, rfl⟩,
    fun _ _ => ⟨rfl, rfl⟩⟩

variable [DecidableEq ν]

/-- `list_add_tail`. -/
abbrev listAddTail (l : Links (Option ν)) (new head : Option ν) : Links (Option ν) :=
  l.insertBefore new head

/-- `list_del_init`. -/
abbrev listDelInit (l : Links (Option ν)) (entry : Option ν) : Links (Option ν) :=
  (l.unlink entry).join entry entry

/-- `list_move_tail`. -/
abbrev listMoveTail (l : Links (Option ν)) (list head : Option ν) : Links (Option ν) :=
  listAddTail (l.unlink list) list head

structure State (ν : Type*) where
  prioList : Links (Option ν)
  nodeList : Links (Option ν)

/-- A round of the loop over the priorities. The flag of the result is for `lt_prio`. -/
def addRound (prio : ν → ℤ) (prioList : Links (Option ν)) (node : ν) :
    Option ν → Option (Round (Option ν) (Option ν × Bool))
  | none => some (.done (none, true))
  | some iter =>
    if prio node < prio iter then some (.done (some iter, true))
    else if prio node = prio iter then some (.done (prioList.next (some iter), false))
    else some (.next (prioList.next (some iter)))

/-- `plist_add`. -/
def plistAdd (prio : ν → ℤ) (s : State ν) (node : ν) : Option (State ν) :=
  (loop (addRound prio s.prioList node) (s.prioList.next none)).map fun r =>
    ⟨if r.2 then listAddTail s.prioList (some node) r.1 else s.prioList,
      listAddTail s.nodeList (some node) r.1⟩

/-- `plist_del`. -/
def plistDel (s : State ν) (node : ν) : State ν :=
  ⟨if s.prioList.next (some node) = some node then s.prioList
    else listDelInit (listMoveTail s.prioList (s.nodeList.next (some node)) (some node))
      (some node),
    listDelInit s.nodeList (some node)⟩

inductive Event (ν : Type*)
  | add (node : ν)
  | del (node : ν)

/-- A node is added when it is in no list. -/
inductive Step (prio : ν → ℤ) : State ν → Event ν → State ν → Prop
  | add {s s' : State ν} {node : ν} (hempty : s.nodeList.next (some node) = some node)
    (h : plistAdd prio s node = some s') : Step prio s (.add node) s'
  | del {s : State ν} {node : ν} : Step prio s (.del node) (plistDel s node)

/-- The head and the nodes are initialised. -/
def State.initial : State ν := ⟨⟨id, id⟩, ⟨id, id⟩⟩

def liveStep (l : List ν) : Event ν → List ν
  | .add node => l ++ [node]
  | .del node => l.erase node

/-- The nodes that were added and not deleted, in the order in which they were added. -/
def live (es : List (Event ν)) : List ν := es.foldl liveStep []

namespace Holds

lemma add (h : Holds l (ks ++ ls)) (hx : x ∉ ks ++ ls) :
    Holds (listAddTail l (some x) ls.head?) (ks ++ x :: ls) := by
  cases ls with
  | nil => simpa [Holds] using Links.Ring.insertBefore h (x := some x) (by simpa using hx)
  | cons y ls =>
    have hring := (holds_iff.1 h).insertBefore (x := some x) (by grind)
    rw [append_assoc, cons_append, ← map_singleton, ← map_append] at hring
    simpa using holds_iff.2 hring

lemma del (h : Holds l (ks ++ x :: ls)) : Holds (listDelInit l (some x)) (ks ++ ls) := by
  have hring := (holds_iff.1 h).remove (by simp)
  rw [Cycle.coe_eq_coe.2 isRotated_append] at hring
  simpa [Holds] using hring

lemma del_last (h : Holds l (ks ++ [x])) :
    Holds (listDelInit (listMoveTail l none (some x)) (some x)) ks := by
  have hrot : ((ks ++ [x]).map some : Cycle (Option ν)) = ↑(some x :: ks.map some) := by
    rw [map_append]
    exact Cycle.coe_eq_coe.2 isRotated_append
  have hring : Holds (listMoveTail l none (some x)) ([] ++ x :: ks) :=
    holds_iff.2 (Links.Ring.move h hrot)
  exact hring.del

lemma del_next (h : Holds l (ks ++ x :: m :: ls)) :
    Holds (listDelInit (listMoveTail l (some m) (some x)) (some x)) (ks ++ m :: ls) := by
  rw [append_cons] at h
  have hrot : (ls.map some ++ none :: (ks ++ [x]).map some : Cycle (Option ν)) =
      ↑(some x :: (ls.map some ++ none :: ks.map some)) := by
    rw [map_append, ← cons_append, ← append_assoc]
    exact Cycle.coe_eq_coe.2 isRotated_append
  have hring := (holds_iff.1 h).move hrot
  rw [append_assoc, cons_append, ← map_singleton, ← map_append] at hring
  simpa using (holds_iff.2 hring).del

lemma del_new (h : Holds l (ks ++ x :: ls)) (hm : m ∉ ks ++ x :: ls) :
    Holds (listDelInit (listMoveTail l (some m) (some x)) (some x)) (ks ++ m :: ls) := by
  have hadd := h.add hm
  rw [append_cons] at hadd
  rw [listMoveTail, Links.unlink_of_joins (h.joins_self hm)]
  simpa using hadd.del

lemma del_absent (h : Holds l xs) (hx : x ∉ xs) : listDelInit l (some x) = l := by
  have hself := h.joins_self hx
  have hjoin := Links.unlink_of_joins hself
  rw [listDelInit, hjoin]
  rwa [Links.unlink, hself.1, hself.2] at hjoin

end Holds

omit [DecidableEq ν] in
/-- The loop ends in front of the first node with a greater priority. -/
lemma loop_eq_some (qs : List ν) (h : Holds l (qs ++ (ks ++ ls)))
    (hinc : ks.Pairwise (prio · < prio ·)) (hks : ∀ k ∈ ks, prio k ≤ prio x)
    (hls : ∀ y ∈ ls, prio x < prio y) : loop (addRound prio l x) (ks ++ ls).head? =
      some (ls.head?, decide (∀ k ∈ ks, prio k ≠ prio x)) := by
  induction ks generalizing qs with
  | nil =>
    rw [loop_eq]
    cases ls with
    | nil => rfl
    | cons y ls => simp [addRound, hls y]
  | cons k ks ih =>
    obtain ⟨hk, hinc⟩ := pairwise_cons.1 hinc
    have hle := hks k mem_cons_self
    rw [loop_eq, cons_append, head?_cons, addRound, if_neg hle.not_gt, h.next]
    by_cases heq : prio x = prio k
    · obtain rfl : ks = [] := eq_nil_iff_forall_not_mem.2 fun i hi =>
        ((hk i hi).trans_le (hks i (mem_cons_of_mem k hi))).ne' heq
      simp [heq]
    · rw [if_neg heq]
      refine (ih (qs ++ [k]) (by simpa using h) hinc
        fun i hi => hks i (mem_cons_of_mem k hi)).trans ?_
      simp [Ne.symm heq]

/-- The lists hold the nodes `ns`, which are sorted. -/
structure Inv (prio : ν → ℤ) (s : State ν) (ns : List ν) : Prop where
  nodes : Holds s.nodeList ns
  leaders : Holds s.prioList (leaders prio ns)
  sorted : ns.Pairwise (prio · ≤ prio ·)

lemma plistAdd_spec {s : State ν} (h : Inv prio s ns) (hx : x ∉ ns) :
    ∃ ks ls s', ns = ks ++ ls ∧ (∀ y ∈ ls, prio x < prio y) ∧ plistAdd prio s x = some s' ∧
      Inv prio s' (ks ++ x :: ls) := by
  obtain ⟨ks, ls, rfl, hks, hls⟩ := exists_split (prio x) h.sorted
  have hlt : ∀ k ∈ ks, ∀ y ∈ ls, prio k < prio y := fun k hk y hy => (hks k hk).trans_lt (hls y hy)
  have hprio := h.leaders
  rw [leaders_append_of_lt hlt] at hprio
  have hloop := loop_eq_some (x := x) [] hprio
    (leaders_sorted (pairwise_append.1 h.sorted).1) (fun k hk => hks k (mem_of_mem_leaders hk))
    fun y hy => hls y (mem_of_mem_leaders hy)
  rw [head?_leaders] at hloop
  refine ⟨ks, ls, _, rfl, hls, by rw [plistAdd, hprio.first, hloop]; rfl, h.nodes.add hx, ?_, ?_⟩
  · by_cases hnew : ∀ k ∈ leaders prio ks, prio k ≠ prio x
    · have hlt' : ∀ k ∈ ks, ∀ y ∈ x :: ls, prio k < prio y := fun k hk => by
        obtain ⟨i, hi, heq⟩ : ∃ i ∈ leaders prio ks, prio i = prio k := exists_leader hk
        exact forall_mem_cons.2 ⟨lt_of_le_of_ne (hks k hk) (heq ▸ hnew i hi), hlt k hk⟩
      have hadd := hprio.add (x := x) fun hmem => hx (by
        simpa using (mem_append.1 hmem).imp mem_of_mem_leaders mem_of_mem_leaders)
      rw [leaders_append_of_lt hlt', leaders_cons_of_lt hls]
      rw [head?_leaders] at hadd
      simpa only [decide_eq_true hnew, if_true] using hadd
    · rw [leaders_append_cons]
      · simpa only [decide_eq_false hnew, Bool.false_eq_true, if_false] using h.leaders
      · push Not at hnew
        obtain ⟨k, hk, heq⟩ := hnew
        exact ⟨k, mem_of_mem_leaders hk, heq⟩
  · obtain ⟨hk, hl, -⟩ := pairwise_append.1 h.sorted
    exact pairwise_append.2 ⟨hk, pairwise_cons.2 ⟨fun y hy => (hls y hy).le, hl⟩,
      fun k hk => forall_mem_cons.2 ⟨hks k hk, fun y hy => (hlt k hk y hy).le⟩⟩

lemma leaders_del {s : State ν} (h : Inv prio s (ks ++ x :: ls)) (hks : ∀ k ∈ ks, prio k < prio x) :
    Holds (listDelInit (listMoveTail s.prioList ls.head? (some x)) (some x))
      (leaders prio (ks ++ ls)) := by
  obtain ⟨-, hsorted, -⟩ := pairwise_append.1 h.sorted
  obtain ⟨hxl, hsorted⟩ := pairwise_cons.1 hsorted
  have hlt : ∀ k ∈ ks, ∀ y ∈ x :: ls, prio k < prio y := fun k hk =>
    forall_mem_cons.2 ⟨hks k hk, fun y hy => (hks k hk).trans_le (hxl y hy)⟩
  have hprio := h.leaders
  rw [leaders_append_of_lt hlt] at hprio
  rw [leaders_append_of_lt fun k hk y hy => hlt k hk y (mem_cons_of_mem x hy)]
  cases ls with
  | nil => simpa [leaders] using hprio.del_last
  | cons m ls =>
    by_cases heq : prio m = prio x
    · have hm : m ∉ ks ++ x :: ls := by
        have hnd := h.nodes.nodup
        rw [append_cons, nodup_middle] at hnd
        simpa using (nodup_cons.1 hnd).1
      refine Holds.del_new ?_ ?_
      · simpa [leaders, heq] using hprio
      · simp only [mem_append, mem_cons, mem_filter, not_or] at hm ⊢
        exact ⟨fun hmem => hm.1 (mem_of_mem_leaders hmem), hm.2.1,
          fun hmem => hm.2.2 (mem_of_mem_leaders hmem.1)⟩
    · have hxm := lt_of_le_of_ne (hxl m mem_cons_self) (Ne.symm heq)
      rw [leaders_cons_of_lt (x := x)] at hprio
      · exact hprio.del_next
      · exact forall_mem_cons.2 ⟨hxm, fun y hy => hxm.trans_le ((pairwise_cons.1 hsorted).1 y hy)⟩

lemma plistDel_spec {s : State ν} (h : Inv prio s ns) (x : ν) :
    Inv prio (plistDel s x) (ns.erase x) := by
  have hsorted := h.sorted.sublist (erase_sublist (a := x))
  by_cases hx : x ∈ ns
  · obtain ⟨ks, ls, rfl⟩ := append_of_mem hx
    have hnd := nodup_middle.1 h.nodes.nodup
    have hxs := (nodup_cons.1 hnd).1
    have herase : (ks ++ x :: ls).erase x = ks ++ ls := by
      rw [erase_append_right _ fun hmem => hxs (mem_append_left _ hmem), erase_cons_head]
    rw [herase] at hsorted ⊢
    refine ⟨h.nodes.del, ?_, hsorted⟩
    by_cases hsame : ∃ k ∈ ks, prio k = prio x
    · have hprio := h.leaders
      rw [leaders_append_cons hsame] at hprio
      have halone := hprio.next_eq_self.2 fun hmem => hxs (mem_of_mem_leaders hmem)
      simpa [plistDel, halone] using hprio
    · push Not at hsame
      have hks : ∀ k ∈ ks, prio k < prio x := fun k hk =>
        lt_of_le_of_ne ((pairwise_append.1 h.sorted).2.2 k hk x mem_cons_self) (hsame k hk)
      have hmem : x ∈ leaders prio (ks ++ x :: ls) := by
        rw [leaders_append]
        exact mem_append_right _ (mem_filter.2 ⟨mem_cons_self,
          decide_eq_true fun k hk => (hks k hk).ne'⟩)
      simpa [plistDel, h.leaders.next_eq_self, hmem, h.nodes.next] using leaders_del h hks
  · rw [erase_of_not_mem hx] at hsorted ⊢
    have halone := h.leaders.next_eq_self.2 fun hmem => hx (mem_of_mem_leaders hmem)
    exact ⟨by simpa [plistDel, h.nodes.del_absent hx] using h.nodes,
      by simpa [plistDel, halone] using h.leaders, hsorted⟩

/-- The nodes of one priority stand in the list as in `L`. -/
def Ordered (prio : ν → ℤ) (ns L : List ν) : Prop :=
  ∀ p, (ns.filter fun y => prio y = p) = L.filter fun y => prio y = p

lemma step_keeps {s s' : State ν} {e : Event ν} {L : List ν} (hstep : Step prio s e s')
    (h : ∃ ns, Inv prio s ns ∧ Ordered prio ns L) :
    ∃ ns, Inv prio s' ns ∧ Ordered prio ns (liveStep L e) := by
  obtain ⟨ns, hinv, hord⟩ := h
  cases hstep with
  | @add _ x hempty hadd =>
    obtain ⟨ks, ls, s', rfl, hls, hadd', hinv'⟩ :=
      plistAdd_spec hinv (hinv.nodes.next_eq_self.1 hempty)
    obtain rfl := Option.some.inj (hadd.symm.trans hadd')
    refine ⟨_, hinv', fun p => ?_⟩
    rw [liveStep, filter_append, filter_append, ← hord p, filter_append]
    by_cases hp : prio x = p
    · have hnil : (ls.filter fun y => prio y = p) = [] :=
        filter_eq_nil_iff.2 fun y hy => by simpa using (hp ▸ hls y hy).ne'
      simp [hp, hnil]
    · simp [hp]
  | del =>
    refine ⟨_, plistDel_spec hinv _, fun p => ?_⟩
    rw [liveStep, ← erase_filter, ← erase_filter, hord p]

omit [DecidableEq ν] in
lemma Ordered.mem_iff {L : List ν} (h : Ordered prio ns L) : x ∈ ns ↔ x ∈ L := by
  simpa using congrArg (x ∈ ·) (h (prio x))

section
variable {es : List (Event ν)} {s : State ν} (h : Run (Step prio) State.initial es s)
include h

lemma run_inv : ∃ ns, Inv prio s ns ∧ Ordered prio ns (live es) :=
  h.simulates (R := fun s L => ∃ ns, Inv prio s ns ∧ Ordered prio ns L)
    ⟨[], ⟨holds_initial, holds_initial, .nil⟩, fun _ => rfl⟩ fun _ _ _ _ h hs => step_keeps hs h

lemma run_add (hx : x ∉ live es) : ∃ s', Run (Step prio) State.initial (es ++ [.add x]) s' := by
  obtain ⟨ns, hinv, hord⟩ := run_inv h
  have hx := mt hord.mem_iff.1 hx
  obtain ⟨_, _, s', -, -, hadd, -⟩ := plistAdd_spec hinv hx
  exact ⟨s', h.snoc (.add (hinv.nodes.next_eq_self.2 hx) hadd)⟩

end

/-- The nodes are sorted by priority, those of one priority in the order in which they were added,
and the other list has the first node of each priority. -/
theorem plist_orders {es : List (Event ν)} {s : State ν} (h : Run (Step prio) State.initial es s) :
    ∃ ns, Holds s.nodeList ns ∧ Holds s.prioList (leaders prio ns) ∧
      ns.Pairwise (prio · ≤ prio ·) ∧ Ordered prio ns (live es) ∧ (∀ x, x ∈ ns ↔ x ∈ live es) ∧
      ∀ x ∉ ns, (plistAdd prio s x).isSome := by
  obtain ⟨ns, hinv, hord⟩ := run_inv h
  refine ⟨ns, hinv.nodes, hinv.leaders, hinv.sorted, hord, fun _ => hord.mem_iff, fun x hx => ?_⟩
  obtain ⟨_, _, s', -, -, hadd, -⟩ := plistAdd_spec hinv hx
  exact hadd ▸ rfl

/-- The node 2 comes before the others, which have one priority. -/
def samplePrio (node : ℕ) : ℤ := if node = 2 then 0 else 1

/-- The first node of a priority is deleted, and the next two stay in their order. -/
theorem plist_orders_group : ∃ (s : State ℕ) (ns : List ℕ),
    Run (Step samplePrio) State.initial [.add 0, .add 1, .add 2, .add 3, .del 0] s ∧
      Holds s.nodeList ns ∧ Holds s.prioList (leaders samplePrio ns) ∧
      ns.Pairwise (samplePrio · ≤ samplePrio ·) ∧
      (ns.filter fun x => samplePrio x = 0) = [2] ∧
      (ns.filter fun x => samplePrio x = 1) = [1, 3] := by
  obtain ⟨_, h⟩ : ∃ s, Run (Step samplePrio) State.initial [.add 0] s := run_add .nil (by decide)
  obtain ⟨_, h⟩ := run_add (x := 1) h (by decide)
  obtain ⟨_, h⟩ := run_add (x := 2) h (by decide)
  obtain ⟨_, h⟩ := run_add (x := 3) h (by decide)
  have h := h.snoc (e := .del 0) .del
  obtain ⟨ns, hnodes, hleaders, hsorted, hord, -⟩ := plist_orders h
  exact ⟨_, ns, h, hnodes, hleaders, hsorted, hord 0, hord 1⟩

end BooxKernel.Plist
