import BooxKernel.Resource.Runs

/-!
# Adjusting a resource

`adjust_resource` computes the new end as `start + size - 1`, which wraps, and compares
the new range with the parent, the children and the two neighbours only. This keeps the
tree well formed as long as the range is one. An end before the start is noticed only
where the resource has children or where the parent or a neighbour is in the way.
-/
namespace BooxKernel.Resource
open Option List Chain

/-- The siblings before `r` end before `start`, and those behind it start after `stop`. -/
def Clear (chain : Chain) (r : Res) (start stop : ℕ) : Prop :=
  ∀ x ∈ chain.siblings, (x.start < r.start → x.stop < start) ∧ (r.start < x.start → stop < x.start)

section Chains
variable {res start stop p lo hi lo' hi' : ℕ} {prev : Option Res} {chain chain' : Chain}

lemma Valid.clip (h : Valid p lo hi chain)
    (hall : ∀ x ∈ chain.siblings, lo' ≤ x.start ∧ x.stop ≤ hi') : Valid p lo' hi' chain := by
  induction chain generalizing lo lo' with
  | null => trivial
  | node tmp child sibling _ ih =>
    obtain ⟨hparent, _, hle, _, hchild, hsib⟩ := h
    rw [Chain.siblings, forall_mem_cons] at hall
    refine ⟨hparent, hall.1.1, hle, hall.1.2, hchild, ih hsib fun x hx => ⟨?_, (hall.2 x hx).2⟩⟩
    exact (hsib.start_le hx).1

/-- The test that `adjust_resource` makes of the two neighbours stands for all siblings. -/
lemma adjustChain_isSome {r : Res} {c : Chain} (hv : Valid p lo hi chain) (hr : r ∈ chain.siblings)
    (hunique : ∀ n ∈ chain.nodes, n.1.addr = r.addr → n = (r, c)) (hprev : ∀ x ∈ prev, x.stop < lo) :
    (adjustChain r.addr start stop prev chain).isSome = true ↔
      (∀ x ∈ c.siblings, start ≤ x.start ∧ x.stop ≤ stop) ∧ (∀ x ∈ prev, x.stop < start) ∧
        Clear chain r start stop := by
  induction chain generalizing lo prev with
  | null => simp [siblings] at hr
  | node tmp child sibling _ ih =>
    obtain ⟨_, hlo, hle, _, _, hsib⟩ := hv
    rw [siblings, mem_cons] at hr
    rw [adjustChain, Clear, siblings, forall_mem_cons]
    by_cases haddr : tmp.addr = r.addr
    · obtain ⟨rfl, rfl⟩ := Prod.mk.inj (hunique (tmp, child) mem_cons_self haddr)
      rw [if_pos rfl]
      split_ifs with hin hnext hbefore
      · obtain ⟨x, hx, hout⟩ := hin
        refine iff_of_false (by simp) fun h => ?_
        have hx := h.1 x hx
        omega
      · obtain ⟨x, hx, hle'⟩ := hnext
        refine iff_of_false (by simp) fun h => ?_
        have hmem := mem_of_mem_head? hx
        have hlt := (hsib.start_le hmem).1
        have hx := (h.2.2.2 x hmem).2 (by omega)
        omega
      · obtain ⟨x, hx, hle'⟩ := hbefore
        refine iff_of_false (by simp) fun h => ?_
        have hx := h.2.1 x hx
        omega
      · push Not at hin hnext hbefore
        refine iff_of_true rfl ⟨hin, hbefore, by omega, fun x hx => ⟨?_, fun _ => ?_⟩⟩
        · have hx := hsib.start_le hx
          omega
        · cases sibling with
          | null => simp [siblings] at hx
          | node sib _ _ =>
            have hx := (hsib.raise (hnext sib rfl)).start_le hx
            omega
    · have hr : r ∈ sibling.siblings := hr.resolve_left fun h => haddr (h ▸ rfl)
      have hbehind := hsib.start_le hr
      rw [if_neg haddr, isSome_map, ih hsib hr (fun n hn => hunique n (by simp [nodes, hn]))
        fun x hx => by rw [← mem_some_iff.1 hx]; exact lt_add_one _]
      constructor
      · rintro ⟨hin, htmp, hclear⟩
        have htmp := htmp tmp rfl
        refine ⟨hin, fun x hx => ?_, by omega, hclear⟩
        have hx := hprev x hx
        omega
      · rintro ⟨hin, _, htmp, hclear⟩
        refine ⟨hin, fun x hx => ?_, hclear⟩
        rw [← mem_some_iff.1 hx]
        exact htmp.1 (by omega)

section
variable (h : adjustChain res start stop prev chain = some chain')
include h

lemma adjustChain_mem : ∃ x ∈ chain'.siblings, x.start = start ∧ x.stop = stop := by
  induction chain generalizing prev chain' with
  | null => simp [adjustChain] at h
  | node tmp child sibling _ ih =>
    rw [adjustChain] at h
    by_cases haddr : tmp.addr = res
    · split_ifs at h
      obtain rfl := some.inj h
      exact ⟨_, mem_cons_self, rfl, rfl⟩
    · rw [if_neg haddr, map_eq_some_iff] at h
      obtain ⟨sibling', hsome, rfl⟩ := h
      obtain ⟨x, hx, hrange⟩ := ih hsome
      exact ⟨x, mem_cons_of_mem tmp hx, hrange⟩

lemma adjustChain_spec (hle : start ≤ stop) (hstop : stop ≤ hi) (hv : Valid p lo hi chain)
    (hprev : ∀ x ∈ prev, lo = x.stop + 1) (hnone : prev = none → lo ≤ start) :
    Valid p lo hi chain' ∧ chain'.resources.map Res.addr = chain.resources.map Res.addr := by
  induction chain generalizing lo prev chain' with
  | null => simp [adjustChain] at h
  | node tmp child sibling _ ih =>
    obtain ⟨hparent, hlo, htmp, hhi, hchild, hsib⟩ := hv
    rw [adjustChain] at h
    by_cases haddr : tmp.addr = res
    · split_ifs at h with hin hnext hbefore
      obtain rfl := some.inj h
      push Not at hin hnext hbefore
      refine ⟨⟨hparent, ?_, hle, hstop, hchild.clip hin, ?_⟩, rfl⟩
      · cases prev with
        | none => exact hnone rfl
        | some x =>
          rw [hprev x rfl]
          exact hbefore x rfl
      · cases sibling with
        | null => trivial
        | node sib _ _ => exact hsib.raise (hnext sib rfl)
    · rw [if_neg haddr, map_eq_some_iff] at h
      obtain ⟨sibling', hsome, rfl⟩ := h
      have hstep : ∀ x ∈ some tmp, tmp.stop + 1 = x.stop + 1 := by
        intro x hx
        rw [mem_some_iff.1 hx]
      obtain ⟨hv', haddrs⟩ := ih hsome hsib hstep fun hx => by cases hx
      refine ⟨⟨hparent, hlo, htmp, hhi, hchild, hv'⟩, ?_⟩
      simp only [resources, map_cons, map_append, haddrs]

end

end Chains

section Trees
variable {w start size stop a : ℕ} {root parent r : Res} {tree tree' chain c : Chain}

lemma adjustBelow_eq_some {res : ℕ} {child child' : Chain} :
    adjustBelow res start stop parent child = some child' ↔ parent.start ≤ start ∧
      stop ≤ parent.stop ∧ adjustChain res start stop none child = some child' := by
  unfold adjustBelow
  split_ifs with hout
  · exact iff_of_false (by simp) fun h => by omega
  · push Not at hout
    exact ⟨fun h => ⟨hout.1, hout.2, h⟩, fun h => h.2.2⟩

lemma adjust_step (hinv : TreeInv root tree) (hle : start ≤ stop)
    (h : tree.modifyAt a (adjustBelow r.addr start stop) = some tree') : TreeInv root tree' := by
  have hspec : ∀ parent child child', Valid parent.addr parent.start parent.stop child →
      adjustBelow r.addr start stop parent child = some child' →
      Valid parent.addr parent.start parent.stop child' ∧
        child'.resources.map Res.addr = child.resources.map Res.addr := by
    intro parent child child' hv hadjust
    obtain ⟨hstart, hstop, hchain⟩ := adjustBelow_eq_some.1 hadjust
    exact adjustChain_spec hchain hle hstop hv (fun x hx => by cases hx) (fun _ => hstart)
  obtain ⟨hshape, top, child, child', other, _, _, hv, hadjust, hperm, hperm'⟩ :=
    hinv.modifyAt (fun _ _ _ _ _ hv hadjust => (hspec _ _ _ hv hadjust).1) h
  have haddrs := (hspec _ _ _ hv hadjust).2
  refine ⟨hshape, ?_⟩
  have hsame := hperm.map Res.addr
  have hsame' := hperm'.map Res.addr
  rw [map_append] at hsame hsame'
  rw [haddrs] at hsame'
  exact (hsame'.trans hsame.symm).nodup_iff.2 hinv.nodup

lemma adjust_isSome (hinv : TreeInv root tree) (hparent : (parent, chain) ∈ tree.nodes)
    (hr : r ∈ chain.siblings) (hmem : (r, c) ∈ tree.nodes) :
    (tree.modifyAt parent.addr (adjustBelow r.addr start stop)).isSome = true ↔
      parent.start ≤ start ∧ stop ≤ parent.stop ∧
        (∀ x ∈ c.siblings, start ≤ x.start ∧ x.stop ≤ stop) ∧ Clear chain r start stop := by
  have hchain : (adjustChain r.addr start stop none chain).isSome = true ↔ _ :=
    adjustChain_isSome (hinv.valid_of_node hparent) hr
      (fun n hn haddr => hinv.node_unique (nodes_below hparent hn) hmem haddr) (by simp)
  rw [modifyAt_isSome hinv.nodup hparent, isSome_iff_exists]
  simp only [adjustBelow_eq_some, exists_and_left, ← isSome_iff_exists, hchain, not_mem_none,
    false_implies, implies_true, true_and]

/-- For every child `r` of `parent`, every start and every size: the call returns 0 with a
well formed tree or `-EBUSY` with the tree as it was, unless `r` has no children, the end
wraps to before the start, and neither `parent` nor a sibling is in the way. -/
theorem adjust_resource_keeps (hinv : TreeInv root tree) (hparent : (parent, chain) ∈ tree.nodes)
    (hr : r ∈ chain.siblings) (hmem : (r, c) ∈ tree.nodes) (start size stop : ℕ)
    (hstop : stop = (start + size + 2 ^ w - 1) % 2 ^ w) :
    (∃ ret tree', adjustResource w tree r.addr start size = some (ret, tree') ∧
      (ret = 0 ∧ TreeInv root tree' ∧ WellFormed tree' ∨ ret = -eBUSY ∧ tree' = tree)) ↔
    ¬ (stop < start ∧ c = .null ∧ parent.start ≤ start ∧ stop ≤ parent.stop ∧
      Clear chain r start stop) := by
  have hv := hinv.valid_of_node hparent
  have hcall : adjustResource w tree r.addr start size =
      some (outcome eBUSY tree (tree.modifyAt parent.addr (adjustBelow r.addr start stop))) := by
    unfold adjustResource
    simp only [hinv.find_addr hmem, (hv.siblings.2 r hr).1, map_some, hstop]
  have hsome : (tree.modifyAt parent.addr (adjustBelow r.addr start stop)).isSome = true ↔ _ :=
    adjust_isSome hinv hparent hr hmem
  rw [hcall]
  cases hmod : tree.modifyAt parent.addr (adjustBelow r.addr start stop) with
  | none =>
    rw [hmod] at hsome
    refine iff_of_true ⟨_, _, rfl, .inr ⟨rfl, rfl⟩⟩ ?_
    rintro ⟨_, rfl, hlo, hhi, hclear⟩
    exact absurd (hsome.2 ⟨hlo, hhi, by simp [siblings], hclear⟩) (by simp)
  | some tree' =>
    rw [hmod] at hsome
    obtain ⟨hlo, hhi, hin, hclear⟩ := hsome.1 rfl
    constructor
    · rintro ⟨ret, _, hret, hkeeps⟩ ⟨hempty, _⟩
      obtain ⟨rfl, rfl⟩ := Prod.mk.inj (some.inj hret)
      have hwf := (hkeeps.resolve_right fun h => absurd h.1 (by decide)).2.2
      obtain ⟨top, below, below', _, hbelow', hnode⟩ := modifyAt_nodes hmod
      obtain ⟨x, hx, rfl, rfl⟩ := adjustChain_mem (adjustBelow_eq_some.1 hbelow').2.2
      have hx := ((hwf _ hnode).2 x hx).2.2.1
      omega
    · intro hbad
      have hle : start ≤ stop := by
        by_contra hlt
        refine hbad ⟨by omega, ?_, hlo, hhi, hclear⟩
        cases c with
        | null => rfl
        | node first _ _ =>
          have hfirst := hin first mem_cons_self
          have hrange := ((hinv.valid_of_node hmem).start_le mem_cons_self).2.1
          omega
      have hinv' := adjust_step hinv hle hmod
      exact ⟨0, tree', rfl, .inl ⟨rfl, hinv', hinv'.wellFormed⟩⟩

/-- A resource between two others is moved and made larger. -/
theorem adjust_between :
    ∃ ret tree', adjustResource 32 (.node ⟨0, 0, 99, false, none⟩
      (.node ⟨1, 0, 9, false, some 0⟩ .null (.node ⟨2, 20, 29, false, some 0⟩ .null
        (.node ⟨3, 60, 69, false, some 0⟩ .null .null))) .null) 2 10 50 = some (ret, tree') ∧
      ret = 0 ∧ WellFormed tree' := by
  have hinv : TreeInv ⟨0, 0, 99, false, none⟩ (.node ⟨0, 0, 99, false, none⟩
      (.node ⟨1, 0, 9, false, some 0⟩ .null (.node ⟨2, 20, 29, false, some 0⟩ .null
        (.node ⟨3, 60, 69, false, some 0⟩ .null .null))) .null) :=
    ⟨⟨_, rfl, by simp [Valid]⟩, by decide⟩
  obtain ⟨ret, tree', hcall, hret⟩ := (adjust_resource_keeps (w := 32) (c := .null)
    (r := ⟨2, 20, 29, false, some 0⟩) hinv mem_cons_self (by decide) (by decide) 10 50 59
      (by decide)).2 fun h => absurd h.1 (by decide)
  refine ⟨ret, tree', hcall, ?_⟩
  rcases hret with ⟨hzero, _, hwf⟩ | ⟨hbusy, _⟩
  · exact ⟨hzero, hwf⟩
  · have hfst := congrArg (Option.map Prod.fst) hcall
    rw [hbusy, map_some] at hfst
    dsimp only at hfst
    exact absurd hfst (by decide)

/-- A tree with one resource below the root. -/
def oneChild (start stop : ℕ) : Chain :=
  .node ⟨0, 0, 99, false, none⟩ (.node ⟨1, start, stop, false, some 0⟩ .null .null) .null

/-- With size 0 the end is before the start, and so it is when `start + size` wraps. -/
theorem adjust_to_empty_range :
    TreeInv ⟨0, 0, 99, false, none⟩ (oneChild 10 19) ∧
    adjustResource 32 (oneChild 10 19) 1 10 0 = some (0, oneChild 10 9) ∧
    ¬ WellFormed (oneChild 10 9) ∧
    adjustResource 32 (oneChild 10 19) 1 50 (2 ^ 32 - 20) = some (0, oneChild 50 29) := by
  refine ⟨⟨⟨_, rfl, by simp [Valid]⟩, by decide⟩, by decide, fun hwf => ?_, by decide⟩
  have hchild := (hwf _ mem_cons_self).2 _ mem_cons_self
  exact absurd hchild.2.2.1 (by decide)

end Trees

end BooxKernel.Resource
