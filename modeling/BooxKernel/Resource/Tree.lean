import BooxKernel.Resource.Model

/-!
# The invariant of the resource tree

`Valid parent lo hi` says of a chain of siblings that they lie in `[lo, hi]` one
after the other, point at `parent`, and have valid chains of children. Each loop
of the source that changes a chain keeps it, and the structures reached before
and after are compared as lists up to order.
-/
namespace BooxKernel.Resource
open Option List Chain

/-- The invariant of a chain of children of `parent` inside `[lo, hi]`. -/
def Valid : (parent lo hi : ℕ) → Chain → Prop
  | _, _, _, .null => True
  | parent, lo, hi, .node res child sibling =>
    res.parent = some parent ∧ lo ≤ res.start ∧ res.start ≤ res.stop ∧ res.stop ≤ hi ∧
      Valid res.addr res.start res.stop child ∧ Valid parent (res.stop + 1) hi sibling

variable {parent lo lo' hi : ℕ} {chain child sibling : Chain}

lemma Valid.mono (h : Valid parent lo hi chain) (hle : lo' ≤ lo) : Valid parent lo' hi chain := by
  cases chain with
  | null => trivial
  | node res child sibling =>
    obtain ⟨hparent, hlo, hrest⟩ := h
    exact ⟨hparent, hle.trans hlo, hrest⟩

lemma Valid.raise {res : Res} (h : Valid parent lo hi (.node res child sibling))
    (hle : lo' ≤ res.start) : Valid parent lo' hi (.node res child sibling) := by
  obtain ⟨hparent, _, hrest⟩ := h
  exact ⟨hparent, hle, hrest⟩

/-- The siblings of a valid chain, in the words of the source: ordered and disjoint,
not empty, inside the range, and with the right parent. -/
lemma Valid.siblings (h : Valid parent lo hi chain) :
    chain.siblings.Pairwise (fun a b => a.start < b.start ∧ a.stop < b.start) ∧
    ∀ x ∈ chain.siblings, x.parent = some parent ∧ lo ≤ x.start ∧ x.start ≤ x.stop ∧
      x.stop ≤ hi := by
  induction chain generalizing lo with
  | null => simp [siblings]
  | node res child sibling _ ih =>
    obtain ⟨hparent, hlo, hle, hhi, _, hsib⟩ := h
    obtain ⟨hpair, hall⟩ := ih hsib
    rw [siblings, pairwise_cons]
    refine ⟨⟨fun x hx => ?_, hpair⟩, forall_mem_cons.2 ⟨⟨hparent, hlo, hle, hhi⟩, fun x hx => ?_⟩⟩
    · have hx := hall x hx
      omega
    · have hx := hall x hx
      exact ⟨hx.1, by omega, hx.2.2⟩

lemma Valid.nodes (h : Valid parent lo hi chain) :
    ∀ n ∈ chain.nodes, Valid n.1.addr n.1.start n.1.stop n.2 := by
  induction chain generalizing parent lo hi with
  | null => simp [nodes]
  | node res child sibling ihchild ihsib =>
    obtain ⟨_, _, _, _, hchild, hsib⟩ := h
    intro n hn
    rw [nodes, mem_cons, mem_append] at hn
    rcases hn with rfl | hn | hn
    · exact hchild
    · exact ihchild hchild n hn
    · exact ihsib hsib n hn

lemma resources_sibling (res : Res) (child sibling : Chain) :
    (node res child sibling).resources.Perm
      (sibling.resources ++ (res :: child.resources)) := by
  rw [resources, ← cons_append]
  exact perm_append_comm

lemma resources_child (res : Res) (child sibling : Chain) :
    (node res child sibling).resources.Perm (child.resources ++ (res :: sibling.resources)) :=
  perm_middle.symm

section Insertion
variable {new : Res} {moved l l' k k' other : List Res} {decision : Res → Decision}
  {chain chain' child child' : Chain}

/-- List `l'` is `l` with `new` added below `q`; the resources `moved`, which `new`
covers, went from `q` to `new`. -/
def Inserts (new : Res) (moved l l' : List Res) : Prop :=
  ∃ q rest, l.Perm (moved ++ rest) ∧
    l'.Perm ({ new with parent := some q } ::
      (moved.map (fun x => { x with parent := some new.addr }) ++ rest)) ∧
    ∀ x ∈ moved, x.parent = some q ∧ new.start ≤ x.start ∧ x.stop ≤ new.stop

lemma Inserts.frame (h : Inserts new moved l l') (hk : k.Perm (l ++ other))
    (hk' : k'.Perm (l' ++ other)) : Inserts new moved k k' := by
  obtain ⟨q, rest, hl, hl', hmoved⟩ := h
  refine ⟨q, rest ++ other, ?_, ?_, hmoved⟩
  · rw [← append_assoc]
    exact hk.trans (hl.append_right other)
  · have hperm := hk'.trans (hl'.append_right other)
    rw [cons_append, append_assoc] at hperm
    exact hperm

lemma Inserts.addrs (h : Inserts new moved l l') :
    (l'.map Res.addr).Perm (new.addr :: l.map Res.addr) := by
  obtain ⟨q, rest, hl, hl', _⟩ := h
  have h1 := hl'.map Res.addr
  have h2 := (hl.map Res.addr).cons new.addr
  have hsame : moved.map (Res.addr ∘ fun x => { x with parent := some new.addr }) =
      moved.map Res.addr := rfl
  simp only [map_cons, map_append, List.map_map, hsame] at h1 h2
  exact h1.trans h2.symm

/-- The siblings that go below `new` form a valid chain there, and those that
follow them start after `new`. -/
lemma takeRun_spec {p lo hi : ℕ} {run : Chain × Chain} (hv : Valid p lo hi chain)
    (h : takeRun new chain = some run) :
    Valid new.addr lo new.stop run.1 ∧ Valid p (new.stop + 1) hi run.2 ∧
    ∃ moved rest, chain.resources.Perm (moved ++ rest) ∧
      (run.1.resources ++ run.2.resources).Perm
        (moved.map (fun x => { x with parent := some new.addr }) ++ rest) ∧
      ∀ x ∈ moved, x.parent = some p ∧ new.start ≤ x.start ∧ x.stop ≤ new.stop := by
  induction chain generalizing lo run with
  | null => simp [takeRun] at h
  | node next child sibling _ ih =>
    obtain ⟨hparent, hlo, hle, hhi, hchild, hsib⟩ := hv
    unfold takeRun at h
    split_ifs at h with hout
    push Not at hout
    have hmoved : ∀ x ∈ [next], x.parent = some p ∧ new.start ≤ x.start ∧ x.stop ≤ new.stop := by
      intro x hx
      rw [mem_singleton.1 hx]
      exact ⟨hparent, hout.1, hout.2⟩
    cases hs : sibling with
    | null =>
      rw [hs] at h
      simp only [some.injEq] at h
      subst h
      refine ⟨⟨rfl, hlo, hle, hout.2, hchild, trivial⟩, trivial, [next], child.resources, ?_, ?_,
        hmoved⟩
      · simp [resources]
      · simp [resources]
    | node sib c s =>
      rw [hs] at h
      dsimp only at h
      split_ifs at h with hsep
      · simp only [some.injEq] at h
        subst h
        rw [hs] at hsib
        refine ⟨⟨rfl, hlo, hle, hout.2, hchild, trivial⟩, hsib.raise hsep, [next],
          child.resources ++ (node sib c s).resources, ?_, ?_, hmoved⟩
        · simp [resources]
        · simp [resources]
      · rw [← hs] at h
        cases hrun : takeRun new sibling with
        | none => simp [hrun] at h
        | some run' =>
          rw [hrun] at h
          simp only [map_some, some.injEq] at h
          subst h
          obtain ⟨hbelow, hafter, moved, rest, hperm, hperm', hall⟩ := ih hsib hrun
          refine ⟨⟨rfl, hlo, hle, hout.2, hchild, hbelow⟩, hafter, next :: moved,
            child.resources ++ rest, ?_, ?_, ?_⟩
          · rw [hs] at hperm
            exact ((hperm.append_left child.resources).trans
              (perm_append_comm_assoc _ _ _)).cons next
          · have hbig := (hperm'.append_left child.resources).trans (perm_append_comm_assoc _ _ _)
            rw [← append_assoc] at hbig
            exact hbig.cons _
          · exact forall_mem_cons.2 ⟨hmoved _ (mem_singleton_self _), hall⟩

/-- The walk of `__request_resource` with its caller's decisions keeps a chain
valid, when the new resource lies in its range and is looked for only below
resources that contain it. -/
lemma placeChain_spec (hnew : new.start ≤ new.stop)
    (hdec : ∀ x, decision x = .descend → x.start ≤ new.start ∧ new.stop ≤ x.stop) {p lo hi : ℕ}
    (hv : Valid p lo hi chain) (hlo : lo ≤ new.start) (hhi : new.stop ≤ hi)
    (h : placeChain decision new p chain = some chain') :
    Valid p lo hi chain' ∧ ∃ moved, Inserts new moved chain.resources chain'.resources ∧
      ((∀ x, decision x ≠ .adopt) → moved = []) := by
  induction chain generalizing p lo hi chain' with
  | null =>
    simp only [placeChain, some.injEq] at h
    subst h
    exact ⟨⟨rfl, hlo, hnew, hhi, trivial, trivial⟩, [],
      ⟨p, [], List.Perm.refl _, List.Perm.refl _, by simp⟩, fun _ => rfl⟩
  | node tmp child sibling ihchild ihsib =>
    have hwhole := hv
    obtain ⟨hparent, htlo, htle, hthi, hchild, hsib⟩ := hv
    unfold placeChain at h
    by_cases hbefore : tmp.start > new.stop
    · rw [if_pos hbefore, some.injEq] at h
      subst h
      refine ⟨⟨rfl, hlo, hnew, hhi, trivial, hwhole.raise hbefore⟩, [], ?_, fun _ => rfl⟩
      exact ⟨p, _, List.Perm.refl _, List.Perm.refl _, by simp⟩
    rw [if_neg hbefore] at h
    by_cases hafter : tmp.stop < new.start
    · rw [if_pos hafter, map_eq_some_iff] at h
      obtain ⟨sibling', hplace, rfl⟩ := h
      obtain ⟨hv', moved, hins, hnone⟩ := ihsib hsib hafter hhi hplace
      refine ⟨⟨hparent, htlo, htle, hthi, hchild, hv'⟩, moved, ?_, hnone⟩
      exact hins.frame (resources_sibling _ _ _) (resources_sibling _ _ _)
    rw [if_neg hafter] at h
    cases hd : decision tmp with
    | fail => simp [hd] at h
    | descend =>
      simp only [hd, map_eq_some_iff] at h
      obtain ⟨child', hplace, rfl⟩ := h
      have hin := hdec tmp hd
      obtain ⟨hv', moved, hins, hnone⟩ := ihchild hchild hin.1 hin.2 hplace
      refine ⟨⟨hparent, htlo, htle, hthi, hv', hsib⟩, moved, ?_, hnone⟩
      exact hins.frame (resources_child _ _ _) (resources_child _ _ _)
    | adopt =>
      simp only [hd, map_eq_some_iff] at h
      obtain ⟨run, hrun, rfl⟩ := h
      have hstart : new.start ≤ tmp.start := by
        unfold takeRun at hrun
        by_contra hlt
        rw [if_pos (by omega)] at hrun
        simp at hrun
      obtain ⟨hbelow, hrest, moved, rest, hperm, hperm', hall⟩ :=
        takeRun_spec (hwhole.raise hstart) hrun
      refine ⟨⟨rfl, hlo, hnew, hhi, hbelow, hrest⟩, moved, ⟨p, rest, hperm, ?_, hall⟩, ?_⟩
      · exact hperm'.cons _
      · intro hno
        exact absurd hd (hno tmp)

lemma placeBelow_spec
    (hdec : ∀ x, decision x = .descend → x.start ≤ new.start ∧ new.stop ≤ x.stop) {root : Res}
    (hv : Valid root.addr root.start root.stop child)
    (h : placeBelow decision new root child = some child') :
    Valid root.addr root.start root.stop child' ∧
    ∃ moved, Inserts new moved child.resources child'.resources ∧
      ((∀ x, decision x ≠ .adopt) → moved = []) := by
  unfold placeBelow at h
  split_ifs at h with h1 h2 h3
  exact placeChain_spec (by omega) hdec hv (by omega) (by omega) h

end Insertion

section Removal

lemma perm_removed {gone l l' k k' other : List Res} (h : l.Perm (gone ++ l'))
    (hk : k.Perm (l ++ other)) (hk' : k'.Perm (l' ++ other)) : k.Perm (gone ++ k') := by
  have hall := hk.trans (h.append_right other)
  rw [append_assoc] at hall
  exact hall.trans (hk'.symm.append_left gone)

variable {chain chain' : Chain} {old p lo hi start stop : ℕ}

lemma unlink_spec (hv : Valid p lo hi chain) (h : unlink old chain = some chain') :
    Valid p lo hi chain' ∧ ∃ res child, (res, child) ∈ chain.nodes ∧ res.addr = old ∧
      chain.resources.Perm (res :: child.resources ++ chain'.resources) := by
  induction chain generalizing lo chain' with
  | null => simp [unlink] at h
  | node tmp child sibling _ ih =>
    obtain ⟨hparent, hlo, hle, hhi, hchild, hsib⟩ := hv
    unfold unlink at h
    split_ifs at h with hold
    · simp only [some.injEq] at h
      subst h
      exact ⟨hsib.mono (by omega), tmp, child, mem_cons_self, hold, List.Perm.refl _⟩
    · rw [map_eq_some_iff] at h
      obtain ⟨sibling', hun, rfl⟩ := h
      obtain ⟨hv', res, below, hmem, haddr, hperm⟩ := ih hsib hun
      refine ⟨⟨hparent, hlo, hle, hhi, hchild, hv'⟩, res, below, by simp [nodes, hmem], haddr,
        ?_⟩
      exact perm_removed hperm (resources_sibling _ _ _) (resources_sibling _ _ _)

lemma unlinkRegion_spec (hv : Valid p lo hi chain)
    (h : unlinkRegion start stop chain = some chain') :
    Valid p lo hi chain' ∧ ∃ res child, (res, child) ∈ chain.nodes ∧
      (res.busy = true ∧ res.start = start ∧ res.stop = stop) ∧
      chain.resources.Perm (res :: child.resources ++ chain'.resources) := by
  induction chain generalizing p lo hi chain' with
  | null => simp [unlinkRegion] at h
  | node res child sibling ihchild ihsib =>
    obtain ⟨hparent, hlo, hle, hhi, hchild, hsib⟩ := hv
    unfold unlinkRegion at h
    split_ifs at h with hin hbusy hexact
    · rw [map_eq_some_iff] at h
      obtain ⟨child', hun, rfl⟩ := h
      obtain ⟨hv', gone, below, hmem, hgone, hperm⟩ := ihchild hchild hun
      refine ⟨⟨hparent, hlo, hle, hhi, hv', hsib⟩, gone, below, by simp [nodes, hmem], hgone,
        ?_⟩
      exact perm_removed hperm (resources_child _ _ _) (resources_child _ _ _)
    · simp only [some.injEq] at h
      subst h
      push Not at hexact
      refine ⟨hsib.mono (by omega), res, child, mem_cons_self, ⟨?_, hexact⟩, List.Perm.refl _⟩
      simpa using hbusy
    · rw [map_eq_some_iff] at h
      obtain ⟨sibling', hun, rfl⟩ := h
      obtain ⟨hv', gone, below, hmem, hgone, hperm⟩ := ihsib hsib hun
      refine ⟨⟨hparent, hlo, hle, hhi, hchild, hv'⟩, gone, below, by simp [nodes, hmem], hgone,
        ?_⟩
      exact perm_removed hperm (resources_sibling _ _ _) (resources_sibling _ _ _)

end Removal

section Trees
variable {a : ℕ} {f : Res → Chain → Option Chain} {tree tree' : Chain}

/-- The children of one node were replaced by `f`, and nothing else. -/
def Modified (a : ℕ) (f : Res → Chain → Option Chain) (tree tree' : Chain) : Prop :=
  ∃ res child child' other, (res, child) ∈ tree.nodes ∧ res.addr = a ∧
    Valid res.addr res.start res.stop child ∧ f res child = some child' ∧
    tree.resources.Perm (child.resources ++ other) ∧
    tree'.resources.Perm (child'.resources ++ other)

lemma Modified.frame {other : List Res} {big big' : Chain} (h : Modified a f tree tree')
    (hnodes : ∀ n ∈ tree.nodes, n ∈ big.nodes) (hbig : big.resources.Perm (tree.resources ++ other))
    (hbig' : big'.resources.Perm (tree'.resources ++ other)) : Modified a f big big' := by
  obtain ⟨res, child, child', rest, hmem, ha, hv, hf, hperm, hperm'⟩ := h
  refine ⟨res, child, child', rest ++ other, hnodes _ hmem, ha, hv, hf, ?_, ?_⟩
  · rw [← append_assoc]
    exact hbig.trans (hperm.append_right other)
  · rw [← append_assoc]
    exact hbig'.trans (hperm'.append_right other)

section
variable (hf : ∀ res child child', (res, child) ∈ tree.nodes → res.addr = a →
  Valid res.addr res.start res.stop child → f res child = some child' →
    Valid res.addr res.start res.stop child')
include hf

lemma modifyAt_spec {p lo hi : ℕ} (hv : Valid p lo hi tree) (h : tree.modifyAt a f = some tree') :
    Valid p lo hi tree' ∧ Modified a f tree tree' := by
  induction tree generalizing p lo hi tree' with
  | null => simp [modifyAt] at h
  | node res child sibling ihchild ihsib =>
    obtain ⟨hparent, hlo, hle, hhi, hchild, hsib⟩ := hv
    unfold modifyAt at h
    split_ifs at h with ha
    · rw [map_eq_some_iff] at h
      obtain ⟨child', hfc, rfl⟩ := h
      refine ⟨⟨hparent, hlo, hle, hhi, hf _ _ _ mem_cons_self ha hchild hfc, hsib⟩, res, child,
        child', res :: sibling.resources, mem_cons_self, ha, hchild, hfc, ?_, ?_⟩
      · exact resources_child _ _ _
      · exact resources_child _ _ _
    · cases hc : child.modifyAt a f with
      | some child' =>
        simp only [hc, some.injEq] at h
        subst h
        obtain ⟨hv', hmod⟩ := ihchild (fun _ _ _ hn => hf _ _ _ (by simp [nodes, hn])) hchild hc
        refine ⟨⟨hparent, hlo, hle, hhi, hv', hsib⟩, ?_⟩
        exact hmod.frame (fun n hn => by simp [nodes, hn]) (resources_child _ _ _)
          (resources_child _ _ _)
      | none =>
        simp only [hc, map_eq_some_iff] at h
        obtain ⟨sibling', hs, rfl⟩ := h
        obtain ⟨hv', hmod⟩ := ihsib (fun _ _ _ hn => hf _ _ _ (by simp [nodes, hn])) hsib hs
        refine ⟨⟨hparent, hlo, hle, hhi, hchild, hv'⟩, ?_⟩
        exact hmod.frame (fun n hn => by simp [nodes, hn]) (resources_sibling _ _ _)
          (resources_sibling _ _ _)

/-- The invariant of the whole tree below `root`. -/
structure TreeInv (root : Res) (tree : Chain) : Prop where
  shape : ∃ child, tree = .node root child .null ∧ Valid root.addr root.start root.stop child
  nodup : (tree.resources.map Res.addr).Nodup

lemma TreeInv.modifyAt {root : Res} (hinv : TreeInv root tree)
    (h : tree.modifyAt a f = some tree') :
    (∃ child, tree' = .node root child .null ∧ Valid root.addr root.start root.stop child) ∧
      Modified a f tree tree' := by
  obtain ⟨child, rfl, hv⟩ := hinv.shape
  unfold modifyAt at h
  split_ifs at h with ha
  · rw [map_eq_some_iff] at h
    obtain ⟨child', hfc, rfl⟩ := h
    refine ⟨⟨child', rfl, hf _ _ _ mem_cons_self ha hv hfc⟩, root, child, child', [root],
      mem_cons_self, ha, hv, hfc, ?_, ?_⟩
    · exact resources_child _ _ _
    · exact resources_child _ _ _
  · cases hc : child.modifyAt a f with
    | some child' =>
      simp only [hc, some.injEq] at h
      subst h
      obtain ⟨hv', hmod⟩ := modifyAt_spec (fun _ _ _ hn => hf _ _ _ (by simp [nodes, hn])) hv hc
      refine ⟨⟨child', rfl, hv'⟩, ?_⟩
      exact hmod.frame (fun n hn => by simp [nodes, hn]) (resources_child _ _ _)
        (resources_child _ _ _)
    | none => simp [hc, modifyAt] at h

end

end Trees

end BooxKernel.Resource
