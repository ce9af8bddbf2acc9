import BooxKernel.Lib.Runs
import BooxKernel.Resource.Tree

/-!
# Runs of the resource tree

Any calls on any nodes of the tree keep it well formed. A call that succeeds adds
exactly the new resource, or removes the released one, and a call that fails
changes nothing.
-/
namespace BooxKernel.Resource
open Runs List

variable {f : Res → Chain → Option Chain} {child chain : Chain}

/-- The calls, with their arguments and return values. -/
inductive Event
  | request (root : ℕ) (new : Res) (ret : ℤ)
  | allocate (root : ℕ) (new : Res) (size min max alignment : ℕ) (ret : ℤ)
  | insert (parent : ℕ) (new : Res) (ret : ℤ)
  | requestRegion (parent start n : ℕ) (addr ret : Option ℕ)
  | release (old : ℕ) (ret : ℤ)
  | releaseRegion (parent start n : ℕ)

/-- The tree holds a structure at address `a`. -/
def Holds (tree : Chain) (a : ℕ) : Prop := a ∈ tree.resources.map Res.addr

instance (tree : Chain) (a : ℕ) : Decidable (Holds tree a) :=
  inferInstanceAs (Decidable (a ∈ tree.resources.map Res.addr))

/-- One call. The new resource of a call is not in the tree yet, and only a
childless resource that has a parent is released. -/
def Step (w : ℕ) (tree : Chain) : Event → Chain → Prop
  | .request root new ret, tree' =>
    Holds tree root ∧ ¬ Holds tree new.addr ∧ requestResource tree root new = (ret, tree')
  | .allocate root new size min max alignment ret, tree' =>
    Holds tree root ∧ ¬ Holds tree new.addr ∧
      allocateResource w tree root new size min max alignment = (ret, tree')
  | .insert parent new ret, tree' =>
    Holds tree parent ∧ ¬ Holds tree new.addr ∧ insertResource tree parent new = (ret, tree')
  | .requestRegion parent start n addr ret, tree' =>
    Holds tree parent ∧ (∀ a, addr = some a → ¬ Holds tree a) ∧ 1 ≤ n ∧
      requestRegion w tree parent start n addr = (ret, tree')
  | .release old ret, tree' =>
    (∃ res, (res, Chain.null) ∈ tree.nodes ∧ res.addr = old ∧ res.parent ≠ none) ∧
      releaseResource tree old = (ret, tree')
  | .releaseRegion parent start n, tree' =>
    Holds tree parent ∧ tree' = releaseRegion w tree parent start n

/-- What each call does to the resources of the tree. -/
def Event.Effect (w : ℕ) (tree tree' : Chain) : Event → Prop
  | .request _ new ret =>
    (ret = 0 ∧ Inserts new [] tree.resources tree'.resources) ∨ (ret ≠ 0 ∧ tree' = tree)
  | .allocate _ new _ _ _ _ ret =>
    (ret = 0 ∧ ∃ start stop,
      Inserts { new with start := start, stop := stop } [] tree.resources tree'.resources) ∨
    (ret ≠ 0 ∧ tree' = tree)
  | .insert _ new ret =>
    (ret = 0 ∧ ∃ moved, Inserts new moved tree.resources tree'.resources) ∨
    (ret ≠ 0 ∧ tree' = tree)
  | .requestRegion _ start n _ ret =>
    (∃ a, ret = some a ∧ Inserts (regionRes w a start n) [] tree.resources tree'.resources) ∨
    (ret = none ∧ tree' = tree)
  | .release old ret =>
    (ret = 0 ∧ ∃ res, res.addr = old ∧ tree.resources.Perm (res :: tree'.resources)) ∨
    (ret ≠ 0 ∧ tree' = tree)
  | .releaseRegion _ start n =>
    (∃ res below, (res.busy = true ∧ res.start = start ∧
      res.stop = (start + n + 2 ^ w - 1) % 2 ^ w) ∧
      tree.resources.Perm (res :: below ++ tree'.resources)) ∨
    tree' = tree

/-- The tree is well formed: the children of every node are sorted, disjoint, not
empty, inside the node's range, and point at the node. -/
def WellFormed (tree : Chain) : Prop :=
  ∀ n ∈ tree.nodes,
    n.2.siblings.Pairwise (fun a b => a.start < b.start ∧ a.stop < b.start) ∧
    ∀ x ∈ n.2.siblings, x.parent = some n.1.addr ∧ n.1.start ≤ x.start ∧ x.start ≤ x.stop ∧
      x.stop ≤ n.1.stop

section Calls
variable {root : Res} {tree tree' : Chain} {a : ℕ} {n n' m : Res × Chain}

lemma TreeInv.valid_of_node (h : TreeInv root tree) (hn : n ∈ tree.nodes) :
    Valid n.1.addr n.1.start n.1.stop n.2 := by
  obtain ⟨child, rfl, hv⟩ := h.shape
  simp only [Chain.nodes, append_nil, mem_cons] at hn
  rcases hn with rfl | hn
  · exact hv
  · exact hv.nodes n hn

lemma TreeInv.wellFormed (h : TreeInv root tree) : WellFormed tree :=
  fun _ hn => (h.valid_of_node hn).siblings

section
variable {Q : Res → Prop} (hnew : ∀ new, Q new → ¬ Holds tree new.addr) (hinv : TreeInv root tree)
  (h : tree.modifyAt a f = some tree')
include hnew hinv h

/-- An insertion below one node is an insertion into the tree. The resource that is
inserted, one of those in `Q`, may depend on the node. -/
lemma place_step {decision : Res → Res → Decision}
    (hdec : ∀ new x, decision new x = .descend → x.start ≤ new.start ∧ new.stop ≤ x.stop)
    (hf : ∀ res child child', f res child = some child' →
      ∃ new, Q new ∧ placeBelow (decision new) new res child = some child') :
    TreeInv root tree' ∧ ∃ new moved, Q new ∧ Inserts new moved tree.resources tree'.resources ∧
      ((∀ x, decision new x ≠ .adopt) → moved = []) := by
  obtain ⟨hshape, res, child, child', other, _, _, hv, hfc, hperm, hperm'⟩ := hinv.modifyAt
    (fun res child child' _ _ hv hfc => by
      obtain ⟨new, _, hplace⟩ := hf res child child' hfc
      exact (placeBelow_spec (hdec new) hv hplace).1) h
  obtain ⟨new, hQ, hplace⟩ := hf res child child' hfc
  obtain ⟨_, moved, hins, hnone⟩ := placeBelow_spec (hdec new) hv hplace
  have hall := hins.frame hperm hperm'
  refine ⟨⟨hshape, ?_⟩, new, moved, hQ, hall, hnone⟩
  exact hall.addrs.nodup_iff.2 (nodup_cons.2 ⟨hnew new hQ, hinv.nodup⟩)

lemma request_step (hf : ∀ res child child', f res child = some child' →
      ∃ new, Q new ∧ placeBelow requestDecision new res child = some child') :
    TreeInv root tree' ∧ ∃ new, Q new ∧ Inserts new [] tree.resources tree'.resources := by
  obtain ⟨hinv', new, moved, hQ, hins, hnone⟩ :=
    place_step hnew hinv h (fun _ _ hd => by simp [requestDecision] at hd) hf
  rw [hnone (by simp [requestDecision])] at hins
  exact ⟨hinv', new, hQ, hins⟩

end

/-- A call either fails and changes nothing or returns 0 with the changed tree. -/
lemma outcome_step {error ret : ℤ} {change : Option Chain} {P : Prop} (hinv : TreeInv root tree)
    (herror : 0 < error) (h : outcome error tree change = (ret, tree'))
    (hchange : change = some tree' → TreeInv root tree' ∧ P) :
    TreeInv root tree' ∧ ((ret = 0 ∧ P) ∨ (ret ≠ 0 ∧ tree' = tree)) := by
  cases change with
  | none =>
    obtain ⟨rfl, rfl⟩ := Prod.mk.inj h
    exact ⟨hinv, .inr ⟨by omega, rfl⟩⟩
  | some changed =>
    obtain ⟨rfl, rfl⟩ := Prod.mk.inj h
    exact (hchange rfl).imp_right fun hP => .inl ⟨rfl, hP⟩

lemma nodes_fst (chain : Chain) : chain.nodes.map Prod.fst = chain.resources := by
  induction chain with
  | null => rfl
  | node res child sibling ihchild ihsib =>
    simp only [Chain.nodes, Chain.resources, map_cons, map_append, ihchild, ihsib]

lemma TreeInv.node_unique (hinv : TreeInv root tree) (hn : n ∈ tree.nodes) (hn' : n' ∈ tree.nodes)
    (haddr : n.1.addr = n'.1.addr) : n = n' := by
  have hnd := hinv.nodup
  rw [← nodes_fst, map_map] at hnd
  exact inj_on_of_nodup_map hnd hn hn' haddr

lemma nodup_removed {gone : List Res} (hinv : TreeInv root tree)
    (h : tree.resources.Perm (gone ++ tree'.resources)) : (tree'.resources.map Res.addr).Nodup := by
  have hnd := (h.map Res.addr).nodup_iff.1 hinv.nodup
  rw [map_append] at hnd
  exact (nodup_append.1 hnd).2.1

lemma nodes_below (hn : n ∈ chain.nodes) (hm : m ∈ n.2.nodes) : m ∈ chain.nodes := by
  induction chain with
  | null => simp [Chain.nodes] at hn
  | node res child sibling ihchild ihsib =>
    simp only [Chain.nodes, mem_cons, mem_append] at hn ⊢
    rcases hn with rfl | hn | hn
    · exact .inr (.inl hm)
    · exact .inr (.inl (ihchild hn))
    · exact .inr (.inr (ihsib hn))

section
variable (hinv : TreeInv root tree)
include hinv

lemma release_step {old : ℕ} (hleaf : ∃ res, (res, Chain.null) ∈ tree.nodes ∧ res.addr = old)
    (h : tree.modifyAt a (fun _ child => unlink old child) = some tree') :
    TreeInv root tree' ∧ ∃ res, res.addr = old ∧ tree.resources.Perm (res :: tree'.resources) := by
  obtain ⟨hshape, top, child, child', other, hmem, _, hv, hun, hperm, hperm'⟩ :=
    hinv.modifyAt (fun _ _ _ _ _ hv hf => (unlink_spec hv hf).1) h
  obtain ⟨_, res, below, hin, haddr, hgone⟩ := unlink_spec hv hun
  obtain ⟨leaf, hleaf, hleafAddr⟩ := hleaf
  have hsame := hinv.node_unique (nodes_below hmem hin) hleaf (haddr.trans hleafAddr.symm)
  have hbelow : below = .null := congrArg Prod.snd hsame
  have hall := perm_removed hgone hperm hperm'
  rw [hbelow] at hall
  exact ⟨⟨hshape, nodup_removed hinv hall⟩, res, haddr, hall⟩

lemma releaseRegion_step (w start n : ℕ) : TreeInv root (releaseRegion w tree a start n) ∧
    ((∃ res below, (res.busy = true ∧ res.start = start ∧
      res.stop = (start + n + 2 ^ w - 1) % 2 ^ w) ∧
      tree.resources.Perm (res :: below ++ (releaseRegion w tree a start n).resources)) ∨
    releaseRegion w tree a start n = tree) := by
  have hcall : releaseRegion w tree a start n = (tree.modifyAt a fun _ child =>
      unlinkRegion start ((start + n + 2 ^ w - 1) % 2 ^ w) child).getD tree := rfl
  rw [hcall]
  cases hmod : tree.modifyAt a fun _ child =>
      unlinkRegion start ((start + n + 2 ^ w - 1) % 2 ^ w) child with
  | none => exact ⟨hinv, .inr rfl⟩
  | some tree' =>
    obtain ⟨hshape, top, child, child', other, _, _, hv, hun, hperm, hperm'⟩ :=
      hinv.modifyAt (fun _ _ _ _ _ hv hf => (unlinkRegion_spec hv hf).1) hmod
    obtain ⟨_, res, below, _, hres, hgone⟩ := unlinkRegion_spec hv hun
    have hall := perm_removed hgone hperm hperm'
    exact ⟨⟨hshape, nodup_removed hinv hall⟩, .inl ⟨res, below.resources, hres, hall⟩⟩

lemma TreeInv.find_addr {res : Res} (hmem : (res, child) ∈ tree.nodes) :
    (tree.resources.find? fun r => r.addr = res.addr) = some res := by
  have hres : res ∈ tree.resources := by
    rw [← nodes_fst]
    exact mem_map_of_mem hmem
  cases hf : tree.resources.find? fun r => r.addr = res.addr with
  | none =>
    have hnone := find?_eq_none.1 hf res hres
    simp at hnone
  | some r =>
    have haddr : r.addr = res.addr := by simpa using find?_some hf
    rw [inj_on_of_nodup_map hinv.nodup (mem_of_find?_eq_some hf) hres haddr]

lemma releaseResource_eq {old : ℕ} {leaf : Res}
    (hleaf : (leaf, Chain.null) ∈ tree.nodes) (haddr : leaf.addr = old) (hparent : leaf.parent ≠ none) :
    ∃ parent, releaseResource tree old =
      outcome eINVAL tree (tree.modifyAt parent fun _ child => unlink old child) := by
  have hfind := hinv.find_addr hleaf
  rw [haddr] at hfind
  obtain ⟨parent, hp⟩ := Option.ne_none_iff_exists'.1 hparent
  refine ⟨parent, ?_⟩
  unfold releaseResource
  simp only [hfind, hp]

lemma step_spec {w : ℕ} {e : Event} (hstep : Step w tree e tree') :
    TreeInv root tree' ∧ e.Effect w tree tree' := by
  cases e with
  | request top new ret =>
    obtain ⟨_, hnew, hcall⟩ := hstep
    refine outcome_step hinv (by decide) hcall fun hmod => ?_
    obtain ⟨hinv', _, rfl, hins⟩ := request_step (Q := (· = new))
      (by rintro _ rfl; exact hnew) hinv hmod (fun _ _ _ hf => ⟨new, rfl, hf⟩)
    exact ⟨hinv', hins⟩
  | allocate top new size min max alignment ret =>
    obtain ⟨_, hnew, hcall⟩ := hstep
    refine outcome_step hinv (by decide) hcall fun hmod => ?_
    obtain ⟨hinv', _, ⟨start, stop, rfl⟩, hins⟩ := request_step
      (Q := fun n => ∃ start stop, n = { new with start := start, stop := stop })
      (by rintro _ ⟨_, _, rfl⟩; exact hnew)
      hinv hmod (fun res child child' hf => by
        cases hfind : findResource w res child size min max alignment with
        | none => simp [hfind] at hf
        | some range =>
          rw [hfind] at hf
          exact ⟨_, ⟨range.1, range.2, rfl⟩, hf⟩)
    exact ⟨hinv', start, stop, hins⟩
  | insert top new ret =>
    obtain ⟨_, hnew, hcall⟩ := hstep
    refine outcome_step hinv (by decide) hcall fun hmod => ?_
    obtain ⟨hinv', _, moved, rfl, hins, _⟩ := place_step (Q := (· = new)) (by rintro _ rfl; exact hnew)
      hinv hmod (fun _ _ hd => by unfold insertDecision at hd; split_ifs at hd; omega)
      (fun _ _ _ hf => ⟨new, rfl, hf⟩)
    exact ⟨hinv', moved, hins⟩
  | requestRegion top start n addr ret =>
    obtain ⟨_, hnew, _, hcall⟩ := hstep
    cases addr with
    | none =>
      simp only [requestRegion, Prod.mk.injEq] at hcall
      rw [← hcall.2]
      exact ⟨hinv, .inr ⟨hcall.1.symm, rfl⟩⟩
    | some b =>
      unfold requestRegion at hcall
      cases hmod : tree.modifyAt top (placeBelow (regionDecision (regionRes w b start n))
          (regionRes w b start n)) with
      | none =>
        simp only [hmod, Prod.mk.injEq] at hcall
        rw [← hcall.2]
        exact ⟨hinv, .inr ⟨hcall.1.symm, rfl⟩⟩
      | some changed =>
        simp only [hmod, Prod.mk.injEq] at hcall
        obtain ⟨hinv', _, moved, rfl, hins, hnone⟩ :=
          place_step (Q := (· = regionRes w b start n)) (by rintro _ rfl; exact hnew b rfl)
            hinv hmod (fun _ _ hd => by unfold regionDecision at hd; split_ifs at hd; omega)
            (fun _ _ _ hf => ⟨_, rfl, hf⟩)
        rw [hnone (by intro x; unfold regionDecision; split_ifs <;> simp)] at hins
        rw [← hcall.2]
        exact ⟨hinv', .inl ⟨b, hcall.1.symm, hins⟩⟩
  | release old ret =>
    obtain ⟨⟨leaf, hleaf, haddr, hparent⟩, hcall⟩ := hstep
    obtain ⟨parent, heq⟩ := releaseResource_eq hinv hleaf haddr hparent
    rw [heq] at hcall
    exact outcome_step hinv (by decide) hcall (release_step hinv ⟨leaf, hleaf, haddr⟩)
  | releaseRegion top start n =>
    obtain ⟨_, rfl⟩ := hstep
    exact releaseRegion_step hinv w start n

end

end Calls

lemma Valid.start_le {p lo hi : ℕ} (h : Valid p lo hi chain) {x : Res}
    (hx : x ∈ chain.siblings) : lo ≤ x.start ∧ x.start ≤ x.stop ∧ x.stop ≤ hi :=
  (h.siblings.2 x hx).2

section Modify
open Chain

variable {tree : Chain} {res : Res} {a : ℕ}

lemma modifyAt_eq_none (ha : ¬ Holds tree a) : tree.modifyAt a f = none := by
  induction tree with
  | null => rfl
  | node top child sibling ihchild ihsib =>
    simp only [Holds, resources, map_cons, map_append, mem_cons, mem_append, not_or] at ha
    rw [modifyAt, if_neg (Ne.symm ha.1), ihchild ha.2.1, ihsib ha.2.2]
    rfl

lemma holds_of_node (hmem : (res, child) ∈ tree.nodes) : Holds tree res.addr := by
  unfold Holds
  rw [← nodes_fst, map_map]
  exact mem_map_of_mem hmem

lemma modifyAt_isSome (hnodup : (tree.resources.map Res.addr).Nodup)
    (hmem : (res, child) ∈ tree.nodes) :
    (tree.modifyAt res.addr f).isSome = (f res child).isSome := by
  induction tree with
  | null => simp [nodes] at hmem
  | node top below sibling ihchild ihsib =>
    rw [resources, map_cons, map_append, nodup_cons, nodup_append] at hnodup
    obtain ⟨htop, hbelow, hsib, hapart⟩ := hnodup
    rw [mem_append, not_or] at htop
    rw [nodes, mem_cons, mem_append] at hmem
    rcases hmem with heq | hmem | hmem
    · obtain ⟨rfl, rfl⟩ := Prod.mk.inj heq
      rw [modifyAt, if_pos rfl, Option.isSome_map]
    · have hin := holds_of_node hmem
      have hne : ¬ top.addr = res.addr := fun h => htop.1 (h ▸ hin)
      have hsome := ihchild hbelow hmem
      rw [modifyAt, if_neg hne]
      cases hc : below.modifyAt res.addr f with
      | some child' =>
        rw [hc] at hsome
        exact hsome
      | none =>
        rw [hc] at hsome
        rw [modifyAt_eq_none fun hin' => hapart _ hin _ hin' rfl]
        exact hsome
    · have hin := holds_of_node hmem
      have hne : ¬ top.addr = res.addr := fun h => htop.2 (h ▸ hin)
      rw [modifyAt, if_neg hne, modifyAt_eq_none fun hin' => hapart _ hin' _ hin rfl,
        Option.isSome_map]
      exact ihsib hsib hmem

lemma modifyAt_nodes {tree' : Chain} (h : tree.modifyAt a f = some tree') :
    ∃ res child child', res.addr = a ∧ f res child = some child' ∧ (res, child') ∈ tree'.nodes := by
  induction tree generalizing tree' with
  | null => simp [modifyAt] at h
  | node top below sibling ihchild ihsib =>
    unfold modifyAt at h
    split_ifs at h with ha
    · obtain ⟨child', hf, rfl⟩ := Option.map_eq_some_iff.1 h
      exact ⟨top, below, child', ha, hf, mem_cons_self⟩
    · cases hc : below.modifyAt a f with
      | some below' =>
        simp only [hc, Option.some.injEq] at h
        subst h
        obtain ⟨res, child, child', haddr, hf, hmem⟩ := ihchild hc
        exact ⟨res, child, child', haddr, hf, by simp [nodes, hmem]⟩
      | none =>
        simp only [hc, Option.map_eq_some_iff] at h
        obtain ⟨sibling', hs, rfl⟩ := h
        obtain ⟨res, child, child', haddr, hf, hmem⟩ := ihsib hs
        exact ⟨res, child, child', haddr, hf, by simp [nodes, hmem]⟩

end Modify

/-- In every state that any calls can reach from a root resource, the tree is well
formed, and every further call has its effect: a successful insertion adds exactly
the new resource (`insert_resource` moves resources that it covers below it), and a
call that fails leaves the tree as it was. -/
theorem resource_tree {w : ℕ} {root : Res} {es : List Event} {tree : Chain}
    (hrun : Run (Step w) (.node root .null .null) es tree) :
    WellFormed tree ∧ ∀ e tree', Step w tree e tree' → e.Effect w tree tree' := by
  have hinv : TreeInv root tree := by
    refine hrun.invariant (I := TreeInv root) ?_ fun _ _ _ ht hs => (step_spec ht hs).1
    exact ⟨⟨.null, rfl, trivial⟩, by simp [Chain.resources]⟩
  exact ⟨hinv.wellFormed, fun e tree' hs => (step_spec hinv hs).2⟩

/-- A region below a plain resource, and a resource inserted around both. -/
theorem resource_tree_nested :
    WellFormed (.node ⟨0, 0, 999, false, none⟩
      (.node ⟨3, 5, 50, false, some 0⟩
        (.node ⟨1, 10, 29, false, some 3⟩
          (.node ⟨2, 12, 15, true, some 1⟩ .null .null) .null) .null) .null) := by
  refine (resource_tree (?_ : Run (Step 32) (.node ⟨0, 0, 999, false, none⟩ .null .null)
    [.request 0 ⟨1, 10, 29, false, none⟩ 0, .requestRegion 0 12 4 (some 2) (some 2),
      .insert 0 ⟨3, 5, 50, false, none⟩ 0] _)).1
  exact .cons ⟨by decide, by decide, rfl⟩
    (.cons ⟨by decide, by intro a ha; cases ha; decide, by decide, rfl⟩
      (.cons ⟨by decide, by decide, rfl⟩ .nil))

end BooxKernel.Resource
