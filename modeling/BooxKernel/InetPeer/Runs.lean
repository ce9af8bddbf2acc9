import BooxKernel.InetPeer.Unlink
import BooxKernel.Lib.Runs

/-!
# Runs of the pool

The lock of the pool makes its sections atomic, so a run is a sequence of them. A history of
sections determines the abstract state: which peer each address has. The slab decides which
memory a new peer gets, and the other users of a peer may change its reference count at any
time.
-/
namespace BooxKernel.InetPeer
open Option Function List BalancedTrees Runs
open BinaryTree (nil node)

variable {A : Type*} [DecidableEq A]

/-- The memory, and the peers that are allocated. -/
structure State (A : Type*) where
  mem : Mem A
  live : List A

/-- An empty pool: `peer_root` is `peer_avl_empty`. -/
def Empty (s : State A) : Prop :=
  s.mem.root = none ∧ s.mem.node none = peerFakeNode ∧ s.mem.total = 0 ∧ s.live = []

/-- The sections under the lock, with their results. -/
inductive Event (A : Type*)
  | find (daddr : Daddr) (result : Option A)
  | create (daddr : Daddr) (n : A) (result : Option A) (linked : Bool)
  | unlink (p : A) (freed : Bool)
  | refcnt (p : A) (count : ℤ)

/-- One section. The slab returns memory that is not in use, and a peer that is not linked or
that is unlinked goes back to it. -/
def Step (s : State A) : Event A → State A → Prop
  | .find daddr result, s' =>
    ∃ m, getpeerRead daddr s.mem = some (result, m) ∧ s' = { s with mem := m }
  | .create daddr n result linked, s' =>
    n ∉ s.live ∧ ∃ m, getpeerWrite daddr n s.mem = some (result, linked, m) ∧
      s' = ⟨m, if linked then n :: s.live else s.live⟩
  | .unlink p freed, s' =>
    p ∈ s.live ∧ ∃ m, unlinkFromPool p s.mem = some (freed, m) ∧
      s' = ⟨m, if freed then s.live.erase p else s.live⟩
  | .refcnt p count, s' =>
    p ∈ s.live ∧ s' = { s with mem := setRefcnt p (fun _ => count) s.mem }

/-- The abstract state: the peer of each address. -/
abbrev Peers (A : Type*) := Daddr → Option A

/-- What one section does to the abstract state. -/
def after (peers : Peers A) : Event A → Peers A
  | .create daddr n _ true => update peers daddr (some n)
  | .unlink p true => fun daddr => if peers daddr = some p then none else peers daddr
  | _ => peers

/-- The abstract state that a history of sections leads to. -/
def history (es : List (Event A)) : Peers A := es.foldl InetPeer.after fun _ => none

/-- The pool holds the peers of the abstract state, in a balanced search tree. -/
structure Holds (peers : Peers A) (s : State A) (t : BinaryTree A) : Prop where
  inv : PoolInv s.mem t
  live : s.live.Perm (inorder t)
  total : s.mem.total = t.numNodes
  peers : ∀ daddr a, peers daddr = some a ↔ a ∈ inorder t ∧ key s.mem a = daddr

variable {s s' : State A} {peers : Peers A} {t t' : BinaryTree A}

section
variable (h : Holds peers s t)
include h

lemma Holds.setRefcnt (a : A) (f : ℤ → ℤ) : Holds peers { s with mem := setRefcnt a f s.mem } t :=
  ⟨h.inv.setRefcnt a f, h.live, h.total, fun daddr b => by rw [key_setRefcnt, h.peers]⟩

omit [DecidableEq A] in
lemma Holds.same {m : Mem A} (hinv : PoolInv m t) (hkeys : ∀ b ∈ inorder t, key m b = key s.mem b)
    (htotal : m.total = s.mem.total) : Holds peers { s with mem := m } t := by
  refine ⟨hinv, h.live, htotal.trans h.total, fun daddr a => ?_⟩
  rw [h.peers]
  exact and_congr_right fun ha => by rw [hkeys a ha]

omit [DecidableEq A] in
lemma Holds.link {m : Mem A} {n : A} (hn : n ∉ inorder t)
    (hfree : ∀ a ∈ inorder t, key s.mem a ≠ key m n) (hinv : PoolInv m t')
    (hperm : (inorder t').Perm (n :: inorder t)) (hkeys : ∀ b ∈ inorder t, key m b = key s.mem b)
    (htotal : m.total = s.mem.total + 1) :
    Holds (update peers (key m n) (some n)) ⟨m, n :: s.live⟩ t' := by
  refine ⟨hinv, (h.live.cons n).trans hperm.symm, ?_, fun daddr a => ?_⟩
  · have hlen := hperm.length_eq
    rw [length_inorder, length_cons, length_inorder] at hlen
    rw [htotal, h.total, hlen]
    rfl
  · rw [hperm.mem_iff, mem_cons]
    by_cases hdaddr : daddr = key m n
    · subst hdaddr
      rw [update_self]
      constructor
      · rintro ⟨⟩
        exact ⟨.inl rfl, rfl⟩
      · rintro ⟨rfl | ha, hkey⟩
        · rfl
        · exact absurd ((hkeys a ha).symm.trans hkey) (hfree a ha)
    · rw [update_of_ne hdaddr, h.peers]
      constructor
      · rintro ⟨ha, hkey⟩
        exact ⟨.inr ha, (hkeys a ha).trans hkey⟩
      · rintro ⟨rfl | ha, hkey⟩
        · exact absurd hkey.symm hdaddr
        · exact ⟨ha, (hkeys a ha).symm.trans hkey⟩

lemma Holds.unlink {m : Mem A} {p : A} (hp : p ∈ inorder t) (hinv : PoolInv m t')
    (horder : inorder t' = (inorder t).erase p) (hkeys : ∀ b, key m b = key s.mem b)
    (htotal : m.total = s.mem.total - 1) :
    Holds (fun daddr => if peers daddr = some p then none else peers daddr)
      ⟨m, s.live.erase p⟩ t' := by
  refine ⟨hinv, horder ▸ h.live.erase p, ?_, fun daddr a => ?_⟩
  · have hlen := length_erase_add_one hp
    rw [← horder, length_inorder, length_inorder] at hlen
    rw [htotal, h.total, ← hlen]
    push_cast
    ring
  · rw [horder, h.inv.nodup.mem_erase_iff, hkeys a]
    by_cases hgone : peers daddr = some p
    · rw [if_pos hgone]
      constructor
      · rintro ⟨⟩
      · rintro ⟨⟨hne, ha⟩, hkey⟩
        have ha' := (h.peers daddr a).2 ⟨ha, hkey⟩
        exact absurd (some.inj (ha'.symm.trans hgone)) hne
    · rw [if_neg hgone, h.peers]
      constructor
      · rintro ⟨ha, hkey⟩
        refine ⟨⟨?_, ha⟩, hkey⟩
        rintro rfl
        exact hgone ((h.peers daddr a).2 ⟨ha, hkey⟩)
      · rintro ⟨⟨-, ha⟩, hkey⟩
        exact ⟨ha, hkey⟩

lemma step_holds {e : Event A} (hstep : Step s e s') :
    ∃ t', Holds (InetPeer.after peers e) s' t' := by
  cases e with
  | find daddr result =>
    obtain ⟨m, hcall, rfl⟩ := hstep
    obtain ⟨p, hlookup, -⟩ := lookup_spec h.inv daddr
    rw [getpeerRead, hlookup, map_some, some.injEq, Prod.mk.injEq] at hcall
    obtain ⟨rfl, rfl⟩ := hcall
    cases p with
    | none => exact ⟨t, h⟩
    | some a => exact ⟨t, h.setRefcnt a (· + 1)⟩
  | create daddr n result linked =>
    obtain ⟨hn, m, hcall, rfl⟩ := hstep
    rw [h.live.mem_iff] at hn
    obtain ⟨hnone, -⟩ | ⟨a, m', hsome, -, -, hinv, hkeys, htotal⟩ |
      ⟨m', t', hsome, hfree, hinv, hperm, rfl, hkeys, htotal⟩ := getpeerWrite_spec h.inv hn daddr
    · rw [hnone] at hcall
      cases hcall
    · obtain ⟨rfl, rfl, rfl⟩ : some a = result ∧ false = linked ∧ m' = m := by
        simpa [hsome] using hcall
      exact ⟨t, h.same hinv hkeys htotal⟩
    · obtain ⟨rfl, rfl, rfl⟩ : some n = result ∧ true = linked ∧ m' = m := by
        simpa [hsome] using hcall
      exact ⟨t', h.link hn hfree hinv hperm hkeys htotal⟩
  | unlink p freed =>
    obtain ⟨hp, m, hcall, rfl⟩ := hstep
    rw [h.live.mem_iff] at hp
    obtain ⟨hnone, -⟩ | ⟨hkept, -⟩ | ⟨m', t', hsome, -, hinv, horder, hkeys, htotal⟩ :=
      unlinkFromPool_spec h.inv hp
    · rw [hnone] at hcall
      cases hcall
    · obtain ⟨rfl, rfl⟩ : false = freed ∧ s.mem = m := by simpa [hkept] using hcall
      exact ⟨t, h⟩
    · obtain ⟨rfl, rfl⟩ : true = freed ∧ m' = m := by simpa [hsome] using hcall
      exact ⟨t', h.unlink hp hinv horder hkeys htotal⟩
  | refcnt p count =>
    obtain ⟨-, rfl⟩ := hstep
    exact ⟨t, h.setRefcnt p _⟩

end

lemma run_holds {s₀ : State A} {es : List (Event A)} (hempty : Empty s₀)
    (hrun : Run Step s₀ es s) : ∃ t, Holds (history es) s t := by
  refine hrun.simulates (R := fun s peers => ∃ t, Holds peers s t) ⟨nil, ?_⟩ ?_
  · obtain ⟨hroot, hfake, htotal, hlive⟩ := hempty
    exact ⟨⟨⟨trivial, hroot, hfake, nodup_nil⟩, trivial, List.Pairwise.nil⟩,
      by rw [hlive]; rfl, htotal, fun daddr a => by simp [inorder]⟩
  · rintro s e s' peers ⟨t, h⟩ hstep
    exact step_holds h hstep

omit [DecidableEq A] in
lemma Holds.height_lt (h : Holds peers s t) (hsize : s.live.length < 2 ^ 27) :
    t.height < peerMaxDepth := by
  rw [h.live.length_eq, length_inorder] at hsize
  have hheight := BalancedTrees.height_lt (h := 39) h.inv.avl hsize (by norm_num [Nat.fib])
  exact hheight.trans (by decide)

omit [DecidableEq A] in
lemma Holds.lookup (h : Holds peers s t) (daddr : Daddr) :
    InetPeer.lookup s.mem daddr = some (peers daddr) := by
  obtain ⟨p, hlookup, hp⟩ := lookup_spec h.inv daddr
  have heq : p = peers daddr := ext fun a => by
    rw [hp, h.peers]
  rw [hlookup, heq]

/-- The pool is a balanced search tree of the peers that were linked and not unlinked since, in
which every node knows its height. No section faults while there are fewer than 2 ^ 27 of them. -/
theorem inet_peer_pool_avl {s₀ : State A} {es : List (Event A)} (hempty : Empty s₀)
    (hrun : Run Step s₀ es s) :
    (∃ t, Draws s.mem t ∧ Avl t ∧ Sorted s.mem t ∧ s.live.Perm (inorder t) ∧
      ∀ daddr a, history es daddr = some a ↔ a ∈ inorder t ∧ (s.mem.node a).v4daddr = daddr) ∧
    (∀ daddr, lookup s.mem daddr = some (history es daddr)) ∧
    (s.live.length < 2 ^ 27 → ∀ daddr, ∀ n ∉ s.live, ∃ m,
      getpeerWrite daddr n s.mem =
        some (some ((history es daddr).getD n), (history es daddr).isNone, m)) ∧
    (s.live.length < 2 ^ 27 → ∀ p ∈ s.live, ∃ m,
      unlinkFromPool p s.mem = some (decide ((s.mem.node p).refcnt = 1), m)) := by
  obtain ⟨t, h⟩ := run_holds hempty hrun
  refine ⟨⟨t, h.inv.toDraws, h.inv.avl, h.inv.sorted, h.live, h.peers⟩, h.lookup, ?_, ?_⟩
  · intro hsize daddr n hn
    have hheight := h.height_lt hsize
    rw [h.live.mem_iff] at hn
    obtain ⟨-, hhigh⟩ | ⟨a, m, hsome, ha, hkey, -⟩ | ⟨m, t', hsome, hfree, -⟩ :=
      getpeerWrite_spec h.inv hn daddr
    · omega
    · have hpeer := (h.peers daddr a).2 ⟨ha, hkey⟩
      exact ⟨m, by rw [hsome, hpeer]; rfl⟩
    · have hpeer : history es daddr = none := by
        by_contra hne
        obtain ⟨a, ha⟩ := ne_none_iff_exists'.1 hne
        obtain ⟨hmem, hkey⟩ := (h.peers daddr a).1 ha
        exact hfree a hmem hkey
      exact ⟨m, by rw [hsome, hpeer]; rfl⟩
  · intro hsize p hp
    have hheight := h.height_lt hsize
    rw [h.live.mem_iff] at hp
    obtain ⟨-, hhigh⟩ | ⟨hkept, href⟩ | ⟨m, t', hsome, href, -⟩ := unlinkFromPool_spec h.inv hp
    · omega
    · exact ⟨s.mem, by rw [hkept, decide_eq_false href]⟩
    · exact ⟨m, by rw [hsome, decide_eq_true href]⟩

/-- Three peers are linked in the order of their addresses, so that the third one turns the tree,
and the one in the middle, which nobody else uses, is unlinked. -/
theorem inet_peer_pool_rotation :
    ∃ s : State ℕ, Run Step ⟨⟨fun _ => peerFakeNode, none, 0⟩, []⟩
        [.create 1 1 (some 1) true, .create 2 2 (some 2) true, .create 3 3 (some 3) true,
          .refcnt 2 1, .unlink 2 true] s ∧
      (∃ t, Draws s.mem t ∧ Avl t ∧ Sorted s.mem t ∧ s.live.Perm (inorder t)) ∧
      s.live = [3, 1] ∧ lookup s.mem 1 = some (some 1) ∧ lookup s.mem 2 = some none ∧
      lookup s.mem 3 = some (some 3) := by
  have hempty : Empty (⟨⟨fun _ => peerFakeNode, none, 0⟩, []⟩ : State ℕ) := ⟨rfl, rfl, rfl, rfl⟩
  obtain ⟨m1, hm1⟩ := (inet_peer_pool_avl hempty .nil).2.2.1 (by simp) 1 1 (by simp)
  have h1 := Run.nil.snoc (show Step _ (.create 1 1 (some 1) true) ⟨m1, [1]⟩ from
    ⟨by simp, m1, hm1, rfl⟩)
  obtain ⟨m2, hm2⟩ := (inet_peer_pool_avl hempty h1).2.2.1 (by simp) 2 2 (by simp)
  have h2 := h1.snoc (show Step _ (.create 2 2 (some 2) true) ⟨m2, [2, 1]⟩ from
    ⟨by simp, m2, hm2, rfl⟩)
  obtain ⟨m3, hm3⟩ := (inet_peer_pool_avl hempty h2).2.2.1 (by simp) 3 3 (by simp)
  have h3 := h2.snoc (show Step _ (.create 3 3 (some 3) true) ⟨m3, [3, 2, 1]⟩ from
    ⟨by simp, m3, hm3, rfl⟩)
  have h4 := h3.snoc (show Step _ (.refcnt 2 1) _ from ⟨by simp, rfl⟩)
  obtain ⟨m5, hm5⟩ := (inet_peer_pool_avl hempty h4).2.2.2 (by simp) 2 (by simp)
  have hlast : (((setRefcnt 2 (fun _ => 1) m3).node (some 2)).refcnt = 1) := by
    simp [setRefcnt, Mem.update]
  rw [decide_eq_true hlast] at hm5
  have h5 := h4.snoc (show Step _ (.unlink 2 true) ⟨m5, [3, 1]⟩ from ⟨by simp, m5, hm5, rfl⟩)
  obtain ⟨⟨t, hdraws, havl, hsorted, hlive, -⟩, hlookup, -⟩ := inet_peer_pool_avl hempty h5
  exact ⟨_, h5, ⟨t, hdraws, havl, hsorted, hlive⟩, rfl, hlookup 1, hlookup 2, hlookup 3⟩

end BooxKernel.InetPeer
