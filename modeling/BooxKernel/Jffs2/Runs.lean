import BooxKernel.Jffs2.Truncate

/-!
# The tree as a map of the file

A history of calls determines a file: which node each offset belongs to, and how long the file
is. The fragment tree is the map of this file after every run, and every call returns.
-/
namespace BooxKernel.Jffs2

open ColoredTrees Rbtree Runs Tilings List Inode Prod

variable {A N : Type}

/-- A call for an inode. A node is added with what the caller has filled in, and the memory
that the allocations for its fragment and for a second one return. -/
inductive Op (A N : Type)
  | add (fn : N) (d : FullDnode) (newfrag extra : A)
  | truncate (size : ℕ)

/-- What a call returns. -/
inductive Result
  | ret (err : Option Errno)
  | size (n : ℕ)
  deriving DecidableEq, Repr

/-- Which node each offset belongs to, and the length of the file. -/
structure File (N : Type) where
  covering : ℕ → Option N
  size : ℕ

def File.empty : File N := ⟨fun _ => none, 0⟩

/-- What a call makes of the file. -/
def File.after (file : File N) : Op A N → File N
  | .add fn d _ _ =>
    { covering := fun b => if d.ofs ≤ b ∧ b < d.ofs + d.size then some fn else file.covering b
      size := max file.size (d.ofs + d.size) }
  | .truncate size =>
    { covering := fun b => if size ≤ b then none else file.covering b
      size := min size file.size }

/-- The file after a history of calls. -/
def history (ops : List (Op A N)) : File N := ops.foldl File.after .empty

/-- What a call returns when its allocations succeed. -/
def Op.result (file : File N) : Op A N → Result
  | .add .. => .ret none
  | .truncate size => .size (min size file.size)

/-- The added node is not empty, ends below `2 ^ 32` and is new, and the allocations return
memory that is not in use. -/
def Op.Admissible (s : Inode A N) : Op A N → Prop
  | .add fn d newfrag extra =>
    0 < d.size ∧ d.ofs + d.size < 2 ^ 32 ∧
      (∀ a, Reach s.fragtree a → (s.frag a).node ≠ some fn) ∧
      ¬Reach s.fragtree newfrag ∧ ¬Reach s.fragtree extra ∧ newfrag ≠ extra
  | .truncate size => size < 2 ^ 32

section Maps
variable [DecidableEq N]

/-- The fragments of the tree are a map of the file. -/
structure Maps (s : Inode A N) (L : List (A × NodeFrag N)) (file : File N) : Prop where
  valid : Valid s L file.size
  covering : ∀ p ∈ L, ∀ b, p.2.ofs ≤ b → b < p.2.ofs + p.2.size → p.2.node = file.covering b
  beyond : ∀ b, file.size ≤ b → file.covering b = none
  counts : Counts s (L.map snd)

lemma maps_empty {s : Inode A N} (h : s.fragtree.root = none) : Maps s [] File.empty where
  valid := ⟨.nil h, rfl, by simp, by simp [File.empty]⟩
  covering := by simp
  beyond := fun _ _ => rfl
  counts := by simp [Counts]

end Maps

variable [DecidableEq A] [DecidableEq N]

/-- A call on the tree. -/
def Inode.call (s : Inode A N) (shift : ℕ) : Op A N → Option (Inode A N × Result)
  | .add fn d newfrag extra => do
    let (s, err) ← (s.modifyDnode fn fun _ => d).addFullDnodeToInode shift fn (some newfrag)
      (some extra)
    return (s, .ret err)
  | .truncate size => do
    let (s, n) ← s.truncateFragtree shift size
    return (s, .size n)

/-- One call that is made as it should be, and returns. -/
def Step (shift : ℕ) (s : Inode A N) (op : Op A N) (s' : Inode A N) : Prop :=
  op.Admissible s ∧ ∃ r, s.call shift op = some (s', r)

variable {s s' : Inode A N} {L : List (A × NodeFrag N)} {file : File N} {shift : ℕ}

omit [DecidableEq A] [DecidableEq N] in
lemma Shows.reach_iff (h : Shows s L) {a : A} : Reach s.fragtree a ↔ a ∈ L.map fst := by
  obtain ⟨t, -, ht, -, horder⟩ := h.tree
  rw [ht.reach_iff, horder]

omit [DecidableEq A] in
lemma Shows.refs_eq_zero (h : Shows s L) {fn : N}
    (hfn : ∀ a, Reach s.fragtree a → (s.frag a).node ≠ some fn) : refs fn (L.map snd) = 0 := by
  refine countP_eq_zero.2 fun f hf => ?_
  obtain ⟨p, hp, rfl⟩ := mem_map.1 hf
  rw [decide_eq_true_eq, ← h.frag p hp]
  exact hfn p.1 (h.reach_iff.2 (mem_map_of_mem hp))

omit [DecidableEq A] in
/-- A new fragment among what stays of the old ones is a map of the changed file. -/
lemma Added.maps {newfrag : A} {fn : N} {d : FullDnode} (extra : A) (h : Maps s L file)
    (hadded : Added s s' L file.size newfrag ⟨some fn, d.size, d.ofs⟩) (hsize : 0 < d.size)
    (hbound : d.ofs + d.size < 2 ^ 32) (hunused : refs fn (L.map snd) = 0) :
    ∃ L', Maps s' L' (file.after (.add fn d newfrag extra)) ∧
      Reclaims s s' (L.map snd) (L'.map snd) := by
  obtain ⟨ws, zs, hshows, hspliced, hdrops⟩ := hadded
  have hold : ∀ p ∈ ws ++ zs, ∀ b, p.2.ofs ≤ b → b < p.2.ofs + p.2.size →
      ¬(d.ofs ≤ b ∧ b < d.ofs + d.size) ∧ p.2.node = file.covering b := by
    intro p hp b hle hlt
    have hmem : p.2 ∈ ws.map snd ++ zs.map snd := by
      rw [← map_append]
      exact mem_map_of_mem hp
    refine ⟨?_, ?_⟩
    · rcases mem_append.1 hp with hp | hp
      · have hend : p.2.ofs + p.2.size ≤ d.ofs := hspliced.before.spread.upper (mem_map_of_mem hp)
        omega
      · have hstart : d.ofs + d.size ≤ p.2.ofs := hspliced.after.spread.lower (mem_map_of_mem hp)
        omega
    · obtain ⟨-, ⟨f, hf, hnode, hstart, hend⟩ | ⟨hnode, hstart⟩⟩ := hspliced.piece p.2 hmem
      · obtain ⟨q, hq, rfl⟩ := mem_map.1 hf
        rw [hnode, h.covering q hq b (by omega) (by omega)]
      · rw [hnode, h.beyond b (by omega)]
  have hmem : ∀ p, p ∈ ws ++ (newfrag, ⟨some fn, d.size, d.ofs⟩) :: zs →
      p = (newfrag, ⟨some fn, d.size, d.ofs⟩) ∨ p ∈ ws ++ zs := by
    intro p hp
    simp only [mem_append, mem_cons] at hp ⊢
    tauto
  refine ⟨_, ⟨⟨hshows, ?_, fun p hp => ?_, max_lt h.valid.bound hbound⟩, fun p hp b hle hlt => ?_,
    fun b hb => ?_, hdrops.counts⟩, ?_⟩
  · rw [map_append]
    exact tiles_append.2 ⟨d.ofs, hspliced.before, rfl, hspliced.after⟩
  · rcases hmem p hp with rfl | hp
    · exact hsize
    · refine (hspliced.piece p.2 ?_).1
      rw [← map_append]
      exact mem_map_of_mem hp
  · rcases hmem p hp with rfl | hp
    · exact (if_pos ⟨hle, hlt⟩).symm
    · obtain ⟨hout, hnode⟩ := hold p hp b hle hlt
      exact hnode.trans (if_neg hout).symm
  · have hb' : max file.size (d.ofs + d.size) ≤ b := hb
    exact (if_neg (by omega)).trans (h.beyond b (by omega))
  · obtain ⟨gone, hobsoleted, hfreed, hnodup, hgone⟩ := hdrops.gone
    refine ⟨gone, hobsoleted, hfreed, hnodup, fun n => ?_⟩
    rw [hgone, refs_cons]
    by_cases hn : fn = n
    · subst hn
      simp only [map_append, map_cons, refs_append, refs_cons, hunused, if_true]
      omega
    · rw [if_neg (by simpa using hn), add_zero]

lemma Maps.call (h : Maps s L file) {op : Op A N} (hop : op.Admissible s) (shift : ℕ) :
    ∃ s' L', s.call shift op = some (s', op.result file) ∧ Maps s' L' (file.after op) ∧
      Reclaims s s' (L.map snd) (L'.map snd) := by
  cases op with
  | add fn d newfrag extra =>
    obtain ⟨hsize, hbound, hfn, hnewfrag, hextra, hne⟩ := hop
    have hunused := h.valid.shows.refs_eq_zero hfn
    rw [h.valid.shows.reach_iff] at hnewfrag hextra
    set s1 := s.modifyDnode fn fun _ => d with hs1
    have hd : s1.dnode fn = d := by rw [dnode_modifyDnode, if_pos rfl]
    have h1 : Maps s1 L file := by
      refine ⟨{ h.valid with shows := h.valid.shows.congr rfl rfl }, h.covering, h.beyond, ?_⟩
      intro k hk
      rw [dnode_modifyDnode, if_neg, h.counts k hk]
      rintro rfl
      exact hk.ne' hunused
    obtain ⟨s', hrun, hadded⟩ := h1.valid.addFullDnodeToInode h1.counts shift hunused
      (by rwa [hd]) (by rwa [hd]) hnewfrag hextra hne
    rw [hd] at hadded
    obtain ⟨L', hmaps, hreclaims⟩ := Added.maps extra h1 hadded hsize hbound hunused
    exact ⟨s', L', by rw [Inode.call, hrun]; rfl, hmaps, hreclaims⟩
  | truncate size =>
    obtain ⟨s', ws, hrun, hvalid, hkept, hdrops⟩ := h.valid.truncateFragtree h.counts shift size
    refine ⟨s', ws, by rw [Inode.call, hrun]; rfl, ⟨hvalid, ?_, ?_, hdrops.counts⟩, hdrops.gone⟩
    · intro p hp b hle hlt
      obtain ⟨q, hq, hnode, hstart, hend⟩ := hkept p hp
      have hb := hvalid.le_end hp
      have hsize : ¬size ≤ b := by omega
      rw [hnode, h.covering q hq b (by omega) (by omega)]
      exact (if_neg hsize).symm
    · intro b hb
      have hb' : min size file.size ≤ b := hb
      by_cases hsize : size ≤ b
      · exact if_pos hsize
      · exact (if_neg hsize).trans (h.beyond b (by omega))

lemma run_maps {s₀ : Inode A N} {ops : List (Op A N)} (h₀ : s₀.fragtree.root = none)
    (hrun : Run (Step shift) s₀ ops s) : ∃ L, Maps s L (history ops) := by
  have hstep : ∀ (s : Inode A N) (op : Op A N) (s' : Inode A N) (file : File N),
      (∃ L, Maps s L file) → Step shift s op s' → ∃ L, Maps s' L (file.after op) := by
    rintro s op s' file ⟨L, hmaps⟩ ⟨hop, r, hcall⟩
    obtain ⟨s'', L', hcall', hmaps', -⟩ := hmaps.call hop shift
    rw [hcall] at hcall'
    obtain ⟨rfl, -⟩ := hcall'
    exact ⟨L', hmaps'⟩
  exact Run.simulates (R := fun s file => ∃ L, Maps s L file) ⟨[], maps_empty h₀⟩ hstep hrun

/-- After every run from an empty tree, the fragments of the tree are the map of the file that
the calls made, the counts of the nodes are exact, and every further call returns, leaves such a
tree again and reclaims exactly the nodes that lose their last fragment. -/
theorem fragtree_maps_file {s₀ : Inode A N} {ops : List (Op A N)} (h₀ : s₀.fragtree.root = none)
    (hrun : Run (Step shift) s₀ ops s) :
    ∃ L, Maps s L (history ops) ∧ ∀ op : Op A N, op.Admissible s → ∃ s' L',
      s.call shift op = some (s', op.result (history ops)) ∧ Maps s' L' (history (ops ++ [op])) ∧
        Reclaims s s' (L.map snd) (L'.map snd) := by
  obtain ⟨L, hmaps⟩ := run_maps h₀ hrun
  refine ⟨L, hmaps, fun op hop => ?_⟩
  obtain ⟨s', L', hcall, hmaps', hreclaims⟩ := hmaps.call hop shift
  refine ⟨s', L', hcall, ?_, hreclaims⟩
  rw [history, foldl_append]
  exact hmaps'

/-- An inode without fragments. -/
def Inode.empty : Inode A N where
  fragtree := ⟨fun _ => ⟨none, .red, none, none⟩, none⟩
  frag := fun _ => ⟨none, 0, 0⟩
  dnode := fun _ => ⟨.unchecked, 0, 0, 0⟩
  obsoleted := []
  freed := []

/-- A node behind the start of the file, and a truncation inside of it. -/
theorem fragtree_maps_truncated_file :
    ∃ s : Inode ℕ ℕ,
      Run (Step 12) Inode.empty [.add 7 ⟨.pristine, 4096, 100, 0⟩ 0 1, .truncate 4100] s ∧
      ∃ L, Maps s L (history [.add 7 ⟨.pristine, 4096, 100, 0⟩ 0 1, .truncate 4100]) ∧
        ∀ op : Op ℕ ℕ, op.Admissible s → ∃ s' L',
          s.call 12 op = some (s', op.result (history [.add 7 ⟨.pristine, 4096, 100, 0⟩ 0 1,
            .truncate 4100])) ∧
          Maps s' L' (history [.add 7 ⟨.pristine, 4096, 100, 0⟩ 0 1, .truncate 4100, op]) ∧
            Reclaims s s' (L.map snd) (L'.map snd) := by
  have hempty : ∀ a : ℕ, ¬Reach (empty : Inode ℕ ℕ).fragtree a := by
    intro a hreach
    have hnil : Shows (empty : Inode ℕ ℕ) [] := .nil rfl
    simpa using hnil.reach_iff.1 hreach
  have hadd : (Op.add 7 ⟨.pristine, 4096, 100, 0⟩ 0 1).Admissible (empty : Inode ℕ ℕ) :=
    ⟨by decide, by decide, fun a ha => absurd ha (hempty a), hempty 0, hempty 1, by decide⟩
  obtain ⟨_, -, hnext⟩ := fragtree_maps_file rfl
    (Run.nil : Run (Step 12) (empty : Inode ℕ ℕ) [] empty)
  obtain ⟨s1, _, hcall1, -, -⟩ := hnext _ hadd
  have hstep1 : Step 12 empty _ s1 := ⟨hadd, _, hcall1⟩
  have hrun1 := Run.nil.snoc hstep1
  obtain ⟨_, -, hnext⟩ := fragtree_maps_file rfl hrun1
  have htruncate : (Op.truncate 4100 : Op ℕ ℕ).Admissible s1 := show 4100 < 2 ^ 32 by decide
  obtain ⟨s2, _, hcall2, -, -⟩ := hnext _ htruncate
  have hstep2 : Step 12 s1 _ s2 := ⟨htruncate, _, hcall2⟩
  have hrun2 := hrun1.snoc hstep2
  exact ⟨s2, hrun2, fragtree_maps_file rfl hrun2⟩

end BooxKernel.Jffs2
