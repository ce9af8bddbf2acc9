import BooxKernel.IpFragment.Model
import BooxKernel.Lib.Tilings

/-!
# The queue of fragments

The fragments of a queue are in order, do not overlap, and lie within the datagram as far as it is
known; `meat` counts their bytes. Each call keeps this, whichever way it ends.
-/
namespace BooxKernel.IpFragment

open Tilings List Option Prod

variable {p : Packet} {q q' : Queue} {stop : ℕ} {skb : Skb} {maxDist : U32}

/-- The fragments in `l` come one after the other from `lo` to `hi`. -/
abbrev Lined (lo hi : ℕ) (l : List Skb) : Prop := Spread Skb.offset Skb.len lo hi l

/-- What every fragment of a queue is. Only a fragment that nothing was pulled from can be the
first one. -/
structure Skb.Valid (f : Skb) : Prop where
  pos : 0 < f.len
  front : f.offset = 0 → f.front.length = f.ihl

/-- What holds of a queue. -/
structure Inv (q : Queue) : Prop where
  lined : Lined 0 q.len q.fragments
  valid : ∀ f ∈ q.fragments, f.Valid
  meat : q.meat = total Skb.len q.fragments

/-- The queue after the end of a packet has been looked at. -/
structure Extended (q q' : Queue) (p : Packet) (stop : ℕ) : Prop where
  fragments : q'.fragments = q.fragments
  meat : q'.meat = q.meat
  len : q.len ≤ q'.len
  stop_le : stop ≤ q'.len
  offset_le : p.offset ≤ stop
  le_payload : stop ≤ p.offset + p.payload.length

lemma extend_spec (h : extend q p = some (q', stop)) : Extended q q' p stop := by
  have hoffset : p.offset % 8 = 0 := Nat.mul_mod_left _ _
  simp only [extend] at h
  split_ifs at h with hmf hbad hlen hlast
  · obtain ⟨rfl, rfl⟩ := mk.injEq .. ▸ some.inj h
    exact ⟨rfl, rfl, by dsimp only; omega, le_rfl, by omega, le_rfl⟩
  · obtain ⟨rfl, rfl⟩ := mk.injEq .. ▸ some.inj h
    exact ⟨rfl, rfl, by dsimp only; omega, le_rfl, by omega, by omega⟩
  · obtain ⟨rfl, rfl⟩ := mk.injEq .. ▸ some.inj h
    exact ⟨rfl, rfl, le_rfl, by omega, by omega, by omega⟩

lemma findPlace_spec (offset : ℕ) (acc l : List Skb) :
    ∃ prev next, findPlace offset acc l = (acc ++ prev, next) ∧ l = prev ++ next ∧
      (∀ f ∈ prev, f.offset < offset) ∧ ∀ f ∈ next.head?, offset ≤ f.offset := by
  induction l generalizing acc with
  | nil => exact ⟨[], [], by simp [findPlace], rfl, by simp, by simp⟩
  | cons f l ih =>
    by_cases hf : f.offset ≥ offset
    · exact ⟨[], f :: l, by simp [findPlace, hf], rfl, by simp, by simpa using hf⟩
    · obtain ⟨prev, next, heq, rfl, hprev, hnext⟩ := ih (acc ++ [f])
      refine ⟨f :: prev, next, by simp [findPlace, hf, heq], rfl, ?_, hnext⟩
      simpa using ⟨Nat.lt_of_not_le hf, hprev⟩

lemma Lined.getLast {lo hi : ℕ} {l : List Skb} (h : Lined lo hi l) {f : Skb}
    (hf : l.getLast? = some f) : Lined lo (f.offset + f.len) l := by
  obtain ⟨l, rfl⟩ := getLast?_eq_some_iff.1 hf
  obtain ⟨mid, hl, hmid, -⟩ := spread_append.1 h
  exact spread_append.2 ⟨mid, hl, hmid, le_rfl⟩

@[simp]
lemma Skb.len_pull (f : Skb) (i : ℕ) : (f.pull i).len = f.len - i := by
  simp [Skb.pull, Skb.len]

/-- A packet that may be put between its neighbours, up to `stop`. -/
structure Fits (skb : Skb) (p : Packet) (stop : ℕ) : Prop where
  offset_le : p.offset ≤ skb.offset
  lt_stop : skb.offset < stop
  stop_eq : skb.offset + skb.len = stop
  front : skb.offset = 0 → skb.front.length = skb.ihl

lemma Fits.valid (h : Fits skb p stop) : skb.Valid := by
  have hlt := h.lt_stop
  have heq := h.stop_eq
  exact ⟨by omega, h.front⟩

@[simp]
lemma Skb.offset_trim (f : Skb) (n : ℕ) : (f.trim n).offset = f.offset := by
  unfold Skb.trim
  split_ifs <;> rfl

@[simp]
lemma Skb.front_trim (f : Skb) (n : ℕ) : (f.trim n).front = f.front := by
  unfold Skb.trim
  split_ifs <;> rfl

@[simp]
lemma Skb.ihl_trim (f : Skb) (n : ℕ) : (f.trim n).ihl = f.ihl := by
  unfold Skb.trim
  split_ifs <;> rfl

@[simp]
lemma Skb.data_trim (f : Skb) (n : ℕ) : (f.trim n).data = f.data.take n := by
  unfold Skb.trim
  split_ifs with h
  · exact (take_of_length_le h).symm
  all_goals rfl

@[simp]
lemma Packet.offset_skb (p : Packet) (stop : ℕ) : (p.skb stop).offset = p.offset :=
  Skb.offset_trim _ _

lemma Packet.skb_fits (hstop : p.offset < stop) (hle : stop ≤ p.offset + p.payload.length) :
    Fits (p.skb stop) p stop := by
  have hlen : (p.skb stop).len = stop - p.offset := by
    simp only [Packet.skb, Skb.len, Skb.data_trim, length_take]
    omega
  have hoffset := p.offset_skb stop
  exact ⟨by omega, by omega, by omega, fun _ => by simp [Packet.skb]⟩

lemma cutHead_spec {prev : List Skb} {skb' : Skb} {hi : ℕ} (h : Lined 0 hi prev)
    (hskb : Fits skb p stop) (hcut : cutHead p prev skb stop = .ok skb') :
    Fits skb' p stop ∧ Lined 0 skb'.offset prev ∧
      ∀ n, Lined 0 n prev → skb.offset ≤ n → skb'.offset ≤ n := by
  unfold cutHead at hcut
  cases hlast : prev.getLast? with
  | none =>
    simp only [hlast] at hcut
    obtain rfl := Except.ok.inj hcut
    obtain rfl := getLast?_eq_none_iff.1 hlast
    exact ⟨hskb, Nat.zero_le _, fun _ _ h => h⟩
  | some f =>
    simp only [hlast] at hcut
    have hlined := h.getLast hlast
    have hmem : f ∈ prev := mem_of_getLast? hlast
    split_ifs at hcut with hi' hstop hpull
    · obtain rfl := Except.ok.inj hcut
      have heq := hskb.stop_eq
      have hle := hskb.offset_le
      refine ⟨⟨by dsimp only; omega, by dsimp only; omega, ?_, fun h0 => ?_⟩,
        hlined.mono le_rfl (by dsimp only; omega), fun n hn hle => ?_⟩
      · change skb.offset + (f.offset + f.len - skb.offset) + (skb.pull _).len = stop
        rw [Skb.len_pull]
        omega
      · dsimp only at h0
        omega
      · have hupper := hn.upper hmem
        dsimp only
        omega
    · obtain rfl := Except.ok.inj hcut
      exact ⟨hskb, hlined.mono le_rfl (by omega), fun _ _ h => h⟩

lemma overrideNext_spec {next next' : List Skb} {lo hi : ℕ} {meat meat' : ℤ} {ends : Bool}
    (h : Lined lo hi next) (hvalid : ∀ f ∈ next, f.Valid) (hstop : stop ≤ hi)
    (hr : overrideNext p stop meat next = (ends, meat', next')) :
    Lined lo hi next' ∧ (ends = true → Lined stop hi next') ∧ (∀ f ∈ next', f.Valid) ∧
      meat' - total Skb.len next' = meat - total Skb.len next := by
  induction next generalizing lo meat with
  | nil =>
    obtain ⟨rfl, rfl, rfl⟩ : true = ends ∧ meat = meat' ∧ [] = next' := by
      simpa [overrideNext] using hr
    exact ⟨h, fun _ => hstop, hvalid, rfl⟩
  | cons f next ih =>
    have hrest := fun g hg => hvalid g (mem_cons_of_mem f hg)
    obtain ⟨hlo, hnext⟩ := h
    simp only [overrideNext] at hr
    by_cases hoffset : f.offset < stop
    · rw [if_pos hoffset] at hr
      by_cases hlen : stop - f.offset < f.len
      · rw [if_pos hlen] at hr
        split_ifs at hr with hpull
        · obtain ⟨rfl, rfl, rfl⟩ : false = ends ∧ meat = meat' ∧ f :: next = next' := by
            simpa using hr
          exact ⟨⟨hlo, hnext⟩, by simp, hvalid, rfl⟩
        · set g : Skb := { f.pull (stop - f.offset) with
            offset := f.offset + (stop - f.offset), ipSummed := f.ipSummed.spoil }
          have hoff : g.offset = stop := by
            simp only [g]
            omega
          have hsize : g.len = f.offset + f.len - stop := by
            simp only [g, Skb.len, Skb.pull, length_drop] at hlen ⊢
            omega
          have hlast : g.offset + g.len = f.offset + f.len := by omega
          obtain ⟨rfl, rfl, rfl⟩ := by simpa only [mk.injEq] using hr
          refine ⟨⟨by omega, hlast ▸ hnext⟩, fun _ => ⟨hoff.ge, hlast ▸ hnext⟩,
            forall_mem_cons.2 ⟨⟨by omega, fun h0 => by omega⟩, hrest⟩, ?_⟩
          simp only [total_cons]
          omega
      · rw [if_neg hlen] at hr
        obtain ⟨hlined, hends, hvalid', hmeat⟩ := ih hnext hrest hr
        refine ⟨hlined.mono (by omega) le_rfl, hends, hvalid', ?_⟩
        rw [hmeat, total_cons]
        push_cast
        ring
    · rw [if_neg hoffset] at hr
      obtain ⟨rfl, rfl, rfl⟩ : true = ends ∧ meat = meat' ∧ f :: next = next' := by
        simpa using hr
      exact ⟨⟨hlo, hnext⟩, fun _ => ⟨Nat.le_of_not_lt hoffset, hnext⟩, hvalid, rfl⟩

section Keep

lemma Inv.pairwise (h : Inv q) :
    q.fragments.Pairwise (fun f g => f.offset < g.offset ∧ f.offset + f.len ≤ g.offset) := by
  refine h.lined.pairwise.imp_of_mem fun {f g} hf _ hle => ⟨?_, hle⟩
  have hpos := (h.valid f hf).pos
  omega

variable {prev next : List Skb}

lemma Inv.extend (h : Inv q) (he : Extended q q' p stop) : Inv q' where
  lined := he.fragments ▸ h.lined.mono le_rfl he.len
  valid := he.fragments ▸ h.valid
  meat := by rw [he.meat, he.fragments, h.meat]

lemma Inv.place (h : Inv q)
    (hplace : findPlace p.offset [] q.fragments = (prev, next)) (hstop : p.offset < stop)
    (hle : stop ≤ p.offset + p.payload.length) (hlen : stop ≤ q.len)
    (hcut : cutHead p prev (p.skb stop) stop = .ok skb) :
    q.fragments = prev ++ next ∧ Fits skb p stop ∧ Lined 0 skb.offset prev ∧
      Lined skb.offset q.len next := by
  obtain ⟨prev', next', heq, hsplit, hbefore, hafter⟩ := findPlace_spec p.offset [] q.fragments
  obtain ⟨rfl, rfl⟩ : prev' = prev ∧ next' = next := by simpa [heq] using hplace
  obtain ⟨mid, hprev, hnext⟩ := spread_append.1 (hsplit ▸ h.lined)
  obtain ⟨hfits, hlined, hleast⟩ := cutHead_spec hprev (Packet.skb_fits hstop hle) hcut
  refine ⟨hsplit, hfits, hlined, ?_⟩
  cases next' with
  | nil => exact hfits.lt_stop.le.trans hlen
  | cons f next' =>
    have hf : (p.skb stop).offset ≤ f.offset := by simpa using hafter f (by simp)
    exact ⟨hleast _ (hprev.mono le_rfl hnext.1) hf, hnext.2⟩

/-- The queue with a packet between `prev` and `next`. -/
def Queue.withFragment (q : Queue) (prev next : List Skb) (meat : ℤ) (skb : Skb) : Queue :=
  { q with
    fragments := prev ++ skb :: next
    meat := meat + skb.len
    firstIn := q.firstIn || skb.offset = 0 }

/-- The queue knows where the datagram begins and ends and has as many bytes as it is long. -/
structure Queue.Ready (q : Queue) : Prop where
  first : q.firstIn = true
  last : q.lastIn = true
  open_ : q.complete = false
  meat : q.meat = q.len
  nonempty : q.fragments ≠ []

lemma insertFragment_cases (q : Queue) (prev next : List Skb) (meat : ℤ) (skb : Skb) :
    ((q.withFragment prev next meat skb).Ready ∧ insertFragment q prev next meat skb =
      (q.withFragment prev next meat skb, .reasm !prev.isEmpty)) ∨
    (¬ (q.withFragment prev next meat skb).Ready ∧ insertFragment q prev next meat skb =
      (q.withFragment prev next meat skb, .inProgress)) := by
  set q' := q.withFragment prev next meat skb
  have heq : insertFragment q prev next meat skb =
      if q'.firstIn ∧ q'.lastIn ∧ !q'.complete ∧ q'.meat = q'.len then (q', .reasm !prev.isEmpty)
      else (q', .inProgress) := rfl
  rw [heq]
  split_ifs with h
  · have hne : q'.fragments ≠ [] := append_ne_nil_of_right_ne_nil _ (cons_ne_nil _ _)
    exact .inl ⟨⟨h.1, h.2.1, by simpa using h.2.2.1, h.2.2.2, hne⟩, rfl⟩
  · exact .inr ⟨fun hr => h ⟨hr.first, hr.last, by simp [hr.open_], hr.meat⟩, rfl⟩

lemma Inv.withFragment {meat : ℤ} (hfits : Fits skb p stop)
    (hprev : Lined 0 skb.offset prev) (hnext : Lined stop q.len next)
    (hvalid : ∀ f ∈ prev ++ next, f.Valid)
    (hmeat : meat = total Skb.len prev + total Skb.len next) :
    Inv (q.withFragment prev next meat skb) := by
  obtain ⟨hfront, hrest⟩ := forall_mem_append.1 hvalid
  refine ⟨spread_append.2 ⟨_, hprev, le_rfl, hfits.stop_eq ▸ hnext⟩,
    forall_mem_append.2 ⟨hfront, forall_mem_cons.2 ⟨hfits.valid, hrest⟩⟩, ?_⟩
  simp only [Queue.withFragment, total_append, total_cons, hmeat]
  push_cast
  ring

lemma Inv.placeFragment (h : Inv q) (hstop : p.offset < stop)
    (hle : stop ≤ p.offset + p.payload.length) (hlen : stop ≤ q.len) :
    Inv (placeFragment q p stop).1 := by
  unfold IpFragment.placeFragment
  cases hplace : findPlace p.offset [] q.fragments with
  | mk prev next =>
  dsimp only
  cases hcut : cutHead p prev (p.skb stop) stop with
  | error err => exact h
  | ok skb =>
    obtain ⟨hsplit, hfits, hprev, hnext⟩ := h.place hplace hstop hle hlen hcut
    obtain ⟨hfront, hrest⟩ := forall_mem_append.1 (hsplit ▸ h.valid)
    have hsum : q.meat = total Skb.len prev + total Skb.len next := by
      rw [h.meat, hsplit, total_append]
      rfl
    cases hover : overrideNext p stop q.meat next with
    | mk ends r =>
      obtain ⟨meat, next'⟩ := r
      obtain ⟨hleft, hends, hvalid, hmeat⟩ := overrideNext_spec hnext hrest hlen hover
      have hmem := forall_mem_append.2 ⟨hfront, hvalid⟩
      cases ends with
      | false =>
        refine ⟨spread_append.2 ⟨_, hprev, hleft⟩, hmem, ?_⟩
        simp only [total_append]
        omega
      | true =>
        have hinv := Inv.withFragment hfits hprev (hends rfl) hmem (by omega : meat = _)
        change Inv (insertFragment q prev next' meat skb).1
        obtain ⟨-, heq⟩ | ⟨-, heq⟩ := insertFragment_cases q prev next' meat skb <;>
        · rw [heq]
          exact hinv

/-- `ip_frag_queue` keeps the queue in order, whether it takes the fragment or fails. -/
lemma Inv.enqueue (h : Inv q) : Inv (enqueue q p).1 := by
  unfold IpFragment.enqueue
  cases hext : IpFragment.extend q p with
  | none => exact h
  | some r =>
    have he := extend_spec hext
    have hoff := he.offset_le
    dsimp only
    split_ifs with hempty hpull htrim
    any_goals exact h.extend he
    exact (h.extend he).placeFragment (by omega) he.le_payload he.stop_le

lemma ipFragQueueEnter_cases (maxDist : U32) (q : Queue) (p : Packet) :
    (ipFragQueueEnter maxDist q p = (q, .error .enoent) ∧ q.complete = true) ∨
    (∃ rid, ipFragQueueEnter maxDist q p =
      ({ q with rid := rid, complete := true }, .error .etimedout) ∧
        ((ipFragTooFar maxDist q p).1 = true ∧ p.fragComplete = false) ∧ p.timerPending = false) ∨
    ∃ q', ipFragQueueEnter maxDist q p = enqueue q' p ∧ q.complete = false ∧
      (¬ ((ipFragTooFar maxDist q p).1 = true ∧ p.fragComplete = false) ∧
          (∃ rid, q' = { q with rid := rid }) ∨
        ((ipFragTooFar maxDist q p).1 = true ∧ p.fragComplete = false) ∧ p.timerPending = true ∧
          ∃ rid, q' = { rid := rid }) := by
  by_cases hcomplete : q.complete = true
  · exact .inl ⟨if_pos hcomplete, hcomplete⟩
  refine .inr ?_
  have hopen : q.complete = false := by simpa using hcomplete
  obtain ⟨rid, hrid⟩ : ∃ rid, (ipFragTooFar maxDist q p).2 = { q with rid := rid } := by
    unfold ipFragTooFar
    split
    · exact ⟨q.rid, rfl⟩
    · split_ifs
      · exact ⟨q.rid, rfl⟩
      · exact ⟨_, rfl⟩
  unfold ipFragQueueEnter
  rw [if_neg hcomplete]
  by_cases hskip : p.fragComplete = true
  · exact .inr ⟨q, if_pos hskip, hopen, .inl ⟨fun h => by simp [hskip] at h, q.rid, rfl⟩⟩
  rw [if_neg hskip]
  dsimp only
  by_cases hfar : (ipFragTooFar maxDist q p).1 = true
  · rw [if_pos hfar, hrid]
    cases htimer : p.timerPending with
    | false => exact .inl ⟨rid, by simp [ipFragReinit, htimer], ⟨hfar, by simpa using hskip⟩, rfl⟩
    | true =>
      exact .inr ⟨{ rid := rid }, by simp [ipFragReinit, htimer], hopen,
        .inr ⟨⟨hfar, by simpa using hskip⟩, rfl, rid, rfl⟩⟩
  · rw [if_neg hfar, hrid]
    exact .inr ⟨_, rfl, hopen, .inl ⟨fun h => hfar h.1, rid, rfl⟩⟩

lemma ipFragTooFar_ne_nil (h : (ipFragTooFar maxDist q p).1 = true) : [] ≠ q.fragments := by
  intro hnil
  unfold ipFragTooFar at h
  split at h
  · simp at h
  · split_ifs at h
    simp [← hnil] at h

lemma inv_fresh (rid : U32) : Inv { rid := rid } :=
  ⟨le_rfl, by simp, rfl⟩

lemma Inv.enter (maxDist : U32) (h : Inv q) : Inv (ipFragQueueEnter maxDist q p).1 := by
  rcases ipFragQueueEnter_cases maxDist q p with ⟨heq, -⟩ | ⟨rid, heq, -⟩ | ⟨q', heq, -, hq'⟩
  · rw [heq]
    exact h
  · rw [heq]
    exact ⟨h.lined, h.valid, h.meat⟩
  · rw [heq]
    obtain ⟨-, rid, rfl⟩ | ⟨-, -, rid, rfl⟩ := hq'
    · exact Inv.enqueue ⟨h.lined, h.valid, h.meat⟩
    · exact (inv_fresh rid).enqueue

end Keep

section Reasm

variable {prev : Bool}

lemma placeFragment_reasm (h : placeFragment q p stop = (q', .reasm prev)) : q'.Ready := by
  unfold placeFragment at h
  dsimp only at h
  split at h
  · simp at h
  · split at h
    · simp at h
    · rename_i skb _ _ meat next _
      obtain ⟨hready, heq⟩ | ⟨-, heq⟩ := insertFragment_cases q _ next meat skb
      · rw [heq] at h
        obtain ⟨rfl, -⟩ := mk.inj h
        exact hready
      · simp [heq] at h

lemma enqueue_reasm (h : enqueue q p = (q', .reasm prev)) : q'.Ready := by
  unfold enqueue at h
  split at h
  · simp at h
  · split_ifs at h
    any_goals cases h
    exact placeFragment_reasm h

lemma enter_reasm (h : ipFragQueueEnter maxDist q p = (q', .reasm prev)) : q'.Ready := by
  rcases ipFragQueueEnter_cases maxDist q p with ⟨heq, -⟩ | ⟨rid, heq, -⟩ | ⟨q0, heq, -, -⟩
  · simp [heq] at h
  · simp [heq] at h
  · exact enqueue_reasm (heq ▸ h)

lemma Inv.tiles (h : Inv q) (hready : q.Ready) : Tiles Skb.offset Skb.len 0 q.len q.fragments := by
  have hmeat := h.meat
  rw [hready.meat] at hmeat
  exact h.lined.tiles (by omega)

/-- A queue keeps its fragments in order until they have become a datagram. -/
def Sound (q : Queue) : Prop := Inv q ∨ (q.complete = true ∧ q.fragments = [])

lemma Sound.ipFragReasm (h : Inv q) : Sound (ipFragReasm q prev p).1 := by
  have hcomplete : Inv { q with complete := true } := ⟨h.lined, h.valid, h.meat⟩
  unfold IpFragment.ipFragReasm
  dsimp only
  by_cases hclone : (prev && !p.clone) = true
  · rw [if_pos hclone]
    exact .inl hcomplete
  · rw [if_neg hclone]
    split
    · exact .inl hcomplete
    · split_ifs
      · exact .inl hcomplete
      · exact .inl hcomplete
      · exact .inl hcomplete
      · exact .inr ⟨rfl, rfl⟩

lemma Sound.ipFragQueue (h : Sound q) : Sound (ipFragQueue maxDist q p).1 := by
  rcases h with hinv | ⟨hcomplete, hnil⟩
  · have henter := hinv.enter (p := p) maxDist
    unfold IpFragment.ipFragQueue
    split
    · rename_i heq
      rw [heq] at henter
      exact .inl henter
    · rename_i heq
      rw [heq] at henter
      exact .inl henter
    · rename_i heq
      rw [heq] at henter
      exact Sound.ipFragReasm henter
  · have hclosed : ipFragQueueEnter maxDist q p = (q, .error .enoent) := if_pos hcomplete
    simp only [IpFragment.ipFragQueue, hclosed]
    exact .inr ⟨hcomplete, hnil⟩

lemma sound_receive (maxDist : U32) (h : Sound q) (packets : List Packet) :
    Sound (receive maxDist q packets) := by
  induction packets generalizing q with
  | nil => exact h
  | cons p packets ih => exact ih h.ipFragQueue

end Reasm

/-- A fragment that is not taken lies within the one in front of it. -/
lemma placeFragment_einval (hplace : placeFragment q p stop = (q', .error .einval)) :
    q' = q ∧ ∃ f ∈ q.fragments, f.offset < p.offset ∧ stop ≤ f.offset + f.len := by
  obtain ⟨prev, next, hfind, hsplit, hbefore, -⟩ := findPlace_spec p.offset [] q.fragments
  simp only [placeFragment, hfind, nil_append] at hplace
  cases hcut : cutHead p prev (p.skb stop) stop with
  | error err =>
    simp only [hcut, mk.injEq, Outcome.error.injEq] at hplace
    obtain ⟨rfl, rfl⟩ := hplace
    refine ⟨rfl, ?_⟩
    unfold cutHead at hcut
    cases hlast : prev.getLast? with
    | none => simp [hlast] at hcut
    | some f =>
      have hf := mem_of_getLast? hlast
      refine ⟨f, hsplit ▸ mem_append_left _ hf, hbefore f hf, ?_⟩
      simp only [hlast] at hcut
      split_ifs at hcut with hpos hstop hpull
      · omega
      · simp at hcut
  | ok skb =>
    simp only [hcut] at hplace
    split at hplace
    · simp at hplace
    · rename_i meat next' _
      obtain ⟨-, heq⟩ | ⟨-, heq⟩ := insertFragment_cases q prev next' meat skb <;>
        simp [heq] at hplace

lemma placeFragment_covered {f : Skb} (h : Inv q) (hf : f ∈ q.fragments)
    (hbefore : f.offset < p.offset) (hend : q.len ≤ f.offset + f.len) (hlt : p.offset < q.len) :
    placeFragment q p q.len = (q, .error .einval) := by
  obtain ⟨prev, next, hfind, hsplit, -, hafter⟩ := findPlace_spec p.offset [] q.fragments
  obtain ⟨mid, hprev, hnext⟩ := spread_append.1 (hsplit ▸ h.lined)
  have hmem : f ∈ prev := by
    refine (mem_append.1 (hsplit ▸ hf)).resolve_right fun hin => ?_
    cases next with
    | nil => simp at hin
    | cons g next =>
      have hg := hafter g rfl
      rcases mem_cons.1 hin with rfl | hin
      · omega
      · have hlow := hnext.2.lower hin
        omega
  obtain ⟨g, hlast⟩ : ∃ g, prev.getLast? = some g :=
    ⟨_, getLast?_eq_some_getLast (ne_nil_of_mem hmem)⟩
  obtain ⟨init, rfl⟩ := getLast?_eq_some_iff.1 hlast
  obtain ⟨m, hinit, hm, hg⟩ := spread_append.1 hprev
  have hmid : mid ≤ q.len := (Nat.le_add_right _ _).trans hnext.total_le
  obtain rfl : f = g := by
    rcases mem_append.1 hmem with hin | hin
    · have hupper := hinit.upper hin
      have hpos := (h.valid g (by simp [hsplit])).pos
      have hgend : g.offset + g.len ≤ mid := hg
      omega
    · exact mem_singleton.1 hin
  have hcut : cutHead p (init ++ [f]) (p.skb q.len) q.len = .error .einval := by
    simp only [cutHead, hlast, Packet.offset_skb]
    rw [if_pos (by omega), if_pos (by omega)]
  simp only [placeFragment, hfind, nil_append, hcut]

/-- What is written for a fragment without data, or for a last one that the fragment in front
covers, before it is refused: the end of the datagram. -/
def EndsAt (q : Queue) (p : Packet) : Prop :=
  q.lastIn = false ∧
    if p.moreFragments then p.payload.length < 8 ∧ q.len < p.offset
    else p.payload = [] ∧ q.len ≤ p.offset ∨
      p.payload ≠ [] ∧ p.offset + p.payload.length = q.len ∧ p.pullHeader = true ∧
        ∃ f ∈ q.fragments, f.offset < p.offset ∧ q.len ≤ f.offset + f.len

lemma extend_cases (h : extend q p = some (q', stop)) :
    (p.moreFragments = true ∧ stop = (p.offset + p.payload.length) / 8 * 8 ∧
      (q.len < stop ∧ q.lastIn = false ∧ q' = { q with len := stop } ∨ stop ≤ q.len ∧ q' = q)) ∨
    (p.moreFragments = false ∧ stop = p.offset + p.payload.length ∧ q.len ≤ stop ∧
      (q.lastIn = false ∧ q' = { q with lastIn := true, len := stop } ∨ stop = q.len ∧ q' = q)) := by
  simp only [extend] at h
  split_ifs at h with hmf hbad hlen hlast
  · obtain ⟨rfl, rfl⟩ := mk.injEq .. ▸ some.inj h
    refine .inr ⟨by simpa using hmf, rfl, by omega, ?_⟩
    cases hlast : q.lastIn with
    | false => exact .inl ⟨rfl, rfl⟩
    | true =>
      have heq : p.offset + p.payload.length = q.len := by
        by_contra hne
        exact hbad (.inr ⟨hlast, hne⟩)
      exact .inr ⟨heq, by rw [heq, ← hlast]⟩
  · obtain ⟨rfl, rfl⟩ := mk.injEq .. ▸ some.inj h
    exact .inl ⟨by simpa using hmf, rfl, .inl ⟨hlen, by simpa using hlast, rfl⟩⟩
  · obtain ⟨rfl, rfl⟩ := mk.injEq .. ▸ some.inj h
    exact .inl ⟨by simpa using hmf, rfl, .inr ⟨by omega, rfl⟩⟩

lemma enqueue_einval (h : Inv q) (henq : enqueue q p = (q', .error .einval)) :
    q'.fragments = q.fragments ∧ (q' = q ∨ EndsAt q p) := by
  unfold enqueue at henq
  cases hext : extend q p with
  | none =>
    simp only [hext, mk.injEq] at henq
    exact ⟨by rw [henq.1], .inl henq.1.symm⟩
  | some r =>
    have hfragments := (extend_spec hext).fragments
    simp only [hext] at henq
    unfold EndsAt
    split_ifs at henq with hempty hpull htrim
    · obtain ⟨rfl, -⟩ := mk.inj henq
      refine ⟨hfragments, ?_⟩
      rcases extend_cases hext with ⟨hmf, hstop, ⟨hlt, hlast, -⟩ | ⟨-, rfl⟩⟩ |
        ⟨hmf, hstop, hle, ⟨hlast, -⟩ | ⟨-, rfl⟩⟩
      · exact .inr ⟨hlast, by rw [if_pos hmf]; omega⟩
      · exact .inl rfl
      · refine .inr ⟨hlast, ?_⟩
        rw [if_neg (by simp [hmf])]
        exact .inl ⟨length_eq_zero_iff.1 (by omega), by omega⟩
      · exact .inl rfl
    · simp at henq
    · simp at henq
    · obtain ⟨rfl, f, hf, hbefore, hstop⟩ := placeFragment_einval henq
      refine ⟨hfragments, ?_⟩
      rw [hfragments] at hf
      have hupper := h.lined.upper hf
      rcases extend_cases hext with ⟨-, -, ⟨hlt, -⟩ | ⟨-, rfl⟩⟩ |
        ⟨hmf, heq, hle, ⟨hlast, -⟩ | ⟨-, rfl⟩⟩
      · omega
      · exact .inl rfl
      · refine .inr ⟨hlast, ?_⟩
        rw [if_neg (by simp [hmf])]
        refine .inr ⟨fun hnil => ?_, by omega, by simpa using hpull, f, hf, hbefore, by omega⟩
        rw [hnil, length_nil] at heq
        omega
      · exact .inl rfl

lemma enqueue_endsAt (h : Inv q) (hends : EndsAt q p) :
    (enqueue q p).2 = .error .einval ∧
      ((enqueue q p).1.lastIn ≠ q.lastIn ∨ (enqueue q p).1.len ≠ q.len) := by
  have hoffset : p.offset % 8 = 0 := Nat.mul_mod_left _ _
  obtain ⟨hlast, hends⟩ := hends
  split_ifs at hends with hmf
  · have hstop : (p.offset + p.payload.length) / 8 * 8 = p.offset := by omega
    have hext : extend q p = some ({ q with len := p.offset }, p.offset) := by
      simp [extend, hmf, hstop, hends.2, hlast]
    simp only [enqueue, hext, if_true]
    exact ⟨trivial, .inr hends.2.ne'⟩
  · have hmf : p.moreFragments = false := by simpa using hmf
    have hext : q.len ≤ p.offset + p.payload.length → extend q p =
        some ({ q with lastIn := true, len := p.offset + p.payload.length },
          p.offset + p.payload.length) := by
      intro hle
      simp [extend, hmf, hlast, hle]
    rcases hends with ⟨hnil, hle⟩ | ⟨hne, hlen, hpull, f, hf, hbefore, hend⟩
    · rw [hnil, length_nil, add_zero] at hext
      simp only [enqueue, hext hle, if_true]
      exact ⟨trivial, .inl (by simp [hlast])⟩
    · have hpos := length_pos_iff.2 hne
      rw [hlen] at hext
      have hplace := placeFragment_covered (q := { q with lastIn := true, len := q.len }) (p := p)
        ⟨h.lined, h.valid, h.meat⟩ hf hbefore hend (show p.offset < q.len by omega)
      simp only [enqueue, hext le_rfl, hpull, Bool.not_true, Bool.false_eq_true, if_false]
      rw [if_neg (by omega), if_neg (by omega), hplace]
      exact ⟨rfl, .inl (by simp [hlast])⟩

lemma enqueue_fresh (rid : U32) : (enqueue { rid := rid } p).2 = .error .einval ↔
    p.payload.length < if p.moreFragments then 8 else 1 := by
  have hoffset : p.offset % 8 = 0 := Nat.mul_mod_left _ _
  have hsome : (extend { rid := rid } p).isSome := by
    simp only [extend]
    split_ifs <;> simp_all
  obtain ⟨⟨q1, stop⟩, hext⟩ := isSome_iff_exists.1 hsome
  have hnil : q1.fragments = [] := (extend_spec hext).fragments
  have hstop : stop = p.offset ↔ p.payload.length < if p.moreFragments then 8 else 1 := by
    rcases extend_cases hext with ⟨hmf, hstop, -⟩ | ⟨hmf, hstop, -⟩
    · rw [if_pos hmf]
      omega
    · rw [if_neg (by simp [hmf])]
      omega
  rw [← hstop]
  simp only [enqueue, hext]
  split_ifs with hempty hpull htrim
  · exact iff_of_true rfl hempty
  · exact iff_of_false (by simp) hempty
  · exact iff_of_false (by simp) hempty
  · refine iff_of_false (fun heinval => ?_) hempty
    obtain ⟨-, f, hf, -⟩ := placeFragment_einval (Prod.ext rfl heinval)
    simp [hnil] at hf

lemma ipFragReasm_ne_einval {prev : Bool} : (ipFragReasm q prev p).2 ≠ .error .einval := by
  unfold ipFragReasm
  cases q.fragments <;> dsimp only <;> split_ifs <;> simp

lemma ipFragQueue_einval {q0 : Queue} (henter : ipFragQueueEnter maxDist q p = enqueue q0 p) :
    ((ipFragQueue maxDist q p).2 = .error .einval ↔ (enqueue q0 p).2 = .error .einval) ∧
    ((enqueue q0 p).2 = .error .einval → (ipFragQueue maxDist q p).1 = (enqueue q0 p).1) := by
  unfold ipFragQueue
  rw [henter]
  cases enqueue q0 p with
  | mk q' outcome =>
    cases outcome with
    | error err => simp
    | inProgress => simp
    | reasm prev => simpa using ipFragReasm_ne_einval

/-- A refused fragment changes the queue: the queue is begun anew for one without data, or the end
of the datagram is written. -/
def Spoils (maxDist : U32) (q : Queue) (p : Packet) : Prop :=
  q.complete = false ∧
    if (ipFragTooFar maxDist q p).1 = true ∧ p.fragComplete = false then
      p.timerPending = true ∧ p.payload.length < if p.moreFragments then 8 else 1
    else EndsAt q p

/-- In every reachable queue, a fragment that is refused with `-EINVAL` leaves the queue as it is,
but for the counter of the peer, if and only if it is not one of the kinds above. -/
theorem rejected_fragment_keeps (maxDist rid : U32) (packets : List Packet) (p : Packet) :
    ((ipFragQueue maxDist (receive maxDist { rid := rid } packets) p).2 = .error .einval →
      ∃ rid', (ipFragQueue maxDist (receive maxDist { rid := rid } packets) p).1 =
        { receive maxDist { rid := rid } packets with rid := rid' }) ↔
    ¬ Spoils maxDist (receive maxDist { rid := rid } packets) p := by
  have hsound := sound_receive maxDist (.inl (inv_fresh rid)) packets
  generalize receive maxDist { rid := rid } packets = q at *
  unfold Spoils
  rcases ipFragQueueEnter_cases maxDist q p with ⟨heq, hdone⟩ | ⟨rid', heq, hfar, htimer⟩ |
    ⟨q0, heq, hopen, hq0⟩
  · exact iff_of_true (fun h => by simp [ipFragQueue, heq] at h) fun h => by simp [hdone] at h
  · refine iff_of_true (fun h => by simp [ipFragQueue, heq] at h) fun h => ?_
    rw [if_pos hfar] at h
    simp [htimer] at h
  · have hinv : Inv q := hsound.resolve_right fun hdone => by simp [hopen] at hdone
    obtain ⟨hret, hqueue⟩ := ipFragQueue_einval heq
    rw [hret]
    obtain ⟨hnear, rid', rfl⟩ | ⟨hfar, htimer, rid', rfl⟩ := hq0
    · have hinv' : Inv { q with rid := rid' } := ⟨hinv.lined, hinv.valid, hinv.meat⟩
      rw [if_neg hnear]
      constructor
      · rintro hkeeps ⟨-, hends⟩
        obtain ⟨heinval, hchanged⟩ := enqueue_endsAt (q := { q with rid := rid' }) hinv' hends
        obtain ⟨rid'', hsame⟩ := hkeeps heinval
        rw [← hqueue heinval, hsame] at hchanged
        simp at hchanged
      · intro hgood heinval
        rw [hqueue heinval]
        exact ⟨rid', (enqueue_einval hinv' (Prod.ext rfl heinval)).2.resolve_right
          fun hends => hgood ⟨hopen, hends⟩⟩
    · rw [if_pos hfar, enqueue_fresh]
      refine ⟨fun hkeeps ⟨_, _, hsmall⟩ => ?_, fun hgood hsmall => absurd ⟨hopen, htimer, hsmall⟩ hgood⟩
      have heinval := (enqueue_fresh rid').2 hsmall
      obtain ⟨rid'', hsame⟩ := hkeeps hsmall
      have hnil := (enqueue_einval (inv_fresh rid') (Prod.ext rfl heinval)).1
      have hfragments := congrArg Queue.fragments ((hqueue heinval).symm.trans hsame)
      exact ipFragTooFar_ne_nil hfar.1 (hnil.symm.trans hfragments)

/-- A fragment of 20 bytes of header. -/
def sampleFragment (fragOff : BitVec 16) (payload : List Byte) : Packet :=
  { fragOff := fragOff, header := replicate 20 0, payload := payload }

/-- A fragment behind the end of the datagram. -/
theorem rejected_fragment_keeps_behind :
    let last := sampleFragment 1 [1, 2, 3, 4, 5, 6, 7, 8]
    let p := sampleFragment 0x2002 [1, 2, 3, 4, 5, 6, 7, 8]
    (ipFragQueue 64 (receive 64 {} [last]) p).2 = .error .einval ∧
    ∃ rid, (ipFragQueue 64 (receive 64 {} [last]) p).1 = { receive 64 {} [last] with rid := rid } := by
  intro last p
  have heinval : (ipFragQueue 64 (receive 64 {} [last]) p).2 = .error .einval := by decide
  refine ⟨heinval, (rejected_fragment_keeps 64 0 [last] p).2 (fun hspoils => ?_) heinval⟩
  obtain ⟨-, hends⟩ := hspoils
  rw [if_neg (by decide)] at hends
  exact absurd hends.1 (by decide)

/-- A last fragment without data is refused, but then the datagram ends where it lies, and what
belongs behind it is refused as well. -/
theorem empty_fragment_ends_datagram :
    ipFragQueue 64 {} (sampleFragment 1 []) = ({ len := 8, lastIn := true }, .error .einval) ∧
      (ipFragQueue 64 {} (sampleFragment 0x2001 [1, 2, 3, 4, 5, 6, 7, 8])).2 = .inProgress ∧
      (ipFragQueue 64 (ipFragQueue 64 {} (sampleFragment 1 [])).1
        (sampleFragment 0x2001 [1, 2, 3, 4, 5, 6, 7, 8])).2 = .error .einval := by
  decide

end BooxKernel.IpFragment
