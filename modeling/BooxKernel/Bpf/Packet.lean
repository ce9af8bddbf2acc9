import BooxKernel.Bpf.Verifier

/-!
# Loads from the packet

A load reads bytes of the linear part of a packet through a pointer, or has
`skb_copy_bits` gather them from the linear part and the page fragments. Offsets from
0 on are checked against the length together with the size of the load. Negative
offsets are relative to a header, and there only the first byte is checked.

The netlink attribute load checks its offset against the length of the packet less the
size of an attribute header, which wraps for a packet that is shorter than a header.
-/
namespace BooxKernel.Bpf
open BitVec Option List

/-- The lengths and pointers of a packet agree, and the lengths fit an `int`. -/
structure SkBuff.Wf (skb : SkBuff) : Prop where
  len : skb.len.toNat < 2 ^ 31
  dataLen : skb.dataLen.toNat ≤ skb.len.toNat
  paged : skb.paged.length = skb.dataLen.toNat
  head : skb.head ≤ skb.data
  tail : skb.tail = skb.data + (skb.len.toNat - skb.dataLen.toNat)

/-- Where a byte of a packet is: at an address, or in the page fragments. -/
inductive Loc
  | mem (a : ℤ)
  | page (i : ℕ)
  deriving Repr, DecidableEq

section
variable (skb : SkBuff)

def Loc.read : Loc → Option Byte
  | .mem a => skb.memory a
  | .page i => skb.paged[i]?

/-- The location belongs to the `len` bytes of the packet. -/
def Loc.InPacket : Loc → Prop
  | .mem a => skb.data ≤ a ∧ a < skb.data + (skb.len.toNat - skb.dataLen.toNat)
  | .page i => i < skb.dataLen.toNat

/-- The location is an address between `skb->head` and the tail. -/
def Loc.InBuffer : Loc → Prop
  | .mem a => skb.head ≤ a ∧ a < skb.tail
  | .page _ => False

/-- The bytes that `skb_copy_bits` copies. -/
def copiedFrom (offset : ℤ) (len : ℕ) : List Loc :=
  let start := (skbHeadlen skb).toInt
  let copy := (max 0 (min (start - offset) len)).toNat
  (range copy).map (fun i : ℕ => .mem (skb.data + offset + i)) ++
    (range (len - copy)).map fun i : ℕ => .page ((offset + copy - start).toNat + i)

/-- The bytes that a load at offset `k` reads. -/
def bytesRead (k : ℤ) (size : ℕ) : List Loc :=
  match loadPointer skb k size with
  | some (some (.addr a)) => (range size).map fun i : ℕ => .mem (a + i)
  | some (some (.buffer _)) => copiedFrom skb k size
  | _ => []

/-- The offset and the size of an instruction that loads from the packet. -/
def packetAccess (fentry : SockFilter) (s : State) : Option (ℤ × ℕ) :=
  match decode fentry.code with
  | some (.ldAbs size) => some (fentry.k.toInt, size.bytes)
  | some (.ldInd size) => some ((s.X + fentry.k).toInt, size.bytes)
  | some .ldxMsh => some (fentry.k.toInt, 1)
  | _ => none

/-- The load starts before the tail and ends behind it. -/
def Overhangs (k : ℤ) (size : ℕ) : Prop :=
  k < skfAdOff ∧ ∃ ptr ∈ slowLoadPointer skb k, skb.tail < ptr + size

end

section Loads
variable {skb : SkBuff} {k : ℤ} {size : ℕ} {bytes l : List Byte}

lemma SkBuff.Wf.headlen (h : skb.Wf) :
    (skbHeadlen skb).toInt = skb.len.toNat - skb.dataLen.toNat := by
  have hlen := h.len
  have hdata := h.dataLen
  unfold skbHeadlen
  rw [toInt_eq_toNat_of_lt, toNat_sub_of_le]
  · omega
  · exact le_def.2 hdata
  · rw [toNat_sub_of_le (le_def.2 hdata)]
    omega

lemma readBytes_eq_some {m : Memory} {a : ℤ} {n : ℕ} (h : readBytes m a n = some bytes)
    : bytes.map some = (List.range n).map fun i : ℕ => m (a + i) := by
  induction n generalizing a bytes with
  | zero =>
    obtain rfl := some.inj h
    rfl
  | succ n ih =>
    rw [readBytes] at h
    cases hb : m a with
    | none => simp [hb] at h
    | some b =>
      cases hbs : readBytes m (a + 1) n with
      | none => simp [hb, hbs] at h
      | some bs =>
        simp only [hb, hbs, bind_eq_bind, bind_some, Option.pure_def, some.injEq] at h
        subst h
        rw [range_succ_eq_map, map_cons, map_cons, ih hbs, List.map_map, ← hb]
        refine congrArg₂ _ (by simp) (map_congr_left fun i _ => ?_)
        simp only [Function.comp, Nat.succ_eq_add_one, Nat.cast_add, Nat.cast_one]
        rw [add_assoc, add_comm 1 (i : ℤ)]

lemma map_some_window {i n : ℕ} (h : ((l.drop i).take n).length = n) :
    ((l.drop i).take n).map some = (range n).map fun j => l[i + j]? := by
  apply ext_getElem?
  intro j
  rw [getElem?_map, getElem?_map]
  rcases lt_or_ge j n with hj | hj
  · rw [getElem?_take_of_lt hj, getElem?_drop, getElem?_range hj, map_some]
    rw [length_take, length_drop] at h
    rw [List.getElem?_eq_getElem (by omega)]
    rfl
  · rw [List.getElem?_eq_none (by rw [h]; exact hj), List.getElem?_eq_none (by simpa using hj)]
    rfl

lemma skbCopyBits_read {offset : ℤ} (h : skbCopyBits skb offset size = some (some bytes)) :
    offset ≤ skb.len.toInt - size ∧
      bytes.map some = (copiedFrom skb offset size).map (Loc.read skb) := by
  unfold skbCopyBits at h
  dsimp only at h
  by_cases hfar : offset > skb.len.toInt - size
  · simp [hfar] at h
  · refine ⟨not_lt.1 hfar, ?_⟩
    unfold copiedFrom
    dsimp only
    generalize hcopy : max 0 (min ((skbHeadlen skb).toInt - offset) (size : ℤ)) = copy at h ⊢
    have hrange : 0 ≤ copy ∧ copy ≤ size := by omega
    obtain ⟨n, rfl⟩ := Int.eq_ofNat_of_zero_le hrange.1
    rw [Int.toNat_natCast] at h ⊢
    cases hread : readBytes skb.memory (skb.data + offset) n with
    | none => simp [hread] at h
    | some header =>
      rw [hread] at h
      split_ifs at h with hrest
      · obtain rfl := some.inj (some.inj h)
        have hlen : ((size : ℤ) - n).toNat = size - n := by omega
        rw [hlen] at hrest ⊢
        rw [map_append, map_append, readBytes_eq_some hread, map_some_window hrest,
          List.map_map, List.map_map]
        rfl
      · simp at h

lemma loadPointer_addr {a : ℤ} (h : loadPointer skb k size = some (some (.addr a))) :
    (0 ≤ k ∧ size ≤ (skbHeadlen skb).toInt - k ∧ a = skb.data + k) ∨
      (k < skfAdOff ∧ slowLoadPointer skb k = some a) := by
  unfold loadPointer skbHeaderPointer at h
  dsimp only at h
  split_ifs at h with hk hlen hanc
  · have ha := Pointer.addr.inj (some.inj (some.inj h))
    exact .inl ⟨hk, hlen, ha.symm⟩
  · simp at h
  · simp at h
  · obtain ⟨ptr, hptr, ha⟩ := map_eq_some_iff.1 (some.inj h)
    rw [Pointer.addr.inj ha] at hptr
    exact .inr ⟨not_le.1 hanc, hptr⟩

lemma loadPointer_buffer (h : loadPointer skb k size = some (some (.buffer bytes))) :
    0 ≤ k ∧ (skbHeadlen skb).toInt - k < size ∧ skbCopyBits skb k size = some (some bytes) := by
  unfold loadPointer skbHeaderPointer at h
  dsimp only at h
  split_ifs at h with hk hlen hanc
  · simp at h
  · obtain ⟨found, hfound, hmap⟩ := map_eq_some_iff.1 h
    obtain ⟨bs, rfl, hbs⟩ := map_eq_some_iff.1 hmap
    rw [Pointer.buffer.inj hbs] at hfound
    exact ⟨hk, not_le.1 hlen, hfound⟩
  · simp at h
  · simp at h

lemma loadBytes_read (h : loadBytes skb k size = some (some bytes)) :
    bytes.map some = (bytesRead skb k size).map (Loc.read skb) := by
  unfold loadBytes at h
  unfold bytesRead
  cases hp : loadPointer skb k size with
  | none => simp [hp] at h
  | some found =>
    cases found with
    | none => simp [hp] at h
    | some ptr =>
      rw [hp] at h
      cases ptr with
      | addr a =>
        obtain ⟨bs, hbs, hsome⟩ := map_eq_some_iff.1 h
        obtain rfl := some.inj hsome
        rw [readBytes_eq_some hbs, List.map_map]
        rfl
      | buffer bs =>
        obtain rfl := some.inj (some.inj h)
        exact (skbCopyBits_read (loadPointer_buffer hp).2.2).2

lemma mem_bytesRead {loc : Loc} (h : loc ∈ bytesRead skb k size) :
    (∃ a, loadPointer skb k size = some (some (.addr a)) ∧ ∃ i < size, loc = .mem (a + i)) ∨
      ∃ bytes, loadPointer skb k size = some (some (.buffer bytes)) ∧ loc ∈ copiedFrom skb k size := by
  unfold bytesRead at h
  split at h
  next a hp =>
    obtain ⟨i, hi, rfl⟩ := mem_map.1 h
    exact .inl ⟨a, hp, i, mem_range.1 hi, rfl⟩
  next bytes hp => exact .inr ⟨bytes, hp, h⟩
  next => simp at h

lemma bytesRead_inPacket (hskb : skb.Wf) (hk : 0 ≤ k) :
    ∀ loc ∈ bytesRead skb k size, loc.InPacket skb := by
  have hhead := hskb.headlen
  intro loc hloc
  rcases mem_bytesRead hloc with ⟨a, hp, i, hi, rfl⟩ | ⟨bytes, hp, hcopied⟩
  · rcases loadPointer_addr hp with ⟨_, hlen, rfl⟩ | ⟨hneg, _⟩
    · exact ⟨by omega, by omega⟩
    · unfold skfAdOff at hneg
      omega
  · obtain ⟨_, hlong, hcopy⟩ := loadPointer_buffer hp
    have hend := (skbCopyBits_read hcopy).1
    rw [toInt_eq_toNat_of_lt (by have hlen := hskb.len; omega)] at hend
    unfold copiedFrom at hcopied
    rw [mem_append, List.mem_map, List.mem_map] at hcopied
    rcases hcopied with ⟨i, hi, rfl⟩ | ⟨i, hi, rfl⟩
    · rw [mem_range] at hi
      exact ⟨by omega, by omega⟩
    · rw [mem_range] at hi
      show _ < skb.dataLen.toNat
      omega

/-- What a load at a negative offset reads ends at the tail unless it overhangs. -/
lemma bytesRead_inBuffer (hk : k < 0) (hover : ¬ Overhangs skb k size) :
    ∀ loc ∈ bytesRead skb k size, loc.InBuffer skb := by
  intro loc hloc
  rcases mem_bytesRead hloc with ⟨a, hp, i, hi, rfl⟩ | ⟨bytes, hp, _⟩
  · rcases loadPointer_addr hp with ⟨hpos, _⟩ | ⟨hneg, hptr⟩
    · omega
    · have hend : a + size ≤ skb.tail := by
        by_contra hlt
        exact hover ⟨hneg, a, hptr, not_le.1 hlt⟩
      have hhead : skb.head ≤ a := by
        have hin := (filter_eq_some_iff.1 hptr).2
        rw [Bool.and_eq_true, decide_eq_true_iff] at hin
        exact hin.1
      exact ⟨by omega, by omega⟩
  · exact absurd (loadPointer_buffer hp).1 (not_le.2 hk)

lemma slowLoadPointer_lt {ptr : ℤ} (h : slowLoadPointer skb k = some ptr) : ptr < skb.tail := by
  have hin := (filter_eq_some_iff.1 h).2
  rw [Bool.and_eq_true, decide_eq_true_iff, decide_eq_true_iff] at hin
  exact hin.2

lemma not_overhangs_byte : ¬ Overhangs skb k 1 := by
  rintro ⟨_, ptr, hptr, hlt⟩
  have hin := slowLoadPointer_lt hptr
  omega

/-- The last byte of a load that overhangs is behind the tail. -/
lemma Overhangs.exists_not_inBuffer (h : Overhangs skb k size) :
    ∃ loc ∈ bytesRead skb k size, ¬ loc.InBuffer skb := by
  obtain ⟨hk, ptr, hptr, hlt⟩ := h
  have hin := slowLoadPointer_lt hptr
  have hload : loadPointer skb k size = some (some (.addr ptr)) := by
    unfold loadPointer
    rw [if_neg (by unfold skfAdOff at hk; omega), if_neg (not_le.2 hk), hptr]
    rfl
  refine ⟨.mem (ptr + (size - 1 : ℕ)), ?_, fun hbuffer => ?_⟩
  · rw [bytesRead, hload]
    exact mem_map.2 ⟨size - 1, mem_range.2 (by omega), rfl⟩
  · have hend := hbuffer.2
    omega

end Loads

section Attributes
variable {pf : Platform} {skb : SkBuff} {s : State} {nla remaining attrtype found : ℤ} {m : Memory}

/-- The address and the length with which the netlink attribute load calls `nla_find`, if
it does. -/
def nlattrCall (pf : Platform) (skb : SkBuff) (s : State) : Option (ℤ × ℤ) :=
  if skb.dataLen ≠ 0 then none
  else if (s.A.toNat : ℤ) > ((skb.len.toNat : ℤ) - sizeofNlattr) % 2 ^ pf.bitsPerLong then none
  else some (skb.data + s.A.toNat, (skb.len - s.A).toInt)

lemma ancillary_nlattr (pf : Platform) (skb : SkBuff) (s : State) :
    ancillary pf skb (skfAdOff + skfAdNlattr) s =
      match nlattrCall pf skb s with
      | none => .exit .return0
      | some (nla, remaining) =>
        match nlaFind pf skb.memory nla remaining s.X.toInt with
        | none => .exit .oops
        | some none => .goOn { s with A := 0 }
        | some (some nla) => .goOn { s with A := BitVec.ofInt 32 (nla - skb.data) } := by
  unfold ancillary nlattrCall
  rw [if_neg (by decide), if_neg (by decide), if_neg (by decide), if_pos (by decide)]
  split_ifs <;> rfl

lemma nlaOk_remaining (h : nlaOk pf m nla remaining = some true) : sizeofNlattr ≤ remaining := by
  cases hlen : readU16 pf m nla with
  | none =>
    unfold nlaOk at h
    split_ifs at h
    · simp at h
    · simp [hlen] at h
  | some len =>
    have hbounds := nlaOk_length h hlen
    unfold sizeofNlattr
    omega

lemma nlaFind_oops (h : nlaOk pf m nla remaining = none) :
    nlaFind pf m nla remaining attrtype = none := by
  rw [nlaFind]
  split
  · rfl
  · simp [h] at *
  · simp [h] at *

lemma nlaFind_inside (h : nlaFind pf m nla remaining attrtype = some (some found)) :
    nla ≤ found ∧ found + sizeofNlattr ≤ nla + remaining := by
  fun_induction nlaFind pf m nla remaining attrtype with
  | case1 => simp at h
  | case2 => simp at h
  | case3 => simp at h
  | case4 nla remaining hok =>
    obtain rfl := some.inj (some.inj h)
    have hroom := nlaOk_remaining hok
    exact ⟨le_rfl, by omega⟩
  | case5 => simp at h
  | case6 nla remaining hok type _ _ len _ ih =>
    obtain ⟨hle, hend⟩ := ih h
    exact ⟨by omega, by omega⟩

section
variable (hskb : skb.Wf) (hbits : 32 ≤ pf.bitsPerLong) (hlen : sizeofNlattr ≤ skb.len.toNat)
include hskb hbits hlen

/-- For a linear packet that is not shorter than an attribute header the search starts
and ends inside the packet. -/
lemma nlattrCall_inside (h : nlattrCall pf skb s = some (nla, remaining)) :
    skb.data ≤ nla ∧ nla + sizeofNlattr ≤ skb.tail ∧ 0 ≤ remaining ∧ nla + remaining = skb.tail := by
  unfold nlattrCall at h
  split_ifs at h with hlinear hfar
  obtain ⟨rfl, rfl⟩ := Prod.mk.inj (some.inj h)
  have hzero : skb.dataLen.toNat = 0 := by rw [not_not.1 hlinear]; rfl
  have htail := hskb.tail
  have hsmall := hskb.len
  have hpow : (2 : ℤ) ^ 32 ≤ 2 ^ pf.bitsPerLong := pow_le_pow_right₀ (by norm_num) hbits
  rw [Int.emod_eq_of_lt (by omega) (by omega)] at hfar
  have hA : s.A.toNat ≤ skb.len.toNat := by omega
  have hrem : (skb.len - s.A).toInt = skb.len.toNat - s.A.toNat := by
    rw [toInt_eq_toNat_of_lt, toNat_sub_of_le (le_def.2 hA)]
    · omega
    · rw [toNat_sub_of_le (le_def.2 hA)]
      omega
  refine ⟨by omega, by omega, by omega, by omega⟩

lemma ancillary_nlattr_inside {s' : State}
    (h : ancillary pf skb (skfAdOff + skfAdNlattr) s = .goOn s') :
    s'.A = 0 ∨ s'.A.toNat + sizeofNlattr ≤ skb.len.toNat := by
  rw [ancillary_nlattr] at h
  cases hcall : nlattrCall pf skb s with
  | none => simp [hcall] at h
  | some call =>
    obtain ⟨nla, remaining⟩ := call
    obtain ⟨hdata, _, _, hend⟩ := nlattrCall_inside hskb hbits hlen hcall
    rw [hcall] at h
    dsimp only at h
    cases hfind : nlaFind pf skb.memory nla remaining s.X.toInt with
    | none => simp [hfind] at h
    | some found =>
      cases found with
      | none =>
        rw [hfind] at h
        rw [← Next.goOn.inj h]
        exact .inl rfl
      | some attr =>
        rw [hfind] at h
        rw [← Next.goOn.inj h]
        obtain ⟨hfirst, hlast⟩ := nlaFind_inside hfind
        have htail := hskb.tail
        rw [toNat_ofInt]
        omega

end

lemma execInsn_nlattr (pf : Platform) (skb : SkBuff) {fentry : SockFilter} {size : ℕ}
    (h : packetAccess fentry s = some (skfAdOff + skfAdNlattr, size)) :
    execInsn pf skb fentry s = ancillary pf skb (skfAdOff + skfAdNlattr) s ∨
      execInsn pf skb fentry s = .exit .return0 := by
  have hbytes : ∀ n, loadBytes skb (skfAdOff + skfAdNlattr) n = some none := fun n =>
    loadBytes_ancillary (by decide) (by decide) n
  unfold packetAccess at h
  unfold execInsn
  cases hop : decode fentry.code with
  | none => simp [hop] at h
  | some op =>
    cases op with
    | ldAbs sz =>
      simp only [hop, some.injEq, Prod.mk.injEq] at h
      refine .inl ?_
      dsimp only
      rw [h.1, load, hbytes]
    | ldInd sz =>
      simp only [hop, some.injEq, Prod.mk.injEq] at h
      refine .inl ?_
      dsimp only
      rw [h.1, load, hbytes]
    | ldxMsh =>
      simp only [hop, some.injEq, Prod.mk.injEq] at h
      refine .inr ?_
      rw [h.1, hbytes]
    | _ => simp [hop] at h

end Attributes

/-- In every run a load from offset 0 on reads bytes of the packet. One below 0 reads bytes between
`skb->head` and the tail only, if and only if it is of one byte or does not overhang. -/
theorem packet_loads_inside {skb : SkBuff} (hskb : skb.Wf) (pf : Platform)
    (filter : List SockFilter) (mem : Fin bpfMemwords → BitVec 32) (fuel : ℕ) :
    ∀ t ∈ (skRunFilter pf skb filter mem fuel).executed, ∀ fentry,
      fetch filter t.pc = some fentry → ∀ k size, packetAccess fentry t = some (k, size) →
      (∀ bytes, loadBytes skb k size = some (some bytes) →
        bytes.map some = (bytesRead skb k size).map (Loc.read skb)) ∧
      (0 ≤ k → ∀ loc ∈ bytesRead skb k size, loc.InPacket skb) ∧
      (k < 0 → ((∀ loc ∈ bytesRead skb k size, loc.InBuffer skb) ↔
        size = 1 ∨ ¬ Overhangs skb k size)) := by
  intro t _ fentry _ k size _
  refine ⟨fun bytes h => loadBytes_read h, fun hk => bytesRead_inPacket hskb hk,
    fun hk => ⟨fun hall => .inr fun hover => ?_, ?_⟩⟩
  · obtain ⟨loc, hloc, hout⟩ := hover.exists_not_inBuffer
    exact hout (hall loc hloc)
  · rintro (rfl | hover)
    · exact bytesRead_inBuffer hk not_overhangs_byte
    · exact bytesRead_inBuffer hk hover

/-- Loading the last byte of a packet. -/
theorem packet_load_last : packetWithoutDev.Wf ∧
    ∀ loc ∈ bytesRead packetWithoutDev 3 1, loc.InPacket packetWithoutDev := by
  have hskb : packetWithoutDev.Wf := ⟨by decide, by decide, rfl, by decide, by decide⟩
  refine ⟨hskb, ?_⟩
  exact (packet_loads_inside hskb arm [⟨0x30, 0, 0, 3⟩, ⟨0x16, 0, 0, 0⟩] (fun _ => 0) 2
    ⟨0, 0, fun _ => 0, 0⟩ mem_cons_self ⟨0x30, 0, 0, 3⟩ (by decide) 3 1 (by decide)).2.1 (by decide)

/-- A load of four bytes two bytes before the tail is accepted and reads two bytes behind
the tail, where in this packet no memory is mapped. -/
theorem packet_load_behind_tail :
    packetWithoutDev.Wf ∧ skChkFilter [⟨0x20, 0, 0, 0xfff00002⟩, ⟨0x16, 0, 0, 0⟩] = 0 ∧
    packetAccess ⟨0x20, 0, 0, 0xfff00002⟩ ⟨0, 0, fun _ => 0, 0⟩ = some (skfNetOff + 2, 4) ∧
    (.mem (packetWithoutDev.tail + 1) ∈ bytesRead packetWithoutDev (skfNetOff + 2) 4) ∧
    (skRunFilter arm packetWithoutDev [⟨0x20, 0, 0, 0xfff00002⟩, ⟨0x16, 0, 0, 0⟩]
      (fun _ => 0) 2).exit = some .oops := by
  refine ⟨⟨by decide, by decide, rfl, by decide, by decide⟩, by decide, by decide, by decide, by decide⟩

/-- In every run the netlink attribute load calls `nla_find` with an attribute header and a range
inside the packet if and only if the packet has at least four bytes, and the accumulator is then 0
or an offset inside the packet after it. -/
theorem nlattr_loads_inside {skb : SkBuff} (hskb : skb.Wf) {pf : Platform}
    (hbits : 32 ≤ pf.bitsPerLong) (filter : List SockFilter) (mem : Fin bpfMemwords → BitVec 32)
    (fuel : ℕ) :
    ∀ t ∈ (skRunFilter pf skb filter mem fuel).executed, ∀ fentry,
      fetch filter t.pc = some fentry →
      ∀ size, packetAccess fentry t = some (skfAdOff + skfAdNlattr, size) →
      (∀ nla remaining, nlattrCall pf skb t = some (nla, remaining) →
        ((skb.data ≤ nla ∧ nla + sizeofNlattr ≤ skb.tail ∧ 0 ≤ remaining ∧
          nla + remaining = skb.tail) ↔ sizeofNlattr ≤ skb.len.toNat)) ∧
      (sizeofNlattr ≤ skb.len.toNat →
        ∀ t', execInsn pf skb fentry t = .goOn t' → t'.A = 0 ∨ t'.A.toNat < skb.len.toNat) := by
  intro t _ fentry _ size haccess
  have htail := hskb.tail
  refine ⟨fun nla remaining hcall => ⟨fun hin => by omega,
    fun hlen => nlattrCall_inside hskb hbits hlen hcall⟩, fun hlen t' hgo => ?_⟩
  rcases execInsn_nlattr pf skb haccess with heq | heq
  · rw [heq] at hgo
    rcases ancillary_nlattr_inside hskb hbits hlen hgo with hzero | hin
    · exact .inl hzero
    · unfold sizeofNlattr at hin
      exact .inr (by omega)
  · rw [heq] at hgo
    cases hgo

/-- A packet that is a single attribute of four bytes and of type 0. -/
theorem nlattr_load_first : packetWithoutDev.Wf ∧
    ∀ t', execInsn arm packetWithoutDev ⟨0x20, 0, 0, 0xfffff00c⟩ ⟨0, 0, fun _ => 0, 0⟩ = .goOn t' →
      t'.A = 0 ∨ t'.A.toNat < 4 := by
  have hskb : packetWithoutDev.Wf := ⟨by decide, by decide, rfl, by decide, by decide⟩
  refine ⟨hskb, ?_⟩
  exact (nlattr_loads_inside hskb (by decide : 32 ≤ arm.bitsPerLong)
    [⟨0x20, 0, 0, 0xfffff00c⟩, ⟨0x16, 0, 0, 0⟩] (fun _ => 0) 2 ⟨0, 0, fun _ => 0, 0⟩
    (mem_of_head? (runLoop_first (by decide)
      (by decide : fetch _ _ = some ⟨0x20, 0, 0, 0xfffff00c⟩)))
    ⟨0x20, 0, 0, 0xfffff00c⟩ (by decide) 4 (by decide)).2 (by decide)

/-- A linear packet of two bytes. -/
def shortPacket : SkBuff where
  memory := fun a => if 0x1000 ≤ a ∧ a < 0x1002 then some 0 else none
  head := 0x1000
  data := 0x1000
  tail := 0x1002
  networkHeader := 0x1000
  macHeader := 0x1000
  len := 2
  dataLen := 0
  paged := []
  protocol := 0
  pktType := 0
  dev := none

/-- Loading attributes at offset 1000. -/
def farAttribute : List SockFilter :=
  [⟨0x00, 0, 0, 1000⟩, ⟨0x20, 0, 0, 0xfffff00c⟩, ⟨0x16, 0, 0, 0⟩]

/-- For a packet of two bytes the attribute load at offset 1000 calls `nla_find` there with a
negative length, and `nla_find` reads the length field of the header. -/
theorem nlattr_load_behind_packet :
    shortPacket.Wf ∧ skChkFilter farAttribute = 0 ∧
    ∃ t ∈ (skRunFilter arm shortPacket farAttribute (fun _ => 0) 3).executed,
      fetch farAttribute t.pc = some ⟨0x20, 0, 0, 0xfffff00c⟩ ∧
      nlattrCall arm shortPacket t = some (shortPacket.data + 1000, -998) ∧
      execInsn arm shortPacket ⟨0x20, 0, 0, 0xfffff00c⟩ t = .exit .oops := by
  refine ⟨⟨by decide, by decide, rfl, by decide, by decide⟩, by decide,
    ⟨1000, 0, fun _ => 0, 1⟩, ?_, by decide, by decide, ?_⟩
  · exact mem_cons_of_mem _ (mem_of_head? (runLoop_first (by decide)
      (by decide : fetch farAttribute _ = some ⟨0x20, 0, 0, 0xfffff00c⟩)))
  · refine execInsn_oops.2 (.inr (.inr ⟨by decide, rfl, by decide, nlaFind_oops ?_⟩))
    decide

end BooxKernel.Bpf
