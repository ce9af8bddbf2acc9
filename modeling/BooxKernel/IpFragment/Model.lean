import Mathlib.Data.BitVec
import Mathlib.Tactic

/-!
# Reassembly of IPv4 datagrams

The queue of the fragments of one datagram, from `net/ipv4/ip_fragment.c`. A packet is at most as
long as its 16 bit total length says, so the `int`s of the source do not overflow. Whether memory
can be had, and what the counter of the peer says, comes with each packet.
-/
namespace BooxKernel.IpFragment

/-- `__u32`. -/
abbrev U32 := BitVec 32

abbrev Byte := BitVec 8

/-- `skb->ip_summed`. -/
inductive Checksum
  | none
  | unnecessary
  | complete
  | inPart
  deriving DecidableEq, Repr

/-- The checksum does not cover the data any more. -/
def Checksum.spoil (c : Checksum) : Checksum := if c ≠ .unnecessary then .none else c

/-- A `struct sk_buff` in the queue. `front` is what lies between the network header and
`skb->data`, and `ihl` the header length in the IP header. -/
structure Skb where
  offset : ℕ
  front : List Byte
  data : List Byte
  ihl : ℕ
  ipSummed : Checksum
  deriving DecidableEq, Repr

namespace Skb

/-- `skb->len`. -/
def len (skb : Skb) : ℕ := skb.data.length

/-- A `pskb_pull` that succeeds. -/
def pull (skb : Skb) (i : ℕ) : Skb :=
  { skb with front := skb.front ++ skb.data.take i, data := skb.data.drop i }

/-- A `pskb_trim_rcsum` that succeeds. -/
def trim (skb : Skb) (len : ℕ) : Skb :=
  if len ≥ skb.len then skb
  else
    { skb with
      data := skb.data.take len
      ipSummed := if skb.ipSummed = .complete then .none else skb.ipSummed }

def spoil (skb : Skb) : Skb := { skb with ipSummed := skb.ipSummed.spoil }

end Skb

/-- The fields of `struct ipq` and its `struct inet_frag_queue`. -/
structure Queue where
  fragments : List Skb := []
  len : ℕ := 0
  meat : ℤ := 0
  firstIn : Bool := false
  lastIn : Bool := false
  complete : Bool := false
  rid : U32 := 0
  deriving DecidableEq, Repr

/-- A packet for the queue, and how the calls that can fail end for it. -/
structure Packet where
  /-- `ntohs(ip_hdr(skb)->frag_off)`. -/
  fragOff : BitVec 16
  header : List Byte
  payload : List Byte
  ipSummed : Checksum := .none
  /-- `IPCB(skb)->flags & IPSKB_FRAG_COMPLETE`. -/
  fragComplete : Bool := false
  /-- `atomic_inc_return(&peer->rid)`, if there is a peer. -/
  peerRid : Option U32 := none
  /-- `mod_timer` finds the timer pending. -/
  timerPending : Bool := true
  pullHeader : Bool := true
  trim : Bool := true
  pullHead : Bool := true
  pullNext : Bool := true
  clone : Bool := true
  expandHead : Bool := true
  splitHead : Bool := true

namespace Packet

/-- `(frag_off & IP_OFFSET) << 3`. -/
def offset (p : Packet) : ℕ := (p.fragOff &&& 0x1FFF).toNat * 8

/-- `flags & IP_MF`. -/
def moreFragments (p : Packet) : Bool := p.fragOff &&& 0x2000 ≠ 0

end Packet

inductive Errno
  | enoent
  | etimedout
  | einval
  | enomem
  | e2big
  deriving DecidableEq, Repr

section Enqueue

/-- `ip_frag_too_far`, with the queue that it leaves. -/
def ipFragTooFar (maxDist : U32) (q : Queue) (p : Packet) : Bool × Queue :=
  match p.peerRid with
  | none => (false, q)
  | some rid =>
    if maxDist = 0 then (false, q)
    else (!q.fragments.isEmpty && rid - q.rid > maxDist, { q with rid := rid })

/-- `ip_frag_reinit`. -/
def ipFragReinit (q : Queue) (p : Packet) : Option Queue :=
  if !p.timerPending then none
  else some { q with lastIn := false, firstIn := false, complete := false, len := 0, meat := 0,
                     fragments := [] }

/-- What the end of the packet says about the end of the datagram: the queue, and the end of what
is taken from the packet, unless the two do not agree. -/
def extend (q : Queue) (p : Packet) : Option (Queue × ℕ) :=
  let stop := p.offset + p.payload.length
  if !p.moreFragments then
    if stop < q.len ∨ (q.lastIn ∧ stop ≠ q.len) then none
    else some ({ q with lastIn := true, len := stop }, stop)
  else
    let stop := stop / 8 * 8
    if stop > q.len then
      if q.lastIn then none else some ({ q with len := stop }, stop)
    else some (q, stop)

/-- The packet without its header and what lies beyond `stop`. -/
def Packet.skb (p : Packet) (stop : ℕ) : Skb :=
  let skb : Skb :=
    { offset := p.offset
      front := p.header
      data := p.payload
      ihl := p.header.length
      ipSummed :=
        if p.moreFragments ∧ (p.offset + p.payload.length) % 8 ≠ 0 then p.ipSummed.spoil
        else p.ipSummed }
  skb.trim (stop - p.offset)

/-- The loop that looks for the place of the packet: the fragments in front and those behind. -/
def findPlace (offset : ℕ) (prev : List Skb) : List Skb → List Skb × List Skb
  | [] => (prev, [])
  | next :: rest =>
    if next.offset ≥ offset then (prev, next :: rest) else findPlace offset (prev ++ [next]) rest

/-- Cuts from the packet what the fragment in front of it has. -/
def cutHead (p : Packet) (prev : List Skb) (skb : Skb) (stop : ℕ) : Except Errno Skb :=
  match prev.getLast? with
  | none => .ok skb
  | some f =>
    let i := f.offset + f.len - skb.offset
    if i > 0 then
      if stop ≤ skb.offset + i then .error .einval
      else if !p.pullHead then .error .enomem
      else .ok { skb.pull i with offset := skb.offset + i, ipSummed := skb.ipSummed.spoil }
    else .ok skb

/-- The loop over the fragments behind the packet, which it overrides: whether it ends, the count
of the bytes and the fragments that are left. -/
def overrideNext (p : Packet) (stop : ℕ) (meat : ℤ) : List Skb → Bool × ℤ × List Skb
  | [] => (true, meat, [])
  | next :: rest =>
    if next.offset < stop then
      let i := stop - next.offset
      if i < next.len then
        if !p.pullNext then (false, meat, next :: rest)
        else
          (true, meat - i,
            { next.pull i with offset := next.offset + i, ipSummed := next.ipSummed.spoil } :: rest)
      else overrideNext p stop (meat - next.len) rest
    else (true, meat, next :: rest)

/-- What `ip_frag_queue` returns, or that it goes on to `ip_frag_reasm`. -/
inductive Outcome
  | error (err : Errno)
  | inProgress
  | reasm (prev : Bool)
  deriving DecidableEq, Repr

/-- Puts the packet between the fragments in front and those behind. -/
def insertFragment (q : Queue) (prev next : List Skb) (meat : ℤ) (skb : Skb) : Queue × Outcome :=
  let q :=
    { q with
      fragments := prev ++ skb :: next
      meat := meat + skb.len
      firstIn := q.firstIn || skb.offset = 0 }
  if q.firstIn ∧ q.lastIn ∧ !q.complete ∧ q.meat = q.len then (q, .reasm !prev.isEmpty)
  else (q, .inProgress)

/-- `ip_frag_queue` from the search for the place of the fragment on. -/
def placeFragment (q : Queue) (p : Packet) (stop : ℕ) : Queue × Outcome :=
  let (prev, next) := findPlace p.offset [] q.fragments
  match cutHead p prev (p.skb stop) stop with
  | .error err => (q, .error err)
  | .ok skb =>
    match overrideNext p stop q.meat next with
    | (false, meat, next) => ({ q with fragments := prev ++ next, meat := meat }, .error .enomem)
    | (true, meat, next) => insertFragment q prev next meat skb

/-- `ip_frag_queue` from the position of the fragment on. -/
def enqueue (q : Queue) (p : Packet) : Queue × Outcome :=
  match extend q p with
  | none => (q, .error .einval)
  | some (q, stop) =>
    if stop = p.offset then (q, .error .einval)
    else if !p.pullHeader then (q, .error .enomem)
    else if stop - p.offset < p.payload.length ∧ !p.trim then (q, .error .enomem)
    else placeFragment q p stop

/-- `ip_frag_queue` up to where it returns or goes on to `ip_frag_reasm`. -/
def ipFragQueueEnter (maxDist : U32) (q : Queue) (p : Packet) : Queue × Outcome :=
  if q.complete then (q, .error .enoent)
  else if p.fragComplete then enqueue q p
  else
    let (far, q) := ipFragTooFar maxDist q p
    if far then
      match ipFragReinit q p with
      | none => ({ q with complete := true }, .error .etimedout)
      | some q => enqueue q p
    else enqueue q p

end Enqueue

section Reasm

/-- The datagram that `ip_frag_reasm` builds. -/
structure Datagram where
  bytes : List Byte
  totLen : ℕ
  ipSummed : Checksum
  deriving DecidableEq, Repr

/-- What a call returns: an error, `-EINPROGRESS`, or `0` with the datagram; or it does not find
the first fragment. -/
inductive Result
  | error (err : Errno)
  | inProgress
  | datagram (d : Datagram)
  | oops
  deriving DecidableEq, Repr

/-- `ip_frag_reasm`. The clone that takes the place of the last packet when that becomes the head
has its data. -/
def ipFragReasm (q : Queue) (prev : Bool) (p : Packet) : Queue × Result :=
  let q := { q with complete := true }
  if prev && !p.clone then (q, .error .enomem)
  else
    match q.fragments with
    | [] => (q, .oops)
    | head :: rest =>
      let len := head.ihl + q.len
      if len > 65535 then (q, .error .e2big)
      else if !p.expandHead then (q, .error .enomem)
      else if !p.splitHead then (q, .error .enomem)
      else
        ({ q with fragments := [] },
          .datagram
            { bytes := head.front ++ head.data ++ rest.flatMap Skb.data
              totLen := len
              ipSummed := rest.foldl (fun c fp => if c ≠ fp.ipSummed then .none else c)
                head.ipSummed })

/-- `ip_frag_queue`. -/
def ipFragQueue (maxDist : U32) (q : Queue) (p : Packet) : Queue × Result :=
  match ipFragQueueEnter maxDist q p with
  | (q, .error err) => (q, .error err)
  | (q, .inProgress) => (q, .inProgress)
  | (q, .reasm prev) => ipFragReasm q prev p

/-- The queue after some packets. -/
def receive (maxDist : U32) (q : Queue) (packets : List Packet) : Queue :=
  packets.foldl (fun q p => (ipFragQueue maxDist q p).1) q

end Reasm

end BooxKernel.IpFragment
