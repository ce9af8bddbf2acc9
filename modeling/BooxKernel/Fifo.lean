import BooxKernel.Lib.Rings
import BooxKernel.Lib.Runs
import Mathlib.Data.Nat.Bitwise

/-!
# The kernel FIFO

`struct kfifo` is a buffer of a power of two of bytes with two `unsigned int` indices,
which are masked where they are used and left to wrap. A copy outside of a buffer has no
value, and neither has a `BUG_ON` that is hit. The lock and the barriers are left out: the
calls are taken one after the other.

The bytes between the two indices are a queue. A call of `__kfifo_put` appends what fits
to it and a call of `__kfifo_get` takes from its front, however often the indices have
wrapped.
-/
namespace BooxKernel.Fifo
open Rings

variable {α : Type*}

/-- `struct kfifo`; `in` and `out` are `inIndex` and `outIndex`. -/
structure Kfifo (α : Type*) where
  buffer : List α
  size : ℕ
  inIndex : ℕ
  outIndex : ℕ
  deriving Repr, DecidableEq

/-- A subtraction of `unsigned int`s. -/
def usub (a b : ℕ) : ℕ := (a + (2 ^ 32 - b)) % 2 ^ 32

/-- An addition of `unsigned int`s. -/
def uadd (a b : ℕ) : ℕ := (a + b) % 2 ^ 32

/-- `memcpy(dst + d, src + s, n)`. -/
def memcpy (dst : List α) (d : ℕ) (src : List α) (s n : ℕ) : Option (List α) :=
  if d + n ≤ dst.length ∧ s + n ≤ src.length then some (overwrite dst d ((src.drop s).take n))
  else none

/-- `is_power_of_2`. -/
def isPowerOf2 (n : ℕ) : Bool := n ≠ 0 && n &&& (n - 1) = 0

/-- `kfifo_init`, when the structure has been allocated. -/
def kfifoInit (buffer : List α) (size : ℕ) : Option (Kfifo α) :=
  if isPowerOf2 size then some ⟨buffer, size, 0, 0⟩ else none

namespace Kfifo

section
variable (fifo : Kfifo α) (buffer : List α) (len : ℕ)

/-- `__kfifo_put`, with the number of bytes that it returns. -/
def put : Option (Kfifo α × ℕ) := do
  let len := min len (uadd (usub fifo.size fifo.inIndex) fifo.outIndex)
  -- first put the data starting from fifo->in to buffer end
  let l := min len (fifo.size - (fifo.inIndex &&& (fifo.size - 1)))
  let cells ← memcpy fifo.buffer (fifo.inIndex &&& (fifo.size - 1)) buffer 0 l
  -- then put the rest (if any) at the beginning of the buffer
  let cells ← memcpy cells 0 buffer l (len - l)
  some ({ fifo with buffer := cells, inIndex := uadd fifo.inIndex len }, len)

/-- `__kfifo_get`, with the caller's buffer and the number of bytes that it returns. -/
def get : Option (Kfifo α × List α × ℕ) := do
  let len := min len (usub fifo.inIndex fifo.outIndex)
  -- first get the data from fifo->out until the end of the buffer
  let l := min len (fifo.size - (fifo.outIndex &&& (fifo.size - 1)))
  let buffer ← memcpy buffer 0 fifo.buffer (fifo.outIndex &&& (fifo.size - 1)) l
  -- then get the rest (if any) from the beginning of the buffer
  let buffer ← memcpy buffer l fifo.buffer 0 (len - l)
  some ({ fifo with outIndex := uadd fifo.outIndex len }, buffer, len)

/-- `__kfifo_reset`. -/
def reset : Kfifo α := { fifo with inIndex := 0, outIndex := 0 }

/-- What `kfifo_get` does under the lock: the indices of an empty FIFO go back to 0. -/
def getLocked : Option (Kfifo α × List α × ℕ) :=
  (fifo.get buffer len).map fun (fifo, buffer, len) =>
    (if fifo.inIndex = fifo.outIndex then fifo.reset else fifo, buffer, len)

end

/-- `__kfifo_len`. -/
def len (fifo : Kfifo α) : ℕ := usub fifo.inIndex fifo.outIndex

end Kfifo

open Runs List Option Nat

variable {fifo fifo' : Kfifo α} {q data buffer : List α} {n : ℕ}

section Indices

lemma uadd_lt (a b : ℕ) : uadd a b < 2 ^ 32 := mod_lt _ (by decide)

lemma usub_self (h : n ≤ 2 ^ 32) : usub n n = 0 := by
  rw [usub, show n + (2 ^ 32 - n) = 2 ^ 32 by omega, mod_self]

variable {a b n size m : ℕ}

lemma usub_uadd (h : usub a b + n < 2 ^ 32) : usub (uadd a n) b = usub a b + n := by
  simp only [usub, uadd] at h ⊢
  omega

lemma usub_uadd_right (hb : b < 2 ^ 32) (h : n ≤ usub a b) : usub a (uadd b n) = usub a b - n := by
  simp only [usub, uadd] at h ⊢
  omega

lemma uadd_usub (ha : a < 2 ^ 32) (hb : b < 2 ^ 32) (hsize : size < 2 ^ 32) (h : usub a b ≤ size)
    : uadd (usub size a) b = size - usub a b := by
  simp only [usub, uadd] at h ⊢
  omega

lemma mod_usub (ha : a < 2 ^ 32) (hb : b < 2 ^ 32) (hm : m ∣ 2 ^ 32) :
    (b + usub a b) % m = a % m := by
  have h : (b + usub a b) % 2 ^ 32 = a := by
    simp only [usub]
    omega
  rw [← mod_mod_of_dvd _ hm, h]

end Indices

section Copies
variable {ring : List α} {start : ℕ}

lemma memcpy_in (hstart : start < ring.length) (hn : n ≤ ring.length) (hdata : n ≤ data.length) :
    ((memcpy ring start data 0 (min n (ring.length - start))).bind fun cells =>
      memcpy cells 0 data (min n (ring.length - start)) (n - min n (ring.length - start))) =
      some (wrapWrite ring start (data.take n)) := by
  have hfirst := @length_overwrite α ((data.take n).take (ring.length - start)) ring start
    (by rw [length_take]; omega)
  have hcopy : memcpy ring start data 0 (min n (ring.length - start)) =
      some (overwrite ring start ((data.take n).take (ring.length - start))) := by
    rw [memcpy, if_pos (by omega), drop_zero, take_take, min_comm]
  have hrest : (data.drop (min n (ring.length - start))).take (n - min n (ring.length - start)) =
      (data.take n).drop (ring.length - start) := by
    rcases le_total n (ring.length - start) with h | h
    · rw [min_eq_left h, Nat.sub_self, take_zero, drop_eq_nil_of_le]
      rw [length_take]
      omega
    · rw [min_eq_right h, drop_take]
  rw [hcopy, bind_some, memcpy, if_pos (by omega), wrapWrite, hrest]

lemma memcpy_out (hstart : start < ring.length) (hn : n ≤ q.length) (hbuffer : n ≤ buffer.length)
    (h : Holds ring start q) :
    ((memcpy buffer 0 ring start (min n (ring.length - start))).bind fun buffer =>
      memcpy buffer (min n (ring.length - start)) ring 0 (n - min n (ring.length - start))) =
      some (overwrite buffer 0 (q.take n)) := by
  have hfits := h.fits
  have hlen1 : ((ring.drop start).take (min n (ring.length - start))).length =
      min n (ring.length - start) := by
    rw [length_take, length_drop]
    omega
  have hlen2 : (ring.take (n - min n (ring.length - start))).length =
      n - min n (ring.length - start) := by
    rw [length_take]
    omega
  have hfirst := @length_overwrite α ((ring.drop start).take (min n (ring.length - start))) buffer 0
    (by omega)
  have happend := overwrite_append (show ((ring.drop start).take
    (min n (ring.length - start))).length + (ring.take (n - min n (ring.length - start))).length ≤
      buffer.length by omega)
  rw [hlen1] at happend
  rw [memcpy, if_pos (by omega), bind_some, memcpy, if_pos (by omega), drop_zero,
    happend, h.take hstart hn]

end Copies

/-- A FIFO with the queue of its bytes. -/
structure Queue (fifo : Kfifo α) (q : List α) : Prop where
  power : ∃ k ≤ 31, fifo.size = 2 ^ k
  length : fifo.buffer.length = fifo.size
  inIndex : fifo.inIndex < 2 ^ 32
  outIndex : fifo.outIndex < 2 ^ 32
  len : fifo.len = q.length
  holds : Holds fifo.buffer fifo.outIndex q

namespace Queue

section
variable (h : Queue fifo q)
include h

lemma size_pos : 0 < fifo.size := by
  obtain ⟨k, -, hk⟩ := h.power
  exact hk ▸ Nat.two_pow_pos k

lemma size_dvd : fifo.size ∣ 2 ^ 32 := by
  obtain ⟨k, hk, hsize⟩ := h.power
  exact hsize ▸ pow_dvd_pow 2 (by omega)

lemma size_le : fifo.size ≤ 2 ^ 31 := by
  obtain ⟨k, hk, hsize⟩ := h.power
  exact hsize ▸ Nat.pow_le_pow_right (by decide) hk

lemma length_le : q.length ≤ fifo.size := h.length ▸ h.holds.fits

lemma mask (i : ℕ) : i &&& (fifo.size - 1) = i % fifo.size := by
  obtain ⟨k, -, hk⟩ := h.power
  rw [hk, and_two_pow_sub_one_eq_mod]

end

lemma init {k : ℕ} (hk : k ≤ 31) (hbuffer : buffer.length = 2 ^ k) :
    Queue ⟨buffer, 2 ^ k, 0, 0⟩ [] where
  power := ⟨k, hk, rfl⟩
  length := hbuffer
  inIndex := Nat.two_pow_pos 32
  outIndex := Nat.two_pow_pos 32
  len := usub_self (zero_le _)
  holds := holds_nil _ _

section
variable (h : Queue fifo q)
include h

lemma reset : Queue fifo.reset [] where
  power := h.power
  length := h.length
  inIndex := Nat.two_pow_pos 32
  outIndex := Nat.two_pow_pos 32
  len := usub_self (zero_le _)
  holds := holds_nil _ _

lemma free : uadd (usub fifo.size fifo.inIndex) fifo.outIndex = fifo.size - q.length := by
  have hlen : usub fifo.inIndex fifo.outIndex = q.length := h.len
  have hsize := h.size_le
  rw [← hlen]
  exact uadd_usub h.inIndex h.outIndex (by omega) (hlen ▸ h.length_le)

/-- The end of the queue is where `__kfifo_put` writes. -/
lemma back : (fifo.outIndex + q.length) % fifo.size = fifo.inIndex % fifo.size := by
  rw [← h.len]
  exact mod_usub h.inIndex h.outIndex h.size_dvd

/-- `__kfifo_put` appends as many bytes as there is room for. -/
lemma put (hn : n ≤ data.length) :
    ∃ fifo', fifo.put data n = some (fifo', min n (fifo.size - q.length)) ∧
      fifo'.size = fifo.size ∧ Queue fifo' (q ++ data.take (min n (fifo.size - q.length))) := by
  have hsize := h.size_le
  have hlq := h.length_le
  have hat : fifo.inIndex % fifo.size < fifo.size := mod_lt _ h.size_pos
  generalize hm : min n (fifo.size - q.length) = m
  have hlen : (data.take m).length = m := by
    rw [length_take]
    omega
  have hcopy := @memcpy_in α data m fifo.buffer (fifo.inIndex % fifo.size)
    (by rw [h.length]; exact hat) (by rw [h.length]; omega) (by omega)
  rw [h.length] at hcopy
  refine ⟨{ fifo with
    buffer := wrapWrite fifo.buffer (fifo.inIndex % fifo.size) (data.take m)
    inIndex := uadd fifo.inIndex m }, ?_, rfl, ?_⟩
  · rw [Kfifo.put, h.free, hm, h.mask]
    obtain ⟨cells, hcells, hrest⟩ := bind_eq_some_iff.1 hcopy
    rw [hcells, bind_eq_bind, bind_some, hrest]
    rfl
  · have hwritten := h.holds.wrapWrite (show q.length + (data.take m).length ≤ fifo.buffer.length by
      rw [h.length]; omega) (ne_nil_of_length_pos (h.length ▸ h.size_pos))
    rw [h.length, h.back] at hwritten
    exact {
      power := h.power
      length := by
        rw [length_wrapWrite (by rw [h.length]; exact hat) (by rw [h.length]; omega), h.length]
      inIndex := uadd_lt _ _
      outIndex := h.outIndex
      len := by
        have hused : usub fifo.inIndex fifo.outIndex = q.length := h.len
        rw [length_append, hlen, ← hused]
        exact @usub_uadd fifo.inIndex fifo.outIndex m (by omega)
      holds := hwritten }

/-- `__kfifo_get` takes as many bytes as there are. -/
lemma get (hn : n ≤ buffer.length) :
    ∃ fifo', fifo.get buffer n = some (fifo', overwrite buffer 0 (q.take n), min n q.length) ∧
      fifo'.size = fifo.size ∧ Queue fifo' (q.drop n) := by
  have hused : usub fifo.inIndex fifo.outIndex = q.length := h.len
  have hat : fifo.outIndex % fifo.size < fifo.size := mod_lt _ h.size_pos
  have hcopy := @memcpy_out α q buffer (min n q.length) fifo.buffer (fifo.outIndex % fifo.size)
    (by rw [h.length]; exact hat) (by omega) (by omega)
    (h.holds.congr (by rw [h.length, mod_mod]))
  rw [h.length, ← take_eq_take_min] at hcopy
  refine ⟨{ fifo with outIndex := uadd fifo.outIndex (min n q.length) }, ?_, rfl, ?_⟩
  · rw [Kfifo.get, hused, h.mask]
    obtain ⟨cells, hcells, hrest⟩ := bind_eq_some_iff.1 hcopy
    rw [hcells, bind_eq_bind, bind_some, hrest]
    rfl
  · have hdropped := h.holds.drop (show min n q.length ≤ q.length by omega)
    rw [show q.drop (min n q.length) = q.drop n by
      rcases le_total n q.length with hle | hle
      · rw [min_eq_left hle]
      · rw [min_eq_right hle, drop_length, drop_eq_nil_of_le hle]] at hdropped
    exact {
      power := h.power
      length := h.length
      inIndex := h.inIndex
      outIndex := uadd_lt _ _
      len := by
        rw [length_drop]
        exact (@usub_uadd_right fifo.inIndex fifo.outIndex (min n q.length) h.outIndex
          (by omega)).trans (by omega)
      holds := hdropped.congr (by rw [h.length]; exact (mod_mod_of_dvd _ h.size_dvd).symm) }

lemma getLocked (hn : n ≤ buffer.length) :
    ∃ fifo', fifo.getLocked buffer n = some (fifo', overwrite buffer 0 (q.take n), min n q.length) ∧
      fifo'.size = fifo.size ∧ Queue fifo' (q.drop n) := by
  obtain ⟨fifo', hget, hsize, hqueue⟩ := h.get hn
  rw [Kfifo.getLocked, hget]
  by_cases hempty : fifo'.inIndex = fifo'.outIndex
  · have hlen : fifo'.len = 0 := by
      rw [Kfifo.len, hempty]
      exact usub_self hqueue.outIndex.le
    have hnil : q.drop n = [] := eq_nil_of_length_eq_zero (hqueue.len ▸ hlen)
    exact ⟨fifo'.reset, by simp [hempty], hsize, hnil ▸ hqueue.reset⟩
  · exact ⟨fifo', by simp [hempty], hsize, hqueue⟩

end

end Queue

/-- What a call has done: the bytes that it accepted or returned. -/
inductive Event (α : Type*)
  | put (bytes : List α)
  | get (bytes : List α)

def Event.accepted : Event α → List α
  | put bytes => bytes
  | get _ => []

def Event.returned : Event α → List α
  | put _ => []
  | get bytes => bytes

/-- One call, with a buffer of the caller that is large enough for `len`. -/
inductive Step (fifo : Kfifo α) : Event α → Kfifo α → Prop
  | put {buffer : List α} {len ret : ℕ} {fifo' : Kfifo α} (hlen : len ≤ buffer.length)
      (h : fifo.put buffer len = some (fifo', ret)) : Step fifo (.put (buffer.take ret)) fifo'
  | get {buffer buffer' : List α} {len ret : ℕ} {fifo' : Kfifo α} (hlen : len ≤ buffer.length)
      (h : fifo.get buffer len = some (fifo', buffer', ret)) :
      Step fifo (.get (buffer'.take ret)) fifo'
  | getLocked {buffer buffer' : List α} {len ret : ℕ} {fifo' : Kfifo α}
      (hlen : len ≤ buffer.length) (h : fifo.getLocked buffer len = some (fifo', buffer', ret)) :
      Step fifo (.get (buffer'.take ret)) fifo'

lemma take_overwrite : (overwrite buffer 0 (q.take n)).take (min n q.length) = q.take n := by
  rw [overwrite, take_zero, nil_append, ← length_take, take_left]

lemma Step.queue {e : Event α} (hstep : Step fifo e fifo') (h : Queue fifo q) :
    fifo'.size = fifo.size ∧ ∃ q', Queue fifo' q' ∧ q ++ e.accepted = e.returned ++ q' := by
  cases hstep with
  | @put buffer len ret fifo' hlen hput =>
    obtain ⟨fifo1, h1, hsize, hqueue⟩ := h.put hlen
    obtain ⟨rfl, rfl⟩ := Prod.mk.inj (some.inj (h1.symm.trans hput))
    exact ⟨hsize, _, hqueue, rfl⟩
  | @get buffer buffer' len ret fifo' hlen hget =>
    obtain ⟨fifo1, h1, hsize, hqueue⟩ := h.get hlen
    obtain ⟨rfl, rfl, rfl⟩ := (by simpa using h1.symm.trans hget :
      fifo1 = fifo' ∧ overwrite buffer 0 (q.take len) = buffer' ∧ min len q.length = ret)
    exact ⟨hsize, _, hqueue, by simp [Event.accepted, Event.returned, take_overwrite]⟩
  | @getLocked buffer buffer' len ret fifo' hlen hget =>
    obtain ⟨fifo1, h1, hsize, hqueue⟩ := h.getLocked hlen
    obtain ⟨rfl, rfl, rfl⟩ := (by simpa using h1.symm.trans hget :
      fifo1 = fifo' ∧ overwrite buffer 0 (q.take len) = buffer' ∧ min len q.length = ret)
    exact ⟨hsize, _, hqueue, by simp [Event.accepted, Event.returned, take_overwrite]⟩

/-- The bytes that have been accepted are those that have been returned and those that are
stored. -/
lemma Queue.run {es : List (Event α)} (hrun : Run Step fifo es fifo') (h : Queue fifo []) :
    fifo'.size = fifo.size ∧ ∃ q, Queue fifo' q ∧
      es.flatMap Event.accepted = es.flatMap Event.returned ++ q := by
  induction hrun with
  | nil => exact ⟨rfl, [], h, rfl⟩
  | snoc _ hstep ih =>
    obtain ⟨hsize, q, hqueue, heq⟩ := ih
    obtain ⟨hsize', q', hqueue', hstep⟩ := hstep.queue hqueue
    refine ⟨hsize'.trans hsize, q', hqueue', ?_⟩
    simp only [flatMap_append, flatMap_singleton, heq, append_assoc, hstep]

lemma isPowerOf2_two_pow (k : ℕ) : isPowerOf2 (2 ^ k) = true := by
  have hand : 2 ^ k &&& (2 ^ k - 1) = 0 := by
    rw [and_two_pow_sub_one_eq_mod, mod_self]
  simp [isPowerOf2, hand]

/-- The FIFO is one of bytes. After every sequence of calls the bytes returned are a prefix of
those accepted, `in - out` is the number of those between, which is at most `size`, and the
next call accepts or returns exactly as many bytes as there is room or as are stored. -/
theorem kfifo_fifo {k : ℕ} (hk : k ≤ 31) {buffer : List α} (hbuffer : buffer.length = 2 ^ k)
    {fifo₀ fifo : Kfifo α} (hinit : kfifoInit buffer (2 ^ k) = some fifo₀) {es : List (Event α)}
    (hrun : Run Step fifo₀ es fifo) :
    es.flatMap Event.returned <+: es.flatMap Event.accepted ∧
    fifo.len = (es.flatMap Event.accepted).length - (es.flatMap Event.returned).length ∧
    fifo.len ≤ 2 ^ k ∧
    (∀ data len, len ≤ data.length → ∃ fifo',
      fifo.put data len = some (fifo', min len (2 ^ k - fifo.len))) ∧
    ∀ dst len, len ≤ dst.length → ∃ fifo' dst',
      fifo.get dst len = some (fifo', dst', min len fifo.len) := by
  obtain rfl : fifo₀ = ⟨buffer, 2 ^ k, 0, 0⟩ := by
    simpa [kfifoInit, isPowerOf2_two_pow] using hinit.symm
  obtain ⟨hsize, q, hqueue, heq⟩ := (Queue.init hk hbuffer).run hrun
  replace hsize : fifo.size = 2 ^ k := hsize
  rw [hqueue.len, heq, ← hsize]
  refine ⟨prefix_append _ _, by simp, hqueue.length_le, ?_, ?_⟩
  · intro data len hlen
    obtain ⟨fifo', hput, -⟩ := hqueue.put hlen
    exact ⟨fifo', hput⟩
  · intro dst len hlen
    obtain ⟨fifo', hget, -⟩ := hqueue.get hlen
    exact ⟨fifo', _, hget⟩

/-- Three bytes offered to a FIFO of two, of which one has been taken. -/
theorem kfifo_fifo_two : ([5] : List ℕ) <+: [5, 6] ∧ (⟨[5, 6], 2, 2, 1⟩ : Kfifo ℕ).len ≤ 2 := by
  have hinit : kfifoInit [0, 0] (2 ^ 1) = some (⟨[0, 0], 2, 0, 0⟩ : Kfifo ℕ) := by decide
  have hput : Step (⟨[0, 0], 2, 0, 0⟩ : Kfifo ℕ) (.put [5, 6]) ⟨[5, 6], 2, 2, 0⟩ :=
    .put (show 3 ≤ [5, 6, 7].length by decide)
      (show Kfifo.put _ [5, 6, 7] 3 = some (_, 2) by decide)
  have hget : Step (⟨[5, 6], 2, 2, 0⟩ : Kfifo ℕ) (.get [5]) ⟨[5, 6], 2, 2, 1⟩ :=
    .get (show 1 ≤ [0].length by decide) (show Kfifo.get _ [0] 1 = some (_, [5], 1) by decide)
  have h := kfifo_fifo (show 1 ≤ 31 by decide) (show [0, 0].length = 2 ^ 1 by rfl) hinit
    (.snoc (.snoc .nil hput) hget)
  exact ⟨h.1, h.2.2.1⟩

end BooxKernel.Fifo
