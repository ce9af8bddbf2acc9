import Mathlib.Data.List.Basic
import Mathlib.Data.List.TakeDrop

/-!
# Rings

A list of cells read as a ring: the cell `k` places after `start` is the one at
`(start + k) % size`. What crosses the end of the list is copied in two parts. A ring
holds a queue from `start` on when its cells are there in order.
-/
namespace BooxKernel.Rings
open List Nat

variable {α : Type*} {ring data q dst more : List α} {start k n : ℕ}

/-- The cells of `dst` from `i` on are those of `data`. -/
def overwrite (dst : List α) (i : ℕ) (data : List α) : List α :=
  dst.take i ++ data ++ dst.drop (i + data.length)

lemma length_overwrite {i : ℕ} (h : i + data.length ≤ dst.length) :
    (overwrite dst i data).length = dst.length := by
  simp only [overwrite, length_append, length_take, length_drop]
  omega

lemma getElem?_overwrite {i : ℕ} (h : i + data.length ≤ dst.length) (j : ℕ) :
    (overwrite dst i data)[j]? =
      if i ≤ j ∧ j < i + data.length then data[j - i]? else dst[j]? := by
  have hlen : (dst.take i).length = i := by
    rw [length_take]
    omega
  rw [overwrite, append_assoc]
  by_cases hj : j < i
  · rw [getElem?_append_left (by omega), getElem?_take_of_lt hj, if_neg (by omega)]
  · rw [getElem?_append_right (by omega), hlen]
    by_cases hj' : j < i + data.length
    · rw [getElem?_append_left (by omega), if_pos (by omega)]
    · rw [getElem?_append_right (by omega), getElem?_drop, if_neg (by omega)]
      congr 1
      omega

lemma overwrite_append (h : data.length + more.length ≤ dst.length) :
    overwrite (overwrite dst 0 data) data.length more = overwrite dst 0 (data ++ more) := by
  have hfirst : (overwrite dst 0 data).length = dst.length := length_overwrite (by omega)
  apply ext_getElem?
  intro j
  rw [getElem?_overwrite (by omega), getElem?_overwrite (by omega),
    getElem?_overwrite (by rw [length_append]; omega), length_append]
  by_cases hj : j < data.length
  · rw [if_neg (by omega), if_pos (by omega), if_pos (by omega), Nat.sub_zero,
      getElem?_append_left hj]
  · by_cases hj' : j < data.length + more.length
    · rw [if_pos (by omega), if_pos (by omega), Nat.sub_zero, getElem?_append_right (by omega)]
    · rw [if_neg (by omega), if_neg (by omega), if_neg (by omega)]

lemma add_mod_size (hstart : start < n) (hk : k < n) :
    (start + k) % n = if start + k < n then start + k else start + k - n := by
  split
  · exact mod_eq_of_lt ‹_›
  · rw [mod_eq_sub_mod (by omega)]
    exact mod_eq_of_lt (by omega)

/-- The ring after `data` has been put at `start`, up to the end and then from the
beginning. -/
def wrapWrite (ring : List α) (start : ℕ) (data : List α) : List α :=
  overwrite (overwrite ring start (data.take (ring.length - start))) 0
    (data.drop (ring.length - start))

lemma length_wrapWrite (hstart : start < ring.length) (hdata : data.length ≤ ring.length) :
    (wrapWrite ring start data).length = ring.length := by
  have hfirst : (overwrite ring start (data.take (ring.length - start))).length = ring.length :=
    length_overwrite (by rw [length_take]; omega)
  rw [wrapWrite, length_overwrite, hfirst]
  rw [length_drop]
  omega

lemma getElem?_wrapWrite (hstart : start < ring.length) (hdata : data.length ≤ ring.length)
    (hk : k < ring.length) :
    (wrapWrite ring start data)[(start + k) % ring.length]? =
      if k < data.length then data[k]? else ring[(start + k) % ring.length]? := by
  have hlen1 : (data.take (ring.length - start)).length = min (ring.length - start) data.length :=
    length_take
  have hlen2 : (data.drop (ring.length - start)).length = data.length - (ring.length - start) :=
    length_drop
  have hfirst : (overwrite ring start (data.take (ring.length - start))).length = ring.length :=
    length_overwrite (by omega)
  rw [wrapWrite, getElem?_overwrite (by omega), getElem?_overwrite (by omega),
    add_mod_size hstart hk]
  by_cases hk' : start + k < ring.length
  · rw [if_pos hk', if_neg (by omega)]
    by_cases hin : k < data.length
    · rw [if_pos (by omega), if_pos hin, getElem?_take_of_lt (by omega)]
      congr 1
      omega
    · rw [if_neg (by omega), if_neg hin]
  · rw [if_neg hk']
    by_cases hin : k < data.length
    · rw [if_pos (by omega), if_pos hin, getElem?_drop]
      congr 1
      omega
    · rw [if_neg (by omega), if_neg (by omega), if_neg hin]

/-- The cells of `q` are in the ring from `start` on. -/
structure Holds (ring : List α) (start : ℕ) (q : List α) : Prop where
  fits : q.length ≤ ring.length
  cell : ∀ k < q.length, ring[(start + k) % ring.length]? = q[k]?

lemma holds_nil (ring : List α) (start : ℕ) : Holds ring start [] where
  fits := zero_le _
  cell := by simp

section
variable (h : Holds ring start q)
include h

lemma Holds.congr {start' : ℕ} (hstart : start % ring.length = start' % ring.length)
    : Holds ring start' q where
  fits := h.fits
  cell k hk := by
    rw [← h.cell k hk, add_mod start', ← hstart, ← add_mod]

lemma Holds.wrapWrite (hdata : q.length + data.length ≤ ring.length) (hring : ring ≠ []) :
    Holds (wrapWrite ring ((start + q.length) % ring.length) data) start (q ++ data) := by
  have hpos : 0 < ring.length := length_pos_of_ne_nil hring
  have hat : (start + q.length) % ring.length < ring.length := mod_lt _ hpos
  have hlen := length_wrapWrite hat (show data.length ≤ ring.length by omega)
  refine ⟨by rw [hlen, length_append]; exact hdata, fun k hk => ?_⟩
  rw [length_append] at hk
  rw [hlen]
  by_cases hkq : k < q.length
  · have hcell : (start + k) % ring.length = ((start + q.length) % ring.length +
        (ring.length - q.length + k)) % ring.length := by
      rw [mod_add_mod, show start + q.length + (ring.length - q.length + k) =
        start + k + ring.length by omega, add_mod_right]
    rw [hcell, getElem?_wrapWrite hat (by omega) (by omega), if_neg (by omega), ← hcell,
      h.cell k hkq, getElem?_append_left hkq]
  · have hcell : (start + k) % ring.length =
        ((start + q.length) % ring.length + (k - q.length)) % ring.length := by
      rw [mod_add_mod]
      congr 1
      omega
    rw [hcell, getElem?_wrapWrite hat (by omega) (by omega), if_pos (by omega),
      getElem?_append_right (by omega)]

lemma Holds.drop (hn : n ≤ q.length) : Holds ring (start + n) (q.drop n) := by
  refine ⟨by rw [length_drop]; have := h.fits; omega, fun k hk => ?_⟩
  rw [length_drop] at hk
  rw [getElem?_drop, ← h.cell (n + k) (by omega), Nat.add_assoc]

/-- The first cells of a queue, read up to the end of the ring and then from its beginning. -/
lemma Holds.take (hstart : start < ring.length) (hn : n ≤ q.length) :
    (ring.drop start).take (min n (ring.length - start)) ++
      ring.take (n - min n (ring.length - start)) = q.take n := by
  have hfits := h.fits
  apply ext_getElem?
  intro k
  have hlen : ((ring.drop start).take (min n (ring.length - start))).length =
      min n (ring.length - start) := by
    rw [length_take, length_drop]
    omega
  by_cases hk : k < n
  · rw [getElem?_take_of_lt hk, ← h.cell k (by omega), add_mod_size hstart (by omega)]
    by_cases hk' : start + k < ring.length
    · rw [if_pos hk', getElem?_append_left (by omega), getElem?_take_of_lt (by omega),
        getElem?_drop]
    · rw [if_neg hk', getElem?_append_right (by omega), getElem?_take_of_lt (by omega)]
      congr 1
      omega
  · have hleft : ((ring.drop start).take (min n (ring.length - start)) ++
        ring.take (n - min n (ring.length - start))).length ≤ k := by
      rw [length_append, hlen, length_take]
      omega
    have hright : (q.take n).length ≤ k := by
      rw [length_take]
      omega
    rw [getElem?_eq_none hleft, getElem?_eq_none hright]

end

end BooxKernel.Rings
