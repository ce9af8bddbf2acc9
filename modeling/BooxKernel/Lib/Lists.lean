import Mathlib.Data.List.Induction

/-!
# Lists ordered by a relation, lists in blocks, and lists of writes

Facts about `List.Pairwise` and contiguous parts of a list that the models of
sorted kernel lists share, and about changing one entry of a list made of blocks.

A log of writes is applied to a memory from the front to the back. Each cell holds the last
value that the log has for it.
-/
namespace BooxKernel.Lists
open List

variable {α : Type*} {l m r : List α}

lemma pairwise_mem_cases {R : α → α → Prop} (h : l.Pairwise R) {a b : α} (ha : a ∈ l) (hb : b ∈ l)
    : a = b ∨ R a b ∨ R b a := by
  induction l with
  | nil => simp at ha
  | cons x l ih =>
    obtain ⟨hx, hl⟩ := pairwise_cons.1 h
    rcases mem_cons.1 ha with rfl | ha' <;> rcases mem_cons.1 hb with rfl | hb'
    · exact .inl rfl
    · exact .inr (.inl (hx b hb'))
    · exact .inr (.inr (hx a ha'))
    · exact ih hl ha' hb'

lemma mem_append_middle {x : α} : x ∈ l ++ m ++ r ↔ x ∈ m ∨ x ∈ l ++ r := by
  simp only [mem_append]
  rw [or_comm (a := x ∈ l), or_assoc]

variable {β : Type*}

lemma modify_append_left {n : ℕ} (hn : n < l.length) (r : List α) (f : α → α) :
    (l ++ r).modify n f = l.modify n f ++ r := by
  induction l generalizing n with
  | nil => simp at hn
  | cons x l ih =>
    cases n with
    | zero => simp
    | succ n => simpa using ih (by simpa using hn)

lemma modify_append_right (l r : List α) (n : ℕ) (f : α → α) :
    (l ++ r).modify (l.length + n) f = l ++ r.modify n f := by
  induction l with
  | nil => simp
  | cons x l ih =>
    rw [length_cons, Nat.add_right_comm, cons_append, modify_succ_cons, ih, cons_append]

lemma flatMap_modify {g : α → List β} {f : α → α} {h : β → β} {c n : ℕ}
    (hlen : ∀ x, (g x).length = c) (hn : n < c) (hg : ∀ x, g (f x) = (g x).modify n h)
    (l : List α) (j : ℕ) : (l.modify j f).flatMap g = (l.flatMap g).modify (c * j + n) h := by
  induction l generalizing j with
  | nil => simp
  | cons x l ih =>
    cases j with
    | zero => simp [hg, modify_append_left (hlen x ▸ hn)]
    | succ j =>
      have hj : c * (j + 1) + n = (g x).length + (c * j + n) := by
        rw [hlen, Nat.mul_succ, Nat.add_comm (c * j) c, Nat.add_assoc]
      simp [hj, modify_append_right, ih]

end BooxKernel.Lists

namespace BooxKernel.Writes
open Function

variable {α β : Type*} [DecidableEq α] {m : α → β} {ws vs : List (α × β)}

/-- The memory after the writes `ws`. -/
def writes (m : α → β) (ws : List (α × β)) : α → β :=
  ws.foldl (fun m w => update m w.1 w.2) m

@[simp] lemma writes_nil : writes m [] = m := rfl

lemma writes_append : writes m (ws ++ vs) = writes (writes m ws) vs := List.foldl_append

lemma writes_concat (a : α) (b : β) : writes m (ws ++ [(a, b)]) = update (writes m ws) a b :=
  writes_append

lemma writes_apply (a : α) :
    writes m ws a = ((ws.filter fun w => w.1 = a).getLast?.map Prod.snd).getD (m a) := by
  induction ws using List.reverseRecOn with
  | nil => rfl
  | append_singleton ws w ih =>
    obtain ⟨a', b⟩ := w
    rw [writes_concat]
    by_cases ha : a' = a
    · subst ha
      simp
    · simp [ha, update_of_ne (Ne.symm ha), ih]

end BooxKernel.Writes
