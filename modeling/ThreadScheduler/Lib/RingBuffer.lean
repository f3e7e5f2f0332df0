import Mathlib.Data.Nat.ModEq
import Mathlib.Logic.Function.Basic

/-!
# A queue in a circular array

Two cursors go round an array of `n` slots. As long as no more than `n` elements are in the queue,
a put appends and a get takes the first element, whatever the slots hold that are not in use.
-/
namespace RingBuffer

/-- The slots, and the cursors of the next get and the next put. -/
structure Circular (α : Type*) where
  slot : ℕ → α
  head : ℕ
  tail : ℕ

variable {α : Type*} {n : ℕ} {r : Circular α} {l : List α} {x : α}

namespace Circular

def put (n : ℕ) (r : Circular α) (x : α) : Circular α :=
  { r with slot := Function.update r.slot r.tail x, tail := (r.tail + 1) % n }

def get (n : ℕ) (r : Circular α) : α × Circular α :=
  (r.slot r.head, { r with head := (r.head + 1) % n })

/-- The slots from `head` on hold the list. -/
structure Holds (n : ℕ) (r : Circular α) (l : List α) : Prop where
  head_lt : r.head < n
  tail_eq : r.tail = (r.head + l.length) % n
  length_le : l.length ≤ n
  slot_eq : ∀ i (hi : i < l.length), r.slot ((r.head + i) % n) = l[i]

/-- Less than a turn apart, the slots are distinct. -/
theorem mod_injective {a i j : ℕ} (hi : i < n) (hj : j < n) (h : (a + i) % n = (a + j) % n) :
    i = j :=
  (Nat.ModEq.add_left_cancel' a h).eq_of_lt_of_lt hi hj

namespace Holds

theorem nil {slot : ℕ → α} (hn : 0 < n) : Holds n ⟨slot, 0, 0⟩ [] :=
  ⟨hn, (Nat.zero_mod n).symm, Nat.zero_le n, fun _ hi => absurd hi (Nat.not_lt_zero _)⟩

/-- A queue that is not full leaves the slot of the next put free. -/
theorem tail_ne (h : Holds n r l) (hlt : l.length < n) {i : ℕ} (hi : i < l.length) :
    (r.head + i) % n ≠ r.tail := by
  intro he
  rw [h.tail_eq] at he
  exact Nat.ne_of_lt hi (mod_injective (hi.trans hlt) hlt he)

theorem put (h : Holds n r l) (hlt : l.length < n) (x : α) : Holds n (r.put n x) (l ++ [x]) := by
  refine ⟨h.head_lt, ?_, ?_, fun i hi => ?_⟩
  · show (r.tail + 1) % n = (r.head + (l ++ [x]).length) % n
    rw [h.tail_eq, List.length_append, List.length_singleton, ← Nat.add_assoc, Nat.mod_add_mod]
  · rw [List.length_append, List.length_singleton]
    exact hlt
  · show Function.update r.slot r.tail x ((r.head + i) % n) = (l ++ [x])[i]
    rw [List.length_append, List.length_singleton] at hi
    by_cases hl : i < l.length
    · rw [Function.update_of_ne (h.tail_ne hlt hl), h.slot_eq i hl, List.getElem_append_left hl]
    · obtain rfl : i = l.length := by omega
      rw [← h.tail_eq, Function.update_self]
      simp

theorem get (h : Holds n r (x :: l)) : (r.get n).1 = x ∧ Holds n (r.get n).2 l := by
  have hn : 0 < n := Nat.zero_lt_of_lt h.head_lt
  have hmod : ∀ i, ((r.head + 1) % n + i) % n = (r.head + (i + 1)) % n := by
    intro i
    rw [Nat.mod_add_mod, Nat.add_assoc, Nat.add_comm 1 i]
  refine ⟨?_, Nat.mod_lt _ hn, ?_, Nat.le_of_succ_le h.length_le, fun i hi => ?_⟩
  · have h₀ := h.slot_eq 0 (Nat.succ_pos _)
    rwa [Nat.add_zero, Nat.mod_eq_of_lt h.head_lt] at h₀
  · exact h.tail_eq.trans (hmod l.length).symm
  · exact (congrArg r.slot (hmod i)).trans (h.slot_eq (i + 1) (Nat.succ_lt_succ hi))

end Holds

end Circular

end RingBuffer
