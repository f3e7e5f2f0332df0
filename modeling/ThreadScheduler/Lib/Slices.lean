import Mathlib.Data.List.Basic
import Mathlib.Tactic.Common

/-!
# Slices of a list

A slice is read from a place on, and written over by a patch. What a patch does not reach is read
as before.
-/
namespace Slices

variable {α : Type*} {xs ys : List α} {i j n : ℕ}

/-- The `n` elements from place `i` on. -/
def slice (xs : List α) (i n : ℕ) : List α := (xs.drop i).take n

/-- The list with `ys` written over what stands from place `i` on. -/
def patch (xs : List α) (i : ℕ) (ys : List α) : List α :=
  xs.take i ++ (ys ++ xs.drop (i + ys.length))

@[simp] theorem length_slice (xs : List α) (i n : ℕ) :
    (slice xs i n).length = min n (xs.length - i) := by
  simp [slice]

theorem length_patch (h : i + ys.length ≤ xs.length) : (patch xs i ys).length = xs.length := by
  simp only [patch, List.length_append, List.length_take, List.length_drop]
  omega

theorem slice_patch_self (h : i ≤ xs.length) : slice (patch xs i ys) i ys.length = ys := by
  have hi : (xs.take i).length = i := List.length_take_of_le h
  rw [slice, patch, List.drop_append_of_le_length (by omega), List.drop_of_length_le (by omega),
    List.nil_append, List.take_left]

theorem slice_patch_of_le (hi : i ≤ xs.length) (h : j + n ≤ i) :
    slice (patch xs i ys) j n = slice xs j n := by
  have hlen : (xs.take i).length = i := List.length_take_of_le hi
  rw [slice, patch, List.drop_append_of_le_length (by omega),
    List.take_append_of_le_length (by rw [List.length_drop]; omega), List.drop_take, List.take_take,
    Nat.min_eq_left (by omega), slice]

theorem slice_patch_of_ge (hi : i ≤ xs.length) (h : i + ys.length ≤ j) :
    slice (patch xs i ys) j n = slice xs j n := by
  have hlen : (xs.take i ++ ys).length = i + ys.length := by
    rw [List.length_append, List.length_take_of_le hi]
  rw [slice, patch, ← List.append_assoc, List.drop_append, hlen,
    List.drop_of_length_le (by omega), List.nil_append, List.drop_drop, slice]
  congr 2
  omega

/-- A patch over the start of a list. -/
theorem patch_zero (xs ys : List α) : patch xs 0 ys = ys ++ xs.drop ys.length := by
  simp [patch]

end Slices
