import Mathlib.Algebra.Group.Nat.Defs
import Mathlib.Data.List.Basic

/-!
# Strings in fixed buffers

A buffer is a list of a fixed length, and a string in it ends at the first `nul`. A copy that does
not fit, and a string that has no end, is `none`.
-/
namespace CBuffers

variable {α : Type*} {nul : α} {buf s t : List α} {n k : ℕ}

/-- The string at the start of a buffer. -/
def contents [DecidableEq α] (nul : α) (buf : List α) : Option (List α) :=
  if nul ∈ buf then some (buf.takeWhile fun c => c ≠ nul) else none

/-- `strcpy`. -/
def strcpy (nul : α) (dest src : List α) : Option (List α) :=
  if src.length < dest.length then some (src ++ nul :: dest.drop (src.length + 1)) else none

/-- `strncpy`: no terminator of its own when `src` has `n` characters or more. -/
def strncpy (nul : α) (dest src : List α) (n : ℕ) : Option (List α) :=
  if n ≤ dest.length then
    some (src.take n ++ List.replicate (n - src.length) nul ++ dest.drop n)
  else none

/-- `buf[strlen(buf)] = '\0'`. -/
def terminate [DecidableEq α] (nul : α) (buf : List α) : Option (List α) :=
  (contents nul buf).map fun s => buf.set s.length nul

/-- `a - b` on `size_t`, 32 bits wide. -/
def sizeSub (a b : ℕ) : ℕ := (a + (2 ^ 32 - b % 2 ^ 32)) % 2 ^ 32

theorem sizeSub_eq {a b : ℕ} (h : b ≤ a) (ha : a < 2 ^ 32) : sizeSub a b = a - b := by
  unfold sizeSub
  omega

/-- The buffer holds the string. -/
structure Holds (nul : α) (buf s : List α) : Prop where
  notMem : nul ∉ s
  prefix_buf : s ++ [nul] <+: buf

namespace Holds

theorem length_lt (h : Holds nul buf s) : s.length < buf.length := by
  have hlen := h.prefix_buf.length_le
  rw [List.length_append, List.length_singleton] at hlen
  exact hlen

theorem contents_eq [DecidableEq α] (h : Holds nul buf s) : contents nul buf = some s := by
  obtain ⟨rest, rfl⟩ := h.prefix_buf
  have hs : ∀ c ∈ s, decide (c ≠ nul) = true := by
    intro c hc
    rw [decide_eq_true_eq]
    rintro rfl
    exact h.notMem hc
  rw [contents, if_pos (by simp), List.append_assoc, List.takeWhile_append_of_pos hs]
  simp

/-- The terminator is already there. -/
theorem terminate_eq [DecidableEq α] (h : Holds nul buf s) : terminate nul buf = some buf := by
  rw [terminate, h.contents_eq]
  obtain ⟨rest, rfl⟩ := h.prefix_buf
  simp

/-- A copy of the string over itself. -/
theorem strncpy_self (h : Holds nul buf s) : strncpy nul buf s s.length = some buf := by
  rw [strncpy, if_pos (Nat.le_of_lt h.length_lt)]
  obtain ⟨rest, rfl⟩ := h.prefix_buf
  simp

end Holds

theorem strcpy_holds {dest : List α} (hs : nul ∉ s) (hlt : s.length < dest.length) :
    ∃ buf, strcpy nul dest s = some buf ∧ buf.length = dest.length ∧ Holds nul buf s := by
  refine ⟨s ++ nul :: dest.drop (s.length + 1), ?_, ?_, hs, ?_⟩
  · rw [strcpy, if_pos hlt]
  · rw [List.length_append, List.length_cons, List.length_drop]
    omega
  · exact ⟨dest.drop (s.length + 1), by simp⟩

/-! ## A buffer that is blank after the string -/

/-- The string, and `nul` up to the end of the buffer. -/
def filled (nul : α) (n : ℕ) (s : List α) : List α := s ++ List.replicate (n - s.length) nul

theorem filled_nil : filled nul n [] = List.replicate n nul := by simp [filled]

theorem length_filled (h : s.length ≤ n) : (filled nul n s).length = n := by
  rw [filled, List.length_append, List.length_replicate]
  omega

theorem holds_filled (hs : nul ∉ s) (hlt : s.length < n) : Holds nul (filled nul n s) s := by
  refine ⟨hs, List.replicate (n - s.length - 1) nul, ?_⟩
  have hn : n - s.length = n - s.length - 1 + 1 := by omega
  rw [filled, hn, List.replicate_succ, List.append_assoc]
  rfl

theorem drop_filled (h : k ≤ n) : (filled nul n s).drop k = filled nul (n - k) (s.drop k) := by
  rw [filled, filled, List.drop_append, List.drop_replicate, List.length_drop]
  congr 2
  omega

/-- Characters copied without their terminator leave the rest of a longer string. -/
theorem strncpy_filled (hs : s.length ≤ n) (ht : t.length ≤ n) :
    strncpy nul (filled nul n s) t t.length = some (filled nul n (t ++ s.drop t.length)) := by
  rw [strncpy, if_pos (by rwa [length_filled hs]), drop_filled ht, List.take_length, Nat.sub_self,
    List.replicate_zero, List.append_nil]
  congr 1
  rw [filled, filled, List.append_assoc, List.length_append]
  congr 3
  omega

theorem strncpy_blank (hk : k ≤ s.length) (hn : k ≤ n) :
    strncpy nul (filled nul n []) s k = some (filled nul n (s.take k)) := by
  have ht : (s.take k).length = k := List.length_take_of_le hk
  rw [strncpy, if_pos (by rwa [length_filled (Nat.zero_le n)]), drop_filled hn,
    Nat.sub_eq_zero_of_le hk, List.replicate_zero, List.append_nil, List.drop_nil, filled, filled,
    List.nil_append, List.length_nil, Nat.sub_zero, ht]

/-! ## Strings one after another -/

/-- The first `n` strings of a buffer. -/
def strings [DecidableEq α] (nul : α) : ℕ → List α → Option (List (List α))
  | 0, _ => some []
  | n + 1, buf =>
      (contents nul buf).bind fun s => (strings nul n (buf.drop (s.length + 1))).map (s :: ·)

theorem strings_append [DecidableEq α] (hs : nul ∉ s) (n : ℕ) (rest : List α) :
    strings nul (n + 1) (s ++ nul :: rest) = (strings nul n rest).map (s :: ·) := by
  have hholds : Holds nul (s ++ nul :: rest) s := ⟨hs, rest, by simp⟩
  have hdrop : (s ++ nul :: rest).drop (s.length + 1) = rest := by
    rw [← List.drop_drop, List.drop_left, List.drop_one, List.tail_cons]
  rw [strings, hholds.contents_eq, Option.bind_some, hdrop]

end CBuffers
