import Mathlib.Data.Finset.Card
import Mathlib.Algebra.Ring.Int.Defs

/-!
# Counters of a family of processes

Every process is at a place. A counter that is changed whenever a process crosses the border of a
set of places, given by its test `p`, counts the processes in the set.
-/
namespace Counting

variable {ι π : Type*} {n : ℤ} {place : ι → π} {p : π → Bool}

/-- `n` is the number of the processes at the places of `p`. -/
def Counts (n : ℤ) (place : ι → π) (p : π → Bool) : Prop :=
  ∃ F : Finset ι, (∀ i, i ∈ F ↔ p (place i) = true) ∧ n = F.card

theorem counts_zero (h : ∀ i, p (place i) = false) : Counts 0 place p :=
  ⟨∅, fun i => by simp [h i], by simp⟩

theorem Counts.pos_iff (h : Counts n place p) : 0 < n ↔ ∃ i, p (place i) = true := by
  obtain ⟨F, hF, rfl⟩ := h
  rw [Int.natCast_pos, Finset.card_pos]
  exact exists_congr hF

theorem Counts.nonneg (h : Counts n place p) : 0 ≤ n := by
  obtain ⟨F, -, rfl⟩ := h
  exact Int.natCast_nonneg _

theorem Counts.ne_zero_iff (h : Counts n place p) : n ≠ 0 ↔ ∃ i, p (place i) = true := by
  rw [← h.pos_iff]
  have := h.nonneg
  omega

theorem Counts.eq_zero_iff (h : Counts n place p) : n = 0 ↔ ∀ i, p (place i) = false := by
  rw [← not_iff_not, ← ne_eq, h.ne_zero_iff]
  simp

/-- A set of places with room for one. -/
theorem Counts.le_one (h : Counts n place p)
    (hone : ∀ i j, p (place i) = true → p (place j) = true → i = j) : n ≤ 1 := by
  obtain ⟨F, hF, rfl⟩ := h
  have : F.card ≤ 1 :=
    Finset.card_le_one.mpr fun i hi j hj => hone i j ((hF i).mp hi) ((hF j).mp hj)
  exact_mod_cast this

/-- A process moves to the place `q`. -/
theorem Counts.update [DecidableEq ι] (h : Counts n place p) (i : ι) (q : π) {n' : ℤ}
    (hn : n' + (p (place i)).toInt = n + (p q).toInt) :
    Counts n' (Function.update place i q) p := by
  obtain ⟨F, hF, rfl⟩ := h
  have hmem : i ∈ F ↔ p (place i) = true := hF i
  have hother : ∀ j, j ≠ i → (j ∈ F ↔ p (Function.update place i q j) = true) := by
    intro j hj
    rw [Function.update_of_ne hj]
    exact hF j
  by_cases hq : p q = true
  · refine ⟨insert i F, fun j => ?_, ?_⟩
    · by_cases hj : j = i
      · subst hj
        simp [hq]
      · rw [Finset.mem_insert, or_iff_right hj]
        exact hother j hj
    · by_cases hi : i ∈ F
      · rw [Finset.insert_eq_of_mem hi]
        rw [hmem.mp hi, hq] at hn
        omega
      · rw [Finset.card_insert_of_notMem hi]
        rw [Bool.eq_false_iff.mpr (mt hmem.mpr hi), hq] at hn
        simpa using hn
  · have hq : p q = false := Bool.eq_false_iff.mpr hq
    refine ⟨F.erase i, fun j => ?_, ?_⟩
    · by_cases hj : j = i
      · subst hj
        simp [hq]
      · rw [Finset.mem_erase, and_iff_right hj]
        exact hother j hj
    · by_cases hi : i ∈ F
      · have hcard := Finset.card_erase_add_one hi
        rw [hmem.mp hi, hq] at hn
        simp only [Bool.toInt_true, Bool.toInt_false] at hn
        omega
      · rw [Finset.erase_eq_of_notMem hi]
        rw [Bool.eq_false_iff.mpr (mt hmem.mpr hi), hq] at hn
        omega

end Counting
