import Mathlib.Data.Finset.Card
import Mathlib.Algebra.Ring.Int.Defs

/-!
# Counters of labels

The elements of a finite set carry labels, and each label has a counter. The counters cover the
labels when none is below the number of elements with its label: then a counter at one says that
an element is alone.
-/
namespace Labelling

variable {α β : Type*} [DecidableEq β]

/-- The elements with a label. -/
def fibre (L : Finset α) (s : α → β) (b : β) : Finset α := L.filter fun p => s p = b

/-- No counter is below the number of elements with its label. -/
def Covers (r : β → ℤ) (L : Finset α) (s : α → β) : Prop := ∀ b, ((fibre L s b).card : ℤ) ≤ r b

variable {r r' : β → ℤ} {L L' : Finset α} {s s' : α → β}

theorem mem_fibre {b : β} {p : α} : p ∈ fibre L s b ↔ p ∈ L ∧ s p = b := Finset.mem_filter

theorem fibre_congr (h : ∀ p ∈ L, s' p = s p) (b : β) : fibre L s' b = fibre L s b :=
  Finset.filter_congr fun p hp => by rw [h p hp]

theorem fibre_subset (h : L' ⊆ L) (b : β) : fibre L' s b ⊆ fibre L s b :=
  Finset.filter_subset_filter _ h

theorem fibre_insert [DecidableEq α] (p : α) (b : β) :
    fibre (insert p L) s b = if s p = b then insert p (fibre L s b) else fibre L s b :=
  Finset.filter_insert _ p L

theorem fibre_erase [DecidableEq α] (p : α) (b : β) :
    fibre (L.erase p) s b = (fibre L s b).erase p :=
  Finset.filter_erase _ p L

namespace Covers

theorem nonneg (h : Covers r L s) (b : β) : 0 ≤ r b := le_trans (Int.natCast_nonneg _) (h b)

theorem pos (h : Covers r L s) {p : α} (hp : p ∈ L) : 1 ≤ r (s p) := by
  refine le_trans ?_ (h (s p))
  exact_mod_cast Finset.card_pos.mpr ⟨p, mem_fibre.mpr ⟨hp, rfl⟩⟩

theorem congr (h : Covers r L s) (hs : ∀ p ∈ L, s' p = s p) : Covers r L s' := fun b => by
  rw [fibre_congr hs]
  exact h b

theorem mono (h : Covers r L s) (hsub : L' ⊆ L) : Covers r L' s := fun b =>
  le_trans (by exact_mod_cast Finset.card_le_card (fibre_subset hsub b)) (h b)

variable [DecidableEq α]

/-- A new element raises the counter of its label. -/
theorem insert (h : Covers r L s) {p : α} (hs : ∀ p' ∈ L, s' p' = s p')
    (hr : ∀ b, r b + (if b = s' p then 1 else 0) ≤ r' b) : Covers r' (insert p L) s' := by
  intro b
  have hb := hr b
  rw [fibre_insert, fibre_congr hs]
  split
  · rename_i hpb
    rw [if_pos hpb.symm] at hb
    have hcard := Finset.card_insert_le p (fibre L s b)
    have := h b
    omega
  · rename_i hpb
    rw [if_neg fun he => hpb he.symm] at hb
    have := h b
    omega

/-- An element that leaves lowers the counter of its label. -/
theorem erase (h : Covers r L s) {p : α} (hp : p ∈ L)
    (hr : ∀ b, r b - (if b = s p then 1 else 0) ≤ r' b) : Covers r' (L.erase p) s := by
  intro b
  have hb := hr b
  have := h b
  rw [fibre_erase]
  by_cases hpb : b = s p
  · rw [if_pos hpb] at hb
    have hmem : p ∈ fibre L s b := mem_fibre.mpr ⟨hp, hpb.symm⟩
    have hpos := Finset.card_pos.mpr ⟨p, hmem⟩
    rw [Finset.card_erase_of_mem hmem]
    omega
  · rw [if_neg hpb] at hb
    rw [Finset.erase_eq_of_notMem fun hm => hpb (mem_fibre.mp hm).2.symm]
    omega

/-- An element that gets another label. -/
theorem relabel (h : Covers r L s) {p : α} (hp : p ∈ L) (hs : ∀ p', p' ≠ p → s' p' = s p')
    (hr : ∀ b, r b - (if b = s p then 1 else 0) + (if b = s' p then 1 else 0) ≤ r' b) :
    Covers r' L s' := by
  have herase := h.erase hp fun b => le_refl _
  have hins := herase.insert (fun p' hp' => hs p' (Finset.ne_of_mem_erase hp')) hr
  rwa [Finset.insert_erase hp] at hins

end Covers

end Labelling
