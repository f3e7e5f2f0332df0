import Mathlib.Data.List.Basic
import Mathlib.Data.List.Induction
import Mathlib.Data.Set.Basic
import Mathlib.Order.Nat

/-!
# Placing labels

Slots carry labels, and a pass over the slots moves the labels to the places from `a` on, in the
order in which it meets them. A label that nothing uses is met only where it stands at or behind
the next place. The invariant of the pass relates the labels to those at its start.
-/
namespace Placement

variable {α : Type*} (a : ℕ) (used : ℕ → Prop) [DecidablePred used]

/-- The labels placed after one more slot, with label `b`. -/
def place (l : List ℕ) (b : ℕ) : List ℕ :=
  if b ∈ l ∨ ¬ used b ∧ b < a + l.length then l else l ++ [b]

/-- The labels placed by slots with the labels `bs`, in the order of their places. -/
def placed (bs : List ℕ) : List ℕ := bs.foldl (place a used) []

variable {a : ℕ} {used : ℕ → Prop} [DecidablePred used]

theorem placed_snoc (bs : List ℕ) (b : ℕ) :
    placed a used (bs ++ [b]) = place a used (placed a used bs) b := by
  simp only [placed, List.foldl_append, List.foldl_cons, List.foldl_nil]

theorem placed_snoc_old {bs : List ℕ} {b : ℕ}
    (h : b ∈ placed a used bs ∨ ¬ used b ∧ b < a + (placed a used bs).length) :
    placed a used (bs ++ [b]) = placed a used bs := by
  rw [placed_snoc, place, if_pos h]

theorem placed_snoc_new {bs : List ℕ} {b : ℕ}
    (h : ¬ (b ∈ placed a used bs ∨ ¬ used b ∧ b < a + (placed a used bs).length)) :
    placed a used (bs ++ [b]) = placed a used bs ++ [b] := by
  rw [placed_snoc, place, if_neg h]

/-- A label that is used is placed when the pass first meets it. -/
theorem mem_placed {bs : List ℕ} {b : ℕ} (hb : b ∈ bs) (hu : used b) : b ∈ placed a used bs := by
  induction bs using List.reverseRecOn with
  | nil => simp at hb
  | append_singleton bs c ih =>
      rw [placed_snoc, place]
      rcases List.mem_append.mp hb with hb | hb
      · split
        · exact ih hb
        · exact List.mem_append_left _ (ih hb)
      · obtain rfl := List.mem_singleton.mp hb
        split
        · rename_i hor
          exact hor.resolve_right fun hno => hno.1 hu
        · simp

theorem used_or_le_of_mem_placed {bs : List ℕ} {b : ℕ} (hb : b ∈ placed a used bs) :
    used b ∨ a ≤ b := by
  induction bs using List.reverseRecOn with
  | nil => simp [placed] at hb
  | append_singleton bs c ih =>
      rw [placed_snoc, place] at hb
      split at hb
      · exact ih hb
      · rename_i hno
        rcases List.mem_append.mp hb with hb | hb
        · exact ih hb
        · obtain rfl := List.mem_singleton.mp hb
          by_contra hor
          rw [not_or, Nat.not_le] at hor
          exact hno (.inr ⟨hor.1, Nat.lt_add_right _ hor.2⟩)

/-- Where every label but zero is used, the labels are placed in the order in which they first
appear. -/
theorem placed_eq_eraseDups {bs : List ℕ} (ha : 0 < a) (hz : ¬ used 0)
    (h : ∀ b ∈ bs, b ≠ 0 → used b) : placed a used bs = (bs.filter (· ≠ 0)).eraseDups := by
  induction bs using List.reverseRecOn with
  | nil => rfl
  | append_singleton bs c ih =>
      have ih := ih fun b hb => h b (List.mem_append_left _ hb)
      rw [placed_snoc, place, ih, List.filter_append, List.eraseDups_append]
      by_cases hc : c = 0
      · subst hc
        rw [if_pos (.inr ⟨hz, by omega⟩)]
        simp
      · have hu := h c (by simp) hc
        simp only [List.mem_eraseDups, hu, not_true, false_and, or_false]
        generalize bs.filter (· ≠ 0) = l
        by_cases hm : c ∈ l
        · rw [if_pos hm]
          simp [hc, hm, List.removeAll]
        · rw [if_neg hm]
          simp [hc, hm, List.removeAll, List.eraseDups_cons]

/-! ## The pass -/

variable (a used) in
/-- The labels `s` of the slots of `P` after the slots `ps`, with `pos` the next place, from the
labels `s₀`. -/
structure Pass (P : Set α) (s₀ s : α → ℕ) (ps : List α) (pos : ℕ) : Prop where
  pos_eq : pos = a + (placed a used (ps.map s₀)).length
  full : ∀ c, a ≤ c → c < pos → ∃ p ∈ P, s p = c
  seen : ∀ p ∈ P, s₀ p ∈ placed a used (ps.map s₀) →
    s p = a + (placed a used (ps.map s₀)).idxOf (s₀ p)
  unseen : ∀ p ∈ P, used (s₀ p) → s₀ p ∉ placed a used (ps.map s₀) →
    pos ≤ s p ∧ (s p = s₀ p ∨ s₀ p < pos)
  free : ∀ p ∈ P, ¬ used (s₀ p) → s₀ p ∉ placed a used (ps.map s₀) → s p = s₀ p
  pattern : ∀ p ∈ P, ∀ p' ∈ P, pos ≤ s p → (s p = s p' ↔ s₀ p = s₀ p')

/-- Label `b` moves to `dest`, and what stands there to `k`, which is `dest` itself when nothing
uses it, or a label behind it that no slot carries. -/
structure Move (used : ℕ → Prop) (P : Set α) (s₀ s s' : α → ℕ) (b dest k : ℕ) : Prop where
  slot : ∀ p ∈ P, s' p = if s p = b then dest else if s p = dest then k else s p
  temp : k = dest ∨ dest < k ∧ ∀ p ∈ P, s p ≠ k
  dest : ∀ p ∈ P, s p = dest → (used (s₀ p) ↔ k ≠ dest)

namespace Pass

variable {P : Set α} {s₀ s s' : α → ℕ} {ps : List α} {pos : ℕ}

theorem refl (hrange : ∀ p ∈ P, used (s₀ p) → a ≤ s₀ p) : Pass a used P s₀ s₀ [] a where
  pos_eq := rfl
  full c h1 h2 := by omega
  seen p _ hm := by simp [placed] at hm
  unseen p hp hu _ := ⟨hrange p hp hu, .inl rfl⟩
  free _ _ _ _ := rfl
  pattern _ _ _ _ _ := Iff.rfl

variable (h : Pass a used P s₀ s ps pos)

include h

theorem le_pos : a ≤ pos := by
  rw [h.pos_eq]
  omega

/-- A label that has its place is before the next one. -/
theorem lt_of_mem {p : α} (hp : p ∈ P) (hm : s₀ p ∈ placed a used (ps.map s₀)) : s p < pos := by
  rw [h.seen p hp hm, h.pos_eq]
  exact Nat.add_lt_add_left (List.idxOf_lt_length_of_mem hm) a

/-- The pass goes over a slot when its label is before the next place. -/
theorem lt_iff {p : α} (hp : p ∈ P) : s p < pos ↔ s₀ p ∈ placed a used (ps.map s₀) ∨
    ¬ used (s₀ p) ∧ s₀ p < a + (placed a used (ps.map s₀)).length := by
  by_cases hm : s₀ p ∈ placed a used (ps.map s₀)
  · simp only [h.lt_of_mem hp hm, hm, true_or]
  · by_cases hu : used (s₀ p)
    · have := (h.unseen p hp hu hm).1
      simp only [hm, hu, not_true, false_and, or_false, iff_false]
      omega
    · simp only [h.free p hp hu hm, hm, hu, not_false_eq_true, true_and, false_or, ← h.pos_eq]

/-- Slots whose labels are used carry one label exactly when they did at the start. -/
theorem pattern_used {p p' : α} (hp : p ∈ P) (hp' : p' ∈ P) (hu : used (s₀ p))
    (hu' : used (s₀ p')) : s p = s p' ↔ s₀ p = s₀ p' := by
  by_cases hm : s₀ p ∈ placed a used (ps.map s₀)
  · by_cases hm' : s₀ p' ∈ placed a used (ps.map s₀)
    · rw [h.seen p hp hm, h.seen p' hp' hm', Nat.add_left_cancel_iff, List.idxOf_inj hm]
    · have hlt := h.lt_of_mem hp hm
      have hge := (h.unseen p' hp' hu' hm').1
      exact iff_of_false (by omega) fun he => hm' (he ▸ hm)
  · exact h.pattern p hp p' hp' (h.unseen p hp hu hm).1

/-- A slot before the next place. -/
theorem skip {p : α} (hp : p ∈ P) (hlt : s p < pos) : Pass a used P s₀ s (ps ++ [p]) pos := by
  have ho : placed a used ((ps ++ [p]).map s₀) = placed a used (ps.map s₀) := by
    rw [List.map_append, List.map_singleton, placed_snoc_old ((h.lt_iff hp).mp hlt)]
  refine ⟨?_, h.full, ?_, ?_, ?_, h.pattern⟩
  · rw [ho]
    exact h.pos_eq
  · rw [ho]
    exact h.seen
  · rw [ho]
    exact h.unseen
  · rw [ho]
    exact h.free

/-- The label of a slot at or behind the next place is the next one placed. -/
theorem placed_next {p : α} (hp : p ∈ P) (hge : pos ≤ s p) :
    placed a used ((ps ++ [p]).map s₀) = placed a used (ps.map s₀) ++ [s₀ p] := by
  rw [List.map_append, List.map_singleton,
    placed_snoc_new fun hor => Nat.not_lt.mpr hge ((h.lt_iff hp).mpr hor)]

theorem pos_next {p : α} (hp : p ∈ P) (hge : pos ≤ s p) :
    pos + 1 = a + (placed a used ((ps ++ [p]).map s₀)).length := by
  rw [h.placed_next hp hge, List.length_append, h.pos_eq]
  rfl

/-- The place of the next label placed. -/
theorem idxOf_next {p : α} (hp : p ∈ P) (hge : pos ≤ s p) :
    a + (placed a used (ps.map s₀) ++ [s₀ p]).idxOf (s₀ p) = pos := by
  have hm : s₀ p ∉ placed a used (ps.map s₀) := fun hm => Nat.not_lt.mpr hge (h.lt_of_mem hp hm)
  rw [List.idxOf_append_of_notMem hm, List.idxOf_cons_self, h.pos_eq]
  rfl

/-- A slot whose label is already in place. -/
theorem keep {p : α} (hp : p ∈ P) (hpos : s p = pos) :
    Pass a used P s₀ s (ps ++ [p]) (pos + 1) := by
  have ho := h.placed_next hp hpos.ge
  refine ⟨h.pos_next hp hpos.ge, fun c h1 h2 => ?_, fun p' hp' hm => ?_, fun p' hp' hu hm => ?_,
    fun p' hp' hu hm => ?_, fun p₁ hp₁ p₂ hp₂ hge => h.pattern p₁ hp₁ p₂ hp₂ (by omega)⟩
  · by_cases hc : c = pos
    · exact ⟨p, hp, hpos.trans hc.symm⟩
    · exact h.full c h1 (by omega)
  · rw [ho] at hm ⊢
    by_cases hin : s₀ p' ∈ placed a used (ps.map s₀)
    · rw [List.idxOf_append_of_mem hin, h.seen p' hp' hin]
    · have he : s₀ p' = s₀ p := by simpa [hin] using hm
      rw [he, h.idxOf_next hp hpos.ge, ← hpos]
      exact ((h.pattern p hp p' hp' hpos.ge).mpr he.symm).symm
  · rw [ho, List.mem_append, List.mem_singleton, not_or] at hm
    obtain ⟨hge, hor⟩ := h.unseen p' hp' hu hm.1
    have hne : s p' ≠ pos := fun he =>
      hm.2 ((h.pattern p' hp' p hp hge).mp (he.trans hpos.symm))
    exact ⟨by omega, hor.imp_right (by omega)⟩
  · rw [ho, List.mem_append, not_or] at hm
    exact h.free p' hp' hu hm.1

/-- A label that moves never comes back to where it was at the start. -/
theorem move_back {p p' : α} {k : ℕ} (hgt : pos < s p)
    (hm : Move used P s₀ s s' (s p) pos k) (hp' : p' ∈ P) (hu : used (s₀ p'))
    (hs : s' p' = s₀ p') : s p' = s₀ p' ∧ s p' ≠ s p ∧ s p' ≠ pos := by
  rw [hm.slot p' hp'] at hs
  by_cases hin : s₀ p' ∈ placed a used (ps.map s₀)
  · have := h.lt_of_mem hp' hin
    rw [if_neg (by omega), if_neg (by omega)] at hs
    exact ⟨hs, by omega, by omega⟩
  · obtain ⟨hge, hor⟩ := h.unseen p' hp' hu hin
    split_ifs at hs with h1 h2
    · omega
    · have hk := (hm.dest p' hp' h2).mp hu
      have hlt := (hm.temp.resolve_left hk).1
      omega
    · exact ⟨hs, h1, h2⟩

/-- A slot behind the next place, whose label moves there. -/
theorem move {p : α} {k : ℕ} (hp : p ∈ P) (hgt : pos < s p)
    (hm : Move used P s₀ s s' (s p) pos k) :
    Pass a used P s₀ s' (ps ++ [p]) (pos + 1) := by
  have ho := h.placed_next hp hgt.le
  have hself : s' p = pos := by rw [hm.slot p hp, if_pos rfl]
  -- what was before the next place stays
  have hold : ∀ p' ∈ P, s p' < pos → s' p' = s p' := by
    intro p' hp' hlt
    rw [hm.slot p' hp', if_neg (by omega), if_neg (by omega)]
  refine ⟨h.pos_next hp hgt.le, fun c h1 h2 => ?_, fun p' hp' hin => ?_, fun p' hp' hu hin => ?_,
    fun p' hp' hu hin => ?_, fun p₁ hp₁ p₂ hp₂ hge => ?_⟩
  · by_cases hc : c = pos
    · exact ⟨p, hp, hself.trans hc.symm⟩
    · obtain ⟨p', hp', hs⟩ := h.full c h1 (by omega)
      exact ⟨p', hp', (hold p' hp' (by omega)).trans hs⟩
  · rw [ho] at hin ⊢
    by_cases hmem : s₀ p' ∈ placed a used (ps.map s₀)
    · rw [List.idxOf_append_of_mem hmem, ← h.seen p' hp' hmem]
      exact hold p' hp' (h.lt_of_mem hp' hmem)
    · have he : s₀ p' = s₀ p := by simpa [hmem] using hin
      rw [he, h.idxOf_next hp hgt.le, hm.slot p' hp',
        if_pos ((h.pattern p hp p' hp' hgt.le).mpr he.symm).symm]
  · rw [ho, List.mem_append, List.mem_singleton, not_or] at hin
    obtain ⟨hge, hor⟩ := h.unseen p' hp' hu hin.1
    have hne : s p' ≠ s p := fun he => hin.2 ((h.pattern p' hp' p hp hge).mp he)
    rw [hm.slot p' hp', if_neg hne]
    split
    · rename_i hs
      have := (hm.temp.resolve_left ((hm.dest p' hp' hs).mp hu)).1
      exact ⟨by omega, .inr (by omega)⟩
    · exact ⟨by omega, hor.imp_right (by omega)⟩
  · rw [ho, List.mem_append, List.mem_singleton, not_or] at hin
    have hs := h.free p' hp' hu hin.1
    have hne : s p' ≠ s p := fun he =>
      hin.2 ((h.pattern p hp p' hp' hgt.le).mp he.symm).symm
    rw [hm.slot p' hp', if_neg hne]
    split
    · rename_i hd
      have hk : k = pos := not_not.mp fun hk => hu ((hm.dest p' hp' hd).mpr hk)
      rw [hk, ← hd, hs]
    · exact hs
  · -- the labels behind the next place are as they were, or the new label `k`
    have hslot₁ := hm.slot p₁ hp₁
    have hslot₂ := hm.slot p₂ hp₂
    have hfresh : k = pos ∨ s p₁ ≠ k ∧ s p₂ ≠ k :=
      hm.temp.imp id fun hk => ⟨hk.2 p₁ hp₁, hk.2 p₂ hp₂⟩
    have hge₁ : pos ≤ s p₁ := by
      by_contra hlt
      rw [hold p₁ hp₁ (by omega)] at hge
      omega
    rw [← h.pattern p₁ hp₁ p₂ hp₂ hge₁, hslot₁, hslot₂]
    rw [hslot₁] at hge
    split_ifs at hge ⊢ <;> omega

end Pass

end Placement
