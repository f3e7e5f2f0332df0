import Mathlib.Data.Nat.Basic

/-!
# Writing through shared blocks

Slots name blocks of a memory, and several slots may name one block. A write to slot `j` gives its
page to the first slot that names the block, which then shares its block with no slot. Slots are
written in order from slot `a` on: the pages arrive where they were meant exactly when no
slot below `a` names the block of a slot whose page changes.
-/
namespace Redirection

variable {β γ : Type*} {n a : ℕ} {s₀ s s' : ℕ → β} {m₀ m m' : β → γ} {t : ℕ → γ}

/-- The page written at slot `j` goes to slot `k`, the first one with that block. -/
structure Write (n : ℕ) (s s' : ℕ → β) (m m' : β → γ) (j k : ℕ) (page : γ) : Prop where
  le : k ≤ j
  named : s k = s j
  first : ∀ r < k, s r ≠ s j
  slot : ∀ p, p ≠ k → s' p = s p
  page : m' (s' k) = page
  other : ∀ p < n, p ≠ k → m' (s' p) = m (s p)
  own : ∀ p < n, p ≠ k → s' p ≠ s' k

/-- Slot `q` shares its block with no slot. -/
def Own (n : ℕ) (s : ℕ → β) (q : ℕ) : Prop := ∀ p < n, p ≠ q → s p ≠ s q

/-- A slot below `a` names the block of slot `r`. -/
def Before (s₀ : ℕ → β) (a r : ℕ) : Prop := ∃ i < a, s₀ i = s₀ r

/-- The slots below `j` hold the pages `t`, and the others are as they were. -/
structure Right (n a : ℕ) (s₀ s : ℕ → β) (m₀ m : β → γ) (t : ℕ → γ) (j : ℕ) : Prop where
  slot : ∀ r, j ≤ r → r < n → s r = s₀ r
  shared : ∀ r, j ≤ r → r < n → ((∃ k < j, s k = s r) ↔ Before s₀ a r)
  done : ∀ q < j, m (s q) = t q
  rest : ∀ q, j ≤ q → q < n → m (s q) = m₀ (s₀ q)

/-- A slot before the last one written holds a page that was not meant for it, in a block of its
own. -/
def Astray (n : ℕ) (s : ℕ → β) (m : β → γ) (t : ℕ → γ) (j : ℕ) : Prop :=
  ∃ q, q + 1 < j ∧ m (s q) ≠ t q ∧ Own n s q

/-- The pages of slots `a` to `j - 1` fit the slots below `a`. -/
def Fits (a : ℕ) (s₀ : ℕ → β) (m₀ : β → γ) (t : ℕ → γ) (j : ℕ) : Prop :=
  ∀ r, a ≤ r → r < j → Before s₀ a r → t r = m₀ (s₀ r)

/-- What the writes of slots `a` to `j - 1` leave. -/
def Written (n a : ℕ) (s₀ s : ℕ → β) (m₀ m : β → γ) (t : ℕ → γ) (j : ℕ) : Prop :=
  Right n a s₀ s m₀ m t j ∧ Fits a s₀ m₀ t j ∨ Astray n s m t j ∧ ¬ Fits a s₀ m₀ t j

namespace Write

variable {j k : ℕ} {page : γ}

/-- Every block stays with the one slot that names it. -/
theorem own_other (hw : Write n s s' m m' j k page) {q : ℕ} (hq : q < n) (h : Own n s q) :
    Own n s' q := by
  intro p hp hpq
  by_cases hpk : p = k
  · subst hpk
    exact (hw.own q hq (Ne.symm hpq)).symm
  · by_cases hqk : q = k
    · subst hqk
      exact hw.own p hp hpq
    · rw [hw.slot p hpk, hw.slot q hqk]
      exact h p hp hpq

end Write

namespace Right

variable {j k : ℕ} {page : γ}

/-- The names of the blocks after a write: the slots from `j + 1` on, and what they share with
those before. -/
theorem names (h : Right n a s₀ s m₀ m t j) (hw : Write n s s' m m' j k page) :
    ∀ r, j + 1 ≤ r → r < n → s' r = s₀ r ∧ ((∃ i < j + 1, s' i = s' r) ↔ Before s₀ a r) := by
  intro r hr hrn
  have hkj := hw.le
  have hrk : r ≠ k := by omega
  have hsr : s' r = s r := hw.slot r hrk
  refine ⟨hsr.trans (h.slot r (by omega) hrn), ?_⟩
  rw [← h.shared r (by omega) hrn]
  constructor
  · rintro ⟨i, hi, his⟩
    have hik : i ≠ k := fun he => hw.own r hrn hrk (by rw [← his, he])
    rw [hw.slot i hik, hsr] at his
    by_cases hij : i = j
    · -- slot `j` keeps its block only when an earlier slot took the page
      subst hij
      exact ⟨k, by omega, hw.named.trans his⟩
    · exact ⟨i, by omega, his⟩
  · rintro ⟨i, hi, his⟩
    by_cases hik : i = k
    · subst hik
      have hji : j ≠ i := by omega
      exact ⟨j, by omega, by rw [hw.slot j hji, hsr, ← hw.named, his]⟩
    · exact ⟨i, by omega, by rw [hw.slot i hik, hsr, his]⟩

theorem write (h : Right n a s₀ s m₀ m t j) (hj : j < n)
    (hw : Write n s s' m m' j k (t j)) (hfit : Before s₀ a j → t j = m₀ (s₀ j)) :
    Right n a s₀ s' m₀ m' t (j + 1) := by
  have hkj := hw.le
  have hnames := h.names hw
  refine ⟨fun r hr hrn => (hnames r hr hrn).1, fun r hr hrn => (hnames r hr hrn).2,
    fun q hq => ?_, fun q hq hqn => ?_⟩
  · by_cases hk : k = j
    · subst hk
      by_cases hqk : q = k
      · rw [hqk]
        exact hw.page
      · exact (hw.other q (by omega) hqk).trans (h.done q (by omega))
    · -- the page that slot `k` gets is the one it has
      have hpage : t j = m₀ (s₀ j) :=
        hfit ((h.shared j le_rfl hj).mp ⟨k, by omega, hw.named⟩)
      have hold : m (s j) = t j := (h.rest j le_rfl hj).trans hpage.symm
      by_cases hqk : q = k
      · rw [hqk, hw.page, ← hold, ← hw.named]
        exact h.done k (by omega)
      · refine (hw.other q (by omega) hqk).trans ?_
        by_cases hqj : q = j
        · rw [hqj]
          exact hold
        · exact h.done q (by omega)
  · exact (hw.other q hqn (by omega)).trans (h.rest q (by omega) hqn)

/-- A page that differs from the one that a slot below `a` shares goes to the wrong slot. -/
theorem astray (h : Right n a s₀ s m₀ m t j) (hj : j < n)
    (hw : Write n s s' m m' j k (t j)) (hbefore : Before s₀ a j) (hne : t j ≠ m₀ (s₀ j)) :
    Astray n s' m' t (j + 1) := by
  obtain ⟨i, hi, his⟩ := (h.shared j le_rfl hj).mpr hbefore
  have hki : k ≤ i := Nat.le_of_not_lt fun hlt => hw.first i hlt his
  refine ⟨k, by omega, ?_, fun p hp hpk => hw.own p hp hpk⟩
  rw [hw.page, ← h.done k (by omega), hw.named, h.rest j le_rfl hj]
  exact hne

end Right

/-- A page that went astray stays there. -/
theorem Astray.write {j r k : ℕ} {page : γ} (h : Astray n s m t j) (hjr : j ≤ r) (hr : r < n)
    (hw : Write n s s' m m' r k page) : Astray n s' m' t (r + 1) := by
  obtain ⟨q, hq, hpage, hown⟩ := h
  have hkq : q ≠ k := by
    rintro rfl
    exact hown r hr (by omega) hw.named.symm
  refine ⟨q, by omega, ?_, hw.own_other (by omega) hown⟩
  rw [hw.other q (by omega) hkq]
  exact hpage

theorem Written.start (h : ∀ q < a, m₀ (s₀ q) = t q) : Written n a s₀ s₀ m₀ m₀ t a :=
  .inl ⟨⟨fun _ _ _ => rfl, fun _ _ _ => Iff.rfl, h, fun _ _ _ => rfl⟩,
    fun _ har hra => absurd hra (Nat.not_lt.mpr har)⟩

/-- One more slot: its page is `t j` while every page before it is where it was meant to be. -/
theorem Written.write {j k : ℕ} {page : γ} (h : Written n a s₀ s m₀ m t j) (haj : a ≤ j)
    (hj : j < n) (hw : Write n s s' m m' j k page)
    (hpage : m (s j) = m₀ (s₀ j) → page = t j) : Written n a s₀ s' m₀ m' t (j + 1) := by
  rcases h with ⟨hright, hfits⟩ | ⟨hastray, hno⟩
  · obtain rfl := hpage (hright.rest j le_rfl hj)
    by_cases hfit : Before s₀ a j → t j = m₀ (s₀ j)
    · refine .inl ⟨hright.write hj hw hfit, fun r har hrj hb => ?_⟩
      rcases Nat.lt_succ_iff_lt_or_eq.mp hrj with hlt | rfl
      · exact hfits r har hlt hb
      · exact hfit hb
    · obtain ⟨hb, hne⟩ := Classical.not_imp.mp hfit
      exact .inr ⟨hright.astray hj hw hb hne, fun hno => hne (hno j haj (Nat.lt_succ_self j) hb)⟩
  · exact .inr ⟨hastray.write le_rfl hj hw, fun hfits => hno fun r har hrj hb =>
      hfits r har (Nat.lt_succ_of_lt hrj) hb⟩

end Redirection
