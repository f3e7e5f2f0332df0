import ThreadScheduler.Lib.PointerTree
import Mathlib.Tactic.SplitIfs

/-!
# Red-black balance

The colours of the nodes are a function of their addresses, so that a change of pointers and
a change of colours are separate things. `Balanced` is the balance of a tree, `Fits` that of
a tree with a hole.
-/
namespace RedBlack

open PointerTree

/-- The colours. -/
inductive Color where
  | black
  | red
  deriving DecidableEq, Repr

variable {ι : Type*} {cor cor' : ι → Color}

/-- No red node has a red child, and every path down passes `n` black nodes. -/
inductive Balanced (cor : ι → Color) : Shape ι → Color → ℕ → Prop where
  | nil : Balanced cor .nil .black 0
  | red {p : ι} {l r : Shape ι} {n : ℕ} (hp : cor p = .red) (hl : Balanced cor l .black n)
      (hr : Balanced cor r .black n) : Balanced cor (.node p l r) .red n
  | black {p : ι} {l r : Shape ι} {c₁ c₂ : Color} {n : ℕ} (hp : cor p = .black)
      (hl : Balanced cor l c₁ n) (hr : Balanced cor r c₂ n) :
      Balanced cor (.node p l r) .black (n + 1)

/-- What hangs around a hole for a balanced tree: a tree of colour `c` with `n` black nodes on
every path, or a black one, fits. -/
inductive Fits (cor : ι → Color) : List (Frame ι) → Color → ℕ → Prop where
  | top {n : ℕ} : Fits cor [] .black n
  | red {f : Frame ι} {fs : List (Frame ι)} {n : ℕ} (hf : cor f.at' = .red)
      (hsib : Balanced cor f.sib .black n) (hfs : Fits cor fs .red n) :
      Fits cor (f :: fs) .black n
  | black {f : Frame ι} {fs : List (Frame ι)} {c c' : Color} {n : ℕ} (hf : cor f.at' = .black)
      (hsib : Balanced cor f.sib c' n) (hfs : Fits cor fs .black (n + 1)) :
      Fits cor (f :: fs) c n

theorem Balanced.congr {t : Shape ι} {c : Color} {n : ℕ} (h : Balanced cor t c n)
    (heq : ∀ p ∈ t.toList, cor' p = cor p) : Balanced cor' t c n := by
  induction h with
  | nil => exact .nil
  | red hp _ _ ihl ihr =>
      exact .red ((heq _ (by simp)).trans hp) (ihl fun q hq => heq q (by simp [hq]))
        (ihr fun q hq => heq q (by simp [hq]))
  | black hp _ _ ihl ihr =>
      exact .black ((heq _ (by simp)).trans hp) (ihl fun q hq => heq q (by simp [hq]))
        (ihr fun q hq => heq q (by simp [hq]))

theorem Fits.congr {fs : List (Frame ι)} {c : Color} {n : ℕ} (h : Fits cor fs c n)
    (heq : ∀ p ∈ around fs, cor' p = cor p) : Fits cor' fs c n := by
  induction h with
  | top => exact .top
  | red hf hsib _ ih =>
      exact .red ((heq _ (mem_around_cons.mpr (.inl rfl))).trans hf)
        (hsib.congr fun q hq => heq q (mem_around_cons.mpr (.inr (.inl hq))))
        (ih fun q hq => heq q (mem_around_cons.mpr (.inr (.inr hq))))
  | black hf hsib _ ih =>
      exact .black ((heq _ (mem_around_cons.mpr (.inl rfl))).trans hf)
        (hsib.congr fun q hq => heq q (mem_around_cons.mpr (.inr (.inl hq))))
        (ih fun q hq => heq q (mem_around_cons.mpr (.inr (.inr hq))))

/-- A black tree fits wherever a red one does. -/
theorem Fits.of_red {fs : List (Frame ι)} {c : Color} {n : ℕ} (h : Fits cor fs c n) :
    Fits cor fs .black n := by
  cases h with
  | top => exact .top
  | red hf hsib hfs => exact .red hf hsib hfs
  | black hf hsib hfs => exact .black hf hsib hfs

section Join

variable {s : Side} {p : ι} {t w : Shape ι} {n : ℕ}

theorem Balanced.join_red (hp : cor p = .red) (ht : Balanced cor t .black n)
    (hw : Balanced cor w .black n) : Balanced cor (.join s p t w) .red n := by
  cases s with
  | left => exact .red hp ht hw
  | right => exact .red hp hw ht

theorem Balanced.join_black {c₁ c₂ : Color} (hp : cor p = .black) (ht : Balanced cor t c₁ n)
    (hw : Balanced cor w c₂ n) : Balanced cor (.join s p t w) .black (n + 1) := by
  cases s with
  | left => exact .black hp ht hw
  | right => exact .black hp hw ht

theorem Balanced.of_join_red (h : Balanced cor (.join s p t w) .red n) :
    cor p = .red ∧ Balanced cor t .black n ∧ Balanced cor w .black n := by
  cases s with
  | left =>
      cases h with
      | red hp hl hr => exact ⟨hp, hl, hr⟩
  | right =>
      cases h with
      | red hp hl hr => exact ⟨hp, hr, hl⟩

theorem Balanced.of_join_black (h : Balanced cor (.join s p t w) .black n) :
    ∃ m c₁ c₂, n = m + 1 ∧ cor p = .black ∧ Balanced cor t c₁ m ∧ Balanced cor w c₂ m := by
  cases s with
  | left =>
      cases h with
      | black hp hl hr => exact ⟨_, _, _, rfl, hp, hl, hr⟩
  | right =>
      cases h with
      | black hp hl hr => exact ⟨_, _, _, rfl, hp, hr, hl⟩

/-- A red tree whose root is painted black. -/
theorem Balanced.paint (h : Balanced cor (.join s p t w) .red n) (hp : cor' p = .black)
    (ht : ∀ q ∈ t.toList, cor' q = cor q) (hw : ∀ q ∈ w.toList, cor' q = cor q) :
    Balanced cor' (.join s p t w) .black (n + 1) := by
  obtain ⟨-, hbt, hbw⟩ := h.of_join_red
  exact .join_black hp (hbt.congr ht) (hbw.congr hw)

end Join

/-- A tree that is not empty is a node with two subtrees, on either side. -/
theorem Balanced.exists_join {t : Shape ι} {c : Color} {n : ℕ} (h : Balanced cor t c n)
    (hn : n ≠ 0 ∨ c = .red) (s : Side) : ∃ p u w, t = .join s p u w := by
  cases t with
  | nil =>
      cases h
      simp at hn
  | node p l r =>
      cases s with
      | left => exact ⟨p, l, r, rfl⟩
      | right => exact ⟨p, r, l, rfl⟩

/-- A balanced tree fills the hole it fits in. -/
theorem Fits.fill {fs : List (Frame ι)} {t : Shape ι} {c : Color} {n : ℕ} (h : Fits cor fs c n)
    (ht : Balanced cor t c n) : ∃ m, Balanced cor (PointerTree.fill t fs) .black m := by
  induction h generalizing t with
  | top => exact ⟨_, ht⟩
  | red hf hsib _ ih => exact ih (.join_red hf ht hsib)
  | black hf hsib _ ih => exact ih (.join_black hf ht hsib)

/-- Any place in a balanced tree is a balanced tree in a hole it fits in. -/
theorem Fits.of_fill {fs : List (Frame ι)} {t : Shape ι} {m : ℕ}
    (h : Balanced cor (PointerTree.fill t fs) .black m) :
    ∃ c n, Fits cor fs c n ∧ Balanced cor t c n := by
  induction fs generalizing t with
  | nil => exact ⟨_, _, .top, h⟩
  | cons f fs ih =>
      obtain ⟨c, n, hfs, ht⟩ := ih h
      cases c with
      | red =>
          obtain ⟨hp, ht, hw⟩ := ht.of_join_red
          exact ⟨_, _, .red hp hw hfs, ht⟩
      | black =>
          obtain ⟨n, c₁, c₂, rfl, hp, ht, hw⟩ := ht.of_join_black
          exact ⟨_, _, .black hp hw hfs, ht⟩

/-- The colour that code reads at the root of a tree, the sentinel being black. -/
theorem Balanced.color_root {L : Links ι} {nil x par : ι} {t : Shape ι} {c : Color} {n : ℕ}
    (h : Balanced cor t c n) (hl : Linked L nil t x par) (hnil : cor nil = .black) : cor x = c := by
  cases h with
  | nil => rw [show x = nil from hl, hnil]
  | red hp _ _ => rw [show x = _ from hl.1, hp]
  | black hp _ _ => rw [show x = _ from hl.1, hp]

/-- Code that looks below a red node finds black. -/
theorem Balanced.color_child {L : Links ι} {nil x par p : ι} {t : Shape ι} {c : Color} {n : ℕ}
    (h : Balanced cor t c n) (hl : Linked L nil t x par) (hnil : cor nil = .black)
    (hp : p ∈ t.toList) (hred : cor p = .red) (s : Side) : cor (L.child s p) = .black := by
  induction h generalizing x par with
  | nil => simp at hp
  | red hq hbl hbr ihl ihr =>
      obtain ⟨-, -, hll, hlr⟩ := hl
      rw [Shape.toList_node, List.mem_append, List.mem_cons] at hp
      rcases hp with hp | rfl | hp
      · exact ihl hll hp
      · cases s with
        | left => exact hbl.color_root hll hnil
        | right => exact hbr.color_root hlr hnil
      · exact ihr hlr hp
  | black hq _ _ ihl ihr =>
      obtain ⟨-, -, hll, hlr⟩ := hl
      rw [Shape.toList_node, List.mem_append, List.mem_cons] at hp
      rcases hp with hp | rfl | hp
      · exact ihl hll hp
      · rw [hred] at hq
        exact Color.noConfusion hq
      · exact ihr hlr hp

/-- A walk down from a node to the sentinel that passes `n` black nodes. -/
inductive BlackPath (L : Links ι) (nil : ι) (cor : ι → Color) : ι → ℕ → Prop where
  | nil : BlackPath L nil cor nil 0
  | red {p : ι} {n : ℕ} (s : Side) (hn : p ≠ nil) (hp : cor p = .red)
      (h : BlackPath L nil cor (L.child s p) n) : BlackPath L nil cor p n
  | black {p : ι} {n : ℕ} (s : Side) (hn : p ≠ nil) (hp : cor p = .black)
      (h : BlackPath L nil cor (L.child s p) n) : BlackPath L nil cor p (n + 1)

/-- All walks down a balanced tree pass the same number of black nodes. -/
theorem Balanced.blackPath {L : Links ι} {nil x par : ι} {t : Shape ι} {c : Color} {n m : ℕ}
    (h : Balanced cor t c n) (hl : Linked L nil t x par) (hnil : nil ∉ t.toList)
    (hm : BlackPath L nil cor x m) : m = n := by
  induction h generalizing x par m with
  | nil =>
      obtain rfl : x = nil := hl
      cases hm with
      | nil => rfl
      | red _ hn _ _ => exact absurd rfl hn
      | black _ hn _ _ => exact absurd rfl hn
  | red hq hbl hbr ihl ihr =>
      obtain ⟨rfl, -, hll, hlr⟩ := hl
      rw [Shape.toList_node, List.mem_append, List.mem_cons, not_or, not_or] at hnil
      cases hm with
      | nil => exact absurd rfl hnil.2.1
      | red s _ _ hm =>
          cases s with
          | left => exact ihl hll hnil.1 hm
          | right => exact ihr hlr hnil.2.2 hm
      | black s _ hp _ =>
          rw [hq] at hp
          exact Color.noConfusion hp
  | black hq hbl hbr ihl ihr =>
      obtain ⟨rfl, -, hll, hlr⟩ := hl
      rw [Shape.toList_node, List.mem_append, List.mem_cons, not_or, not_or] at hnil
      cases hm with
      | nil => exact absurd rfl hnil.2.1
      | red s _ hp _ =>
          rw [hq] at hp
          exact Color.noConfusion hp
      | black s _ _ hm =>
          cases s with
          | left => exact congrArg (· + 1) (ihl hll hnil.1 hm)
          | right => exact congrArg (· + 1) (ihr hlr hnil.2.2 hm)

/-- The root of the tree around a hole is black. -/
theorem Fits.color_top {L : Links ι} {nil top x : ι} {f : Frame ι} {fs : List (Frame ι)} {c : Color}
    {n : ℕ} (h : Fits cor (f :: fs) c n) (hl : LinkedAround L nil top (f :: fs) x) :
    L.child .left top ∈ around (f :: fs) ∧ cor (L.child .left top) = .black := by
  obtain ⟨-, -, -, hout⟩ := hl
  induction fs generalizing f c n with
  | nil =>
      have hroot : L.child .left top = f.at' := hout
      rw [hroot]
      refine ⟨mem_around_cons.mpr (.inl rfl), ?_⟩
      cases h with
      | red _ _ hfs => cases hfs
      | black hf _ _ => exact hf
  | cons g gs ih =>
      have hrest : ∃ c n, Fits cor (g :: gs) c n := by
        cases h with
        | red _ _ hfs => exact ⟨_, _, hfs⟩
        | black _ _ hfs => exact ⟨_, _, hfs⟩
      obtain ⟨c', n', hg⟩ := hrest
      obtain ⟨hmem, hblack⟩ := ih hg hout.2.2.2
      exact ⟨mem_around_cons.mpr (.inr (.inr hmem)), hblack⟩

end RedBlack
