import ThreadScheduler.Lib.RedBlack
import Mathlib.Algebra.Group.Nat.Defs
import Mathlib.Data.Nat.Log

/-!
# Searching a tree of pointers

A search turns left or right at each node until it finds one to stop at. It takes no more
turns than the tree is high, and a balanced tree is not higher than twice the logarithm of
its size.
-/
namespace PointerTree

variable {ι : Type*}

/-- The number of nodes on the longest way down. -/
def Shape.height : Shape ι → ℕ
  | .nil => 0
  | .node _ l r => max l.height r.height + 1

theorem Shape.height_left_lt (p : ι) (l r : Shape ι) : l.height < (Shape.node p l r).height :=
  Nat.lt_succ_of_le (Nat.le_max_left _ _)

theorem Shape.height_right_lt (p : ι) (l r : Shape ι) : r.height < (Shape.node p l r).height :=
  Nat.lt_succ_of_le (Nat.le_max_right _ _)

theorem Shape.height_le_length (t : Shape ι) : t.height ≤ t.toList.length := by
  induction t with
  | nil => exact Nat.le_refl 0
  | node p l r ihl ihr =>
      rw [Shape.height, Shape.toList_node, List.length_append, List.length_cons]
      omega

/-- The focus is as deep in the whole tree as there are frames around it. -/
theorem height_fill (t : Shape ι) (fs : List (Frame ι)) :
    t.height + fs.length ≤ (fill t fs).height := by
  induction fs generalizing t with
  | nil => exact Nat.le_refl _
  | cons f fs ih =>
      have hup : t.height + 1 ≤ (Shape.join f.side f.at' t f.sib).height := by
        cases f.side with
        | left => exact Shape.height_left_lt ..
        | right => exact Shape.height_right_lt ..
      have hrest := ih (.join f.side f.at' t f.sib)
      rw [List.length_cons, fill]
      omega

section Search

variable [DecidableEq ι] {L : Links ι} {nil : ι} {turn : ι → Option Side}

/-- The search from the pointer `x`, with at most so many nodes to look at: `none` when they do
not suffice, `some none` when the search leaves the tree. -/
def search (L : Links ι) (nil : ι) (turn : ι → Option Side) : ℕ → ι → Option (Option ι)
  | 0, x => if x = nil then some none else none
  | n + 1, x =>
      if x = nil then some none
      else
        match turn x with
        | none => some (some x)
        | some s => search L nil turn n (L.child s x)

/-- The turns lead towards the nodes to stop at: to the left of a node that sends the search to
the right there is none, nor to the right of one that sends it to the left. -/
def Leads (turn : ι → Option Side) (l : List ι) : Prop :=
  l.Pairwise fun p q => (turn p = some .left → turn q ≠ none) ∧
    (turn q = some .right → turn p ≠ none)

/-- A search with as many looks as the tree is high ends, at a node to stop at if there is
one. -/
theorem search_eq {t : Shape ι} {x par : ι} (h : Linked L nil t x par) (hnil : nil ∉ t.toList)
    (hl : Leads turn t.toList) {n : ℕ} (hn : t.height ≤ n) :
    ∃ r, search L nil turn n x = some r ∧ (∀ p, r = some p → p ∈ t.toList ∧ turn p = none) ∧
      (r = none → ∀ p ∈ t.toList, turn p ≠ none) := by
  induction t generalizing x par n with
  | nil =>
      obtain rfl : x = nil := h
      refine ⟨none, ?_, by simp, by simp⟩
      cases n <;> simp [search]
  | node p l r ihl ihr =>
      obtain ⟨rfl, -, hll, hlr⟩ := h
      rw [Shape.toList_node, List.mem_append, List.mem_cons, not_or, not_or] at hnil
      obtain ⟨hnl, hx, hnr⟩ := hnil
      have hleft := Shape.height_left_lt x l r
      have hright := Shape.height_right_lt x l r
      obtain ⟨n, rfl⟩ : ∃ i, n = i + 1 := ⟨n - 1, by omega⟩
      rw [Leads, Shape.toList_node, List.pairwise_append, List.pairwise_cons] at hl
      obtain ⟨hpl, ⟨hxr, hpr⟩, hlx⟩ := hl
      rw [search, if_neg fun he => hx he.symm]
      cases ht : turn x with
      | none => exact ⟨some x, rfl, by simp [ht], by simp⟩
      | some s =>
          cases s with
          | left =>
              obtain ⟨o, ho, hsome, hnone⟩ := ihl (n := n) hll hnl hpl (by omega)
              refine ⟨o, ho, fun q hq => ⟨?_, (hsome q hq).2⟩, fun he q hq => ?_⟩
              · exact List.mem_append_left _ (hsome q hq).1
              · rw [Shape.toList_node, List.mem_append, List.mem_cons] at hq
                rcases hq with hq | rfl | hq
                · exact hnone he q hq
                · simp [ht]
                · exact (hxr q hq).1 ht
          | right =>
              obtain ⟨o, ho, hsome, hnone⟩ := ihr (n := n) hlr hnr hpr (by omega)
              refine ⟨o, ho, fun q hq => ⟨?_, (hsome q hq).2⟩, fun he q hq => ?_⟩
              · exact List.mem_append_right _ (List.mem_cons_of_mem _ (hsome q hq).1)
              · rw [Shape.toList_node, List.mem_append, List.mem_cons] at hq
                rcases hq with hq | rfl | hq
                · exact (hlx q hq x List.mem_cons_self).2 ht
                · simp [ht]
                · exact hnone he q hq

end Search

end PointerTree

namespace RedBlack

open PointerTree

variable {ι : Type*} {cor : ι → Color} {t : Shape ι} {c : Color} {n : ℕ}

/-- A tree with `n` black nodes on every path has at least `2 ^ n - 1` nodes. -/
theorem Balanced.two_pow_le (h : Balanced cor t c n) : 2 ^ n ≤ t.toList.length + 1 := by
  induction h with
  | nil => simp
  | red _ _ _ ihl _ =>
      rw [Shape.toList_node, List.length_append, List.length_cons]
      omega
  | black _ _ _ ihl ihr =>
      rw [Shape.toList_node, List.length_append, List.length_cons, Nat.pow_succ]
      omega

/-- At most every second node on the way down is red. -/
theorem Balanced.height_le (h : Balanced cor t c n) :
    t.height ≤ 2 * n + if c = .red then 1 else 0 := by
  induction h with
  | nil => simp [Shape.height]
  | red _ _ _ ihl ihr =>
      simp only [reduceCtorEq, if_false, Nat.add_zero] at ihl ihr
      rw [Shape.height, if_pos rfl]
      exact Nat.succ_le_succ (Nat.max_le.mpr ⟨ihl, ihr⟩)
  | @black _ _ _ c₁ c₂ n _ _ _ ihl ihr =>
      have hone : ∀ c : Color, (if c = .red then 1 else 0) ≤ 1 := fun c => by split <;> simp
      have hl := hone c₁
      have hr := hone c₂
      rw [Shape.height, if_neg (by decide)]
      have hmax : max _ _ ≤ 2 * n + 1 := Nat.max_le.mpr ⟨ihl.trans (by omega), ihr.trans (by omega)⟩
      omega

/-- A balanced tree under a black root is at most twice as high as the logarithm of its size. -/
theorem Balanced.height_le_log (h : Balanced cor t .black n) :
    t.height ≤ 2 * Nat.log 2 (t.toList.length + 1) := by
  have hn : n ≤ Nat.log 2 (t.toList.length + 1) :=
    Nat.le_log_of_pow_le (by decide) h.two_pow_le
  have hh := h.height_le
  rw [if_neg (by decide)] at hh
  omega

end RedBlack
