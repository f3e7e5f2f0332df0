import Mathlib.Data.List.Induction

/-!
# Paths in a tree of names

The children of a node carry labels, and a path is a list of labels. In a tree no path but one leads
to a node, so that a child that is added, or one with no children that is taken away, changes what
one path leads to.
-/
namespace PathTree

variable {ν κ : Type*} {child child' : ν → κ → Option ν} {root d n : ν} {k : κ} {p q : List κ}

/-- The node a path leads to. -/
def follow (child : ν → κ → Option ν) : ν → List κ → Option ν
  | d, [] => some d
  | d, k :: ks => (child d k).bind fun n => follow child n ks

theorem follow_append (d : ν) (p q : List κ) :
    follow child d (p ++ q) = (follow child d p).bind fun n => follow child n q := by
  induction p generalizing d with
  | nil => rfl
  | cons k p ih =>
      rw [List.cons_append, follow, follow, Option.bind_assoc]
      exact Option.bind_congr fun n _ => ih n

theorem follow_concat (d : ν) (p : List κ) (k : κ) :
    follow child d (p ++ [k]) = (follow child d p).bind fun n => child n k := by
  rw [follow_append]
  refine Option.bind_congr fun n _ => ?_
  rw [follow]
  cases child n k <;> rfl

/-- The root is no child, and no node is a child twice. -/
structure Rooted (child : ν → κ → Option ν) (root : ν) : Prop where
  root : ∀ d k, child d k ≠ some root
  unique : ∀ d d' k k' n, child d k = some n → child d' k' = some n → d = d' ∧ k = k'

/-- One path at most leads to a node. -/
theorem Rooted.follow_inj (h : Rooted child root) (hp : follow child root p = some n)
    (hq : follow child root q = some n) : p = q := by
  induction p using List.reverseRecOn generalizing q n with
  | nil =>
      obtain rfl := Option.some.inj hp
      induction q using List.reverseRecOn with
      | nil => rfl
      | append_singleton q k =>
          rw [follow_concat] at hq
          obtain ⟨d, -, hd⟩ := Option.bind_eq_some_iff.mp hq
          exact absurd hd (h.root d k)
  | append_singleton p k ih =>
      rw [follow_concat] at hp
      obtain ⟨d, hd, hk⟩ := Option.bind_eq_some_iff.mp hp
      induction q using List.reverseRecOn with
      | nil =>
          obtain rfl := Option.some.inj hq
          exact absurd hk (h.root d k)
      | append_singleton q k' =>
          rw [follow_concat] at hq
          obtain ⟨d', hd', hk'⟩ := Option.bind_eq_some_iff.mp hq
          obtain ⟨rfl, rfl⟩ := h.unique d d' k k' n hk hk'
          rw [ih hd hd']

/-- The paths of the children of a node. -/
theorem Rooted.concat_iff (h : Rooted child root) {x : ν} {y : κ}
    (hx : follow child root q = some x) (hp : follow child root p = some d) :
    x = d ∧ y = k ↔ q ++ [y] = p ++ [k] := by
  constructor
  · rintro ⟨rfl, rfl⟩
    rw [h.follow_inj hx hp]
  · intro he
    obtain ⟨rfl, hy⟩ := List.append_inj' he rfl
    exact ⟨Option.some.inj (hx.symm.trans hp), (List.cons.inj hy).1⟩

theorem ne_of_follow (hroot : n ≠ root) (hto : ∀ d k, child d k ≠ some n)
    (hp : follow child root p = some d) : d ≠ n := by
  rintro rfl
  induction p using List.reverseRecOn with
  | nil => exact hroot (Option.some.inj hp).symm
  | append_singleton p k =>
      rw [follow_concat] at hp
      obtain ⟨x, -, hx⟩ := Option.bind_eq_some_iff.mp hp
      exact hto x k hx

variable [DecidableEq ν] [DecidableEq κ]

/-- A new child leaves every other path where it was. -/
theorem Rooted.follow_insert (h : Rooted child root) (hroot : n ≠ root)
    (hto : ∀ d k, child d k ≠ some n) (hof : ∀ k, child n k = none) (hk : child d k = none)
    (hc : ∀ x y, child' x y = if x = d ∧ y = k then some n else child x y)
    (hp : follow child root p = some d) (q : List κ) :
    follow child' root q = if q = p ++ [k] then some n else follow child root q := by
  have hdn : d ≠ n := ne_of_follow hroot hto hp
  induction q using List.reverseRecOn with
  | nil => rw [if_neg (by simp)]; rfl
  | append_singleton q y ih =>
      rw [follow_concat, follow_concat, ih]
      by_cases hq : q = p ++ [k]
      · -- nothing is below the new child, and nothing was
        have hnil : (follow child root (p ++ [k])).bind (fun x => child x y) = none := by
          rw [follow_concat, hp, Option.bind_some, hk]
          rfl
        rw [if_pos hq, Option.bind_some, hc, if_neg fun he => hdn he.1.symm, hof, hq, hnil,
          if_neg]
        intro he
        have hlen := congrArg List.length he
        simp at hlen
      · rw [if_neg hq]
        cases hx : follow child root q with
        | none =>
            rw [if_neg]
            · rfl
            · intro he
              obtain ⟨rfl, -⟩ := List.append_inj' he rfl
              rw [hp] at hx
              cases hx
        | some x =>
            rw [Option.bind_some, Option.bind_some, hc]
            exact if_congr (h.concat_iff hx hp) rfl rfl

/-- A child with no children of its own that goes leaves every other path where it was. -/
theorem Rooted.follow_erase (h : Rooted child root) (hof : ∀ k, child n k = none)
    (hk : child d k = some n) (hc : ∀ x y, child' x y = if x = d ∧ y = k then none else child x y)
    (hp : follow child root p = some d) (q : List κ) :
    follow child' root q = if q = p ++ [k] then none else follow child root q := by
  induction q using List.reverseRecOn with
  | nil => rw [if_neg (by simp)]; rfl
  | append_singleton q y ih =>
      rw [follow_concat, follow_concat, ih]
      by_cases hq : q = p ++ [k]
      · rw [if_pos hq, hq, follow_concat, hp, Option.bind_some, hk, Option.bind_some, hof,
          Option.bind_none]
        split <;> rfl
      · rw [if_neg hq]
        cases hx : follow child root q with
        | none =>
            split <;> rfl
        | some x =>
            rw [Option.bind_some, Option.bind_some, hc]
            exact if_congr (h.concat_iff hx hp) rfl rfl

end PathTree
