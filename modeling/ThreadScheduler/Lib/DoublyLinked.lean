import ThreadScheduler.Lib.LinkedCells

/-!
# Doubly linked cells

Cells with a link each way: the links forth are a chain of the cells, the links back one of the
same cells in reverse order. What holds from one end holds from the other.
-/
namespace LinkedCells

variable {κ : Type*} {next prev : κ → Option κ} {first last : Option κ} {a b c : κ}
  {as bs cs : List κ}

/-- The cells `cs` from `first` to `last`, linked both ways. -/
structure Double (next prev : κ → Option κ) (first last : Option κ) (cs : List κ) : Prop where
  forth : Chain next first cs
  back : Chain prev last cs.reverse

namespace Double

theorem symm (h : Double next prev first last cs) : Double prev next last first cs.reverse := by
  refine ⟨h.back, ?_⟩
  rw [List.reverse_reverse]
  exact h.forth

theorem nodup (h : Double next prev first last cs) : cs.Nodup := h.forth.nodup

theorem first_eq (h : Double next prev first last cs) : first = cs.head? := h.forth.head_eq

theorem last_eq (h : Double next prev first last cs) : last = cs.getLast? := by
  rw [h.back.head_eq, List.head?_reverse]

theorem next_eq (h : Double next prev first last (as ++ c :: bs)) : next c = bs.head? :=
  h.forth.next_eq

theorem prev_eq (h : Double next prev first last (as ++ c :: bs)) : prev c = as.getLast? := by
  have hback : Chain prev last (bs.reverse ++ c :: as.reverse) := by
    simpa using h.back
  rw [hback.next_eq, List.head?_reverse]

variable [DecidableEq κ]

theorem single (next prev : κ → Option κ) (c : κ) :
    Double (Function.update next c none) (Function.update prev c none) (some c) (some c) [c] :=
  ⟨⟨rfl, Function.update_self ..⟩, ⟨rfl, Function.update_self ..⟩⟩

/-- The first cell goes. -/
theorem dropFirst (h : Double next prev first last (c :: b :: cs)) :
    Double next (Function.update prev b none) (some b) last (b :: cs) := by
  have hback : Chain prev last (cs.reverse ++ b :: [c]) := by
    simpa using h.back
  refine ⟨⟨rfl, h.forth.2.2⟩, ?_⟩
  rw [List.reverse_cons]
  exact hback.cut

/-- The last cell goes. -/
theorem dropLast (h : Double next prev first last (cs ++ [a, c])) :
    Double (Function.update next a none) prev first (some a) (cs ++ [a]) := by
  have hsymm : Double prev next last first (c :: a :: cs.reverse) := by
    simpa using h.symm
  simpa using hsymm.dropFirst.symm

/-- A cell between two others goes. -/
theorem remove (h : Double next prev first last (as ++ a :: c :: b :: bs)) :
    Double (Function.update next a (some b)) (Function.update prev b (some a)) first last
      (as ++ a :: b :: bs) := by
  have hforth : next c = some b := h.forth.of_append.2.head_eq
  have hback : Chain prev last (bs.reverse ++ b :: c :: a :: as.reverse) := by
    simpa using h.back
  have hprev : prev c = some a := hback.of_append.2.head_eq
  refine ⟨hforth ▸ h.forth.unlink, ?_⟩
  simpa [hprev] using hback.unlink

/-- A new cell before the first one. -/
theorem pushFirst (h : Double next prev first last (b :: cs)) (hc : c ∉ b :: cs) :
    Double (Function.update next c (some b))
      (Function.update (Function.update prev c none) b (some c)) (some c) last (c :: b :: cs) := by
  have hback : Chain prev last (cs.reverse ++ [b]) := by
    simpa using h.back
  refine ⟨h.forth.1 ▸ h.forth.cons hc, ?_⟩
  simpa using hback.insert (by simpa [or_comm] using hc)

/-- A new cell behind the last one. -/
theorem pushLast (h : Double next prev first last (cs ++ [a])) (hc : c ∉ cs ++ [a]) :
    Double (Function.update (Function.update next c none) a (some c))
      (Function.update prev c (some a)) first (some c) (cs ++ [a, c]) := by
  have hsymm : Double prev next last first (a :: cs.reverse) := by
    simpa using h.symm
  simpa using (hsymm.pushFirst (by simpa [or_comm] using hc)).symm

/-- A new cell between two others. -/
theorem insert (h : Double next prev first last (as ++ a :: b :: bs))
    (hc : c ∉ as ++ a :: b :: bs) :
    Double (Function.update (Function.update next c (some b)) a (some c))
      (Function.update (Function.update prev c (some a)) b (some c)) first last
      (as ++ a :: c :: b :: bs) := by
  have hback : Chain prev last (bs.reverse ++ b :: a :: as.reverse) := by
    simpa using h.back
  refine ⟨h.forth.insert hc, ?_⟩
  simpa using hback.insert (by simpa [or_comm, or_left_comm, or_assoc] using hc)

end Double

end LinkedCells
