import Mathlib.Data.List.Nodup
import Mathlib.Logic.Function.Basic

/-!
# Linked cells

A table `next` links cells into chains, each from a head to its end. A family of chains without
common cells stays one when a chain grows behind its last cell or loses its first: what is written
to a cell concerns one chain only.
-/
namespace LinkedCells

variable {ι κ : Type*} {next next' : κ → Option κ} {p : Option κ} {c l : κ} {cs cs' : List κ}

/-- The cells `cs`, each of which leads to the next one, from `p` to the end. -/
def Chain (next : κ → Option κ) : Option κ → List κ → Prop
  | p, [] => p = none
  | p, c :: cs => p = some c ∧ Chain next (next c) cs

namespace Chain

/-- Cells outside a chain do not matter. -/
theorem congr (h : Chain next p cs) (heq : ∀ c ∈ cs, next' c = next c) : Chain next' p cs := by
  induction cs generalizing p with
  | nil => exact h
  | cons c cs ih =>
      refine ⟨h.1, ?_⟩
      rw [heq c List.mem_cons_self]
      exact ih h.2 fun c' hc' => heq c' (List.mem_cons_of_mem c hc')

/-- The head determines the chain. -/
theorem unique (h : Chain next p cs) (h' : Chain next p cs') : cs = cs' := by
  induction cs generalizing p cs' with
  | nil =>
      cases cs' with
      | nil => rfl
      | cons c' cs' => exact absurd (h.symm.trans h'.1) (by simp)
  | cons c cs ih =>
      cases cs' with
      | nil => exact absurd (h.1.symm.trans h') (by simp)
      | cons c' cs' =>
          obtain rfl := Option.some.inj (h.1.symm.trans h'.1)
          rw [ih h.2 h'.2]

theorem eq_nil (h : Chain next none cs) : cs = [] := h.unique rfl

/-- The rest of a chain is the chain of its first cell. -/
theorem of_append {as : List κ} (h : Chain next p (as ++ c :: cs)) : Chain next (next c) cs := by
  induction as generalizing p with
  | nil => exact h.2
  | cons a as ih => exact ih h.2

theorem head_eq (h : Chain next p cs) : p = cs.head? := by
  cases cs with
  | nil => exact h
  | cons c cs => exact h.1

/-- A cell leads to the one behind it. -/
theorem next_eq {as : List κ} (h : Chain next p (as ++ c :: cs)) : next c = cs.head? :=
  h.of_append.head_eq

/-- From a cell on, a chain may lead elsewhere. -/
theorem splice {as ds : List κ} (h : Chain next p (as ++ c :: cs))
    (heq : ∀ b ∈ as, next' b = next b) (hd : Chain next' (next' c) ds) :
    Chain next' p (as ++ c :: ds) := by
  induction as generalizing p with
  | nil => exact ⟨h.1, hd⟩
  | cons b as ih =>
      refine ⟨h.1, ?_⟩
      rw [heq b List.mem_cons_self]
      exact ih h.2 fun b' hb' => heq b' (List.mem_cons_of_mem b hb')

/-- A chain that ends passes no cell twice. -/
theorem nodup (h : Chain next p cs) : cs.Nodup := by
  induction cs generalizing p with
  | nil => exact List.nodup_nil
  | cons c cs ih =>
      refine List.nodup_cons.mpr ⟨fun hc => ?_, ih h.2⟩
      obtain ⟨as, bs, rfl⟩ := List.append_of_mem hc
      have hlen := congrArg List.length (h.2.unique h.2.of_append)
      simp only [List.length_append, List.length_cons] at hlen
      omega

theorem notMem {as : List κ} (h : Chain next p (as ++ c :: cs)) : c ∉ as ∧ c ∉ cs := by
  have hnd := h.nodup
  rw [List.nodup_middle, List.nodup_cons, List.mem_append] at hnd
  exact not_or.mp hnd.1

variable [DecidableEq κ]

theorem update_of_notMem (h : Chain next p cs) (hc : c ∉ cs) (q : Option κ) :
    Chain (Function.update next c q) p cs := by
  refine h.congr fun c' hc' => Function.update_of_ne ?_ ..
  rintro rfl
  exact hc hc'

/-- A cell is linked before the first one. -/
theorem cons (h : Chain next p cs) (hc : c ∉ cs) :
    Chain (Function.update next c p) (some c) (c :: cs) := by
  refine ⟨rfl, ?_⟩
  rw [Function.update_self]
  exact h.update_of_notMem hc p

/-- What is written to one cell of a chain does not concern those before it. -/
theorem redirect {as ds : List κ} {q : Option κ} (h : Chain next p (as ++ c :: cs))
    (hd : Chain (Function.update next c q) q ds) :
    Chain (Function.update next c q) p (as ++ c :: ds) := by
  refine h.splice (fun b hb => Function.update_of_ne ?_ ..) ?_
  · rintro rfl
    exact h.notMem.1 hb
  · rwa [Function.update_self]

/-- Nor does it concern those behind it. -/
theorem rest_update {as : List κ} (h : Chain next p (as ++ c :: cs)) (q : Option κ) :
    Chain (Function.update next c q) cs.head? cs := by
  rw [← h.next_eq]
  exact h.of_append.update_of_notMem h.notMem.2 q

/-- A cell is passed by. -/
theorem unlink {as bs : List κ} {a : κ} (h : Chain next p (as ++ a :: c :: bs)) :
    Chain (Function.update next a (next c)) p (as ++ a :: bs) := by
  have hac : c ≠ a := by
    rintro rfl
    exact h.notMem.2 List.mem_cons_self
  refine h.redirect ?_
  have hrest := (h.rest_update (next c)).2
  rwa [Function.update_of_ne hac] at hrest

/-- A chain ends with one of its cells. -/
theorem cut {as : List κ} (h : Chain next p (as ++ c :: cs)) :
    Chain (Function.update next c none) p (as ++ [c]) := h.redirect rfl

/-- A cell is linked behind another one. -/
theorem insert {as : List κ} (h : Chain next p (as ++ l :: cs)) (hc : c ∉ as ++ l :: cs) :
    Chain (Function.update (Function.update next c cs.head?) l (some c)) p (as ++ l :: c :: cs) := by
  have hne : c ≠ l := fun he => hc (by simp [he])
  have h' := h.update_of_notMem hc cs.head?
  refine h'.redirect ⟨rfl, ?_⟩
  rw [Function.update_of_ne hne, Function.update_self]
  exact h'.rest_update _

end Chain

/-- The chains of the heads have the cells `cells`, and no cell is in two of them. -/
structure Family (next : κ → Option κ) (head : ι → Option κ) (cells : ι → List κ) : Prop where
  chain : ∀ i, Chain next (head i) (cells i)
  apart : ∀ i j c, c ∈ cells i → c ∈ cells j → i = j

namespace Family

variable {head : ι → Option κ} {cells : ι → List κ} {i : ι}

theorem nil (next : κ → Option κ) : Family next (fun _ : ι => none) fun _ => [] :=
  ⟨fun _ => rfl, fun _ _ _ h => absurd h List.not_mem_nil⟩

variable [DecidableEq ι]

/-- A new chain without cells. -/
theorem create (h : Family next head cells) (hi : cells i = []) :
    Family next (Function.update head i none) cells := by
  refine ⟨fun j => ?_, h.apart⟩
  by_cases hj : j = i
  · subst hj
    rw [Function.update_self, hi]
    rfl
  · rw [Function.update_of_ne hj]
    exact h.chain j

/-- A chain gets new cells that no other chain has. -/
theorem apart_update (h : Family next head cells) (hc : ∀ j ≠ i, ∀ c ∈ cs, c ∉ cells j) (a b : ι)
    (c : κ) (ha : c ∈ Function.update cells i cs a) (hb : c ∈ Function.update cells i cs b) :
    a = b := by
  by_cases hai : a = i
  · subst hai
    by_cases hba : b = a
    · exact hba.symm
    · rw [Function.update_self] at ha
      rw [Function.update_of_ne hba] at hb
      exact absurd hb (hc b hba c ha)
  · rw [Function.update_of_ne hai] at ha
    by_cases hbi : b = i
    · subst hbi
      rw [Function.update_self] at hb
      exact absurd ha (hc a hai c hb)
    · rw [Function.update_of_ne hbi] at hb
      exact h.apart a b c ha hb

/-- The head passes the first cell by. -/
theorem unlinkFirst (h : Family next head cells) (hi : cells i = c :: cs) :
    Family next (Function.update head i (next c)) (Function.update cells i cs) := by
  refine ⟨fun j => ?_, h.apart_update fun j hj c' hc' hm => ?_⟩
  · by_cases hj : j = i
    · subst hj
      rw [Function.update_self, Function.update_self]
      exact (hi ▸ h.chain j : Chain next (head j) (c :: cs)).2
    · rw [Function.update_of_ne hj, Function.update_of_ne hj]
      exact h.chain j
  · exact hj (h.apart j i c' hm (by simp [hi, hc']))

variable [DecidableEq κ]

/-- The first cell of a chain that has none. -/
theorem first (h : Family next head cells) (hi : cells i = []) (hc : ∀ j, c ∉ cells j) :
    Family (Function.update next c none) (Function.update head i (some c))
      (Function.update cells i [c]) := by
  refine ⟨fun j => ?_, h.apart_update fun j _ c' hc' => ?_⟩
  · by_cases hj : j = i
    · subst hj
      rw [Function.update_self, Function.update_self]
      exact ⟨rfl, Function.update_self ..⟩
    · rw [Function.update_of_ne hj, Function.update_of_ne hj]
      exact (h.chain j).update_of_notMem (hc j) none
  · obtain rfl := List.mem_singleton.mp hc'
    exact hc j

/-- One more cell before the first one. -/
theorem push (h : Family next head cells) (i : ι) (hc : ∀ j, c ∉ cells j) :
    Family (Function.update next c (head i)) (Function.update head i (some c))
      (Function.update cells i (c :: cells i)) := by
  refine ⟨fun j => ?_, h.apart_update fun j hj c' hc' hm => ?_⟩
  · by_cases hj : j = i
    · subst hj
      rw [Function.update_self, Function.update_self]
      exact (h.chain j).cons (hc j)
    · rw [Function.update_of_ne hj, Function.update_of_ne hj]
      exact (h.chain j).update_of_notMem (hc j) _
  · rcases List.mem_cons.mp hc' with rfl | hc'
    · exact hc j hm
    · exact hj (h.apart j i c' hm hc')

/-- One more cell behind the last one. -/
theorem grow (h : Family next head cells) (hi : cells i = cs ++ [l]) (hc : ∀ j, c ∉ cells j) :
    Family (Function.update (Function.update next c none) l (some c)) head
      (Function.update cells i (cs ++ [l, c])) := by
  have hl : l ∈ cells i := by simp [hi]
  refine ⟨fun j => ?_, h.apart_update fun j hj c' hc' => ?_⟩
  · by_cases hj : j = i
    · subst hj
      rw [Function.update_self]
      exact (hi ▸ h.chain j : Chain next (head j) (cs ++ [l])).insert (hi ▸ hc j)
    · rw [Function.update_of_ne hj]
      refine ((h.chain j).update_of_notMem (hc j) none).update_of_notMem (fun hm => ?_) _
      exact hj (h.apart j i l hm hl)
  · rw [List.mem_append, List.mem_cons, List.mem_singleton] at hc'
    rcases hc' with hm | rfl | rfl
    · exact fun hm' => hj (h.apart j i c' hm' (by simp [hi, hm]))
    · exact fun hm' => hj (h.apart j i c' hm' hl)
    · exact hc j

/-- The first cell goes. -/
theorem shrink (h : Family next head cells) (hi : cells i = c :: cs) :
    Family (Function.update next c none) (Function.update head i (next c))
      (Function.update cells i cs) := by
  have hchain : Chain next (head i) (c :: cs) := hi ▸ h.chain i
  have hc : c ∈ cells i := by simp [hi]
  refine ⟨fun j => ?_, h.apart_update fun j hj c' hc' hm => ?_⟩
  · by_cases hj : j = i
    · subst hj
      rw [Function.update_self, Function.update_self]
      exact hchain.2.update_of_notMem (List.nodup_cons.mp hchain.nodup).1 none
    · rw [Function.update_of_ne hj, Function.update_of_ne hj]
      exact (h.chain j).update_of_notMem (fun hm => hj (h.apart j i c hm hc)) none
  · exact hj (h.apart j i c' hm (by simp [hi, hc']))

/-- A cell passes the next one by. -/
theorem unlink {as bs : List κ} {a : κ} (h : Family next head cells)
    (hi : cells i = as ++ a :: c :: bs) :
    Family (Function.update next a (next c)) head (Function.update cells i (as ++ a :: bs)) := by
  refine ⟨fun j => ?_, h.apart_update fun j hj c' hc' hm => ?_⟩
  · by_cases hj : j = i
    · subst hj
      rw [Function.update_self]
      exact (hi ▸ h.chain j : Chain next (head j) _).unlink
    · rw [Function.update_of_ne hj]
      exact (h.chain j).update_of_notMem (fun hm => hj (h.apart j i a hm (by simp [hi]))) _
  · refine hj (h.apart j i c' hm ?_)
    rw [hi]
    rcases List.mem_append.mp hc' with hc' | hc'
    · exact List.mem_append_left _ hc'
    · rcases List.mem_cons.mp hc' with rfl | hc' <;> simp [*]

end Family

end LinkedCells
