import ThreadScheduler.SthreadLib.RedBlackLinks
import Mathlib.Data.List.Perm.Subperm

/-!
# The tree in memory

`Arvore` says which tree of addresses the pointers of an `ArvoreRB` spell out, with its
balance. The order of the keys and the place of `minimo` are kept apart: the first holds for
keys that are not negative, the second wherever the least node is the one removed first.
-/
namespace ThreadScheduler.SthreadLib

open PointerTree RedBlack ArvoreRB

variable {α : Type*}

/-- The colours that the code takes for granted. -/
structure Sentinelas (a : ArvoreRB α) : Prop where
  nil : a.cor nil = .black
  raiz : a.cor raiz = .black

theorem Sentinelas.setCor {a : ArvoreRB α} (h : Sentinelas a) {p : ℕ} (hn : p ≠ SthreadLib.nil)
    (hr : p ≠ SthreadLib.raiz) (c : Color) : Sentinelas (a.setCor p c) := by
  refine ⟨?_, ?_⟩
  · rw [setCor_cor, if_neg hn.symm, h.nil]
  · rw [setCor_cor, if_neg hr.symm, h.raiz]

/-- The pointers spell out the balanced tree `t`, among the addresses given out. -/
structure Arvore (a : ArvoreRB α) (t : Shape ℕ) : Prop where
  focus : Focus a.toLinks nil raiz t [] (a.esq raiz)
  sentinelas : Sentinelas a
  balanced : ∃ n, Balanced a.cor t .black n
  alocado : ∀ p ∈ t.toList, p < a.prox
  reservado : 2 ≤ a.prox
  chave_raiz : a.chave raiz = -1

/-- The keys do not decrease from left to right, and -1 is none of them. -/
structure Ordenada (a : ArvoreRB α) (t : Shape ℕ) : Prop where
  crescente : (t.toList.map a.chave).Pairwise (· ≤ ·)
  naoNegativa : ∀ p ∈ t.toList, 0 ≤ a.chave p

/-- `minimo` is the leftmost node. In an empty tree it is `NULL` or, once a node has been
removed, the sentinel. -/
def MinimoCerto (a : ArvoreRB α) (t : Shape ℕ) : Prop :=
  a.minimo = t.toList.head? ∨ (t.toList = [] ∧ a.minimo = some raiz)

namespace Arvore

variable {a : ArvoreRB α} {t : Shape ℕ}

theorem nodup (h : Arvore a t) : t.toList.Nodup := h.focus.nodup_focus

theorem ne_nil (h : Arvore a t) {p : ℕ} (hp : p ∈ t.toList) : p ≠ nil := h.focus.ne_nil hp

theorem ne_raiz (h : Arvore a t) {p : ℕ} (hp : p ∈ t.toList) : p ≠ raiz := h.focus.ne_top hp

/-- A tree has no more nodes than addresses given out, the fuel of the loops. -/
theorem length_le (h : Arvore a t) : t.toList.length ≤ a.prox := by
  have hsub : t.toList ⊆ List.range a.prox := fun p hp => List.mem_range.mpr (h.alocado p hp)
  simpa using (h.nodup.subperm hsub).length_le

theorem prox_notMem (h : Arvore a t) : a.prox ∉ t.toList :=
  fun hm => Nat.lt_irrefl _ (h.alocado _ hm)

/-- `RBArvoreVazia` tells whether there are nodes. -/
theorem vazia_iff (h : Arvore a t) : rbArvoreVazia a = true ↔ t.toList = [] := by
  rw [rbArvoreVazia, decide_eq_true_iff]
  constructor
  · intro he
    cases t with
    | nil => rfl
    | node p l r =>
        have hp : a.esq raiz = p := h.focus.inside.1
        exact absurd (hp.symm.trans he) (h.ne_nil (by simp))
  · intro he
    cases t with
    | nil => exact h.focus.inside
    | node p l r => simp at he

end Arvore

theorem rbNovaArvore_arvore : Arvore (rbNovaArvore : ArvoreRB α) .nil where
  focus := ⟨rfl, rfl, by simp [around, before, behind], by simp [around, before, behind],
    by simp [around, before, behind]⟩
  sentinelas := ⟨rfl, rfl⟩
  balanced := ⟨0, .nil⟩
  alocado := by simp
  reservado := Nat.le_refl _
  chave_raiz := rfl

theorem rbNovaArvore_ordenada : Ordenada (rbNovaArvore : ArvoreRB α) .nil :=
  ⟨List.Pairwise.nil, by simp⟩

theorem rbNovaArvore_minimo : MinimoCerto (rbNovaArvore : ArvoreRB α) .nil := .inl rfl

end ThreadScheduler.SthreadLib
