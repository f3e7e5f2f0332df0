import ThreadScheduler.SthreadLib.RedBlackQueue

/-!
# The elements of a tree

What holds of a tree whatever its keys: the nodes with an element are the nodes of the tree, and
`minimo` is one of them or the sentinel. Insertion adds an element, extraction and removal take
one away.
-/
namespace ThreadScheduler.SthreadLib

open PointerTree RedBlack ArvoreRB

variable {α : Type*}

/-- The elements in order. -/
def elementos (a : ArvoreRB α) : List α := (emOrdem a).filterMap a.elem

/-- Nodes hold an element as long as they are in the tree. -/
def SacoRB (a : ArvoreRB α) : Prop :=
  ∃ t, Arvore a t ∧ (∀ m, a.minimo = some m → m = raiz ∨ m ∈ t.toList) ∧
    ∀ p, (a.elem p).isSome ↔ p ∈ t.toList

namespace SacoRB

variable {a : ArvoreRB α}

theorem nova : SacoRB (rbNovaArvore : ArvoreRB α) :=
  ⟨.nil, rbNovaArvore_arvore, fun _ hm => absurd hm (by simp [rbNovaArvore]),
    fun p => by simp [rbNovaArvore]⟩

theorem isSome_iff (h : SacoRB a) (p : ℕ) : (a.elem p).isSome ↔ p ∈ emOrdem a := by
  obtain ⟨t, ht, -, helem⟩ := h
  rw [ht.emOrdem_eq, helem]

theorem vazia_iff (h : SacoRB a) : rbArvoreVazia a = true ↔ elementos a = [] := by
  obtain ⟨t, ht, -, helem⟩ := h
  rw [ht.vazia_iff, elementos, ht.emOrdem_eq, List.filterMap_eq_nil_iff]
  constructor
  · intro hnil p hp
    simp [hnil] at hp
  · intro hall
    refine List.eq_nil_iff_forall_not_mem.mpr fun p hp => ?_
    have hsome := (helem p).mpr hp
    rw [hall p hp] at hsome
    exact Bool.noConfusion hsome

theorem inserir (h : SacoRB a) (k tid : ℤ) (e : α) :
    SacoRB (rbInserirNo a k tid e) ∧
      (elementos (rbInserirNo a k tid e)).Perm (e :: elementos a) := by
  obtain ⟨t, ht, hmin, helem⟩ := h
  have hraiz : raiz ≠ a.prox := Nat.ne_of_lt ht.reservado
  have hfresh : ∀ m, a.minimo = some m → m ≠ a.prox := by
    rintro m hm rfl
    exact (hmin _ hm).elim (fun he => hraiz he.symm) ht.prox_notMem
  obtain ⟨t', fs, hfill, -, ht', hlist, -, helem', -, -, hminimo⟩ := ht.inserir hfresh k e tid
  have hl : t.toList = before fs ++ behind fs := by
    rw [← hfill, toList_fill]
    simp
  have hmem : ∀ p, p ∈ t'.toList ↔ p = a.prox ∨ p ∈ t.toList := by
    intro p
    rw [hlist, hl]
    simp only [List.mem_append, List.mem_cons]
    exact or_left_comm
  refine ⟨⟨t', ht', fun m hm => ?_, fun p => ?_⟩, ?_⟩
  · rw [hminimo, novoMinimo] at hm
    rw [hmem]
    split at hm
    · exact .inr (.inl (Option.some.inj hm).symm)
    · split at hm
      · exact .inr (.inl (Option.some.inj hm).symm)
      · rename_i m' hm' _
        obtain rfl := Option.some.inj hm
        exact (hmin _ hm').imp_right .inr
  · rw [helem', hmem, Function.update_apply]
    split
    · rename_i he
      exact iff_of_true rfl (.inl he)
    · rename_i hne
      rw [helem, or_iff_right hne]
  · have hkeep : t.toList.filterMap (rbInserirNo a k tid e).elem = t.toList.filterMap a.elem := by
      refine List.filterMap_congr fun p hp => ?_
      rw [helem', Function.update_of_ne]
      rintro rfl
      exact ht.prox_notMem hp
    have hperm : t'.toList.Perm (a.prox :: t.toList) := by
      rw [hlist, hl]
      exact List.perm_middle
    rw [elementos, ht'.emOrdem_eq, elementos, ht.emOrdem_eq, ← hkeep]
    refine (hperm.filterMap _).trans (List.Perm.of_eq ?_)
    rw [List.filterMap_cons, helem', Function.update_self]

theorem inserir_cheia (h : SacoRB a) (k tid : ℤ) (e : α) :
    elementos (rbInserirNo a k tid e) ≠ [] := by
  intro hnil
  have hperm := (h.inserir k tid e).2
  rw [hnil] at hperm
  exact List.cons_ne_nil e _ hperm.nil_eq.symm

/-- A node is taken out with its element. -/
theorem remover (h : SacoRB a) {z : ℕ} {e : α} (hz : a.elem z = some e) :
    SacoRB (rbRemoverNo (a.setElem z none) z) ∧
      (elementos a).Perm (e :: elementos (rbRemoverNo (a.setElem z none) z)) := by
  obtain ⟨t, ht, hmin, helem⟩ := h
  have hmem : z ∈ t.toList := (helem z).mp (by rw [hz]; rfl)
  have hset : Arvore (a.setElem z none) t :=
    ⟨ht.focus, ⟨ht.sentinelas.nil, ht.sentinelas.raiz⟩, ht.balanced, ht.alocado, ht.reservado,
      ht.chave_raiz⟩
  obtain ⟨t', ht', hlist, -, helem', -, -, hmin', -⟩ := hset.remover hmem
  have helem' : (rbRemoverNo (a.setElem z none) z).elem = Function.update a.elem z none := helem'
  have hnot : z ∉ t'.toList := by
    rw [hlist]
    exact ht.nodup.not_mem_erase
  refine ⟨⟨t', ht', fun m hm => ?_, fun p => ?_⟩, ?_⟩
  · rcases hmin' m hm with hr | hm' | ⟨hm', hne⟩
    · exact .inl hr
    · exact .inr hm'
    · refine (hmin m hm').imp_right fun hm'' => ?_
      rw [hlist, List.mem_erase_of_ne hne]
      exact hm''
  · rw [helem', Function.update_apply]
    split
    · rename_i he
      rw [he]
      exact iff_of_false (by simp) hnot
    · rename_i hne
      rw [helem, hlist, List.mem_erase_of_ne hne]
  · have hkeep : t'.toList.filterMap (rbRemoverNo (a.setElem z none) z).elem =
        t'.toList.filterMap a.elem := by
      refine List.filterMap_congr fun p hp => ?_
      rw [helem', Function.update_of_ne]
      rintro rfl
      exact hnot hp
    rw [elementos, ht.emOrdem_eq, elementos, ht'.emOrdem_eq, hkeep, hlist]
    refine ((List.perm_cons_erase hmem).filterMap _).trans (List.Perm.of_eq ?_)
    rw [List.filterMap_cons, hz]

/-- `RBExtraiMininimo` takes out the element that it returns. -/
theorem extrair (h : SacoRB a) {a' : ArvoreRB α} {e : α}
    (he : rbExtraiMininimo a = (a', some e)) :
    SacoRB a' ∧ (elementos a).Perm (e :: elementos a') := by
  rw [rbExtraiMininimo] at he
  split at he
  · simp at he
  · obtain ⟨rfl, hm⟩ := Prod.mk.inj he
    exact h.remover hm

end SacoRB

end ThreadScheduler.SthreadLib
