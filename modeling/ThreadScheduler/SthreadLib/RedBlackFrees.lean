import ThreadScheduler.Lib.TreeSearch
import ThreadScheduler.SthreadLib.RedBlackQueue

/-!
# What the tree frees

A node is freed by the call that removes it, the others and the sentinels by
`RBarvoreDestroy`. The addresses freed are kept in a list, and a read or a second `free` of
one of them stops the run.
-/
namespace ThreadScheduler.SthreadLib

open PointerTree RedBlack ArvoreRB

variable {α : Type*}

/-- `DestroiArvoreAux` of the node `x`: the addresses freed by then. -/
def destroiArvoreAux (a : ArvoreRB α) : ℕ → List ℕ → ℕ → Option (List ℕ)
  | 0, _, _ => none
  | n + 1, livres, x =>
      if x = nil then some livres
      else if x ∈ livres then none
      else
        (destroiArvoreAux a n livres (a.esq x)).bind fun livres =>
          if x ∈ livres then none
          else
            (destroiArvoreAux a n livres (a.dir x)).bind fun livres =>
              if x ∈ livres then none else some (x :: livres)

/-- `RBarvoreDestroy`. -/
def rbArvoreDestroy (a : ArvoreRB α) (livres : List ℕ) : Option (List ℕ) :=
  if raiz ∈ livres then none
  else
    (destroiArvoreAux a (a.prox + 1) livres (a.esq raiz)).bind fun livres =>
      if raiz ∈ livres then none
      else if nil ∈ raiz :: livres then none
      else some (nil :: raiz :: livres)

/-- The node that a call frees. -/
def libertado (a : ArvoreRB α) : PedidoRB α → Option ℕ
  | .inserir _ _ _ => none
  | .extrair => a.minimo
  | .remover no => some no

/-- A tree with the addresses it has freed. -/
structure MemoriaRB (α : Type*) where
  arvore : ArvoreRB α
  livres : List ℕ

namespace MemoriaRB

/-- A call, which must not free an address again. -/
def executar (m : MemoriaRB α) (p : PedidoRB α) : Option (MemoriaRB α × Option α) :=
  (SthreadLib.executar m.arvore p).bind fun r =>
    match libertado m.arvore p with
    | none => some (⟨r.1, m.livres⟩, r.2)
    | some no => if no ∈ m.livres then none else some (⟨r.1, no :: m.livres⟩, r.2)

/-- Every address given out has been freed or is in the tree, and none is both. -/
structure Contada (m : MemoriaRB α) (l : List ℕ) : Prop where
  fila : FilaRB m.arvore l
  perm : (m.livres ++ nil :: raiz :: l).Perm (List.range m.arvore.prox)

variable {m : MemoriaRB α} {l : List ℕ}

theorem Contada.nodup (h : Contada m l) : (m.livres ++ nil :: raiz :: l).Nodup :=
  h.perm.nodup_iff.mpr List.nodup_range

theorem Contada.notMem (h : Contada m l) {p : ℕ} (hp : p ∈ nil :: raiz :: l) : p ∉ m.livres :=
  fun hm => (List.nodup_append.mp h.nodup).2.2 p hm p hp rfl

theorem contada_nova : Contada (⟨rbNovaArvore, []⟩ : MemoriaRB α) [] :=
  ⟨FilaRB.nova, List.Perm.refl _⟩

/-- An address that leaves the tree is freed. -/
theorem Contada.perm_erase (h : Contada m l) {no : ℕ} (hno : no ∈ l) :
    (no :: m.livres ++ nil :: raiz :: l.erase no).Perm (List.range m.arvore.prox) := by
  have hout : (nil :: raiz :: l).Perm (no :: nil :: raiz :: l.erase no) := by
    have hmove : ([nil, raiz] ++ no :: l.erase no).Perm (no :: ([nil, raiz] ++ l.erase no)) :=
      List.perm_middle
    exact (((List.perm_cons_erase hno).cons raiz).cons nil).trans hmove
  refine List.Perm.trans ?_ ((hout.symm.append_left m.livres).trans h.perm)
  exact List.perm_middle.symm

/-- A permitted call frees no address again and loses none. -/
theorem Contada.executar (h : Contada m l) (p : PedidoRB α) (hp : Permitido m.arvore p) :
    ∃ m' l' r, SthreadLib.executar m.arvore p = some (m'.arvore, r) ∧
      m.executar p = some (m', r) ∧ Contada m' l' := by
  have hord := h.fila.emOrdem_eq
  cases p with
  | inserir k tid e =>
      obtain ⟨l₁, l₂, rfl, hfila, -, -, -, -, -, hprox⟩ := h.fila.inserir hp tid e
      refine ⟨⟨rbInserirNo m.arvore k tid e, m.livres⟩, _, _, rfl, rfl, hfila, ?_⟩
      show (m.livres ++ nil :: raiz :: (l₁ ++ m.arvore.prox :: l₂)).Perm _
      have hnew : (m.livres ++ nil :: raiz :: (l₁ ++ m.arvore.prox :: l₂)).Perm
          (m.arvore.prox :: (m.livres ++ nil :: raiz :: (l₁ ++ l₂))) := by
        have hmove : ((m.livres ++ nil :: raiz :: l₁) ++ m.arvore.prox :: l₂).Perm
            (m.arvore.prox :: ((m.livres ++ nil :: raiz :: l₁) ++ l₂)) := List.perm_middle
        simpa using hmove
      rw [hprox, List.range_succ]
      exact (hnew.trans (h.perm.cons _)).trans (List.perm_append_singleton _ _).symm
  | extrair =>
      rw [Permitido, hord] at hp
      obtain ⟨no, l', rfl⟩ := List.exists_cons_of_ne_nil hp
      obtain ⟨-, hfila, -, -, -, hprox⟩ := h.fila.extrair rfl
      have hnot := h.notMem (p := no) (by simp)
      have hperm := h.perm_erase (show no ∈ no :: l' from List.mem_cons_self)
      rw [List.erase_cons_head, ← hprox] at hperm
      refine ⟨⟨(rbExtraiMininimo m.arvore).1, no :: m.livres⟩, l', (rbExtraiMininimo m.arvore).2,
        rfl, ?_, hfila, hperm⟩
      rw [MemoriaRB.executar, SthreadLib.executar, Option.bind_some, libertado,
        h.fila.minimo rfl]
      exact if_neg hnot
  | remover no =>
      rw [Permitido, hord] at hp
      obtain ⟨hfila, -, -, -, hprox⟩ := h.fila.remover hp
      have hperm := h.perm_erase hp
      rw [← hprox] at hperm
      refine ⟨⟨rbRemoverNo m.arvore no, no :: m.livres⟩, _, _, rfl, ?_, hfila, hperm⟩
      rw [MemoriaRB.executar, SthreadLib.executar, Option.bind_some, libertado]
      exact if_neg (h.notMem (by simp [hp]))

/-- The nodes under a pointer are freed from the leaves up, and none is read once it is free. -/
theorem destroiArvoreAux_eq {a : ArvoreRB α} {t : Shape ℕ} {x par n : ℕ} {livres : List ℕ}
    (h : Linked a.toLinks nil t x par) (hnil : nil ∉ t.toList) (hnd : t.toList.Nodup)
    (hfree : ∀ p ∈ t.toList, p ∉ livres) (hn : t.height < n) :
    ∃ novos, destroiArvoreAux a n livres x = some (novos ++ livres) ∧ novos.Perm t.toList := by
  induction t generalizing x par n livres with
  | nil =>
      obtain rfl : x = nil := h
      obtain ⟨n, rfl⟩ : ∃ i, n = i + 1 := ⟨n - 1, by omega⟩
      exact ⟨[], by rw [destroiArvoreAux, if_pos rfl]; rfl, List.Perm.refl _⟩
  | node p l r ihl ihr =>
      obtain ⟨rfl, -, hll, hlr⟩ := h
      have hleft := Shape.height_left_lt x l r
      have hright := Shape.height_right_lt x l r
      obtain ⟨n, rfl⟩ : ∃ i, n = i + 1 := ⟨n - 1, by omega⟩
      simp only [Shape.toList_node, List.mem_append, List.mem_cons, not_or] at hnil hfree
      rw [Shape.toList_node, List.nodup_append, List.nodup_cons] at hnd
      obtain ⟨hndl, ⟨hxr, hndr⟩, hdis⟩ := hnd
      have hxl : x ∉ l.toList := fun hm => hdis x hm x List.mem_cons_self rfl
      have hx : x ∉ livres := hfree x (.inr (.inl rfl))
      obtain ⟨n₁, hn₁, hperm₁⟩ := ihl (n := n) hll hnil.1 hndl
        (fun q hq => hfree q (.inl hq)) (by omega)
      have hx₁ : x ∉ n₁ ++ livres := by
        rw [List.mem_append, hperm₁.mem_iff, not_or]
        exact ⟨hxl, hx⟩
      have hfree₁ : ∀ q ∈ r.toList, q ∉ n₁ ++ livres := by
        intro q hq
        rw [List.mem_append, hperm₁.mem_iff, not_or]
        exact ⟨fun hm => hdis q hm q (List.mem_cons_of_mem _ hq) rfl, hfree q (.inr (.inr hq))⟩
      obtain ⟨n₂, hn₂, hperm₂⟩ := ihr (n := n) hlr hnil.2.2 hndr hfree₁ (by omega)
      have hx₂ : x ∉ n₂ ++ (n₁ ++ livres) := by
        rw [List.mem_append, hperm₂.mem_iff, not_or]
        exact ⟨hxr, hx₁⟩
      refine ⟨x :: (n₂ ++ n₁), ?_, ?_⟩
      · have hn₁ : destroiArvoreAux a n livres (a.esq x) = some (n₁ ++ livres) := hn₁
        have hn₂ : destroiArvoreAux a n (n₁ ++ livres) (a.dir x) =
          some (n₂ ++ (n₁ ++ livres)) := hn₂
        rw [destroiArvoreAux, if_neg fun he => hnil.2.1 he.symm, if_neg hx, hn₁, Option.bind_some,
          if_neg hx₁, hn₂, Option.bind_some, if_neg hx₂, List.cons_append, List.append_assoc]
      · rw [Shape.toList_node]
        refine ((List.perm_append_comm.trans (hperm₁.append hperm₂)).cons x).trans ?_
        exact List.perm_middle.symm

/-- `RBarvoreDestroy` frees what is left, once. -/
theorem Contada.destroy (h : Contada m l) :
    ∃ livres, rbArvoreDestroy m.arvore m.livres = some livres ∧
      livres.Perm (List.range m.arvore.prox) := by
  have hnd := h.nodup
  have hperm := h.perm
  have hraiz := h.notMem (p := raiz) (by simp)
  have hnil := h.notMem (p := nil) (by simp)
  have hin : ∀ p ∈ l, p ∉ m.livres := fun p hp => h.notMem (by simp [hp])
  obtain ⟨⟨t, ht, -, -, rfl⟩, -⟩ := h
  obtain ⟨novos, hd, hnovos⟩ := destroiArvoreAux_eq (n := m.arvore.prox + 1) ht.focus.inside
    (fun hm => ht.ne_nil hm rfl) ht.nodup hin
    (Nat.lt_succ_of_le (t.height_le_length.trans ht.length_le))
  have hout : ∀ p, p ∉ m.livres → p ∉ t.toList → p ∉ novos ++ m.livres := by
    intro p hp hpt
    rw [List.mem_append, hnovos.mem_iff, not_or]
    exact ⟨hpt, hp⟩
  have hnil' : nil ∉ raiz :: (novos ++ m.livres) := by
    rw [List.mem_cons, not_or]
    exact ⟨by decide, hout nil hnil fun hm => ht.ne_nil hm rfl⟩
  refine ⟨nil :: raiz :: (novos ++ m.livres), ?_, List.Perm.trans ?_ hperm⟩
  · rw [rbArvoreDestroy, if_neg hraiz, hd, Option.bind_some,
      if_neg (hout raiz hraiz fun hm => ht.ne_raiz hm rfl), if_neg hnil']
  · have hswap : (nil :: raiz :: (novos ++ m.livres)).Perm
        (m.livres ++ (nil :: raiz :: novos)) := by
      rw [← List.cons_append, ← List.cons_append]
      exact List.perm_append_comm
    exact hswap.trans (((hnovos.cons raiz).cons nil).append_left _)

/-- From the new tree to `RBarvoreDestroy`, every address given out is freed once. -/
theorem libertados_after_run (pedidos : List (PedidoRB α))
    (hP : Runs.Permitted SthreadLib.executar Permitido rbNovaArvore pedidos) :
    ∃ m os livres, Runs.run SthreadLib.executar rbNovaArvore pedidos = some (m.arvore, os) ∧
      Runs.run executar ⟨rbNovaArvore, []⟩ pedidos = some (m, os) ∧
      rbArvoreDestroy m.arvore m.livres = some livres ∧
      livres.Perm (List.range m.arvore.prox) := by
  have hstep : ∀ (a : ArvoreRB α) (m : MemoriaRB α) (p : PedidoRB α),
      (m.arvore = a ∧ ∃ l, Contada m l) → Permitido a p →
      ∃ a' m' r, SthreadLib.executar a p = some (a', r) ∧ m.executar p = some (m', r) ∧
        m'.arvore = a' ∧ ∃ l, Contada m' l := by
    rintro a m p ⟨rfl, l, hm⟩ hp
    obtain ⟨m', l', r, ha, hr, hm'⟩ := hm.executar p hp
    exact ⟨_, m', r, ha, hr, rfl, l', hm'⟩
  obtain ⟨a, m, os, ha, hm, rfl, l, hcont⟩ :=
    Runs.run_simulates hstep ⟨rfl, _, contada_nova⟩ hP
  obtain ⟨livres, hd, hperm⟩ := hcont.destroy
  exact ⟨m, os, livres, ha, hm, hd, hperm⟩

theorem libertados_after_run_exemplo :
    ∃ m os livres, Runs.run SthreadLib.executar rbNovaArvore pedidosExemplo =
        some (m.arvore, os) ∧
      Runs.run executar ⟨rbNovaArvore, []⟩ pedidosExemplo = some (m, os) ∧
      rbArvoreDestroy m.arvore m.livres = some livres ∧
      livres.Perm (List.range m.arvore.prox) :=
  libertados_after_run pedidosExemplo pedidosExemplo_permitidos

end MemoriaRB

end ThreadScheduler.SthreadLib
