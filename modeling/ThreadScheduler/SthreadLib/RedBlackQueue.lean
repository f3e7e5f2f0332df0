import ThreadScheduler.Lib.Runs
import ThreadScheduler.SthreadLib.RedBlackRemove

/-!
# The tree as a stable queue

`FilaRB` lists the nodes of a tree in order. Insertion, removal and extraction act on that
list, and a list of entries is a model of all runs.
-/
namespace ThreadScheduler.SthreadLib

open PointerTree RedBlack ArvoreRB

variable {α : Type*}

/-- The nodes of the tree in order, the least key first. -/
def FilaRB (a : ArvoreRB α) (l : List ℕ) : Prop :=
  ∃ t, Arvore a t ∧ Ordenada a t ∧ MinimoCerto a t ∧ t.toList = l

namespace FilaRB

variable {a : ArvoreRB α} {l : List ℕ}

theorem nova : FilaRB (rbNovaArvore : ArvoreRB α) [] :=
  ⟨.nil, rbNovaArvore_arvore, rbNovaArvore_ordenada, rbNovaArvore_minimo, rfl⟩

theorem nodup (h : FilaRB a l) : l.Nodup := by
  obtain ⟨t, ht, -, -, rfl⟩ := h
  exact ht.nodup

theorem crescente (h : FilaRB a l) : (l.map a.chave).Pairwise (· ≤ ·) := by
  obtain ⟨t, -, ht, -, rfl⟩ := h
  exact ht.crescente

theorem naoNegativa (h : FilaRB a l) {p : ℕ} (hp : p ∈ l) : 0 ≤ a.chave p := by
  obtain ⟨t, -, ht, -, rfl⟩ := h
  exact ht.naoNegativa p hp

theorem alocado (h : FilaRB a l) {p : ℕ} (hp : p ∈ l) : p < a.prox := by
  obtain ⟨t, ht, -, -, rfl⟩ := h
  exact ht.alocado p hp

theorem vazia_iff (h : FilaRB a l) : rbArvoreVazia a = true ↔ l = [] := by
  obtain ⟨t, ht, -, -, rfl⟩ := h
  exact ht.vazia_iff

theorem minimo (h : FilaRB a l) {p : ℕ} {l' : List ℕ} (hl : l = p :: l') :
    a.minimo = some p := by
  obtain ⟨t, -, -, hmin, rfl⟩ := h
  rcases hmin with he | ⟨hnil, -⟩
  · rw [he, hl]
    rfl
  · rw [hl] at hnil
    simp at hnil

/-- `RBMenorChave` is the key of the first node. -/
theorem menorChave (h : FilaRB a l) {p : ℕ} {l' : List ℕ} (hl : l = p :: l') :
    rbMenorChave a = a.chave p := by
  rw [rbMenorChave, h.minimo hl]

/-- `RBInserirNo` places the new node behind all nodes of the same key. -/
theorem inserir (h : FilaRB a l) {k : ℤ} (hk : 0 ≤ k) (tid : ℤ) (e : α) :
    ∃ l₁ l₂, l = l₁ ++ l₂ ∧ FilaRB (rbInserirNo a k tid e) (l₁ ++ a.prox :: l₂) ∧
      (∀ p ∈ l₁, a.chave p ≤ k) ∧ (∀ p ∈ l₂, k < a.chave p) ∧
      (rbInserirNo a k tid e).chave = Function.update a.chave a.prox k ∧
      (rbInserirNo a k tid e).elem = Function.update a.elem a.prox (some e) ∧
      (rbInserirNo a k tid e).tid = Function.update a.tid a.prox tid ∧
      (rbInserirNo a k tid e).prox = a.prox + 1 := by
  obtain ⟨t, ht, hord, hmin, rfl⟩ := h
  have hraiz : raiz ≠ a.prox := Nat.ne_of_lt ht.reservado
  have hfresh : ∀ m, a.minimo = some m → m ≠ a.prox := by
    rintro m hm rfl
    rcases hmin with he | ⟨-, he⟩
    · exact ht.prox_notMem (List.mem_of_mem_head? (he ▸ hm))
    · exact hraiz (Option.some.inj (he.symm.trans hm))
  obtain ⟨t', fs, hfill, hpath, ht', hlist, hkey, helem, htid, hprox, hminimo⟩ :=
    ht.inserir hfresh k e tid
  have hl : t.toList = before fs ++ behind fs := by
    rw [← hfill, toList_fill]
    simp
  have hnon : ∀ p ∈ around fs, 0 ≤ a.chave p := fun p hp => hord.naoNegativa p (hl ▸ hp)
  obtain ⟨hbefore, hbehind⟩ := hpath.separa hnon (hl ▸ hord.crescente)
  have hkeep : ∀ p ∈ t.toList, Function.update a.chave a.prox k p = a.chave p := by
    intro p hp
    refine Function.update_of_ne ?_ ..
    rintro rfl
    exact ht.prox_notMem hp
  have hnew : Function.update a.chave a.prox k a.prox = k := Function.update_self ..
  have hmapb : (before fs).map (rbInserirNo a k tid e).chave = (before fs).map a.chave := by
    rw [hkey]
    exact List.map_congr_left fun p hp => hkeep p (by simp [hl, hp])
  have hmapa : (behind fs).map (rbInserirNo a k tid e).chave = (behind fs).map a.chave := by
    rw [hkey]
    exact List.map_congr_left fun p hp => hkeep p (by simp [hl, hp])
  refine ⟨before fs, behind fs, hl, ⟨t', ht', ⟨?_, ?_⟩, .inl ?_, hlist⟩, hbefore, hbehind, hkey,
    helem, htid, hprox⟩
  · have hcr := hord.crescente
    rw [hl, List.map_append, List.pairwise_append] at hcr
    rw [hlist, List.map_append, List.map_cons, hmapb, hmapa, hkey, hnew, List.pairwise_append,
      List.pairwise_cons]
    refine ⟨hcr.1, ⟨fun x hx => ?_, hcr.2.1⟩, fun x hx y hy => ?_⟩
    · obtain ⟨p, hp, rfl⟩ := List.mem_map.mp hx
      exact Int.le_of_lt (hbehind p hp)
    · obtain ⟨p, hp, rfl⟩ := List.mem_map.mp hx
      rcases List.mem_cons.mp hy with rfl | hy
      · exact hbefore p hp
      · exact hcr.2.2 _ (List.mem_map_of_mem hp) y hy
  · intro p hp
    rw [hlist, List.mem_append, List.mem_cons] at hp
    rw [hkey]
    rcases hp with hp | rfl | hp
    · rw [hkeep p (by simp [hl, hp])]
      exact hnon p (List.mem_append_left _ hp)
    · rwa [hnew]
    · rw [hkeep p (by simp [hl, hp])]
      exact hnon p (List.mem_append_right _ hp)
  · rw [hminimo, hlist, novoMinimo]
    rcases hmin with he | ⟨hnil, he⟩
    · rw [he, hl]
      cases hb : before fs with
      | nil =>
          cases ha : behind fs with
          | nil => rfl
          | cons q l' =>
              have hq : k < a.chave q := hbehind q (by simp [ha])
              have hgt : comparar (a.chave q) k = 1 :=
                (comparar_eq_one (hnon q (by simp [around, ha]))).mpr hq
              simp [hgt]
      | cons q l' =>
          have hq : a.chave q ≤ k := hbefore q (by simp [hb])
          have hle : comparar (a.chave q) k ≠ 1 := fun h1 =>
            absurd ((comparar_eq_one (hnon q (by simp [around, hb]))).mp h1) (Int.not_lt.mpr hq)
          simp [hle]
    · rw [hl, List.append_eq_nil_iff] at hnil
      rw [he, hnil.1]
      simp [comparar, ht.chave_raiz]

/-- `RBRemoverNo` takes the node out. -/
theorem remover (h : FilaRB a l) {z : ℕ} (hz : z ∈ l) :
    FilaRB (rbRemoverNo a z) (l.erase z) ∧ (rbRemoverNo a z).chave = a.chave ∧
      (rbRemoverNo a z).elem = a.elem ∧ (rbRemoverNo a z).tid = a.tid ∧
      (rbRemoverNo a z).prox = a.prox := by
  obtain ⟨t, ht, hord, hmin, rfl⟩ := h
  obtain ⟨t', ht', hlist, hkey, helem, htid, hprox, -, hmin'⟩ := ht.remover hz
  refine ⟨⟨t', ht', ⟨?_, fun p hp => ?_⟩, hmin' hmin, hlist⟩, hkey, helem, htid, hprox⟩
  · rw [hlist, hkey]
    exact hord.crescente.sublist (List.erase_sublist.map _)
  · rw [hkey]
    exact hord.naoNegativa p (List.mem_of_mem_erase (hlist ▸ hp))

theorem setElem (h : FilaRB a l) (p : ℕ) (e : Option α) : FilaRB (a.setElem p e) l := by
  obtain ⟨t, ht, hord, hmin, rfl⟩ := h
  exact ⟨t, ⟨ht.focus, ⟨ht.sentinelas.nil, ht.sentinelas.raiz⟩, ht.balanced, ht.alocado,
    ht.reservado, ht.chave_raiz⟩, ⟨hord.crescente, hord.naoNegativa⟩, hmin, rfl⟩

/-- `RBExtraiMininimo` returns the element of the first node and takes the node out. -/
theorem extrair (h : FilaRB a l) {p : ℕ} {l' : List ℕ} (hl : l = p :: l') :
    (rbExtraiMininimo a).2 = a.elem p ∧ FilaRB (rbExtraiMininimo a).1 l' ∧
      (rbExtraiMininimo a).1.chave = a.chave ∧
      (rbExtraiMininimo a).1.elem = Function.update a.elem p none ∧
      (rbExtraiMininimo a).1.tid = a.tid ∧ (rbExtraiMininimo a).1.prox = a.prox := by
  obtain ⟨hf, hkey, helem, htid, hprox⟩ :=
    (h.setElem p none).remover (show p ∈ l by simp [hl])
  rw [rbExtraiMininimo, h.minimo hl]
  rw [hl, List.erase_cons_head] at hf
  exact ⟨rfl, hf, hkey, helem, htid, hprox⟩

end FilaRB

/-! ## Runs -/

/-- A walk through the nodes in order, as the pointers lead. -/
def emOrdemAux (a : ArvoreRB α) : ℕ → ℕ → List ℕ
  | 0, _ => []
  | n + 1, p =>
      if p = nil then [] else emOrdemAux a n (a.esq p) ++ p :: emOrdemAux a n (a.dir p)

/-- The nodes in order. -/
def emOrdem (a : ArvoreRB α) : List ℕ := emOrdemAux a a.prox (a.esq raiz)

theorem emOrdemAux_eq {a : ArvoreRB α} {t : Shape ℕ} {x par : ℕ} (fuel : ℕ)
    (h : Linked a.toLinks nil t x par) (hnil : nil ∉ t.toList) (hfuel : t.toList.length ≤ fuel) :
    emOrdemAux a fuel x = t.toList := by
  induction t generalizing x par fuel with
  | nil =>
      cases fuel with
      | zero => rfl
      | succ fuel =>
          have hx : x = nil := h
          rw [emOrdemAux, if_pos hx]
          rfl
  | node p l r ihl ihr =>
      obtain ⟨rfl, -, hl, hr⟩ := h
      rw [Shape.toList_node, List.mem_append, List.mem_cons, not_or, not_or] at hnil
      obtain ⟨hnl, hx, hnr⟩ := hnil
      simp only [Shape.toList_node, List.length_append, List.length_cons] at hfuel
      obtain ⟨fuel, rfl⟩ : ∃ n, fuel = n + 1 := ⟨fuel - 1, by omega⟩
      have hleft : emOrdemAux a fuel (a.esq x) = l.toList := ihl fuel hl hnl (by omega)
      have hright : emOrdemAux a fuel (a.dir x) = r.toList := ihr fuel hr hnr (by omega)
      rw [emOrdemAux, if_neg fun he => hx he.symm, hleft, hright, Shape.toList_node]

theorem Arvore.emOrdem_eq {a : ArvoreRB α} {t : Shape ℕ} (h : Arvore a t) :
    emOrdem a = t.toList := by
  refine emOrdemAux_eq a.prox h.focus.inside (fun hm => ?_) h.length_le
  exact h.ne_nil hm rfl

theorem FilaRB.emOrdem_eq {a : ArvoreRB α} {l : List ℕ} (h : FilaRB a l) : emOrdem a = l := by
  obtain ⟨t, ht, -, -, rfl⟩ := h
  exact ht.emOrdem_eq

/-- The keys and the elements in order. -/
def sequencia (a : ArvoreRB α) : List (ℤ × Option α) :=
  (emOrdem a).map fun p => (a.chave p, a.elem p)

/-- A call of `RBInserirNo`, `RBExtraiMininimo` or `RBRemoverNo`. -/
inductive PedidoRB (α : Type*) where
  | inserir (chave tid : ℤ) (elemento : α)
  | extrair
  | remover (no : ℕ)

def executar (a : ArvoreRB α) : PedidoRB α → Option (ArvoreRB α × Option α)
  | .inserir chave tid elemento => some (rbInserirNo a chave tid elemento, none)
  | .extrair => some (rbExtraiMininimo a)
  | .remover no => some (rbRemoverNo a no, none)

/-- Keys that are not negative, extraction from a tree that is not empty, removal of a node of
the tree. -/
def Permitido (a : ArvoreRB α) : PedidoRB α → Prop
  | .inserir chave _ _ => 0 ≤ chave
  | .extrair => emOrdem a ≠ []
  | .remover no => no ∈ emOrdem a

/-- An entry of the list model, known to the caller as `no`. -/
structure Entrada (α : Type*) where
  no : ℕ
  chave : ℤ
  elem : α

/-- The list model, with the next name to give out. -/
structure FilaEstavel (α : Type*) where
  entradas : List (Entrada α)
  prox : ℕ

/-- The new entry goes behind all entries with a key up to its own. -/
def FilaEstavel.inserir (f : FilaEstavel α) (chave : ℤ) (elemento : α) : FilaEstavel α where
  entradas := f.entradas.takeWhile (fun x => x.chave ≤ chave) ++
    ⟨f.prox, chave, elemento⟩ :: f.entradas.dropWhile (fun x => x.chave ≤ chave)
  prox := f.prox + 1

def FilaEstavel.executar (f : FilaEstavel α) : PedidoRB α → Option (FilaEstavel α × Option α)
  | .inserir chave _ elemento => some (f.inserir chave elemento, none)
  | .extrair =>
      match f.entradas with
      | [] => none
      | x :: xs => some (⟨xs, f.prox⟩, some x.elem)
  | .remover no => some (⟨f.entradas.filter (fun x => x.no ≠ no), f.prox⟩, none)

/-- The tree holds the entries of the list, in their order. -/
structure Representa (a : ArvoreRB α) (f : FilaEstavel α) : Prop where
  fila : FilaRB a (f.entradas.map Entrada.no)
  campos : ∀ x ∈ f.entradas, a.chave x.no = x.chave ∧ a.elem x.no = some x.elem
  prox : a.prox = f.prox

namespace Representa

variable {a : ArvoreRB α} {f : FilaEstavel α}

theorem inserir (h : Representa a f) {k : ℤ} (hk : 0 ≤ k) (tid : ℤ) (e : α) :
    Representa (rbInserirNo a k tid e) (f.inserir k e) := by
  obtain ⟨l₁, l₂, hl, hfila, hle, hlt, hkey, helem, -, hprox⟩ := h.fila.inserir hk tid e
  obtain ⟨e₁, e₂, hcut, rfl, rfl⟩ := List.map_eq_append_iff.mp hl
  have hin : ∀ x ∈ e₁, decide (x.chave ≤ k) = true := by
    intro x hx
    have hkx := (h.campos x (by simp [hcut, hx])).1
    rw [decide_eq_true_iff, ← hkx]
    exact hle _ (List.mem_map_of_mem hx)
  have hout : ∀ x ∈ e₂, ¬ decide (x.chave ≤ k) = true := by
    intro x hx
    have hkx := (h.campos x (by simp [hcut, hx])).1
    rw [decide_eq_true_iff, ← hkx, Int.not_le]
    exact hlt _ (List.mem_map_of_mem hx)
  have htake : f.entradas.takeWhile (fun x => x.chave ≤ k) = e₁ := by
    rw [hcut, List.takeWhile_append_of_pos hin]
    cases e₂ with
    | nil => simp
    | cons x xs =>
        have hx := hout x List.mem_cons_self
        rw [List.takeWhile_cons, if_neg hx, List.append_nil]
  have hdrop : f.entradas.dropWhile (fun x => x.chave ≤ k) = e₂ := by
    rw [hcut, List.dropWhile_append_of_pos hin]
    cases e₂ with
    | nil => rfl
    | cons x xs =>
        have hx := hout x List.mem_cons_self
        rw [List.dropWhile_cons, if_neg hx]
  have hentradas : (f.inserir k e).entradas = e₁ ++ ⟨f.prox, k, e⟩ :: e₂ := by
    rw [FilaEstavel.inserir, htake, hdrop]
  refine ⟨?_, fun x hx => ?_, ?_⟩
  · rw [hentradas, List.map_append, List.map_cons, ← h.prox]
    exact hfila
  · rw [hentradas, List.mem_append, List.mem_cons] at hx
    rw [hkey, helem]
    have hold : x ∈ f.entradas → Function.update a.chave a.prox k x.no = x.chave ∧
        Function.update a.elem a.prox (some e) x.no = some x.elem := by
      intro hm
      have hne : x.no ≠ a.prox := Nat.ne_of_lt (h.fila.alocado (List.mem_map_of_mem hm))
      rw [Function.update_of_ne hne, Function.update_of_ne hne]
      exact h.campos x hm
    rcases hx with hx | rfl | hx
    · exact hold (by simp [hcut, hx])
    · rw [← h.prox]
      exact ⟨Function.update_self .., Function.update_self ..⟩
    · exact hold (by simp [hcut, hx])
  · rw [hprox, h.prox]
    rfl

theorem extrair (h : Representa a f) {x : Entrada α} {xs : List (Entrada α)}
    (hf : f.entradas = x :: xs) :
    (rbExtraiMininimo a).2 = some x.elem ∧ Representa (rbExtraiMininimo a).1 ⟨xs, f.prox⟩ := by
  have hl : f.entradas.map Entrada.no = x.no :: xs.map Entrada.no := by rw [hf, List.map_cons]
  obtain ⟨hres, hfila, hkey, helem, -, hprox⟩ := h.fila.extrair hl
  have hnd := h.fila.nodup
  rw [hl, List.nodup_cons] at hnd
  refine ⟨hres.trans (h.campos x (by simp [hf])).2, hfila, fun y hy => ?_, hprox.trans h.prox⟩
  have hne : y.no ≠ x.no := by
    intro he
    exact hnd.1 (he ▸ List.mem_map_of_mem hy)
  rw [hkey, helem, Function.update_of_ne hne]
  exact h.campos y (by rw [hf]; exact List.mem_cons_of_mem _ hy)

theorem remover (h : Representa a f) {no : ℕ} (hno : no ∈ f.entradas.map Entrada.no) :
    Representa (rbRemoverNo a no) ⟨f.entradas.filter (fun x => x.no ≠ no), f.prox⟩ := by
  obtain ⟨hfila, hkey, helem, -, hprox⟩ := h.fila.remover hno
  refine ⟨?_, fun y hy => ?_, hprox.trans h.prox⟩
  · have he : (f.entradas.map Entrada.no).erase no =
        (f.entradas.filter (fun x => x.no ≠ no)).map Entrada.no := by
      rw [h.fila.nodup.erase_eq_filter, List.filter_map]
      refine congrArg _ (List.filter_congr fun x _ => ?_)
      by_cases he : x.no = no <;> simp [he]
    rw [← he]
    exact hfila
  · rw [hkey, helem]
    exact h.campos y (List.mem_filter.mp hy).1

/-- The tree and the list answer every call alike. -/
theorem executar (h : Representa a f) (p : PedidoRB α) (hp : Permitido a p) :
    ∃ a' f' r, SthreadLib.executar a p = some (a', r) ∧ f.executar p = some (f', r) ∧
      Representa a' f' := by
  have hord := h.fila.emOrdem_eq
  cases p with
  | inserir k tid e => exact ⟨_, _, _, rfl, rfl, h.inserir hp tid e⟩
  | extrair =>
      rw [Permitido, hord] at hp
      cases hf : f.entradas with
      | nil => simp [hf] at hp
      | cons x xs =>
          obtain ⟨hres, hrep⟩ := h.extrair hf
          refine ⟨_, ⟨xs, f.prox⟩, some x.elem, ?_, ?_, hrep⟩
          · rw [SthreadLib.executar, ← hres]
          · rw [FilaEstavel.executar, hf]
  | remover no =>
      rw [Permitido, hord] at hp
      exact ⟨_, _, _, rfl, rfl, h.remover hp⟩

theorem sequencia_eq (h : Representa a f) :
    sequencia a = f.entradas.map fun x => (x.chave, some x.elem) := by
  rw [sequencia, h.fila.emOrdem_eq, List.map_map]
  refine List.map_congr_left fun x hx => ?_
  obtain ⟨hk, he⟩ := h.campos x hx
  exact Prod.ext hk he

end Representa

instance (a : ArvoreRB α) (p : PedidoRB α) : Decidable (Permitido a p) :=
  match p with
  | .inserir chave _ _ => inferInstanceAs (Decidable (0 ≤ chave))
  | .extrair => inferInstanceAs (Decidable (emOrdem a ≠ []))
  | .remover no => inferInstanceAs (Decidable (no ∈ emOrdem a))

theorem representa_nova : Representa (rbNovaArvore : ArvoreRB α) ⟨[], 2⟩ :=
  ⟨FilaRB.nova, fun _ hx => absurd hx List.not_mem_nil, rfl⟩

/-- The tree is a stable priority queue. -/
theorem executar_filaEstavel (pedidos : List (PedidoRB α))
    (hP : Runs.Permitted executar Permitido rbNovaArvore pedidos) :
    ∃ a f os, Runs.run executar rbNovaArvore pedidos = some (a, os) ∧
      Runs.run FilaEstavel.executar ⟨[], 2⟩ pedidos = some (f, os) ∧
      emOrdem a = f.entradas.map Entrada.no ∧
      sequencia a = f.entradas.map (fun x => (x.chave, some x.elem)) ∧
      ∀ x xs, f.entradas = x :: xs → rbMenorChave a = x.chave := by
  obtain ⟨a, f, os, hr, hm, hrep⟩ :=
    Runs.run_simulates (fun _ _ p h hp => Representa.executar h p hp) representa_nova hP
  refine ⟨a, f, os, hr, hm, hrep.fila.emOrdem_eq, hrep.sequencia_eq, fun x xs hx => ?_⟩
  have hl : f.entradas.map Entrada.no = x.no :: xs.map Entrada.no := by rw [hx, List.map_cons]
  rw [hrep.fila.menorChave hl]
  exact (hrep.campos x (by simp [hx])).1

/-- Two equal keys, the least key and a node in the middle. -/
def pedidosExemplo : List (PedidoRB ℕ) :=
  [.inserir 5 1 10, .inserir 3 2 20, .inserir 5 3 30, .extrair, .inserir 4 4 40, .remover 2]

theorem pedidosExemplo_permitidos :
    Runs.Permitted executar Permitido rbNovaArvore pedidosExemplo := by
  refine ⟨by decide, ?_⟩
  rintro _ _ ⟨⟩
  refine ⟨by decide, ?_⟩
  rintro _ _ ⟨⟩
  refine ⟨by decide, ?_⟩
  rintro _ _ ⟨⟩
  refine ⟨by decide, ?_⟩
  rintro _ _ ⟨⟩
  refine ⟨by decide, ?_⟩
  rintro _ _ ⟨⟩
  refine ⟨by decide, ?_⟩
  rintro _ _ ⟨⟩
  trivial

theorem executar_filaEstavel_exemplo :
    ∃ a f os, Runs.run executar rbNovaArvore pedidosExemplo = some (a, os) ∧
      Runs.run FilaEstavel.executar ⟨[], 2⟩ pedidosExemplo = some (f, os) ∧
      emOrdem a = f.entradas.map Entrada.no ∧
      sequencia a = f.entradas.map (fun x => (x.chave, some x.elem)) ∧
      ∀ x xs, f.entradas = x :: xs → rbMenorChave a = x.chave :=
  executar_filaEstavel pedidosExemplo pedidosExemplo_permitidos

/-- The invariant of the representation, on the nodes that the walk in order meets. -/
structure InvarianteRB (a : ArvoreRB α) : Prop where
  distintos : (emOrdem a).Nodup
  raiz : a.esq raiz = nil ∨ a.esq raiz ∈ emOrdem a
  filhos : ∀ p ∈ emOrdem a, ∀ s, a.child s p = nil ∨ a.child s p ∈ emOrdem a
  nilPreto : a.cor nil = .black
  raizPreta : a.cor (a.esq SthreadLib.raiz) = .black
  vermelho : ∀ p ∈ emOrdem a, a.cor p = .red → ∀ s, a.cor (a.child s p) = .black
  alturaNegra : ∃ n, ∀ m, BlackPath a.toLinks nil a.cor (a.esq SthreadLib.raiz) m → m = n
  paiRaiz : a.esq SthreadLib.raiz ≠ nil → a.parent (a.esq SthreadLib.raiz) = SthreadLib.raiz
  pai : ∀ p ∈ emOrdem a, ∀ s, a.child s p ≠ nil → a.parent (a.child s p) = p
  crescente : ((emOrdem a).map a.chave).Pairwise (· ≤ ·)
  minimo : emOrdem a ≠ [] → a.minimo = (emOrdem a).head?

theorem FilaRB.invarianteRB {a : ArvoreRB α} {l : List ℕ} (h : FilaRB a l) : InvarianteRB a := by
  obtain ⟨t, ht, hord, hmin, -⟩ := h
  have hl := ht.emOrdem_eq
  have hlink := ht.focus.inside
  have hnil : nil ∉ t.toList := fun hm => ht.ne_nil hm rfl
  obtain ⟨n, hbal⟩ := ht.balanced
  refine ⟨hl ▸ ht.nodup, ?_, fun p hp s => ?_, ht.sentinelas.nil, ?_, fun p hp hred s => ?_,
    ⟨n, fun m hm => hbal.blackPath hlink hnil hm⟩, fun hn => ?_, fun p hp s hn => ?_,
    hl ▸ hord.crescente, fun hne => ?_⟩
  · rw [hl]
    exact (em (a.esq raiz = nil)).imp_right hlink.mem_of_ne_nil
  · rw [hl] at hp ⊢
    exact (em (a.child s p = nil)).imp_right fun hn => (hlink.child hp s hn).1
  · exact hbal.color_root hlink ht.sentinelas.nil
  · exact hbal.color_child hlink ht.sentinelas.nil (hl ▸ hp) hred s
  · exact hlink.parent_root (hlink.mem_of_ne_nil hn)
  · exact (hlink.child (hl ▸ hp) s hn).2
  · rw [hl] at hne ⊢
    exact hmin.resolve_right fun ⟨he, _⟩ => hne he

/-- The invariant holds after every sequence of calls. -/
theorem executar_invarianteRB (pedidos : List (PedidoRB α))
    (hP : Runs.Permitted executar Permitido rbNovaArvore pedidos) :
    ∃ a os, Runs.run executar rbNovaArvore pedidos = some (a, os) ∧ InvarianteRB a := by
  obtain ⟨a, f, os, hr, -, hrep⟩ :=
    Runs.run_simulates (fun _ _ p h hp => Representa.executar h p hp) representa_nova hP
  exact ⟨a, os, hr, hrep.fila.invarianteRB⟩

theorem executar_invarianteRB_exemplo :
    ∃ a os, Runs.run executar rbNovaArvore pedidosExemplo = some (a, os) ∧ InvarianteRB a :=
  executar_invarianteRB pedidosExemplo pedidosExemplo_permitidos

end ThreadScheduler.SthreadLib
