import ThreadScheduler.Lib.LinkedCells
import ThreadScheduler.Lib.Runs
import Mathlib.Data.Finset.Card
import Mathlib.Data.Option.Basic

/-!
# The queues

`queue.c` in memory. All queues share `empty_element_ptr`, the cell that was removed last, and a
queue whose last cell has been removed still points at it. What `malloc` gives out is an argument
of the calls: an address that is not allocated, which may have been freed before.
-/
namespace ThreadScheduler.SthreadLib

open LinkedCells

/-- `queue_t`. -/
structure QueueT where
  first : Option ℕ
  last : Option ℕ

/-- The cells and the queues that are allocated, the fields of the cells, and
`empty_element_ptr`. -/
structure Memoria (α : Type) where
  alocados : Finset ℕ
  conteudo : ℕ → Option α
  next : ℕ → Option ℕ
  filas : ℕ → Option QueueT
  emptyElementPtr : Option ℕ

variable {α : Type}

/-- Before the first call. -/
def memoriaInicial : Memoria α := ⟨∅, fun _ => none, fun _ => none, fun _ => none, none⟩

/-- `create_queue`, with `queue` for the structure allocated. -/
def createQueue (m : Memoria α) (queue : ℕ) : Memoria α :=
  { m with filas := Function.update m.filas queue (some ⟨none, none⟩), emptyElementPtr := none }

/-- The loop of `delete_queue`. `none` where a cell is read that is not allocated. -/
def libertarElementos : ℕ → Memoria α → Option ℕ → Option (Memoria α)
  | _, m, none => some m
  | 0, _, some _ => none
  | n + 1, m, some pointer =>
      if pointer ∈ m.alocados then
        libertarElementos n { m with alocados := m.alocados.erase pointer } (m.next pointer)
      else none

/-- `delete_queue`. -/
def deleteQueue (m : Memoria α) (queue : ℕ) : Option (Memoria α) := do
  let fila ← m.filas queue
  let m ← libertarElementos m.alocados.card m fila.first
  some { m with filas := Function.update m.filas queue none }

/-- The cell that `queue_insert` uses: the spare one, or `malloc`, which is allocated for it. -/
def novoElemento (m : Memoria α) (malloc : ℕ) : Memoria α × ℕ :=
  match m.emptyElementPtr with
  | none => ({ m with alocados := insert malloc m.alocados }, malloc)
  | some e => ({ m with emptyElementPtr := none }, e)

/-- `queue_insert`. `none` where a cell is written that is not allocated, or a field of `NULL`. -/
def queueInsert (m : Memoria α) (queue : ℕ) (conteudo : α) (malloc : ℕ) : Option (Memoria α) := do
  let fila ← m.filas queue
  let (m, newElement) := novoElemento m malloc
  if newElement ∈ m.alocados then
    let m := { m with
      conteudo := Function.update m.conteudo newElement (some conteudo)
      next := Function.update m.next newElement none }
    match fila.first with
    | none =>
        some { m with filas := Function.update m.filas queue (some ⟨newElement, newElement⟩) }
    | some _ =>
        let last ← fila.last
        if last ∈ m.alocados then
          some { m with
            next := Function.update m.next last (some newElement)
            filas := Function.update m.filas queue (some { fila with last := newElement }) }
        else none
  else none

/-- `queue_is_empty`. -/
def queueIsEmpty (m : Memoria α) (queue : ℕ) : Option Bool :=
  (m.filas queue).map fun fila => fila.first.isNone

/-- `queue_remove`. The cell is kept for the next insertion, or freed if one is kept already. -/
def queueRemove (m : Memoria α) (queue : ℕ) : Option (Memoria α × Option α) := do
  let fila ← m.filas queue
  let temp ← fila.first
  if temp ∈ m.alocados then
    let conteudo := m.conteudo temp
    let m := { m with
      filas := Function.update m.filas queue (some { fila with first := m.next temp })
      conteudo := Function.update m.conteudo temp none
      next := Function.update m.next temp none }
    match m.emptyElementPtr with
    | some _ => some ({ m with alocados := m.alocados.erase temp }, conteudo)
    | none => some ({ m with emptyElementPtr := some temp }, conteudo)
  else none

/-! ## Calls -/

inductive PedidoFila (α : Type) where
  | create (queue : ℕ)
  | delete (queue : ℕ)
  | insert (queue : ℕ) (conteudo : α) (malloc : ℕ)
  | isEmpty (queue : ℕ)
  | remove (queue : ℕ)

inductive RespostaFila (α : Type) where
  | nada
  | vazia (b : Bool)
  | conteudo (c : Option α)
  deriving DecidableEq

def Memoria.executar (m : Memoria α) : PedidoFila α → Option (Memoria α × RespostaFila α)
  | .create queue => some (createQueue m queue, .nada)
  | .delete queue => (deleteQueue m queue).map fun m => (m, .nada)
  | .insert queue conteudo malloc => (queueInsert m queue conteudo malloc).map fun m => (m, .nada)
  | .isEmpty queue => (queueIsEmpty m queue).map fun b => (m, .vazia b)
  | .remove queue => (queueRemove m queue).map fun r => (r.1, .conteudo r.2)

/-- The queues exist, an element is removed from a queue that has one, a queue is deleted when it
is empty, and what is allocated was not. -/
def Memoria.Permitido (m : Memoria α) : PedidoFila α → Prop
  | .create queue => m.filas queue = none
  | .delete queue => ∃ fila, m.filas queue = some fila ∧ fila.first = none
  | .insert queue _ malloc =>
      (m.filas queue).isSome ∧ (m.emptyElementPtr = none → malloc ∉ m.alocados)
  | .isEmpty queue => (m.filas queue).isSome
  | .remove queue => ∃ fila, m.filas queue = some fila ∧ fila.first ≠ none

instance Memoria.decidablePermitido (m : Memoria α) : ∀ p, Decidable (m.Permitido p)
  | .create queue => inferInstanceAs (Decidable (m.filas queue = none))
  | .delete queue => decidable_of_iff ((m.filas queue).any (·.first.isNone) = true) (by
      simp [Memoria.Permitido, Option.any_eq_true])
  | .insert queue _ malloc => inferInstanceAs (Decidable
      ((m.filas queue).isSome ∧ (m.emptyElementPtr = none → malloc ∉ m.alocados)))
  | .isEmpty queue => inferInstanceAs (Decidable ((m.filas queue).isSome = true))
  | .remove queue => decidable_of_iff ((m.filas queue).any (·.first.isSome) = true) (by
      simp [Memoria.Permitido, Option.any_eq_true, Option.isSome_iff_ne_none])

/-- Independent lists, one for each queue. -/
abbrev Filas (α : Type) := ℕ → Option (List α)

def Filas.executar (f : Filas α) : PedidoFila α → Option (Filas α × RespostaFila α)
  | .create queue => some (Function.update f queue (some []), .nada)
  | .delete queue => some (Function.update f queue none, .nada)
  | .insert queue conteudo _ =>
      (f queue).map fun xs => (Function.update f queue (some (xs ++ [conteudo])), .nada)
  | .isEmpty queue => (f queue).map fun xs => (f, .vazia xs.isEmpty)
  | .remove queue =>
      match f queue with
      | some (x :: xs) => some (Function.update f queue (some xs), .conteudo (some x))
      | _ => none

/-! ## What the memory holds -/

/-- The heads of the queues. -/
def Memoria.cabecas (m : Memoria α) (queue : ℕ) : Option ℕ := (m.filas queue).bind QueueT.first

/-- The queues hold the lists `f` in the cells `cells`. Each cell is in one queue, and the spare one
in none. Where `last` of an empty queue points does not matter. -/
structure Liga (m : Memoria α) (f : Filas α) (cells : ℕ → List ℕ) : Prop where
  familia : Family m.next m.cabecas cells
  vivas : ∀ q, f q = (m.filas q).map fun _ => (cells q).filterMap m.conteudo
  cheias : ∀ q, ∀ c ∈ cells q, (m.conteudo c).isSome
  last : ∀ q fila, m.filas q = some fila → cells q ≠ [] → fila.last = (cells q).getLast?
  alocados : ∀ q, ∀ c ∈ cells q, c ∈ m.alocados
  livre : ∀ e, m.emptyElementPtr = some e → e ∈ m.alocados ∧ ∀ q, e ∉ cells q

theorem liga_inicial : Liga (memoriaInicial : Memoria α) (fun _ => none) fun _ => [] :=
  ⟨.nil _, fun _ => rfl, fun _ _ h => absurd h List.not_mem_nil, fun _ _ _ h => absurd rfl h,
    fun _ _ h => absurd h List.not_mem_nil, fun _ h => nomatch h⟩

theorem cabecas_eq {m m' : Memoria α} {q : ℕ} {fila : Option QueueT} {p : Option ℕ}
    (h : m'.filas = Function.update m.filas q fila) (hp : fila.bind QueueT.first = p) :
    m'.cabecas = Function.update m.cabecas q p := by
  funext j
  rw [Memoria.cabecas, h]
  by_cases hj : j = q
  · subst hj
    rw [Function.update_self, Function.update_self, hp]
  · rw [Function.update_of_ne hj, Function.update_of_ne hj]
    rfl

/-- What is written to a cell that is in no queue does not change a list. -/
theorem filterMap_update {cs : List ℕ} {c : ℕ} (hc : c ∉ cs) (g : ℕ → Option α) (x : Option α) :
    cs.filterMap (Function.update g c x) = cs.filterMap g := by
  refine List.filterMap_congr fun d hd => Function.update_of_ne ?_ ..
  rintro rfl
  exact hc hd

namespace Liga

variable {m : Memoria α} {f : Filas α} {cells : ℕ → List ℕ} {q : ℕ}

theorem cells_of_first (h : Liga m f cells) (hq : m.cabecas q = none) : cells q = [] := by
  have hchain := h.familia.chain q
  rw [hq] at hchain
  exact hchain.eq_nil

theorem viva (h : Liga m f cells) {fila : QueueT} (hq : m.filas q = some fila) :
    f q = some ((cells q).filterMap m.conteudo) := by
  rw [h.vivas, hq]
  rfl

theorem create (h : Liga m f cells) (hq : m.filas q = none) :
    Liga (createQueue m q) (Function.update f q (some [])) cells := by
  have hnil := h.cells_of_first (show m.cabecas q = none by rw [Memoria.cabecas, hq]; rfl)
  refine ⟨?_, fun j => ?_, h.cheias, fun j fila hj hn => ?_, h.alocados, fun _ he => nomatch he⟩
  · rw [cabecas_eq (m := m) rfl rfl]
    exact h.familia.create hnil
  · by_cases hj : j = q
    · subst hj
      simp [createQueue, hnil]
    · simp only [createQueue, Function.update_of_ne hj]
      exact h.vivas j
  · have hjq : j ≠ q := by
      rintro rfl
      exact hn hnil
    simp only [createQueue, Function.update_of_ne hjq] at hj
    exact h.last j fila hj hn

theorem libertarElementos_none (n : ℕ) (m : Memoria α) : libertarElementos n m none = some m := by
  cases n <;> rfl

theorem delete (h : Liga m f cells) {fila : QueueT} (hq : m.filas q = some fila)
    (hfirst : fila.first = none) :
    deleteQueue m q = some { m with filas := Function.update m.filas q none } ∧
      Liga { m with filas := Function.update m.filas q none } (Function.update f q none) cells := by
  have hnil := h.cells_of_first (show m.cabecas q = none by rw [Memoria.cabecas, hq]; exact hfirst)
  refine ⟨?_, ?_, fun j => ?_, h.cheias, fun j fila hj hn => ?_, h.alocados, h.livre⟩
  · simp [deleteQueue, hq, hfirst, libertarElementos_none]
  · rw [cabecas_eq (m := m) rfl rfl]
    exact h.familia.create hnil
  · by_cases hj : j = q
    · subst hj
      simp
    · simp only [Function.update_of_ne hj]
      exact h.vivas j
  · have hjq : j ≠ q := by
      rintro rfl
      exact hn hnil
    simp only [Function.update_of_ne hjq] at hj
    exact h.last j fila hj hn

theorem isEmpty (h : Liga m f cells) {fila : QueueT} (hq : m.filas q = some fila) :
    queueIsEmpty m q = some (((cells q).filterMap m.conteudo).isEmpty) := by
  rw [queueIsEmpty, hq, Option.map_some, Option.some.injEq, Bool.eq_iff_iff, List.isEmpty_iff,
    Option.isNone_iff_eq_none]
  have hhead : m.cabecas q = fila.first := by rw [Memoria.cabecas, hq]; rfl
  constructor
  · intro hfirst
    rw [h.cells_of_first (hhead.trans hfirst), List.filterMap_nil]
  · intro hnil
    cases hc : cells q with
    | nil =>
        have hchain := h.familia.chain q
        rw [hc] at hchain
        exact hhead.symm.trans hchain
    | cons c cs =>
        have hcheia := h.cheias q c (by simp [hc])
        rw [List.filterMap_eq_nil_iff] at hnil
        rw [hnil c (by simp [hc])] at hcheia
        cases hcheia

/-- The first cell is taken out, and kept or freed. -/
theorem remove (h : Liga m f cells) {fila : QueueT} (hq : m.filas q = some fila)
    (hfirst : fila.first ≠ none) :
    ∃ m' x xs cells', queueRemove m q = some (m', some x) ∧ f q = some (x :: xs) ∧
      Liga m' (Function.update f q (some xs)) cells' := by
  obtain ⟨temp, htemp⟩ := Option.ne_none_iff_exists'.mp hfirst
  have hchain := h.familia.chain q
  rw [show m.cabecas q = some temp by rw [Memoria.cabecas, hq]; exact htemp] at hchain
  cases hc : cells q with
  | nil =>
      rw [hc] at hchain
      cases hchain
  | cons c cs =>
      rw [hc] at hchain
      obtain rfl : temp = c := Option.some.inj hchain.1
      have hmem : temp ∈ cells q := by simp [hc]
      obtain ⟨x, hx⟩ := Option.isSome_iff_exists.mp (h.cheias q temp hmem)
      have halone := h.alocados q temp hmem
      have hfam := h.familia.shrink hc
      -- no queue has the cell any more
      have hout : ∀ j, temp ∉ Function.update cells q cs j := by
        intro j
        by_cases hj : j = q
        · subst hj
          rw [Function.update_self]
          exact (List.nodup_cons.mp hchain.nodup).1
        · rw [Function.update_of_ne hj]
          exact fun hm => hj (h.familia.apart j q temp hm hmem)
      have hsub : ∀ j, ∀ d ∈ Function.update cells q cs j, d ∈ cells j := by
        intro j d hd
        by_cases hj : j = q
        · subst hj
          rw [Function.update_self] at hd
          simp [hc, hd]
        · rwa [Function.update_of_ne hj] at hd
      have hliga : ∀ (A : Finset ℕ) (e : Option ℕ),
          (∀ j, ∀ d ∈ Function.update cells q cs j, d ∈ A) →
          (∀ d, e = some d → d ∈ A ∧ ∀ j, d ∉ Function.update cells q cs j) →
          Liga (α := α) ⟨A, Function.update m.conteudo temp none, Function.update m.next temp none,
            Function.update m.filas q (some { fila with first := m.next temp }), e⟩
            (Function.update f q (some (cs.filterMap m.conteudo)))
              (Function.update cells q cs) := by
        intro A e hA he
        refine ⟨?_, fun j => ?_, fun j d hd => ?_, fun j fila' hj hn => ?_, hA, he⟩
        · rwa [cabecas_eq (m := m) rfl rfl]
        · dsimp only
          rw [filterMap_update (hout j)]
          by_cases hj : j = q
          · subst hj
            simp only [Function.update_self, Option.map_some]
          · simp only [Function.update_of_ne hj]
            exact h.vivas j
        · dsimp only
          have hne : d ≠ temp := by
            rintro rfl
            exact hout j hd
          rw [Function.update_of_ne hne]
          exact h.cheias j d (hsub j d hd)
        · by_cases hjq : j = q
          · subst hjq
            simp only [Function.update_self, Option.some.injEq] at hj hn ⊢
            rw [← hj]
            have hlast := h.last j fila hq (by simp [hc])
            rw [hc] at hlast
            rw [hlast]
            cases cs with
            | nil => exact absurd rfl hn
            | cons d cs => rfl
          · simp only [Function.update_of_ne hjq] at hj hn ⊢
            exact h.last j fila' hj hn
      have hf : f q = some (x :: cs.filterMap m.conteudo) := by
        rw [h.viva hq, hc, List.filterMap_cons, hx]
      cases he : m.emptyElementPtr with
      | none =>
          refine ⟨_, x, _, _, ?_, hf, hliga m.alocados (some temp)
            (fun j d hd => h.alocados j d (hsub j d hd)) fun d hd => ?_⟩
          · simp [queueRemove, hq, htemp, halone, he, hx]
          · obtain rfl := Option.some.inj hd
            exact ⟨halone, hout⟩
      | some e =>
          have hlivre := h.livre e he
          have hne : e ≠ temp := by
            rintro rfl
            exact hlivre.2 q hmem
          refine ⟨_, x, _, _, ?_, hf, hliga (m.alocados.erase temp) (some e)
            (fun j d hd => ?_) fun d hd => ?_⟩
          · simp [queueRemove, hq, htemp, halone, he, hx]
          · refine Finset.mem_erase.mpr ⟨?_, h.alocados j d (hsub j d hd)⟩
            rintro rfl
            exact hout j hd
          · obtain rfl := Option.some.inj hd
            exact ⟨Finset.mem_erase.mpr ⟨hne, hlivre.1⟩, fun j hm => hlivre.2 j (hsub j e hm)⟩

/-- The cell that is used is in no queue. -/
theorem novoElemento (h : Liga m f cells) {malloc : ℕ}
    (hm : m.emptyElementPtr = none → malloc ∉ m.alocados) :
    ∃ A c, SthreadLib.novoElemento m malloc = (⟨A, m.conteudo, m.next, m.filas, none⟩, c) ∧
      c ∈ A ∧ (∀ j, c ∉ cells j) ∧ m.alocados ⊆ A := by
  obtain ⟨A, g, n, qs, e⟩ := m
  cases e with
  | none =>
      exact ⟨_, malloc, rfl, Finset.mem_insert_self malloc A,
        fun j hj => hm rfl (h.alocados j malloc hj), Finset.subset_insert malloc A⟩
  | some e => exact ⟨A, e, rfl, (h.livre e rfl).1, (h.livre e rfl).2, fun _ hd => hd⟩

/-- A queue with one more cell behind its last one. -/
theorem append (h : Liga m f cells) {A : Finset ℕ} {c : ℕ} (hA : c ∈ A) (hc : ∀ j, c ∉ cells j)
    (hsub : m.alocados ⊆ A) {next' : ℕ → Option ℕ} (fila : QueueT) (hlast : fila.last = some c)
    (hfam : Family next' (Function.update m.cabecas q fila.first)
      (Function.update cells q (cells q ++ [c]))) (x : α) :
    Liga ⟨A, Function.update m.conteudo c (some x), next', Function.update m.filas q (some fila),
        none⟩ (Function.update f q (some ((cells q).filterMap m.conteudo ++ [x])))
      (Function.update cells q (cells q ++ [c])) := by
  have hself : ((cells q) ++ [c]).filterMap (Function.update m.conteudo c (some x)) =
      (cells q).filterMap m.conteudo ++ [x] := by
    rw [List.filterMap_append, filterMap_update (hc q)]
    simp
  refine ⟨?_, fun j => ?_, fun j d hd => ?_, fun j fila' hj hn => ?_, fun j d hd => ?_,
    fun _ he => nomatch he⟩
  · rwa [cabecas_eq (m := m) rfl rfl]
  · by_cases hj : j = q
    · subst hj
      simp only [Function.update_self, Option.map_some, hself]
    · simp only [Function.update_of_ne hj, filterMap_update (hc j)]
      exact h.vivas j
  · dsimp only
    rw [Function.update_apply]
    split
    · rfl
    · rename_i hdc
      refine h.cheias j d ?_
      by_cases hj : j = q
      · subst hj
        rw [Function.update_self] at hd
        exact (List.mem_append.mp hd).resolve_right fun hs => hdc (List.mem_singleton.mp hs)
      · rwa [Function.update_of_ne hj] at hd
  · by_cases hjq : j = q
    · subst hjq
      simp only [Function.update_self, Option.some.injEq] at hj ⊢
      rw [← hj, hlast, List.getLast?_concat]
    · simp only [Function.update_of_ne hjq] at hj hn ⊢
      exact h.last j fila' hj hn
  · by_cases hj : j = q
    · subst hj
      rw [Function.update_self, List.mem_append, List.mem_singleton] at hd
      rcases hd with hd | rfl
      · exact hsub (h.alocados j d hd)
      · exact hA
    · rw [Function.update_of_ne hj] at hd
      exact hsub (h.alocados j d hd)

theorem insert (h : Liga m f cells) {fila : QueueT} (hq : m.filas q = some fila) {malloc : ℕ}
    (hm : m.emptyElementPtr = none → malloc ∉ m.alocados) (x : α) :
    ∃ m' cells', queueInsert m q x malloc = some m' ∧
      Liga m' (Function.update f q (some ((cells q).filterMap m.conteudo ++ [x]))) cells' := by
  obtain ⟨A, c, hnovo, hA, hc, hsub⟩ := h.novoElemento hm
  have hhead : m.cabecas q = fila.first := by rw [Memoria.cabecas, hq]; rfl
  cases hfirst : fila.first with
  | none =>
      have hnil := h.cells_of_first (hhead.trans hfirst)
      have hfam := h.familia.first hnil hc
      rw [show [c] = cells q ++ [c] by rw [hnil]; rfl] at hfam
      refine ⟨_, _, ?_, h.append hA hc hsub ⟨some c, some c⟩ rfl hfam x⟩
      simp [queueInsert, hq, hnovo, hA, hfirst]
  | some p =>
      have hne : cells q ≠ [] := by
        intro hnil
        have hchain := h.familia.chain q
        rw [hnil, hhead, hfirst] at hchain
        cases hchain
      obtain ⟨cs, l, hl⟩ := (List.eq_nil_or_concat' (cells q)).resolve_left hne
      have hlast := h.last q fila hq hne
      rw [hl, List.getLast?_concat] at hlast
      have hlA : l ∈ A := hsub (h.alocados q l (by simp [hl]))
      have hfam := h.familia.grow hl hc
      rw [show cs ++ [l, c] = cells q ++ [c] by simp [hl]] at hfam
      have hhead' : Function.update m.cabecas q fila.first = m.cabecas := by
        rw [← hhead, Function.update_eq_self]
      rw [← hhead'] at hfam
      refine ⟨_, _, ?_, h.append hA hc hsub { fila with last := some c } rfl hfam x⟩
      simp [queueInsert, hq, hnovo, hA, hfirst, hlast, hlA]

/-- A call answers as the lists do, and keeps the memory in order. -/
theorem executar (h : Liga m f cells) (p : PedidoFila α) (hp : m.Permitido p) :
    ∃ m' f' o, m.executar p = some (m', o) ∧ f.executar p = some (f', o) ∧
      ∃ cells', Liga m' f' cells' := by
  cases p with
  | create q => exact ⟨_, _, .nada, rfl, rfl, cells, h.create hp⟩
  | delete q =>
      obtain ⟨fila, hq, hfirst⟩ := hp
      obtain ⟨hdel, hliga⟩ := h.delete hq hfirst
      exact ⟨_, _, .nada, by rw [Memoria.executar, hdel]; rfl, rfl, cells, hliga⟩
  | insert q x malloc =>
      obtain ⟨fila, hq⟩ := Option.isSome_iff_exists.mp hp.1
      obtain ⟨m', cells', hins, hliga⟩ := h.insert hq hp.2 x
      refine ⟨m', _, .nada, by rw [Memoria.executar, hins]; rfl, ?_, cells', hliga⟩
      rw [Filas.executar, h.viva hq]
      rfl
  | isEmpty q =>
      obtain ⟨fila, hq⟩ := Option.isSome_iff_exists.mp hp
      refine ⟨m, f, .vazia (((cells q).filterMap m.conteudo).isEmpty), ?_, ?_, cells, h⟩
      · rw [Memoria.executar, h.isEmpty hq]
        rfl
      · rw [Filas.executar, h.viva hq]
        rfl
  | remove q =>
      obtain ⟨fila, hq, hfirst⟩ := hp
      obtain ⟨m', x, xs, cells', hrem, hf, hliga⟩ := h.remove hq hfirst
      refine ⟨m', _, .conteudo (some x), ?_, ?_, cells', hliga⟩
      · rw [Memoria.executar, hrem]
        rfl
      · rw [Filas.executar, hf]

end Liga

/-- In every sequence of calls the queues are independent lists: they answer as these do, each
cell is linked in one queue at most, and the spare cell in none. -/
theorem filas_independentes (pedidos : List (PedidoFila α))
    (hP : Runs.Permitted Memoria.executar Memoria.Permitido memoriaInicial pedidos) :
    ∃ m f os, Runs.run Memoria.executar memoriaInicial pedidos = some (m, os) ∧
      Runs.run Filas.executar (fun _ => none) pedidos = some (f, os) ∧
      ∃ cells, Liga m f cells := by
  refine Runs.run_simulates (R := fun m f => ∃ cells, Liga m f cells) (P := Memoria.Permitido)
    (fun m f p hR hp => ?_) ⟨_, liga_inicial⟩ hP
  obtain ⟨cells, h⟩ := hR
  exact h.executar p hp

/-- The cell of the first queue goes to the second one, which a stale `last` does not disturb. -/
theorem filas_independentes_exemplo :
    ∃ m f os, Runs.run Memoria.executar memoriaInicial
        [.create 0, .create 1, .insert 0 'a' 10, .insert 1 'b' 11, .remove 0, .insert 1 'c' 12,
          .insert 0 'd' 12, .isEmpty 0, .remove 1, .remove 0, .remove 1, .delete 0] = some (m, os) ∧
      Runs.run Filas.executar (fun _ => none)
        [.create 0, .create 1, .insert 0 'a' 10, .insert 1 'b' 11, .remove 0, .insert 1 'c' 12,
          .insert 0 'd' 12, .isEmpty 0, .remove 1, .remove 0, .remove 1, .delete 0] = some (f, os) ∧
      ∃ cells, Liga m f cells :=
  filas_independentes [.create 0, .create 1, .insert 0 'a' 10, .insert 1 'b' 11, .remove 0,
    .insert 1 'c' 12, .insert 0 'd' 12, .isEmpty 0, .remove 1, .remove 0, .remove 1, .delete 0]
    (by decide +kernel)

end ThreadScheduler.SthreadLib
