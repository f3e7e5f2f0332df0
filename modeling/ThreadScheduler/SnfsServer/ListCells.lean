import Mathlib.Data.Finset.Card
import Mathlib.Data.List.InsertIdx
import ThreadScheduler.Lib.DoublyLinked
import ThreadScheduler.Lib.Runs

/-!
# The nodes of the lists

`list.c` in memory: doubly linked nodes, with positions counted from the nearer end. What `malloc`
gives out is an argument of the calls, an address that is not allocated. A result `none` stands for
an access to `NULL` or to a node that is not allocated; a `void*` that is `none` is `NULL`.
-/
namespace ThreadScheduler.SnfsServer

open LinkedCells

/-- `SList`, with the nodes that are allocated and their fields. -/
structure ListaNos (α : Type) where
  size : ℤ
  first : Option ℕ
  last : Option ℕ
  alocados : Finset ℕ
  ordem : ℕ → ℕ
  inf : ℕ → Option α
  prev : ℕ → Option ℕ
  next : ℕ → Option ℕ

namespace ListaNos

variable {α : Type}

/-- `newList`; `ordem`, `inf`, `prev` and `next` are what the memory holds. -/
def newList (ordem : ℕ → ℕ) (inf : ℕ → Option α) (prev next : ℕ → Option ℕ) : ListaNos α :=
  ⟨0, none, none, ∅, ordem, inf, prev, next⟩

/-- The node that a pointer leads to. -/
def no (list : ListaNos α) (p : Option ℕ) : Option ℕ := p.filter (· ∈ list.alocados)

/-- `new=(ListNode)malloc(sizeof(SListNode))` and `new->inf=inf`. -/
def alocar (list : ListaNos α) (new : ℕ) (inf : Option α) : ListaNos α :=
  { list with alocados := insert new list.alocados, inf := Function.update list.inf new inf }

/-- The walk of `n` links, `next` or `prev`. -/
def andar (list : ListaNos α) (ligacao : ℕ → Option ℕ) : ℕ → Option ℕ → Option (Option ℕ)
  | 0, aux => some aux
  | n + 1, aux => (list.no aux).bind fun aux => andar list ligacao n (ligacao aux)

/-- `listInsertFst`. -/
def listInsertFst (list : ListaNos α) (inf : Option α) (new : ℕ) : Option (ListaNos α × ℤ) :=
  let list := list.alocar new inf
  if list.size = 0 then
    some ({ list with
      next := Function.update list.next new none
      prev := Function.update list.prev new none
      size := list.size + 1
      first := some new
      last := some new }, 0)
  else
    (list.no list.first).map fun first =>
      ({ list with
        next := Function.update list.next new list.first
        prev := Function.update (Function.update list.prev new none) first (some new)
        size := list.size + 1
        first := some new }, 0)

/-- `listInsertLst`. -/
def listInsertLst (list : ListaNos α) (inf : Option α) (new : ℕ) : Option (ListaNos α × ℤ) :=
  let list := list.alocar new inf
  if list.size = 0 then
    some ({ list with
      next := Function.update list.next new none
      prev := Function.update list.prev new none
      size := list.size + 1
      first := some new
      last := some new }, 0)
  else
    (list.no list.last).map fun last =>
      ({ list with
        next := Function.update (Function.update list.next new none) last (some new)
        prev := Function.update list.prev new list.last
        size := list.size + 1
        last := some new }, 0)

/-- `listInsertAt`: behind the node found from the end, before the one found from the start. -/
def listInsertAt (list : ListaNos α) (index : ℤ) (inf : Option α) (new : ℕ) :
    Option (ListaNos α × ℤ) :=
  let size := list.size
  if index < 0 ∨ size < index then some (list, 1)
  else if index = 0 then list.listInsertFst inf new
  else if index = size then list.listInsertLst inf new
  else if size.tdiv 2 < index then do
    let aux ← list.andar list.prev (size - index).toNat list.last
    let list := list.alocar new inf
    let aux ← list.no aux
    let seguinte ← list.no (list.next aux)
    some ({ list with
      next := Function.update (Function.update list.next new (list.next aux)) aux (some new)
      prev := Function.update (Function.update list.prev new (some aux)) seguinte (some new)
      size := list.size + 1 }, 0)
  else do
    let aux ← list.andar list.next index.toNat list.first
    let list := list.alocar new inf
    let aux ← list.no aux
    let anterior ← list.no (list.prev aux)
    some ({ list with
      next := Function.update (Function.update list.next new (some aux)) anterior (some new)
      prev := Function.update (Function.update list.prev new (list.prev aux)) aux (some new)
      size := list.size + 1 }, 0)

/-- `listRemoveFst`, with what is stored at `*inf`. -/
def listRemoveFst (list : ListaNos α) : Option (ListaNos α × ℤ × Option (Option α)) :=
  if list.size = 0 then some (list, 1, some none)
  else do
    let aux ← list.no list.first
    if list.size = 1 then
      some ({ list with
        alocados := list.alocados.erase aux, first := none, last := none, size := 0 }, 0,
        some (list.inf aux))
    else do
      let seguinte ← list.no (list.next aux)
      some ({ list with
        prev := Function.update list.prev seguinte none
        first := list.next aux
        alocados := list.alocados.erase aux
        size := list.size - 1 }, 0, some (list.inf aux))

/-- `listRemoveLst`, with what is stored at `*inf`. -/
def listRemoveLst (list : ListaNos α) : Option (ListaNos α × ℤ × Option (Option α)) :=
  if list.size = 0 then some (list, 1, some none)
  else do
    let aux ← list.no list.last
    if list.size = 1 then
      some ({ list with
        alocados := list.alocados.erase aux, first := none, last := none, size := 0 }, 0,
        some (list.inf aux))
    else do
      let anterior ← list.no (list.prev aux)
      some ({ list with
        next := Function.update list.next anterior none
        last := list.prev aux
        alocados := list.alocados.erase aux
        size := list.size - 1 }, 0, some (list.inf aux))

/-- The end of `listRemoveAt`, the same in both branches. -/
def retirar (list : ListaNos α) (aux : Option ℕ) :
    Option (ListaNos α × ℤ × Option (Option α)) := do
  let aux ← list.no aux
  let anterior ← list.no (list.prev aux)
  let seguinte ← list.no (list.next aux)
  some ({ list with
    next := Function.update list.next anterior (list.next aux)
    prev := Function.update list.prev seguinte (list.prev aux)
    alocados := list.alocados.erase aux
    size := list.size - 1 }, 0, some (list.inf aux))

/-- `listRemoveAt`, with what is stored at `*inf`: nothing where the position does not exist. -/
def listRemoveAt (list : ListaNos α) (index : ℤ) :
    Option (ListaNos α × ℤ × Option (Option α)) :=
  let size := list.size
  if index < 0 ∨ size - 1 < index then some (list, 1, none)
  else if index = 0 then list.listRemoveFst
  else if index = size - 1 then list.listRemoveLst
  else if size.tdiv 2 < index then
    (list.andar list.prev (size - index - 1).toNat list.last).bind list.retirar
  else (list.andar list.next index.toNat list.first).bind list.retirar

/-- `listAt`, with what is stored at `*inf`. -/
def listAt (list : ListaNos α) (index : ℤ) : Option (ℤ × Option α) :=
  let size := list.size
  if index < 0 ∨ size - 1 < index then some (1, none)
  else
    let aux := if size.tdiv 2 < index then list.andar list.prev (size - index - 1).toNat list.last
      else list.andar list.next index.toNat list.first
    (aux.bind list.no).map fun aux => (0, list.inf aux)

end ListaNos

/-! ## What the memory holds -/

variable {α : Type}

/-- The list has the nodes `cs`, linked both ways, and counts them. -/
structure Guarda (list : ListaNos α) (cs : List ℕ) : Prop where
  duplo : Double list.next list.prev list.first list.last cs
  alocados : ∀ c ∈ cs, c ∈ list.alocados
  size : list.size = cs.length

theorem guarda_newList (ordem : ℕ → ℕ) (inf : ℕ → Option α) (prev next : ℕ → Option ℕ) :
    Guarda (ListaNos.newList ordem inf prev next) [] :=
  ⟨⟨rfl, rfl⟩, fun _ hc => absurd hc List.not_mem_nil, rfl⟩

namespace ListaNos

variable {list : ListaNos α} {c : ℕ}

theorem no_some (h : c ∈ list.alocados) : list.no (some c) = some c := by
  simp [no, h]

/-- The walk over the nodes before one ends there. -/
theorem andar_append {ligacao : ℕ → Option ℕ} {p : Option ℕ} {as bs : List ℕ}
    (h : Chain ligacao p (as ++ c :: bs)) (hal : ∀ a ∈ as, a ∈ list.alocados) :
    list.andar ligacao as.length p = some (some c) := by
  induction as generalizing p with
  | nil => exact congrArg some h.1
  | cons a as ih =>
      rw [List.length_cons, andar, h.1, no_some (hal a List.mem_cons_self), Option.bind_some]
      exact ih h.2 fun b hb => hal b (List.mem_cons_of_mem a hb)

end ListaNos

namespace Guarda

variable {list : ListaNos α} {cs as bs : List ℕ} {a b c new : ℕ}

theorem reverse (h : Guarda list (as ++ c :: bs)) :
    Chain list.prev list.last (bs.reverse ++ c :: as.reverse) := by
  simpa using h.duplo.back

theorem size_alocar (h : Guarda list cs) (new : ℕ) (inf : Option α) :
    (list.alocar new inf).size = cs.length := h.size

/-- The nodes are allocated beside a new one as well. -/
theorem no_alocar (h : Guarda list cs) (hc : c ∈ cs) (new : ℕ) (inf : Option α) :
    (list.alocar new inf).no (some c) = some c :=
  ListaNos.no_some (Finset.mem_insert_of_mem (h.alocados c hc))

theorem no (h : Guarda list cs) (hc : c ∈ cs) : list.no (some c) = some c :=
  ListaNos.no_some (h.alocados c hc)

theorem notMem (h : Guarda list cs) (hn : new ∉ list.alocados) : new ∉ cs := fun hm =>
  hn (h.alocados new hm)

/-- What a call leaves that takes a new node. -/
theorem alocar {list' : ListaNos α} {cs' : List ℕ} (h : Guarda list cs)
    (hd : Double list'.next list'.prev list'.first list'.last cs')
    (hal : list'.alocados = insert new list.alocados) (hcs : cs'.Perm (new :: cs))
    (hsize : list'.size = list.size + 1) : Guarda list' cs' := by
  refine ⟨hd, fun c hc => ?_, ?_⟩
  · rw [hal, Finset.mem_insert]
    exact (List.mem_cons.mp (hcs.mem_iff.mp hc)).imp_right (h.alocados c)
  · rw [hsize, h.size, hcs.length_eq, List.length_cons]
    rfl

/-- What a call leaves that frees a node. -/
theorem libertar {list' : ListaNos α} {cs' : List ℕ} (h : Guarda list cs)
    (hd : Double list'.next list'.prev list'.first list'.last cs')
    (hal : list'.alocados = list.alocados.erase c) (hcs : cs.Perm (c :: cs'))
    (hsize : list'.size = list.size - 1) : Guarda list' cs' := by
  have hnd := hcs.nodup_iff.mp h.duplo.nodup
  refine ⟨hd, fun d hd => ?_, ?_⟩
  · rw [hal, Finset.mem_erase]
    refine ⟨?_, h.alocados d (hcs.mem_iff.mpr (List.mem_cons_of_mem c hd))⟩
    rintro rfl
    exact (List.nodup_cons.mp hnd).1 hd
  · rw [hsize, h.size, hcs.length_eq, List.length_cons]
    push_cast
    omega

theorem listInsertFst (h : Guarda list cs) (hn : new ∉ list.alocados) (inf : Option α) :
    ∃ list', list.listInsertFst inf new = some (list', 0) ∧ Guarda list' (new :: cs) ∧
      list'.inf = Function.update list.inf new inf := by
  cases cs with
  | nil =>
      have hsize : (list.alocar new inf).size = 0 := h.size
      refine ⟨_, by rw [ListaNos.listInsertFst, if_pos hsize],
        h.alocar (.single _ _ new) rfl (List.Perm.refl _) rfl, rfl⟩
  | cons b cs =>
      have hsize : (list.alocar new inf).size ≠ 0 := by
        rw [h.size_alocar, List.length_cons]
        omega
      have hfirst : (list.alocar new inf).first = some b := h.duplo.first_eq
      have hno := h.no_alocar List.mem_cons_self new inf
      refine ⟨_, by rw [ListaNos.listInsertFst, if_neg hsize, hfirst, hno, Option.map_some],
        h.alocar ?_ rfl (List.Perm.refl _) rfl, rfl⟩
      exact h.duplo.pushFirst (h.notMem hn)

theorem listInsertLst (h : Guarda list cs) (hn : new ∉ list.alocados) (inf : Option α) :
    ∃ list', list.listInsertLst inf new = some (list', 0) ∧ Guarda list' (cs ++ [new]) ∧
      list'.inf = Function.update list.inf new inf := by
  rcases List.eq_nil_or_concat cs with rfl | ⟨cs, a, rfl⟩
  · have hsize : (list.alocar new inf).size = 0 := h.size
    refine ⟨_, by rw [ListaNos.listInsertLst, if_pos hsize],
      h.alocar (.single _ _ new) rfl (List.Perm.refl _) rfl, rfl⟩
  · rw [List.concat_eq_append] at h ⊢
    have hsize : (list.alocar new inf).size ≠ 0 := by
      rw [h.size_alocar, List.length_append, List.length_singleton]
      omega
    have hlast : (list.alocar new inf).last = some a := by
      rw [show (list.alocar new inf).last = list.last from rfl, h.duplo.last_eq,
        List.getLast?_concat]
    have hno := h.no_alocar (List.mem_append_right cs List.mem_cons_self) new inf
    refine ⟨_, by rw [ListaNos.listInsertLst, if_neg hsize, hlast, hno, Option.map_some],
      h.alocar ?_ rfl (List.perm_append_singleton new _) rfl, rfl⟩
    rw [List.append_assoc]
    exact h.duplo.pushLast (h.notMem hn)

/-- The walk from the start and that from the end. -/
theorem andar (h : Guarda list (as ++ c :: bs)) :
    list.andar list.next as.length list.first = some (some c) ∧
      list.andar list.prev bs.length list.last = some (some c) := by
  have hal : ∀ d, d ∈ as ∨ d ∈ bs → d ∈ list.alocados := fun d hd =>
    h.alocados d (List.mem_append.mpr (hd.imp_right (List.mem_cons_of_mem c)))
  refine ⟨ListaNos.andar_append h.duplo.forth fun d hd => hal d (Or.inl hd), ?_⟩
  rw [← List.length_reverse]
  exact ListaNos.andar_append h.reverse fun d hd => hal d (Or.inr (List.mem_reverse.mp hd))

/-- Between two nodes; the new one is reached from the nearer end. -/
theorem listInsertAt (h : Guarda list (as ++ a :: b :: bs)) (hn : new ∉ list.alocados)
    (inf : Option α) :
    ∃ list', list.listInsertAt (as.length + 1 : ℕ) inf new = some (list', 0) ∧
      Guarda list' (as ++ a :: new :: b :: bs) ∧
      list'.inf = Function.update list.inf new inf := by
  have hsize : list.size = as.length + bs.length + 2 := by
    rw [h.size, List.length_append, List.length_cons, List.length_cons]
    push_cast
    omega
  have hperm : (as ++ a :: new :: b :: bs).Perm (new :: (as ++ a :: b :: bs)) := by
    rw [List.append_cons as a (new :: b :: bs), List.append_cons as a (b :: bs)]
    exact List.perm_middle
  have hd := h.duplo.insert (h.notMem hn)
  have h' : Guarda list ((as ++ [a]) ++ b :: bs) := by
    rwa [← List.append_cons]
  have hnext : list.next a = some b := h.duplo.next_eq
  have hprev : list.prev b = some a := by
    rw [h'.duplo.prev_eq, List.getLast?_concat]
  have ha := h.no_alocar (c := a) (by simp) new inf
  have hb := h.no_alocar (c := b) (by simp) new inf
  rw [ListaNos.listInsertAt, if_neg (by omega), if_neg (by omega), if_neg (by omega)]
  split
  · have hlen : (list.size - (as.length + 1 : ℕ)).toNat = (b :: bs).length := by
      rw [List.length_cons]
      omega
    refine ⟨_, by
      rw [hlen, h.andar.2, Option.bind_eq_bind, Option.bind_some]
      dsimp only
      rw [ha, Option.bind_eq_bind, Option.bind_some,
        show (list.alocar new inf).next a = some b from hnext, hb]
      rfl, h.alocar ?_ rfl hperm rfl, rfl⟩
    exact hd
  · have hlen : ((as.length + 1 : ℕ) : ℤ).toNat = (as ++ [a]).length := by
      rw [List.length_append, List.length_singleton]
      rfl
    refine ⟨_, by
      rw [hlen, h'.andar.1, Option.bind_eq_bind, Option.bind_some]
      dsimp only
      rw [hb, Option.bind_eq_bind, Option.bind_some,
        show (list.alocar new inf).prev b = some a from hprev, ha]
      rfl, h.alocar ?_ rfl hperm rfl, rfl⟩
    exact hd

/-- `listInsertAt` at any position. -/
theorem listInsertAt_append (h : Guarda list (as ++ bs)) (hn : new ∉ list.alocados)
    (inf : Option α) :
    ∃ list', list.listInsertAt as.length inf new = some (list', 0) ∧
      Guarda list' (as ++ new :: bs) ∧ list'.inf = Function.update list.inf new inf := by
  have hsize : list.size = as.length + bs.length := by
    rw [h.size, List.length_append]
    rfl
  rcases List.eq_nil_or_concat as with rfl | ⟨as, a, rfl⟩
  · rw [ListaNos.listInsertAt, if_neg (by simp at hsize ⊢; omega), if_pos (by simp)]
    exact h.listInsertFst hn inf
  · rw [List.concat_eq_append] at h ⊢
    cases bs with
    | nil =>
        rw [List.append_nil] at h
        rw [ListaNos.listInsertAt, if_neg (by rw [h.size]; omega), if_neg (by simp; omega),
          if_pos h.size.symm]
        exact h.listInsertLst hn inf
    | cons b bs =>
        rw [List.append_assoc] at h ⊢
        rw [List.length_append, List.length_singleton]
        exact h.listInsertAt hn inf

theorem listRemoveFst (h : Guarda list (c :: cs)) :
    ∃ list', list.listRemoveFst = some (list', 0, some (list.inf c)) ∧ Guarda list' cs ∧
      list'.inf = list.inf := by
  have hsize : list.size = cs.length + 1 := by
    rw [h.size, List.length_cons]
    rfl
  have hfirst : list.first = some c := h.duplo.first_eq
  have hc := h.no List.mem_cons_self
  cases cs with
  | nil =>
      refine ⟨_, by
        rw [ListaNos.listRemoveFst, if_neg (by omega), hfirst, hc, Option.bind_eq_bind,
          Option.bind_some, if_pos (by rw [hsize]; rfl)], ⟨⟨?_, ?_⟩, ?_, ?_⟩, ?_⟩
      · rfl
      · rfl
      · exact fun _ hm => absurd hm List.not_mem_nil
      · rfl
      · rfl
  | cons b cs =>
      have hb := h.no (List.mem_cons_of_mem c List.mem_cons_self)
      have hnext : list.next c = some b := h.duplo.forth.2.1
      refine ⟨_, by
        rw [ListaNos.listRemoveFst, if_neg (by omega), hfirst, hc, Option.bind_eq_bind,
          Option.bind_some, if_neg (by rw [hsize, List.length_cons]; omega), hnext, hb]
        rfl, h.libertar ?_ ?_ (List.Perm.refl _) ?_, ?_⟩
      · exact h.duplo.dropFirst
      · rfl
      · rfl
      · rfl

theorem listRemoveLst (h : Guarda list (cs ++ [c])) :
    ∃ list', list.listRemoveLst = some (list', 0, some (list.inf c)) ∧ Guarda list' cs ∧
      list'.inf = list.inf := by
  have hsize : list.size = cs.length + 1 := by
    rw [h.size, List.length_append]
    rfl
  have hlast : list.last = some c := by
    rw [h.duplo.last_eq, List.getLast?_concat]
  have hc := h.no (List.mem_append_right cs List.mem_cons_self)
  rcases List.eq_nil_or_concat cs with rfl | ⟨cs, a, rfl⟩
  · refine ⟨_, by
      rw [ListaNos.listRemoveLst, if_neg (by omega), hlast, hc, Option.bind_eq_bind,
        Option.bind_some, if_pos (by rw [hsize]; rfl)], ⟨⟨?_, ?_⟩, ?_, ?_⟩, ?_⟩
    · rfl
    · rfl
    · exact fun _ hm => absurd hm List.not_mem_nil
    · rfl
    · rfl
  · rw [List.concat_eq_append] at h hsize ⊢
    have ha := h.no (c := a) (by simp)
    have hprev : list.prev c = some a := by
      rw [h.duplo.prev_eq, List.getLast?_concat]
    refine ⟨_, by
      rw [ListaNos.listRemoveLst, if_neg (by omega), hlast, hc, Option.bind_eq_bind,
        Option.bind_some, if_neg (by rw [hsize, List.length_append]; simp; omega), hprev, ha]
      rfl, h.libertar ?_ ?_ (List.perm_append_singleton c _) ?_, ?_⟩
    · rw [List.append_assoc] at h
      exact h.duplo.dropLast
    · rfl
    · rfl
    · rfl

/-- A node between two others is taken out. -/
theorem retirar (h : Guarda list (as ++ a :: c :: b :: bs)) :
    ∃ list', list.retirar (some c) = some (list', 0, some (list.inf c)) ∧
      Guarda list' (as ++ a :: b :: bs) ∧ list'.inf = list.inf := by
  have hnext : list.next c = some b := by
    have : Guarda list ((as ++ [a]) ++ c :: b :: bs) := by rwa [← List.append_cons]
    exact this.duplo.next_eq
  have hprev : list.prev c = some a := by
    have : Guarda list ((as ++ [a]) ++ c :: b :: bs) := by rwa [← List.append_cons]
    rw [this.duplo.prev_eq, List.getLast?_concat]
  have hperm : (as ++ a :: c :: b :: bs).Perm (c :: (as ++ a :: b :: bs)) := by
    rw [List.append_cons as a (c :: b :: bs), List.append_cons as a (b :: bs)]
    exact List.perm_middle
  have ha := h.no (c := a) (by simp)
  have hb := h.no (c := b) (by simp)
  have hc := h.no (c := c) (by simp)
  refine ⟨_, by
    rw [ListaNos.retirar, hc, Option.bind_eq_bind, Option.bind_some, hprev, ha, Option.bind_some,
      hnext, hb]
    rfl, h.libertar ?_ ?_ hperm ?_, ?_⟩
  · exact h.duplo.remove
  · rfl
  · rfl
  · rfl

/-- `listRemoveAt` at any position. -/
theorem listRemoveAt_append (h : Guarda list (as ++ c :: bs)) :
    ∃ list', list.listRemoveAt as.length = some (list', 0, some (list.inf c)) ∧
      Guarda list' (as ++ bs) ∧ list'.inf = list.inf := by
  have hsize : list.size = as.length + bs.length + 1 := by
    rw [h.size, List.length_append, List.length_cons]
    push_cast
    omega
  obtain ⟨hforth, hback⟩ := h.andar
  have hlen : (list.size - (as.length : ℤ) - 1).toNat = bs.length := by omega
  rcases List.eq_nil_or_concat as with rfl | ⟨as, a, rfl⟩
  · rw [ListaNos.listRemoveAt, if_neg (by simp at hsize ⊢; omega), if_pos (by simp)]
    exact h.listRemoveFst
  · simp only [List.concat_eq_append] at h hforth hlen hsize ⊢
    rw [List.length_append, List.length_singleton] at hforth hlen hsize ⊢
    cases bs with
    | nil =>
        rw [ListaNos.listRemoveAt, if_neg (by simp at hsize ⊢; omega), if_neg (by omega),
          if_pos (by simp at hsize ⊢; omega), List.append_nil]
        exact h.listRemoveLst
    | cons b bs =>
        rw [List.append_assoc] at h ⊢
        rw [List.length_cons] at hsize
        rw [ListaNos.listRemoveAt, if_neg (by push_cast at hsize ⊢; omega), if_neg (by omega),
          if_neg (by push_cast at hsize ⊢; omega)]
        split
        · rw [hlen, hback, Option.bind_some]
          exact h.retirar
        · rw [Int.toNat_natCast, hforth, Option.bind_some]
          exact h.retirar

/-- `listAt` at any position. -/
theorem listAt_append (h : Guarda list (as ++ c :: bs)) :
    list.listAt as.length = some (0, list.inf c) := by
  have hsize : list.size = as.length + bs.length + 1 := by
    rw [h.size, List.length_append, List.length_cons]
    push_cast
    omega
  obtain ⟨hforth, hback⟩ := h.andar
  have hlen : (list.size - (as.length : ℤ) - 1).toNat = bs.length := by omega
  have hc := h.no (c := c) (by simp)
  rw [ListaNos.listAt, if_neg (by omega)]
  split
  · dsimp only
    rw [hlen, hback, Option.bind_some, hc]
    rfl
  · dsimp only
    rw [Int.toNat_natCast, hforth, Option.bind_some, hc]
    rfl

end Guarda

/-! ## Calls -/

inductive PedidoLista (α : Type) where
  | insertFst (inf : Option α) (new : ℕ)
  | insertLst (inf : Option α) (new : ℕ)
  | insertAt (index : ℤ) (inf : Option α) (new : ℕ)
  | removeFst
  | removeLst
  | removeAt (index : ℤ)

/-- What a call returns, and what it stores at `*inf`, if anything. -/
abbrev RespostaLista (α : Type) := ℤ × Option (Option α)

def ListaNos.executar (list : ListaNos α) :
    PedidoLista α → Option (ListaNos α × RespostaLista α)
  | .insertFst inf new => (list.listInsertFst inf new).map fun r => (r.1, r.2, none)
  | .insertLst inf new => (list.listInsertLst inf new).map fun r => (r.1, r.2, none)
  | .insertAt index inf new => (list.listInsertAt index inf new).map fun r => (r.1, r.2, none)
  | .removeFst => list.listRemoveFst
  | .removeLst => list.listRemoveLst
  | .removeAt index => list.listRemoveAt index

/-- What is allocated was not. -/
def ListaNos.Permitido (list : ListaNos α) : PedidoLista α → Prop
  | .insertFst _ new => new ∉ list.alocados
  | .insertLst _ new => new ∉ list.alocados
  | .insertAt _ _ new => new ∉ list.alocados
  | _ => True

instance ListaNos.decidablePermitido (list : ListaNos α) : ∀ p, Decidable (list.Permitido p)
  | .insertFst _ new => inferInstanceAs (Decidable (new ∉ list.alocados))
  | .insertLst _ new => inferInstanceAs (Decidable (new ∉ list.alocados))
  | .insertAt _ _ new => inferInstanceAs (Decidable (new ∉ list.alocados))
  | .removeFst => isTrue trivial
  | .removeLst => isTrue trivial
  | .removeAt _ => isTrue trivial

/-- The calls on a sequence. -/
def executarSequencia (xs : List (Option α)) :
    PedidoLista α → Option (List (Option α) × RespostaLista α)
  | .insertFst inf _ => some (inf :: xs, 0, none)
  | .insertLst inf _ => some (xs ++ [inf], 0, none)
  | .insertAt index inf _ =>
      if 0 ≤ index ∧ index ≤ xs.length then some (xs.insertIdx index.toNat inf, 0, none)
      else some (xs, 1, none)
  | .removeFst =>
      match xs with
      | [] => some ([], 1, some none)
      | x :: xs => some (xs, 0, some x)
  | .removeLst =>
      match xs.getLast? with
      | none => some (xs, 1, some none)
      | some x => some (xs.dropLast, 0, some x)
  | .removeAt index =>
      if 0 ≤ index ∧ index < xs.length then some (xs.eraseIdx index.toNat, 0, xs[index.toNat]?)
      else some (xs, 1, none)

/-! ## Positions -/

/-- The links, `first`, `last` and `size` describe the sequence `xs`. -/
def Descreve (list : ListaNos α) (xs : List (Option α)) : Prop :=
  ∃ cs, Guarda list cs ∧ xs = cs.map list.inf

theorem insertIdx_append {β : Type} (as bs : List β) (x : β) :
    (as ++ bs).insertIdx as.length x = as ++ x :: bs := by
  induction as with
  | nil => rfl
  | cons a as ih => rw [List.cons_append, List.length_cons, List.insertIdx_succ_cons, ih]; rfl

/-- What a new node holds does not concern the others. -/
theorem map_inf_update {inf : ℕ → Option α} {cs : List ℕ} {new : ℕ} (hn : new ∉ cs)
    (x : Option α) : cs.map (Function.update inf new x) = cs.map inf := by
  refine List.map_congr_left fun c hc => Function.update_of_ne ?_ ..
  rintro rfl
  exact hn hc

namespace Descreve

variable {list : ListaNos α} {xs : List (Option α)} {new : ℕ}

theorem size (h : Descreve list xs) : list.size = xs.length := by
  obtain ⟨cs, h, rfl⟩ := h
  rw [h.size, List.length_map]

theorem insertFst (h : Descreve list xs) (hn : new ∉ list.alocados) (inf : Option α) :
    ∃ list', list.listInsertFst inf new = some (list', 0) ∧ Descreve list' (inf :: xs) := by
  obtain ⟨cs, h, rfl⟩ := h
  obtain ⟨list', he, hg, hinf⟩ := h.listInsertFst hn inf
  refine ⟨list', he, _, hg, ?_⟩
  rw [hinf, List.map_cons, map_inf_update (h.notMem hn), Function.update_self]

theorem insertLst (h : Descreve list xs) (hn : new ∉ list.alocados) (inf : Option α) :
    ∃ list', list.listInsertLst inf new = some (list', 0) ∧ Descreve list' (xs ++ [inf]) := by
  obtain ⟨cs, h, rfl⟩ := h
  obtain ⟨list', he, hg, hinf⟩ := h.listInsertLst hn inf
  refine ⟨list', he, _, hg, ?_⟩
  rw [hinf, List.map_append, map_inf_update (h.notMem hn), List.map_singleton,
    Function.update_self]

/-- The element comes to the position. -/
theorem insertAt (h : Descreve list xs) (hn : new ∉ list.alocados) (inf : Option α) {i : ℕ}
    (hi : i ≤ xs.length) :
    ∃ list', list.listInsertAt i inf new = some (list', 0) ∧
      Descreve list' (xs.insertIdx i inf) := by
  obtain ⟨cs, h, rfl⟩ := h
  rw [List.length_map] at hi
  obtain ⟨as, bs, rfl, rfl⟩ : ∃ as bs, cs = as ++ bs ∧ as.length = i :=
    ⟨cs.take i, cs.drop i, (List.take_append_drop i cs).symm, List.length_take_of_le hi⟩
  obtain ⟨list', he, hg, hinf⟩ := h.listInsertAt_append hn inf
  obtain ⟨ha, hb⟩ := not_or.mp (List.mem_append.not.mp (h.notMem hn))
  refine ⟨list', he, _, hg, ?_⟩
  rw [hinf, List.map_append, List.map_append, List.map_cons, map_inf_update ha, map_inf_update hb,
    Function.update_self, ← insertIdx_append, List.length_map]

/-- The element at a position. -/
theorem at_getElem (h : Descreve list xs) {i : ℕ} (hi : i < xs.length) :
    ∃ as c bs, Guarda list (as ++ c :: bs) ∧ as.length = i ∧
      xs = as.map list.inf ++ list.inf c :: bs.map list.inf := by
  obtain ⟨cs, h, rfl⟩ := h
  rw [List.length_map] at hi
  have hcs : cs = cs.take i ++ cs[i] :: cs.drop (i + 1) := by
    rw [← List.drop_eq_getElem_cons, List.take_append_drop]
  refine ⟨_, _, _, hcs ▸ h, List.length_take_of_le hi.le, ?_⟩
  rw [← List.map_cons, ← List.map_append, ← hcs]

theorem removeAt (h : Descreve list xs) {i : ℕ} (hi : i < xs.length) :
    ∃ list', list.listRemoveAt i = some (list', 0, xs[i]?) ∧ Descreve list' (xs.eraseIdx i) := by
  obtain ⟨as, c, bs, hg, rfl, rfl⟩ := h.at_getElem hi
  obtain ⟨list', he, hg', hinf⟩ := hg.listRemoveAt_append
  have hlen : as.length = (as.map list.inf).length := (List.length_map ..).symm
  refine ⟨list', ?_, _, hg', ?_⟩
  · rw [he, List.getElem?_append_right hlen.ge]
    simp
  · rw [hinf, hlen, List.eraseIdx_append_of_length_le le_rfl, Nat.sub_self, List.eraseIdx_zero,
      List.map_append]
    rfl

theorem at_some (h : Descreve list xs) {i : ℕ} (hi : i < xs.length) :
    (list.listAt i).map (fun r => (r.1, some r.2)) = some (0, xs[i]?) := by
  obtain ⟨as, c, bs, hg, rfl, rfl⟩ := h.at_getElem hi
  rw [hg.listAt_append]
  simp

theorem removeFst (h : Descreve list xs) :
    ∃ list' xs' r, list.listRemoveFst = some (list', r) ∧
      executarSequencia xs .removeFst = some (xs', r) ∧ Descreve list' xs' := by
  obtain ⟨cs, h, rfl⟩ := h
  cases cs with
  | nil =>
      have hsize : list.size = 0 := h.size
      exact ⟨list, [], _, by rw [ListaNos.listRemoveFst, if_pos hsize], rfl, [], h, rfl⟩
  | cons c cs =>
      obtain ⟨list', he, hg, hinf⟩ := h.listRemoveFst
      exact ⟨list', _, _, he, rfl, cs, hg, by rw [hinf]⟩

theorem removeLst (h : Descreve list xs) :
    ∃ list' xs' r, list.listRemoveLst = some (list', r) ∧
      executarSequencia xs .removeLst = some (xs', r) ∧ Descreve list' xs' := by
  obtain ⟨cs, h, rfl⟩ := h
  rcases List.eq_nil_or_concat cs with rfl | ⟨cs, c, rfl⟩
  · have hsize : list.size = 0 := h.size
    exact ⟨list, [], _, by rw [ListaNos.listRemoveLst, if_pos hsize], rfl, [], h, rfl⟩
  · rw [List.concat_eq_append] at h ⊢
    obtain ⟨list', he, hg, hinf⟩ := h.listRemoveLst
    refine ⟨list', cs.map list.inf, _, he, ?_, cs, hg, by rw [hinf]⟩
    rw [executarSequencia, List.map_append, List.map_singleton, List.getLast?_concat,
      List.dropLast_concat]

/-- A position that does not exist leaves the list. -/
theorem insertAt_fora (h : Descreve list xs) {index : ℤ}
    (hi : ¬(0 ≤ index ∧ index ≤ xs.length)) (inf : Option α) (new : ℕ) :
    list.listInsertAt index inf new = some (list, 1) := by
  rw [ListaNos.listInsertAt, if_pos]
  rw [h.size]
  omega

theorem removeAt_fora (h : Descreve list xs) {index : ℤ}
    (hi : ¬(0 ≤ index ∧ index < xs.length)) :
    list.listRemoveAt index = some (list, 1, none) := by
  rw [ListaNos.listRemoveAt, if_pos]
  rw [h.size]
  omega

theorem at_fora (h : Descreve list xs) {index : ℤ} (hi : ¬(0 ≤ index ∧ index < xs.length)) :
    list.listAt index = some (1, none) := by
  rw [ListaNos.listAt, if_pos]
  rw [h.size]
  omega

/-- A call does to the sequence what it says. -/
theorem executar (h : Descreve list xs) {p : PedidoLista α} (hp : list.Permitido p) :
    ∃ list' xs' r, list.executar p = some (list', r) ∧ executarSequencia xs p = some (xs', r) ∧
      Descreve list' xs' := by
  cases p with
  | insertFst inf new =>
      obtain ⟨list', he, hd⟩ := h.insertFst hp inf
      exact ⟨list', _, _, by rw [ListaNos.executar, he]; rfl, rfl, hd⟩
  | insertLst inf new =>
      obtain ⟨list', he, hd⟩ := h.insertLst hp inf
      exact ⟨list', _, _, by rw [ListaNos.executar, he]; rfl, rfl, hd⟩
  | insertAt index inf new =>
      by_cases hi : 0 ≤ index ∧ index ≤ xs.length
      · obtain ⟨i, rfl⟩ := Int.eq_ofNat_of_zero_le hi.1
        obtain ⟨list', he, hd⟩ := h.insertAt hp inf (Int.ofNat_le.mp hi.2)
        exact ⟨list', _, _, by rw [ListaNos.executar, he]; rfl,
          by rw [executarSequencia, if_pos hi]; rfl, hd⟩
      · exact ⟨list, _, _, by rw [ListaNos.executar, h.insertAt_fora hi]; rfl,
          by rw [executarSequencia, if_neg hi], h⟩
  | removeFst => exact h.removeFst
  | removeLst => exact h.removeLst
  | removeAt index =>
      by_cases hi : 0 ≤ index ∧ index < xs.length
      · obtain ⟨i, rfl⟩ := Int.eq_ofNat_of_zero_le hi.1
        obtain ⟨list', he, hd⟩ := h.removeAt (Int.ofNat_lt.mp hi.2)
        exact ⟨list', _, _, he, by rw [executarSequencia, if_pos hi]; rfl, hd⟩
      · exact ⟨list, _, _, h.removeAt_fora hi, by rw [executarSequencia, if_neg hi], h⟩

end Descreve

/-- The positional operations. A list that calls have built describes a sequence, that of the same
calls on a sequence; a call for a position succeeds exactly if there is such a position, acts
there, and leaves the list otherwise. -/
theorem lista_posicional {ordem : ℕ → ℕ} {inf : ℕ → Option α} {prev next : ℕ → Option ℕ}
    {pedidos : List (PedidoLista α)} (hP : Runs.Permitted ListaNos.executar ListaNos.Permitido
      (ListaNos.newList ordem inf prev next) pedidos) :
    ∃ list xs rs,
      Runs.run ListaNos.executar (ListaNos.newList ordem inf prev next) pedidos =
        some (list, rs) ∧
      Runs.run executarSequencia [] pedidos = some (xs, rs) ∧ Descreve list xs ∧
      (∀ index inf new, new ∉ list.alocados →
        ∃ list' s, list.listInsertAt index inf new = some (list', s) ∧
          (s = 0 ↔ 0 ≤ index ∧ index ≤ list.size) ∧
          (s = 0 → Descreve list' (xs.insertIdx index.toNat inf)) ∧ (s ≠ 0 → list' = list)) ∧
      (∀ index, ∃ list' s v, list.listRemoveAt index = some (list', s, v) ∧
        (s = 0 ↔ 0 ≤ index ∧ index < list.size) ∧
        (s = 0 → v = xs[index.toNat]? ∧ Descreve list' (xs.eraseIdx index.toNat)) ∧
        (s ≠ 0 → list' = list)) ∧
      ∀ index, ∃ s v, list.listAt index = some (s, v) ∧
        (s = 0 ↔ 0 ≤ index ∧ index < list.size) ∧ (s = 0 → some v = xs[index.toNat]?) := by
  obtain ⟨list, xs, rs, hrun, hrun', h⟩ :=
    Runs.run_simulates (fun _ _ _ h hp => Descreve.executar h hp)
      (⟨[], guarda_newList ordem inf prev next, rfl⟩ : Descreve _ _) hP
  refine ⟨list, xs, rs, hrun, hrun', h, fun index inf new hn => ?_, fun index => ?_,
    fun index => ?_⟩
  · rw [h.size]
    by_cases hi : 0 ≤ index ∧ index ≤ xs.length
    · obtain ⟨i, rfl⟩ := Int.eq_ofNat_of_zero_le hi.1
      obtain ⟨list', he, hd⟩ := h.insertAt hn inf (Int.ofNat_le.mp hi.2)
      exact ⟨list', 0, he, iff_of_true rfl hi, fun _ => hd, fun h0 => absurd rfl h0⟩
    · exact ⟨list, 1, h.insertAt_fora hi inf new, iff_of_false one_ne_zero hi,
        fun h1 => absurd h1 one_ne_zero, fun _ => rfl⟩
  · rw [h.size]
    by_cases hi : 0 ≤ index ∧ index < xs.length
    · obtain ⟨i, rfl⟩ := Int.eq_ofNat_of_zero_le hi.1
      obtain ⟨list', he, hd⟩ := h.removeAt (Int.ofNat_lt.mp hi.2)
      exact ⟨list', 0, _, he, iff_of_true rfl hi, fun _ => ⟨rfl, hd⟩, fun h0 => absurd rfl h0⟩
    · exact ⟨list, 1, none, h.removeAt_fora hi, iff_of_false one_ne_zero hi,
        fun h1 => absurd h1 one_ne_zero, fun _ => rfl⟩
  · rw [h.size]
    by_cases hi : 0 ≤ index ∧ index < xs.length
    · obtain ⟨i, rfl⟩ := Int.eq_ofNat_of_zero_le hi.1
      obtain ⟨⟨s, v⟩, he, hr⟩ := Option.map_eq_some_iff.mp (h.at_some (Int.ofNat_lt.mp hi.2))
      obtain ⟨rfl, hv⟩ := Prod.mk.inj hr
      exact ⟨0, v, he, iff_of_true rfl hi, fun _ => hv⟩
    · exact ⟨1, none, h.at_fora hi, iff_of_false one_ne_zero hi,
        fun h1 => absurd h1 one_ne_zero⟩

/-- An insertion in the middle, and a removal at each end and beyond. -/
theorem lista_posicional_meio : ∃ list rs,
    Runs.run ListaNos.executar
        (ListaNos.newList (fun _ => 0) (fun _ => (none : Option ℕ)) (fun _ => none) fun _ => none)
        [.insertLst (some 1) 7, .insertFst (some 2) 8, .insertAt 1 (some 3) 9, .removeAt 2,
          .removeAt 2, .removeFst] = some (list, rs) ∧
      rs = [(0, none), (0, none), (0, none), (0, some (some 1)), (1, none), (0, some (some 2))] ∧
      Descreve list [some 3] := by
  have hP : Runs.Permitted ListaNos.executar ListaNos.Permitido
      (ListaNos.newList (fun _ => 0) (fun _ => (none : Option ℕ)) (fun _ => none) fun _ => none)
      [.insertLst (some 1) 7, .insertFst (some 2) 8, .insertAt 1 (some 3) 9, .removeAt 2,
        .removeAt 2, .removeFst] := by
    decide
  obtain ⟨list, xs, rs, hrun, hseq, hd, -⟩ := lista_posicional hP
  obtain ⟨rfl, rfl⟩ := Prod.mk.inj (Option.some.inj hseq)
  exact ⟨list, _, hrun, by decide, hd⟩

end ThreadScheduler.SnfsServer
