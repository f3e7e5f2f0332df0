import Mathlib.Data.List.Sort
import Mathlib.Data.List.TakeWhile
import ThreadScheduler.SnfsServer.BlockReferences
import ThreadScheduler.SnfsServer.ListCells

/-!
# The ordered list of references

`inserirOrdenado` in memory, and the loop with which `fs_diskUsage` takes the list apart. An
insertion counts the new node before it looks for its place; where the place is before the first
node, because that has the same number, the node is never linked.
-/
namespace ThreadScheduler.SnfsServer

open LinkedCells

namespace ListaNos

variable {α : Type}

/-- The loop that looks for a node with no smaller number, at most `n` nodes on. -/
def procurarOrdem (list : ListaNos α) (ordem : ℕ) : ℕ → Option ℕ → Option (Option ℕ)
  | _, none => some none
  | 0, some _ => none
  | n + 1, some ptr =>
      if ptr ∈ list.alocados then
        if list.ordem ptr < ordem then procurarOrdem list ordem n (list.next ptr)
        else some (some ptr)
      else none

/-- The end of `inserirOrdenado`: before `ptr`, if there is a node before it. -/
def inserirAntes (list : ListaNos α) (new : ℕ) : Option ℕ → Option (ListaNos α × ℤ)
  | none => some (list, -1)
  | some ptr =>
      match list.prev ptr with
      | none => some (list, -1)
      | some anterior =>
          if anterior ∈ list.alocados then
            some ({ list with
              next := Function.update (Function.update list.next anterior (some new)) new (some ptr)
              prev := Function.update (Function.update list.prev new (some anterior)) ptr
                (some new) }, 0)
          else none

/-- The new node of `inserirOrdenado`, which is counted. -/
def contar (list : ListaNos α) (inf : Option α) (ordem new : ℕ) : ListaNos α :=
  { list.alocar new inf with
    ordem := Function.update list.ordem new ordem, size := list.size + 1 }

/-- `inserirOrdenado`. -/
def inserirOrdenado (list : ListaNos α) (inf : Option α) (ordem new : ℕ) :
    Option (ListaNos α × ℤ) :=
  let ordem := ordem % 65536
  let novo := list.contar inf ordem new
  if list.size = 0 then
    some ({ novo with
      next := Function.update novo.next new none
      prev := Function.update novo.prev new none
      first := some new
      last := some new }, 0)
  else
    (novo.no novo.first).bind fun first =>
      if ordem < novo.ordem first then
        some ({ novo with
          prev := Function.update (Function.update novo.prev first (some new)) new none
          next := Function.update novo.next new (some first)
          first := some new }, 0)
      else
        (novo.no novo.last).bind fun last =>
          if novo.ordem last < ordem then
            some ({ novo with
              next := Function.update (Function.update novo.next last (some new)) new none
              prev := Function.update novo.prev new (some last)
              last := some new }, 0)
          else
            (novo.procurarOrdem ordem novo.alocados.card novo.first).bind (novo.inserirAntes new)

/-- The loop of `fs_diskUsage`, for at most `n` references: those that it reads. -/
def despejar : ℕ → ListaNos α → Option (List α)
  | 0, list => if list.size = 0 then some [] else none
  | n + 1, list =>
      if list.size = 0 then some []
      else do
        let (list, _, leitor) ← list.listRemoveFst
        let referencia ← leitor.join
        (despejar n list).map (referencia :: ·)

theorem ordem_listRemoveFst {list list' : ListaNos α} {r : ℤ × Option (Option α)}
    (h : list.listRemoveFst = some (list', r)) : list'.ordem = list.ordem := by
  rw [listRemoveFst] at h
  split at h
  · obtain ⟨rfl, -⟩ := Prod.mk.inj (Option.some.inj h)
    rfl
  · obtain ⟨aux, -, h⟩ := Option.bind_eq_some_iff.mp h
    split at h
    · obtain ⟨rfl, -⟩ := Prod.mk.inj (Option.some.inj h)
      rfl
    · obtain ⟨seguinte, -, h⟩ := Option.bind_eq_some_iff.mp h
      obtain ⟨rfl, -⟩ := Prod.mk.inj (Option.some.inj h)
      rfl

end ListaNos

/-! ## Where the insertion goes -/

/-- The place of a number in a list that has elements: before the first one, behind the last one,
the first one's own, or between two others, behind all smaller ones. -/
inductive Lugar {β : Type} (k : β → ℕ) (o : ℕ) (xs : List β) : Prop where
  | cabeca (x : β) (ys : List β) (hxs : xs = x :: ys) (hlt : o < k x)
  | fim (ys : List β) (y : β) (hxs : xs = ys ++ [y]) (hhead : ∀ x ∈ xs.head?, k x ≤ o)
      (hlt : k y < o)
  | igual (x : β) (ys : List β) (hxs : xs = x :: ys) (heq : k x = o)
      (hlast : ∀ y ∈ xs.getLast?, o ≤ k y)
  | meio (as : List β) (a b : β) (bs : List β) (hxs : xs = as ++ a :: b :: bs)
      (hlt : ∀ x ∈ as ++ [a], k x < o) (hle : o ≤ k b) (hlast : ∀ y ∈ xs.getLast?, o ≤ k y)

theorem lugar {β : Type} (k : β → ℕ) (o : ℕ) {xs : List β} (hne : xs ≠ []) : Lugar k o xs := by
  obtain ⟨x, ys, rfl⟩ := List.exists_cons_of_ne_nil hne
  by_cases hhead : o < k x
  · exact .cabeca x ys rfl hhead
  obtain ⟨zs, z, hz⟩ : ∃ zs z, x :: ys = zs ++ [z] :=
    ⟨_, _, (List.dropLast_append_getLast hne).symm⟩
  by_cases hlast : k z < o
  · refine .fim zs z hz (fun y hy => ?_) hlast
    obtain rfl := Option.some.inj hy
    exact Nat.le_of_not_lt hhead
  have hlast' : ∀ y ∈ (x :: ys).getLast?, o ≤ k y := by
    rw [hz, List.getLast?_concat]
    rintro y hy
    obtain rfl := Option.some.inj hy
    exact Nat.le_of_not_lt hlast
  by_cases heq : k x = o
  · exact .igual x ys rfl heq hlast'
  -- the smaller ones, which are not all, and of which the first one is one
  have hsplit := List.takeWhile_append_dropWhile (p := fun y => decide (k y < o)) (l := x :: ys)
  have htake : ∀ y ∈ (x :: ys).takeWhile fun y => decide (k y < o), k y < o := fun y hy => by
    simpa using List.mem_takeWhile_imp hy
  cases hd : (x :: ys).dropWhile fun y => decide (k y < o) with
  | nil =>
      have hall := List.dropWhile_eq_nil_iff.mp hd z (by simp [hz])
      exact absurd (of_decide_eq_true hall) hlast
  | cons b bs =>
      have hb : o ≤ k b := by
        have := List.head?_dropWhile_not (fun y => decide (k y < o)) (x :: ys)
        rw [hd] at this
        simpa using this
      rcases List.eq_nil_or_concat ((x :: ys).takeWhile fun y => decide (k y < o)) with
        ht | ⟨as, a, ht⟩
      · rw [List.takeWhile_cons_of_pos (by simp; omega)] at ht
        cases ht
      · rw [ht] at hsplit htake
        rw [hd, List.concat_eq_append, List.append_assoc] at hsplit
        rw [List.concat_eq_append] at htake
        exact .meio as a b bs hsplit.symm htake hb hlast'

section Nos

variable {lista : ListaRef} {inf : NoRef} {ordem : ℕ} {antes depois : List (ℕ × NoRef)}
  {first last : ℕ × NoRef}

theorem inserirOrdenado_vazia (h : lista.size = 0) :
    inserirOrdenado lista inf ordem = ⟨1, [(ordem % 65536, inf)]⟩ := by
  rw [inserirOrdenado, if_pos h]

theorem inserirOrdenado_cabeca (h : lista.size ≠ 0) (hnos : lista.nos = first :: depois)
    (hlt : ordem % 65536 < first.1) :
    inserirOrdenado lista inf ordem =
      ⟨lista.size + 1, (ordem % 65536, inf) :: lista.nos⟩ := by
  obtain ⟨last, hlast⟩ : ∃ last, lista.nos.getLast? = some last :=
    Option.ne_none_iff_exists'.mp (by simp [hnos])
  have hhead : lista.nos.head? = some first := by rw [hnos]; rfl
  simp only [inserirOrdenado, if_neg h, hhead, hlast, if_pos hlt]

theorem inserirOrdenado_fim (h : lista.size ≠ 0) (hfirst : lista.nos.head? = some first)
    (hle : first.1 ≤ ordem % 65536) (hlast : lista.nos.getLast? = some last)
    (hlt : last.1 < ordem % 65536) :
    inserirOrdenado lista inf ordem =
      ⟨lista.size + 1, lista.nos ++ [(ordem % 65536, inf)]⟩ := by
  simp only [inserirOrdenado, if_neg h, hfirst, hlast, if_neg (Nat.not_lt.mpr hle), if_pos hlt]

theorem inserirOrdenado_igual (h : lista.size ≠ 0) (hnos : lista.nos = first :: depois)
    (heq : first.1 = ordem % 65536) (hlast : lista.nos.getLast? = some last)
    (hle : ordem % 65536 ≤ last.1) :
    inserirOrdenado lista inf ordem = ⟨lista.size + 1, lista.nos⟩ := by
  have hhead : lista.nos.head? = some first := by rw [hnos]; rfl
  have hspan : lista.nos.span (fun no => no.1 < ordem % 65536) = ([], lista.nos) := by
    rw [List.span_eq_takeWhile_dropWhile, hnos, List.takeWhile_cons_of_neg (by simp [heq]),
      List.dropWhile_cons_of_neg (by simp [heq])]
  simp only [inserirOrdenado, if_neg h, hhead, hlast, if_neg (Nat.not_lt.mpr heq.le),
    if_neg (Nat.not_lt.mpr hle), hspan]

theorem inserirOrdenado_meio {a b : ℕ × NoRef} (h : lista.size ≠ 0)
    (hnos : lista.nos = antes ++ a :: b :: depois)
    (hlt : ∀ no ∈ antes ++ [a], no.1 < ordem % 65536) (hb : ordem % 65536 ≤ b.1)
    (hlast : lista.nos.getLast? = some last) (hle : ordem % 65536 ≤ last.1) :
    inserirOrdenado lista inf ordem =
      ⟨lista.size + 1, antes ++ a :: (ordem % 65536, inf) :: b :: depois⟩ := by
  obtain ⟨first, hfirst⟩ : ∃ first, lista.nos.head? = some first :=
    Option.ne_none_iff_exists'.mp (by simp [hnos])
  have hnot : ¬ ordem % 65536 < first.1 := by
    have hmem : first ∈ antes ++ [a] := by
      rw [hnos] at hfirst
      cases antes <;> simp_all
    exact Nat.not_lt.mpr (hlt first hmem).le
  have hspan : lista.nos.span (fun no => no.1 < ordem % 65536) =
      (antes ++ [a], b :: depois) := by
    rw [List.span_eq_takeWhile_dropWhile, hnos, List.append_cons,
      List.takeWhile_append_of_pos (by simpa using hlt),
      List.dropWhile_append_of_pos (by simpa using hlt),
      List.takeWhile_cons_of_neg (by simpa using hb),
      List.dropWhile_cons_of_neg (by simpa using hb), List.append_nil]
  simp only [inserirOrdenado, if_neg h, hfirst, hlast, if_neg hnot, if_neg (Nat.not_lt.mpr hle),
    hspan]
  cases antes <;> simp

theorem size_inserirOrdenado (h : lista.size = 0 ↔ lista.nos = []) :
    (inserirOrdenado lista inf ordem).size = lista.size + 1 := by
  by_cases hz : lista.size = 0
  · rw [inserirOrdenado_vazia hz, hz]
  obtain ⟨first, hfirst⟩ : ∃ first, lista.nos.head? = some first :=
    Option.ne_none_iff_exists'.mp (mt List.head?_eq_none_iff.mp (mt h.mpr hz))
  obtain ⟨last, hlast⟩ : ∃ last, lista.nos.getLast? = some last :=
    Option.ne_none_iff_exists'.mp (mt List.getLast?_eq_none_iff.mp (mt h.mpr hz))
  simp only [inserirOrdenado, if_neg hz, hfirst, hlast]
  split
  · rfl
  · split
    · rfl
    · split <;> rfl

/-- An insertion adds the number where the first one is another. -/
theorem inserirOrdenado_perm (h : lista.size = 0 ↔ lista.nos = [])
    (hfirst : ∀ first ∈ lista.nos.head?, first.1 ≠ ordem % 65536) :
    (inserirOrdenado lista inf ordem).nos.Perm ((ordem % 65536, inf) :: lista.nos) := by
  by_cases hz : lista.size = 0
  · rw [inserirOrdenado_vazia hz, h.mp hz]
  rcases lugar Prod.fst (ordem % 65536) (mt h.mpr hz) with ⟨c, ds, hnos, hlt⟩ |
    ⟨ds, d, hnos, hhead, hlt⟩ | ⟨c, ds, hnos, heq, -⟩ | ⟨as, a, b, bs, hnos, hlt, hle, hlast⟩
  · rw [inserirOrdenado_cabeca hz hnos hlt]
  · obtain ⟨c, hc⟩ : ∃ c, lista.nos.head? = some c := Option.ne_none_iff_exists'.mp (by simp [hnos])
    have hd : lista.nos.getLast? = some d := by rw [hnos, List.getLast?_concat]
    rw [inserirOrdenado_fim hz hc (hhead c hc) hd hlt]
    exact List.perm_append_singleton _ _
  · exact absurd heq (hfirst c (by rw [hnos]; rfl))
  · obtain ⟨d, hd⟩ : ∃ d, lista.nos.getLast? = some d :=
      Option.ne_none_iff_exists'.mp (by simp [hnos])
    rw [inserirOrdenado_meio hz hnos hlt hle hd (hlast d hd), hnos, List.append_cons,
      List.append_cons as a (b :: bs)]
    exact List.perm_middle

end Nos

/-! ## The insertion in memory -/

/-- The memory holds the list of references `lista` in the nodes `cs`. -/
structure Mostra (list : ListaNos NoRef) (lista : ListaRef) (cs : List ℕ) (ref : ℕ → NoRef) :
    Prop where
  duplo : Double list.next list.prev list.first list.last cs
  alocados : ∀ c ∈ cs, c ∈ list.alocados
  inf : ∀ c ∈ cs, list.inf c = some (ref c)
  size : list.size = lista.size
  nos : lista.nos = cs.map fun c => (list.ordem c, ref c)
  vazia : lista.size = 0 ↔ cs = []
  ordenada : cs.Pairwise fun c d => list.ordem c ≤ list.ordem d

/-- The loop finds the first node with no smaller number. -/
theorem procurarOrdem_chain {list : ListaNos NoRef} {o n b : ℕ} {as bs : List ℕ} {p : Option ℕ}
    (h : Chain list.next p (as ++ b :: bs)) (hal : ∀ c ∈ as ++ b :: bs, c ∈ list.alocados)
    (hn : (as ++ b :: bs).length ≤ n) (hlt : ∀ c ∈ as, list.ordem c < o) (hb : o ≤ list.ordem b) :
    list.procurarOrdem o n p = some (some b) := by
  induction as generalizing n p with
  | nil =>
      obtain ⟨rfl, -⟩ := h
      cases n with
      | zero => exact absurd hn (Nat.not_succ_le_zero _)
      | succ n =>
          rw [ListaNos.procurarOrdem, if_pos (hal b List.mem_cons_self),
            if_neg (Nat.not_lt.mpr hb)]
  | cons a as ih =>
      obtain ⟨rfl, htail⟩ := h
      cases n with
      | zero => exact absurd hn (Nat.not_succ_le_zero _)
      | succ n =>
          rw [ListaNos.procurarOrdem, if_pos (hal a List.mem_cons_self),
            if_pos (hlt a List.mem_cons_self)]
          exact ih htail (fun c hc => hal c (List.mem_cons_of_mem a hc))
            (Nat.le_of_succ_le_succ hn) fun c hc => hlt c (List.mem_cons_of_mem a hc)

namespace Mostra

variable {list : ListaNos NoRef} {lista : ListaRef} {cs : List ℕ} {ref : ℕ → NoRef} {new : ℕ}

theorem notMem (h : Mostra list lista cs ref) (hn : new ∉ list.alocados) : new ∉ cs := fun hm =>
  hn (h.alocados new hm)

/-- The old nodes beside a new one. -/
theorem map_update (h : Mostra list lista cs ref) (hn : new ∉ list.alocados) (inf : NoRef)
    (o : ℕ) {ds : List ℕ} (hds : ∀ c ∈ ds, c ∈ cs) :
    (ds.map fun c => (Function.update list.ordem new o c, Function.update ref new inf c)) =
      ds.map fun c => (list.ordem c, ref c) := by
  refine List.map_congr_left fun c hc => ?_
  have hcn : c ≠ new := by
    rintro rfl
    exact h.notMem hn (hds c hc)
  rw [Function.update_of_ne hcn, Function.update_of_ne hcn]

/-- What an insertion leaves that links the new node behind `as`. -/
theorem ligado {list' : ListaNos NoRef} {as bs : List ℕ} (h : Mostra list lista (as ++ bs) ref)
    (hn : new ∉ list.alocados) {inf : NoRef} {o : ℕ}
    (hd : Double list'.next list'.prev list'.first list'.last (as ++ new :: bs))
    (hal : list'.alocados = insert new list.alocados)
    (hinf : list'.inf = Function.update list.inf new (some inf))
    (hordem : list'.ordem = Function.update list.ordem new o) (hsize : list'.size = list.size + 1)
    (has : ∀ c ∈ as, list.ordem c ≤ o) (hbs : ∀ c ∈ bs, o ≤ list.ordem c) :
    Mostra list' ⟨lista.size + 1, (as.map fun c => (list.ordem c, ref c)) ++ (o, inf) ::
        bs.map fun c => (list.ordem c, ref c)⟩ (as ++ new :: bs)
      (Function.update ref new inf) := by
  have hcs : ∀ c ∈ as ++ new :: bs, c = new ∨ c ∈ as ++ bs := fun c hc =>
    List.mem_cons.mp (List.perm_middle.mem_iff.mp hc)
  have hne : ∀ c ∈ as ++ bs, c ≠ new := by
    rintro c hc rfl
    exact h.notMem hn hc
  have hold : ∀ c ∈ as ++ bs, Function.update list.ordem new o c = list.ordem c := fun c hc =>
    Function.update_of_ne (hne c hc) ..
  refine ⟨hd, fun c hc => ?_, fun c hc => ?_, ?_, ?_, ?_, ?_⟩
  · rw [hal, Finset.mem_insert]
    exact (hcs c hc).imp_right (h.alocados c)
  · rw [hinf]
    by_cases hcn : c = new
    · rw [hcn, Function.update_self, Function.update_self]
    · rw [Function.update_of_ne hcn, Function.update_of_ne hcn]
      exact h.inf c ((hcs c hc).resolve_left hcn)
  · rw [hsize, h.size]
    rfl
  · dsimp only
    rw [hordem, List.map_append, List.map_cons, Function.update_self, Function.update_self,
      h.map_update hn inf o fun c hc => List.mem_append_left bs hc,
      h.map_update hn inf o fun c hc => List.mem_append_right as hc]
  · exact iff_of_false (Nat.succ_ne_zero _) (by simp)
  · rw [hordem]
    obtain ⟨hsas, hsbs, hcross⟩ := List.pairwise_append.mp h.ordenada
    have hmem : ∀ {c}, c ∈ as → c ∈ as ++ bs := fun hc => List.mem_append_left bs hc
    have hmem' : ∀ {c}, c ∈ bs → c ∈ as ++ bs := fun hc => List.mem_append_right as hc
    refine List.pairwise_append.mpr ⟨hsas.imp_of_mem fun hc hd hle => ?_,
      List.pairwise_cons.mpr ⟨fun c hc => ?_, hsbs.imp_of_mem fun hc hd hle => ?_⟩,
      fun c hc d hd => ?_⟩
    · rwa [hold _ (hmem hc), hold _ (hmem hd)]
    · rw [Function.update_self, hold c (hmem' hc)]
      exact hbs c hc
    · rwa [hold _ (hmem' hc), hold _ (hmem' hd)]
    · rw [hold c (hmem hc)]
      rcases List.mem_cons.mp hd with rfl | hd
      · rw [Function.update_self]
        exact has c hc
      · rw [hold d (hmem' hd)]
        exact hcross c hc d hd

/-- What an insertion leaves that links nothing. -/
theorem solto {list' : ListaNos NoRef} (h : Mostra list lista cs ref) (hn : new ∉ list.alocados)
    {inf : NoRef} {o : ℕ} (hne : cs ≠ [])
    (hd : Double list'.next list'.prev list'.first list'.last cs)
    (hal : list'.alocados = insert new list.alocados)
    (hinf : list'.inf = Function.update list.inf new (some inf))
    (hordem : list'.ordem = Function.update list.ordem new o)
    (hsize : list'.size = list.size + 1) :
    Mostra list' ⟨lista.size + 1, lista.nos⟩ cs (Function.update ref new inf) := by
  have hold : ∀ c ∈ cs, c ≠ new := by
    rintro c hc rfl
    exact h.notMem hn hc
  refine ⟨hd, fun c hc => ?_, fun c hc => ?_, ?_, ?_, iff_of_false (Nat.succ_ne_zero _) hne, ?_⟩
  · rw [hal]
    exact Finset.mem_insert_of_mem (h.alocados c hc)
  · rw [hinf, Function.update_of_ne (hold c hc), Function.update_of_ne (hold c hc)]
    exact h.inf c hc
  · rw [hsize, h.size]
    rfl
  · dsimp only
    rw [hordem, h.map_update hn inf o fun c hc => hc, h.nos]
  · rw [hordem]
    refine h.ordenada.imp_of_mem fun hc hd hle => ?_
    rwa [Function.update_of_ne (hold _ hc), Function.update_of_ne (hold _ hd)]

/-! The new node, before its place is looked for. -/

theorem size_ne (h : Mostra list lista cs ref) (hcs : cs ≠ []) :
    list.size ≠ 0 ∧ lista.size ≠ 0 := by
  have hz : lista.size ≠ 0 := mt h.vazia.mp hcs
  rw [h.size]
  exact ⟨by exact_mod_cast hz, hz⟩

theorem ne_new (h : Mostra list lista cs ref) (hn : new ∉ list.alocados) {c : ℕ} (hc : c ∈ cs) :
    c ≠ new := by
  rintro rfl
  exact h.notMem hn hc

variable {inf : NoRef} {o : ℕ} {c : ℕ}

theorem no_contar (h : Mostra list lista cs ref) (hc : c ∈ cs) :
    (list.contar (some inf) o new).no (some c) = some c :=
  ListaNos.no_some (Finset.mem_insert_of_mem (h.alocados c hc))

theorem ordem_contar (h : Mostra list lista cs ref) (hn : new ∉ list.alocados) (hc : c ∈ cs) :
    (list.contar (some inf) o new).ordem c = list.ordem c :=
  Function.update_of_ne (h.ne_new hn hc) ..

theorem first_contar (h : Mostra list lista cs ref) :
    (list.contar (some inf) o new).first = cs.head? := h.duplo.first_eq

theorem last_contar (h : Mostra list lista cs ref) :
    (list.contar (some inf) o new).last = cs.getLast? := h.duplo.last_eq

theorem procurar_contar {as bs : List ℕ} {b : ℕ} (h : Mostra list lista (as ++ b :: bs) ref)
    (hn : new ∉ list.alocados) (hlt : ∀ c ∈ as, list.ordem c < o) (hle : o ≤ list.ordem b)
    (inf : NoRef) :
    (list.contar (some inf) o new).procurarOrdem o
        (list.contar (some inf) o new).alocados.card (as ++ b :: bs).head? = some (some b) := by
  have hcard : (as ++ b :: bs).length ≤ (list.contar (some inf) o new).alocados.card := by
    rw [← List.toFinset_card_of_nodup h.duplo.nodup]
    refine Finset.card_le_card fun c hc => ?_
    exact Finset.mem_insert_of_mem (h.alocados c (List.mem_toFinset.mp hc))
  refine procurarOrdem_chain (h.duplo.first_eq ▸ h.duplo.forth)
    (fun c hc => Finset.mem_insert_of_mem (h.alocados c hc)) hcard (fun c hc => ?_) ?_
  · rw [h.ordem_contar hn (List.mem_append_left _ hc)]
    exact hlt c hc
  · rwa [h.ordem_contar hn (by simp)]

/-! The places. -/

variable {ordem : ℕ} {ds as bs : List ℕ} {a b d : ℕ}

theorem inserir_vazia (h : Mostra list lista [] ref) (hn : new ∉ list.alocados) (inf : NoRef)
    (ordem : ℕ) :
    ∃ list', list.inserirOrdenado (some inf) ordem new = some (list', 0) ∧
      Mostra list' (SnfsServer.inserirOrdenado lista inf ordem) [new]
        (Function.update ref new inf) := by
  have hz : lista.size = 0 := h.vazia.mpr rfl
  have hsize : list.size = 0 := by rw [h.size, hz]; rfl
  refine ⟨_, by rw [ListaNos.inserirOrdenado, if_pos hsize], ?_⟩
  have hvazia : SnfsServer.inserirOrdenado lista inf ordem =
      ⟨lista.size + 1, [(ordem % 65536, inf)]⟩ := by
    rw [inserirOrdenado_vazia hz, hz]
  rw [hvazia]
  have h' : Mostra list lista ([] ++ []) ref := h
  exact h'.ligado hn (.single _ _ new) rfl rfl rfl rfl (by simp) (by simp)

/-- Before the first one. -/
theorem inserir_cabeca (h : Mostra list lista (c :: ds) ref) (hn : new ∉ list.alocados)
    (hlt : ordem % 65536 < list.ordem c) (inf : NoRef) :
    ∃ list', list.inserirOrdenado (some inf) ordem new = some (list', 0) ∧
      Mostra list' (SnfsServer.inserirOrdenado lista inf ordem) (new :: c :: ds)
        (Function.update ref new inf) := by
  obtain ⟨hsize, hz⟩ := h.size_ne (List.cons_ne_nil c ds)
  have hc := List.mem_cons_self (a := c) (l := ds)
  refine ⟨_, by
    rw [ListaNos.inserirOrdenado, if_neg hsize, h.first_contar, List.head?_cons, h.no_contar hc,
      Option.bind_some, if_pos (by rwa [h.ordem_contar hn hc])], ?_⟩
  rw [inserirOrdenado_cabeca hz (h.nos.trans (List.map_cons ..)) hlt, h.nos]
  have h' : Mostra list lista ([] ++ c :: ds) ref := h
  refine h'.ligado hn ?_ rfl rfl rfl rfl (by simp) fun d hd => ?_
  · have hd := h.duplo.pushFirst (h.notMem hn)
    rwa [Function.update_comm (h.ne_new hn hc).symm] at hd
  · rcases List.mem_cons.mp hd with rfl | hd
    · exact hlt.le
    · exact hlt.le.trans ((List.pairwise_cons.mp h.ordenada).1 d hd)

/-- No number is greater than that of the last one. -/
theorem ordem_le_last (h : Mostra list lista (ds ++ [d]) ref) (hb : b ∈ ds ++ [d]) :
    list.ordem b ≤ list.ordem d := by
  rcases List.mem_append.mp hb with hb | hb
  · exact (List.pairwise_append.mp h.ordenada).2.2 b hb d List.mem_cons_self
  · rw [List.mem_singleton.mp hb]

/-- Behind the last one. -/
theorem inserir_fim (h : Mostra list lista (ds ++ [d]) ref) (hn : new ∉ list.alocados)
    (hhead : ∀ c ∈ (ds ++ [d]).head?, list.ordem c ≤ ordem % 65536)
    (hlt : list.ordem d < ordem % 65536) (inf : NoRef) :
    ∃ list', list.inserirOrdenado (some inf) ordem new = some (list', 0) ∧
      Mostra list' (SnfsServer.inserirOrdenado lista inf ordem) (ds ++ [d] ++ [new])
        (Function.update ref new inf) := by
  obtain ⟨hsize, hz⟩ := h.size_ne (by simp)
  have hd : d ∈ ds ++ [d] := by simp
  obtain ⟨c, hc⟩ : ∃ c, (ds ++ [d]).head? = some c := Option.ne_none_iff_exists'.mp (by simp)
  have hcm := List.mem_of_mem_head? hc
  refine ⟨_, by
    rw [ListaNos.inserirOrdenado, if_neg hsize, h.first_contar, hc, h.no_contar hcm,
      Option.bind_some, if_neg (by rw [h.ordem_contar hn hcm]; exact (hhead c hc).not_gt),
      h.last_contar, List.getLast?_concat, h.no_contar hd, Option.bind_some,
      if_pos (by rwa [h.ordem_contar hn hd])], ?_⟩
  have hlast : lista.nos.getLast? = some (list.ordem d, ref d) := by
    rw [h.nos, List.map_append, List.map_singleton, List.getLast?_concat]
  have hfirst : lista.nos.head? = some (list.ordem c, ref c) := by
    rw [h.nos, List.head?_map, hc]
    rfl
  have hduplo := h.duplo.pushLast (h.notMem hn)
  rw [Function.update_comm (h.ne_new hn hd).symm, List.append_cons,
    show list.first = some c from h.duplo.first_eq.trans hc] at hduplo
  rw [inserirOrdenado_fim hz hfirst (hhead c hc) hlast hlt, h.nos]
  have h' : Mostra list lista ((ds ++ [d]) ++ []) ref := by rwa [List.append_nil]
  exact h'.ligado hn hduplo rfl rfl rfl rfl
    (fun b hb => (h.ordem_le_last hb).trans hlt.le) (by simp)

/-- The first one has the number, and there is no node before it. -/
theorem inserir_igual (h : Mostra list lista (c :: ds) ref) (hn : new ∉ list.alocados)
    (heq : list.ordem c = ordem % 65536)
    (hlast : ∀ d ∈ (c :: ds).getLast?, ordem % 65536 ≤ list.ordem d) (inf : NoRef) :
    ∃ list', list.inserirOrdenado (some inf) ordem new = some (list', -1) ∧
      Mostra list' (SnfsServer.inserirOrdenado lista inf ordem) (c :: ds)
        (Function.update ref new inf) := by
  obtain ⟨hsize, hz⟩ := h.size_ne (List.cons_ne_nil c ds)
  have hc := List.mem_cons_self (a := c) (l := ds)
  obtain ⟨d, hd⟩ : ∃ d, (c :: ds).getLast? = some d := Option.ne_none_iff_exists'.mp (by simp)
  have hdm := List.mem_of_getLast? hd
  have h' : Mostra list lista ([] ++ c :: ds) ref := h
  have hptr := h'.procurar_contar hn (by simp) heq.ge inf
  rw [List.nil_append, List.head?_cons] at hptr
  have hprev : (list.contar (some inf) (ordem % 65536) new).prev c = none := h'.duplo.prev_eq
  refine ⟨_, by
    rw [ListaNos.inserirOrdenado, if_neg hsize, h.first_contar, List.head?_cons, h.no_contar hc,
      Option.bind_some, if_neg (by rw [h.ordem_contar hn hc]; exact heq.le.not_gt),
      h.last_contar, hd, h.no_contar hdm, Option.bind_some,
      if_neg (by rw [h.ordem_contar hn hdm]; exact (hlast d hd).not_gt), hptr, Option.bind_some,
      ListaNos.inserirAntes, hprev], ?_⟩
  have hnos : lista.nos.getLast? = some (list.ordem d, ref d) := by
    rw [h.nos, List.getLast?_map, hd]
    rfl
  rw [inserirOrdenado_igual hz (h.nos.trans (List.map_cons ..)) heq hnos (hlast d hd)]
  exact h.solto hn (List.cons_ne_nil c ds) h.duplo rfl rfl rfl rfl

/-- Between two others, behind all smaller ones. -/
theorem inserir_meio (h : Mostra list lista (as ++ a :: b :: bs) ref)
    (hn : new ∉ list.alocados) (hlt : ∀ c ∈ as ++ [a], list.ordem c < ordem % 65536)
    (hle : ordem % 65536 ≤ list.ordem b)
    (hlast : ∀ d ∈ (as ++ a :: b :: bs).getLast?, ordem % 65536 ≤ list.ordem d) (inf : NoRef) :
    ∃ list', list.inserirOrdenado (some inf) ordem new = some (list', 0) ∧
      Mostra list' (SnfsServer.inserirOrdenado lista inf ordem) (as ++ [a] ++ new :: b :: bs)
        (Function.update ref new inf) := by
  obtain ⟨hsize, hz⟩ := h.size_ne (by simp)
  have ha : a ∈ as ++ a :: b :: bs := by simp
  obtain ⟨c, hc⟩ : ∃ c, (as ++ a :: b :: bs).head? = some c :=
    Option.ne_none_iff_exists'.mp (by simp)
  obtain ⟨d, hd⟩ : ∃ d, (as ++ a :: b :: bs).getLast? = some d :=
    Option.ne_none_iff_exists'.mp (by simp)
  have hcm := List.mem_of_mem_head? hc
  have hdm := List.mem_of_getLast? hd
  have hcas : c ∈ as ++ [a] := by
    cases as <;> simp_all
  have h' : Mostra list lista ((as ++ [a]) ++ b :: bs) ref := by rwa [← List.append_cons]
  have hptr := h'.procurar_contar hn hlt hle inf
  rw [← List.append_cons, hc] at hptr
  have hprev : (list.contar (some inf) (ordem % 65536) new).prev b = some a :=
    h'.duplo.prev_eq.trans List.getLast?_concat
  have hal : a ∈ (list.contar (some inf) (ordem % 65536) new).alocados :=
    Finset.mem_insert_of_mem (h.alocados a ha)
  refine ⟨_, by
    rw [ListaNos.inserirOrdenado, if_neg hsize, h.first_contar, hc, h.no_contar hcm,
      Option.bind_some, if_neg (by rw [h.ordem_contar hn hcm]; exact (hlt c hcas).not_gt),
      h.last_contar, hd, h.no_contar hdm, Option.bind_some,
      if_neg (by rw [h.ordem_contar hn hdm]; exact (hlast d hd).not_gt), hptr, Option.bind_some,
      ListaNos.inserirAntes, hprev]
    dsimp only
    rw [if_pos hal], ?_⟩
  have hnos : lista.nos = (as.map fun c => (list.ordem c, ref c)) ++ (list.ordem a, ref a) ::
      (list.ordem b, ref b) :: bs.map fun c => (list.ordem c, ref c) := by
    rw [h.nos, List.map_append, List.map_cons, List.map_cons]
  have hnos' : lista.nos.getLast? = some (list.ordem d, ref d) := by
    rw [h.nos, List.getLast?_map, hd]
    rfl
  have hantes : ∀ no ∈ (as.map fun c => (list.ordem c, ref c)) ++ [(list.ordem a, ref a)],
      no.1 < ordem % 65536 := by
    rw [← List.map_singleton (f := fun c => (list.ordem c, ref c)), ← List.map_append]
    rintro no hno
    obtain ⟨c, hc, rfl⟩ := List.mem_map.mp hno
    exact hlt c hc
  have hlista : (as.map fun c => (list.ordem c, ref c)) ++ (list.ordem a, ref a) ::
        (ordem % 65536, inf) :: (list.ordem b, ref b) ::
          (bs.map fun c => (list.ordem c, ref c)) =
      ((as ++ [a]).map fun c => (list.ordem c, ref c)) ++ (ordem % 65536, inf) ::
        (b :: bs).map fun c => (list.ordem c, ref c) := by
    simp
  have hduplo := h.duplo.insert (h.notMem hn)
  rw [Function.update_comm (h.ne_new hn ha).symm, List.append_cons] at hduplo
  rw [inserirOrdenado_meio hz hnos hantes hle hnos' (hlast d hd), hlista]
  refine h'.ligado hn hduplo rfl rfl rfl rfl (fun x hx => (hlt x hx).le) fun x hx => ?_
  rcases List.mem_cons.mp hx with rfl | hx
  · exact hle
  · exact hle.trans ((List.pairwise_cons.mp (List.pairwise_append.mp h'.ordenada).2.1).1 x hx)

/-- An insertion does to the list what `inserirOrdenado` says, and fails where the first node has
the number. -/
theorem inserirOrdenado (h : Mostra list lista cs ref) (hn : new ∉ list.alocados) (inf : NoRef)
    (ordem : ℕ) :
    ∃ list' s cs', list.inserirOrdenado (some inf) ordem new = some (list', s) ∧
      (s = 0 ↔ ∀ c ∈ cs.head?, list.ordem c ≠ ordem % 65536) ∧
      (s = 0 → cs'.Perm (new :: cs)) ∧
      Mostra list' (SnfsServer.inserirOrdenado lista inf ordem) cs'
        (Function.update ref new inf) := by
  by_cases hcs : cs = []
  · subst hcs
    obtain ⟨list', he, hm⟩ := h.inserir_vazia hn inf ordem
    exact ⟨list', 0, _, he, iff_of_true rfl (by simp), fun _ => List.Perm.refl _, hm⟩
  rcases lugar list.ordem (ordem % 65536) hcs with ⟨c, ds, rfl, hlt⟩ | ⟨ds, d, rfl, hhead, hlt⟩ |
    ⟨c, ds, rfl, heq, hlast⟩ | ⟨as, a, b, bs, rfl, hlt, hle, hlast⟩
  · obtain ⟨list', he, hm⟩ := h.inserir_cabeca hn hlt inf
    refine ⟨list', 0, _, he, iff_of_true rfl ?_, fun _ => List.Perm.refl _, hm⟩
    rintro d hd
    obtain rfl := Option.some.inj hd
    exact hlt.ne'
  · obtain ⟨list', he, hm⟩ := h.inserir_fim hn hhead hlt inf
    refine ⟨list', 0, _, he, iff_of_true rfl fun b hb => ?_,
      fun _ => List.perm_append_singleton new _, hm⟩
    exact ((h.ordem_le_last (List.mem_of_mem_head? hb)).trans_lt hlt).ne
  · obtain ⟨list', he, hm⟩ := h.inserir_igual hn heq hlast inf
    exact ⟨list', -1, _, he, iff_of_false (by decide) fun hall => hall c rfl heq,
      fun hs => absurd hs (by decide), hm⟩
  · obtain ⟨list', he, hm⟩ := h.inserir_meio hn hlt hle hlast inf
    refine ⟨list', 0, _, he, iff_of_true rfl fun c hc => ?_, fun _ => ?_, hm⟩
    · refine (hlt c ?_).ne
      cases as <;> simp_all
    · rw [List.append_cons as a (b :: bs)]
      exact List.perm_middle

/-- The first reference is taken out. -/
theorem listRemoveFst (h : Mostra list lista (c :: ds) ref)
    (hsize : lista.size = (c :: ds).length) :
    ∃ list', list.listRemoveFst = some (list', 0, some (some (ref c))) ∧
      Mostra list' ⟨lista.size - 1, lista.nos.tail⟩ ds ref := by
  have hg : Guarda list (c :: ds) := ⟨h.duplo, h.alocados, by rw [h.size, hsize]⟩
  obtain ⟨list', he, hg', hinf⟩ := hg.listRemoveFst
  have hordem := ListaNos.ordem_listRemoveFst he
  rw [h.inf c List.mem_cons_self] at he
  have hlen : lista.size - 1 = ds.length := by rw [hsize]; rfl
  refine ⟨list', he, hg'.duplo, hg'.alocados, fun d hd => ?_, ?_, ?_, ?_, ?_⟩
  · rw [hinf]
    exact h.inf d (List.mem_cons_of_mem c hd)
  · rw [hg'.size, hlen]
  · rw [h.nos, hordem]
    rfl
  · rw [hlen, List.length_eq_zero_iff]
  · rw [hordem]
    exact (List.pairwise_cons.mp h.ordenada).2

/-- The loop of `fs_diskUsage` reads each reference once, and ends. -/
theorem despejar (h : Mostra list lista cs ref) (hsize : lista.size = cs.length) :
    ListaNos.despejar cs.length list = some (cs.map ref) := by
  induction cs generalizing list lista with
  | nil =>
      have hz : list.size = 0 := by rw [h.size, hsize]; rfl
      rw [List.length_nil, ListaNos.despejar, if_pos hz]
      rfl
  | cons c ds ih =>
      obtain ⟨list', he, hm⟩ := h.listRemoveFst hsize
      have hlen : lista.size - 1 = ds.length := by rw [hsize]; rfl
      rw [List.length_cons, ListaNos.despejar, if_neg (h.size_ne (List.cons_ne_nil c ds)).1, he,
        Option.bind_eq_bind, Option.bind_some]
      dsimp only
      rw [Option.join_some, Option.bind_eq_bind, Option.bind_some, ih hm hlen]
      rfl

end Mostra

/-! ## Calls -/

inductive PedidoOrdenado where
  | inserirOrdenado (inf : NoRef) (ordem new : ℕ)
  | listRemoveFst

def ListaNos.executarOrdenado (list : ListaNos NoRef) :
    PedidoOrdenado → Option (ListaNos NoRef × RespostaLista NoRef)
  | .inserirOrdenado inf ordem new =>
      (list.inserirOrdenado (some inf) ordem new).map fun r => (r.1, r.2, none)
  | .listRemoveFst => list.listRemoveFst

/-- What is allocated was not. -/
def ListaNos.Aloca (list : ListaNos NoRef) : PedidoOrdenado → Prop
  | .inserirOrdenado _ _ new => new ∉ list.alocados
  | .listRemoveFst => True

/-- A reference is inserted where the list is empty or its first node has another number. -/
def ListaNos.PrimeiroDiferente (list : ListaNos NoRef) : PedidoOrdenado → Prop
  | .inserirOrdenado _ ordem _ => ∀ first ∈ list.first, list.ordem first ≠ ordem % 65536
  | .listRemoveFst => True

instance ListaNos.decidableAloca (list : ListaNos NoRef) : ∀ p, Decidable (list.Aloca p)
  | .inserirOrdenado _ _ new => inferInstanceAs (Decidable (new ∉ list.alocados))
  | .listRemoveFst => isTrue trivial

instance ListaNos.decidablePrimeiroDiferente (list : ListaNos NoRef) :
    ∀ p, Decidable (list.PrimeiroDiferente p)
  | .inserirOrdenado _ ordem _ =>
      inferInstanceAs (Decidable (∀ first ∈ list.first, list.ordem first ≠ ordem % 65536))
  | .listRemoveFst => isTrue trivial

/-- An insertion returns 0 and adds the reference to the nodes, which are linked both ways in the
order of their numbers and counted, and which the loop of `fs_diskUsage` reads one by one. -/
def ListaNos.Insere (list : ListaNos NoRef) : PedidoOrdenado → Prop
  | .inserirOrdenado inf ordem new =>
      ∃ cs list' cs' refs, Double list.next list.prev list.first list.last cs ∧
        list.inserirOrdenado (some inf) ordem new = some (list', 0) ∧
        Double list'.next list'.prev list'.first list'.last cs' ∧
        (cs'.map fun c => (list'.ordem c, list'.inf c)).Perm
          ((ordem % 65536, some inf) :: cs.map fun c => (list.ordem c, list.inf c)) ∧
        (cs'.map list'.ordem).Pairwise (· ≤ ·) ∧ list'.size = cs'.length ∧
        ListaNos.despejar cs'.length list' = some refs ∧ refs.map some = cs'.map list'.inf
  | .listRemoveFst => True

namespace Mostra

variable {list : ListaNos NoRef} {lista : ListaRef} {cs : List ℕ} {ref : ℕ → NoRef}

theorem nos_some (h : Mostra list lista cs ref) :
    (lista.nos.map fun no => (no.1, some no.2)) = cs.map fun c => (list.ordem c, list.inf c) := by
  rw [h.nos, List.map_map]
  exact List.map_congr_left fun c hc => by rw [Function.comp_apply, h.inf c hc]

/-- Where the list counts its nodes, an insertion does what it should exactly if the first node has
another number. -/
theorem insere_iff (h : Mostra list lista cs ref) (hsize : lista.size = cs.length)
    {p : PedidoOrdenado} (hp : list.Aloca p) : list.PrimeiroDiferente p ↔ list.Insere p := by
  cases p with
  | listRemoveFst => exact Iff.rfl
  | inserirOrdenado inf ordem new =>
      obtain ⟨list', s, cs', he, hs, hperm, hm⟩ := h.inserirOrdenado hp inf ordem
      rw [← h.duplo.first_eq] at hs
      constructor
      · intro hdif
        obtain rfl : s = 0 := hs.mpr hdif
        have hvazia : lista.size = 0 ↔ lista.nos = [] := by
          rw [h.vazia, h.nos, List.map_eq_nil_iff]
        have hsize' : (SnfsServer.inserirOrdenado lista inf ordem).size = cs'.length := by
          rw [size_inserirOrdenado hvazia, hsize, (hperm rfl).length_eq, List.length_cons]
        have hfirst : ∀ first ∈ lista.nos.head?, first.1 ≠ ordem % 65536 := by
          rw [h.nos, List.head?_map, ← h.duplo.first_eq]
          rintro no hno
          obtain ⟨c, hc, rfl⟩ := Option.map_eq_some_iff.mp hno
          exact hdif c hc
        refine ⟨cs, list', cs', _, h.duplo, he, hm.duplo, ?_, ?_, ?_, hm.despejar hsize', ?_⟩
        · rw [← hm.nos_some, ← h.nos_some]
          exact (inserirOrdenado_perm hvazia hfirst).map _
        · exact List.pairwise_map.mpr hm.ordenada
        · rw [hm.size, hsize']
        · rw [List.map_map]
          exact List.map_congr_left fun c hc => (hm.inf c hc).symm
      · rintro ⟨_, _, _, _, _, he', -⟩
        rw [he, Option.some.injEq, Prod.mk.injEq] at he'
        exact hs.mp he'.2

theorem executar (h : Mostra list lista cs ref) (hsize : lista.size = cs.length)
    {p : PedidoOrdenado} (hp : list.Aloca p) (hdif : list.PrimeiroDiferente p)
    {list' : ListaNos NoRef} {r : RespostaLista NoRef}
    (he : list.executarOrdenado p = some (list', r)) :
    ∃ lista' cs' ref', Mostra list' lista' cs' ref' ∧ lista'.size = cs'.length := by
  cases p with
  | listRemoveFst =>
      cases cs with
      | nil =>
          have hz : list.size = 0 := by rw [h.size, hsize]; rfl
          rw [ListaNos.executarOrdenado, ListaNos.listRemoveFst, if_pos hz] at he
          obtain ⟨rfl, -⟩ := Prod.mk.inj (Option.some.inj he)
          exact ⟨lista, [], ref, h, hsize⟩
      | cons c ds =>
          obtain ⟨list₁, he₁, hm⟩ := h.listRemoveFst hsize
          obtain ⟨rfl, -⟩ := Prod.mk.inj (Option.some.inj (he₁.symm.trans he))
          exact ⟨_, ds, ref, hm, by rw [hsize]; rfl⟩
  | inserirOrdenado inf ordem new =>
      obtain ⟨list₁, s, cs', he₁, hs, hperm, hm⟩ := h.inserirOrdenado hp inf ordem
      rw [← h.duplo.first_eq] at hs
      rw [ListaNos.executarOrdenado, he₁] at he
      obtain ⟨rfl, -⟩ := Prod.mk.inj (Option.some.inj he)
      have hvazia : lista.size = 0 ↔ lista.nos = [] := by
        rw [h.vazia, h.nos, List.map_eq_nil_iff]
      refine ⟨_, cs', _, hm, ?_⟩
      rw [size_inserirOrdenado hvazia, hsize, (hperm (hs.mpr hdif)).length_eq, List.length_cons]

end Mostra

/-- In a run of insertions and removals every insertion adds its reference exactly if every one of
them finds the list empty or another number in its first node. -/
theorem inserirOrdenado_sse {ordem : ℕ → ℕ} {inf : ℕ → Option NoRef} {prev next : ℕ → Option ℕ}
    {pedidos : List PedidoOrdenado} (hP : Runs.Permitted ListaNos.executarOrdenado ListaNos.Aloca
      (ListaNos.newList ordem inf prev next) pedidos) :
    Runs.Permitted ListaNos.executarOrdenado ListaNos.Insere
        (ListaNos.newList ordem inf prev next) pedidos ↔
      Runs.Permitted ListaNos.executarOrdenado ListaNos.PrimeiroDiferente
        (ListaNos.newList ordem inf prev next) pedidos := by
  have hinit : Mostra (ListaNos.newList ordem inf prev next) newList [] fun _ => ⟨0, none, []⟩ :=
    ⟨⟨rfl, rfl⟩, by simp, by simp, rfl, rfl, by simp [newList], .nil⟩
  refine (Runs.permitted_congr
    (I := fun list => ∃ lista cs ref, Mostra list lista cs ref ∧ lista.size = cs.length)
    ?_ ?_ ⟨newList, [], _, hinit, rfl⟩ hP).symm
  · rintro list p ⟨lista, cs, ref, h, hsize⟩ hp
    exact h.insere_iff hsize hp
  · rintro list p list' r ⟨lista, cs, ref, h, hsize⟩ hp hdif he
    exact h.executar hsize hp hdif he

/-- Between the nodes, at both ends and after removals. -/
theorem inserirOrdenado_sse_distintos :
    Runs.Permitted ListaNos.executarOrdenado ListaNos.Insere
      (ListaNos.newList (fun _ => 0) (fun _ => none) (fun _ => none) fun _ => none)
      [.inserirOrdenado ⟨5, none, []⟩ 5 1, .inserirOrdenado ⟨3, none, []⟩ 3 2,
        .inserirOrdenado ⟨5, none, [97]⟩ 5 3, .listRemoveFst, .inserirOrdenado ⟨9, none, []⟩ 9 4] := by
  refine (inserirOrdenado_sse ?_).mpr ?_
  · decide
  · decide

/-- Two files that share the first block, as after a copy: the second one is counted and not
inserted. -/
theorem inserirOrdenado_blocoPartilhado :
    (Runs.run ListaNos.executarOrdenado
      (ListaNos.newList (fun _ => 0) (fun _ => none) (fun _ => none) fun _ => none)
      [.inserirOrdenado ⟨5, none, [97]⟩ 5 1, .inserirOrdenado ⟨5, none, [98]⟩ 5 2]).map
        (fun r => (r.1.size, r.1.next 1, r.2)) = some (2, none, [(0, none), (-1, none)]) ∧
    ¬ Runs.Permitted ListaNos.executarOrdenado ListaNos.Insere
      (ListaNos.newList (fun _ => 0) (fun _ => none) (fun _ => none) fun _ => none)
      [.inserirOrdenado ⟨5, none, [97]⟩ 5 1, .inserirOrdenado ⟨5, none, [98]⟩ 5 2] := by
  refine ⟨rfl, ?_⟩
  rintro ⟨-, h⟩
  obtain ⟨-, list', -, -, -, he, -⟩ := (h _ _ rfl).1
  have hs : _ = some (0 : ℤ) := congrArg (Option.map Prod.snd) he
  exact absurd hs (by decide)

end ThreadScheduler.SnfsServer
