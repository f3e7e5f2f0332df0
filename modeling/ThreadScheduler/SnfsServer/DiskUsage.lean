import ThreadScheduler.SnfsServer.OrderedList

/-!
# The report of disk usage

`fs_diskUsage` takes the list of references apart and prints it, with a line for each block and one
for each path that uses it. A report is read back line by line.
-/
namespace ThreadScheduler.SnfsServer

/-- `listRemoveFst` on the nodes of the list; `none` is a node that is not there. -/
def ListaRef.listRemoveFst (lista : ListaRef) : Option (ListaRef × NoRef) :=
  match lista.nos with
  | [] => none
  | [no] => if lista.size = 1 then some (⟨0, []⟩, no.2) else none
  | no :: nos => if lista.size = 1 then some (⟨0, []⟩, no.2) else some (⟨lista.size - 1, nos⟩, no.2)

/-- A line of the report. -/
inductive Linha where
  | blkId (n : ℕ)
  | fileName (i : ℕ) (pathname : List Byte)

/-- The loop of `fs_diskUsage`, for at most `n` references. -/
def diskUsageLoop : ℕ → ListaRef → (idBloco i : ℕ) → Option (List Linha)
  | 0, lista, _, _ => if lista.size = 0 then some [] else none
  | n + 1, lista, idBloco, i =>
      if lista.size = 0 then some []
      else
        lista.listRemoveFst.bind fun (lista, referencia) =>
          if referencia.blockId ≠ idBloco then
            (diskUsageLoop n lista referencia.blockId 2).map fun linhas =>
              .blkId referencia.blockId :: .fileName 1 referencia.pathname :: linhas
          else
            (diskUsageLoop n lista idBloco (i + 1)).map fun linhas =>
              .fileName i referencia.pathname :: linhas

/-- `fs_diskUsage` with calls at most `n` deep: what it prints between the first line and the last
one. -/
def fsDiskUsage (fs : Fs) (n : ℕ) : Option (List Linha) :=
  (gerarListaReferenciasBuf fs n 1 [] newList).bind fun lista =>
    if lista.size = 0 then some []
    else
      lista.listRemoveFst.bind fun (resto, referencia) =>
        (diskUsageLoop lista.size resto referencia.blockId 2).map fun linhas =>
          .blkId referencia.blockId :: .fileName 1 referencia.pathname :: linhas

/-- The blocks with their paths, from the lines after those of block `b` of which `i - 1` paths
have been read. The blocks must grow, and the paths of each be numbered from 1. -/
def lerLinhas : (b i : ℕ) → List Linha → Option (List (ℕ × List Byte))
  | _, _, [] => some []
  | b, _, .blkId b' :: linhas => if b < b' then lerLinhas b' 1 linhas else none
  | b, i, .fileName j pathname :: linhas =>
      if j = i then (lerLinhas b (i + 1) linhas).map ((b, pathname) :: ·) else none

/-! ## The list -/

namespace ListaRef

/-- The block and the path of each node. -/
def pares (lista : ListaRef) : List (ℕ × List Byte) :=
  lista.nos.map fun no => (no.2.blockId, no.2.pathname)

/-- A list that counts its nodes and has them in order, the first one of block 10. -/
structure Boa (lista : ListaRef) : Prop where
  size : lista.size = lista.nos.length
  ordenada : lista.nos.Pairwise fun no no' => no.1 ≤ no'.1
  chave : ∀ no ∈ lista.nos, no.1 = no.2.blockId
  primeira : ∀ no ∈ lista.nos.head?, no.1 = 10

namespace Boa

variable {lista : ListaRef} {inf : NoRef}

theorem vazia : newList.Boa where
  size := rfl
  ordenada := .nil
  chave _ h := absurd h List.not_mem_nil
  primeira _ h := nomatch h

/-- The first block is 10, and no other one is. -/
theorem inserir (h : lista.Boa) (hb : inf.blockId < 65536)
    (hlugar : lista.nos = [] ∧ inf.blockId = 10 ∨ lista.nos ≠ [] ∧ 10 < inf.blockId) :
    (inserirOrdenado lista inf inf.blockId).Boa ∧
      (inserirOrdenado lista inf inf.blockId).nos ≠ [] ∧
      (inserirOrdenado lista inf inf.blockId).pares.Perm
        ((inf.blockId, inf.pathname) :: lista.pares) := by
  have hmod : inf.blockId % 65536 = inf.blockId := Nat.mod_eq_of_lt hb
  rcases hlugar with ⟨hnil, h10⟩ | ⟨hne, hgt⟩
  · have hz : lista.size = 0 := by rw [h.size, hnil]; rfl
    rw [inserirOrdenado_vazia hz, hmod]
    refine ⟨⟨rfl, List.pairwise_singleton _ _, ?_, ?_⟩, List.cons_ne_nil _ _, ?_⟩
    · simp
    · simp [h10]
    · rw [pares, pares, hnil]
      rfl
  · have hz : lista.size ≠ 0 := by
      rw [h.size]
      exact fun he => hne (List.length_eq_zero_iff.mp he)
    obtain ⟨first, hfirst⟩ : ∃ first, lista.nos.head? = some first :=
      Option.ne_none_iff_exists'.mp (mt List.head?_eq_none_iff.mp hne)
    have hf : first.1 = 10 := h.primeira first hfirst
    have hord := h.ordenada
    have hchave : ∀ no ∈ (inf.blockId, inf) :: lista.nos, no.1 = no.2.blockId := by
      rw [List.forall_mem_cons]
      exact ⟨rfl, h.chave⟩
    rcases lugar Prod.fst inf.blockId hne with ⟨c, ds, hnos, hlt⟩ | ⟨ds, d, hnos, hhead, hlt⟩ |
      ⟨c, ds, hnos, heq, -⟩ | ⟨as, a, b, bs, hnos, hlt, hle, hlast⟩
    · rw [hnos] at hfirst
      obtain rfl := Option.some.inj hfirst
      omega
    · have hd : lista.nos.getLast? = some d := by rw [hnos, List.getLast?_concat]
      rw [inserirOrdenado_fim hz hfirst (by omega) hd (by omega), hmod]
      refine ⟨⟨?_, ?_, fun no hno => ?_, fun no hno => ?_⟩, by simp, ?_⟩
      · rw [List.length_append, h.size]
        rfl
      · refine List.pairwise_append.mpr ⟨hord, List.pairwise_singleton _ _, fun x hx y hy => ?_⟩
        obtain rfl := List.mem_singleton.mp hy
        rw [hnos] at hord hx
        rcases List.mem_append.mp hx with hx | hx
        · exact ((List.pairwise_append.mp hord).2.2 x hx d (by simp)).trans hlt.le
        · obtain rfl := List.mem_singleton.mp hx
          exact hlt.le
      · exact hchave no ((List.perm_append_singleton _ _).mem_iff.mp hno)
      · rw [List.head?_append_of_ne_nil _ hne] at hno
        exact h.primeira no hno
      · rw [pares, pares, List.map_append]
        exact List.perm_append_singleton _ _
    · rw [hnos] at hfirst
      obtain rfl := Option.some.inj hfirst
      omega
    · obtain ⟨d, hd⟩ : ∃ d, lista.nos.getLast? = some d :=
        Option.ne_none_iff_exists'.mp (mt List.getLast?_eq_none_iff.mp hne)
      rw [inserirOrdenado_meio hz hnos (by rwa [hmod]) (by rwa [hmod]) hd
        (by rw [hmod]; exact hlast d hd), hmod]
      have hperm : (as ++ a :: (inf.blockId, inf) :: b :: bs).Perm
          ((inf.blockId, inf) :: lista.nos) := by
        rw [hnos, List.append_cons, List.append_cons as a (b :: bs)]
        exact List.perm_middle
      refine ⟨⟨?_, ?_, fun no hno => hchave no (hperm.mem_iff.mp hno), fun no hno => ?_⟩,
        by simp, hperm.map fun no : ℕ × NoRef => (no.2.blockId, no.2.pathname)⟩
      · rw [hperm.length_eq, List.length_cons, h.size]
      · rw [hnos, List.append_cons as a (b :: bs)] at hord
        obtain ⟨h₁, h₂, h₃⟩ := List.pairwise_append.mp hord
        rw [List.append_cons as a (_ :: b :: bs)]
        refine List.pairwise_append.mpr ⟨h₁, List.pairwise_cons.mpr ⟨?_, h₂⟩, ?_⟩
        · refine List.forall_mem_cons.mpr ⟨hle, fun x hx => ?_⟩
          exact hle.trans ((List.pairwise_cons.mp h₂).1 x hx)
        · exact fun x hx => List.forall_mem_cons.mpr ⟨(hlt x hx).le, h₃ x hx⟩
      · have hhead : (as ++ a :: b :: bs).head? =
            (as ++ a :: (inf.blockId, inf) :: b :: bs).head? := by
          cases as <;> rfl
        rw [← hhead, ← hnos] at hno
        exact h.primeira no hno

/-- The first reference of a list that counts its nodes. -/
theorem removeFst {no : ℕ × NoRef} {nos : List (ℕ × NoRef)} :
    (⟨nos.length + 1, no :: nos⟩ : ListaRef).listRemoveFst = some (⟨nos.length, nos⟩, no.2) := by
  cases nos <;> simp [listRemoveFst]

end Boa

end ListaRef

/-! ## The report -/

/-- What the loop prints is read back as what is in the list. -/
theorem lerLinhas_loop {nos : List (ℕ × NoRef)} (hord : nos.Pairwise fun no no' => no.1 ≤ no'.1)
    (hchave : ∀ no ∈ nos, no.1 = no.2.blockId) {n b : ℕ} (hn : nos.length ≤ n)
    (hb : ∀ no ∈ nos, b ≤ no.1) (i : ℕ) :
    ∃ linhas, diskUsageLoop n ⟨nos.length, nos⟩ b i = some linhas ∧
      lerLinhas b i linhas = some (ListaRef.pares ⟨nos.length, nos⟩) := by
  induction nos generalizing n b i with
  | nil => cases n <;> exact ⟨[], rfl, rfl⟩
  | cons no nos ih =>
      obtain ⟨hno, hord⟩ := List.pairwise_cons.mp hord
      obtain ⟨hk, hchave⟩ := List.forall_mem_cons.mp hchave
      have hle := hb no List.mem_cons_self
      cases n with
      | zero => exact absurd hn (by simp)
      | succ n =>
          have hn : nos.length ≤ n := Nat.le_of_succ_le_succ hn
          have hrem : (⟨(no :: nos).length, no :: nos⟩ : ListaRef).listRemoveFst =
              some (⟨nos.length, nos⟩, no.2) := ListaRef.Boa.removeFst
          have hz : (⟨(no :: nos).length, no :: nos⟩ : ListaRef).size ≠ 0 := Nat.succ_ne_zero _
          rw [diskUsageLoop, if_neg hz, hrem, Option.bind_some]
          dsimp only
          by_cases he : no.2.blockId = b
          · obtain ⟨linhas, hl, hr⟩ := ih hord hchave hn
              (fun x hx => hle.trans (hno x hx)) (i + 1)
            refine ⟨.fileName i no.2.pathname :: linhas, ?_, ?_⟩
            · rw [if_neg (not_not.mpr he), hl]
              rfl
            · rw [lerLinhas, if_pos rfl, hr, ← he]
              rfl
          · obtain ⟨linhas, hl, hr⟩ := ih hord hchave hn (fun x hx => hk ▸ hno x hx) 2
            refine ⟨.blkId no.2.blockId :: .fileName 1 no.2.pathname :: linhas, ?_, ?_⟩
            · rw [if_pos he, hl]
              rfl
            · rw [lerLinhas, if_pos (by omega), lerLinhas, if_pos rfl, hr]
              rfl

/-- The report of a list in order is read back as what is in the list. -/
theorem lerLinhas_diskUsage {fs : Fs} {n : ℕ} {lista : ListaRef}
    (hl : gerarListaReferenciasBuf fs n 1 [] newList = some lista) (h : lista.Boa) :
    ∃ linhas, fsDiskUsage fs n = some linhas ∧ lerLinhas 0 1 linhas = some lista.pares := by
  obtain ⟨size, nos⟩ := lista
  obtain rfl : size = nos.length := h.size
  rw [fsDiskUsage, hl, Option.bind_some]
  cases nos with
  | nil => exact ⟨[], rfl, rfl⟩
  | cons no nos =>
      obtain ⟨hno, hord⟩ := List.pairwise_cons.mp h.ordenada
      obtain ⟨hk, hchave⟩ := List.forall_mem_cons.mp h.chave
      have h10 : no.1 = 10 := h.primeira no rfl
      obtain ⟨linhas, hloop, hr⟩ := lerLinhas_loop hord hchave
        (Nat.le_succ nos.length) (fun x hx => hk ▸ hno x hx) 2
      have hrem : (⟨(no :: nos).length, no :: nos⟩ : ListaRef).listRemoveFst =
          some (⟨nos.length, nos⟩, no.2) := ListaRef.Boa.removeFst
      refine ⟨.blkId no.2.blockId :: .fileName 1 no.2.pathname :: linhas, ?_, ?_⟩
      · have hz : (⟨(no :: nos).length, no :: nos⟩ : ListaRef).size ≠ 0 := Nat.succ_ne_zero _
        rw [if_neg hz, hrem, Option.bind_some]
        exact congrArg (Option.map _) hloop
      · rw [lerLinhas, if_pos (by omega), lerLinhas, if_pos rfl, hr]
        rfl

end ThreadScheduler.SnfsServer
