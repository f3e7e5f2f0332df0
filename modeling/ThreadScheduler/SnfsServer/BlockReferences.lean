import Mathlib.Logic.Relation
import ThreadScheduler.SnfsServer.CallEffects
import ThreadScheduler.SnfsServer.DirSearch
import ThreadScheduler.SnfsServer.Namespace
import ThreadScheduler.SnfsServer.RemoveName

/-!
# The list of block references

`gerar_lista_referencias` walks the directories from the root, with no depth limit and no record
of what it has seen. It ends because an entry names an i-node that was created after the directory:
i-node numbers are used again, but the numbers of new entries are those of new i-nodes.
-/
namespace ThreadScheduler.SnfsServer

/-- `noRef_`; the i-node of a file block is left unset. -/
structure NoRef where
  blockId : ℕ
  inodeId : Option ℕ
  pathname : List Byte

/-- `SList`, with the `ordem` of each node. -/
structure ListaRef where
  size : ℕ
  nos : List (ℕ × NoRef)

/-- `newList`. -/
def newList : ListaRef := ⟨0, []⟩

/-- `inserirOrdenado`; its status is ignored everywhere. A number that the first node already has
is counted and not inserted. -/
def inserirOrdenado (lista : ListaRef) (inf : NoRef) (ordem : ℕ) : ListaRef :=
  let novo := (ordem % 65536, inf)
  if lista.size = 0 then ⟨1, [novo]⟩
  else
    match lista.nos.head?, lista.nos.getLast? with
    | some first, some last =>
        if novo.1 < first.1 then ⟨lista.size + 1, novo :: lista.nos⟩
        else if last.1 < novo.1 then ⟨lista.size + 1, lista.nos ++ [novo]⟩
        else
          match lista.nos.span fun no => no.1 < novo.1 with
          | ([], _) => ⟨lista.size + 1, lista.nos⟩
          | (antes, depois) => ⟨lista.size + 1, antes ++ novo :: depois⟩
    | _, _ => lista

/-- The loop of `gerar_lista_referencias_aux` over the blocks of a file. -/
def listarBlocos (fs : Fs) (inode : ℕ) (path : List Byte) (lista : ListaRef) : ListaRef :=
  (List.range (offsetToBlocks (fs.inodeTab inode).size)).foldl
    (fun lista i => inserirOrdenado lista ⟨(fs.inodeTab inode).blocks i, none, path⟩
      ((fs.inodeTab inode).blocks i))
    lista

/-- The loop over the entries of a page, from entry `i` for `n` entries; `visita` is the call for
an entry, with the path that `strcat` leaves in `newPath`. -/
def listarPagina (visita : ℕ → List Byte → ListaRef → Option ListaRef) (page : Block)
    (path : List Byte) : ℕ → ℕ → ListaRef → Option ListaRef
  | _, 0, lista => some lista
  | i, n + 1, lista =>
      (visita (inodeidAt page i) (path ++ barra :: nameAt page i) lista).bind
        (listarPagina visita page path (i + 1) n)

/-- The loop over the pages of what is no file, with `num` entries left. -/
def listarDirectorio (visita : ℕ → List Byte → ListaRef → Option ListaRef) (fs : Fs) (inode : ℕ)
    (path : List Byte) (num iblock : ℕ) (lista : ListaRef) : Option ListaRef :=
  if num = 0 then some lista
  else
    let b := (fs.inodeTab inode).blocks iblock
    let lista := inserirOrdenado lista ⟨b, some inode, if inode = 1 then [barra] else path⟩ b
    (listarPagina visita (fs.readDisk b) path 0 (min num dirPageEntries) lista).bind
      (listarDirectorio visita fs inode path (num - dirPageEntries) (iblock + 1))
termination_by num

/-- `gerar_lista_referencias_aux`, for calls at most `n` deep; `none` means that this is too few.
The buffers take any path; `gerarListaReferenciasBuf` has them as the code allocates them. -/
def gerarListaReferenciasAux (fs : Fs) : ℕ → ℕ → List Byte → ListaRef → Option ListaRef
  | 0, _, _, _ => none
  | n + 1, inode, path, lista =>
      if (fs.inodeTab inode).type = .fsFile then some (listarBlocos fs inode path lista)
      else listarDirectorio (gerarListaReferenciasAux fs n) fs inode path
        ((fs.inodeTab inode).size / 16) 0 lista

/-- `gerar_lista_referencias`, for calls at most `n` deep. -/
def gerarListaReferencias (fs : Fs) (n : ℕ) : Option ListaRef :=
  gerarListaReferenciasAux fs n 1 [] newList

/-- `gerar_lista_referencias_aux` where `newPath` has `MAX_PATH_NAME_SIZE + 1` characters, as the
code has it: `none` also means that `strcat` writes behind them. -/
def gerarListaReferenciasBuf (fs : Fs) : ℕ → ℕ → List Byte → ListaRef → Option ListaRef
  | 0, _, _, _ => none
  | n + 1, inode, path, lista =>
      if (fs.inodeTab inode).type = .fsFile then some (listarBlocos fs inode path lista)
      else
        listarDirectorio
          (fun inodeid newPath lista =>
            if newPath.length ≤ maxPathNameSize then
              gerarListaReferenciasBuf fs n inodeid newPath lista
            else none)
          fs inode path ((fs.inodeTab inode).size / 16) 0 lista

namespace Fs

/-- The name of entry `k`. -/
def nomeDisco (fs : Fs) (d k : ℕ) : List Byte := nameAt (fs.paginaDisco d k) (k % dirPageEntries)

/-- What is no file has an entry, within its size, that names the i-node. -/
def Nomeia (fs : Fs) (d i : ℕ) : Prop :=
  fs.typeAt d ≠ .fsFile ∧ ∃ k < fs.sizeAt d / 16, fs.inodeDisco d k = i

/-- Each entry of a directory names an i-node of higher rank. -/
def Ordenado (fs : Fs) (t : ℕ → ℕ) : Prop :=
  ∀ d, fs.typeAt d = .fsDir → ∀ e ∈ fs.entradas d, t d < t e.2

/-! ## The walk -/

section Visita

variable {visita visita' : ℕ → List Byte → ListaRef → Option ListaRef} {fs : Fs} {inode : ℕ}
  {path : List Byte}

theorem listarPagina_isSome (page : Block) {i n : ℕ} (lista : ListaRef)
    (h : ∀ k < n, ∀ p l, (visita (inodeidAt page (i + k)) p l).isSome = true) :
    (listarPagina visita page path i n lista).isSome = true := by
  induction n generalizing i lista with
  | zero => rfl
  | succ n ih =>
      obtain ⟨lista', hv⟩ := Option.isSome_iff_exists.mp (h 0 (Nat.succ_pos n)
        (path ++ barra :: nameAt page i) lista)
      rw [listarPagina, show visita (inodeidAt page i) _ lista = some lista' from hv]
      refine ih lista' fun k hk => ?_
      rw [Nat.add_right_comm, Nat.add_assoc]
      exact h (k + 1) (by omega)

theorem listarDirectorio_isSome {num iblock : ℕ} (lista : ListaRef)
    (h : ∀ k < num, ∀ p l,
      (visita (fs.inodeDisco inode (dirPageEntries * iblock + k)) p l).isSome = true) :
    (listarDirectorio visita fs inode path num iblock lista).isSome = true := by
  induction num using Nat.strong_induction_on generalizing iblock lista with
  | _ num ih =>
      rw [listarDirectorio]
      split
      · rfl
      · rename_i hne
        dsimp only
        generalize inserirOrdenado lista _ _ = lista₁
        have hpage : (listarPagina visita (fs.readDisk ((fs.inodeTab inode).blocks iblock)) path 0
            (min num dirPageEntries) lista₁).isSome = true := by
          refine listarPagina_isSome _ lista₁ fun k hk p l => ?_
          obtain ⟨hpag, hmod⟩ := paginaDisco_eq fs inode iblock (hk.trans_le (Nat.min_le_right _ _))
          have := h k (hk.trans_le (Nat.min_le_left _ _)) p l
          rw [inodeDisco, hpag, hmod] at this
          rwa [Nat.zero_add]
        obtain ⟨lista', hp⟩ := Option.isSome_iff_exists.mp hpage
        rw [hp, Option.bind_some]
        refine ih _ (sub_page_lt hne) lista' fun k hk => ?_
        have := h (dirPageEntries + k) (by omega)
        rwa [← Nat.add_assoc, ← Nat.mul_succ] at this

/-- Where the calls for the entries end, other calls do the same, and `Q` holds of the entry. -/
theorem listarPagina_imp {Q : ℕ → Prop} {page : Block} {i n : ℕ} {lista r : ListaRef}
    (hv : ∀ k < n, ∀ l s,
      visita (inodeidAt page (i + k)) (path ++ barra :: nameAt page (i + k)) l = some s →
        visita' (inodeidAt page (i + k)) (path ++ barra :: nameAt page (i + k)) l = some s ∧ Q k)
    (h : listarPagina visita page path i n lista = some r) :
    listarPagina visita' page path i n lista = some r ∧ ∀ k < n, Q k := by
  induction n generalizing i lista Q with
  | zero => exact ⟨h, fun k hk => absurd hk (Nat.not_lt_zero k)⟩
  | succ n ih =>
      rw [listarPagina] at h ⊢
      obtain ⟨lista', h₁, h₂⟩ := Option.bind_eq_some_iff.mp h
      obtain ⟨h₁', hQ⟩ := hv 0 (Nat.succ_pos n) _ _ h₁
      rw [Nat.add_zero] at h₁'
      rw [h₁', Option.bind_some]
      obtain ⟨h₂', hQs⟩ := ih (Q := fun k => Q (k + 1)) (fun k hk l s hs => by
        rw [Nat.add_right_comm, Nat.add_assoc] at hs ⊢
        exact hv (k + 1) (by omega) l s hs) h₂
      refine ⟨h₂', fun k hk => ?_⟩
      cases k with
      | zero => exact hQ
      | succ k => exact hQs k (by omega)

theorem listarDirectorio_imp {Q : ℕ → Prop} {num iblock : ℕ} {lista r : ListaRef}
    (hv : ∀ k < num, ∀ l s, visita (fs.inodeDisco inode (dirPageEntries * iblock + k))
        (path ++ barra :: fs.nomeDisco inode (dirPageEntries * iblock + k)) l = some s →
      visita' (fs.inodeDisco inode (dirPageEntries * iblock + k))
        (path ++ barra :: fs.nomeDisco inode (dirPageEntries * iblock + k)) l = some s ∧ Q k)
    (h : listarDirectorio visita fs inode path num iblock lista = some r) :
    listarDirectorio visita' fs inode path num iblock lista = some r ∧ ∀ k < num, Q k := by
  induction num using Nat.strong_induction_on generalizing iblock lista Q with
  | _ num ih =>
      rw [listarDirectorio] at h ⊢
      split at h
      · rename_i h0
        rw [if_pos h0]
        exact ⟨h, fun k hk => absurd hk (h0 ▸ Nat.not_lt_zero k)⟩
      · rename_i hne
        obtain ⟨lista', h₁, h₂⟩ := Option.bind_eq_some_iff.mp h
        rw [if_neg hne]
        dsimp only at h₁ ⊢
        generalize inserirOrdenado lista _ _ = lista₁ at h₁ ⊢
        have hpag : listarPagina visita' (fs.readDisk ((fs.inodeTab inode).blocks iblock)) path 0
            (min num dirPageEntries) lista₁ = some lista' ∧ ∀ k < min num dirPageEntries, Q k := by
          refine listarPagina_imp (fun k hk l s hs => ?_) h₁
          obtain ⟨hpag, hmod⟩ := paginaDisco_eq fs inode iblock
            (hk.trans_le (Nat.min_le_right _ _))
          have hk' := hv k (hk.trans_le (Nat.min_le_left _ _)) l s
          rw [inodeDisco, nomeDisco, hpag, hmod] at hk'
          rw [Nat.zero_add] at hs ⊢
          exact hk' hs
        obtain ⟨h₁', hQ⟩ := hpag
        obtain ⟨h₂', hQs⟩ := ih _ (sub_page_lt hne) (Q := fun k => Q (dirPageEntries + k))
          (fun k hk l s hs => by
            rw [Nat.mul_succ, Nat.add_assoc] at hs ⊢
            exact hv (dirPageEntries + k) (by omega) l s hs) h₂
        rw [h₁', Option.bind_some]
        refine ⟨h₂', fun k hk => ?_⟩
        by_cases hpag : k < dirPageEntries
        · exact hQ k (by omega)
        · have := hQs (k - dirPageEntries) (by omega)
          rwa [Nat.add_sub_cancel' (Nat.not_lt.mp hpag)] at this

end Visita

/-- More depth gives the same list. -/
theorem gerarListaReferenciasAux_succ {fs : Fs} {n inode : ℕ} {path : List Byte}
    {lista r : ListaRef} (h : gerarListaReferenciasAux fs n inode path lista = some r) :
    gerarListaReferenciasAux fs (n + 1) inode path lista = some r := by
  induction n generalizing inode path lista r with
  | zero => cases h
  | succ n ih =>
      rw [gerarListaReferenciasAux] at h ⊢
      split at h
      · rename_i ht
        rw [if_pos ht]
        exact h
      · rename_i ht
        rw [if_neg ht]
        exact (listarDirectorio_imp (Q := fun _ => True) (fun _ _ _ _ hs => ⟨ih hs, trivial⟩) h).1

theorem gerarListaReferencias_mono {fs : Fs} {n m : ℕ} {lista : ListaRef} (hnm : n ≤ m)
    (h : gerarListaReferencias fs n = some lista) : gerarListaReferencias fs m = some lista := by
  induction hnm with
  | refl => exact h
  | step _ ih => exact gerarListaReferenciasAux_succ ih

/-- A rank that grows along the entries and is at most `T` bounds the depth of the walk. -/
theorem gerarListaReferenciasAux_isSome {fs : Fs} {t : ℕ → ℕ} {T : ℕ}
    (ht : ∀ d i, fs.Nomeia d i → t d < t i ∧ t i ≤ T) (n inode : ℕ) (hn : T < t inode + n)
    (hle : t inode ≤ T) (path : List Byte) (lista : ListaRef) :
    (gerarListaReferenciasAux fs n inode path lista).isSome = true := by
  induction n generalizing inode path lista with
  | zero => exact absurd hle (Nat.not_le.mpr hn)
  | succ n ih =>
      rw [gerarListaReferenciasAux]
      split
      · rfl
      · rename_i hfile
        refine listarDirectorio_isSome lista fun k hk p l => ?_
        rw [Nat.mul_zero, Nat.zero_add]
        obtain ⟨hlt, hle'⟩ := ht inode (fs.inodeDisco inode k) ⟨hfile, k, hk, rfl⟩
        exact ih _ (by omega) hle' p l

/-! ## The rank -/

/-- In a consistent state the entries on the disk are those of the directories. -/
theorem Consistent.entrada_disco {fs : Fs} (h : fs.Consistent) {d k : ℕ}
    (hd : fs.typeAt d = .fsDir) (hk : k < fs.sizeAt d / 16) :
    (fs.nomeDisco d k, fs.inodeDisco d k) = fs.entrada d k := by
  have hlive : (d, k / dirPageEntries) ∈ fs.emUso := by
    rw [h.mem_emUso_iff, lt_offsetToBlocks]
    simp only [blockSize, dirPageEntries]
    omega
  have hpag := (Prod.mk.inj (Option.some.inj (h.acc.lerBloco_dir hlive hd))).2
  rw [nomeDisco, inodeDisco, paginaDisco, hpag]
  rfl

theorem Consistent.nomeia_iff {fs : Fs} (h : fs.Consistent) {d i : ℕ} :
    fs.Nomeia d i ↔ fs.typeAt d = .fsDir ∧ ∃ e ∈ fs.entradas d, e.2 = i := by
  have hdisk : fs.typeAt d = .fsDir → ∀ k < fs.sizeAt d / 16,
      fs.inodeDisco d k = (fs.entrada d k).2 :=
    fun hd k hk => (Prod.mk.inj (h.entrada_disco hd hk)).2
  constructor
  · rintro ⟨hf, k, hk, rfl⟩
    have hd : fs.typeAt d = .fsDir := by
      cases ht : fs.typeAt d with
      | fsDir => rfl
      | fsFile => exact absurd ht hf
      | unset =>
          exfalso
          have h0 : fs.sizeAt d = 0 := by
            by_cases hz : d = 0
            · rw [hz]
              exact h.inodes.zero.2.2
            · cases ha : fs.alocado d with
              | false => exact (h.inodes.livre d ha).2
              | true => exact absurd ht (h.inodes.typed d hz ha)
          rw [h0] at hk
          exact absurd hk (Nat.not_lt_zero k)
    exact ⟨hd, _, List.mem_map_of_mem (List.mem_range.mpr hk), (hdisk hd k hk).symm⟩
  · rintro ⟨hd, e, he, rfl⟩
    obtain ⟨k, hk, rfl⟩ := List.mem_map.mp he
    exact ⟨by simp [hd], k, List.mem_range.mp hk, hdisk hd k (List.mem_range.mp hk)⟩

theorem Ordenado.mesmosNomes {fs fs' : Fs} {t : ℕ → ℕ} (h : fs.Ordenado t)
    (hm : MesmosNomes fs fs') : fs'.Ordenado t := by
  intro d hd e he
  rw [hm.type] at hd
  rw [hm.entradas d hd] at he
  exact h d hd e he

/-- A new i-node gets a rank above all others; old entries that name its number only gain. -/
theorem Ordenado.criado {fs fs' : Fs} {t : ℕ → ℕ} (h : fs.Ordenado t) (hcons : fs.Consistent)
    {tipo : FsItype} {d n : ℕ} {nome : List Byte} (hc : Criado tipo fs fs' d nome n) :
    fs'.Ordenado (Function.update t n ((Finset.range itabSize).sup t + 1)) := by
  have hmax : ∀ j, fs.typeAt j = .fsDir → t j < (Finset.range itabSize).sup t + 1 := by
    intro j hj
    have hlt := hcons.lt_of_alocado (hcons.alocado_of_type (i := j) (by simp [hj]))
    exact Nat.lt_succ_of_le (Finset.le_sup (Finset.mem_range.mpr hlt))
  have hdn : d ≠ n := hc.ne_of_alocado (hcons.alocado_of_type (by simp [hc.dir]))
  -- an entry that a directory had
  have hold : ∀ j, fs.typeAt j = .fsDir → ∀ e ∈ fs.entradas j,
      t j < Function.update t n ((Finset.range itabSize).sup t + 1) e.2 := by
    intro j hj e he
    by_cases hen : e.2 = n
    · rw [hen, Function.update_self]
      exact hmax j hj
    · rw [Function.update_of_ne hen]
      exact h j hj e he
  intro j hj e he
  by_cases hjn : j = n
  · exfalso
    rw [Fs.entradas, hc.size, if_pos hjn] at he
    exact absurd he List.not_mem_nil
  · rw [hc.type, if_neg hjn] at hj
    rw [Function.update_of_ne hjn]
    by_cases hjd : j = d
    · subst hjd
      rw [hc.entradas] at he
      rcases List.mem_append.mp he with he | he
      · exact hold j hj e he
      · rw [List.mem_singleton.mp he, Function.update_self]
        exact hmax j hj
    · rw [hc.outras j hjd hjn] at he
      exact hold j hj e he

theorem Ordenado.removido {fs fs' : Fs} {t : ℕ → ℕ} (h : fs.Ordenado t) {d n : ℕ}
    {nome : List Byte} (hr : Removido fs fs' d nome n) : fs'.Ordenado t := by
  intro j hj e he
  rw [hr.type] at hj
  split at hj
  · cases hj
  · rename_i hjn
    by_cases hjd : j = d
    · subst hjd
      rw [hr.entradas] at he
      exact h j hj e (List.mem_of_mem_dropLast he)
    · rw [hr.outras j hjd hjn] at he
      exact h j hj e he

/-- Some rank grows along all entries. -/
def TemOrdem (fs : Fs) : Prop := ∃ t, fs.Ordenado t

theorem TemOrdem.mudanca {fs fs' : Fs} (h : fs.Exacto) (hord : fs.TemOrdem) {op : FsOp}
    (hef : Mudanca fs op fs') : fs'.TemOrdem := by
  obtain ⟨t, ht⟩ := hord
  cases hef with
  | igual => exact ⟨t, ht⟩
  | cache _ hc => exact ⟨t, ht.mesmosNomes (mesmosNomes_withCache hc)⟩
  | criado _ _ hc => exact ⟨_, ht.criado h.consistent hc⟩
  | escrito hw => exact ⟨t, ht.mesmosNomes (hw.mesmosNomes h.consistent)⟩
  | copiado hd hex hc =>
      have hm := hc.mesmosNomes hex.consistent
      cases hd with
      | achado _ he =>
          subst he
          exact ⟨t, ht.mesmosNomes hm⟩
      | criado hc₁ => exact ⟨_, (ht.criado h.consistent hc₁).mesmosNomes hm⟩
  | removido hr => exact ⟨t, ht.removido hr⟩

theorem inicial_temOrdem (pilha : ℕ → ℤ) : (inicial pilha).TemOrdem := by
  refine ⟨id, fun d _ e he => ?_⟩
  rw [inicial_entradas] at he
  exact absurd he List.not_mem_nil

end Fs

/-- In every state that calls reach which append nothing and copy no file onto itself, the graph of
the directory entries has no cycle, and the walk from the root ends. -/
theorem gerarListaReferencias_termina (pilha : ℕ → ℤ) (ops : List FsOp)
    (hops : Runs.Permitted FsOp.exec FsOp.SemAnexo (fsFormat (fsNew Fs.discoServidor pilha)) ops)
    {fs : Fs} {rs : List Resposta}
    (hrun : Runs.run FsOp.exec (fsFormat (fsNew Fs.discoServidor pilha)) ops = some (fs, rs)) :
    (∀ i, ¬ Relation.TransGen fs.Nomeia i i) ∧
      ∃ n lista, ∀ m ≥ n, gerarListaReferencias fs m = some lista := by
  obtain ⟨hex, t, ht⟩ := Fs.invariante_of_run (fun _ _ => id)
    (fun _ _ _ h hord _ _ hef => hord.mudanca h hef) pilha (Fs.inicial_temOrdem pilha) hops hrun
  have hcons := hex.consistent
  have hrank : ∀ d i, fs.Nomeia d i → t d < t i ∧ t i ≤ (Finset.range itabSize).sup t := by
    intro d i hn
    obtain ⟨hd, e, he, rfl⟩ := hcons.nomeia_iff.mp hn
    have hlt := ((hcons.dirs d hd).entries e he).2.2.2
    exact ⟨ht d hd e he, Finset.le_sup (Finset.mem_range.mpr hlt)⟩
  constructor
  · intro i hcycle
    have hgrow : ∀ j, Relation.TransGen fs.Nomeia i j → t i < t j := by
      intro j hij
      induction hij with
      | single h => exact (hrank _ _ h).1
      | tail _ h ih => exact ih.trans (hrank _ _ h).1
    exact absurd (hgrow i hcycle) (Nat.lt_irrefl _)
  · obtain ⟨lista, hl⟩ := Option.isSome_iff_exists.mp (Fs.gerarListaReferenciasAux_isSome hrank
      ((Finset.range itabSize).sup t + 1) 1 (by omega)
      (Finset.le_sup (f := t) (Finset.mem_range.mpr (by decide : 1 < itabSize))) [] newList)
    exact ⟨_, lista, fun m hm => Fs.gerarListaReferencias_mono hm hl⟩

/-- The walk over a root with two files. -/
theorem gerarListaReferencias_dois_ficheiros :
    ∃ fs rs, Runs.run FsOp.exec (fsFormat (fsNew Fs.discoServidor fun _ => 7))
        [.create 1 nomeA, .create 1 nomeB] = some (fs, rs) ∧
      (∀ i, ¬ Relation.TransGen fs.Nomeia i i) ∧
        ∃ n lista, ∀ m ≥ n, gerarListaReferencias fs m = some lista := by
  obtain ⟨fs, hrun, -⟩ := dois_ficheiros fun _ => 7
  exact ⟨fs, _, hrun, gerarListaReferencias_termina _ _ (semAnexo_dois_ficheiros _) hrun⟩

end ThreadScheduler.SnfsServer
