import Mathlib.Algebra.BigOperators.Intervals
import Mathlib.Algebra.Order.Group.Multiset
import ThreadScheduler.SnfsServer.DiskUsage
import ThreadScheduler.SnfsServer.NameTree

/-!
# What the walk over the directories finds

The walk of `gerar_lista_referencias` meets every slot in use once, under the path of its i-node.
No insertion is lost: the first block of the root is block 10, and the walk meets it first.
-/
namespace ThreadScheduler.SnfsServer

/-- The path as the walk writes it. -/
def texto (p : List (List Byte)) : List Byte := p.flatMap fun nome => barra :: nome

/-- The path as the report has it. -/
def textoDe (p : List (List Byte)) : List Byte := if p = [] then [barra] else texto p

theorem texto_concat (p : List (List Byte)) (nome : List Byte) :
    texto (p ++ [nome]) = texto p ++ barra :: nome := by
  simp [texto]

/-- The second list has what is added to the first one, and is not empty. -/
structure ListaRef.Acresce (lista lista' : ListaRef) (usos : Multiset (ℕ × List Byte)) : Prop where
  boa : lista'.Boa
  cheia : lista'.nos ≠ []
  pares : (lista'.pares : Multiset (ℕ × List Byte)) = lista.pares + usos

theorem ListaRef.Acresce.trans {l₁ l₂ l₃ : ListaRef} {u v : Multiset (ℕ × List Byte)}
    (h : l₁.Acresce l₂ u) (h' : l₂.Acresce l₃ v) : l₁.Acresce l₃ (u + v) :=
  ⟨h'.boa, h'.cheia, by rw [h'.pares, h.pares, add_assoc]⟩

theorem ListaRef.Boa.acresce {lista : ListaRef} (h : lista.Boa) (hne : lista.nos ≠ []) :
    lista.Acresce lista 0 :=
  ⟨h, hne, (add_zero _).symm⟩

theorem ListaRef.Boa.acresce_inserir {lista : ListaRef} (h : lista.Boa) (inf : NoRef)
    (hb : inf.blockId < 65536)
    (hlugar : lista.nos = [] ∧ inf.blockId = 10 ∨ lista.nos ≠ [] ∧ 10 < inf.blockId) :
    lista.Acresce (inserirOrdenado lista inf inf.blockId) {(inf.blockId, inf.pathname)} := by
  obtain ⟨hboa, hne, hperm⟩ := h.inserir hb hlugar
  refine ⟨hboa, hne, ?_⟩
  rw [Multiset.coe_eq_coe.mpr hperm, ← Multiset.cons_coe, ← Multiset.singleton_add, add_comm]

section Ciclos

variable {visita : ℕ → List Byte → ListaRef → Option ListaRef} {fs : Fs} {inode : ℕ}
  {path : List Byte}

/-- The entries of a page, one after another. -/
theorem listarPagina_acresce {page : Block} (V : ℕ → Multiset (ℕ × List Byte)) {i n : ℕ}
    {lista lista' : ListaRef}
    (hv : ∀ k, i ≤ k → k < i + n → ∀ l l', l.Boa → l.nos ≠ [] →
      visita (inodeidAt page k) (path ++ barra :: nameAt page k) l = some l' → l.Acresce l' (V k))
    (hboa : lista.Boa) (hne : lista.nos ≠ [])
    (h : listarPagina visita page path i n lista = some lista') :
    lista.Acresce lista' (∑ k ∈ Finset.Ico i (i + n), V k) := by
  induction n generalizing i lista with
  | zero =>
      obtain rfl := Option.some.inj h
      rw [Nat.add_zero, Finset.Ico_self, Finset.sum_empty]
      exact hboa.acresce hne
  | succ n ih =>
      obtain ⟨l, hl, h⟩ := Option.bind_eq_some_iff.mp h
      have h₁ := hv i le_rfl (by omega) lista l hboa hne hl
      have h₂ := ih (fun k hk hk' => hv k (by omega) (by omega)) h₁.boa h₁.cheia h
      rw [Finset.sum_eq_sum_Ico_succ_bot (by omega : i < i + (n + 1)),
        show i + (n + 1) = i + 1 + n by omega]
      exact h₁.trans h₂

/-- The blocks of a file, one after another. -/
theorem listarBlocos_acresce (path : List Byte) {lista : ListaRef} (hboa : lista.Boa)
    (hne : lista.nos ≠ [])
    (hslot : ∀ q < offsetToBlocks (fs.sizeAt inode),
      10 < fs.slot (inode, q) ∧ fs.slot (inode, q) < 65536) :
    lista.Acresce (listarBlocos fs inode path lista)
      (∑ q ∈ Finset.range (offsetToBlocks (fs.sizeAt inode)), {(fs.slot (inode, q), path)}) := by
  rw [listarBlocos]
  change lista.Acresce ((List.range (offsetToBlocks (fs.sizeAt inode))).foldl _ _) _
  generalize offsetToBlocks (fs.sizeAt inode) = n at hslot
  induction n with
  | zero =>
      rw [Finset.range_zero, Finset.sum_empty]
      exact hboa.acresce hne
  | succ n ih =>
      have h₁ := ih fun q hq => hslot q (by omega)
      obtain ⟨hgt, hlt⟩ := hslot n (Nat.lt_succ_self n)
      rw [List.range_succ, List.foldl_append, Finset.sum_range_succ]
      exact h₁.trans (h₁.boa.acresce_inserir ⟨fs.slot (inode, n), none, path⟩ hlt
        (.inr ⟨h₁.cheia, hgt⟩))

/-- The entries of one page and those of the pages after it. -/
theorem soma_pagina (V : ℕ → Multiset (ℕ × List Byte)) {M iblock : ℕ}
    (h : dirPageEntries * iblock < M) :
    ∑ k ∈ Finset.Ico (dirPageEntries * iblock) M, V k =
      ∑ k ∈ Finset.Ico 0 (0 + min (M - dirPageEntries * iblock) dirPageEntries),
          V (dirPageEntries * iblock + k) +
        ∑ k ∈ Finset.Ico (dirPageEntries * (iblock + 1)) M, V k := by
  rw [Finset.sum_Ico_add V, Nat.add_zero, Nat.zero_add, Nat.mul_succ]
  by_cases hfim : M ≤ dirPageEntries * iblock + dirPageEntries
  · rw [Finset.Ico_eq_empty_of_le hfim, Finset.sum_empty, add_zero, Nat.min_eq_left (by omega)]
    congr 2
    omega
  · rw [Nat.min_eq_right (by omega), Nat.zero_add, Nat.add_comm dirPageEntries,
      Finset.sum_Ico_consecutive V (by omega) (by omega)]

/-- The pages of a directory, one after another: a reference to each, and its entries. -/
theorem listarDirectorio_acresce {V : ℕ → Multiset (ℕ × List Byte)} {num iblock : ℕ}
    {lista lista' : ListaRef} (halign : 16 ∣ fs.sizeAt inode)
    (hslot : ∀ q < offsetToBlocks (fs.sizeAt inode), fs.slot (inode, q) < 65536 ∧
      (inode = 1 ∧ q = 0 ∧ fs.slot (inode, q) = 10 ∨
        ¬ (inode = 1 ∧ q = 0) ∧ 10 < fs.slot (inode, q)))
    (hpag : ∀ q < offsetToBlocks (fs.sizeAt inode),
      fs.readDisk (fs.slot (inode, q)) = fs.pagina (inode, q))
    (hv : ∀ k < fs.sizeAt inode / 16, ∀ l l', l.Boa → l.nos ≠ [] →
      visita (fs.entrada inode k).2 (path ++ barra :: (fs.entrada inode k).1) l = some l' →
        l.Acresce l' (V k))
    (hnum : num = fs.sizeAt inode / 16 - dirPageEntries * iblock)
    (hvazia : lista.nos = [] ↔ inode = 1 ∧ iblock = 0) (hboa : lista.Boa)
    (h : listarDirectorio visita fs inode path num iblock lista = some lista') :
    lista'.Boa ∧ (lista'.pares : Multiset (ℕ × List Byte)) = lista.pares +
      (∑ q ∈ Finset.Ico iblock (offsetToBlocks (fs.sizeAt inode)),
          {(fs.slot (inode, q), if inode = 1 then [barra] else path)} +
        ∑ k ∈ Finset.Ico (dirPageEntries * iblock) (fs.sizeAt inode / 16), V k) := by
  have hfim : offsetToBlocks (fs.sizeAt inode) ≤ iblock ↔
      fs.sizeAt inode / 16 ≤ dirPageEntries * iblock := by
    rw [offsetToBlocks_le]
    simp only [blockSize, dirPageEntries]
    omega
  induction num using Nat.strong_induction_on generalizing iblock lista with
  | _ num ih =>
      rw [listarDirectorio] at h
      split at h
      · obtain rfl := Option.some.inj h
        have hle : fs.sizeAt inode / 16 ≤ dirPageEntries * iblock := by omega
        rw [Finset.Ico_eq_empty_of_le hle, Finset.Ico_eq_empty_of_le (hfim.mpr hle),
          Finset.sum_empty, Finset.sum_empty, add_zero, add_zero]
        exact ⟨hboa, rfl⟩
      · have hlt : dirPageEntries * iblock < fs.sizeAt inode / 16 := by omega
        have hq : iblock < offsetToBlocks (fs.sizeAt inode) :=
          Nat.lt_of_not_le fun hle => Nat.not_lt.mpr (hfim.mp hle) hlt
        obtain ⟨hb, hlugar⟩ := hslot iblock hq
        obtain ⟨l, hl, h⟩ := Option.bind_eq_some_iff.mp h
        -- the reference of the directory to its block
        have h₁ := hboa.acresce_inserir
          ⟨fs.slot (inode, iblock), some inode, if inode = 1 then [barra] else path⟩ hb
          (hlugar.imp (fun hp => ⟨hvazia.mpr ⟨hp.1, hp.2.1⟩, hp.2.2⟩)
            fun hp => ⟨mt hvazia.mp hp.1, hp.2⟩)
        -- its entries
        have hl : listarPagina visita (fs.readDisk (fs.slot (inode, iblock))) path 0
            (min num dirPageEntries) _ = some l := hl
        rw [hpag iblock hq, hnum] at hl
        have h₂ := listarPagina_acresce (fun k => V (dirPageEntries * iblock + k))
          (fun k _ hk l₁ l₂ hboa₁ hne₁ he => by
            have hk : k < dirPageEntries ∧ dirPageEntries * iblock + k < fs.sizeAt inode / 16 := by
              omega
            have hdiv : (dirPageEntries * iblock + k) / dirPageEntries = iblock := by
              simp only [dirPageEntries] at *
              omega
            have hmod : (dirPageEntries * iblock + k) % dirPageEntries = k := by
              simp only [dirPageEntries] at *
              omega
            refine hv _ hk.2 l₁ l₂ hboa₁ hne₁ ?_
            rw [Fs.entrada, hdiv, hmod]
            exact he) h₁.boa h₁.cheia hl
        -- the pages after it
        obtain ⟨hboa', hpares⟩ := ih (num - dirPageEntries) (Fs.sub_page_lt ‹_›)
          (by rw [hnum, Nat.mul_succ]; omega)
          (iff_of_false h₂.cheia fun hp => Nat.succ_ne_zero iblock hp.2) h₂.boa h (by
            rw [offsetToBlocks_le]
            simp only [blockSize, dirPageEntries]
            omega)
        refine ⟨hboa', ?_⟩
        rw [hpares, h₂.pares, h₁.pares, soma_pagina V hlt,
          Finset.sum_eq_sum_Ico_succ_bot hq]
        abel

end Ciclos

namespace Fs

/-- Every path, as the walk writes it, fits in a buffer of `MAX_PATH_NAME_SIZE + 1` characters. -/
def CaminhosCabem (fs : Fs) : Prop :=
  ∀ p i, fs.no p = some i → (texto p).length ≤ maxPathNameSize

/-- Lengths of paths that grow along the entries by what the walk writes for each. -/
theorem caminhosCabem_of_entradas {fs : Fs} (alt : ℕ → ℕ) (hent : ∀ d < itabSize, fs.typeAt d = .fsDir →
      ∀ e ∈ fs.entradas d, e.2 < itabSize ∧ alt d + (barra :: e.1).length ≤ alt e.2)
    (hmax : ∀ i < itabSize, alt i ≤ maxPathNameSize) : fs.CaminhosCabem := by
  have halt : ∀ p i, fs.no p = some i → i < itabSize ∧ (texto p).length ≤ alt i := by
    intro p
    induction p using List.reverseRecOn with
    | nil =>
        rintro i hi
        obtain rfl := Option.some.inj hi
        exact ⟨by decide, Nat.zero_le _⟩
    | append_singleton p nome ih =>
        intro i hi
        rw [no, PathTree.follow_concat] at hi
        obtain ⟨d, hd, hx⟩ := Option.bind_eq_some_iff.mp hi
        obtain ⟨hlt, hle⟩ := ih d hd
        obtain ⟨ht, hmem⟩ := resolve_eq_some hx
        obtain ⟨hi, hgrow⟩ := hent d hlt ht _ hmem
        refine ⟨hi, ?_⟩
        rw [texto_concat, List.length_append]
        exact (Nat.add_le_add_right hle _).trans hgrow
  intro p i hi
  obtain ⟨hlt, hle⟩ := halt p i hi
  exact hle.trans (hmax i hlt)

/-- Block 10 is the first block of the root, and no other slot in use names it. -/
def RaizPrimeira (fs : Fs) : Prop := ∀ p ∈ fs.emUso, fs.slot p = 10 ↔ p = (1, 0)

/-- The slots in use of what is at the path or below it. -/
def abaixo (fs : Fs) (caminho : ℕ → List (List Byte)) (p : List (List Byte)) : Finset (ℕ × ℕ) :=
  fs.emUso.filter fun s => p <+: caminho s.1

/-- The block of each slot, with the path of its i-node. -/
def usos (fs : Fs) (caminho : ℕ → List (List Byte)) (S : Finset (ℕ × ℕ)) :
    Multiset (ℕ × List Byte) :=
  ∑ s ∈ S, {(fs.slot s, textoDe (caminho s.1))}

section Arvore

variable {fs : Fs} {caminho : ℕ → List (List Byte)} {p : List (List Byte)} {i : ℕ}
  (h : fs.EmArvore) (hcam : ∀ p i, fs.no p = some i → caminho i = p)

include h

/-- What a path leads to and is no file is a directory. -/
theorem EmArvore.dir_of_not_file (hp : fs.no p = some i) (hfile : fs.typeAt i ≠ .fsFile) :
    fs.typeAt i = .fsDir := by
  cases hti : fs.typeAt i with
  | fsDir => rfl
  | fsFile => exact absurd hti hfile
  | unset => exact absurd hti (h.typeAt_no hp).1

theorem raiz_iff (hp : fs.no p = some i) : p = [] ↔ i = 1 := by
  constructor
  · rintro rfl
    exact (Option.some.inj hp).symm
  · rintro rfl
    exact h.rooted.follow_inj hp rfl

/-- Where a slot in use has its place in the list. -/
theorem lugar_slot (hraiz : fs.RaizPrimeira) {q : ℕ} (hq : q < offsetToBlocks (fs.sizeAt i)) :
    fs.slot (i, q) < 65536 ∧ (i = 1 ∧ q = 0 ∧ fs.slot (i, q) = 10 ∨
      ¬ (i = 1 ∧ q = 0) ∧ 10 < fs.slot (i, q)) := by
  have hcons := h.exacto.consistent
  have hs := hcons.mem_emUso_iff.mpr hq
  have hlt := hcons.acc.slot_lt_disco hs
  have hge := hcons.acc.range _ hs
  have hdez := hraiz _ hs
  rw [Prod.mk.injEq] at hdez
  rw [hcons.acc.disco] at hlt
  refine ⟨hlt.trans (by decide), ?_⟩
  by_cases h10 : fs.slot (i, q) = 10
  · exact .inl ⟨(hdez.mp h10).1, (hdez.mp h10).2, h10⟩
  · exact .inr ⟨fun he => h10 (hdez.mpr he), by omega⟩

include hcam

/-- What is in use is at the end of its path. -/
theorem no_caminho {s : ℕ × ℕ} (hs : s ∈ fs.emUso) : fs.no (caminho s.1) = some s.1 := by
  have hpos := h.exacto.consistent.pos_of_mem hs
  obtain ⟨c, hc⟩ := h.alcancado s.1 (by omega) (mem_emUso.mp hs).2.2.1
  rw [hcam c s.1 hc, hc]

/-- What is below a path is an entry of it, or below one. -/
theorem abaixo_eq (hp : fs.no p = some i) :
    fs.abaixo caminho p = ((Finset.range (offsetToBlocks (fs.sizeAt i))).image fun q => (i, q)) ∪
      ((fs.entradas i).map Prod.fst).toFinset.biUnion fun nome =>
        if fs.typeAt i = .fsDir then fs.abaixo caminho (p ++ [nome]) else ∅ := by
  ext ⟨j, q⟩
  rw [abaixo, Finset.mem_filter, Finset.mem_union, Finset.mem_image, Finset.mem_biUnion]
  constructor
  · rintro ⟨hs, hpre⟩
    have hno := no_caminho h hcam hs
    obtain ⟨resto, hresto⟩ := hpre
    cases resto with
    | nil =>
        rw [List.append_nil] at hresto
        rw [← hresto, hp] at hno
        obtain rfl := Option.some.inj hno
        exact .inl ⟨q, Finset.mem_range.mpr (h.exacto.consistent.mem_emUso_iff.mp hs), rfl⟩
    | cons nome resto =>
        have hfol := hno
        rw [← hresto, no, PathTree.follow_append, show PathTree.follow fs.resolve 1 p = _ from hp,
          Option.bind_some, PathTree.follow] at hfol
        obtain ⟨x, hx, -⟩ := Option.bind_eq_some_iff.mp hfol
        obtain ⟨ht, hmem⟩ := resolve_eq_some hx
        refine .inr ⟨nome, List.mem_toFinset.mpr (List.mem_map_of_mem hmem), ?_⟩
        rw [if_pos ht, abaixo, Finset.mem_filter]
        exact ⟨hs, resto, by rw [← hresto, List.append_assoc]; rfl⟩
  · rintro (⟨q', hq', he⟩ | ⟨nome, -, hs⟩)
    · obtain ⟨rfl, rfl⟩ := Prod.mk.inj he
      refine ⟨h.exacto.consistent.mem_emUso_iff.mpr (Finset.mem_range.mp hq'), ?_⟩
      rw [hcam p i hp]
    · split at hs
      · obtain ⟨hs, hpre⟩ := Finset.mem_filter.mp hs
        exact ⟨hs, (List.prefix_append p [nome]).trans hpre⟩
      · exact absurd hs (Finset.notMem_empty _)

/-- The slots of an i-node are not those of what is below it. -/
theorem usos_abaixo (hp : fs.no p = some i) :
    fs.usos caminho (fs.abaixo caminho p) =
      ∑ q ∈ Finset.range (offsetToBlocks (fs.sizeAt i)), {(fs.slot (i, q), textoDe p)} +
        ∑ k ∈ Finset.range (if fs.typeAt i = .fsDir then fs.sizeAt i / 16 else 0),
          fs.usos caminho (fs.abaixo caminho (p ++ [(fs.entrada i k).1])) := by
  have hown : ∑ s ∈ (Finset.range (offsetToBlocks (fs.sizeAt i))).image fun q => (i, q),
      ({(fs.slot s, textoDe (caminho s.1))} : Multiset (ℕ × List Byte)) =
      ∑ q ∈ Finset.range (offsetToBlocks (fs.sizeAt i)), {(fs.slot (i, q), textoDe p)} := by
    rw [Finset.sum_image fun q _ q' _ he => (Prod.mk.inj he).2]
    exact Finset.sum_congr rfl fun q _ => by rw [hcam p i hp]
  rw [usos, abaixo_eq h hcam hp, Finset.sum_union, hown]
  · congr 1
    by_cases ht : fs.typeAt i = .fsDir
    · simp only [if_pos ht]
      have hnodup := (h.exacto.consistent.dirs i ht).nodup
      rw [Finset.sum_biUnion, List.sum_toFinset _ hnodup, entradas, List.map_map, List.map_map]
      · rfl
      · -- a path goes on with one name
        intro nome _ nome' _ hne
        refine Finset.disjoint_left.mpr fun s hs hs' => hne ?_
        obtain ⟨-, a, ha⟩ := Finset.mem_filter.mp hs
        obtain ⟨-, b, hb⟩ := Finset.mem_filter.mp hs'
        have he := ha.trans hb.symm
        rw [List.append_assoc, List.append_assoc] at he
        exact (List.cons.inj (List.append_cancel_left he)).1
    · simp only [if_neg ht, Finset.range_zero, Finset.sum_empty]
      refine Finset.sum_eq_zero fun s hs => ?_
      obtain ⟨nome, -, hs⟩ := Finset.mem_biUnion.mp hs
      exact absurd hs (Finset.notMem_empty _)
  · refine Finset.disjoint_left.mpr fun s hs hs' => ?_
    obtain ⟨q, -, rfl⟩ := Finset.mem_image.mp hs
    obtain ⟨nome, -, hs'⟩ := Finset.mem_biUnion.mp hs'
    split at hs'
    · obtain ⟨-, a, ha⟩ := Finset.mem_filter.mp hs'
      rw [hcam p i hp] at ha
      have hlen := congrArg List.length ha
      simp only [List.length_append, List.length_singleton] at hlen
      omega
    · exact absurd hs' (Finset.notMem_empty _)

/-- The walk from a path adds what is there and below, with nothing lost. -/
theorem gerarListaReferenciasAux_acresce (hraiz : fs.RaizPrimeira) {n : ℕ}
    {lista lista' : ListaRef} (hp : fs.no p = some i) (hvazia : lista.nos = [] ↔ p = [])
    (hboa : lista.Boa)
    (hl : gerarListaReferenciasAux fs n i (texto p) lista = some lista') :
    lista'.Boa ∧ (lista'.pares : Multiset (ℕ × List Byte)) =
      lista.pares + fs.usos caminho (fs.abaixo caminho p) := by
  have hcons := h.exacto.consistent
  induction n generalizing i p lista lista' with
  | zero => cases hl
  | succ n ih =>
      have hum := raiz_iff h hp
      rw [usos_abaixo h hcam hp]
      rw [gerarListaReferenciasAux] at hl
      split at hl
      · rename_i hfile
        have hfile : fs.typeAt i = .fsFile := hfile
        have hne : p ≠ [] := by
          intro hnil
          rw [hum.mp hnil, hcons.inodes.root.2] at hfile
          cases hfile
        have hi : i ≠ 1 := fun he => hne (hum.mpr he)
        have h₁ := listarBlocos_acresce (texto p) hboa (mt hvazia.mp hne) fun q hq => by
          obtain ⟨hlt, hlugar⟩ := lugar_slot h hraiz hq
          rcases hlugar with ⟨he, -⟩ | ⟨-, hgt⟩
          · exact absurd he hi
          · exact ⟨hgt, hlt⟩
        rw [Option.some.inj hl] at h₁
        refine ⟨h₁.boa, ?_⟩
        rw [h₁.pares, hfile, if_neg (by decide), Finset.range_zero, Finset.sum_empty, add_zero,
          textoDe, if_neg hne]
      · rename_i hfile
        have ht := h.dir_of_not_file hp hfile
        have hlinha : (if i = 1 then [barra] else texto p) = textoDe p :=
          if_congr hum.symm rfl rfl
        have hpag : ∀ q < offsetToBlocks (fs.sizeAt i),
            fs.readDisk (fs.slot (i, q)) = fs.pagina (i, q) := fun q hq =>
          (Prod.mk.inj (Option.some.inj (hcons.acc.lerBloco_dir
            (hcons.mem_emUso_iff.mpr hq) ht))).2
        have hv : ∀ k < fs.sizeAt i / 16, ∀ l l', l.Boa → l.nos ≠ [] →
            gerarListaReferenciasAux fs n (fs.entrada i k).2
              (texto p ++ barra :: (fs.entrada i k).1) l = some l' →
            l.Acresce l' (fs.usos caminho (fs.abaixo caminho (p ++ [(fs.entrada i k).1]))) := by
          intro k hk l l' hboaₗ hne hl
          have hno : fs.no (p ++ [(fs.entrada i k).1]) = some (fs.entrada i k).2 := by
            rw [no_concat hp, resolve_of_dir ht]
            exact (procura_iff_mem (hcons.dirs i ht).nodup _ _).mpr
              (List.mem_map_of_mem (List.mem_range.mpr hk))
          rw [← texto_concat] at hl
          obtain ⟨hboa', hpares⟩ := ih hno (iff_of_false hne (by simp)) hboaₗ hl
          refine ⟨hboa', fun hnil => hne ?_, hpares⟩
          have hz : (l'.pares : Multiset (ℕ × List Byte)) = 0 := by
            rw [ListaRef.pares, hnil]
            rfl
          rw [hz] at hpares
          have hpares := (add_eq_zero.mp hpares.symm).1
          exact List.map_eq_nil_iff.mp ((Multiset.coe_eq_zero _).mp hpares)
        obtain ⟨hboa', hpares⟩ := listarDirectorio_acresce (hcons.dirs i ht).align
          (fun q hq => lugar_slot h hraiz hq) hpag hv (Nat.sub_zero _).symm
          (hvazia.trans (hum.trans ⟨fun he => ⟨he, rfl⟩, And.left⟩)) hboa hl
        refine ⟨hboa', ?_⟩
        simp only [hpares, hlinha, if_pos ht, Nat.mul_zero, Finset.range_eq_Ico]

/-! ## The buffers -/

omit hcam

/-- What an entry on the disk names is at the end of its path. -/
theorem no_entrada_disco (hp : fs.no p = some i) (hfile : fs.typeAt i ≠ .fsFile) {k : ℕ}
    (hk : k < fs.sizeAt i / 16) : fs.no (p ++ [fs.nomeDisco i k]) = some (fs.inodeDisco i k) := by
  have hcons := h.exacto.consistent
  have ht := h.dir_of_not_file hp hfile
  have hent := hcons.entrada_disco ht hk
  rw [no_concat hp, resolve_of_dir ht, procura_iff_mem (hcons.dirs i ht).nodup, hent]
  exact List.mem_map_of_mem (List.mem_range.mpr hk)

/-- Where every path fits, the buffers make no difference. -/
theorem gerarListaReferenciasBuf_of_cabem (hcabe : fs.CaminhosCabem) {n : ℕ}
    {lista lista' : ListaRef} (hp : fs.no p = some i)
    (hl : gerarListaReferenciasAux fs n i (texto p) lista = some lista') :
    gerarListaReferenciasBuf fs n i (texto p) lista = some lista' := by
  induction n generalizing i p lista lista' with
  | zero => cases hl
  | succ n ih =>
      rw [gerarListaReferenciasAux] at hl
      rw [gerarListaReferenciasBuf]
      split at hl
      · rename_i hfile
        rw [if_pos hfile]
        exact hl
      · rename_i hfile
        rw [if_neg hfile]
        refine (listarDirectorio_imp (Q := fun _ => True) (fun k hk l s hs => ?_) hl).1
        rw [Nat.mul_zero, Nat.zero_add, ← texto_concat] at hs ⊢
        have hno := no_entrada_disco h hp hfile hk
        rw [if_pos (hcabe _ _ hno)]
        exact ⟨ih hno hs, trivial⟩

/-- Where the walk from a path ends, the paths below it fit. -/
theorem length_le_of_gerarListaReferenciasBuf {n : ℕ} {lista lista' : ListaRef}
    (hp : fs.no p = some i) (hcabe : (texto p).length ≤ maxPathNameSize)
    (hl : gerarListaReferenciasBuf fs n i (texto p) lista = some lista')
    (resto : List (List Byte)) {j : ℕ} (hj : fs.no (p ++ resto) = some j) :
    (texto (p ++ resto)).length ≤ maxPathNameSize := by
  induction n generalizing i p lista lista' resto j with
  | zero => cases hl
  | succ n ih =>
      cases resto with
      | nil => rwa [List.append_nil]
      | cons nome resto =>
          -- the first name of the rest is that of an entry
          have hx := hj
          rw [no, PathTree.follow_append, show PathTree.follow fs.resolve 1 p = _ from hp,
            Option.bind_some, PathTree.follow] at hx
          obtain ⟨x, hx, -⟩ := Option.bind_eq_some_iff.mp hx
          obtain ⟨ht, hmem⟩ := resolve_eq_some hx
          obtain ⟨k, hk, hent⟩ := List.mem_map.mp hmem
          have hk := List.mem_range.mp hk
          have hfile : (fs.inodeTab i).type ≠ .fsFile := by
            rw [show (fs.inodeTab i).type = .fsDir from ht]
            decide
          rw [gerarListaReferenciasBuf, if_neg hfile] at hl
          rw [← h.exacto.consistent.entrada_disco ht hk] at hent
          obtain ⟨hnome, -⟩ := Prod.mk.inj hent
          have hQ := (listarDirectorio_imp (Q := fun k => ∀ resto j,
            fs.no (p ++ [fs.nomeDisco i k] ++ resto) = some j →
              (texto (p ++ [fs.nomeDisco i k] ++ resto)).length ≤ maxPathNameSize)
            (fun k hk l s hs => ⟨hs, fun resto j hj => by
              rw [Nat.mul_zero, Nat.zero_add, ← texto_concat] at hs
              split at hs
              · rename_i hle
                exact ih (no_entrada_disco h hp hfile hk) hle hs resto hj
              · cases hs⟩) hl).2 k hk resto j
          rw [hnome, List.append_assoc] at hQ
          exact hQ hj

end Arvore

end Fs

end ThreadScheduler.SnfsServer
