import ThreadScheduler.SnfsServer.Defrag
import ThreadScheduler.SnfsServer.KeptInodes

/-!
# What the words of the i-node table hold

The i-node table goes to disk in words of 32 bits. The slots hold block numbers, the size of a file
is at most that of its ten blocks, and the directories list no more entries than i-nodes have been
taken. No call needs the accounts of the blocks for that, so it holds on any disk.
-/
namespace ThreadScheduler.SnfsServer

/-! ## The disk keeps its size -/

section Disco

variable (c : CacheT) (b : ℕ)

theorem retirarDaCache_numBlocks :
    (retirarDaCache c b).2.disco.numBlocks = c.disco.numBlocks := by
  rw [retirarDaCache]
  split
  · rfl
  · dsimp only
    split
    · split
      · rfl
      · exact blockWrite_numBlocks _ _ _
    · rfl

theorem libertarCadeia_numBlocks (classe : Icache → Bool) (chain : List HashNode) (r : ℤ × CacheT) :
    (libertarCadeia classe chain r).2.disco.numBlocks = r.2.disco.numBlocks := by
  induction chain generalizing r with
  | nil => rfl
  | cons no chain ih =>
      rw [libertarCadeia]
      split
      · exact (ih _).trans (retirarDaCache_numBlocks r.2 _)
      · exact ih _

theorem libertarClasse_numBlocks (classe : Icache → Bool) (n : ℤ) :
    (libertarClasse classe n c).2.disco.numBlocks = c.disco.numBlocks := by
  rw [libertarClasse]
  generalize List.range c.tabela.length = is
  induction is using List.reverseRecOn with
  | nil => rfl
  | append_singleton is i ih =>
      rw [List.foldl_append]
      exact (libertarCadeia_numBlocks classe _ _).trans ih

theorem libertarClasses_numBlocks (classes : List (Icache → Bool)) (n : ℤ) :
    (libertarClasses classes n c).disco.numBlocks = c.disco.numBlocks := by
  induction classes generalizing n c with
  | nil => rfl
  | cons classe classes ih =>
      have h := libertarClasse_numBlocks c classe n
      rw [libertarClasses]
      split
      · exact h
      · exact (ih _ _).trans h

theorem novaEntradaCache_numBlocks (modificado : Bool) (dados : Block) :
    (novaEntradaCache c b modificado dados).disco.numBlocks = c.disco.numBlocks := by
  have h : (if c.numeroNosUtilizados = c.numeroMaxNos then libertarEspaco c
      else c).disco.numBlocks = c.disco.numBlocks := by
    split
    · exact libertarClasses_numBlocks _ classesNRU (c.pilha 0)
    · rfl
  rw [novaEntradaCache]
  generalize (if c.numeroNosUtilizados = c.numeroMaxNos then libertarEspaco c else c) = c₁ at h ⊢
  dsimp only
  split
  · exact h
  · exact h

variable {c b} {c' : CacheT}

theorem carregarBlocoParaCache_numBlocks (h : carregarBlocoParaCache c b = some c') :
    c'.disco.numBlocks = c.disco.numBlocks := by
  rw [carregarBlocoParaCache] at h
  dsimp only at h
  split at h
  · cases h
  · rw [← Option.some.inj h]
    exact novaEntradaCache_numBlocks c b false _

theorem lerCache_numBlocks {bloco : Block} (h : lerCache c b = some (c', bloco)) :
    c'.disco.numBlocks = c.disco.numBlocks := by
  obtain ⟨c₁, hopen, h⟩ := Option.bind_eq_some_iff.mp h
  obtain ⟨e, -, h⟩ := Option.bind_eq_some_iff.mp h
  obtain ⟨rfl, -⟩ := Prod.mk.inj (Option.some.inj h)
  show c₁.disco.numBlocks = c.disco.numBlocks
  rw [abrirEntrada] at hopen
  split at hopen
  · exact carregarBlocoParaCache_numBlocks hopen
  · split at hopen
    · rw [← Option.some.inj hopen]
    · exact (carregarBlocoParaCache_numBlocks hopen).trans (retirarDaCache_numBlocks c b)

theorem escreverCache_numBlocks (c : CacheT) (b : ℕ) (bloco : Block) :
    (escreverCache c b bloco).2.disco.numBlocks = c.disco.numBlocks := by
  rw [escreverCache]
  dsimp only
  split
  · exact novaEntradaCache_numBlocks c b true bloco
  · split
    · rfl
    · split
      · exact retirarDaCache_numBlocks c b
      · rename_i c' hc
        exact (carregarBlocoParaCache_numBlocks hc).trans (retirarDaCache_numBlocks c b)

theorem invalidarBloco_numBlocks (c : CacheT) (b : ℕ) :
    (invalidarBloco c b).2.disco.numBlocks = c.disco.numBlocks := by
  rw [invalidarBloco]
  split <;> rfl

theorem actualizarCadeia_numBlocks (intervaloTempo : ℤ) (chain : List HashNode) (c : CacheT) :
    (actualizarCadeia intervaloTempo chain c).disco.numBlocks = c.disco.numBlocks := by
  induction chain generalizing c with
  | nil => rfl
  | cons no chain ih =>
      rw [actualizarCadeia]
      refine (ih _).trans ?_
      split
      · exact retirarDaCache_numBlocks _ _
      · rfl

theorem actualizarCache_numBlocks (c : CacheT) (intervaloTempo : ℤ) :
    (actualizarCache c intervaloTempo).disco.numBlocks = c.disco.numBlocks := by
  rw [actualizarCache]
  generalize List.range c.tabela.length = is
  induction is using List.reverseRecOn with
  | nil => rfl
  | append_singleton is i ih =>
      rw [List.foldl_append]
      exact (actualizarCadeia_numBlocks intervaloTempo _ _).trans ih

end Disco

/-! ## Slots and counters -/

theorem toChar_le (m : ℤ) : Fs.toChar m ≤ 127 := by
  simp only [Fs.toChar, Int.bmod_def]
  omega

/-- The disk has `n` blocks, and the slots and the counters hold what their types can. -/
structure Fs.Cabido (n : ℕ) (fs : Fs) : Prop where
  limite : n ≤ 2 ^ 32
  numBlocks : fs.numBlocks = n
  slot_lt : ∀ p, fs.slot p < 2 ^ 32
  referencias_le : ∀ b, fs.referencias b ≤ 127

namespace Fs.Cabido

variable {n : ℕ} {fs fs' : Fs}

theorem congr (h : fs.Cabido n) (hn : fs'.numBlocks = fs.numBlocks)
    (hs : fs'.slot = fs.slot) (hr : fs'.referencias = fs.referencias) : fs'.Cabido n :=
  ⟨h.limite, hn.trans h.numBlocks, hs ▸ h.slot_lt, hr ▸ h.referencias_le⟩

theorem withCache (h : fs.Cabido n) {c : CacheT}
    (hc : c.disco.numBlocks = fs.cache.disco.numBlocks) : (fs.withCache c).Cabido n :=
  h.congr hc rfl rfl

theorem writeDisk (h : fs.Cabido n) (b : ℕ) (data : Block) : (fs.writeDisk b data).Cabido n :=
  h.withCache (CacheT.writeDisk_numBlocks fs.cache b data)

theorem escreverCache (h : fs.Cabido n) (b : ℕ) (data : Block) :
    (fs.escreverCache b data).Cabido n :=
  h.withCache (escreverCache_numBlocks fs.cache b data)

theorem invalidarBloco (h : fs.Cabido n) (b : ℕ) : (fs.invalidarBloco b).Cabido n :=
  h.withCache (invalidarBloco_numBlocks fs.cache b)

theorem setBlk (h : fs.Cabido n) (b : ℕ) : (fs.setBlk b).Cabido n :=
  h.congr rfl rfl rfl

theorem clrBlk (h : fs.Cabido n) (b : ℕ) : (fs.clrBlk b).Cabido n :=
  h.congr rfl rfl rfl

theorem setSize (h : fs.Cabido n) (i s : ℕ) : (fs.setSize i s).Cabido n :=
  h.congr rfl (funext (setSize_slot fs i s)) rfl

theorem setRef (h : fs.Cabido n) (b : ℕ) (m : ℤ) : (fs.setRef b m).Cabido n := by
  refine ⟨h.limite, h.numBlocks, h.slot_lt, fun c => ?_⟩
  rw [Fs.setRef]
  dsimp only
  rw [Function.update_apply]
  split
  · exact toChar_le m
  · exact h.referencias_le c

theorem setBlock (h : fs.Cabido n) (i q : ℕ) {b : ℕ} (hb : b < 2 ^ 32) :
    (fs.setBlock i q b).Cabido n := by
  refine ⟨h.limite, h.numBlocks, fun p => ?_, h.referencias_le⟩
  rw [setBlock_slot]
  split
  · exact hb
  · exact h.slot_lt p

theorem setInode (h : fs.Cabido n) (i : ℕ) (tipo : FsItype) :
    (fs.setInode i (fsiInodeInit tipo)).Cabido n := by
  refine ⟨h.limite, h.numBlocks, fun p => ?_, h.referencias_le⟩
  rw [setInode_slot]
  split
  · exact Nat.two_pow_pos 32
  · exact h.slot_lt p

theorem findFreeBlk_lt (h : fs.Cabido n) {b : ℕ} (hb : fs.findFreeBlk = some b) : b < 2 ^ 32 := by
  have hlt := (fsiBmapFindFree_eq_some hb).1
  rw [h.numBlocks] at hlt
  exact lt_of_lt_of_le hlt h.limite

theorem store (h : fs.Cabido n) : (fsiStoreFsdata fs).Cabido n :=
  h.congr (store_numBlocks fs) (slot_congr (store_inodeTab fs)) (store_referencias fs)

theorem apagarBloco (h : fs.Cabido n) (b i : ℕ) : (SnfsServer.apagarBloco fs b i).Cabido n := by
  rw [SnfsServer.apagarBloco]
  dsimp only
  split
  · exact h.setRef b _
  · refine clrBlk ?_ b
    split
    · exact (h.setRef b 0).writeDisk b nullBlock
    · exact (h.setRef b 0).withCache (eliminarBlocoCache_numBlocks _ b)

theorem lerBloco (h : fs.Cabido n) {tipo : FsItype} {b : ℕ} {page : Block}
    (hl : fs.lerBloco tipo b = some (fs', page)) : fs'.Cabido n := by
  rw [Fs.lerBloco] at hl
  split at hl
  · obtain ⟨⟨c, bloco⟩, hc, he⟩ := Option.map_eq_some_iff.mp hl
    obtain ⟨rfl, -⟩ := Prod.mk.inj he
    exact h.withCache (lerCache_numBlocks hc)
  · obtain ⟨rfl, -⟩ := Prod.mk.inj (Option.some.inj hl)
    exact h

theorem copyOnWrite (h : fs.Cabido n) {b i : ℕ} {m : ℤ}
    (hc : SnfsServer.copyOnWrite fs b i = some (fs', m)) : fs'.Cabido n := by
  rw [SnfsServer.copyOnWrite] at hc
  simp only at hc
  split at hc
  · obtain ⟨rfl, -⟩ := Prod.mk.inj (Option.some.inj hc)
    exact h
  split at hc
  · obtain ⟨rfl, -⟩ := Prod.mk.inj (Option.some.inj hc)
    exact h
  obtain ⟨⟨fs₁, block⟩, hl, hc⟩ := Option.bind_eq_some_iff.mp hc
  have h₁ := h.lerBloco hl
  simp only at hc
  split at hc
  · obtain ⟨rfl, -⟩ := Prod.mk.inj (Option.some.inj hc)
    exact h₁
  rename_i bks hfree
  split at hc
  · obtain ⟨rfl, -⟩ := Prod.mk.inj (Option.some.inj hc)
    exact h₁.setBlk bks
  · rename_i k _
    obtain ⟨rfl, -⟩ := Prod.mk.inj (Option.some.inj hc)
    have h₂ := (h₁.setBlk bks).setBlock i k (h₁.findFreeBlk_lt hfree)
    split
    · exact ((h₂.setRef bks _).setRef b _).escreverCache bks block
    · exact ((h₂.setRef bks _).setRef b _).writeDisk bks block

theorem escreverBloco (h : fs.Cabido n) {b i : ℕ} {dados : Block}
    (hw : SnfsServer.escreverBloco fs b i dados = some fs') : fs'.Cabido n := by
  obtain ⟨⟨fs₁, m⟩, hc, rfl⟩ := Option.map_eq_some_iff.mp hw
  have h₁ := h.copyOnWrite hc
  dsimp only
  split
  · exact h₁.writeDisk _ dados
  · exact h₁.escreverCache _ dados

theorem gravarBloco (h : fs.Cabido n) {b i : ℕ} {block : Block}
    (hg : fs.gravarBloco i b block = some fs') : fs'.Cabido n := by
  rw [Fs.gravarBloco] at hg
  split at hg
  · exact h.escreverBloco hg
  · obtain rfl := Option.some.inj hg
    exact h.writeDisk b block

/-! ### The loops -/

theorem fsReadLoop (h : fs.Cabido n) {file offset max : ℕ} (m : ℕ) {iblock pos : ℕ}
    {buffer buffer' : List Byte}
    (hr : SnfsServer.fsReadLoop file offset max m fs iblock pos buffer = some (fs', buffer')) :
    fs'.Cabido n := by
  induction m generalizing fs iblock pos buffer with
  | zero =>
      obtain ⟨rfl, -⟩ := Prod.mk.inj (Option.some.inj hr)
      exact h
  | succ m ih =>
      rw [SnfsServer.fsReadLoop] at hr
      split at hr
      · obtain ⟨rfl, -⟩ := Prod.mk.inj (Option.some.inj hr)
        exact h
      · obtain ⟨⟨fs₁, block⟩, hl, hr⟩ := Option.bind_eq_some_iff.mp hr
        exact ih (h.lerBloco hl) hr

theorem reservarBlocos (h : fs.Cabido n) (file m i : ℕ) :
    (SnfsServer.reservarBlocos file m i fs).1.Cabido n := by
  induction m generalizing i fs with
  | zero => exact h
  | succ m ih =>
      rw [SnfsServer.reservarBlocos]
      split
      · exact h
      · rename_i blk hfree
        exact ih (((h.setBlock file i (h.findFreeBlk_lt hfree)).setBlk blk).setRef blk _) (i + 1)

theorem escreverExistentes (h : fs.Cabido n) {file offset count : ℕ} {buffer : ℕ → Byte} (m : ℕ)
    {num iblock num' iblock' : ℕ} {block block' : Block}
    (hw : SnfsServer.escreverExistentes file offset count buffer m fs num iblock block =
      some (fs', num', iblock', block')) : fs'.Cabido n := by
  induction m generalizing fs num iblock block with
  | zero =>
      obtain ⟨rfl, -⟩ := Prod.mk.inj (Option.some.inj hw)
      exact h
  | succ m ih =>
      rw [SnfsServer.escreverExistentes] at hw
      split at hw
      · obtain ⟨rfl, -⟩ := Prod.mk.inj (Option.some.inj hw)
        exact h
      · obtain ⟨⟨fs₁, page⟩, hl, hw⟩ := Option.bind_eq_some_iff.mp hw
        obtain ⟨fs₂, hg, hw⟩ := Option.bind_eq_some_iff.mp hw
        exact ih ((h.lerBloco hl).gravarBloco hg) hw

theorem escreverReservados (h : fs.Cabido n) {file count : ℕ} {buffer : ℕ → Byte} (m : ℕ)
    {num iblock num' : ℕ} {block : Block}
    (hw : SnfsServer.escreverReservados file count buffer m fs num iblock block =
      some (fs', num')) : fs'.Cabido n := by
  induction m generalizing fs num iblock block with
  | zero =>
      obtain ⟨rfl, -⟩ := Prod.mk.inj (Option.some.inj hw)
      exact h
  | succ m ih =>
      rw [SnfsServer.escreverReservados] at hw
      split at hw
      · obtain ⟨rfl, -⟩ := Prod.mk.inj (Option.some.inj hw)
        exact h
      · obtain ⟨fs₁, hg, hw⟩ := Option.bind_eq_some_iff.mp hw
        exact ih (h.gravarBloco hg) hw

theorem removerBlocos (h : fs.Cabido n) (idFile m i : ℕ) :
    (SnfsServer.removerBlocos idFile m i fs).1.Cabido n := by
  induction m generalizing i fs with
  | zero => exact h
  | succ m ih =>
      rw [SnfsServer.removerBlocos]
      split
      · exact h
      · exact ih ((h.apagarBloco _ idFile).setBlock idFile i (Nat.two_pow_pos 32)) (i + 1)

theorem semEntrada (h : fs.Cabido n) {dir : ℕ} {r : Fs × Bool} (hr : SemEntrada fs dir r) :
    r.1.Cabido n := by
  cases hr with
  | libertou u hs => exact (h.apagarBloco _ dir).setBlock dir u (Nat.two_pow_pos 32)
  | escreveu hne data hw => exact h.escreverBloco hw
  | falhou => exact h

theorem libertarDestino (h : fs.Cabido n) (i m : ℕ) :
    (SnfsServer.libertarDestino fs i m).Cabido n := by
  induction m with
  | zero => exact h
  | succ m ih =>
      rw [SnfsServer.libertarDestino, List.range_succ, List.foldl_append]
      exact ih.apagarBloco _ i

theorem copiarReferencias (h : fs.Cabido n) (de para base m : ℕ) :
    (SnfsServer.copiarReferencias fs de para base m).Cabido n := by
  induction m with
  | zero => exact h
  | succ m ih =>
      rw [SnfsServer.copiarReferencias, List.range_succ, List.foldl_append]
      exact (ih.setBlock para (base + m) (ih.slot_lt (de, m))).setRef _ _

theorem redirecionar (h : fs.Cabido n) (inodes : List ℕ) (de : ℕ) {para : ℕ} (hp : para < 2 ^ 32) :
    (SnfsServer.redirecionar fs inodes de para).Cabido n := by
  induction inodes generalizing fs with
  | nil => exact h
  | cons o inodes ih =>
      have hfirst : (redirecionarInode de para fs o).Cabido n := by
        rw [redirecionarInode]
        split
        · exact h.setBlock o _ hp
        · exact h
      exact ih hfirst

theorem mexeBlocoPara (h : fs.Cabido n) (bl : ℕ) {dest : ℕ} (hd : dest < 2 ^ 32) :
    (SnfsServer.mexeBlocoPara fs bl dest).Cabido n := by
  have hk : blocoTemporario fs < 2 ^ 32 := by
    rw [blocoTemporario]
    cases hf : (List.range' 10 (numBlocosMax - 9)).reverse.find?
        fun k => !bmapIsSet fs.blkBmap k with
    | none => decide
    | some k =>
        have hmem := List.mem_reverse.mp (List.mem_of_find?_eq_some hf)
        rw [List.mem_range'_1] at hmem
        simp only [numBlocosMax, inodeNumBlks, itabSize] at hmem
        simp only [Option.getD_some]
        omega
  unfold SnfsServer.mexeBlocoPara
  refine (invalidarBloco ?_ bl).clrBlk bl |>.store
  dsimp only
  split
  · exact ((h.writeDisk dest _).setBlk dest).redirecionar _ bl hd
  · have h₁ := ((h.setBlk (blocoTemporario fs)).writeDisk (blocoTemporario fs) (fs.readDisk dest))
    have h₂ := ((h₁.setBlk (blocoTemporario fs)).redirecionar
      (refInodes (fs.setBlk (blocoTemporario fs)) dest) dest hk).invalidarBloco dest
    exact ((h₂.writeDisk dest _).setBlk dest).redirecionar _ bl hd

theorem defragSlot {r : Fs × ℕ} (h : r.1.Cabido n) (z q : ℕ) :
    (SnfsServer.defragSlot z q r).1.Cabido n := by
  obtain ⟨fs, pos⟩ := r
  have hbl : (fs.inodeTab z).blocks q < 2 ^ 32 := h.slot_lt (z, q)
  rw [SnfsServer.defragSlot]
  split
  · exact h
  split
  · rename_i hlt
    exact mexeBlocoPara h _ (hlt.trans hbl)
  · exact h

theorem fsDefrag (h : fs.Cabido n) : (SnfsServer.fsDefrag fs).1.Cabido n := by
  rw [SnfsServer.fsDefrag]
  split
  · dsimp only
    rw [defragPass_eq]
    generalize percurso = ps
    induction ps using List.reverseRecOn with
    | nil => exact h
    | append_singleton ps p ih =>
        rw [List.foldl_append]
        exact ih.defragSlot p.1 p.2
  · exact h

end Fs.Cabido

/-! ## Sizes -/

namespace Fs

/-- The entries that an i-node lists, or one if it is free. -/
def peso (fs : Fs) (i : ℕ) : ℕ :=
  (if fs.typeAt i = .fsDir then fs.sizeAt i / 16 else 0) + if fs.alocado i then 0 else 1

/-- The entries of all directories and the free i-nodes. A creation turns one of these into one of
those, and nothing makes them more. -/
def pesoTotal (fs : Fs) : ℕ := ∑ i ∈ Finset.range itabSize, fs.peso i

/-- No file is longer than its slots reach, and no directory than the i-nodes allow. -/
structure Medido (fs : Fs) : Prop where
  ficheiro : ∀ i, fs.typeAt i ≠ .fsDir → fs.sizeAt i ≤ blockSize * inodeNumBlks
  total : fs.pesoTotal ≤ itabSize

theorem pesoTotal_mono {fs fs' : Fs} (h : ∀ i, fs'.peso i ≤ fs.peso i) :
    fs'.pesoTotal ≤ fs.pesoTotal := Finset.sum_le_sum fun i _ => h i

/-- One i-node gets lighter, and another one heavier by as much. -/
theorem pesoTotal_troca {fs fs' : Fs} {a b : ℕ} (ha : a < itabSize)
    (h : ∀ i, fs'.peso i + (if i = a then 1 else 0) ≤ fs.peso i + if i = b then 1 else 0) :
    fs'.pesoTotal ≤ fs.pesoTotal := by
  have hsum := Finset.sum_le_sum fun i (_ : i ∈ Finset.range itabSize) => h i
  rw [Finset.sum_add_distrib, Finset.sum_add_distrib, Finset.sum_ite_eq', Finset.sum_ite_eq',
    if_pos (Finset.mem_range.mpr ha)] at hsum
  rw [pesoTotal, pesoTotal]
  split at hsum <;> omega

namespace Medido

variable {fs fs' : Fs}

theorem congr (h : fs.Medido) (ht : ∀ i, fs'.typeAt i = fs.typeAt i)
    (hs : ∀ i, fs'.sizeAt i = fs.sizeAt i) (ha : ∀ i, fs'.alocado i = fs.alocado i) :
    fs'.Medido := by
  refine ⟨fun i hi => ?_, (pesoTotal_mono fun i => ?_).trans h.total⟩
  · rw [hs]
    exact h.ficheiro i (ht i ▸ hi)
  · rw [peso, peso, ht, hs, ha]

theorem same (h : fs.Medido) (hs : SameInodes fs fs') : fs'.Medido :=
  h.congr hs.type hs.size hs.alocado

/-- A file gets another size. -/
theorem setSize (h : fs.Medido) {i s : ℕ} (ht : fs.typeAt i ≠ .fsDir)
    (hs : s ≤ blockSize * inodeNumBlks) : (fs.setSize i s).Medido := by
  refine ⟨fun j hj => ?_, (pesoTotal_mono fun j => ?_).trans h.total⟩
  · rw [setSize_typeAt] at hj
    rw [setSize_sizeAt]
    split
    · exact hs
    · exact h.ficheiro j hj
  · rw [peso, peso, setSize_typeAt, setSize_sizeAt]
    have ha : (fs.setSize i s).alocado j = fs.alocado j := rfl
    rw [ha]
    split
    · rename_i hd
      rw [if_neg]
      rintro rfl
      exact ht hd
    · exact le_rfl

/-- The size of a directory goes into a word. -/
theorem sizeAt_lt (h : fs.Medido) {i : ℕ} (hi : i < itabSize) : fs.sizeAt i < 2 ^ 32 := by
  by_cases ht : fs.typeAt i = .fsDir
  · have hle : fs.peso i ≤ fs.pesoTotal :=
      Finset.single_le_sum (fun _ _ => Nat.zero_le _) (Finset.mem_range.mpr hi)
    have htotal := h.total
    rw [peso, if_pos ht] at hle
    simp only [itabSize] at htotal
    omega
  · have := h.ficheiro i ht
    simp only [blockSize, inodeNumBlks] at this
    omega

theorem criado (h : fs.Medido) {dir finode : ℕ} {file : CString} {fs₁ : Fs}
    (ha : Admite fs dir file finode) (hv : Vaga fs dir fs₁) (tipo : FsItype) :
    (fsiStoreFsdata (comNovo tipo fs₁ dir finode file.val)).Medido := by
  obtain ⟨hbmap, htype, hsize⟩ := hv.campos
  have hlt := (fsiBmapFindFree_eq_some ha.livre).1
  have hfree : fs.alocado finode = false := (fsiBmapFindFree_eq_some ha.livre).2
  have hne : dir ≠ finode := ha.ne ha.usado.1
  have hdir : fs.typeAt dir = .fsDir := ha.usado.2
  have h₁ : fs₁.Medido := h.congr htype hsize fun i => by rw [alocado, alocado, hbmap]
  refine same ⟨fun i hi => ?_, le_trans (pesoTotal_troca hlt (b := dir) fun i => ?_) h₁.total⟩
    (store_same _)
  · rw [comNovo_typeAt] at hi
    rw [comNovo_sizeAt]
    split
    · exact Nat.zero_le _
    · rename_i hif
      rw [if_neg hif] at hi
      rw [if_neg]
      · exact h₁.ficheiro i hi
      · rintro rfl
        exact hi (by rw [htype, hdir])
  · rw [peso, peso, comNovo_typeAt, comNovo_sizeAt, comNovo_alocado _ _ _ _ hlt]
    by_cases hif : i = finode
    · subst hif
      have hfree₁ : fs₁.alocado i = false := by rw [alocado, hbmap]; exact hfree
      simp [hfree₁, hne.symm]
    · by_cases hid : i = dir
      · subst hid
        simp only [hif, if_false, if_true, htype, hdir, decide_false, Bool.false_or]
        omega
      · simp [hif, hid]

theorem removido (h : fs.Medido) {dir idFile : ℕ} {nome : CString}
    (ha : AdmiteRemocao fs dir nome idFile) {fs₂ : Fs} (hs : SameInodes fs fs₂) :
    (fsiStoreFsdata (semInode fs₂ dir idFile)).Medido := by
  have hdir : fs₂.typeAt dir = .fsDir := (hs.type dir).trans ha.usado.2
  have hlista : fs₂.sizeAt dir / 16 ≠ 0 := by
    intro h0
    rw [hs.size] at h0
    have hnone : fs.encontra dir nome.val = none := by
      have hsize : (fs.inodeTab dir).size / 16 = 0 := h0
      rw [encontra, fsiDirSearch, hsize, fsiDirSearchLoop, if_pos rfl]
      rfl
    rw [ha.achado] at hnone
    cases hnone
  have h₂ := h.same hs
  refine same ⟨fun i hi => ?_, le_trans (pesoTotal_troca ha.lt (b := idFile) fun i => ?_) h₂.total⟩
    (store_same _)
  · rw [semInode_typeAt] at hi
    rw [semInode_sizeAt]
    split
    · exact Nat.zero_le _
    · rename_i hif
      rw [if_neg hif] at hi
      rw [if_neg]
      · exact h₂.ficheiro i hi
      · rintro rfl
        exact hi hdir
  · rw [peso, peso, semInode_typeAt, semInode_sizeAt, semInode_alocado]
    by_cases hif : i = idFile
    · subst hif
      by_cases hid : i = dir
      · subst hid
        simp only [if_true, reduceCtorEq, if_false, decide_true, Bool.not_true, Bool.false_and,
          Bool.false_eq_true, hdir]
        omega
      · simp [hid]
    · by_cases hid : i = dir
      · subst hid
        simp only [hif, if_false, if_true, hdir, decide_false, Bool.not_false, Bool.true_and]
        omega
      · simp [hif, hid]

end Medido

/-! ## The calls -/

/-- The words of the tables are as long as they go to disk. -/
structure EmPalavras (n : ℕ) (fs : Fs) : Prop where
  cabido : fs.Cabido n
  medido : fs.Medido

namespace EmPalavras

variable {n : ℕ} {fs fs' : Fs}

theorem fsCriar (h : fs.EmPalavras n) {tipo : FsItype} {dir : ℕ} {file : CString} {r : Option ℕ}
    (hc : SnfsServer.fsCriar tipo fs dir file = some (fs', r)) : fs'.EmPalavras n := by
  rcases fsCriar_casos hc with ⟨hr, -⟩ | ⟨finode, fs₁, ha, hv, hr⟩
  · rw [(Prod.mk.inj hr).1]
    exact h
  · obtain ⟨rfl, -⟩ := Prod.mk.inj hr
    have h₁ : fs₁.Cabido n := by
      cases hv with
      | bloco hs hb => exact (h.cabido.setBlk _).setBlock dir _ (h.cabido.findFreeBlk_lt hb)
      | aberta hs => exact h.cabido
    have h₂ : (comNovo tipo fs₁ dir finode file.val).Cabido n :=
      (((h₁.writeDisk _ _).setSize dir _).setInode finode tipo).congr rfl rfl rfl
    exact ⟨h₂.store, h.medido.criado ha hv tipo⟩

theorem fsWrite (h : fs.EmPalavras n) {file offset count : ℕ} {buffer : ℕ → Byte} {lixo : Block}
    {r : ℤ} (hw : SnfsServer.fsWrite fs file offset count buffer lixo = some (fs', r)) :
    fs'.EmPalavras n := by
  have hcab : (reservado fs file offset count).1.Cabido n := h.cabido.reservarBlocos _ _ _
  have hres : SameInodes fs (reservado fs file offset count).1 := reservarBlocos_same _ _ _ fs
  rcases fsWrite_casos hw with ⟨hr, -⟩ | ⟨ha, ⟨hr, -⟩ | ⟨-, fs₃, ⟨_, _, _, _, hex, hnew⟩, hr⟩⟩
  · rw [(Prod.mk.inj hr).1]
    exact h
  · obtain ⟨rfl, -⟩ := Prod.mk.inj hr
    exact ⟨hcab, h.medido.same hres⟩
  · obtain ⟨rfl, -⟩ := Prod.mk.inj hr
    have hsame := (hres.trans (escreverExistentes_same _ hex)).trans
      (escreverReservados_same _ hnew)
    have hcab₃ := (hcab.escreverExistentes _ hex).escreverReservados _ hnew
    have ht : fs.typeAt file = .fsFile := ha.1.2.2
    have hfit := ha.2
    have hold := offsetToBlocks_le.mpr (h.medido.ficheiro file (by simp [ht]))
    refine ⟨(hcab₃.setSize file _).store, Medido.same ?_ (store_same _)⟩
    refine (h.medido.same hsame).setSize (by simp [hsame.type, ht]) (offsetToBlocks_le.mp ?_)
    rw [blksReq] at hfit
    rw [offsetToBlocks_mono.map_max]
    omega

theorem fsRead (h : fs.EmPalavras n) {file offset count : ℕ} {r : Option (List Byte)}
    (hr : SnfsServer.fsRead fs file offset count = some (fs', r)) : fs'.EmPalavras n := by
  refine ⟨?_, h.medido.same (fsRead_same hr)⟩
  rw [SnfsServer.fsRead] at hr
  split at hr
  · rw [← (Prod.mk.inj (Option.some.inj hr)).1]
    exact h.cabido
  split at hr
  · rw [← (Prod.mk.inj (Option.some.inj hr)).1]
    exact h.cabido
  split at hr
  · rw [← (Prod.mk.inj (Option.some.inj hr)).1]
    exact h.cabido
  simp only at hr
  split at hr
  · rw [← (Prod.mk.inj (Option.some.inj hr)).1]
    exact h.cabido
  · obtain ⟨⟨fs₁, buffer⟩, hl, hx⟩ := Option.map_eq_some_iff.mp hr
    obtain ⟨rfl, -⟩ := Prod.mk.inj hx
    exact h.cabido.fsReadLoop _ hl

theorem fsRemove (h : fs.EmPalavras n) {dir : ℕ} {nome : CString} {r : Option ℕ}
    (hr : SnfsServer.fsRemove fs dir nome = some (fs', r)) : fs'.EmPalavras n := by
  rcases fsRemove_casos hr with ⟨hr, -⟩ | ⟨idFile, ha, hr⟩
  · rw [(Prod.mk.inj hr).1]
    exact h
  have hcab : (semBlocos fs idFile).1.Cabido n := h.cabido.removerBlocos _ _ _
  have hblocos : SameInodes fs (semBlocos fs idFile).1 := removerBlocos_same _ _ _ fs
  rcases hr with ⟨hr, -⟩ | ⟨-, fs₂, ok, hent, hr⟩
  · rw [(Prod.mk.inj hr).1]
    exact ⟨hcab, h.medido.same hblocos⟩
  have ht : (semBlocos fs idFile).1.typeAt dir = .fsDir := (hblocos.type dir).trans ha.usado.2
  have hcasos := removerEntrada_casos ht hent
  have hcab₂ : fs₂.Cabido n := hcab.semEntrada hcasos
  have hsame : SameInodes fs fs₂ := hblocos.trans hcasos.same
  cases ok with
  | false =>
      rw [(Prod.mk.inj hr).1]
      exact ⟨hcab₂, h.medido.same hsame⟩
  | true =>
      rw [(Prod.mk.inj hr).1]
      have h₃ : (semInode fs₂ dir idFile).Cabido n :=
        ((hcab₂.setSize dir _).setInode idFile .unset).congr rfl rfl rfl
      exact ⟨h₃.store, h.medido.removido ha hsame⟩

theorem fsCopyInodes (h : fs.EmPalavras n) {de para : ℕ} (ht : fs.typeAt de = .fsFile) :
    (SnfsServer.fsCopyInodes fs de para).1.EmPalavras n := by
  rw [SnfsServer.fsCopyInodes]
  split
  · exact h
  · rename_i hpara
    have hlib := libertarDestino_same fs para (offsetToBlocks (fs.inodeTab para).size)
    have hcab := h.cabido.libertarDestino para (offsetToBlocks (fs.inodeTab para).size)
    generalize libertarDestino fs para (offsetToBlocks (fs.inodeTab para).size) = fs₁ at hlib hcab ⊢
    have hsame := hlib.trans (copiarReferencias_same fs₁ de para 0 (offsetToBlocks (fs₁.sizeAt de)))
    refine ⟨(hcab.copiarReferencias de para 0 _).setSize para _, ?_⟩
    refine (h.medido.same hsame).setSize ?_ ?_
    · rw [hsame.type]
      exact fun hd => hpara fun hf => FsItype.noConfusion (hf.symm.trans hd)
    · exact (hlib.size de).trans_le (h.medido.ficheiro de (by simp [ht]))

theorem fsCopy (h : fs.EmPalavras n) {d₁ d₂ : ℕ} {nome₁ nome₂ : CString} {r : ℤ}
    (hc : SnfsServer.fsCopy fs d₁ nome₁ d₂ nome₂ = some (fs', r)) : fs'.EmPalavras n := by
  rcases fsCopy_casos hc with ⟨hr, -⟩ | ⟨de, ha, ⟨para, -, hr⟩ | ⟨-, ⟨-, hr⟩ | hcriou⟩⟩
  · rw [(Prod.mk.inj hr).1]
    exact h
  · rw [(Prod.mk.inj hr).1]
    exact h.fsCopyInodes ha.ficheiro
  · rw [(Prod.mk.inj hr).1]
    exact h
  · obtain ⟨fs₁, finode, hcre, -, ⟨-, hr⟩ | ⟨para, -, hr⟩⟩ := hcriou
    · rw [(Prod.mk.inj hr).1]
      exact h.fsCriar hcre
    · rw [(Prod.mk.inj hr).1]
      refine (h.fsCriar hcre).fsCopyInodes ?_
      rcases fsCriar_casos hcre with ⟨hr, -⟩ | ⟨finode', fs₀, -, hv, hr⟩
      · cases (Prod.mk.inj hr).2
      · obtain ⟨rfl, -⟩ := Prod.mk.inj hr
        rw [(store_same _).type, comNovo_typeAt, hv.campos.2.1, ha.ficheiro, ite_self]

theorem fsAppend (h : fs.EmPalavras n) {d₁ d₂ : ℕ} {nome₁ nome₂ : CString} {r : Option ℕ}
    (happ : SnfsServer.fsAppend fs d₁ nome₁ d₂ nome₂ = some (fs', r)) : fs'.EmPalavras n := by
  rcases fsAppend_casos happ with hr | ⟨de, para, ha, -, hfits, hr⟩
  · rw [(Prod.mk.inj hr).1]
    exact h
  · rw [(Prod.mk.inj hr).1]
    have hsame := copiarReferencias_same fs para de (offsetToBlocks (fs.sizeAt de))
      (offsetToBlocks (fs.sizeAt para))
    have hde : fs.typeAt de ≠ .fsDir := by simp [ha.ficheiro]
    refine ⟨(h.cabido.copiarReferencias para de _ _).setSize de _,
      (h.medido.same hsame).setSize (hsame.type de ▸ hde) ?_⟩
    have hold := offsetToBlocks_le.mpr (h.medido.ficheiro de hde)
    have h₁ := offsetToBlocks_le.mp (le_refl (offsetToBlocks (fs.sizeAt de)))
    have h₂ := offsetToBlocks_le.mp (le_refl (offsetToBlocks (fs.sizeAt para)))
    simp only [blockSize, inodeNumBlks] at *
    omega

/-- Every call, on any disk and in any state. -/
theorem exec (h : fs.EmPalavras n) {op : FsOp} {r : Resposta}
    (he : op.exec fs = some (fs', r)) : fs'.EmPalavras n := by
  cases op with
  | create dir file =>
      obtain ⟨⟨fs₁, m⟩, hc, hx⟩ := Option.map_eq_some_iff.mp he
      obtain ⟨rfl, -⟩ := Prod.mk.inj hx
      exact h.fsCriar hc
  | mkdir dir newdir =>
      obtain ⟨⟨fs₁, m⟩, hc, hx⟩ := Option.map_eq_some_iff.mp he
      obtain ⟨rfl, -⟩ := Prod.mk.inj hx
      exact h.fsCriar hc
  | write file offset count buffer lixo =>
      obtain ⟨⟨fs₁, m⟩, hw, hx⟩ := Option.map_eq_some_iff.mp he
      obtain ⟨rfl, -⟩ := Prod.mk.inj hx
      exact h.fsWrite hw
  | read file offset count =>
      obtain ⟨⟨fs₁, m⟩, hl, hx⟩ := Option.map_eq_some_iff.mp he
      obtain ⟨rfl, -⟩ := Prod.mk.inj hx
      exact h.fsRead hl
  | copy d₁ nome₁ d₂ nome₂ =>
      obtain ⟨⟨fs₁, m⟩, hc, hx⟩ := Option.map_eq_some_iff.mp he
      obtain ⟨rfl, -⟩ := Prod.mk.inj hx
      exact h.fsCopy hc
  | remove dir nome =>
      obtain ⟨⟨fs₁, m⟩, hr, hx⟩ := Option.map_eq_some_iff.mp he
      obtain ⟨rfl, -⟩ := Prod.mk.inj hx
      exact h.fsRemove hr
  | append d₁ nome₁ d₂ nome₂ =>
      obtain ⟨⟨fs₁, m⟩, ha, hx⟩ := Option.map_eq_some_iff.mp he
      obtain ⟨rfl, -⟩ := Prod.mk.inj hx
      exact h.fsAppend ha
  | defrag =>
      obtain ⟨rfl, -⟩ := Prod.mk.inj (Option.some.inj he)
      exact ⟨h.cabido.fsDefrag, h.medido.same (fsDefrag_same fs)⟩
  | actualizar intervaloTempo =>
      obtain ⟨rfl, -⟩ := Prod.mk.inj (Option.some.inj he)
      exact ⟨h.cabido.withCache (actualizarCache_numBlocks fs.cache intervaloTempo),
        h.medido.congr (fun _ => rfl) (fun _ => rfl) fun _ => rfl⟩

end EmPalavras

/-- A formatted disk lists nothing. -/
theorem formatado_medido (numBlocks : ℕ) (pilha : ℕ → ℤ) :
    (fsFormat (fsNew numBlocks pilha)).Medido := by
  obtain ⟨c, -, -, -, -, -, -, -, htab⟩ := fsFormat_spec pilha numBlocks
  generalize fsFormat (fsNew numBlocks pilha) = fs at *
  have hsize : ∀ i, fs.sizeAt i = 0 := fun i => by rw [sizeAt, htab]; rfl
  have hpeso : ∀ i ∈ Finset.range itabSize, fs.peso i ≤ 1 := by
    intro i _
    rw [peso, hsize]
    split <;> split <;> simp
  refine ⟨fun i _ => ?_, (Finset.sum_le_sum hpeso).trans (by simp)⟩
  rw [hsize]
  exact Nat.zero_le _

theorem formatado_emPalavras {numBlocks : ℕ} (h : numBlocks ≤ 2 ^ 32) (pilha : ℕ → ℤ) :
    (fsFormat (fsNew numBlocks pilha)).EmPalavras numBlocks := by
  have hmedido := formatado_medido numBlocks pilha
  obtain ⟨c, hc, -, hn, href, -, -, -, htab⟩ := fsFormat_spec pilha numBlocks
  generalize fsFormat (fsNew numBlocks pilha) = fs at *
  refine ⟨⟨h, ?_, fun p => ?_, fun b => ?_⟩, hmedido⟩
  · show fs.cache.disco.numBlocks = numBlocks
    rw [hc, hn]
  · rw [slot, htab]
    exact Nat.two_pow_pos 32
  · rw [href]
    decide

theorem emPalavras_of_run {numBlocks : ℕ} (h : numBlocks ≤ 2 ^ 32) (pilha : ℕ → ℤ)
    {ops : List FsOp} {fs : Fs} {rs : List Resposta}
    (hrun : Runs.run FsOp.exec (fsFormat (fsNew numBlocks pilha)) ops = some (fs, rs)) :
    fs.EmPalavras numBlocks :=
  Runs.run_invariant (P := fun _ _ => True) (I := fun fs => fs.EmPalavras numBlocks)
    (fun _ _ _ _ hI _ he => hI.exec he) (formatado_emPalavras h pilha)
    (Runs.permitted_of_forall fun _ _ _ => trivial) hrun

end Fs

end ThreadScheduler.SnfsServer
