import ThreadScheduler.SnfsServer.Refinement

/-!
# What a call can do

One lemma for each call of `fs.c` that changes the tables: the ways in which it ends, whatever the
state. Nothing here needs the invariants of the file system.
-/
namespace ThreadScheduler.SnfsServer

namespace Fs

/-- What `fsi_dir_search` answers for a directory. -/
def encontra (fs : Fs) (d : ℕ) (nome : List Byte) : Option ℕ :=
  (fsiDirSearch fs d nome).bind Prod.snd

/-- An i-node that is set and is a directory. -/
def DirUsado (fs : Fs) (d : ℕ) : Prop := fs.alocado d = true ∧ fs.typeAt d = .fsDir

/-- An i-node below the size of the table that is set and is a file. -/
def FicheiroUsado (fs : Fs) (i : ℕ) : Prop :=
  i < itabSize ∧ fs.alocado i = true ∧ fs.typeAt i = .fsFile

theorem DirUsado.fsiDirSearch_eq {fs : Fs} {d : ℕ} (h : fs.DirUsado d) (nome : List Byte) :
    fsiDirSearch fs d nome = some (fs, fs.encontra d nome) := by
  have ht : (fs.inodeTab d).type = .fsDir := h.2
  have hnf : (fs.inodeTab d).type ≠ .fsFile := by rw [ht]; decide
  obtain ⟨found, hf⟩ := fsiDirSearch_of_not_file hnf nome
  rw [encontra, hf, Option.bind_some]

section Store

variable (fs : Fs)

@[simp] theorem store_inodeTab : (fsiStoreFsdata fs).inodeTab = fs.inodeTab := by
  obtain ⟨c, hc, -⟩ := fsiStoreFsdata_spec fs
  rw [hc, withCache_inodeTab]

@[simp] theorem store_blkBmap : (fsiStoreFsdata fs).blkBmap = fs.blkBmap := by
  obtain ⟨c, hc, -⟩ := fsiStoreFsdata_spec fs
  rw [hc, withCache_blkBmap]

@[simp] theorem store_inodeBmap : (fsiStoreFsdata fs).inodeBmap = fs.inodeBmap := by
  obtain ⟨c, hc, -⟩ := fsiStoreFsdata_spec fs
  rw [hc, withCache_inodeBmap]

@[simp] theorem store_referencias : (fsiStoreFsdata fs).referencias = fs.referencias := by
  obtain ⟨c, hc, -⟩ := fsiStoreFsdata_spec fs
  rw [hc, withCache_referencias]

@[simp] theorem store_numBlocks : (fsiStoreFsdata fs).numBlocks = fs.numBlocks := by
  obtain ⟨c, hc, -, hn, -⟩ := fsiStoreFsdata_spec fs
  rw [hc]
  exact hn

end Store

end Fs

open Fs

/-! ## Creating -/

/-- The directory has room for one more entry, with a new block if the last one is full. -/
inductive Vaga (fs : Fs) (dir : ℕ) : Fs → Prop where
  | bloco {b : ℕ} (hs : fs.sizeAt dir % blockSize = 0) (hb : fs.findFreeBlk = some b) :
      Vaga fs dir ((fs.setBlk b).setBlock dir (fs.sizeAt dir / blockSize) b)
  | aberta (hs : fs.sizeAt dir % blockSize ≠ 0) : Vaga fs dir fs

/-- The page that holds the new entry. -/
def paginaNova (fs : Fs) (dir finode : ℕ) (file : List Byte) : Block :=
  let entry := fs.sizeAt dir % blockSize / 16
  setInodeid (strcpy (fs.readDisk (fs.slot (dir, fs.sizeAt dir / blockSize))) (16 * entry) file)
    entry finode

/-- The tables after a creation, before they are stored. -/
def comNovo (tipo : FsItype) (fs : Fs) (dir finode : ℕ) (file : List Byte) : Fs :=
  let fs' := (fs.writeDisk (fs.slot (dir, fs.sizeAt dir / blockSize))
    (paginaNova fs dir finode file)).setSize dir (fs.sizeAt dir + 16)
  { fs' with inodeBmap := bmapSet fs.inodeBmap finode }.setInode finode (fsiInodeInit tipo)

/-- Nothing is found in an empty directory. -/
theorem encontra_of_vazio {fs : Fs} {d : ℕ} (h : fs.sizeAt d = 0) (nome : List Byte) :
    fs.encontra d nome = none := by
  have hs : (fs.inodeTab d).size = 0 := h
  rw [encontra, fsiDirSearch, hs, fsiDirSearchLoop, if_pos (Nat.zero_div 16)]
  rfl

/-- The checks of a creation pass, and there is an i-node for it. -/
structure Admite (fs : Fs) (dir : ℕ) (file : CString) (finode : ℕ) : Prop where
  lt : dir < itabSize
  nome : ¬badName file
  usado : fs.DirUsado dir
  nova : fs.encontra dir file.val = none
  livre : fsiBmapFindFree fs.inodeBmap itabSize = some finode

section ComNovo

variable (tipo : FsItype) (fs : Fs) (dir finode : ℕ) (file : List Byte)

@[simp] theorem comNovo_blkBmap : (comNovo tipo fs dir finode file).blkBmap = fs.blkBmap := rfl

@[simp] theorem comNovo_referencias :
    (comNovo tipo fs dir finode file).referencias = fs.referencias := rfl

@[simp] theorem comNovo_numBlocks :
    (comNovo tipo fs dir finode file).numBlocks = fs.numBlocks :=
  CacheT.writeDisk_numBlocks fs.cache _ _

theorem comNovo_alocado {finode : ℕ} (hf : finode < itabSize) (i : ℕ) :
    (comNovo tipo fs dir finode file).alocado i = (decide (i = finode) || fs.alocado i) :=
  bmapIsSet_set (hf.trans (by decide)) i

theorem comNovo_typeAt (i : ℕ) : (comNovo tipo fs dir finode file).typeAt i =
    if i = finode then tipo else fs.typeAt i := by
  rw [comNovo, setInode_typeAt]
  split
  · rfl
  · exact setSize_typeAt _ dir _ i

theorem comNovo_sizeAt (i : ℕ) : (comNovo tipo fs dir finode file).sizeAt i =
    if i = finode then 0 else if i = dir then fs.sizeAt dir + 16 else fs.sizeAt i := by
  rw [comNovo, setInode_sizeAt]
  split
  · rfl
  · exact setSize_sizeAt _ dir _ i

theorem comNovo_slot (p : ℕ × ℕ) : (comNovo tipo fs dir finode file).slot p =
    if p.1 = finode then 0 else fs.slot p := by
  rw [comNovo, setInode_slot]
  split
  · rfl
  · exact setSize_slot _ dir _ p

end ComNovo

theorem fsCriar_casos {tipo : FsItype} {fs : Fs} {dir : ℕ} {file : CString} {r : Fs × Option ℕ}
    (h : fsCriar tipo fs dir file = some r) :
    (r = (fs, none) ∧ ∀ finode fs₁, ¬(Admite fs dir file finode ∧ Vaga fs dir fs₁)) ∨
      ∃ finode fs₁, Admite fs dir file finode ∧ Vaga fs dir fs₁ ∧
        r = (fsiStoreFsdata (comNovo tipo fs₁ dir finode file.val), some finode) := by
  rw [fsCriar] at h
  split at h
  · rename_i hargs
    refine .inl ⟨(Option.some.inj h).symm, fun finode fs₁ ha => ?_⟩
    exact hargs.elim (fun hd => absurd ha.1.lt (Nat.not_lt.mpr hd)) ha.1.nome
  rename_i hargs
  split at h
  · rename_i hset
    refine .inl ⟨(Option.some.inj h).symm, fun finode fs₁ ha => ?_⟩
    have := ha.1.usado.1
    rw [alocado] at this
    rw [this] at hset
    cases hset
  rename_i hset
  split at h
  · rename_i hdir
    exact .inl ⟨(Option.some.inj h).symm, fun finode fs₁ ha => hdir ha.1.usado.2⟩
  rename_i hdir
  have hd : fs.DirUsado dir := ⟨by simpa [alocado] using hset, not_not.mp hdir⟩
  rw [hd.fsiDirSearch_eq, Option.bind_some] at h
  simp only at h
  split at h
  · rename_i hfound
    refine .inl ⟨(Option.some.inj h).symm, fun finode fs₁ ha => ?_⟩
    rw [ha.1.nova] at hfound
    cases hfound
  rename_i hfound
  split at h
  · rename_i hnone
    refine .inl ⟨(Option.some.inj h).symm, fun finode fs₁ ha => ?_⟩
    have := ha.1.livre
    rw [hnone] at this
    cases this
  rename_i finode hinode
  have hadm : Admite fs dir file finode := ⟨by omega, fun hb => hargs (.inr hb), hd,
    Option.not_isSome_iff_eq_none.mp hfound, hinode⟩
  have hsize : (fs.inodeTab dir).size = fs.sizeAt dir := rfl
  rw [hsize] at h
  split at h
  · rename_i hvaga
    refine .inl ⟨(Option.some.inj h).symm, fun finode' fs₁ ha => ?_⟩
    split at hvaga
    · rename_i hs
      rcases ha.2 with ⟨-, hb⟩ | hs'
      · rw [hb] at hvaga
        cases hvaga
      · exact hs' hs
    · cases hvaga
  · rename_i fs₁ hvaga
    have hv : Vaga fs dir fs₁ := by
      split at hvaga
      · rename_i hs
        obtain ⟨b, hb, rfl⟩ := Option.map_eq_some_iff.mp hvaga
        exact .bloco hs hb
      · rename_i hs
        obtain rfl := Option.some.inj hvaga
        exact .aberta hs
    have hsame : fs₁.typeAt dir = .fsDir ∧ fs₁.sizeAt dir = fs.sizeAt dir := by
      cases hv with
      | bloco hs hb => exact ⟨by rw [setBlock_typeAt]; exact hd.2, setBlock_sizeAt _ _ _ _ _⟩
      | aberta hs => exact ⟨hd.2, rfl⟩
    have ht₁ : (fs₁.inodeTab dir).type = .fsDir := hsame.1
    simp only [ht₁, Fs.lerBloco, reduceCtorEq, if_false, Option.bind_some] at h
    refine .inr ⟨finode, fs₁, hadm, hv, ?_⟩
    rw [← Option.some.inj h, comNovo, paginaNova, hsame.2]
    rfl

theorem Vaga.campos {fs fs₁ : Fs} {dir : ℕ} (h : Vaga fs dir fs₁) :
    fs₁.inodeBmap = fs.inodeBmap ∧ (∀ i, fs₁.typeAt i = fs.typeAt i) ∧
      ∀ i, fs₁.sizeAt i = fs.sizeAt i := by
  cases h with
  | bloco hs hb =>
      exact ⟨rfl, fun i => setBlock_typeAt _ _ _ _ i, fun i => setBlock_sizeAt _ _ _ _ i⟩
  | aberta hs => exact ⟨rfl, fun _ => rfl, fun _ => rfl⟩

theorem Admite.ne {fs : Fs} {dir finode : ℕ} {file : CString} (h : Admite fs dir file finode)
    {i : ℕ} (hi : fs.alocado i = true) : i ≠ finode := by
  rintro rfl
  have hfree := (fsiBmapFindFree_eq_some h.livre).2
  rw [← alocado, hi] at hfree
  cases hfree

/-- The directory is still there after the creation. -/
theorem Admite.usado_depois {fs fs₁ : Fs} {dir finode : ℕ} {file : CString}
    (h : Admite fs dir file finode) (tipo : FsItype) (hv : Vaga fs dir fs₁) :
    (fsiStoreFsdata (comNovo tipo fs₁ dir finode file.val)).DirUsado dir := by
  have hne := h.ne h.usado.1
  have hlt := (fsiBmapFindFree_eq_some h.livre).1
  obtain ⟨hbmap, htype, -⟩ := hv.campos
  refine ⟨?_, ?_⟩
  · rw [alocado, store_inodeBmap, ← alocado, comNovo_alocado _ _ _ _ hlt, alocado, hbmap,
      ← alocado, h.usado.1, Bool.or_true]
  · rw [typeAt_congr (store_inodeTab _), comNovo_typeAt, if_neg hne, htype, h.usado.2]

/-! ## Writing -/

/-- The blocks that a write needs behind those of the file. -/
def blksReq (fs : Fs) (file offset count : ℕ) : ℕ :=
  max (offsetToBlocks (min offset (fs.sizeAt file) + count)) (offsetToBlocks (fs.sizeAt file)) -
    offsetToBlocks (fs.sizeAt file)

/-- The checks of a write pass. -/
def AdmiteEscrita (fs : Fs) (file offset count : ℕ) : Prop :=
  fs.FicheiroUsado file ∧
    blksReq fs file offset count ≤ inodeNumBlks - offsetToBlocks (fs.sizeAt file)

/-- The state in which the blocks of a write are reserved, or not all of them. -/
def reservado (fs : Fs) (file offset count : ℕ) : Fs × Bool :=
  reservarBlocos file (blksReq fs file offset count) (offsetToBlocks (fs.sizeAt file)) fs

/-- A write with its blocks reserved. -/
def EscreveTudo (fs : Fs) (file offset count : ℕ) (buffer : ℕ → Byte) (lixo : Block) (fs₃ : Fs) :
    Prop :=
  ∃ fs₂ num iblock block,
    escreverExistentes file (min offset (fs.sizeAt file)) count buffer
        (offsetToBlocks (fs.sizeAt file) - min offset (fs.sizeAt file) / blockSize)
        (reservado fs file offset count).1 0 (min offset (fs.sizeAt file) / blockSize) lixo =
      some (fs₂, num, iblock, block) ∧
    escreverReservados file count buffer (offsetToBlocks (fs.sizeAt file) +
        blksReq fs file offset count - iblock) fs₂ num iblock block = some (fs₃, count)

theorem fsWrite_casos {fs : Fs} {file offset count : ℕ} {buffer : ℕ → Byte} {lixo : Block}
    {r : Fs × ℤ} (h : fsWrite fs file offset count buffer lixo = some r) :
    (r = (fs, -1) ∧ ¬AdmiteEscrita fs file offset count) ∨
      AdmiteEscrita fs file offset count ∧
        ((r = ((reservado fs file offset count).1, -1) ∧
            (reservado fs file offset count).2 = false) ∨
          (reservado fs file offset count).2 = true ∧
            ∃ fs₃, EscreveTudo fs file offset count buffer lixo fs₃ ∧
              r = (fsiStoreFsdata (fs₃.setSize file
                (max (min offset (fs.sizeAt file) + count) (fs.sizeAt file))), 0)) := by
  have hmin : (if (fs.inodeTab file).size < offset then (fs.inodeTab file).size else offset) =
      min offset (fs.sizeAt file) := by
    rw [sizeAt]
    split <;> omega
  have hsize : (fs.inodeTab file).size = fs.sizeAt file := rfl
  rw [fsWrite] at h
  split at h
  · rename_i hlt
    exact .inl ⟨(Option.some.inj h).symm, fun ha => absurd ha.1.1 (Nat.not_lt.mpr hlt)⟩
  rename_i hlt
  split at h
  · rename_i hset
    refine .inl ⟨(Option.some.inj h).symm, fun ha => ?_⟩
    have := ha.1.2.1
    rw [alocado] at this
    rw [this] at hset
    cases hset
  rename_i hset
  split at h
  · rename_i hfile
    exact .inl ⟨(Option.some.inj h).symm, fun ha => hfile ha.1.2.2⟩
  rename_i hfile
  have hf : fs.FicheiroUsado file :=
    ⟨by omega, by simpa [alocado] using hset, not_not.mp hfile⟩
  simp only [hmin] at h
  simp only [hsize] at h
  split at h
  · rename_i hfull
    exact .inl ⟨(Option.some.inj h).symm, fun ha => absurd ha.2 (Nat.not_le.mpr hfull)⟩
  rename_i hfull
  refine .inr ⟨⟨hf, Nat.not_lt.mp hfull⟩, ?_⟩
  split at h
  · rename_i fs₁ hres
    have hres : reservado fs file offset count = (fs₁, false) := hres
    rw [hres]
    exact .inl ⟨(Option.some.inj h).symm, rfl⟩
  · rename_i fs₁ hres
    have hres : reservado fs file offset count = (fs₁, true) := hres
    obtain ⟨⟨fs₂, num, iblock, block⟩, hex, h⟩ := Option.bind_eq_some_iff.mp h
    obtain ⟨⟨fs₃, num'⟩, hnew, h⟩ := Option.bind_eq_some_iff.mp h
    simp only at h hnew
    split at h
    · cases h
    · rename_i hnum
      obtain rfl := not_not.mp hnum
      refine .inr ⟨by rw [hres], fs₃, ⟨fs₂, num, iblock, block, ?_, hnew⟩,
        (Option.some.inj h).symm⟩
      rw [hres]
      exact hex

/-! ## Removing -/

/-- The checks of a removal pass for the i-node that the name gives. -/
structure AdmiteRemocao (fs : Fs) (dir : ℕ) (nome : CString) (idFile : ℕ) : Prop where
  lt : dir < itabSize
  nomeOk : ¬badName nome
  usado : fs.DirUsado dir
  achado : fs.encontra dir nome.val = some idFile
  vazio : ¬(fs.typeAt idFile = .fsDir ∧ fs.sizeAt idFile ≠ 0)

/-- The state in which the blocks of the file are released, or not all of them. -/
def semBlocos (fs : Fs) (idFile : ℕ) : Fs × Bool :=
  removerBlocos idFile (offsetToBlocks (fs.sizeAt idFile)) 0 fs

/-- The tables after a removal, before they are stored. -/
def semInode (fs : Fs) (dir idFile : ℕ) : Fs :=
  { (fs.setSize dir (fs.sizeAt dir - 16)).setInode idFile (fsiInodeInit .unset) with
    inodeBmap := bmapClr fs.inodeBmap idFile }

section SemInode

variable (fs : Fs) (dir idFile : ℕ)

theorem semInode_alocado (i : ℕ) :
    (semInode fs dir idFile).alocado i = (!decide (i = idFile) && fs.alocado i) :=
  bmapIsSet_clr fs.inodeBmap idFile i

theorem semInode_typeAt (i : ℕ) :
    (semInode fs dir idFile).typeAt i = if i = idFile then .unset else fs.typeAt i := by
  refine (setInode_typeAt _ idFile _ i).trans ?_
  rw [setSize_typeAt]
  rfl

theorem semInode_sizeAt (i : ℕ) : (semInode fs dir idFile).sizeAt i =
    if i = idFile then 0 else if i = dir then fs.sizeAt dir - 16 else fs.sizeAt i := by
  refine (setInode_sizeAt _ idFile _ i).trans ?_
  rw [setSize_sizeAt]
  rfl

theorem semInode_slot (p : ℕ × ℕ) :
    (semInode fs dir idFile).slot p = if p.1 = idFile then 0 else fs.slot p := by
  refine (setInode_slot _ idFile _ p).trans ?_
  rw [setSize_slot]
  rfl

end SemInode

theorem fsRemove_casos {fs : Fs} {dir : ℕ} {nome : CString} {r : Fs × Option ℕ}
    (h : fsRemove fs dir nome = some r) :
    (r = (fs, none) ∧ ∀ idFile, ¬AdmiteRemocao fs dir nome idFile) ∨
      ∃ idFile, AdmiteRemocao fs dir nome idFile ∧
        ((r = ((semBlocos fs idFile).1, none) ∧ (semBlocos fs idFile).2 = false) ∨
          (semBlocos fs idFile).2 = true ∧
            ∃ fs₂ ok, removerEntrada (semBlocos fs idFile).1 dir nome.val = some (fs₂, ok) ∧
              r = if ok = true then (fsiStoreFsdata (semInode fs₂ dir idFile), some idFile)
                else (fs₂, none)) := by
  rw [fsRemove] at h
  split at h
  · rename_i hargs
    refine .inl ⟨(Option.some.inj h).symm, fun idFile ha => ?_⟩
    exact hargs.elim (fun hd => absurd ha.lt (Nat.not_lt.mpr hd)) ha.nomeOk
  rename_i hargs
  split at h
  · rename_i hset
    refine .inl ⟨(Option.some.inj h).symm, fun idFile ha => ?_⟩
    have := ha.usado.1
    rw [alocado] at this
    rw [this] at hset
    cases hset
  rename_i hset
  split at h
  · rename_i hdir
    exact .inl ⟨(Option.some.inj h).symm, fun idFile ha => hdir ha.usado.2⟩
  rename_i hdir
  have hd : fs.DirUsado dir := ⟨by simpa [alocado] using hset, not_not.mp hdir⟩
  rw [hd.fsiDirSearch_eq, Option.bind_some] at h
  simp only at h
  split at h
  · rename_i hnone
    refine .inl ⟨(Option.some.inj h).symm, fun idFile ha => ?_⟩
    have := ha.achado
    rw [hnone] at this
    cases this
  rename_i idFile hfound
  split at h
  · rename_i hdir
    refine .inl ⟨(Option.some.inj h).symm, fun idFile' ha => ?_⟩
    have hid : idFile = idFile' := Option.some.inj (hfound.symm.trans ha.achado)
    exact ha.vazio (hid ▸ hdir)
  rename_i hdir
  refine .inr ⟨idFile, ⟨by omega, fun hb => hargs (.inr hb), hd, hfound, hdir⟩, ?_⟩
  split at h
  · rename_i fs₁ hres
    have hres : semBlocos fs idFile = (fs₁, false) := hres
    rw [hres]
    exact .inl ⟨(Option.some.inj h).symm, rfl⟩
  · rename_i fs₁ hres
    have hres : semBlocos fs idFile = (fs₁, true) := hres
    obtain ⟨⟨fs₂, ok⟩, hent, h⟩ := Option.bind_eq_some_iff.mp h
    refine .inr ⟨by rw [hres], fs₂, ok, by rw [hres]; exact hent, ?_⟩
    cases ok
    · exact (Option.some.inj h).symm
    · exact (Option.some.inj h).symm

/-- The search of `fs_remove` changes nothing in a directory. -/
theorem procurarEntrada_of_dir {fs : Fs} {dir : ℕ} (ht : fs.typeAt dir = .fsDir)
    (nome : List Byte) (num iblock : ℕ) :
    ∃ found, procurarEntrada fs dir nome num iblock = some (fs, found) := by
  have ht : (fs.inodeTab dir).type = .fsDir := ht
  induction num using Nat.strong_induction_on generalizing iblock with
  | _ num ih =>
      rw [procurarEntrada]
      split
      · exact ⟨none, rfl⟩
      · rename_i hne
        simp only [ht, Fs.lerBloco, reduceCtorEq, if_false, Option.bind_some]
        split
        · rename_i i _
          exact ⟨some i, rfl⟩
        · exact ih _ (sub_page_lt hne) _

/-- How `removerEntrada` ends in a directory whose last page has index `u`: it releases the block of
the last entry, writes its page, or does not find the name. -/
inductive SemEntrada (fs : Fs) (dir : ℕ) : Fs × Bool → Prop where
  | libertou (u : ℕ) (hs : fs.sizeAt dir / 16 = dirPageEntries * u + 1) : SemEntrada fs dir
      ((apagarBloco fs (fs.slot (dir, u)) dir).setBlock dir u 0, true)
  | escreveu {fs' : Fs} (hne : fs.sizeAt dir / 16 ≠ 0) (data : Block)
      (hw : escreverBloco fs (fs.slot (dir, fs.sizeAt dir / 16 / dirPageEntries)) dir data =
        some fs') : SemEntrada fs dir (fs', true)
  | falhou : SemEntrada fs dir (fs, false)

/-- The last entry is alone on its page. -/
theorem eq_of_resto {num u : ℕ} (hnum : 2 ≤ num) (hu : num / dirPageEntries = u) (hu0 : u ≠ 0)
    (he : (num - 1) % (u * dirPageEntries) = 0) : num = dirPageEntries * u + 1 := by
  obtain ⟨k, hk⟩ := Nat.dvd_of_mod_eq_zero he
  simp only [dirPageEntries] at hu hk ⊢
  match k with
  | 0 => omega
  | 1 => omega
  | k + 2 =>
      have hge : u * 32 * 2 ≤ u * 32 * (k + 2) := Nat.mul_le_mul_left _ (Nat.le_add_left 2 k)
      omega

theorem removerEntrada_casos {fs : Fs} {dir : ℕ} {nome : List Byte} {r : Fs × Bool}
    (ht : fs.typeAt dir = .fsDir) (h : removerEntrada fs dir nome = some r) :
    SemEntrada fs dir r := by
  have hsize : (fs.inodeTab dir).size / 16 = fs.sizeAt dir / 16 := rfl
  rw [removerEntrada, hsize] at h
  simp only at h
  split at h
  · rename_i hone
    obtain rfl := Option.some.inj h
    exact .libertou 0 hone
  · rename_i hone
    obtain ⟨found, hf⟩ := procurarEntrada_of_dir ht nome (fs.sizeAt dir / 16) 0
    have hzero : fs.sizeAt dir / 16 = 0 → found = none := by
      intro h0
      rw [h0, procurarEntrada, if_pos rfl] at hf
      exact (Prod.mk.inj (Option.some.inj hf)).2.symm
    rw [hf, Option.bind_some] at h
    generalize hn : fs.sizeAt dir / 16 = num at *
    generalize hu : num / dirPageEntries = u at h
    generalize he : (if u = 0 then num - 1 else (num - 1) % (u * dirPageEntries)) = e at h
    simp only at h
    split at h
    · obtain rfl := Option.some.inj h
      exact .falhou
    rename_i hfound
    have hnum : num ≠ 0 := fun h0 => hfound (by rw [hzero h0]; rfl)
    split at h
    · rename_i hue
      rw [if_pos hue.1] at he
      omega
    rename_i hue
    obtain ⟨⟨fs', data⟩, hl, h⟩ := Option.bind_eq_some_iff.mp h
    have hfs' : fs' = fs := by
      have ht' : (fs.inodeTab dir).type ≠ .fsFile := by
        rw [show (fs.inodeTab dir).type = .fsDir from ht]
        decide
      rw [Fs.lerBloco, if_neg ht'] at hl
      exact (Prod.mk.inj (Option.some.inj hl)).1.symm
    rw [hfs'] at h
    split at h
    · rename_i he0
      obtain rfl := Option.some.inj h
      refine .libertou u ?_
      have hu0 : u ≠ 0 := fun hu0 => hue ⟨hu0, he0⟩
      rw [if_neg hu0, he0] at he
      rw [hn]
      exact eq_of_resto (by omega) hu hu0 he
    · obtain ⟨fs'', hw, rfl⟩ := Option.map_eq_some_iff.mp h
      exact .escreveu (by omega) _ (by rw [hn, hu]; exact hw)

/-! ## Copying and appending -/

/-- The checks of a copy or an append pass on both names, up to the search for the second one. -/
structure AdmiteNomes (fs : Fs) (dirOrigem : ℕ) (nomeOrigem : CString) (dirDestino : ℕ)
    (nomeDestino : CString) (de : ℕ) : Prop where
  lt : dirOrigem < itabSize
  origemOk : ¬badName nomeOrigem
  origem : fs.DirUsado dirOrigem
  achado : fs.encontra dirOrigem nomeOrigem.val = some de
  ficheiro : fs.typeAt de = .fsFile
  destinoOk : ¬badName nomeDestino
  destino : fs.DirUsado dirDestino

/-- The part that `fs_copy` and `fs_append` share: the checks, and then the search for the second
name. -/
theorem nomes_casos {α : Type*} {fs : Fs} {d₁ d₂ : ℕ} {nome₁ nome₂ : CString} {x : α}
    {k : Fs → ℕ → Option ℕ → Option (Fs × α)} {r : Fs × α}
    (h : (if itabSize ≤ d₁ ∨ badName nome₁ then some (fs, x)
      else if !bmapIsSet fs.inodeBmap d₁ then some (fs, x)
      else if (fs.inodeTab d₁).type ≠ .fsDir then some (fs, x)
      else (fsiDirSearch fs d₁ nome₁.val).bind fun (fs, found) =>
        match found with
        | none => some (fs, x)
        | some de =>
            if (fs.inodeTab de).type ≠ .fsFile then some (fs, x)
            else if badName nome₂ then some (fs, x)
            else if !bmapIsSet fs.inodeBmap d₂ then some (fs, x)
            else if (fs.inodeTab d₂).type ≠ .fsDir then some (fs, x)
            else (fsiDirSearch fs d₂ nome₂.val).bind fun (fs, found) => k fs de found) = some r) :
    (r = (fs, x) ∧ ∀ de, ¬AdmiteNomes fs d₁ nome₁ d₂ nome₂ de) ∨
      ∃ de, AdmiteNomes fs d₁ nome₁ d₂ nome₂ de ∧
        k fs de (fs.encontra d₂ nome₂.val) = some r := by
  split at h
  · rename_i hargs
    refine .inl ⟨(Option.some.inj h).symm, fun de ha => ?_⟩
    exact hargs.elim (fun hd => absurd ha.lt (Nat.not_lt.mpr hd)) ha.origemOk
  rename_i hargs
  split at h
  · rename_i hset
    refine .inl ⟨(Option.some.inj h).symm, fun de ha => ?_⟩
    have := ha.origem.1
    rw [alocado] at this
    rw [this] at hset
    cases hset
  rename_i hset
  split at h
  · rename_i hdir
    exact .inl ⟨(Option.some.inj h).symm, fun de ha => hdir ha.origem.2⟩
  rename_i hdir
  have hd : fs.DirUsado d₁ := ⟨by simpa [alocado] using hset, not_not.mp hdir⟩
  rw [hd.fsiDirSearch_eq, Option.bind_some] at h
  simp only at h
  split at h
  · rename_i hnone
    refine .inl ⟨(Option.some.inj h).symm, fun de ha => ?_⟩
    have := ha.achado
    rw [hnone] at this
    cases this
  rename_i de hfound
  have hde : ∀ de', AdmiteNomes fs d₁ nome₁ d₂ nome₂ de' → de' = de := fun de' ha =>
    Option.some.inj (ha.achado.symm.trans hfound)
  split at h
  · rename_i hfile
    refine .inl ⟨(Option.some.inj h).symm, fun de' ha => hfile ?_⟩
    rw [← hde de' ha]
    exact ha.ficheiro
  rename_i hfile
  split at h
  · rename_i hname
    exact .inl ⟨(Option.some.inj h).symm, fun de' ha => ha.destinoOk hname⟩
  rename_i hname
  split at h
  · rename_i hset₂
    refine .inl ⟨(Option.some.inj h).symm, fun de ha => ?_⟩
    have := ha.destino.1
    rw [alocado] at this
    rw [this] at hset₂
    cases hset₂
  rename_i hset₂
  split at h
  · rename_i hdir₂
    exact .inl ⟨(Option.some.inj h).symm, fun de ha => hdir₂ ha.destino.2⟩
  rename_i hdir₂
  have hd₂ : fs.DirUsado d₂ := ⟨by simpa [alocado] using hset₂, not_not.mp hdir₂⟩
  rw [hd₂.fsiDirSearch_eq, Option.bind_some] at h
  exact .inr ⟨de, ⟨by omega, fun hb => hargs (.inr hb), hd, hfound, not_not.mp hfile, hname,
    hd₂⟩, h⟩

/-- What `fs_copy` does after both lookups. -/
def copiarAchado (fs : Fs) (de d₂ : ℕ) (nome₂ : CString) : Option ℕ → Option (Fs × ℤ)
  | some para => some (fsCopyInodes fs de para)
  | none => (fsCreate fs d₂ nome₂).bind fun (fs, created) =>
      match created with
      | none => some (fs, -1)
      | some _ => (fsiDirSearch fs d₂ nome₂.val).bind fun (fs, found) =>
          match found with
          | none => some (fs, -1)
          | some para => some (fsCopyInodes fs de para)

/-- A copy is refused, overwrites the i-node that the second name gives, or creates it first. -/
theorem fsCopy_casos {fs : Fs} {d₁ d₂ : ℕ} {nome₁ nome₂ : CString} {r : Fs × ℤ}
    (h : fsCopy fs d₁ nome₁ d₂ nome₂ = some r) :
    (r = (fs, -1) ∧ ∀ de, ¬AdmiteNomes fs d₁ nome₁ d₂ nome₂ de) ∨
      ∃ de, AdmiteNomes fs d₁ nome₁ d₂ nome₂ de ∧
        ((∃ para, fs.encontra d₂ nome₂.val = some para ∧ r = fsCopyInodes fs de para) ∨
          fs.encontra d₂ nome₂.val = none ∧
            ((fsCreate fs d₂ nome₂ = some (fs, none) ∧ r = (fs, -1)) ∨
              ∃ fs₁ n, fsCreate fs d₂ nome₂ = some (fs₁, some n) ∧ fs₁.DirUsado d₂ ∧
                ((fs₁.encontra d₂ nome₂.val = none ∧ r = (fs₁, -1)) ∨
                  ∃ para, fs₁.encontra d₂ nome₂.val = some para ∧
                    r = fsCopyInodes fs₁ de para))) := by
  rw [fsCopy] at h
  rcases nomes_casos (k := fun fs de found => copiarAchado fs de d₂ nome₂ found) h with
    hr | ⟨de, ha, h⟩
  · exact .inl hr
  refine .inr ⟨de, ha, ?_⟩
  cases hpara : fs.encontra d₂ nome₂.val with
  | some para =>
      rw [hpara, copiarAchado] at h
      exact .inl ⟨para, rfl, (Option.some.inj h).symm⟩
  | none =>
      rw [hpara, copiarAchado] at h
      refine .inr ⟨rfl, ?_⟩
      obtain ⟨⟨fs₁, created⟩, hcre, h⟩ := Option.bind_eq_some_iff.mp h
      rcases fsCriar_casos hcre with ⟨hc, -⟩ | ⟨finode, fs₀, hadm, hv, hc⟩
      · obtain ⟨rfl, rfl⟩ := Prod.mk.inj hc
        exact .inl ⟨hcre, (Option.some.inj h).symm⟩
      · obtain ⟨rfl, rfl⟩ := Prod.mk.inj hc
        have hd := hadm.usado_depois .fsFile hv
        simp only at h
        rw [hd.fsiDirSearch_eq, Option.bind_some] at h
        refine .inr ⟨_, finode, hcre, hd, ?_⟩
        cases hpara₁ : (fsiStoreFsdata (comNovo .fsFile fs₀ d₂ finode nome₂.val)).encontra d₂
            nome₂.val with
        | none =>
            rw [hpara₁] at h
            exact .inl ⟨rfl, (Option.some.inj h).symm⟩
        | some para =>
            rw [hpara₁] at h
            exact .inr ⟨para, rfl, (Option.some.inj h).symm⟩

/-- An append is refused, or gives the first file the blocks of the second i-node. -/
theorem fsAppend_casos {fs : Fs} {d₁ d₂ : ℕ} {nome₁ nome₂ : CString} {r : Fs × Option ℕ}
    (h : fsAppend fs d₁ nome₁ d₂ nome₂ = some r) :
    r = (fs, none) ∨ ∃ de para, AdmiteNomes fs d₁ nome₁ d₂ nome₂ de ∧
      fs.encontra d₂ nome₂.val = some para ∧
      ¬inodeNumBlks - offsetToBlocks (fs.sizeAt de) < offsetToBlocks (fs.sizeAt para) ∧
      r = ((copiarReferencias fs para de (offsetToBlocks (fs.sizeAt de))
        (offsetToBlocks (fs.sizeAt para))).setSize de (fs.sizeAt de + fs.sizeAt para),
          some (fs.sizeAt de + fs.sizeAt para)) := by
  rw [fsAppend] at h
  rcases nomes_casos (k := fun fs de found => match found with
      | none => some (fs, none)
      | some para =>
          if (fs.inodeTab de).type ≠ .fsFile then some (fs, none)
          else
            let size := (fs.inodeTab de).size
            let size2 := (fs.inodeTab para).size
            let num := offsetToBlocks size
            let num2 := offsetToBlocks size2
            if inodeNumBlks - num < num2 then some (fs, none)
            else
              let fs := copiarReferencias fs para de num num2
              some (fs.setSize de (size + size2), some (size + size2))) h with
    ⟨hr, -⟩ | ⟨de, ha, h⟩
  · exact .inl hr
  cases hpara : fs.encontra d₂ nome₂.val with
  | none =>
      rw [hpara] at h
      exact .inl (Option.some.inj h).symm
  | some para =>
      rw [hpara] at h
      simp only at h
      split at h
      · exact .inl (Option.some.inj h).symm
      split at h
      · exact .inl (Option.some.inj h).symm
      · rename_i hfits
        exact .inr ⟨de, para, ha, rfl, hfits, (Option.some.inj h).symm⟩

end ThreadScheduler.SnfsServer
