import ThreadScheduler.SnfsServer.AppendData
import ThreadScheduler.SnfsServer.CreateRemove
import ThreadScheduler.SnfsServer.TableWords

/-!
# The tables on disk

A creation, a write and a removal end by storing the tables, and so does every block that a
defragmentation moves. `fs_copy` and `fs_append` store nothing: the disk holds the tables after
them only where they leave every table as it was.
-/
namespace ThreadScheduler.SnfsServer

/-! ## Loading what was stored -/

theorem byteAt_inodeTabBlock (tab : ℕ → FsInode) (j : ℕ) {k w t : ℕ} (hk : k < 8) (hw : w < 16)
    (ht : t < 4) : byteAt (inodeTabBlock tab j) (64 * k + 4 * w + t) =
      BitVec.ofNat 8 ((tab (8 * j + k)).word w / 256 ^ t) := by
  have hlt : 64 * k + 4 * w + t < blockSize := by
    simp only [blockSize]
    omega
  have h₁ : (64 * k + 4 * w + t) / 64 = k := by omega
  have h₂ : (64 * k + 4 * w + t) % 64 / 4 = w := by omega
  have h₃ : (64 * k + 4 * w + t) % 4 = t := by omega
  rw [byteAt, dif_pos hlt, inodeTabBlock]
  dsimp only
  rw [h₁, h₂, h₃]

theorem wordAt_inodeTabBlock {tab : ℕ → FsInode} {j k w : ℕ} (hk : k < 8) (hw : w < 16)
    (h : (tab (8 * j + k)).word w < 2 ^ 32) :
    wordAt (inodeTabBlock tab j) (64 * k + 4 * w) = (tab (8 * j + k)).word w := by
  have hbyte := fun t ht => congrArg BitVec.toNat (byteAt_inodeTabBlock tab j hk hw (t := t) ht)
  have h₀ := hbyte 0 (by decide)
  have h₁ := hbyte 1 (by decide)
  have h₂ := hbyte 2 (by decide)
  have h₃ := hbyte 3 (by decide)
  rw [BitVec.toNat_ofNat] at h₀ h₁ h₂ h₃
  rw [wordAt, h₁, h₂, h₃, ← Nat.add_zero (64 * k + 4 * w), h₀]
  generalize (tab (8 * j + k)).word w = v at *
  omega

namespace Fs

theorem EmPalavras.word_lt {n : ℕ} {fs : Fs} (h : fs.EmPalavras n) {i : ℕ} (hi : i < itabSize)
    (w : ℕ) : (fs.inodeTab i).word w < 2 ^ 32 := by
  rw [FsInode.word]
  split
  · cases (fs.inodeTab i).type <;> decide
  split
  · exact h.medido.sizeAt_lt hi
  split
  · exact h.cabido.slot_lt (i, w - 2)
  · exact Nat.two_pow_pos 32

/-- `fsi_load_fsdata` reads the tables that are in memory. -/
structure Recuperaveis (fs : Fs) : Prop where
  blkBmap : (fsiLoadFsdata fs).blkBmap = fs.blkBmap
  inodeBmap : (fsiLoadFsdata fs).inodeBmap = fs.inodeBmap
  type : ∀ i < itabSize, (fsiLoadFsdata fs).typeAt i = fs.typeAt i
  size : ∀ i < itabSize, (fsiLoadFsdata fs).sizeAt i = fs.sizeAt i
  slot : ∀ i < itabSize, ∀ q < inodeNumBlks, (fsiLoadFsdata fs).slot (i, q) = fs.slot (i, q)

theorem TabelasGravadas.recuperaveis {n : ℕ} {fs : Fs} (h : fs.TabelasGravadas)
    (hp : fs.EmPalavras n) : fs.Recuperaveis := by
  have htab : ∀ i < itabSize, (fsiLoadFsdata fs).inodeTab i =
      inodeAt (inodeTabBlock fs.inodeTab (i / 8)) (64 * (i % 8)) := by
    intro i hi
    rw [fsiLoadFsdata, ← h.inodeTab (i / 8) (by simp only [itabSize] at hi; omega), add_comm]
  have hword : ∀ i < itabSize, ∀ w < 16,
      wordAt (inodeTabBlock fs.inodeTab (i / 8)) (64 * (i % 8) + 4 * w) =
        (fs.inodeTab i).word w := by
    intro i hi w hw
    have hk : i % 8 < 8 := Nat.mod_lt i (by decide)
    have he : 8 * (i / 8) + i % 8 = i := Nat.div_add_mod i 8
    rw [wordAt_inodeTabBlock hk hw (by rw [he]; exact hp.word_lt hi w), he]
  refine ⟨h.blkBmap, h.inodeBmap, fun i hi => ?_, fun i hi => ?_, fun i hi q hq => ?_⟩
  · rw [typeAt, typeAt, htab i hi, inodeAt]
    have := hword i hi 0 (by decide)
    dsimp only
    rw [Nat.mul_zero, Nat.add_zero] at this
    rw [this, FsInode.word, if_pos rfl]
    cases (fs.inodeTab i).type <;> rfl
  · rw [sizeAt, sizeAt, htab i hi, inodeAt]
    exact hword i hi 1 (by decide)
  · have hw : q + 2 < 16 := by simp only [inodeNumBlks] at hq; omega
    have := hword i hi (q + 2) hw
    rw [slot, slot, htab i hi, inodeAt]
    dsimp only
    rw [if_pos hq, show 64 * (i % 8) + 8 + 4 * q = 64 * (i % 8) + 4 * (q + 2) by omega, this,
      FsInode.word, if_neg (by omega), if_neg (by omega), if_pos (by omega), Nat.add_sub_cancel]

/-! ## Calls that store -/

variable {n : ℕ} {fs fs' : Fs}

theorem Cabido.store_gravadas (h : (fsiStoreFsdata fs).Cabido n) (hn : 10 ≤ n) :
    (fsiStoreFsdata fs).TabelasGravadas := by
  have hblocks := h.numBlocks
  rw [store_numBlocks] at hblocks
  exact store_tabelas (hblocks ▸ hn)

theorem EmPalavras.fsCriar_gravadas (h : fs.EmPalavras n) (hn : 10 ≤ n) {tipo : FsItype} {dir m : ℕ}
    {file : CString} (hc : SnfsServer.fsCriar tipo fs dir file = some (fs', some m)) :
    fs'.TabelasGravadas := by
  have h' := (h.fsCriar hc).cabido
  rcases fsCriar_casos hc with ⟨hr, -⟩ | ⟨finode, fs₁, -, -, hr⟩
  · cases (Prod.mk.inj hr).2
  · obtain ⟨rfl, -⟩ := Prod.mk.inj hr
    exact h'.store_gravadas hn

theorem EmPalavras.fsWrite_gravadas (h : fs.EmPalavras n) (hn : 10 ≤ n) {file offset count : ℕ}
    {buffer : ℕ → Byte} {lixo : Block}
    (hw : SnfsServer.fsWrite fs file offset count buffer lixo = some (fs', 0)) :
    fs'.TabelasGravadas := by
  have h' := (h.fsWrite hw).cabido
  rcases fsWrite_casos hw with ⟨hr, -⟩ | ⟨-, ⟨hr, -⟩ | ⟨-, fs₃, -, hr⟩⟩
  · cases (Prod.mk.inj hr).2
  · cases (Prod.mk.inj hr).2
  · obtain ⟨rfl, -⟩ := Prod.mk.inj hr
    exact h'.store_gravadas hn

theorem EmPalavras.fsRemove_gravadas (h : fs.EmPalavras n) (hn : 10 ≤ n) {dir m : ℕ}
    {nome : CString} (hr : SnfsServer.fsRemove fs dir nome = some (fs', some m)) :
    fs'.TabelasGravadas := by
  have h' := (h.fsRemove hr).cabido
  rcases fsRemove_casos hr with ⟨hr, -⟩ | ⟨idFile, -, ⟨hr, -⟩ | ⟨-, fs₂, ok, -, hr⟩⟩
  · cases (Prod.mk.inj hr).2
  · cases (Prod.mk.inj hr).2
  · cases ok with
    | false => cases (Prod.mk.inj hr).2
    | true =>
        obtain ⟨rfl, -⟩ := Prod.mk.inj hr
        exact h'.store_gravadas hn

/-! ## Copies and appends that change nothing -/

/-- The tables and the cache are as before; only counters may differ. -/
structure Intacto (fs fs' : Fs) : Prop where
  cache : fs'.cache = fs.cache
  inodeTab : fs'.inodeTab = fs.inodeTab
  blkBmap : fs'.blkBmap = fs.blkBmap
  inodeBmap : fs'.inodeBmap = fs.inodeBmap

theorem Intacto.trans {fs'' : Fs} (h : Intacto fs fs') (h' : Intacto fs' fs'') :
    Intacto fs fs'' :=
  ⟨h'.cache.trans h.cache, h'.inodeTab.trans h.inodeTab, h'.blkBmap.trans h.blkBmap,
    h'.inodeBmap.trans h.inodeBmap⟩

theorem Intacto.gravadas (h : Intacto fs fs') (hg : fs.TabelasGravadas) : fs'.TabelasGravadas := by
  have hread : ∀ b, fs'.readDisk b = fs.readDisk b := fun b => by rw [readDisk, readDisk, h.cache]
  refine ⟨?_, ?_, fun j hj => ?_⟩
  · rw [hread, h.blkBmap, hg.blkBmap]
  · rw [hread, h.inodeBmap, hg.inodeBmap]
  · rw [hread, h.inodeTab, hg.inodeTab j hj]

theorem setSize_intacto (fs : Fs) {i s : ℕ} (hs : fs.sizeAt i = s) : Intacto fs (fs.setSize i s) :=
  ⟨rfl, hs ▸ Function.update_eq_self i fs.inodeTab, rfl, rfl⟩

theorem setBlock_intacto (fs : Fs) {i q b : ℕ} (hb : fs.slot (i, q) = b) :
    Intacto fs (fs.setBlock i q b) := by
  refine ⟨rfl, ?_, rfl, rfl⟩
  have hrow : Function.update (fs.inodeTab i).blocks q b = (fs.inodeTab i).blocks :=
    hb ▸ Function.update_eq_self q (fs.inodeTab i).blocks
  rw [Fs.setBlock, hrow]
  exact Function.update_eq_self i fs.inodeTab

/-- A copy of the i-node `de` to `para` that leaves the tables as they are: the slots are the same,
and each of their blocks has references besides these. -/
structure CopiaNula (fs : Fs) (de para : ℕ) : Prop where
  size : fs.sizeAt para = fs.sizeAt de
  slot : ∀ q < offsetToBlocks (fs.sizeAt de), fs.slot (para, q) = fs.slot (de, q)
  referida : ∀ q < offsetToBlocks (fs.sizeAt de),
    fs.vezes para (offsetToBlocks (fs.sizeAt de)) (fs.slot (para, q)) <
      fs.referencias (fs.slot (para, q))

/-- No block loses its last reference, so none is freed. -/
theorem libertarDestino_intacto {i m : ℕ} (hchar : ∀ b, fs.referencias b ≤ 127)
    (href : ∀ q < m, fs.vezes i m (fs.slot (i, q)) < fs.referencias (fs.slot (i, q))) {k : ℕ}
    (hk : k ≤ m) : Intacto fs (libertarDestino fs i k) ∧
      ∀ b, (libertarDestino fs i k).referencias b = fs.referencias b - fs.vezes i k b := by
  induction k with
  | zero => exact ⟨⟨rfl, rfl, rfl, rfl⟩, fun b => by simp [libertarDestino, vezes]⟩
  | succ k ih =>
      obtain ⟨hint, hrefs⟩ := ih (by omega)
      have hstep : libertarDestino fs i (k + 1) =
          SnfsServer.apagarBloco (libertarDestino fs i k) (fs.slot (i, k)) i := by
        rw [← slot_congr hint.inodeTab, libertarDestino, List.range_succ, List.foldl_append]
        rfl
      have hmono : fs.vezes i (k + 1) (fs.slot (i, k)) ≤ fs.vezes i m (fs.slot (i, k)) :=
        Finset.card_le_card (Finset.filter_subset_filter _ (Finset.range_subset_range.mpr hk))
      have hlt := href k (by omega)
      have hle := hchar (fs.slot (i, k))
      rw [vezes_succ, if_pos rfl] at hmono
      have hbig : 1 < (libertarDestino fs i k).referencias (fs.slot (i, k)) := by
        rw [hrefs]
        omega
      have happ : SnfsServer.apagarBloco (libertarDestino fs i k) (fs.slot (i, k)) i =
          (libertarDestino fs i k).setRef (fs.slot (i, k))
            ((libertarDestino fs i k).referencias (fs.slot (i, k)) - 1) := by
        rw [SnfsServer.apagarBloco]
        exact if_pos hbig
      rw [hstep, happ]
      refine ⟨hint.trans ⟨rfl, rfl, rfl, rfl⟩, fun b => ?_⟩
      rw [setRef_referencias _ (by omega) (by rw [hrefs]; omega), hrefs, hrefs, vezes_succ]
      by_cases hb : b = fs.slot (i, k)
      · subst hb
        rw [if_pos rfl, if_pos rfl]
        push_cast
        ring
      · rw [if_neg hb, if_neg (Ne.symm hb), Nat.add_zero]

theorem copiarReferencias_intacto {de para base m : ℕ}
    (hs : ∀ q < m, fs.slot (para, base + q) = fs.slot (de, q)) :
    Intacto fs (copiarReferencias fs de para base m) := by
  induction m with
  | zero => exact ⟨rfl, rfl, rfl, rfl⟩
  | succ m ih =>
      have hint := ih fun q hq => hs q (by omega)
      have hslot := slot_congr hint.inodeTab
      rw [copiarReferencias, List.range_succ, List.foldl_append]
      refine hint.trans (Intacto.trans (setBlock_intacto _ ?_) ⟨rfl, rfl, rfl, rfl⟩)
      exact (congrFun hslot (para, base + m)).trans
        ((hs m (by omega)).trans (congrFun hslot (de, m)).symm)

theorem CopiaNula.intacto {de para : ℕ} (h : fs.CopiaNula de para)
    (hchar : ∀ b, fs.referencias b ≤ 127) : Intacto fs (fsCopyInodes fs de para).1 := by
  rw [fsCopyInodes]
  split
  · exact ⟨rfl, rfl, rfl, rfl⟩
  · have hsize : (fs.inodeTab para).size = fs.sizeAt de := h.size
    obtain ⟨hlib, -⟩ := libertarDestino_intacto hchar h.referida le_rfl
    rw [hsize]
    generalize libertarDestino fs para (offsetToBlocks (fs.sizeAt de)) = fs₁ at hlib ⊢
    have hslot := slot_congr hlib.inodeTab
    have hde : (fs₁.inodeTab de).size = fs.sizeAt de := congrFun (sizeAt_congr hlib.inodeTab) de
    dsimp only
    rw [hde]
    have hcop : Intacto fs₁ (copiarReferencias fs₁ de para 0 (offsetToBlocks (fs.sizeAt de))) := by
      refine copiarReferencias_intacto fun q hq => ?_
      rw [Nat.zero_add, hslot]
      exact h.slot q hq
    refine (hlib.trans hcop).trans (setSize_intacto _ ?_)
    rw [sizeAt_congr hcop.inodeTab, sizeAt_congr hlib.inodeTab, h.size]

/-! ## Defragmentations -/

theorem Cabido.mexeBlocoPara_gravadas (h : fs.Cabido n) (hn : 10 ≤ n) (bl : ℕ) {dest : ℕ}
    (hd : dest < 2 ^ 32) : (SnfsServer.mexeBlocoPara fs bl dest).TabelasGravadas := by
  have h' := h.mexeBlocoPara bl hd
  unfold SnfsServer.mexeBlocoPara at h' ⊢
  exact h'.store_gravadas hn

/-- The tables stay stored, as every block that moves stores them. -/
theorem defragSlot_gravadas {r : Fs × ℕ} (h : r.1.Cabido n) (hn : 10 ≤ n)
    (hg : r.1.TabelasGravadas) (z q : ℕ) : (defragSlot z q r).1.TabelasGravadas := by
  obtain ⟨fs, pos⟩ := r
  have hbl : (fs.inodeTab z).blocks q < 2 ^ 32 := h.slot_lt (z, q)
  rw [defragSlot]
  split
  · exact hg
  split
  · rename_i hlt
    exact Cabido.mexeBlocoPara_gravadas h hn _ (hlt.trans hbl)
  · exact hg

theorem defragFoldl_gravadas (ps : List (ℕ × ℕ)) {r : Fs × ℕ} (h : r.1.Cabido n) (hn : 10 ≤ n)
    (hg : r.1.TabelasGravadas ∨ ¬r.1.Parado ps r.2) :
    (ps.foldl (fun r p => defragSlot p.1 p.2 r) r).1.TabelasGravadas := by
  induction ps generalizing r with
  | nil => exact hg.resolve_right fun hp => hp trivial
  | cons p ps ih =>
      rw [List.foldl_cons]
      refine ih (h.defragSlot p.1 p.2) ?_
      rcases hg with hg | hp
      · exact .inl (defragSlot_gravadas h hn hg p.1 p.2)
      obtain ⟨fs, pos⟩ := r
      by_cases hle : fs.slot p ≤ pos
      · rw [defragSlot_parado hle]
        exact .inr fun hps => hp ⟨hle, hps⟩
      · -- the block of the slot moves
        left
        have hlt : pos < fs.slot p := Nat.not_le.mp hle
        rw [defragSlot_mexe hlt]
        exact Cabido.mexeBlocoPara_gravadas h hn _ (hlt.trans (h.slot_lt p))

theorem Cabido.fsDefrag_gravadas (h : fs.Cabido n) (hn : 10 ≤ n) (ht : fs.TemBlocos)
    (hg : fs.Parado percurso 10 → fs.TabelasGravadas) :
    (SnfsServer.fsDefrag fs).1.TabelasGravadas := by
  rw [SnfsServer.fsDefrag, if_pos (temBlocos_iff.mp ht), defragPass_eq]
  generalize percurso = ps at hg ⊢
  refine defragFoldl_gravadas ps h hn (or_iff_not_imp_right.mpr fun hp => ?_)
  exact hg (not_not.mp hp)

end Fs

open Fs

/-! ## The calls -/

namespace FsOp

/-- A call that answers that it has changed the tables. -/
def Feita : FsOp → Resposta → Prop
  | create _ _, .inode r => r.isSome
  | mkdir _ _, .inode r => r.isSome
  | write _ _ _ _ _, .estado r => r = 0
  | copy _ _ _ _, .copia r _ _ => r = 0
  | remove _ _, .inode r => r.isSome
  | append _ _ _ _, .inode r => r.isSome
  | defrag, .estado r => r = 1
  | _, _ => False

/-- A copy finds or creates a destination that it leaves as it is, an append adds nothing, and a
defragmentation moves a block. Without a store by the call itself, the disk holds the tables
already. -/
def Grava (fs : Fs) : FsOp → Prop
  | copy d₁ nome₁ d₂ nome₂ => ∀ de, AdmiteNomes fs d₁ nome₁ d₂ nome₂ de →
      (∀ para, fs.encontra d₂ nome₂.val = some para → fs.typeAt para = .fsFile →
        fs.TabelasGravadas ∧ fs.CopiaNula de para) ∧
      ∀ fs₁ n para, fs.encontra d₂ nome₂.val = none → fsCreate fs d₂ nome₂ = some (fs₁, some n) →
        fs₁.encontra d₂ nome₂.val = some para → fs₁.typeAt para = .fsFile → fs₁.CopiaNula de para
  | append d₁ nome₁ d₂ nome₂ => ∀ de para, AdmiteNomes fs d₁ nome₁ d₂ nome₂ de →
      fs.encontra d₂ nome₂.val = some para →
      offsetToBlocks (fs.sizeAt para) ≤ inodeNumBlks - offsetToBlocks (fs.sizeAt de) →
      fs.TabelasGravadas ∧ fs.sizeAt para = 0
  | defrag => fs.TemBlocos → fs.Parado percurso 10 → fs.TabelasGravadas
  | _ => True

variable {n : ℕ} {fs fs' : Fs}

/-- The end of a copy that succeeds: the destination is a file. -/
theorem fsCopyInodes_ficheiro {de para : ℕ} (h : (fsCopyInodes fs de para).2 = 0) :
    fs.typeAt para = .fsFile := by
  rw [fsCopyInodes] at h
  split at h
  · cases h
  · rename_i hf
    exact not_not.mp hf

theorem fsCopy_gravadas (h : fs.EmPalavras n) (hn : 10 ≤ n) {d₁ d₂ : ℕ} {nome₁ nome₂ : CString}
    (hg : Grava fs (copy d₁ nome₁ d₂ nome₂))
    (hc : fsCopy fs d₁ nome₁ d₂ nome₂ = some (fs', 0)) : fs'.TabelasGravadas := by
  rcases fsCopy_casos hc with ⟨hr, -⟩ | ⟨de, ha, ⟨para, hpara, hr⟩ | ⟨hnone, ⟨-, hr⟩ | hcriou⟩⟩
  · cases (Prod.mk.inj hr).2
  · obtain ⟨rfl, h0⟩ := Prod.mk.inj hr
    obtain ⟨hgrav, hnula⟩ := (hg de ha).1 para hpara (fsCopyInodes_ficheiro h0.symm)
    exact (hnula.intacto h.cabido.referencias_le).gravadas hgrav
  · cases (Prod.mk.inj hr).2
  · obtain ⟨fs₁, m, hcre, -, ⟨-, hr⟩ | ⟨para, hpara, hr⟩⟩ := hcriou
    · cases (Prod.mk.inj hr).2
    · obtain ⟨rfl, h0⟩ := Prod.mk.inj hr
      have hnula := (hg de ha).2 fs₁ m para hnone hcre hpara (fsCopyInodes_ficheiro h0.symm)
      exact (hnula.intacto (h.fsCriar hcre).cabido.referencias_le).gravadas
        (h.fsCriar_gravadas hn hcre)

theorem fsAppend_gravadas {d₁ d₂ : ℕ} {nome₁ nome₂ : CString} {m : ℕ}
    (hg : Grava fs (append d₁ nome₁ d₂ nome₂))
    (happ : fsAppend fs d₁ nome₁ d₂ nome₂ = some (fs', some m)) : fs'.TabelasGravadas := by
  rcases fsAppend_casos happ with hr | ⟨de, para, ha, hpara, hfits, hr⟩
  · cases (Prod.mk.inj hr).2
  · obtain ⟨rfl, -⟩ := Prod.mk.inj hr
    obtain ⟨hgrav, hzero⟩ := hg de para ha hpara (Nat.not_lt.mp hfits)
    rw [hzero]
    exact (setSize_intacto fs rfl).gravadas hgrav

/-- After a call that is made as it should, the disk holds the tables. -/
theorem exec_gravadas (h : fs.EmPalavras n) (hn : 10 ≤ n) {op : FsOp} (hg : Grava fs op)
    {r : Resposta} (he : op.exec fs = some (fs', r)) (hr : op.Feita r) : fs'.TabelasGravadas := by
  cases op with
  | create dir file =>
      obtain ⟨⟨fs₁, m⟩, hc, hx⟩ := Option.map_eq_some_iff.mp he
      obtain ⟨rfl, rfl⟩ := Prod.mk.inj hx
      obtain ⟨m, rfl⟩ := Option.isSome_iff_exists.mp hr
      exact h.fsCriar_gravadas hn hc
  | mkdir dir newdir =>
      obtain ⟨⟨fs₁, m⟩, hc, hx⟩ := Option.map_eq_some_iff.mp he
      obtain ⟨rfl, rfl⟩ := Prod.mk.inj hx
      obtain ⟨m, rfl⟩ := Option.isSome_iff_exists.mp hr
      exact h.fsCriar_gravadas hn hc
  | write file offset count buffer lixo =>
      obtain ⟨⟨fs₁, m⟩, hw, hx⟩ := Option.map_eq_some_iff.mp he
      obtain ⟨rfl, rfl⟩ := Prod.mk.inj hx
      obtain rfl : m = 0 := hr
      exact h.fsWrite_gravadas hn hw
  | copy d₁ nome₁ d₂ nome₂ =>
      obtain ⟨⟨fs₁, m⟩, hc, hx⟩ := Option.map_eq_some_iff.mp he
      obtain ⟨rfl, rfl⟩ := Prod.mk.inj hx
      obtain rfl : m = 0 := hr
      exact fsCopy_gravadas h hn hg hc
  | remove dir nome =>
      obtain ⟨⟨fs₁, m⟩, hrem, hx⟩ := Option.map_eq_some_iff.mp he
      obtain ⟨rfl, rfl⟩ := Prod.mk.inj hx
      obtain ⟨m, rfl⟩ := Option.isSome_iff_exists.mp hr
      exact h.fsRemove_gravadas hn hrem
  | append d₁ nome₁ d₂ nome₂ =>
      obtain ⟨⟨fs₁, m⟩, ha, hx⟩ := Option.map_eq_some_iff.mp he
      obtain ⟨rfl, rfl⟩ := Prod.mk.inj hx
      obtain ⟨m, rfl⟩ := Option.isSome_iff_exists.mp hr
      exact fsAppend_gravadas hg ha
  | defrag =>
      obtain ⟨rfl, rfl⟩ := Prod.mk.inj (Option.some.inj he)
      have ht : fs.TemBlocos := by
        by_contra ht
        rw [fsDefrag_of_not ht] at hr
        cases hr
      exact h.cabido.fsDefrag_gravadas hn ht (hg ht)
  | read file offset count =>
      obtain ⟨⟨fs₁, m⟩, -, hx⟩ := Option.map_eq_some_iff.mp he
      obtain ⟨rfl, rfl⟩ := Prod.mk.inj hx
      exact hr.elim
  | actualizar intervaloTempo =>
      obtain ⟨rfl, rfl⟩ := Prod.mk.inj (Option.some.inj he)
      exact hr.elim

end FsOp

/-- In the runs whose copies and appends change nothing, the disk holds the tables after every call
that succeeds, and a server that starts on this disk loads them. -/
theorem tabelas_no_disco {numBlocks : ℕ} (h10 : 10 ≤ numBlocks) (h32 : numBlocks ≤ 2 ^ 32)
    (pilha : ℕ → ℤ) (ops : List FsOp) (op : FsOp) (fs fs' : Fs) (rs : List Resposta) (r : Resposta)
    (hP : Runs.Permitted FsOp.exec FsOp.Grava (fsFormat (fsNew numBlocks pilha)) (ops ++ [op]))
    (hrun : Runs.run FsOp.exec (fsFormat (fsNew numBlocks pilha)) ops = some (fs, rs))
    (hexec : op.exec fs = some (fs', r)) (hr : op.Feita r) :
    fs'.TabelasGravadas ∧ fs'.Recuperaveis := by
  have h := emPalavras_of_run h32 pilha hrun
  have hg := ((Runs.permitted_of_append hP).2 fs rs hrun).1
  have hgrav := FsOp.exec_gravadas h h10 hg hexec hr
  exact ⟨hgrav, hgrav.recuperaveis (h.exec hexec)⟩

/-- Two files, and a byte for the first. -/
theorem tabelas_no_disco_escrita :
    ∃ fs fs' rs r, Runs.run FsOp.exec (fsFormat (fsNew discoServidor fun _ => 7))
        [.create 1 nomeA, .create 1 nomeB] = some (fs, rs) ∧
      FsOp.exec fs (.write 2 0 1 (fun _ => 1) nullBlock) = some (fs', r) ∧
      fs'.TabelasGravadas ∧ fs'.Recuperaveis := by
  obtain ⟨fs, hrun, hd⟩ := dois_ficheiros fun _ => 7
  obtain ⟨fs', hw, -, -⟩ := Fs.fsWrite_vazio hd.exacto.consistent hd.ficheiro.1
    (hd.vazio 2 (by decide)) Nat.zero_lt_one (by decide) (fun _ => 1) nullBlock
  have hexec : FsOp.exec fs (.write 2 0 1 (fun _ => 1) nullBlock) = some (fs', .estado 0) := by
    rw [FsOp.exec, hw, Option.map_some]
  exact ⟨fs, fs', _, _, hrun, hexec, tabelas_no_disco (by decide) (by decide) _ _ _ fs fs' _ _
    (Runs.permitted_of_forall (by simp [FsOp.Grava])) hrun hexec rfl⟩

/-- The file of one byte appended to the empty one: the disk still has it empty. -/
theorem tabelas_fora_do_disco :
    ∃ fs fs' rs r, Runs.run FsOp.exec (fsFormat (fsNew discoServidor fun _ => 7))
        [.create 1 nomeA, .create 1 nomeB, .write 2 0 1 (fun _ => 1) nullBlock] = some (fs, rs) ∧
      FsOp.exec fs (.append 1 nomeB 1 nomeA) = some (fs', r) ∧
      FsOp.Feita (.append 1 nomeB 1 nomeA) r ∧ ¬fs'.TabelasGravadas ∧ ¬fs'.Recuperaveis := by
  obtain ⟨fs₀, hrun₀, -⟩ := dois_ficheiros fun _ => 7
  obtain ⟨fs, hrun, hd⟩ := ficheiro_escrito fun _ => 7
  -- the write has stored the tables
  have hemp₀ := emPalavras_of_run (by decide) _ hrun₀
  have hemp := emPalavras_of_run (by decide) _ hrun
  have hgrav : fs.TabelasGravadas := by
    obtain ⟨fs₁, os₁, os₂, h₁, h₂, hos⟩ := Runs.run_append_eq_some
      (show Runs.run FsOp.exec _ ([.create 1 nomeA, .create 1 nomeB] ++
        [.write 2 0 1 (fun _ => 1) nullBlock]) = _ from hrun)
    obtain ⟨rfl, rfl⟩ := Prod.mk.inj (Option.some.inj (h₁.symm.trans hrun₀))
    obtain ⟨fs₂, r, os, hw, hnil, rfl⟩ := Runs.run_cons_eq_some h₂
    obtain ⟨rfl, rfl⟩ := Prod.mk.inj (Option.some.inj hnil)
    have hr : r = .estado 0 := by simpa using hos.symm
    subst hr
    have hg : FsOp.Grava fs₁ (.write 2 0 1 (fun _ => 1) nullBlock) := trivial
    exact FsOp.exec_gravadas hemp₀ (by decide) hg hw rfl
  have happ := Fs.fsAppend_of_resolve hd.exacto.consistent hd.nomes.2 hd.ficheiro.2 hd.nomes.1
  rw [hd.tamanho.1, hd.tamanho.2, if_neg (by decide)] at happ
  generalize hfs' : (copiarReferencias fs 2 3 (offsetToBlocks 0) (offsetToBlocks 1)).setSize 3
    (0 + 1) = fs' at happ
  have hexec : FsOp.exec fs (.append 1 nomeB 1 nomeA) = some (fs', .inode (some (0 + 1))) := by
    rw [FsOp.exec, happ, Option.map_some]
  -- the two states have one disk, but the sizes of the second file differ
  have hno : ¬fs'.Recuperaveis := by
    intro hrec
    have hnew := hrec.size 3 (by decide)
    have hold := (hgrav.recuperaveis hemp).size 3 (by decide)
    have hread : (fsiLoadFsdata fs').sizeAt 3 = (fsiLoadFsdata fs).sizeAt 3 := by
      rw [← hfs']
      rfl
    rw [hread, hold, hd.tamanho.2, ← hfs', setSize_sizeAt, if_pos rfl] at hnew
    cases hnew
  exact ⟨fs, fs', _, _, hrun, hexec, rfl, fun hg => hno (hg.recuperaveis (hemp.exec hexec)), hno⟩

end ThreadScheduler.SnfsServer
