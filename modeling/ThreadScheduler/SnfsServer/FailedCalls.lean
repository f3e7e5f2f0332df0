import ThreadScheduler.SnfsServer.KeptInodes
import ThreadScheduler.SnfsServer.RemoveName

/-!
# Failed calls

Which of the calls that answer -1 leave something behind: a write that meets a full disk after its
first blocks, a removal that stops after the first blocks of the file, and a copy that stops after
it has created its destination.
-/
namespace ThreadScheduler.SnfsServer

/-- The answer of a call that has failed. -/
def Resposta.Falhou : Resposta → Prop
  | .estado r => r = -1
  | .inode n => n = none
  | .lido buffer => buffer = none
  | .copia r _ _ => r = -1

/-- The tables, and what `fs_read` and `fs_readdir` show. -/
structure Inalterado (fs fs' : Fs) : Prop where
  blkBmap : fs'.blkBmap = fs.blkBmap
  inodeBmap : fs'.inodeBmap = fs.inodeBmap
  referencias : fs'.referencias = fs.referencias
  inodeTab : fs'.inodeTab = fs.inodeTab
  lido : ∀ file offset count,
    (fsRead fs' file offset count).map Prod.snd = (fsRead fs file offset count).map Prod.snd
  listado : ∀ dir maxentries,
    (fsReaddir fs' dir maxentries).map Prod.snd = (fsReaddir fs dir maxentries).map Prod.snd

theorem Inalterado.refl (fs : Fs) : Inalterado fs fs :=
  ⟨rfl, rfl, rfl, rfl, fun _ _ _ => rfl, fun _ _ => rfl⟩

/-- The blocks of the disk that the bitmap has free. -/
def Fs.livres (fs : Fs) : Finset ℕ :=
  (Finset.range fs.numBlocks).filter fun b => fs.ocupado b = false

/-- The calls that leave something behind when they fail. -/
def FsOp.DeixaRasto (fs : Fs) : FsOp → Prop
  | write file offset count _ _ => AdmiteEscrita fs file offset count ∧ 0 < fs.livres.card ∧
      fs.livres.card < blksReq fs file offset count
  | remove dir nome => ∃ idFile, AdmiteRemocao fs dir nome idFile ∧
      0 < offsetToBlocks (fs.sizeAt idFile) ∧ 10 ≤ fs.slot (idFile, 0)
  | copy d₁ nome₁ d₂ nome₂ => (∃ de, AdmiteNomes fs d₁ nome₁ d₂ nome₂ de) ∧
      ∃ finode fs₁, Admite fs d₂ nome₂ finode ∧ Vaga fs d₂ fs₁
  | _ => False

namespace Fs

theorem mem_livres {fs : Fs} {b : ℕ} :
    b ∈ fs.livres ↔ b < fs.numBlocks ∧ fs.ocupado b = false := by
  rw [livres, Finset.mem_filter, Finset.mem_range]

theorem findFreeBlk_eq_none_iff {fs : Fs} : fs.findFreeBlk = none ↔ fs.livres = ∅ := by
  rw [findFreeBlk, fsiBmapFindFree_eq_none, Finset.eq_empty_iff_forall_notMem]
  refine forall_congr' fun b => ?_
  rw [mem_livres, not_and, Bool.not_eq_false, ocupado]

theorem mem_livres_of_findFreeBlk {fs : Fs} {b : ℕ} (h : fs.findFreeBlk = some b) :
    b ∈ fs.livres := mem_livres.mpr (fsiBmapFindFree_eq_some h)

end Fs

open Fs

/-! ## Writing -/

/-- One turn of the reservation loop. -/
def reservarUm (fs : Fs) (file i blk : ℕ) : Fs :=
  let fs := (fs.setBlock file i blk).setBlk blk
  fs.setRef blk (fs.referencias blk + 1)

theorem reservarBlocos_succ (file n i : ℕ) (fs : Fs) : reservarBlocos file (n + 1) i fs =
    match fs.findFreeBlk with
    | none => (fs, false)
    | some blk => reservarBlocos file n (i + 1) (reservarUm fs file i blk) := rfl

theorem reservarUm_livres {fs : Fs} {file i blk : ℕ} (hb : blk < bmapBits) :
    (reservarUm fs file i blk).livres = fs.livres.erase blk := by
  ext b
  have hocc : (reservarUm fs file i blk).ocupado b = (decide (b = blk) || fs.ocupado b) :=
    setBlk_ocupado (fs.setBlock file i blk) hb b
  have hnum : (reservarUm fs file i blk).numBlocks = fs.numBlocks := rfl
  rw [Finset.mem_erase, mem_livres, mem_livres, hocc, hnum, Bool.or_eq_false_iff,
    decide_eq_false_iff_not]
  tauto

/-- The reservation stops when the disk does not have the blocks. A disk with more blocks than the
bitmap has bits is never found full. -/
theorem reservarBlocos_falha_iff {file : ℕ} (n i : ℕ) (fs : Fs) :
    (reservarBlocos file n i fs).2 = false ↔ fs.numBlocks ≤ bmapBits ∧ fs.livres.card < n := by
  induction n generalizing i fs with
  | zero => exact iff_of_false Bool.noConfusion fun h => absurd h.2 (Nat.not_lt_zero _)
  | succ n ih =>
      rw [reservarBlocos_succ]
      cases hb : fs.findFreeBlk with
      | none =>
          have hempty := findFreeBlk_eq_none_iff.mp hb
          refine iff_of_true rfl ⟨?_, ?_⟩
          · by_contra hlt
            have hmem : bmapBits ∈ fs.livres :=
              mem_livres.mpr ⟨Nat.not_le.mp hlt, bmapIsSet_of_ge _ (Nat.le_refl _)⟩
            rw [hempty] at hmem
            exact Finset.notMem_empty _ hmem
          · rw [hempty, Finset.card_empty]
            exact Nat.succ_pos n
      | some blk =>
          have hmem := mem_livres_of_findFreeBlk hb
          have hnum : (reservarUm fs file i blk).numBlocks = fs.numBlocks := rfl
          simp only
          rw [ih, hnum]
          refine and_congr_right fun hle => ?_
          have hpos := Finset.card_pos.mpr ⟨blk, hmem⟩
          rw [reservarUm_livres ((mem_livres.mp hmem).1.trans_le hle),
            Finset.card_erase_of_mem hmem]
          omega

/-- A block that is marked stays marked. -/
theorem reservarBlocos_ocupado (file : ℕ) {b : ℕ} (n i : ℕ) {fs : Fs} (h : fs.ocupado b = true) :
    (reservarBlocos file n i fs).1.ocupado b = true := by
  induction n generalizing i fs with
  | zero => exact h
  | succ n ih =>
      rw [reservarBlocos_succ]
      split
      · exact h
      · rename_i blk hb
        exact ih _ (bmapIsSet_set_of_set h blk)

/-- A reservation that fails leaves the first block that was free marked. -/
theorem reservarBlocos_blkBmap_ne {file n i : ℕ} {fs : Fs}
    (hf : (reservarBlocos file n i fs).2 = false) (hpos : 0 < fs.livres.card) :
    (reservarBlocos file n i fs).1.blkBmap ≠ fs.blkBmap := by
  have hle := ((reservarBlocos_falha_iff n i fs).mp hf).1
  cases n with
  | zero => cases hf
  | succ n =>
      rw [reservarBlocos_succ] at hf ⊢
      cases hb : fs.findFreeBlk with
      | none =>
          rw [findFreeBlk_eq_none_iff.mp hb] at hpos
          exact absurd hpos (by decide)
      | some blk =>
          have hmem := mem_livres.mp (mem_livres_of_findFreeBlk hb)
          have hset : (reservarUm fs file i blk).ocupado blk = true := by
            refine (setBlk_ocupado (fs.setBlock file i blk) (hmem.1.trans_le hle) blk).trans ?_
            rw [decide_eq_true rfl, Bool.true_or]
          have hset := reservarBlocos_ocupado file n (i + 1) hset
          intro he
          rw [Fs.ocupado, he, ← Fs.ocupado, hmem.2] at hset
          cases hset

theorem reservarBlocos_of_cheio {file n i : ℕ} {fs : Fs} (h : fs.livres.card = 0)
    (hf : (reservarBlocos file n i fs).2 = false) : (reservarBlocos file n i fs).1 = fs := by
  cases n with
  | zero => rfl
  | succ n =>
      rw [reservarBlocos_succ, findFreeBlk_eq_none_iff.mpr (Finset.card_eq_zero.mp h)]

theorem fsWrite_falha {fs : Fs} {file offset count : ℕ} {buffer : ℕ → Byte} {lixo : Block}
    {fs' : Fs} (h : fsWrite fs file offset count buffer lixo = some (fs', -1)) :
    Inalterado fs fs' ↔ ¬(FsOp.write file offset count buffer lixo).DeixaRasto fs := by
  rcases fsWrite_casos h with ⟨hr, hno⟩ | ⟨ha, ⟨hr, hres⟩ | ⟨-, fs₃, -, hr⟩⟩
  · obtain ⟨rfl, -⟩ := Prod.mk.inj hr
    exact iff_of_true (Inalterado.refl _) fun hd => hno hd.1
  · obtain ⟨rfl, -⟩ := Prod.mk.inj hr
    have hlt := ((reservarBlocos_falha_iff _ _ fs).mp hres).2
    rcases Nat.eq_zero_or_pos fs.livres.card with h0 | hpos
    · have he : (reservado fs file offset count).1 = fs := reservarBlocos_of_cheio h0 hres
      rw [he]
      exact iff_of_true (Inalterado.refl _) fun hd => absurd hd.2.1 (by omega)
    · refine iff_of_false (fun hi => ?_) (not_not.mpr ⟨ha, hpos, hlt⟩)
      exact reservarBlocos_blkBmap_ne hres hpos hi.blkBmap
  · exact absurd (Prod.mk.inj hr).2 (by decide)

/-! ## Removing -/

/-- The slots in front of the loop stay as they are. -/
theorem removerBlocos_slot {idFile q : ℕ} (n i : ℕ) (fs : Fs) (hq : q < i) :
    (removerBlocos idFile n i fs).1.slot (idFile, q) = fs.slot (idFile, q) := by
  induction n generalizing i fs with
  | zero => rfl
  | succ n ih =>
      rw [removerBlocos]
      split
      · rfl
      · rw [ih (i + 1) _ (Nat.lt_succ_of_lt hq), setBlock_slot, if_neg]
        · rw [slot_congr (apagarBloco_inodeTab _ _ _)]
        · intro he
          exact Nat.ne_of_lt hq (Prod.mk.inj he).2

/-- Once the first block is released, its slot is empty. -/
theorem removerBlocos_slot_zero {idFile n : ℕ} {fs : Fs} (hn : 0 < n)
    (h10 : 10 ≤ fs.slot (idFile, 0)) :
    (removerBlocos idFile n 0 fs).1.slot (idFile, 0) = 0 := by
  obtain ⟨n, rfl⟩ := Nat.exists_eq_succ_of_ne_zero (Nat.ne_of_gt hn)
  have hge : ¬(fs.inodeTab idFile).blocks 0 < 10 := Nat.not_lt.mpr h10
  rw [Nat.succ_eq_add_one, removerBlocos]
  simp only [hge, if_false]
  rw [removerBlocos_slot n 1 _ Nat.one_pos, setBlock_slot, if_pos rfl]

theorem removerBlocos_of_lt {idFile n : ℕ} {fs : Fs} (h : ¬(0 < n ∧ 10 ≤ fs.slot (idFile, 0))) :
    (removerBlocos idFile n 0 fs).1 = fs ∧
      ((removerBlocos idFile n 0 fs).2 = true → n = 0) := by
  cases n with
  | zero => exact ⟨rfl, fun _ => rfl⟩
  | succ n =>
      have hlt : (fs.inodeTab idFile).blocks 0 < 10 := by
        by_contra hge
        exact h ⟨Nat.succ_pos n, Nat.not_lt.mp hge⟩
      rw [removerBlocos]
      simp only [hlt, if_true]
      exact ⟨trivial, Bool.noConfusion⟩

theorem fsRemove_falha {fs : Fs} {dir : ℕ} {nome : CString} {fs' : Fs}
    (h : fsRemove fs dir nome = some (fs', none)) :
    Inalterado fs fs' ↔ ¬(FsOp.remove dir nome).DeixaRasto fs := by
  rcases fsRemove_casos h with ⟨hr, hno⟩ | ⟨idFile, ha, hr⟩
  · obtain ⟨rfl, -⟩ := Prod.mk.inj hr
    exact iff_of_true (Inalterado.refl _) fun ⟨idFile, hd, _⟩ => hno idFile hd
  have hfs' : fs' = (semBlocos fs idFile).1 := by
    rcases hr with ⟨hr, -⟩ | ⟨-, fs₂, ok, hent, hr⟩
    · exact (Prod.mk.inj hr).1
    · cases ok with
      | true => cases hr
      | false =>
          have ht : (semBlocos fs idFile).1.typeAt dir = .fsDir :=
            ((removerBlocos_same _ _ _ fs).type dir).trans ha.usado.2
          cases removerEntrada_casos ht hent
          exact (Prod.mk.inj hr).1
  have hunico : ∀ idFile', AdmiteRemocao fs dir nome idFile' → idFile' = idFile := fun _ ha' =>
    Option.some.inj (ha'.achado.symm.trans ha.achado)
  by_cases hd : 0 < offsetToBlocks (fs.sizeAt idFile) ∧ 10 ≤ fs.slot (idFile, 0)
  · refine iff_of_false (fun hi => ?_) (not_not.mpr ⟨idFile, ha, hd⟩)
    have hzero : (semBlocos fs idFile).1.slot (idFile, 0) = 0 := removerBlocos_slot_zero hd.1 hd.2
    rw [← hfs', slot_congr hi.inodeTab] at hzero
    omega
  · have he : (semBlocos fs idFile).1 = fs := (removerBlocos_of_lt hd).1
    rw [hfs', he]
    refine iff_of_true (Inalterado.refl _) fun ⟨idFile', ha', hd'⟩ => hd ?_
    rwa [← hunico idFile' ha']

/-! ## Creating and copying -/

theorem fsCriar_falha {tipo : FsItype} {fs fs' : Fs} {dir : ℕ} {file : CString}
    (h : fsCriar tipo fs dir file = some (fs', none)) : fs' = fs := by
  rcases fsCriar_casos h with ⟨hr, -⟩ | ⟨_, _, -, -, hr⟩
  · exact (Prod.mk.inj hr).1
  · exact nomatch (Prod.mk.inj hr).2

theorem fsCopyInodes_falha {fs fs' : Fs} {de para : ℕ} (h : fsCopyInodes fs de para = (fs', -1)) :
    fs' = fs := by
  rw [fsCopyInodes] at h
  split at h
  · exact (Prod.mk.inj h).1.symm
  · exact absurd (Prod.mk.inj h).2 (by decide)

theorem fsCopy_falha {fs : Fs} {d₁ d₂ : ℕ} {nome₁ nome₂ : CString} {fs' : Fs}
    (h : fsCopy fs d₁ nome₁ d₂ nome₂ = some (fs', -1)) :
    Inalterado fs fs' ↔ ¬(FsOp.copy d₁ nome₁ d₂ nome₂).DeixaRasto fs := by
  rcases fsCopy_casos h with ⟨hr, hno⟩ | ⟨de, ha, ⟨para, hp, hr⟩ | ⟨hnova, ⟨hcre, hr⟩ | hcriou⟩⟩
  · obtain ⟨rfl, -⟩ := Prod.mk.inj hr
    exact iff_of_true (Inalterado.refl _) fun ⟨⟨de, hd⟩, _⟩ => hno de hd
  · rw [fsCopyInodes_falha hr.symm]
    refine iff_of_true (Inalterado.refl _) fun ⟨_, finode, fs₁, hadm, _⟩ => ?_
    rw [hadm.nova] at hp
    cases hp
  · obtain ⟨rfl, -⟩ := Prod.mk.inj hr
    rcases fsCriar_casos hcre with ⟨-, hno⟩ | ⟨finode, fs₁, -, -, hc⟩
    · exact iff_of_true (Inalterado.refl _) fun ⟨_, finode, fs₁, hd⟩ => hno finode fs₁ hd
    · exact nomatch (Prod.mk.inj hc).2
  · obtain ⟨fs₁, n, hcre, -, hr⟩ := hcriou
    have hfs' : fs' = fs₁ := by
      rcases hr with ⟨-, hr⟩ | ⟨para, -, hr⟩
      · exact (Prod.mk.inj hr).1
      · exact fsCopyInodes_falha hr.symm
    rcases fsCriar_casos hcre with ⟨hc, -⟩ | ⟨finode, fs₀, hadm, hv, hc⟩
    · exact nomatch (Prod.mk.inj hc).2
    -- the bit of the new i-node
    refine iff_of_false (fun hi => ?_) (not_not.mpr ⟨⟨de, ha⟩, finode, fs₀, hadm, hv⟩)
    obtain ⟨hlt, hfree⟩ := fsiBmapFindFree_eq_some hadm.livre
    have hset : fs'.alocado finode = true := by
      rw [hfs', (Prod.mk.inj hc).1, alocado, store_inodeBmap, ← alocado,
        comNovo_alocado _ _ _ _ hlt, decide_eq_true rfl, Bool.true_or]
    rw [alocado, hi.inodeBmap, hfree] at hset
    cases hset

/-! ## Reading -/

theorem fsRead_falha {fs fs' : Fs} {file offset count : ℕ}
    (h : fsRead fs file offset count = some (fs', none)) : fs' = fs := by
  rw [fsRead] at h
  split at h
  · exact (Prod.mk.inj (Option.some.inj h)).1.symm
  split at h
  · exact (Prod.mk.inj (Option.some.inj h)).1.symm
  split at h
  · exact (Prod.mk.inj (Option.some.inj h)).1.symm
  simp only at h
  split at h
  · cases h
  · obtain ⟨x, -, hx⟩ := Option.map_eq_some_iff.mp h
    cases hx

/-! ## A disk of twelve blocks -/

instance (fs : Fs) (file offset count : ℕ) : Decidable (AdmiteEscrita fs file offset count) := by
  unfold AdmiteEscrita FicheiroUsado
  infer_instance

set_option maxRecDepth 100000 in
/-- The root of a disk of twelve blocks has a file and a block. -/
theorem um_ficheiro :
    ∃ fs rs, Runs.run FsOp.exec (fsFormat (fsNew 12 fun _ => 7)) [.create 1 nomeA] =
        some (fs, rs) ∧
      (fs.ocupado 11 = false ∧ fs.slot (2, 0) = 0) ∧
      (FsOp.write 2 0 1024 (fun _ => 1) nullBlock).DeixaRasto fs ∧
      (fsWrite fs 2 0 1024 (fun _ => 1) nullBlock).map
        (fun r => (r.1.ocupado 11, r.1.slot (2, 0), r.2)) = some (true, 11, -1) ∧
      (fsCreate fs 1 nomeA).map Prod.snd = some none := by
  have hcheio : ∃ fs rs, Runs.run FsOp.exec (fsFormat (fsNew 12 fun _ => 7)) [.create 1 nomeA] =
        some (fs, rs) ∧
      (fs.ocupado 11 = false ∧ fs.slot (2, 0) = 0) ∧
      (AdmiteEscrita fs 2 0 1024 ∧ 0 < fs.livres.card ∧ fs.livres.card < blksReq fs 2 0 1024) ∧
      (fsWrite fs 2 0 1024 (fun _ => 1) nullBlock).map
        (fun r => (r.1.ocupado 11, r.1.slot (2, 0), r.2)) = some (true, 11, -1) ∧
      (fsCreate fs 1 nomeA).map Prod.snd = some none := by
    rw [fsFormat_eq_formatado]
    exact Runs.exists_run_of_any (by decide +kernel)
  exact hcheio

/-- One block is left, and a write of two blocks fails with it marked and in the slot. -/
theorem escrita_deixa_bloco :
    ∃ fs rs fs', Runs.run FsOp.exec (fsFormat (fsNew 12 fun _ => 7)) [.create 1 nomeA] =
        some (fs, rs) ∧
      FsOp.exec fs (.write 2 0 1024 (fun _ => 1) nullBlock) = some (fs', .estado (-1)) ∧
      (fs.ocupado 11 = false ∧ fs.slot (2, 0) = 0) ∧
      (fs'.ocupado 11 = true ∧ fs'.slot (2, 0) = 11) ∧ ¬Inalterado fs fs' := by
  obtain ⟨fs, rs, hrun, hantes, -, hdepois, -⟩ := um_ficheiro
  obtain ⟨⟨fs', r⟩, hw, he⟩ := Option.map_eq_some_iff.mp hdepois
  obtain ⟨hbit, he⟩ := Prod.mk.inj he
  obtain ⟨hslot, rfl⟩ := Prod.mk.inj he
  refine ⟨fs, rs, fs', hrun, by rw [FsOp.exec, hw]; rfl, hantes, ⟨hbit, hslot⟩, fun hi => ?_⟩
  have hbits : fs'.ocupado 11 = fs.ocupado 11 := by rw [ocupado, ocupado, hi.blkBmap]
  rw [hbit, hantes.1] at hbits
  cases hbits

/-! ## All calls -/

/-- A call that has failed leaves the tables and the contents as they were, unless it is a write
with too few free blocks but some, a removal that stops behind the first block, or a copy that
stops behind the creation of its destination. -/
theorem falha_inalterada_iff {fs fs' : Fs} {op : FsOp} {r : Resposta}
    (he : op.exec fs = some (fs', r)) (hf : r.Falhou) : Inalterado fs fs' ↔ ¬op.DeixaRasto fs := by
  have hsem : fs' = fs → ¬op.DeixaRasto fs → (Inalterado fs fs' ↔ ¬op.DeixaRasto fs) := by
    rintro rfl hno
    exact iff_of_true (Inalterado.refl _) hno
  cases op with
  | create dir file =>
      obtain ⟨⟨fs₁, n⟩, hc, hx⟩ := Option.map_eq_some_iff.mp he
      obtain ⟨rfl, rfl⟩ := Prod.mk.inj hx
      obtain rfl : n = none := hf
      exact hsem (fsCriar_falha hc) id
  | mkdir dir newdir =>
      obtain ⟨⟨fs₁, n⟩, hc, hx⟩ := Option.map_eq_some_iff.mp he
      obtain ⟨rfl, rfl⟩ := Prod.mk.inj hx
      obtain rfl : n = none := hf
      exact hsem (fsCriar_falha hc) id
  | write file offset count buffer lixo =>
      obtain ⟨⟨fs₁, n⟩, hw, hx⟩ := Option.map_eq_some_iff.mp he
      obtain ⟨rfl, rfl⟩ := Prod.mk.inj hx
      obtain rfl : n = -1 := hf
      exact fsWrite_falha hw
  | read file offset count =>
      obtain ⟨⟨fs₁, n⟩, hl, hx⟩ := Option.map_eq_some_iff.mp he
      obtain ⟨rfl, rfl⟩ := Prod.mk.inj hx
      obtain rfl : n = none := hf
      exact hsem (fsRead_falha hl) id
  | copy d₁ nome₁ d₂ nome₂ =>
      obtain ⟨⟨fs₁, n⟩, hc, hx⟩ := Option.map_eq_some_iff.mp he
      obtain ⟨rfl, rfl⟩ := Prod.mk.inj hx
      obtain rfl : n = -1 := hf
      exact fsCopy_falha hc
  | remove dir nome =>
      obtain ⟨⟨fs₁, n⟩, hr, hx⟩ := Option.map_eq_some_iff.mp he
      obtain ⟨rfl, rfl⟩ := Prod.mk.inj hx
      obtain rfl : n = none := hf
      exact fsRemove_falha hr
  | append d₁ nome₁ d₂ nome₂ =>
      obtain ⟨⟨fs₁, n⟩, ha, hx⟩ := Option.map_eq_some_iff.mp he
      obtain ⟨rfl, rfl⟩ := Prod.mk.inj hx
      obtain rfl : n = none := hf
      rcases fsAppend_casos ha with hr | ⟨_, _, -, -, -, hr⟩
      · exact hsem (Prod.mk.inj hr).1 id
      · exact nomatch (Prod.mk.inj hr).2
  | defrag =>
      obtain ⟨rfl, rfl⟩ := Prod.mk.inj (Option.some.inj he)
      have hf : (fsDefrag fs).2 = -1 := hf
      refine hsem ?_ id
      rw [fsDefrag] at hf ⊢
      split at hf
      · have hf : (1 : ℤ) = -1 := hf
        exact absurd hf (by decide)
      · rename_i hno
        rw [if_neg hno]
  | actualizar intervalo =>
      obtain ⟨-, rfl⟩ := Prod.mk.inj (Option.some.inj he)
      exact absurd hf (by simp [Resposta.Falhou])

/-- The write leaves what it has taken, and a second creation of the file changes nothing. -/
theorem falha_inalterada_exemplo :
    ∃ fs rs fs' fs'', Runs.run FsOp.exec (fsFormat (fsNew 12 fun _ => 7)) [.create 1 nomeA] =
        some (fs, rs) ∧
      (FsOp.exec fs (.write 2 0 1024 (fun _ => 1) nullBlock) = some (fs', .estado (-1)) ∧
        ¬Inalterado fs fs') ∧
      FsOp.exec fs (.create 1 nomeA) = some (fs'', .inode none) ∧ Inalterado fs fs'' := by
  obtain ⟨fs, rs, hrun, -, hrasto, hcheio, hexiste⟩ := um_ficheiro
  obtain ⟨⟨fs', r⟩, hw, he⟩ := Option.map_eq_some_iff.mp hcheio
  obtain ⟨⟨fs'', n⟩, hc, rfl⟩ := Option.map_eq_some_iff.mp hexiste
  obtain rfl : r = -1 := (Prod.mk.inj (Prod.mk.inj he).2).2
  have hexec : FsOp.exec fs (.write 2 0 1024 (fun _ => 1) nullBlock) =
      some (fs', .estado (-1)) := by
    rw [FsOp.exec, hw]
    rfl
  have hexec' : FsOp.exec fs (.create 1 nomeA) = some (fs'', .inode none) := by
    rw [FsOp.exec, hc]
    rfl
  exact ⟨fs, rs, fs', fs'', hrun,
    ⟨hexec, fun hi => (falha_inalterada_iff hexec rfl).mp hi hrasto⟩, hexec',
    (falha_inalterada_iff hexec' rfl).mpr id⟩

end ThreadScheduler.SnfsServer
