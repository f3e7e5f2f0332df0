import ThreadScheduler.SnfsServer.CallEffects
import ThreadScheduler.SnfsServer.DirSearch
import ThreadScheduler.SnfsServer.KeptInodes
import ThreadScheduler.SnfsServer.RemoveName

/-!
# A removal after a creation

`fs_remove` of what `fs_create` or `fs_mkdir` has just created brings every table back, and
stores the tables so. The entry it takes out is the last one, which is the new one.
-/
namespace ThreadScheduler.SnfsServer

/-- Two bitmaps with the same bits are the same. -/
theorem bmap_ext {bmap bmap' : Block} (h : ∀ b, bmapIsSet bmap b = bmapIsSet bmap' b) :
    bmap = bmap' := by
  funext i
  apply BitVec.eq_of_getLsbD_eq
  intro k hk
  have hdiv : (8 * i.val + k) / 8 = i.val := by omega
  have hmod : (8 * i.val + k) % 8 = k := by omega
  have hlt : (8 * i.val + k) / 8 < blockSize := by rw [hdiv]; exact i.isLt
  have hb := h (8 * i.val + k)
  rw [bmapIsSet_eq hlt, bmapIsSet_eq hlt] at hb
  simpa only [hdiv, hmod] using hb

namespace Fs

/-- Blocks 0 to 9 of the disk hold the tables. -/
structure TabelasGravadas (fs : Fs) : Prop where
  blkBmap : fs.readDisk 0 = fs.blkBmap
  inodeBmap : fs.readDisk 1 = fs.inodeBmap
  inodeTab : ∀ j < 8, fs.readDisk (j + 2) = inodeTabBlock fs.inodeTab j

/-- `fsi_store_fsdata` stores the tables, on a disk that has the ten blocks. -/
theorem store_tabelas {fs : Fs} (hn : 10 ≤ fs.numBlocks) :
    (fsiStoreFsdata fs).TabelasGravadas := by
  have hloop : ∀ n ≤ 8, ∀ fs' : Fs, fs' = (List.range n).foldl
      (fun fs i => fs.writeDisk (i + 2) (inodeTabBlock fs.inodeTab i))
      ((fs.writeDisk 0 fs.blkBmap).writeDisk 1 fs.inodeBmap) →
      fs'.inodeTab = fs.inodeTab ∧ fs'.blkBmap = fs.blkBmap ∧ fs'.inodeBmap = fs.inodeBmap ∧
        fs'.numBlocks = fs.numBlocks ∧ fs'.readDisk 0 = fs.blkBmap ∧
        fs'.readDisk 1 = fs.inodeBmap ∧
        ∀ j < n, fs'.readDisk (j + 2) = inodeTabBlock fs.inodeTab j := by
    intro n
    induction n with
    | zero =>
        rintro - fs' rfl
        have hnum : ∀ (fs : Fs) b data, (fs.writeDisk b data).numBlocks = fs.numBlocks :=
          fun fs b data => CacheT.writeDisk_numBlocks fs.cache b data
        refine ⟨rfl, rfl, rfl, (hnum _ _ _).trans (hnum _ _ _), ?_, ?_, fun j hj => ?_⟩
        · rw [List.range_zero, List.foldl_nil, writeDisk_readDisk_of_ne _ _ (by decide)]
          exact writeDisk_readDisk_self _ (by omega)
        · exact writeDisk_readDisk_self _ (by rw [hnum]; omega)
        · exact absurd hj (Nat.not_lt_zero j)
    | succ n ih =>
        rintro hle fs' rfl
        rw [List.range_succ, List.foldl_append, List.foldl_cons, List.foldl_nil]
        obtain ⟨htab, hblk, hino, hnum, h0, h1, hj⟩ := ih (by omega) _ rfl
        generalize (List.range n).foldl
          (fun fs i => fs.writeDisk (i + 2) (inodeTabBlock fs.inodeTab i))
          ((fs.writeDisk 0 fs.blkBmap).writeDisk 1 fs.inodeBmap) = fs₁ at *
        refine ⟨htab, hblk, hino, (CacheT.writeDisk_numBlocks fs₁.cache _ _).trans hnum, ?_, ?_,
          fun j hjn => ?_⟩
        · rw [writeDisk_readDisk_of_ne _ _ (by omega), h0]
        · rw [writeDisk_readDisk_of_ne _ _ (by omega), h1]
        · by_cases he : j = n
          · rw [he, writeDisk_readDisk_self _ (by omega), htab]
          · rw [writeDisk_readDisk_of_ne _ _ (by omega), hj j (by omega)]
  obtain ⟨-, -, -, -, h0, h1, hj⟩ := hloop 8 le_rfl _ rfl
  constructor
  · rw [store_blkBmap]
    exact h0
  · rw [store_inodeBmap]
    exact h1
  · rw [store_inodeTab]
    exact hj

/-! ## Free i-nodes -/

/-- The slots of free i-nodes hold no block number. -/
def Limpos (fs : Fs) : Prop := ∀ i, fs.alocado i = false → ∀ q, fs.slot (i, q) = 0

theorem inodeTab_ext {fs fs' : Fs} {i : ℕ} (ht : fs'.typeAt i = fs.typeAt i)
    (hs : fs'.sizeAt i = fs.sizeAt i) (hq : ∀ q, fs'.slot (i, q) = fs.slot (i, q)) :
    fs'.inodeTab i = fs.inodeTab i := by
  have hb : (fs'.inodeTab i).blocks = (fs.inodeTab i).blocks := funext hq
  have ht : (fs'.inodeTab i).type = (fs.inodeTab i).type := ht
  have hs : (fs'.inodeTab i).size = (fs.inodeTab i).size := hs
  cases hi : fs'.inodeTab i with
  | mk type size blocks =>
      cases hj : fs.inodeTab i with
      | mk type' size' blocks' =>
          rw [hi, hj] at hb ht hs
          obtain rfl := hb
          obtain rfl := ht
          obtain rfl := hs
          rfl

theorem inicial_limpos (pilha : ℕ → ℤ) : (inicial pilha).Limpos := by
  obtain ⟨-, -, -, -, -, -, -, -, htab⟩ := inicial_spec pilha
  intro i _ q
  rw [slot, htab]
  rfl

/-- A call that changes the slots of i-nodes in use only. -/
theorem Limpos.congr {fs fs' : Fs} (h : fs.Limpos)
    (ha : ∀ i, fs'.alocado i = false → ∀ q, fs'.slot (i, q) = 0 ∨
      fs.alocado i = false ∧ fs'.slot (i, q) = fs.slot (i, q)) : fs'.Limpos := by
  intro i hi q
  rcases ha i hi q with h0 | ⟨hf, hs⟩
  · exact h0
  · rw [hs, h i hf q]

theorem Limpos.of_keep {fs fs' : Fs} (h : fs.Limpos) (hbm : fs'.inodeBmap = fs.inodeBmap) {j : ℕ}
    (hj : fs.alocado j = true) (hs : ∀ p, p.1 ≠ j → fs'.slot p = fs.slot p) : fs'.Limpos := by
  refine h.congr fun i hi q => .inr ?_
  rw [alocado, hbm] at hi
  refine ⟨hi, hs _ ?_⟩
  rintro rfl
  rw [alocado, hi] at hj
  cases hj

theorem Criado.limpos {fs fs' : Fs} (h : fs.Consistent) (hl : fs.Limpos) {tipo : FsItype}
    {d n : ℕ} {nome : List Byte} (hc : Criado tipo fs fs' d nome n) : fs'.Limpos := by
  have had := h.alocado_of_type (i := d) (by simp [hc.dir])
  refine hl.congr fun i hi q => .inr ?_
  rw [hc.alocado, Bool.or_eq_false_iff, decide_eq_false_iff_not] at hi
  have hid : i ≠ d := by
    rintro rfl
    rw [had] at hi
    cases hi.2
  exact ⟨hi.2, by rw [hc.slot _ hid, if_neg hi.1]⟩

/-- What is removed is never the directory itself: it would list itself and be empty. -/
theorem Removido.ne {fs fs' : Fs} {d n : ℕ} {nome : List Byte} (hr : Removido fs fs' d nome n) :
    n ≠ d := by
  rintro rfl
  have hp := hr.achado
  rw [procura, Fs.entradas, hr.vazio hr.dir] at hp
  cases hp

theorem Removido.limpos {fs fs' : Fs} (h : fs.Consistent) (hl : fs.Limpos) {d n : ℕ}
    {nome : List Byte} (hr : Removido fs fs' d nome n) : fs'.Limpos := by
  have had := h.alocado_of_type (i := d) (by simp [hr.dir])
  refine hl.congr fun i hi q => ?_
  rw [hr.alocado, Bool.and_eq_false_iff, Bool.not_eq_false', decide_eq_true_eq] at hi
  have hid : i ≠ d := by
    rintro rfl
    rcases hi with hi | hi
    · exact hr.ne hi.symm
    · rw [had] at hi
      cases hi
  rw [hr.slot _ hid]
  rcases hi with hi | hi
  · exact .inl (if_pos hi)
  · split
    · exact .inl rfl
    · exact .inr ⟨hi, rfl⟩

theorem Limpos.mudanca {fs fs' : Fs} (h : fs.Exacto) (hl : fs.Limpos) {op : FsOp}
    (hef : Mudanca fs op fs') : fs'.Limpos := by
  have hcons := h.consistent
  cases hef with
  | igual => exact hl
  | cache => exact hl
  | criado _ _ hc => exact hc.limpos hcons hl
  | escrito hw =>
      exact hl.of_keep hw.inodeBmap (hcons.alocado_of_type (by simp [hw.ficheiro])) hw.slot
  | @copiado fs₁ fs' d₁ d₂ de para nome₁ nome₂ hd hex hc =>
      have hl₁ : fs₁.Limpos := by
        cases hd with
        | achado _ he => exact he ▸ hl
        | criado hc₁ => exact hc₁.limpos hcons hl
      exact hl₁.of_keep hc.inodeBmap
        (hex.consistent.alocado_of_type (by simp [hc.destino])) hc.slot
  | removido hr => exact hr.limpos hcons hl

theorem limpos_of_run (pilha : ℕ → ℤ) {ops : List FsOp}
    (hops : Runs.Permitted FsOp.exec FsOp.SemAnexo (inicial pilha) ops) {fs : Fs}
    {rs : List Resposta} (hrun : Runs.run FsOp.exec (inicial pilha) ops = some (fs, rs)) :
    fs.Exacto ∧ fs.Limpos :=
  invariante_of_run (fun _ _ => id) (fun _ _ _ h hl _ _ hef => hl.mudanca h hef) pilha
    (inicial_limpos pilha) hops hrun

end Fs

open Fs

/-! ## The two calls -/

/-- The tables and the directories are as before, and the disk holds the tables. -/
structure Reposto (fs fs' : Fs) : Prop where
  inodeBmap : fs'.inodeBmap = fs.inodeBmap
  blkBmap : fs'.blkBmap = fs.blkBmap
  referencias : fs'.referencias = fs.referencias
  inodeTab : fs'.inodeTab = fs.inodeTab
  entradas : ∀ d, fs'.entradas d = fs.entradas d
  disco : fs'.readDisk 0 = fs.blkBmap ∧ fs'.readDisk 1 = fs.inodeBmap ∧
    ∀ j < 8, fs'.readDisk (j + 2) = inodeTabBlock fs.inodeTab j

/-- The slots of the directory that it had in use before the creation. -/
theorem Vaga.slot_dir {fs fs₁ : Fs} {dir : ℕ} (h : Vaga fs dir fs₁) {q : ℕ}
    (hq : q < offsetToBlocks (fs.sizeAt dir)) : fs₁.slot (dir, q) = fs.slot (dir, q) := by
  cases h with
  | bloco hs hb =>
      rw [setBlock_slot, if_neg]
      · rfl
      · rintro he
        have := (Prod.mk.inj he).2
        rw [offsetToBlocks, hs, if_neg (Nat.lt_irrefl 0)] at hq
        omega
  | aberta hs => rfl

/-- The slots of a directory in use after the last entry is taken out, when the block of its last
page has no references. -/
theorem SemEntrada.slot_dir_of {fs fs' : Fs} {ok : Bool} {dir q : ℕ}
    (h : SemEntrada fs dir (fs', ok)) (hdir : fs.typeAt dir = .fsDir) (halign : 16 ∣ fs.sizeAt dir)
    (hrefs : fs.referencias (fs.slot (dir, fs.sizeAt dir / 16 / dirPageEntries)) = 0)
    (hq : q < offsetToBlocks (fs.sizeAt dir - 16)) : fs'.slot (dir, q) = fs.slot (dir, q) := by
  cases h with
  | libertou u hs =>
      rw [setBlock_slot, if_neg, slot_congr (apagarBloco_inodeTab _ _ _)]
      rintro he
      obtain rfl := (Prod.mk.inj he).2
      obtain ⟨k, hk⟩ := halign
      rw [lt_offsetToBlocks] at hq
      simp only [dirPageEntries, blockSize] at hs hq
      omega
  | escreveu hne data hw =>
      rw [Accounts.escreverBloco_of_refs_zero hrefs hdir] at hw
      rw [← Option.some.inj hw]
      rfl
  | falhou => rfl

theorem SemEntrada.slot_dir {fs fs' : Fs} {ok : Bool} {dir q : ℕ} (h : SemEntrada fs dir (fs', ok))
    (hc : fs.Consistent) (hdir : fs.typeAt dir = .fsDir)
    (hq : q < offsetToBlocks (fs.sizeAt dir - 16)) : fs'.slot (dir, q) = fs.slot (dir, q) := by
  refine h.slot_dir_of hdir (hc.dirs dir hdir).align ?_ hq
  -- the last page, or none past the end
  by_cases hlive : fs.sizeAt dir / 16 / dirPageEntries < offsetToBlocks (fs.sizeAt dir)
  · exact hc.acc.refs_of_dir (hc.mem_emUso_iff.mpr hlive) hdir
  · rw [(hc.dirs dir hdir).clear _ (Nat.not_lt.mp hlive)]
    exact hc.acc.refs_of_lt (by decide)

/-- A removal of what a creation gave takes every slot back. -/
theorem slot_reposto {fs fs₁ fs' : Fs} (h : fs.Exacto) (hl : fs.Limpos) {tipo : FsItype} {d n : ℕ}
    {nome : CString} (hcriar : fsCriar tipo fs d nome = some (fs₁, some n))
    (hc : Criado tipo fs fs₁ d nome.val n) (hremover : fsRemove fs₁ d nome = some (fs', some n))
    (hr : Removido fs₁ fs' d nome.val n) (p : ℕ × ℕ) : fs'.slot p = fs.slot p := by
  have hdn : d ≠ n := hc.ne_of_alocado (h.consistent.alocado_of_type (by simp [hc.dir]))
  obtain ⟨i, q⟩ := p
  by_cases hi : i = d
  · subst hi
    have htype : fs'.typeAt i = .fsDir := by
      rw [hr.type, if_neg hdn, hc.type, if_neg hdn, hc.dir]
    have hsize : fs₁.sizeAt i - 16 = fs.sizeAt i := by
      rw [hc.size, if_neg hdn, if_pos rfl, Nat.add_sub_cancel]
    by_cases hq : q < offsetToBlocks (fs.sizeAt i)
    · rcases fsRemove_casos hremover with ⟨he, -⟩ | ⟨idFile, -, ⟨he, -⟩ | ⟨-, fs₂, ok, hent, he⟩⟩
      · cases he
      · cases he
      cases ok with
      | false => cases he
      | true =>
          obtain ⟨rfl, hid⟩ := Prod.mk.inj he
          obtain rfl := Option.some.inj hid
          have hsem : semBlocos fs₁ n = (fs₁, true) := by
            rw [semBlocos, hc.size, if_pos rfl]
            rfl
          have hdir₁ : fs₁.typeAt i = .fsDir := by rw [hc.type, if_neg hdn, hc.dir]
          rw [hsem] at hent
          have hkeep := (removerEntrada_casos hdir₁ hent).slot_dir hc.consistent hdir₁
            (by rwa [hsize])
          rw [slot_congr (store_inodeTab _), semInode_slot, if_neg hdn, hkeep]
          rcases fsCriar_casos hcriar with ⟨he, -⟩ | ⟨finode, fs₃, -, hv, he⟩
          · cases he
          obtain ⟨rfl, hfin⟩ := Prod.mk.inj he
          obtain rfl := Option.some.inj hfin
          rw [slot_congr (store_inodeTab _), comNovo_slot, if_neg hdn, hv.slot_dir hq]
    · -- past the size a directory names no block
      have hsize' : fs'.sizeAt i = fs.sizeAt i := by rw [hr.size, if_neg hdn, if_pos rfl, hsize]
      rw [(h.consistent.dirs i hc.dir).clear q (Nat.not_lt.mp hq),
        (hr.consistent.dirs i htype).clear q (by rw [hsize']; exact Nat.not_lt.mp hq)]
  · rw [hr.slot _ hi, hc.slot _ hi]
    split
    · rename_i hin
      obtain rfl : i = n := hin
      exact (hl i hc.livre q).symm
    · rfl

/-- A removal that succeeds stores the tables. -/
theorem fsRemove_tabelas {fs fs' : Fs} {d n : ℕ} {nome : CString}
    (h : fsRemove fs d nome = some (fs', some n)) (hn : 10 ≤ fs'.numBlocks) :
    fs'.TabelasGravadas := by
  rcases fsRemove_casos h with ⟨he, -⟩ | ⟨idFile, -, ⟨he, -⟩ | ⟨-, fs₂, ok, -, he⟩⟩
  · cases he
  · cases he
  cases ok with
  | false => cases he
  | true =>
      obtain ⟨rfl, -⟩ := Prod.mk.inj he
      rw [store_numBlocks] at hn
      exact store_tabelas hn

/-- A removal of what a creation gave succeeds, and puts everything back. -/
theorem reposto_of_criado {fs fs₁ : Fs} (h : fs.Exacto) (hl : fs.Limpos) {tipo : FsItype}
    (htipo : tipo ≠ .unset) {d : ℕ} {nome : CString} {n : ℕ}
    (hcriar : fsCriar tipo fs d nome = some (fs₁, some n)) :
    ∃ fs', fsRemove fs₁ d nome = some (fs', some n) ∧ Reposto fs fs' := by
  have hcons := h.consistent
  rcases fsCriar_spec hcons tipo htipo d nome with ⟨hno, -⟩ | ⟨fs₂, n₂, hyes, hc⟩
  · cases hno.symm.trans hcriar
  obtain ⟨rfl, hn⟩ := Prod.mk.inj (Option.some.inj (hyes.symm.trans hcriar))
  obtain rfl := Option.some.inj hn
  have hdn : d ≠ n₂ := hc.ne_of_alocado (hcons.alocado_of_type (by simp [hc.dir]))
  have hdir₁ : fs₂.typeAt d = .fsDir := by rw [hc.type, if_neg hdn, hc.dir]
  have hp : fs₂.procura d nome.val = some n₂ := by
    rw [← resolve_of_dir hdir₁]
    exact hc.resolve_self hcons
  have hvazio : fs₂.sizeAt n₂ = 0 := by rw [hc.size, if_pos rfl]
  rcases fsRemove_spec hc.consistent d nome with ⟨-, hrec⟩ | ⟨fs', n', hremover, hr⟩
  · exfalso
    rcases hrec with hb | hd | hnone | ⟨m, hm, -, hsize⟩
    · rcases fsCriar_casos hcriar with ⟨he, -⟩ | ⟨finode, fs₃, ha, -⟩
      · cases he
      · exact ha.nome hb
    · exact hd hdir₁
    · cases hnone.symm.trans hp
    · obtain rfl := Option.some.inj (hm.symm.trans hp)
      exact hsize hvazio
  obtain rfl := Option.some.inj (hr.achado.symm.trans hp)
  have hslot := slot_reposto h hl hcriar hc hremover hr
  have hlivre := hcons.inodes.livre n' hc.livre
  have htype : ∀ j, fs'.typeAt j = fs.typeAt j := fun j => by
    rw [hr.type, hc.type]
    split
    · rename_i hj
      rw [hj, hlivre.1]
    · rfl
  have hsize : ∀ j, fs'.sizeAt j = fs.sizeAt j := fun j => by
    rw [hr.size, hc.size, hc.size]
    by_cases hj : j = n'
    · rw [if_pos hj, hj, hlivre.2]
    · by_cases hjd : j = d
      · rw [if_neg hj, if_pos hjd, if_neg hdn, if_pos rfl, hjd, Nat.add_sub_cancel]
      · rw [if_neg hj, if_neg hjd, if_neg hj, if_neg hjd]
  have halocado : ∀ j, fs'.alocado j = fs.alocado j := fun j => by
    rw [hr.alocado, hc.alocado]
    by_cases hj : j = n'
    · rw [hj, hc.livre]
      simp
    · simp [hj]
  have huso : fs'.emUso = fs.emUso := emUso_congr halocado hsize
  have hbmap : fs'.inodeBmap = fs.inodeBmap := bmap_ext halocado
  have htab : fs'.inodeTab = fs.inodeTab :=
    funext fun i => inodeTab_ext (htype i) (hsize i) fun q => hslot (i, q)
  have hblk : fs'.blkBmap = fs.blkBmap := by
    refine bmap_ext fun b => ?_
    by_cases hb : b < 10
    · exact (hr.consistent.acc.reserved b hb).trans (hcons.acc.reserved b hb).symm
    · have hb : 10 ≤ b := Nat.not_lt.mp hb
      rw [Bool.eq_iff_iff]
      refine (hr.consistent.acc.bits b hb).trans ((hcons.acc.bits b hb).trans ?_).symm
      simp only [huso, hslot]
  have htabelas := fsRemove_tabelas hremover (by
    rw [numBlocks, blockNumBlocks, hr.consistent.acc.disco]
    decide)
  refine ⟨fs', hremover, hbmap, hblk, ?_, htab, fun e => ?_, ?_⟩
  · funext b
    rw [hr.consistent.acc.refs, hcons.acc.refs, huso,
      fileSlots_congr (fun p _ => htype p.1) fun p _ => hslot p]
  · by_cases he : e = d
    · rw [he, hr.entradas, hc.entradas, List.dropLast_concat]
    · by_cases hen : e = n'
      · have h0 : fs.sizeAt e = 0 := by rw [hen, hlivre.2]
        rw [Fs.entradas, Fs.entradas, hsize, h0]
        rfl
      · rw [hr.outras e he hen, hc.outras e he hen]
  · rw [← hblk, ← hbmap, ← htab]
    exact ⟨htabelas.blkBmap, htabelas.inodeBmap, htabelas.inodeTab⟩

/-- In every state that calls reach which append nothing and copy no file onto itself, removing
what was just created puts everything back. -/
theorem fsRemove_desfaz (pilha : ℕ → ℤ) (ops : List FsOp)
    (hops : Runs.Permitted FsOp.exec FsOp.SemAnexo (fsFormat (fsNew Fs.discoServidor pilha)) ops)
    {fs : Fs} {rs : List Resposta}
    (hrun : Runs.run FsOp.exec (fsFormat (fsNew Fs.discoServidor pilha)) ops = some (fs, rs))
    (d : ℕ) (nome : CString) (fs₁ : Fs) (n : ℕ)
    (hcriar : fsCreate fs d nome = some (fs₁, some n) ∨ fsMkdir fs d nome = some (fs₁, some n)) :
    ∃ fs', fsRemove fs₁ d nome = some (fs', some n) ∧ Reposto fs fs' := by
  obtain ⟨hex, hl⟩ := limpos_of_run pilha hops hrun
  rcases hcriar with hcriar | hcriar
  · exact reposto_of_criado hex hl (by decide) hcriar
  · exact reposto_of_criado hex hl (by decide) hcriar

/-- The first file in the root, which takes its first block. -/
theorem fsRemove_desfaz_primeiro :
    ∃ fs₁ fs', fsCreate (fsFormat (fsNew Fs.discoServidor fun _ => 7)) 1 nomeA =
      some (fs₁, some 2) ∧
      fsRemove fs₁ 1 nomeA = some (fs', some 2) ∧
      Reposto (fsFormat (fsNew Fs.discoServidor fun _ => 7)) fs' := by
  obtain ⟨fs, hrun, -⟩ := dois_ficheiros fun _ => 7
  obtain ⟨fs₁, o, os, hs, -, ho⟩ := Runs.run_cons_eq_some hrun
  obtain ⟨rfl, -⟩ := List.cons.inj ho
  rw [FsOp.exec, Option.map_eq_some_iff] at hs
  obtain ⟨⟨fs₂, n⟩, hc, he⟩ := hs
  obtain ⟨rfl, hn⟩ := Prod.mk.inj he
  obtain rfl := Resposta.inode.inj hn
  have hnil : Runs.run FsOp.exec (fsFormat (fsNew Fs.discoServidor fun _ => 7)) [] =
      some (fsFormat (fsNew Fs.discoServidor fun _ => 7), []) := by rw [Runs.run]
  obtain ⟨fs', hr, hrep⟩ := fsRemove_desfaz _ [] trivial hnil 1 nomeA fs₂ 2 (.inl hc)
  exact ⟨fs₂, fs', hc, hr, hrep⟩

end ThreadScheduler.SnfsServer
