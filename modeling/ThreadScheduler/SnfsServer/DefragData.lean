import ThreadScheduler.SnfsServer.CreateRemove
import ThreadScheduler.SnfsServer.ExactAccounts

/-!
# What a defragmentation preserves

`fs_defrag` copies blocks from disk to disk and throws their cache entries away. The bytes
of a file survive exactly when the disk is up to date wherever a block moves.
-/
namespace ThreadScheduler.SnfsServer

/-- Reads of files and listings of directories answer in `fs'` what they answer in `fs`. -/
structure Preserva (fs fs' : Fs) : Prop where
  ficheiros : ∀ i, fs.typeAt i = .fsFile → ∀ offset count,
    (fsRead fs' i offset count).map Prod.snd = (fsRead fs i offset count).map Prod.snd
  directorios : ∀ d, fs.typeAt d = .fsDir → ∀ maxentries,
    (fsReaddir fs' d maxentries).map Prod.snd = (fsReaddir fs d maxentries).map Prod.snd

namespace Fs

theorem Preserva.refl (fs : Fs) : Preserva fs fs := ⟨fun _ _ _ _ => rfl, fun _ _ _ => rfl⟩

/-- The disk holds the bytes of every file block that `fs_defrag` moves. -/
def DiscoEmDia (fs : Fs) : Prop :=
  ∀ i < itabSize, ∀ k < fs.sizeAt i, fs.typeAt i = .fsFile →
    fs.destino (fs.slot (i, k / blockSize)) ≠ fs.slot (i, k / blockSize) →
    byteAt (fs.noDisco (i, k / blockSize)) (k % blockSize) = fs.byteFicheiro i k

instance : DecidablePred DiscoEmDia := fun fs => by
  unfold DiscoEmDia
  infer_instance

section Data

variable {fs fs' : Fs} {live : Finset (ℕ × ℕ)} (h : fs.Consistent)
  (hd : Desfragmentado fs fs' fs.emUso live)

include h hd

theorem Desfragmentado.fsRead_eq {i : ℕ} (ht : fs.typeAt i = .fsFile) (offset count : ℕ) :
    (fsRead fs' i offset count).map Prod.snd =
      some (some (((fs'.bytes i).drop offset).take count)) := by
  have ha := h.alocado_of_type (i := i) (by simp [ht])
  obtain ⟨c, hr, -⟩ := hd.layout.fsRead_eq (h.lt_of_alocado ha)
    ((hd.same.alocado i).trans ha) ((hd.same.type i).trans ht)
    (fun q hq => hd.sub (h.mem_emUso_iff.mpr (by rwa [hd.same.size] at hq))) offset count
  rw [hr]
  rfl

/-- The entries of the directories are all on disk. -/
theorem Desfragmentado.entradas {d : ℕ} (ht : fs.typeAt d = .fsDir) :
    fs'.entradas d = fs.entradas d := by
  refine entradas_congr (hd.same.size d) fun q hq => ?_
  have hmem := h.mem_emUso_iff.mpr hq
  rw [hd.pagina _ hmem]
  split
  · rfl
  · exact (CacheT.conteudo_of_not_valid (h.acc.not_valid_of_dir hmem ht)).symm

theorem Desfragmentado.fsReaddir_eq {d : ℕ} (ht : fs.typeAt d = .fsDir) (maxentries : ℤ) :
    (fsReaddir fs' d maxentries).map Prod.snd = (fsReaddir fs d maxentries).map Prod.snd := by
  by_cases hm : 0 ≤ maxentries
  · have ha := h.alocado_of_type (i := d) (by simp [ht])
    have htypes : ∀ e : List Byte × ℕ, fs'.typeAt e.2 = fs.typeAt e.2 := fun e => hd.same.type e.2
    rw [h.fsReaddir_eq ht hm, Fs.fsReaddir_eq hd.layout ((hd.same.type d).trans ht)
      (fun q hq => hd.sub (h.mem_emUso_iff.mpr (by rwa [hd.same.size] at hq))) (h.lt_of_alocado ha)
      ((hd.same.alocado d).trans ha) hm, hd.entradas h ht]
    simp only [htypes, Option.map_some]
  · simp only [fsReaddir, if_pos (show itabSize ≤ d ∨ maxentries < 0 by omega), Option.map_some]

/-- The byte strings of the files survive exactly when the disk is up to date. -/
theorem Desfragmentado.bytes_iff : (∀ i, fs.typeAt i = .fsFile → fs'.bytes i = fs.bytes i) ↔
    fs.DiscoEmDia := by
  have hpage : ∀ i k, k < fs.sizeAt i → fs'.byteFicheiro i k =
      if fs.destino (fs.slot (i, k / blockSize)) = fs.slot (i, k / blockSize) then
        fs.byteFicheiro i k
      else byteAt (fs.noDisco (i, k / blockSize)) (k % blockSize) := by
    intro i k hk
    have hq : k / blockSize < offsetToBlocks (fs.sizeAt i) := by
      rw [lt_offsetToBlocks]
      simp only [blockSize]
      omega
    rw [byteFicheiro, hd.pagina _ (h.mem_emUso_iff.mpr hq)]
    split <;> rfl
  have hbytes : ∀ i, fs'.bytes i = fs.bytes i ↔
      ∀ k < fs.sizeAt i, fs'.byteFicheiro i k = fs.byteFicheiro i k := by
    intro i
    rw [bytes, bytes, hd.same.size, List.map_inj_left]
    simp only [List.mem_range]
  constructor
  · intro hall i _ k hk ht hmove
    have := (hbytes i).mp (hall i ht) k hk
    rwa [hpage i k hk, if_neg hmove] at this
  · intro hdisk i ht
    refine (hbytes i).mpr fun k hk => ?_
    rw [hpage i k hk]
    split
    · rfl
    · rename_i hmove
      have hi := h.lt_of_alocado (h.alocado_of_type (i := i) (by simp [ht]))
      exact hdisk i hi k hk ht hmove

theorem Desfragmentado.preserva_iff : Preserva fs fs' ↔ fs.DiscoEmDia := by
  rw [← hd.bytes_iff h]
  have hread : ∀ i, fs.typeAt i = .fsFile → ∀ offset count,
      (fsRead fs i offset count).map Prod.snd =
        some (some (((fs.bytes i).drop offset).take count)) := by
    intro i ht offset count
    obtain ⟨c, hr, -⟩ := h.fsRead_eq ht offset count
    rw [hr]
    rfl
  constructor
  · intro hp i ht
    -- one read of the whole file tells its bytes
    have := hp.ficheiros i ht 0 (fs.sizeAt i)
    rw [hd.fsRead_eq h ht, hread i ht, Option.some.injEq, Option.some.injEq, List.drop_zero,
      List.drop_zero, List.take_of_length_le (by simp [bytes, hd.same.size]),
      List.take_of_length_le (by simp [bytes])] at this
    exact this
  · intro hall
    refine ⟨fun i ht offset count => ?_, fun d ht max => hd.fsReaddir_eq h ht max⟩
    rw [hd.fsRead_eq h ht, hread i ht, hall i ht]

end Data

/-! ## Block numbers past a size -/

/-- No i-node names a block twice, and the block numbers that slots past a size still hold are those
of blocks in use, or low enough for all blocks in use to have room behind them up to 640. -/
structure RestosBaixos (fs : Fs) : Prop where
  baixo : ∀ p ∈ percurso, fs.slot p ≠ 0 → p ∉ fs.emUso → fs.ocupado (fs.slot p) = true ∨
    fs.slot p < numBlocosMax - (fs.emUso.image fs.slot).card
  unico : ∀ p ∈ percurso, fs.slot p ≠ 0 → ∀ p' ∈ percurso, p.1 = p'.1 → fs.slot p = fs.slot p' →
    p.2 = p'.2

instance (fs : Fs) : Decidable fs.RestosBaixos :=
  decidable_of_iff _ ⟨fun h : _ ∧ _ => ⟨h.1, h.2⟩, fun h => ⟨h.baixo, h.unico⟩⟩

/-- Without block numbers past a size there is nothing to ask of them. -/
theorem Exacto.restosBaixos {fs : Fs} (h : fs.Exacto) (hr : fs.SemRestos) : fs.RestosBaixos := by
  constructor
  case baixo =>
    intro p hp h0 hno
    exact absurd (hr.mem_emUso hp h0) hno
  case unico =>
    rintro ⟨i, q⟩ hp h0 ⟨j, q'⟩ hp' hij hs
    obtain rfl : i = j := hij
    have hge := h.consistent.acc.range _ (hr.mem_emUso hp h0)
    exact (h.consistent.inicial hr h.distintos).arrumado.unico i q q' hp hp' hge hs

/-- Then the pass starts from a tidy table. -/
theorem Consistent.inicial_restosBaixos {fs : Fs} (h : fs.Consistent) (hl : fs.Limpos)
    (hr : fs.RestosBaixos) :
    fs.Inicial fs.emUso (numBlocosMax - (fs.emUso.image fs.slot).card) := by
  have hcard := h.card_emUso_le
  refine ⟨⟨h.acc.toLayout, fun p => h.mem_percurso, fun p hp hno hge => ?_,
    fun i q q' hq hq' hge hs => ?_⟩, by omega, by omega⟩
  · refine ⟨?_, hr.baixo p hp (by omega) hno⟩
    -- free i-nodes name no block, and directories none past their size
    obtain ⟨⟨h1, h2⟩, hq⟩ := Fs.mem_percurso.mp hp
    have ha : fs.alocado p.1 = true := by
      by_contra hfree
      have h0 : fs.slot p = 0 := hl p.1 (Bool.eq_false_of_not_eq_true hfree) p.2
      omega
    cases ht : fs.typeAt p.1 with
    | fsFile => rfl
    | unset => exact absurd ht (h.inodes.typed p.1 (by omega) ha)
    | fsDir =>
        by_cases hsize : p.2 < offsetToBlocks (fs.sizeAt p.1)
        · exact absurd (h.mem_emUso_iff.mpr hsize) hno
        · have h0 : fs.slot p = 0 := (h.dirs p.1 ht).clear p.2 (Nat.not_lt.mp hsize)
          omega
  · exact hr.unico (i, q) hq (by omega) (i, q') hq' rfl hs

/-- A call of `fs_defrag` where the block numbers past a size are low. -/
theorem Consistent.fsDefrag_iff {fs : Fs} (h : fs.Consistent) (hl : fs.Limpos)
    (hr : fs.RestosBaixos) : Preserva fs (fsDefrag fs).1 ↔ ¬ fs.TemBlocos ∨ fs.DiscoEmDia := by
  by_cases ht : fs.TemBlocos
  · obtain ⟨fs', live, hdef, hd⟩ := fsDefrag_spec (h.inicial_restosBaixos hl hr) ht
    rw [hdef, hd.preserva_iff h]
    exact ⟨.inr, fun hor => hor.resolve_left (not_not.mpr ht)⟩
  · rw [fsDefrag_of_not ht]
    exact ⟨fun _ => .inl ht, fun _ => Preserva.refl fs⟩

/-- The pass of `fs_defrag` comes to a first slot whose block it moves. -/
def Mexe (fs : Fs) : Prop :=
  fs.TemBlocos ∧ ∃ vistos p rest pos, percurso = vistos ++ p :: rest ∧
    vistos.foldl (fun r p => defragSlot p.1 p.2 r) (fs, 10) = (fs, pos) ∧
    defragSlot p.1 p.2 (fs, pos) = (mexeBlocoPara fs (fs.slot p) pos, pos + 1)

end Fs

/-- In every state that runs without an append, a defragmentation or a copy of a file onto
itself reach, a defragmentation preserves the data if it refuses, finds every block in place,
or finds the block numbers past a size low and the disk up to date wherever a block moves. Where
these numbers are low it does so in no other case, and where it does not refuse and a block is
out of place it comes to move one. -/
theorem fsDefrag_preserva (pilha : ℕ → ℤ) (ops : List FsOp)
    (hops : Runs.Permitted FsOp.exec FsOp.SemAnexo (fsFormat (fsNew Fs.discoServidor pilha)) ops)
    {fs : Fs} {rs : List Resposta}
    (hrun : Runs.run FsOp.exec (fsFormat (fsNew Fs.discoServidor pilha)) ops = some (fs, rs)) :
    (¬ fs.TemBlocos ∨ fs.Parado Fs.percurso 10 ∨ fs.RestosBaixos ∧ fs.DiscoEmDia →
        Preserva fs (fsDefrag fs).1) ∧
      (fs.RestosBaixos → Preserva fs (fsDefrag fs).1 → ¬ fs.TemBlocos ∨ fs.DiscoEmDia) ∧
      (fs.TemBlocos → ¬ fs.Parado Fs.percurso 10 → fs.Mexe) := by
  obtain ⟨hex, hl⟩ := Fs.limpos_of_run pilha hops hrun
  refine ⟨?_, fun hr hp => (hex.consistent.fsDefrag_iff hl hr).mp hp, fun ht hp => ?_⟩
  · rintro (ht | hpar | ⟨hr, hdisk⟩)
    · rw [Fs.fsDefrag_of_not ht]
      exact Fs.Preserva.refl fs
    · rw [Fs.fsDefrag_of_parado hpar]
      exact Fs.Preserva.refl fs
    · exact (hex.consistent.fsDefrag_iff hl hr).mpr (.inr hdisk)
  · obtain ⟨vistos, p, rest, pos, hps, hfold, hlt⟩ := Fs.exists_mexe_of_not_parado hp
    exact ⟨ht, vistos, p, rest, pos, hps, hfold, Fs.defragSlot_mexe hlt⟩

/-- File 2 had two blocks until the one block of file 3 was copied onto it, and still names the
second one, which is free; file 4 is written behind it, and the cache is swept. -/
def chamadasVarridas : List FsOp :=
  [.create 1 nomeA, .create 1 nomeB, .write 3 0 1 (fun _ => 5) nullBlock,
    .write 2 0 513 (fun _ => 6) nullBlock, .copy 1 nomeB 1 nomeA, .create 1 nomeC,
    .write 4 0 1 (fun _ => 7) nullBlock, .actualizar 10]

set_option maxRecDepth 100000 in
/-- Blocks move, one of them a free block that a slot past a size names, and the files keep their
bytes. -/
theorem fsDefrag_preserva_varridas :
    ∃ fs rs, Runs.run FsOp.exec (fsFormat (fsNew Fs.discoServidor fun _ => 7)) chamadasVarridas =
        some (fs, rs) ∧ fs.ocupado (fs.slot (2, 1)) = false ∧
      fs.destino (fs.slot (4, 0)) ≠ fs.slot (4, 0) ∧ fs.Mexe ∧ Preserva fs (fsDefrag fs).1 := by
  have hops : Runs.Permitted FsOp.exec FsOp.SemAnexo
      (fsFormat (fsNew Fs.discoServidor fun _ => 7)) chamadasVarridas := by
    rw [Fs.fsFormat_eq_formatado]
    decide +kernel
  obtain ⟨fs, rs, hrun, hresto, hmove, ht, hpar, hres, hdisk⟩ : ∃ fs rs,
      Runs.run FsOp.exec (fsFormat (fsNew Fs.discoServidor fun _ => 7)) chamadasVarridas =
        some (fs, rs) ∧ fs.ocupado (fs.slot (2, 1)) = false ∧
      fs.destino (fs.slot (4, 0)) ≠ fs.slot (4, 0) ∧ fs.TemBlocos ∧
      ¬ fs.Parado Fs.percurso 10 ∧ fs.RestosBaixos ∧ fs.DiscoEmDia := by
    rw [Fs.fsFormat_eq_formatado]
    exact Runs.exists_run_of_any (by decide +kernel)
  obtain ⟨hpres, -, hmexe⟩ := fsDefrag_preserva _ _ hops hrun
  exact ⟨fs, rs, hrun, hresto, hmove, hmexe ht hpar, hpres (.inr (.inr ⟨hres, hdisk⟩))⟩

/-! ## A file written late -/

namespace Fs

theorem ordem_snoc_new {fs : Fs} {ps : List (ℕ × ℕ)} {p : ℕ × ℕ} (h0 : fs.slot p ≠ 0)
    (hm : fs.slot p ∉ fs.ordem ps) : fs.ordem (ps ++ [p]) = fs.ordem ps ++ [fs.slot p] := by
  simp only [ordem, List.map_append, List.filter_append, List.map_cons, List.map_nil,
    List.eraseDups_append, List.mem_eraseDups] at hm ⊢
  generalize (ps.map fs.slot).filter (· ≠ 0) = l at *
  simp [h0, hm, List.removeAll, List.eraseDups_cons]

/-- The place of a block is the number of blocks named before it. -/
theorem lugar_of_append {fs : Fs} {ps rest : List (ℕ × ℕ)} {p : ℕ × ℕ}
    (hp : percurso = ps ++ p :: rest) (h0 : fs.slot p ≠ 0) (hm : fs.slot p ∉ fs.ordem ps) :
    fs.lugar (fs.slot p) = 10 + (fs.ordem ps).length := by
  have hsplit : fs.ordem percurso = fs.ordem (ps ++ [p]) ++
      ((((rest.map fs.slot).filter (· ≠ 0)).removeAll
        (((ps ++ [p]).map fs.slot).filter (· ≠ 0))).eraseDups) := by
    rw [hp, List.append_cons, ordem, List.map_append, List.filter_append,
      List.eraseDups_append, ordem]
  rw [lugar, hsplit, ordem_snoc_new h0 hm, List.idxOf_append_of_mem (by simp),
    List.idxOf_append_of_notMem hm, List.idxOf_cons_self, Nat.add_zero]

theorem percurso_eq : ∃ rest, percurso =
    ((List.range inodeNumBlks).map fun q => (1, q)) ++ (2, 0) :: rest := by
  refine ⟨percurso.drop 11, ?_⟩
  rw [List.append_cons]
  exact (List.take_append_drop 11 percurso).symm

end Fs

/-- A file written after the one behind it has a block that the disk does not hold yet and
that a defragmentation moves. -/
theorem escrito_tarde (pilha : ℕ → ℤ) :
    ∃ fs rs, Runs.run FsOp.exec (fsFormat (fsNew Fs.discoServidor pilha))
        [.create 1 nomeA, .create 1 nomeB, .write 3 0 1 (fun _ => 1) nullBlock,
          .write 2 0 1 (fun _ => 1) nullBlock] = some (fs, rs) ∧
      fs.Exacto ∧ fs.SemRestos ∧ fs.TemBlocos ∧ ¬ fs.DiscoEmDia := by
  obtain ⟨fs, hrun, hd⟩ := dois_ficheiros pilha
  obtain ⟨fs₁, hw₁, hp₁, he₁⟩ := Fs.fsWrite_vazio hd.exacto.consistent hd.ficheiro.2
    (hd.vazio 3 (by decide)) Nat.zero_lt_one (by decide) (fun _ => 1) nullBlock
  have hex₁ : fs₁.Exacto := ⟨he₁.consistent, he₁.distintos hd.exacto.distintos⟩
  have ht₁ : fs₁.typeAt 2 = .fsFile := (he₁.type 2).trans hd.ficheiro.1
  have hs₁ : fs₁.sizeAt 2 = 0 := (he₁.size 2 (by decide)).trans (hd.vazio 2 (by decide))
  obtain ⟨fs₂, hw₂, hp₂, he₂⟩ := Fs.fsWrite_vazio hex₁.consistent ht₁ hs₁ Nat.zero_lt_one
    (by decide) (fun _ => 1) nullBlock
  have hex₂ : fs₂.Exacto := ⟨he₂.consistent, he₂.distintos hex₁.distintos⟩
  have hrun₂ : Runs.run FsOp.exec fs [.write 3 0 1 (fun _ => 1) nullBlock,
      .write 2 0 1 (fun _ => 1) nullBlock] = some (fs₂, [.estado 0, .estado 0]) := by
    simp only [Runs.run, FsOp.exec, hw₁, hw₂, Option.map_some, Option.bind_some]
  have hall := Runs.run_append hrun hrun₂
  simp only [List.cons_append, List.nil_append] at hall
  -- the blocks: 10 is that of the root, then that of file 3, then that of file 2
  have hslot : ∀ p, fs₂.slot p = if p = (1, 0) then 10 else if p = (2, 0) then fs₂.slot (2, 0)
      else if p = (3, 0) then fs₁.slot (3, 0) else 0 := by
    intro p
    by_cases h2 : p = (2, 0)
    · rw [h2]
      rfl
    rw [hp₂.slot p h2, if_neg h2]
    by_cases h3 : p = (3, 0)
    · rw [h3]
      rfl
    rw [hp₁.slot p h3, if_neg h3, hd.slot]
  obtain ⟨hylt, hyfree⟩ := fsiBmapFindFree_eq_some hp₁.bloco
  obtain ⟨hxlt, hxfree⟩ := fsiBmapFindFree_eq_some hp₂.bloco
  have hocc := hp₁.ocupado (fs₂.slot (2, 0))
  have hxfree' : fs₁.ocupado (fs₂.slot (2, 0)) = false := hxfree
  rw [hxfree', eq_comm, Bool.or_eq_false_iff, decide_eq_false_iff_not] at hocc
  have hx : 11 < fs₂.slot (2, 0) := by
    have hroot : fs.slot (1, 0) = 10 := by rw [hd.slot, if_pos rfl]
    have hy10 : fs₁.slot (3, 0) ≠ 10 := by
      have := hd.exacto.consistent.acc.slot_ne_of_free hyfree (hd.mem_emUso.mpr rfl)
      rw [hroot] at this
      exact this.symm
    have hy : 10 ≤ fs₁.slot (3, 0) := by
      refine he₁.consistent.acc.range _ (he₁.consistent.mem_emUso_iff.mpr ?_)
      rw [he₁.tamanho, lt_offsetToBlocks]
      exact Nat.lt_of_lt_of_le Nat.zero_lt_one (le_max_of_le_left (Nat.le_add_left 1 _))
    have hle := fsiBmapFindFree_le hp₁.bloco hocc.2
    have hne := hocc.1
    omega
  have hordem : fs₂.ordem ((List.range inodeNumBlks).map fun q => (1, q)) = [10] := by
    have hone : (((List.range inodeNumBlks).map fun q => (1, q)).map fs₂.slot).filter (· ≠ 0) =
        [10] := by simp [inodeNumBlks, List.range_succ, hslot]
    rw [Fs.ordem, hone]
    rfl
  have hlugar : fs₂.lugar (fs₂.slot (2, 0)) = 11 := by
    obtain ⟨rest, hrest⟩ := Fs.percurso_eq
    rw [Fs.lugar_of_append hrest (by omega) (by rw [hordem, List.mem_singleton]; omega), hordem]
    rfl
  have hsize : fs₂.sizeAt 1 = 32 ∧ fs₂.sizeAt 2 = 1 ∧ fs₂.sizeAt 3 = 1 := by
    rw [he₂.tamanho, hs₁, he₂.size 1 (by decide), he₂.size 3 (by decide), he₁.tamanho,
      he₁.size 1 (by decide), hd.raiz.2, hd.vazio 3 (by decide)]
    decide
  have hmem : ∀ i, 1 ≤ i → i ≤ 3 → (i, 0) ∈ fs₂.emUso := by
    intro i h1 h3
    refine hex₂.consistent.mem_emUso_iff.mpr ?_
    rw [lt_offsetToBlocks]
    interval_cases i <;> omega
  have hsem : fs₂.SemRestos := by
    intro p _ _ _ hp
    rw [hslot] at hp
    split_ifs at hp with h1 h2 h3
    · exact h1 ▸ hmem 1 (by decide) (by decide)
    · exact h2 ▸ hmem 2 (by decide) (by decide)
    · exact h3 ▸ hmem 3 (by decide) (by decide)
    · exact absurd rfl hp
  refine ⟨fs₂, _, hall, hex₂, hsem, ⟨10, by decide, by decide, ?_⟩, fun hdisk => ?_⟩
  · have := hex₂.consistent.acc.ocupado (hmem 1 (by decide) (by decide))
    rwa [hslot, if_pos rfl] at this
  · -- the byte is in the cache, the disk holds zeros
    have hmove : fs₂.destino (fs₂.slot (2, 0)) ≠ fs₂.slot (2, 0) := by
      rw [hex₂.consistent.destino_eq_lugar hsem]
      omega
    have hnull : fs₂.noDisco (2, 0) = nullBlock := by
      rw [Fs.noDisco, hp₂.disco _ (by omega) hxfree', hp₁.disco _ (by omega) hocc.2,
        hd.disco _ (by omega) hocc.2]
    have hbyte : fs₂.bytes 2 = [1] := by
      rw [he₂.bytes hex₁.distintos, Fs.bytes, hs₁]
      rfl
    have hone : fs₂.byteFicheiro 2 0 = 1 := by
      rw [Fs.bytes, hsize.2.1] at hbyte
      exact List.head_eq_of_cons_eq hbyte
    have hdisk₀ := hdisk 2 (by decide) 0 (by omega) ((he₂.type 2).trans ht₁) hmove
    rw [hone] at hdisk₀
    have hz : byteAt (fs₂.noDisco (2, 0)) 0 = 0 := by
      rw [hnull]
      decide
    exact absurd (hz.symm.trans hdisk₀) (by decide)

/-- A defragmentation loses the byte of a file written late. -/
theorem fsDefrag_not_preserva :
    ∃ fs rs, Runs.run FsOp.exec (fsFormat (fsNew Fs.discoServidor fun _ => 7))
        [.create 1 nomeA, .create 1 nomeB, .write 3 0 1 (fun _ => 1) nullBlock,
          .write 2 0 1 (fun _ => 1) nullBlock] = some (fs, rs) ∧
      ¬ Preserva fs (fsDefrag fs).1 := by
  obtain ⟨fs, rs, hrun, hex, hrestos, htem, hdisk⟩ := escrito_tarde fun _ => 7
  have hall : ∀ op ∈ [FsOp.create 1 nomeA, .create 1 nomeB, .write 3 0 1 (fun _ => 1) nullBlock,
      .write 2 0 1 (fun _ => 1) nullBlock], ∀ s, op.SemAnexo s := by
    simp [FsOp.SemAnexo]
  have hl := (Fs.limpos_of_run _ (Runs.permitted_of_forall hall) hrun).2
  refine ⟨fs, rs, hrun, fun hp => ?_⟩
  exact ((hex.consistent.fsDefrag_iff hl (hex.restosBaixos hrestos)).mp hp).elim
    (fun hno => hno htem) hdisk

end ThreadScheduler.SnfsServer
