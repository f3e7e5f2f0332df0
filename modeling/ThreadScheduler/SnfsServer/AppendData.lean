import ThreadScheduler.SnfsServer.CopyData

/-!
# What an append leaves

`fs_append` makes the first file name the blocks of the second one after its own blocks, and
adds the two sizes. The bytes of the second file follow those of the first one where the last
block of the first file is full.
-/
namespace ThreadScheduler.SnfsServer

/-- The first file reads both contents, one after the other, and the second one what it read. -/
structure Concatena (fs fs' : Fs) (de para tamanho : ℕ) : Prop where
  primeiro : ∀ s₁ s₂, Conteudo fs de s₁ → Conteudo fs para s₂ → Conteudo fs' de (s₁ ++ s₂)
  segundo : de ≠ para → ∀ s, Conteudo fs para s → Conteudo fs' para s
  tamanho : tamanho = fs.sizeAt de + fs.sizeAt para

namespace Fs

/-- The last block of the first file is full, or what lies after the end of the file in it, and
then the second file from its start, are the bytes of the second file. -/
def Alinhado (fs : Fs) (de para : ℕ) : Prop :=
  fs.sizeAt de % blockSize = 0 ∨ ∀ k < fs.sizeAt para,
    (if k < blockSize - fs.sizeAt de % blockSize then fs.byteFicheiro de (fs.sizeAt de + k)
      else fs.byteFicheiro para (k - (blockSize - fs.sizeAt de % blockSize))) =
        fs.byteFicheiro para k

/-- `fs_append` of the files of two names. -/
theorem fsAppend_of_resolve {fs : Fs} (h : fs.Consistent) {d₁ d₂ de para : ℕ}
    {nome₁ nome₂ : CString} (hde : fs.resolve d₁ nome₁.val = some de)
    (ht : fs.typeAt de = .fsFile) (hpara : fs.resolve d₂ nome₂.val = some para) :
    fsAppend fs d₁ nome₁ d₂ nome₂ =
      if inodeNumBlks - offsetToBlocks (fs.sizeAt de) < offsetToBlocks (fs.sizeAt para) then
        some (fs, none)
      else some ((copiarReferencias fs para de (offsetToBlocks (fs.sizeAt de))
        (offsetToBlocks (fs.sizeAt para))).setSize de (fs.sizeAt de + fs.sizeAt para),
          some (fs.sizeAt de + fs.sizeAt para)) := by
  obtain ⟨hlt₁, ha₁, ht₁, hn₁, hp₁⟩ := h.of_resolve hde
  obtain ⟨-, ha₂, ht₂, hn₂, hp₂⟩ := h.of_resolve hpara
  have ht₁' : (fs.inodeTab d₁).type = .fsDir := ht₁
  have ht₂' : (fs.inodeTab d₂).type = .fsDir := ht₂
  have ht' : (fs.inodeTab de).type = .fsFile := ht
  simp [fsAppend, Nat.not_le.mpr hlt₁, hn₁, hn₂, ha₁, ha₂, ht₁', ht₂', ht',
    h.fsiDirSearch_eq ht₁ nome₁.property, h.fsiDirSearch_eq ht₂ nome₂.property, hp₁, hp₂, sizeAt]
  rfl

/-! ## The pages of the two files -/

/-- What the append leaves: the pages of the first file are its own and those of the second. -/
structure Juntado (fs fs' : Fs) (de para : ℕ) : Prop where
  type : ∀ j, fs'.typeAt j = fs.typeAt j
  alocado : ∀ j, fs'.alocado j = fs.alocado j
  size : ∀ j, fs'.sizeAt j = if j = de then fs.sizeAt de + fs.sizeAt para else fs.sizeAt j
  pagina : ∀ p, fs'.pagina p =
    if p.1 = de ∧ offsetToBlocks (fs.sizeAt de) ≤ p.2 ∧
        p.2 < offsetToBlocks (fs.sizeAt de) + offsetToBlocks (fs.sizeAt para) then
      fs.pagina (para, p.2 - offsetToBlocks (fs.sizeAt de))
    else fs.pagina p
  layout : ∃ live, (∀ p, p ∈ live ↔ p ∈ fs.emUso ∨ p.1 = de ∧ offsetToBlocks (fs.sizeAt de) ≤ p.2 ∧
      p.2 < offsetToBlocks (fs.sizeAt de) + offsetToBlocks (fs.sizeAt para)) ∧ fs'.Layout live

theorem Exacto.juntado {fs : Fs} (h : fs.Exacto) {de para : ℕ} (ht : fs.typeAt de = .fsFile)
    (htp : fs.typeAt para = .fsFile)
    (hfits : offsetToBlocks (fs.sizeAt de) + offsetToBlocks (fs.sizeAt para) ≤ inodeNumBlks) :
    Juntado fs ((copiarReferencias fs para de (offsetToBlocks (fs.sizeAt de))
      (offsetToBlocks (fs.sizeAt para))).setSize de (fs.sizeAt de + fs.sizeAt para)) de para := by
  have hc := h.consistent
  have hlt := hc.lt_of_alocado (hc.alocado_of_type (i := de) (by simp [ht]))
  obtain ⟨live, hlive, hacc, hsame, hcache, hslot⟩ := copiarReferencias_spec hc.acc para de
    (offsetToBlocks (fs.sizeAt de)) (offsetToBlocks (fs.sizeAt para)) ht
    (fun i hi => ⟨(para, i), hc.mem_emUso_iff.mpr hi, htp, rfl⟩)
    (fun i _ => by rw [hc.mem_emUso_iff]; omega) (fun he => .inr (by rw [he])) hlt hfits
    (h.distintos.cabe_live hc (Finset.Subset.refl _) htp)
  generalize copiarReferencias fs para de (offsetToBlocks (fs.sizeAt de))
    (offsetToBlocks (fs.sizeAt para)) = fs₁ at *
  constructor
  case type => exact fun j => by rw [setSize_typeAt, hsame.type]
  case alocado => exact hsame.alocado
  case size => exact fun j => by rw [setSize_sizeAt, hsame.size]
  case pagina =>
    intro p
    rw [pagina, setSize_cache, setSize_slot, hcache, hslot]
    split
    · rfl
    · rfl
  case layout =>
    exact ⟨live, hlive, hacc.toLayout.congr rfl rfl (fun p _ => setSize_typeAt _ _ _ _)
      fun p _ => setSize_slot _ _ _ _⟩

namespace Juntado

variable {fs fs' : Fs} {de para : ℕ}

/-- A file reads its bytes after the append as well. -/
theorem conteudo (hj : Juntado fs fs' de para) (h : fs.Consistent) {i : ℕ}
    (ht : fs.typeAt i = .fsFile) : Conteudo fs' i (fs'.bytes i) := by
  obtain ⟨live, hlive, hl⟩ := hj.layout
  have ha := h.alocado_of_type (i := i) (by simp [ht])
  have hblocks : ∀ q < offsetToBlocks (fs'.sizeAt i), (i, q) ∈ live := by
    intro q hq
    rw [hlive, h.mem_emUso_iff]
    rw [hj.size] at hq
    by_cases hi : i = de
    · rw [if_pos hi] at hq
      have hsum : offsetToBlocks (fs.sizeAt de + fs.sizeAt para) ≤
          offsetToBlocks (fs.sizeAt de) + offsetToBlocks (fs.sizeAt para) := by
        rw [SnfsServer.offsetToBlocks_le, Nat.mul_add]
        exact Nat.add_le_add (SnfsServer.offsetToBlocks_le.mp le_rfl)
          (SnfsServer.offsetToBlocks_le.mp le_rfl)
      subst hi
      by_cases hlow : q < offsetToBlocks (fs.sizeAt i)
      · exact .inl hlow
      · exact .inr ⟨rfl, Nat.le_of_not_lt hlow, Nat.lt_of_lt_of_le hq hsum⟩
    · rw [if_neg hi] at hq
      exact .inl hq
  intro offset count
  obtain ⟨c, hr, -⟩ := hl.fsRead_eq (h.lt_of_alocado ha) ((hj.alocado i).trans ha)
    ((hj.type i).trans ht) hblocks offset count
  rw [hr]
  rfl

theorem bytes_outro (hj : Juntado fs fs' de para) {i : ℕ} (hi : i ≠ de) :
    fs'.bytes i = fs.bytes i := by
  refine bytes_congr (by rw [hj.size, if_neg hi]) fun q _ => ?_
  rw [hj.pagina, if_neg fun he => hi he.1]

theorem byte_proprio (hj : Juntado fs fs' de para) {k : ℕ}
    (hk : k / blockSize < offsetToBlocks (fs.sizeAt de)) :
    fs'.byteFicheiro de k = fs.byteFicheiro de k := by
  rw [byteFicheiro, byteFicheiro, hj.pagina, if_neg fun he => absurd he.2.1 (Nat.not_le.mpr hk)]

theorem byte_anexo (hj : Juntado fs fs' de para) {k : ℕ} (hk : k < fs.sizeAt para) :
    fs'.byteFicheiro de (blockSize * offsetToBlocks (fs.sizeAt de) + k) =
      fs.byteFicheiro para k := by
  have hq : k / blockSize < offsetToBlocks (fs.sizeAt para) := by
    rw [lt_offsetToBlocks]
    exact (Nat.mul_div_le k blockSize).trans_lt hk
  rw [byteFicheiro, byteFicheiro, Nat.mul_add_div (by decide : 0 < blockSize),
    Nat.mul_add_mod, hj.pagina,
    if_pos ⟨rfl, Nat.le_add_right _ _, Nat.add_lt_add_left hq _⟩, Nat.add_sub_cancel_left]

/-- The bytes after the end of the first file: those left in its last block, then those of the
second file. -/
theorem byte_novo (hj : Juntado fs fs' de para) {k : ℕ} (hk : k < fs.sizeAt para) :
    fs'.byteFicheiro de (fs.sizeAt de + k) =
      if fs.sizeAt de % blockSize = 0 then fs.byteFicheiro para k
      else if k < blockSize - fs.sizeAt de % blockSize then fs.byteFicheiro de (fs.sizeAt de + k)
      else fs.byteFicheiro para (k - (blockSize - fs.sizeAt de % blockSize)) := by
  split
  · rename_i h0
    have hfull : fs.sizeAt de = blockSize * offsetToBlocks (fs.sizeAt de) := by
      simp only [offsetToBlocks, blockSize] at h0 ⊢
      simp only [h0, Nat.lt_irrefl, if_false]
      omega
    rw [hfull]
    exact hj.byte_anexo hk
  rename_i h0
  have hn : offsetToBlocks (fs.sizeAt de) = fs.sizeAt de / blockSize + 1 := by
    rw [offsetToBlocks, if_pos (Nat.pos_of_ne_zero h0)]
  split
  · rename_i hlow
    refine hj.byte_proprio ?_
    rw [hn]
    simp only [blockSize] at hlow ⊢
    omega
  · rename_i hhigh
    have hsplit : fs.sizeAt de + k = blockSize * offsetToBlocks (fs.sizeAt de) +
        (k - (blockSize - fs.sizeAt de % blockSize)) := by
      rw [hn]
      simp only [blockSize] at hhigh ⊢
      omega
    rw [hsplit]
    exact hj.byte_anexo (by omega)

theorem bytes_iff (hj : Juntado fs fs' de para) :
    fs'.bytes de = fs.bytes de ++ fs.bytes para ↔ fs.Alinhado de para := by
  have hold : (List.range (fs.sizeAt de)).map (fs'.byteFicheiro de) = fs.bytes de := by
    refine List.map_congr_left fun k hk => hj.byte_proprio ?_
    rw [lt_offsetToBlocks]
    exact (Nat.mul_div_le k blockSize).trans_lt (List.mem_range.mp hk)
  have hnew : fs'.bytes de = fs.bytes de ++ (List.range (fs.sizeAt para)).map
      fun k => fs'.byteFicheiro de (fs.sizeAt de + k) := by
    rw [Fs.bytes, hj.size, if_pos rfl, List.range_add, List.map_append, hold, List.map_map]
    rfl
  have hiff : (List.range (fs.sizeAt para)).map (fun k => fs'.byteFicheiro de (fs.sizeAt de + k)) =
      fs.bytes para ↔ ∀ k < fs.sizeAt para,
        fs'.byteFicheiro de (fs.sizeAt de + k) = fs.byteFicheiro para k := by
    rw [Fs.bytes, List.map_inj_left]
    exact forall_congr' fun k => by rw [List.mem_range]
  rw [hnew, List.append_cancel_left_eq, hiff, Alinhado]
  by_cases h0 : fs.sizeAt de % blockSize = 0
  · refine iff_of_true (fun k hk => ?_) (.inl h0)
    rw [hj.byte_novo hk, if_pos h0]
  · rw [or_iff_right h0]
    refine forall₂_congr fun k hk => ?_
    rw [hj.byte_novo hk, if_neg h0]

theorem concatena_iff (hj : Juntado fs fs' de para) (h : fs.Consistent)
    (ht : fs.typeAt de = .fsFile) (htp : fs.typeAt para = .fsFile) :
    Concatena fs fs' de para (fs.sizeAt de + fs.sizeAt para) ↔ fs.Alinhado de para := by
  rw [← hj.bytes_iff]
  refine ⟨fun hc => ?_, fun he => ⟨fun s₁ s₂ h₁ h₂ => ?_, fun hne s hs => ?_, rfl⟩⟩
  · exact (hj.conteudo h ht).unico (hc.primeiro _ _ (h.conteudo ht) (h.conteudo htp))
  · rw [(h.conteudo_iff ht).mp h₁, (h.conteudo_iff htp).mp h₂, ← he]
    exact hj.conteudo h ht
  · rw [(h.conteudo_iff htp).mp hs, ← hj.bytes_outro hne.symm]
    exact hj.conteudo h htp

end Juntado

end Fs

/-- In every state that calls reach which append nothing and copy no file onto itself, an append
of two files that succeeds concatenates them exactly where the last block of the first one is
full or holds the right bytes. -/
theorem fsAppend_concatena_iff (pilha : ℕ → ℤ) (ops : List FsOp)
    (hops : Runs.Permitted FsOp.exec FsOp.SemAnexo (fsFormat (fsNew Fs.discoServidor pilha)) ops)
    {fs : Fs} {rs : List Resposta}
    (hrun : Runs.run FsOp.exec (fsFormat (fsNew Fs.discoServidor pilha)) ops = some (fs, rs))
    {d₁ d₂ de para : ℕ} {nome₁ nome₂ : CString} (hde : fs.resolve d₁ nome₁.val = some de)
    (ht : fs.typeAt de = .fsFile) (hpara : fs.resolve d₂ nome₂.val = some para)
    (htp : fs.typeAt para = .fsFile) {fs' : Fs} {tamanho : ℕ}
    (happ : fsAppend fs d₁ nome₁ d₂ nome₂ = some (fs', some tamanho)) :
    Concatena fs fs' de para tamanho ↔ fs.Alinhado de para := by
  obtain ⟨fs₀, rs₀, hr₀, h⟩ := Fs.exacto_of_run pilha hops
  obtain ⟨rfl, rfl⟩ := Prod.mk.inj (Option.some.inj (hr₀.symm.trans hrun))
  rw [Fs.fsAppend_of_resolve h.consistent hde ht hpara] at happ
  split at happ
  · cases happ
  · rename_i hfits
    obtain ⟨rfl, rfl⟩ : _ ∧ fs₀.sizeAt de + fs₀.sizeAt para = tamanho := by
      simpa only [Option.some.injEq, Prod.mk.injEq] using happ
    have hle := h.consistent.offsetToBlocks_le de
    exact (h.juntado ht htp (by omega)).concatena_iff h.consistent ht htp

/-- A file of a whole block, and a copy of a file of two bytes. -/
def chamadasInteiras : List FsOp :=
  [.create 1 nomeA, .write 2 0 512 (fun _ => 1) nullBlock, .create 1 nomeC,
    .write 3 0 2 (fun k => BitVec.ofNat 8 (k + 1)) nullBlock, .copy 1 nomeC 1 nomeB]

set_option maxRecDepth 100000 in
/-- Two bytes appended to a file of a whole block follow its 512 bytes. -/
theorem fsAppend_concatena_inteiro :
    ∃ fs rs fs' tamanho, Runs.run FsOp.exec (fsFormat (fsNew Fs.discoServidor fun _ => 7))
        chamadasInteiras = some (fs, rs) ∧
      fsAppend fs 1 nomeA 1 nomeB = some (fs', some tamanho) ∧ tamanho = 514 ∧
      fs.bytes 4 = [1, 2] ∧ Concatena fs fs' 2 4 tamanho := by
  have hops : Runs.Permitted FsOp.exec FsOp.SemAnexo
      (fsFormat (fsNew Fs.discoServidor fun _ => 7)) chamadasInteiras := by
    rw [Fs.fsFormat_eq_formatado]
    decide +kernel
  obtain ⟨fs, rs, hrun, ⟨hA, htA, hsA⟩, ⟨hB, htB, hbytes⟩, happ⟩ : ∃ fs rs,
      Runs.run FsOp.exec (fsFormat (fsNew Fs.discoServidor fun _ => 7)) chamadasInteiras =
        some (fs, rs) ∧
      (fs.resolve 1 nomeA.val = some 2 ∧ fs.typeAt 2 = .fsFile ∧ fs.sizeAt 2 = 512) ∧
      (fs.resolve 1 nomeB.val = some 4 ∧ fs.typeAt 4 = .fsFile ∧ fs.bytes 4 = [1, 2]) ∧
      (fsAppend fs 1 nomeA 1 nomeB).map Prod.snd = some (some 514) := by
    rw [Fs.fsFormat_eq_formatado]
    exact Runs.exists_run_of_any (by decide +kernel)
  obtain ⟨⟨fs', tamanho⟩, hfs', htam⟩ := Option.map_eq_some_iff.mp happ
  obtain rfl : tamanho = some 514 := htam
  refine ⟨fs, rs, fs', 514, hrun, hfs', rfl, hbytes, ?_⟩
  refine (fsAppend_concatena_iff _ _ hops hrun hA htA hB htB hfs').mpr (.inl ?_)
  rw [hsA]
  decide

/-- Two bytes appended to a file of 511: after these comes the byte that their block holds past
the end, and then the first of the two. -/
theorem fsAppend_nao_concatena :
    ∃ fs rs fs' tamanho, Runs.run FsOp.exec (fsFormat (fsNew Fs.discoServidor fun _ => 7))
        [.create 1 nomeA, .create 1 nomeB, .write 2 0 511 (fun _ => 1) nullBlock,
          .write 3 0 2 (fun k => BitVec.ofNat 8 (k + 1)) nullBlock] = some (fs, rs) ∧
      fs.resolve 1 nomeA.val = some 2 ∧ fs.resolve 1 nomeB.val = some 3 ∧
      fsAppend fs 1 nomeA 1 nomeB = some (fs', some tamanho) ∧
      ¬ Concatena fs fs' 2 3 tamanho := by
  obtain ⟨fs, hrun, hd⟩ := dois_ficheiros fun _ => 7
  obtain ⟨fs₁, hw₁, -, he₁⟩ := Fs.fsWrite_vazio hd.exacto.consistent hd.ficheiro.1
    (hd.vazio 2 (by decide)) (by decide : 0 < 511) (by decide) (fun _ => 1) nullBlock
  have hex₁ := (hd.exacto.escrito he₁).1
  have ht₁ : fs₁.typeAt 3 = .fsFile := (he₁.type 3).trans hd.ficheiro.2
  have hs₁ : fs₁.sizeAt 3 = 0 := (he₁.size 3 (by decide)).trans (hd.vazio 3 (by decide))
  obtain ⟨fs₂, hw₂, -, he₂⟩ := Fs.fsWrite_vazio hex₁.consistent ht₁ hs₁ Nat.two_pos (by decide)
    (fun k => BitVec.ofNat 8 (k + 1)) nullBlock
  have hex₂ := (hex₁.escrito he₂).1
  have hrun₂ : Runs.run FsOp.exec fs [.write 2 0 511 (fun _ => 1) nullBlock,
      .write 3 0 2 (fun k => BitVec.ofNat 8 (k + 1)) nullBlock] =
        some (fs₂, [.estado 0, .estado 0]) := by
    simp only [Runs.run, FsOp.exec, hw₁, hw₂, Option.map_some, Option.bind_some]
  have hall := Runs.run_append hrun hrun₂
  simp only [List.cons_append, List.nil_append] at hall
  have hent : fs₂.entradas 1 = fs.entradas 1 := by
    have hraiz : ∀ q < offsetToBlocks (fs.sizeAt 1), (1, q) ∈ fs.emUso := fun q hq =>
      hd.exacto.consistent.mem_emUso_iff.mpr hq
    have h₁ : fs₁.entradas 1 = fs.entradas 1 :=
      Fs.entradas_congr (he₁.size 1 (by decide)) fun q hq => he₁.pagina _ (hraiz q hq) (by simp)
    refine (Fs.entradas_congr (he₂.size 1 (by decide)) fun q hq => he₂.pagina _ ?_ (by simp)).trans
      h₁
    exact hex₁.consistent.mem_emUso_iff.mpr hq
  have hres : ∀ nome, fs₂.resolve 1 nome = fs.procura 1 nome := fun nome => by
    rw [Fs.resolve_of_dir (((he₂.type 1).trans (he₁.type 1)).trans hd.raiz.1), Fs.procura, hent]
    rfl
  have hA : fs₂.resolve 1 nomeA.val = some 2 := by
    rw [hres, Fs.procura, hd.entradas]
    rfl
  have hB : fs₂.resolve 1 nomeB.val = some 3 := by
    rw [hres, Fs.procura, hd.entradas]
    rfl
  have ht₂ : fs₂.typeAt 2 = .fsFile := ((he₂.type 2).trans (he₁.type 2)).trans hd.ficheiro.1
  have ht₃ : fs₂.typeAt 3 = .fsFile := (he₂.type 3).trans ht₁
  have hs₂ : fs₂.sizeAt 2 = 511 := by
    rw [he₂.size 2 (by decide), he₁.tamanho, hd.vazio 2 (by decide)]
    rfl
  have hs₃ : fs₂.sizeAt 3 = 2 := by
    rw [he₂.tamanho, hs₁]
    rfl
  have happ := Fs.fsAppend_of_resolve hex₂.consistent hA ht₂ hB
  rw [hs₂, hs₃, if_neg (by decide)] at happ
  refine ⟨fs₂, _, _, _, hall, hA, hB, happ, fun hc => ?_⟩
  -- the second byte of `b` would have to be the first one
  have hbytes : fs₂.bytes 3 = [1, 2] := by
    rw [he₂.bytes hex₁.distintos, Fs.bytes, hs₁]
    rfl
  have hj := hex₂.juntado ht₂ ht₃ (by rw [hs₂, hs₃]; decide)
  rw [hs₂, hs₃] at hj
  have hal := (hj.concatena_iff hex₂.consistent ht₂ ht₃).mp (by rwa [hs₂, hs₃])
  rw [Fs.Alinhado, hs₂, hs₃] at hal
  have h01 : fs₂.byteFicheiro 3 0 = 1 ∧ fs₂.byteFicheiro 3 1 = 2 := by
    rw [Fs.bytes, hs₃] at hbytes
    simpa [List.range_succ] using hbytes
  have hone := (hal.resolve_left (by decide)) 1 (by decide)
  rw [if_neg (by decide), h01.2] at hone
  have hzero : fs₂.byteFicheiro 3 0 = 2 := hone
  rw [h01.1] at hzero
  exact absurd hzero (by decide)

end ThreadScheduler.SnfsServer
