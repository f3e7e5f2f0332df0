import ThreadScheduler.SnfsServer.ExactAccounts

/-!
# What a copy leaves

`fs_copy` lets the blocks of the destination go before it takes those of the source. Where the
two names lead to one i-node, the blocks that no other file names are zeroed and marked free.
-/
namespace ThreadScheduler.SnfsServer

/-- `fs_read` of a file answers the pieces of a byte string. -/
def Conteudo (fs : Fs) (i : ℕ) (s : List Byte) : Prop :=
  ∀ offset count,
    (fsRead fs i offset count).map Prod.snd = some (some ((s.drop offset).take count))

/-- The two files read what the source read, and all their blocks are marked. -/
structure Copia (fs fs' : Fs) (de para : ℕ) : Prop where
  destino : ∀ s, Conteudo fs de s → Conteudo fs' para s
  origem : ∀ s, Conteudo fs de s → Conteudo fs' de s
  marcados : ∀ i, i = de ∨ i = para → ∀ q < offsetToBlocks (fs'.sizeAt i),
    fs'.ocupado (fs'.slot (i, q)) = true

/-- The calls other than `fs_append` and `fs_defrag`; a file copied onto itself shares every
block with another file. -/
def FsOp.CopiaOk (fs : Fs) : FsOp → Prop
  | copy d₁ nome₁ d₂ nome₂ => ∀ n, fs.resolve d₁ nome₁.val = some n →
      fs.resolve d₂ nome₂.val = some n → fs.typeAt n = .fsFile → fs.Partilha n n
  | append _ _ _ _ => False
  | defrag => False
  | _ => True

theorem Conteudo.unico {fs : Fs} {i : ℕ} {s s' : List Byte} (h : Conteudo fs i s)
    (h' : Conteudo fs i s') : s = s' := by
  have he := (h 0 (max s.length s'.length)).symm.trans (h' 0 (max s.length s'.length))
  rw [List.drop_zero, List.drop_zero, List.take_of_length_le (le_max_left _ _),
    List.take_of_length_le (le_max_right _ _)] at he
  exact Option.some.inj (Option.some.inj he)

/-- The names mean what they meant. -/
theorem CopiadoEmSi.resolve {fs fs' : Fs} {i : ℕ} (hp : CopiadoEmSi fs fs' i)
    (h : fs.Consistent) (ht : fs.typeAt i = .fsFile) (d : ℕ) (m : List Byte) :
    fs'.resolve d m = fs.resolve d m := by
  simp only [Fs.resolve, hp.type]
  split
  · rename_i hd
    refine Fs.procura_congr (Fs.entradas_congr (hp.size d) fun q hq => ?_) m
    refine hp.pagina _ (h.mem_emUso_iff.mpr hq) ?_
    rintro rfl
    exact absurd (ht.symm.trans hd) (by decide)
  · rfl

namespace Fs

theorem Consistent.conteudo {fs : Fs} (h : fs.Consistent) {i : ℕ} (ht : fs.typeAt i = .fsFile) :
    Conteudo fs i (fs.bytes i) := by
  intro offset count
  obtain ⟨c, hr, -⟩ := h.fsRead_eq ht offset count
  rw [hr]
  rfl

theorem Consistent.conteudo_iff {fs : Fs} (h : fs.Consistent) {i : ℕ}
    (ht : fs.typeAt i = .fsFile) {s : List Byte} : Conteudo fs i s ↔ s = fs.bytes i :=
  ⟨fun hs => hs.unico (h.conteudo ht), fun he => he ▸ h.conteudo ht⟩

/-- The blocks of a file in use are marked. -/
theorem Consistent.ocupado_file {fs : Fs} (h : fs.Consistent) {i q : ℕ}
    (hq : q < offsetToBlocks (fs.sizeAt i)) : fs.ocupado (fs.slot (i, q)) = true :=
  h.acc.ocupado (h.mem_emUso_iff.mpr hq)

/-- The blocks of another i-node that a file names are those of files. -/
theorem Consistent.partilha_iff {fs : Fs} (h : fs.Consistent) {i : ℕ} : fs.Partilha i i ↔
      ∀ q < offsetToBlocks (fs.sizeAt i), ∃ p ∈ fs.foraDe i, fs.slot p = fs.slot (i, q) := by
  refine forall₂_congr fun q hq => exists_congr fun p => and_congr_right fun hp => ?_
  refine ⟨And.right, fun hs => ⟨?_, hs⟩⟩
  obtain ⟨hpl, hpi⟩ := Finset.mem_filter.mp hp
  -- a directory shares none of its blocks
  refine (h.acc.file_or_dir hpl).resolve_right fun hd => hpi ?_
  rw [← h.acc.dirOwn p hpl (i, q) (h.mem_emUso_iff.mpr hq) hd hs.symm]

/-- The copy between two i-nodes does what it should unless a file with a block of its own is
copied onto itself. -/
theorem Copiado.certa {fs fs' : Fs} {de para : ℕ} (h : fs.Consistent)
    (hc : Copiado fs fs' de para) : Copia fs fs' de para := by
  have htde : fs'.typeAt de = .fsFile := (hc.type de).trans hc.origem
  have htpara : fs'.typeAt para = .fsFile := (hc.type para).trans hc.destino
  refine ⟨fun s hs => ?_, fun s hs => ?_, fun i _ q hq => hc.consistent.ocupado_file hq⟩
  · rw [hc.consistent.conteudo_iff htpara, hc.bytes]
    exact (h.conteudo_iff hc.origem).mp hs
  · rw [hc.consistent.conteudo_iff htde, (h.conteudo_iff hc.origem).mp hs]
    by_cases he : de = para
    · subst he
      exact hc.bytes.symm
    · refine (bytes_congr ?_ fun q hq => ?_).symm
      · rw [hc.size, if_neg he]
      · exact hc.pagina _ (h.mem_emUso_iff.mpr hq) he

theorem Exacto.conteudo_iff_modelo {fs : Fs} (h : fs.Exacto) {i : ℕ}
    (ht : fs.typeAt i = .fsFile) {s : List Byte} : Conteudo fs i s ↔ fs.modelo i = some s := by
  rw [h.consistent.conteudo_iff ht, modelo_of_file h.consistent ht, Option.some_inj, eq_comm]

/-! ## Runs -/

/-- A copy that meets its condition keeps the state exact. -/
theorem Exacto.fsCopy {fs : Fs} (h : fs.Exacto) {d₁ d₂ : ℕ} {nome₁ nome₂ : CString}
    (hpart : FsOp.CopiaOk fs (.copy d₁ nome₁ d₂ nome₂)) :
    ∃ fs' r, fsCopy fs d₁ nome₁ d₂ nome₂ = some (fs', r) ∧ fs'.Exacto := by
  rcases h.fsCopy_spec d₁ nome₁ d₂ nome₂ hpart with
    hr | ⟨fs₁, fs', de, para, hr, -, -, hdest, hcop⟩
  · exact ⟨fs, -1, hr, h⟩
  · exact ⟨fs', 0, hr, ((h.destinoDe hdest).1.copiado hcop).1⟩

theorem Exacto.exec_copiaOk {fs : Fs} (h : fs.Exacto) {op : FsOp} (hop : op.CopiaOk fs) :
    ∃ fs' r, op.exec fs = some (fs', r) ∧ fs'.Exacto := by
  have hsem : ∀ op' : FsOp, op'.SemAnexo fs → ∃ fs' r, op'.exec fs = some (fs', r) ∧ fs'.Exacto :=
    fun op' hop' => by
      obtain ⟨fs', r, hr, hex, -⟩ := h.exec hop'
      exact ⟨fs', r, hr, hex⟩
  cases op with
  | copy d₁ nome₁ d₂ nome₂ =>
      obtain ⟨fs', r, hr, hex⟩ := h.fsCopy hop
      exact ⟨fs', _, by rw [FsOp.exec, hr, Option.map_some], hex⟩
  | append _ _ _ _ => exact absurd hop id
  | defrag => exact absurd hop id
  | create dir file => exact hsem _ trivial
  | mkdir dir newdir => exact hsem _ trivial
  | write file offset count buffer lixo => exact hsem _ trivial
  | read file offset count => exact hsem _ trivial
  | remove d nome => exact hsem _ trivial
  | actualizar intervalo => exact hsem _ trivial

end Fs

/-- In every state that calls reach which copy no file with a block of its own onto itself, a
copy that succeeds copies, unless it is one of these. -/
theorem fsCopy_copia_iff (pilha : ℕ → ℤ) (ops : List FsOp)
    (hops : Runs.Permitted FsOp.exec FsOp.CopiaOk (fsFormat (fsNew Fs.discoServidor pilha)) ops)
    {fs : Fs} {rs : List Resposta}
    (hrun : Runs.run FsOp.exec (fsFormat (fsNew Fs.discoServidor pilha)) ops = some (fs, rs))
    {d₁ d₂ : ℕ} {nome₁ nome₂ : CString} {fs' : Fs}
    (hcopy : fsCopy fs d₁ nome₁ d₂ nome₂ = some (fs', 0)) :
    ∃ de para, fs.resolve d₁ nome₁.val = some de ∧ fs.typeAt de = .fsFile ∧
      fs'.resolve d₂ nome₂.val = some para ∧
      (Copia fs fs' de para ↔ (fs.resolve d₂ nome₂.val = some de → fs.Partilha de de)) := by
  obtain ⟨fs₀, rs₀, hr₀, h⟩ := Runs.run_total (I := Fs.Exacto)
    (fun _ _ hex hop => hex.exec_copiaOk hop) (Fs.inicial_exacto pilha) hops
  obtain ⟨rfl, rfl⟩ := Prod.mk.inj (Option.some.inj (hr₀.symm.trans hrun))
  by_cases hok : FsOp.CopiaOk fs₀ (.copy d₁ nome₁ d₂ nome₂)
  · rcases h.fsCopy_spec d₁ nome₁ d₂ nome₂ hok with
      hr | ⟨fs₁, fs₂, de, para, hr, hres, htde, hdest, hcop⟩
    · cases hcopy.symm.trans hr
    · obtain ⟨rfl, -⟩ := Prod.mk.inj (Option.some.inj (hr.symm.trans hcopy))
      obtain ⟨hex₁, hpara, hkeep, hm₁⟩ := h.destinoDe hdest
      refine ⟨de, para, hres, htde, (hcop.resolve hex₁.consistent _ _).trans hpara, ?_⟩
      refine iff_of_true ?_ fun hself => hok de hres hself htde
      -- the source reads the same once the destination exists
      have hcont : ∀ s, Conteudo fs₀ de s → Conteudo fs₁ de s := fun s hs => by
        rw [hex₁.conteudo_iff_modelo hcop.origem]
        rw [h.conteudo_iff_modelo htde] at hs
        cases hdest with
        | achado hp he => rwa [he]
        | criado hc =>
            rwa [hm₁ de (hc.ne_of_alocado (h.consistent.alocado_of_type (by simp [htde])))]
      have hcerta := hcop.certa hex₁.consistent
      exact ⟨fun s hs => hcerta.destino s (hcont s hs), fun s hs => hcerta.origem s (hcont s hs),
        hcerta.marcados⟩
  · -- the two names lead to one file, some block of which no other file names
    simp only [FsOp.CopiaOk, not_forall] at hok
    obtain ⟨n, hde, hpara, ht, hno⟩ := hok
    have hr := Fs.fsCopy_of_resolve h.consistent hde ht hpara
    obtain ⟨fs₂, hself, hprop⟩ := h.consistent.copia_propria ht
    rw [hself] at hr
    obtain ⟨rfl, -⟩ := Prod.mk.inj (Option.some.inj (hr.symm.trans hcopy))
    refine ⟨n, n, hde, ht, (hprop.resolve h.consistent ht _ _).trans hpara, ?_⟩
    refine iff_of_false (fun hc => hno ?_) fun hp => hno (hp hpara)
    rw [h.consistent.partilha_iff]
    intro q hq
    rw [← hprop.ocupado q hq, ← hprop.slot]
    exact hc.marcados n (.inl rfl) q (by rwa [hprop.size])

/-- A file of one byte and its copy. -/
theorem fsCopy_copia_ficheiro :
    ∃ fs rs fs' de para, Runs.run FsOp.exec (fsFormat (fsNew Fs.discoServidor fun _ => 7))
        [.create 1 nomeA, .create 1 nomeB, .write 2 0 1 (fun _ => 1) nullBlock] = some (fs, rs) ∧
      fsCopy fs 1 nomeA 1 nomeB = some (fs', 0) ∧ Copia fs fs' de para := by
  obtain ⟨fs, hrun, hd⟩ := ficheiro_escrito fun _ => 7
  have hne : ∀ n, fs.resolve 1 nomeA.val = some n → fs.resolve 1 nomeB.val ≠ some n := by
    intro n hn
    rw [hd.nomes.1] at hn
    rw [hd.nomes.2, ← Option.some.inj hn]
    decide
  rcases hd.exacto.fsCopy_spec 1 nomeA 1 nomeB (fun n hn hb => absurd hb (hne n hn)) with
    hr | ⟨fs₁, fs', -, -, hr, -, -, -, -⟩
  · have hcopy := Fs.fsCopy_of_resolve hd.exacto.consistent hd.nomes.1 hd.ficheiro.1 hd.nomes.2
    have hpara : (fs.inodeTab 3).type = .fsFile := hd.ficheiro.2
    simp [hr, fsCopyInodes, hpara] at hcopy
  · obtain ⟨de, para, hde, -, -, hiff⟩ := fsCopy_copia_iff _ _
      (Runs.permitted_of_forall (by simp [FsOp.CopiaOk])) hrun hr
    exact ⟨fs, _, fs', de, para, hrun, hr, hiff.mpr fun hb => absurd hb (hne de hde)⟩

/-- A file of one byte copied onto itself loses its block. -/
theorem fsCopy_nao_copia :
    ∃ fs rs fs', Runs.run FsOp.exec (fsFormat (fsNew Fs.discoServidor fun _ => 7))
        [.create 1 nomeA, .create 1 nomeB, .write 2 0 1 (fun _ => 1) nullBlock] = some (fs, rs) ∧
      fsCopy fs 1 nomeA 1 nomeA = some (fs', 0) ∧ fs.resolve 1 nomeA.val = some 2 ∧
      fs'.resolve 1 nomeA.val = some 2 ∧ ¬ Copia fs fs' 2 2 := by
  obtain ⟨fs, hrun, hd⟩ := ficheiro_escrito fun _ => 7
  have hcons := hd.exacto.consistent
  obtain ⟨fs', hself, hprop⟩ := hcons.copia_propria hd.ficheiro.1
  have hcopy := Fs.fsCopy_of_resolve hcons hd.nomes.1 hd.ficheiro.1 hd.nomes.1
  rw [hself] at hcopy
  refine ⟨fs, _, _, hrun, hcopy, hd.nomes.1,
    (hprop.resolve hcons hd.ficheiro.1 _ _).trans hd.nomes.1, fun hc => ?_⟩
  have hq := hcons.lt_of_mem hd.usado
  have hocc := hc.marcados 2 (.inl rfl) 0 (by rwa [hprop.size])
  rw [hprop.slot] at hocc
  obtain ⟨p, hp, hs⟩ := (hprop.ocupado 0 hq).mp hocc
  obtain ⟨hpl, hi⟩ := Finset.mem_filter.mp hp
  refine hd.bloco (hs.symm.trans (hd.outros p hpl ?_))
  rintro rfl
  exact hi rfl

end ThreadScheduler.SnfsServer
