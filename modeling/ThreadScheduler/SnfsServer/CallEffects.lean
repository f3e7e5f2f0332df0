import ThreadScheduler.SnfsServer.Refinement

/-!
# What a call does

One case analysis for the calls other than `fs_append` and `fs_defrag`: an invariant of the runs
is proved over the ways in which a call can change the state.
-/
namespace ThreadScheduler.SnfsServer

open Fs

/-- The state after a call that leaves the state exact. -/
inductive Mudanca (fs : Fs) : FsOp → Fs → Prop
  | igual (op : FsOp) : Mudanca fs op fs
  | cache (op : FsOp) {c : CacheT} (hc : c.conteudo = fs.cache.conteudo) :
      Mudanca fs op (fs.withCache c)
  | criado (op : FsOp) {tipo : FsItype} {fs' : Fs} {d n : ℕ} {nome : List Byte}
      (htipo : tipo ≠ .unset) (h : Criado tipo fs fs' d nome n) : Mudanca fs op fs'
  | escrito {fs' : Fs} {file offset count : ℕ} {buffer : ℕ → Byte} {lixo : Block}
      (h : Escrito fs fs' file offset count buffer) :
      Mudanca fs (.write file offset count buffer lixo) fs'
  | copiado {fs₁ fs' : Fs} {d₁ d₂ de para : ℕ} {nome₁ nome₂ : CString}
      (hd : DestinoDe fs fs₁ d₂ nome₂.val para) (hex : fs₁.Exacto) (h : Copiado fs₁ fs' de para) :
      Mudanca fs (.copy d₁ nome₁ d₂ nome₂) fs'
  | removido {fs' : Fs} {d n : ℕ} {nome : CString} (h : Removido fs fs' d nome.val n) :
      Mudanca fs (.remove d nome) fs'

namespace Fs

theorem Exacto.exec_com_mudanca {fs : Fs} (h : fs.Exacto) {op : FsOp} (hop : op.SemAnexo fs) :
    ∃ fs' r, op.exec fs = some (fs', r) ∧ Mudanca fs op fs' := by
  have hcons := h.consistent
  cases op with
  | create dir file =>
      rcases fsCriar_spec hcons .fsFile (by decide) dir file with ⟨hr, -⟩ | ⟨fs', n, hr, hc⟩
      · exact ⟨fs, .inode none, by simp [FsOp.exec, fsCreate, hr], .igual _⟩
      · exact ⟨fs', .inode (some n), by simp [FsOp.exec, fsCreate, hr], .criado _ (by decide) hc⟩
  | mkdir dir newdir =>
      rcases fsCriar_spec hcons .fsDir (by decide) dir newdir with ⟨hr, -⟩ | ⟨fs', n, hr, hc⟩
      · exact ⟨fs, .inode none, by simp [FsOp.exec, fsMkdir, hr], .igual _⟩
      · exact ⟨fs', .inode (some n), by simp [FsOp.exec, fsMkdir, hr], .criado _ (by decide) hc⟩
  | write file offset count buffer lixo =>
      rcases fsWrite_spec hcons file offset count buffer lixo with ⟨hr, -⟩ | ⟨fs', hr, hw⟩
      · exact ⟨fs, .estado (-1), by simp [FsOp.exec, hr], .igual _⟩
      · exact ⟨fs', .estado 0, by simp [FsOp.exec, hr], .escrito hw⟩
  | read file offset count =>
      by_cases ht : fs.typeAt file = .fsFile
      · obtain ⟨c, hr, -, hc⟩ := hcons.fsRead_eq ht offset count
        exact ⟨_, _, by rw [FsOp.exec, hr, Option.map_some], .cache _ hc⟩
      · refine ⟨fs, .lido none, ?_, .igual _⟩
        have ht' : (fs.inodeTab file).type ≠ .fsFile := ht
        simp only [FsOp.exec, fsRead, ht', ne_eq, not_false_eq_true, if_true]
        split_ifs <;> rfl
  | copy d₁ nome₁ d₂ nome₂ =>
      rcases h.fsCopy_spec d₁ nome₁ d₂ nome₂ (fun n h₁ h₂ => absurd h₂ (hop n h₁)) with
        hr | ⟨fs₁, fs', de, para, hr, -, -, hdest, hcop⟩
      · exact ⟨fs, _, by rw [FsOp.exec, hr, Option.map_some], .igual _⟩
      · exact ⟨fs', _, by rw [FsOp.exec, hr, Option.map_some],
          .copiado hdest (h.destinoDe hdest).1 hcop⟩
  | remove d nome =>
      rcases fsRemove_spec hcons d nome with ⟨hr, -⟩ | ⟨fs', n, hr, hrem⟩
      · exact ⟨fs, .inode none, by simp [FsOp.exec, hr], .igual _⟩
      · exact ⟨fs', .inode (some n), by simp [FsOp.exec, hr], .removido hrem⟩
  | append _ _ _ _ => exact absurd hop id
  | defrag => exact absurd hop id
  | actualizar intervalo =>
      exact ⟨_, _, rfl,
        .cache _ (funext (actualizarCache_settled hcons.acc.coherent intervalo).conteudo)⟩

/-- Every call that is permitted has one of these effects. -/
theorem Exacto.exec_mudanca {fs : Fs} (h : fs.Exacto) {op : FsOp} (hop : op.SemAnexo fs)
    {fs' : Fs} {r : Resposta} (hexec : op.exec fs = some (fs', r)) :
    fs'.Exacto ∧ Mudanca fs op fs' := by
  obtain ⟨fs₁, r₁, hr₁, hex, -⟩ := h.exec hop
  obtain ⟨rfl, -⟩ := Prod.mk.inj (Option.some.inj (hr₁.symm.trans hexec))
  obtain ⟨fs₂, r₂, hr₂, hef⟩ := h.exec_com_mudanca hop
  obtain ⟨rfl, -⟩ := Prod.mk.inj (Option.some.inj (hr₂.symm.trans hexec))
  exact ⟨hex, hef⟩

/-- An invariant that every effect keeps holds after every run. -/
theorem invariante_of_run {I : Fs → Prop} {P : Fs → FsOp → Prop}
    (hP : ∀ fs op, P fs op → op.SemAnexo fs)
    (hstep : ∀ fs op fs', fs.Exacto → I fs → P fs op → fs'.Exacto → Mudanca fs op fs' → I fs')
    (pilha : ℕ → ℤ) (hinit : I (inicial pilha)) {ops : List FsOp}
    (hops : Runs.Permitted FsOp.exec P (inicial pilha) ops) {fs : Fs} {rs : List Resposta}
    (hrun : Runs.run FsOp.exec (inicial pilha) ops = some (fs, rs)) : fs.Exacto ∧ I fs := by
  refine Runs.run_invariant (I := fun fs => fs.Exacto ∧ I fs) (fun s a s' o hI hp hs => ?_)
    ⟨inicial_exacto pilha, hinit⟩ hops hrun
  obtain ⟨hex, hef⟩ := hI.1.exec_mudanca (hP _ _ hp) hs
  exact ⟨hex, hstep _ _ _ hI.1 hI.2 hp hex hef⟩

end Fs

end ThreadScheduler.SnfsServer
