import ThreadScheduler.SnfsServer.AppendData
import ThreadScheduler.SnfsServer.DirectoryBlocks
import ThreadScheduler.SnfsServer.FailedCalls

/-!
# Runs that keep directory blocks to themselves

The calls whose references fit the counters, whose blocks have bits, and whose appends take the
blocks of files leave no block to both a directory and a file. `fs_append` itself does not look at
the type of its second operand, and gives a file the blocks of a directory.
-/
namespace ThreadScheduler.SnfsServer

open Fs

/-- No block is named by a slot in use of a directory and by one of a file. -/
def Fs.Separado (fs : Fs) : Prop :=
  ∀ p ∈ fs.emUso, ∀ p' ∈ fs.emUso, fs.typeAt p.1 = .fsDir → fs.typeAt p'.1 = .fsFile →
    fs.slot p' ≠ fs.slot p

/-- The calls other than `fs_defrag` that take no block past the bitmap, count no reference past
127 and append no directory, with copies between different i-nodes. -/
def FsOp.Separa (fs : Fs) : FsOp → Prop
  | .create dir file => fs.CabePagina dir file
  | .mkdir dir newdir => fs.CabePagina dir newdir
  | .write file offset count _ _ => fs.CabeEscrita file offset count
  | .copy d₁ nome₁ d₂ nome₂ => ∀ de, AdmiteNomes fs d₁ nome₁ d₂ nome₂ de → fs.CabeCopia de d₂ nome₂
  | .append d₁ nome₁ d₂ nome₂ => ∀ de para, AdmiteNomes fs d₁ nome₁ d₂ nome₂ de →
      fs.encontra d₂ nome₂.val = some para → fs.CabeAnexo de para
  | .defrag => False
  | _ => True

namespace Fs.Coberto

variable {fs fs' : Fs}

theorem separado (h : fs.Coberto) : fs.Separado :=
  fun _ hp _ hp' ht ht' => h.contido.apart hp hp' ht ht'

theorem exec (h : fs.Coberto) {op : FsOp} (hop : op.Separa fs) {r : Resposta}
    (hr : op.exec fs = some (fs', r)) : fs'.Coberto := by
  cases op with
  | create dir file =>
      obtain ⟨⟨fs₁, n⟩, hs, he⟩ := Option.map_eq_some_iff.mp hr
      obtain ⟨rfl, -⟩ := Prod.mk.inj he
      exact h.criar hop hs
  | mkdir dir newdir =>
      obtain ⟨⟨fs₁, n⟩, hs, he⟩ := Option.map_eq_some_iff.mp hr
      obtain ⟨rfl, -⟩ := Prod.mk.inj he
      exact h.criar hop hs
  | write file offset count buffer lixo =>
      obtain ⟨⟨fs₁, n⟩, hs, he⟩ := Option.map_eq_some_iff.mp hr
      obtain ⟨rfl, -⟩ := Prod.mk.inj he
      exact h.escrever hop hs
  | read file offset count =>
      obtain ⟨⟨fs₁, n⟩, hs, he⟩ := Option.map_eq_some_iff.mp hr
      obtain ⟨rfl, -⟩ := Prod.mk.inj he
      exact h.ler hs
  | copy d₁ nome₁ d₂ nome₂ =>
      obtain ⟨⟨fs₁, n⟩, hs, he⟩ := Option.map_eq_some_iff.mp hr
      obtain ⟨rfl, -⟩ := Prod.mk.inj he
      exact h.copia hop hs
  | remove dir nome =>
      obtain ⟨⟨fs₁, n⟩, hs, he⟩ := Option.map_eq_some_iff.mp hr
      obtain ⟨rfl, -⟩ := Prod.mk.inj he
      exact h.remover hs
  | append d₁ nome₁ d₂ nome₂ =>
      obtain ⟨⟨fs₁, n⟩, hs, he⟩ := Option.map_eq_some_iff.mp hr
      obtain ⟨rfl, -⟩ := Prod.mk.inj he
      exact h.anexar hop hs
  | defrag => exact hop.elim
  | actualizar intervaloTempo =>
      obtain ⟨rfl, -⟩ := Prod.mk.inj (Option.some.inj hr)
      exact h.withCache (actualizarCache_numBlocks fs.cache intervaloTempo)

/-- A formatted disk has no slot in use. -/
theorem formatado (numBlocks : ℕ) (pilha : ℕ → ℤ) : (fsFormat (fsNew numBlocks pilha)).Coberto := by
  have hmedido := formatado_medido numBlocks pilha
  obtain ⟨c, -, -, -, href, hocc, hal, -, htab⟩ := fsFormat_spec pilha numBlocks
  generalize fsFormat (fsNew numBlocks pilha) = fs at *
  have hsize : ∀ i, fs.sizeAt i = 0 := fun i => by rw [sizeAt, htab]; rfl
  have hslot : ∀ p, fs.slot p = 0 := fun p => by rw [slot, htab]; rfl
  have htype : ∀ i, fs.typeAt i = if i = 1 then .fsDir else .unset := fun i => by
    rw [typeAt, htab]
    rfl
  have huso : fs.emUso = ∅ := by
    ext ⟨i, q⟩
    simp [mem_emUso, hsize]
  refine ⟨?_, fun i ha => ?_, fun i ha => ?_, fun i _ => hsize i, fun d _ => ?_, fun d _ q _ =>
    hslot _, hmedido⟩
  · rw [huso]
    refine ⟨by simp, by simp, by simp, by simp, by simp, by simp, by simp, fun b => ?_, fun b => ?_,
      fun b _ => href b, fun b hb => ⟨?_, href b⟩⟩
    · rw [href, fileSlots, Finset.filter_empty, Finset.card_empty]
      exact le_rfl
    · rw [href]
      decide
    · rw [hocc, decide_eq_true hb]
  · rw [hal, decide_eq_true_eq] at ha
    exact ha.trans (by decide)
  · rw [hal, decide_eq_false_iff_not] at ha
    rw [htype, if_neg (by omega)]
  · rw [hsize]
    exact Nat.dvd_zero 16

end Fs.Coberto

/-- In the runs whose blocks have bits, whose references fit and whose appends take no directory,
the blocks of directories are not those of files. -/
theorem directorios_separados {numBlocks : ℕ} (pilha : ℕ → ℤ) (ops : List FsOp) (fs : Fs)
    (rs : List Resposta)
    (hP : Runs.Permitted FsOp.exec FsOp.Separa (fsFormat (fsNew numBlocks pilha)) ops)
    (hrun : Runs.run FsOp.exec (fsFormat (fsNew numBlocks pilha)) ops = some (fs, rs)) :
    fs.Separado :=
  (Runs.run_invariant (fun _ _ _ _ h hop hr => h.exec hop hr) (Coberto.formatado numBlocks pilha) hP
    hrun).separado

/-! ## A run with copies and appends -/

/-- A call on a disk whose blocks all have bits that copies or appends another file, whose blocks
have room for the references. -/
def FsOp.SeparaAvaliado (fs : Fs) : FsOp → Prop
  | .create _ _ | .mkdir _ _ | .write _ _ _ _ _ => fs.numBlocks ≤ bmapBits
  | .copy d₁ nome₁ d₂ nome₂ => fs.numBlocks ≤ bmapBits ∧ ∀ de ∈ fs.encontra d₁ nome₁.val,
      fs.encontra d₂ nome₂.val ≠ some de ∧ fs.CabeNosSlots de
  | .append _ _ d₂ nome₂ => ∀ para ∈ fs.encontra d₂ nome₂.val,
      fs.typeAt para ≠ .fsDir ∧ fs.CabeNosSlots para
  | .defrag => False
  | _ => True

instance (fs : Fs) (op : FsOp) : Decidable (op.SeparaAvaliado fs) :=
  match op with
  | .create _ _ | .mkdir _ _ | .write _ _ _ _ _ =>
      inferInstanceAs (Decidable (fs.numBlocks ≤ bmapBits))
  | .copy d₁ nome₁ d₂ nome₂ => inferInstanceAs (Decidable (fs.numBlocks ≤ bmapBits ∧
      ∀ de ∈ fs.encontra d₁ nome₁.val, fs.encontra d₂ nome₂.val ≠ some de ∧ fs.CabeNosSlots de))
  | .append _ _ d₂ nome₂ => inferInstanceAs (Decidable (∀ para ∈ fs.encontra d₂ nome₂.val,
      fs.typeAt para ≠ .fsDir ∧ fs.CabeNosSlots para))
  | .defrag => isFalse id
  | .read _ _ _ | .remove _ _ | .actualizar _ => isTrue trivial

theorem Fs.Coberto.separa {fs : Fs} (h : fs.Coberto) {op : FsOp} (hop : op.SeparaAvaliado fs) :
    op.Separa fs := by
  cases op with
  | create dir file => exact fun _ _ _ _ _ => .inl hop
  | mkdir dir newdir => exact fun _ _ _ _ _ => .inl hop
  | write file offset count buffer lixo => exact fun _ _ => .inl hop
  | copy d₁ nome₁ d₂ nome₂ =>
      intro de hadm
      obtain ⟨hne, hcabe⟩ := hop.2 de hadm.achado
      have hrefs := hcabe.cabe h.contido.char
      cases hpara : fs.encontra d₂ nome₂.val with
      | some para =>
          rw [CabeCopia, hpara]
          refine fun _ => ⟨fun he => hne (hpara.trans (congrArg some he.symm)), fun b => ?_⟩
          have := hrefs b
          omega
      | none =>
          rw [CabeCopia, hpara]
          exact fun _ _ _ _ => ⟨fun _ => .inl hop.1, hrefs⟩
  | append d₁ nome₁ d₂ nome₂ =>
      intro de para _ hpara _
      obtain ⟨ht, hcabe⟩ := hop para hpara
      exact ⟨fun hdir => ht hdir.1, hcabe.cabe h.contido.char⟩
  | defrag => exact hop.elim
  | read => trivial
  | remove => trivial
  | actualizar => trivial

/-- A file is written and copied into a directory, the copy is written to and appended to the file,
and the file is copied over the copy. -/
def chamadasSeparadas : List FsOp :=
  [.mkdir 1 nomeB, .create 1 nomeA, .write 3 0 3 (fun _ => 1) nullBlock, .copy 1 nomeA 2 nomeC,
    .write 4 0 1 (fun _ => 2) nullBlock, .append 1 nomeA 2 nomeC, .copy 1 nomeA 2 nomeC]

set_option maxRecDepth 100000 in
/-- On a disk of sixteen blocks the directories keep 10 and 12, and the files name 11. -/
theorem directorios_separados_chamadas :
    ∃ fs rs, Runs.run FsOp.exec (fsFormat (fsNew 16 fun _ => 7)) chamadasSeparadas =
        some (fs, rs) ∧
      (fs.typeAt 2 = .fsDir ∧ (2, 0) ∈ fs.emUso ∧ fs.slot (2, 0) = 12) ∧
      (fs.typeAt 4 = .fsFile ∧ (4, 0) ∈ fs.emUso ∧ fs.slot (4, 0) = 11) ∧ fs.Separado := by
  have hops : Runs.Permitted FsOp.exec FsOp.SeparaAvaliado (fsFormat (fsNew 16 fun _ => 7))
      chamadasSeparadas := by
    rw [fsFormat_eq_formatado]
    decide +kernel
  have hsepara := Runs.Permitted.of_invariant (I := Coberto) (fun _ _ hI hop => hI.separa hop)
    (fun _ _ _ _ hI hop he => hI.exec (hI.separa hop) he) (Coberto.formatado _ _) hops
  obtain ⟨fs, rs, hrun, hdir, hfile⟩ : ∃ fs rs,
      Runs.run FsOp.exec (fsFormat (fsNew 16 fun _ => 7)) chamadasSeparadas = some (fs, rs) ∧
      (fs.typeAt 2 = .fsDir ∧ (2, 0) ∈ fs.emUso ∧ fs.slot (2, 0) = 12) ∧
      (fs.typeAt 4 = .fsFile ∧ (4, 0) ∈ fs.emUso ∧ fs.slot (4, 0) = 11) := by
    rw [fsFormat_eq_formatado]
    exact Runs.exists_run_of_any (by decide +kernel)
  exact ⟨fs, rs, hrun, hdir, hfile, directorios_separados _ _ fs _ hsepara hrun⟩

/-- A file that a directory is appended to takes its page. -/
theorem directorio_anexado :
    ∃ fs rs, Runs.run FsOp.exec (fsFormat (fsNew discoServidor fun _ => 7))
        [.mkdir 1 nomeB, .create 2 nomeA, .create 1 nomeA, .append 1 nomeA 1 nomeB] =
          some (fs, rs) ∧
      ¬fs.Separado := by
  have h₀ := inicial_consistent fun _ => 7
  obtain ⟨-, -, -, -, -, -, hal, -, htab⟩ := inicial_spec fun _ => 7
  have hroot := h₀.inodes.root.2
  have hnil := inicial_entradas (fun _ => 7) 1
  have hsize₀ : ∀ i, (inicial fun _ => 7).sizeAt i = 0 := fun i => by rw [sizeAt, htab]; rfl
  -- directory 2, with file 3 in it, and file 4
  obtain ⟨fs₁, hr₁, hc₁⟩ := fsCriar_em_ordem h₀ .fsDir (by decide) (by decide : ¬badName nomeB)
    hroot (by simp [procura, hnil]) hal (by decide)
  have hal₁ := hc₁.alocado_succ hal
  have ht₁ : fs₁.typeAt 2 = .fsDir := (hc₁.type 2).trans (if_pos rfl)
  have hs₁ : fs₁.sizeAt 2 = 0 := (hc₁.size 2).trans (if_pos rfl)
  have hnil₁ : fs₁.entradas 2 = [] := List.length_eq_zero_iff.mp (by rw [length_entradas, hs₁])
  obtain ⟨fs₂, hr₂, hc₂⟩ := fsCriar_em_ordem hc₁.consistent .fsFile (by decide)
    (by decide : ¬badName nomeA) ht₁ (by simp [procura, hnil₁]) hal₁ (by decide)
  have hroot₂ : fs₂.typeAt 1 = .fsDir := by
    rw [hc₂.type, if_neg (by decide), hc₁.type, if_neg (by decide), hroot]
  have hent₂ : fs₂.entradas 1 = [(nomeB.val, 2)] := by
    rw [hc₂.outras 1 (by decide) (by decide), hc₁.entradas, hnil]
    rfl
  obtain ⟨fs₃, hr₃, hc₃⟩ := fsCriar_em_ordem hc₂.consistent .fsFile (by decide)
    (by decide : ¬badName nomeA) hroot₂ (by simp [procura, hent₂, nomeA, nomeB])
    (hc₂.alocado_succ hal₁) (by decide)
  have hal₃ := hc₃.alocado_succ (hc₂.alocado_succ hal₁)
  have ht₃ : fs₃.typeAt 2 = .fsDir ∧ fs₃.typeAt 4 = .fsFile := by
    rw [hc₃.type, hc₂.type, ht₁, hc₃.type]
    exact ⟨rfl, rfl⟩
  have hs₃ : fs₃.sizeAt 2 = 16 ∧ fs₃.sizeAt 4 = 0 := by
    refine ⟨?_, (hc₃.size 4).trans (if_pos rfl)⟩
    rw [hc₃.size, if_neg (by decide), if_neg (by decide), hc₂.size, if_neg (by decide), if_pos rfl,
      hs₁]
  have hB : fs₃.resolve 1 nomeB.val = some 2 := by
    rw [resolve_of_dir ((hc₃.type 1).trans hroot₂), procura, hc₃.entradas, hent₂]
    rfl
  have happ := fsAppend_of_resolve hc₃.consistent (hc₃.resolve_self hc₂.consistent) ht₃.2 hB
  rw [hs₃.1, hs₃.2, if_neg (by decide)] at happ
  have hrun : Runs.run FsOp.exec (fsFormat (fsNew discoServidor fun _ => 7))
      [.mkdir 1 nomeB, .create 2 nomeA, .create 1 nomeA, .append 1 nomeA 1 nomeB] = some
        ((copiarReferencias fs₃ 2 4 (offsetToBlocks 0) (offsetToBlocks 16)).setSize 4 (0 + 16),
          [.inode (some 2), .inode (some 3), .inode (some 4), .inode (some (0 + 16))]) := by
    have hr₁' : fsMkdir (fsFormat (fsNew discoServidor fun _ => 7)) 1 nomeB =
        some (fs₁, some 2) := hr₁
    have hr₂' : fsCreate fs₁ 2 nomeA = some (fs₂, some 3) := hr₂
    have hr₃' : fsCreate fs₂ 1 nomeA = some (fs₃, some 4) := hr₃
    simp [Runs.run, FsOp.exec, hr₁', hr₂', hr₃', happ]
  have hsame := copiarReferencias_same fs₃ 2 4 (offsetToBlocks 0) (offsetToBlocks 16)
  have hslot := copiarReferencias_slot fs₃ (by decide : 2 ≠ 4) (offsetToBlocks 0)
    (offsetToBlocks 16)
  refine ⟨_, _, hrun, fun hsep => ?_⟩
  generalize copiarReferencias fs₃ 2 4 (offsetToBlocks 0) (offsetToBlocks 16) = fs₄
    at hsame hslot hsep
  have hal₄ : ∀ i < 5, (fs₄.setSize 4 (0 + 16)).alocado i = true := fun i hi => by
    rw [alocado, setSize_inodeBmap, ← alocado, hsame.alocado, hal₃, decide_eq_true hi]
  refine hsep (2, 0) ?_ (4, 0) ?_ ?_ ?_ ?_
  · refine mem_emUso.mpr ⟨by decide, by decide, hal₄ 2 (by decide), ?_⟩
    rw [setSize_sizeAt, if_neg (by decide), hsame.size, hs₃.1]
    decide
  · refine mem_emUso.mpr ⟨by decide, by decide, hal₄ 4 (by decide), ?_⟩
    rw [setSize_sizeAt, if_pos rfl]
    decide
  · rw [setSize_typeAt, hsame.type]
    exact ht₃.1
  · rw [setSize_typeAt, hsame.type]
    exact ht₃.2
  · rw [setSize_slot, setSize_slot, hslot, hslot, if_pos ⟨rfl, by decide, by decide⟩,
      if_neg fun he => absurd he.1 (by decide)]
    rfl

end ThreadScheduler.SnfsServer
