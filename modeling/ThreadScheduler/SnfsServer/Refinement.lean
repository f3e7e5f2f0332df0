import ThreadScheduler.Lib.Runs
import ThreadScheduler.SnfsServer.Format

/-!
# Files as byte strings

The calls of the file system, and a plain model of them: each allocated file i-node is
a byte string. The model is told the calls and their answers, and knows no blocks, no
cache and no sharing.
-/
namespace ThreadScheduler.SnfsServer

/-- A call of the file system; the last field of `write` is what its buffer holds at first. -/
inductive FsOp where
  | create (dir : ℕ) (file : CString)
  | mkdir (dir : ℕ) (newdir : CString)
  | write (file offset count : ℕ) (buffer : ℕ → Byte) (lixo : Block)
  | read (file offset count : ℕ)
  | copy (dirOrigem : ℕ) (nomeOrigem : CString) (dirDestino : ℕ) (nomeDestino : CString)
  | remove (directorio : ℕ) (nomeFicheiro : CString)
  | append (dirOrigem : ℕ) (nomeOrigem : CString) (dirDestino : ℕ) (nomeDestino : CString)
  | defrag
  | actualizar (intervaloTempo : ℤ)

/-- What a caller learns. A copy is reported with the i-nodes its names resolve to. -/
inductive Resposta where
  | estado (r : ℤ)
  | inode (n : Option ℕ)
  | lido (buffer : Option (List Byte))
  | copia (r : ℤ) (de para : Option ℕ)

namespace FsOp

/-- One call. -/
def exec (fs : Fs) : FsOp → Option (Fs × Resposta)
  | create dir file => (fsCreate fs dir file).map fun r => (r.1, .inode r.2)
  | mkdir dir newdir => (fsMkdir fs dir newdir).map fun r => (r.1, .inode r.2)
  | write file offset count buffer lixo =>
      (fsWrite fs file offset count buffer lixo).map fun r => (r.1, .estado r.2)
  | read file offset count => (fsRead fs file offset count).map fun r => (r.1, .lido r.2)
  | copy d₁ nome₁ d₂ nome₂ => (fsCopy fs d₁ nome₁ d₂ nome₂).map fun r =>
      (r.1, .copia r.2 (r.1.resolve d₁ nome₁.val) (r.1.resolve d₂ nome₂.val))
  | remove d nome => (fsRemove fs d nome).map fun r => (r.1, .inode r.2)
  | append d₁ nome₁ d₂ nome₂ => (fsAppend fs d₁ nome₁ d₂ nome₂).map fun r => (r.1, .inode r.2)
  | defrag => some ((fsDefrag fs).1, .estado (fsDefrag fs).2)
  | actualizar intervalo => some (fs.withCache (actualizarCache fs.cache intervalo), .estado 0)

/-- The calls other than `fs_append` and `fs_defrag`, and copies between different i-nodes. -/
def SemAnexo (fs : Fs) : FsOp → Prop
  | copy d₁ nome₁ d₂ nome₂ => ∀ n, fs.resolve d₁ nome₁.val = some n →
      fs.resolve d₂ nome₂.val ≠ some n
  | append _ _ _ _ => False
  | defrag => False
  | _ => True

/-- The calls other than `fs_append` and `fs_defrag`, writes as `snfs_write` passes them on,
and copies between different i-nodes. -/
def Simples (fs : Fs) : FsOp → Prop
  | write _ _ count _ _ => count ≤ 1024
  | copy d₁ nome₁ d₂ nome₂ => ∀ n, fs.resolve d₁ nome₁.val = some n →
      fs.resolve d₂ nome₂.val ≠ some n
  | append _ _ _ _ => False
  | defrag => False
  | _ => True

instance decidableSemAnexo (fs : Fs) : ∀ op, Decidable (SemAnexo fs op)
  | copy d₁ nome₁ d₂ nome₂ =>
      inferInstanceAs (Decidable (∀ n ∈ fs.resolve d₁ nome₁.val, fs.resolve d₂ nome₂.val ≠ some n))
  | append _ _ _ _ | defrag => isFalse id
  | create _ _ | mkdir _ _ | write _ _ _ _ _ | read _ _ _ | remove _ _ | actualizar _ =>
      isTrue trivial

instance decidableSimples (fs : Fs) : ∀ op, Decidable (Simples fs op)
  | write _ _ count _ _ => inferInstanceAs (Decidable (count ≤ 1024))
  | copy d₁ nome₁ d₂ nome₂ =>
      inferInstanceAs (Decidable (∀ n ∈ fs.resolve d₁ nome₁.val, fs.resolve d₂ nome₂.val ≠ some n))
  | append _ _ _ _ | defrag => isFalse id
  | create _ _ | mkdir _ _ | read _ _ _ | remove _ _ | actualizar _ => isTrue trivial

theorem Simples.semAnexo {fs : Fs} {op : FsOp} (h : op.Simples fs) : op.SemAnexo fs := by
  cases op <;> first | exact h | trivial

end FsOp

/-! ## The model -/

/-- The byte strings of the files. -/
abbrev Modelo := ℕ → Option (List Byte)

namespace Modelo

/-- The model before any call: no file. -/
def vazio : Modelo := fun _ => none

/-- A call that succeeds changes one file; a refused call, and every other call, none. -/
def passo (m : Modelo) : FsOp → Resposta → Modelo
  | .create _ _, .inode (some n) => Function.update m n (some [])
  | .write file offset count buffer _, .estado 0 =>
      Function.update m file ((m file).map fun s => Fs.sobrepor s offset count buffer)
  | .copy _ _ _ _, .copia 0 (some de) (some para) => Function.update m para (m de)
  | .remove _ _, .inode (some n) => Function.update m n none
  | _, _ => m

/-- What a read of the model answers. -/
def ler (m : Modelo) (file offset count : ℕ) : Option (List Byte) :=
  (m file).map fun s => (s.drop offset).take count

end Modelo

namespace Fs

/-- The model of a state: the content of each allocated file. -/
def modelo (fs : Fs) : Modelo := fun i =>
  if fs.alocado i = true ∧ fs.typeAt i = .fsFile then some (fs.bytes i) else none

/-- The states in which every call of the model is exact. -/
structure Exacto (fs : Fs) : Prop where
  consistent : fs.Consistent
  distintos : fs.Distintos fs.emUso

theorem modelo_congr {fs fs' : Fs} {i : ℕ} (ha : fs'.alocado i = fs.alocado i)
    (ht : fs'.typeAt i = fs.typeAt i) (hb : fs.typeAt i = .fsFile → fs'.bytes i = fs.bytes i) :
    fs'.modelo i = fs.modelo i := by
  simp only [modelo, ha, ht]
  split
  · rename_i h
    rw [hb h.2]
  · rfl

theorem modelo_of_file {fs : Fs} (h : fs.Consistent) {i : ℕ} (ht : fs.typeAt i = .fsFile) :
    fs.modelo i = some (fs.bytes i) := if_pos ⟨h.alocado_of_type (by simp [ht]), ht⟩

theorem modelo_of_not_file {fs : Fs} {i : ℕ} (ht : fs.typeAt i ≠ .fsFile) :
    fs.modelo i = none := if_neg fun h => ht h.2

/-- Moving blocks through the cache changes nothing the model sees. -/
theorem Exacto.withCache {fs : Fs} (h : fs.Exacto) {c : CacheT}
    (hc : c.conteudo = fs.cache.conteudo)
    (hcons : (fs.withCache c).Consistent) :
    (fs.withCache c).Exacto ∧ (fs.withCache c).modelo = fs.modelo := by
  refine ⟨⟨hcons, by rw [withCache_emUso]; exact h.distintos⟩, funext fun i =>
    modelo_congr rfl rfl fun _ => ?_⟩
  exact bytes_congr rfl fun q _ => by simp only [pagina, withCache_cache, hc, withCache_slot]

/-- Reading any i-node answers what the model holds. -/
theorem Exacto.fsRead_eq {fs : Fs} (h : fs.Exacto) (file offset count : ℕ) :
    ∃ fs', fsRead fs file offset count = some (fs', fs.modelo.ler file offset count) ∧
      fs'.Exacto ∧ fs'.modelo = fs.modelo := by
  by_cases ht : fs.typeAt file = .fsFile
  · obtain ⟨c, hr, hcons, hc⟩ := h.consistent.fsRead_eq ht offset count
    obtain ⟨hex, hm⟩ := h.withCache hc hcons
    refine ⟨_, ?_, hex, hm⟩
    rw [hr, Modelo.ler, modelo_of_file h.consistent ht]
    rfl
  · refine ⟨fs, ?_, h, rfl⟩
    rw [Modelo.ler, modelo_of_not_file ht]
    have ht' : (fs.inodeTab file).type ≠ .fsFile := ht
    simp only [fsRead, ht', ne_eq, not_false_eq_true, if_true]
    split_ifs <;> rfl

theorem Exacto.criado {fs fs' : Fs} (h : fs.Exacto) {tipo : FsItype}
    {d n : ℕ} {nome : List Byte} (hc : Criado tipo fs fs' d nome n) :
    fs'.Exacto ∧ fs'.modelo =
      if tipo = .fsFile then Function.update fs.modelo n (some []) else fs.modelo := by
  have hnd : d ≠ n :=
    hc.ne_of_alocado (h.consistent.alocado_of_type (by simp [hc.dir]))
  have hlivre := h.consistent.inodes.livre n hc.livre
  -- a file that exists already is another i-node, and no directory
  have hold : ∀ i, i ≠ n → fs.typeAt i = .fsFile → i ≠ d := by
    rintro i - hi rfl
    simp [hc.dir] at hi
  refine ⟨⟨hc.consistent, fun i q q' ht hq hq' hs => ?_⟩, ?_⟩
  · have hq := hc.consistent.lt_of_mem hq
    have hq' := hc.consistent.lt_of_mem hq'
    rw [hc.size] at hq hq'
    by_cases hin : i = n
    · rw [if_pos hin, offsetToBlocks_zero] at hq
      omega
    · rw [hc.type, if_neg hin] at ht
      have hid := hold i hin ht
      rw [if_neg hin, if_neg hid] at hq hq'
      rw [hc.slot _ hid, hc.slot _ hid, if_neg hin, if_neg hin] at hs
      exact h.distintos i q q' ht (h.consistent.mem_emUso_iff.mpr hq)
        (h.consistent.mem_emUso_iff.mpr hq') hs
  · have hother : ∀ i, i ≠ n → fs'.modelo i = fs.modelo i := by
      intro i hin
      refine modelo_congr (by simp [hc.alocado, hin]) (by simp [hc.type, hin]) fun ht => ?_
      have hid := hold i hin ht
      exact bytes_congr (by rw [hc.size, if_neg hin, if_neg hid]) fun q hq =>
        hc.pagina _ (h.consistent.mem_emUso_iff.mpr hq) hid
    funext i
    by_cases hin : i = n
    · subst hin
      by_cases htf : tipo = .fsFile
      · have ht : fs'.typeAt i = .fsFile := by rw [hc.type, if_pos rfl, htf]
        have hnil : fs'.bytes i = [] := by simp [bytes, hc.size]
        rw [if_pos htf, Function.update_self, modelo_of_file hc.consistent ht, hnil]
      · rw [if_neg htf, modelo_of_not_file (by simp [hc.type, htf]),
          modelo_of_not_file (by simp [hlivre.1])]
    · rw [hother i hin]
      split
      · rw [Function.update_of_ne hin]
      · rfl

theorem Exacto.removido {fs fs' : Fs} (h : fs.Exacto) {d n : ℕ} {nome : List Byte}
    (hr : Removido fs fs' d nome n) :
    fs'.Exacto ∧ fs'.modelo = Function.update fs.modelo n none := by
  have hold : ∀ i, fs.typeAt i = .fsFile → i ≠ d := by
    rintro i hi rfl
    simp [hr.dir] at hi
  refine ⟨⟨hr.consistent, fun i q q' ht hq hq' hs => ?_⟩, funext fun i => ?_⟩
  · have hq := hr.consistent.lt_of_mem hq
    have hq' := hr.consistent.lt_of_mem hq'
    rw [hr.type] at ht
    have hin : i ≠ n := by
      rintro rfl
      simp at ht
    rw [if_neg hin] at ht
    have hid := hold i ht
    rw [hr.size, if_neg hin, if_neg hid] at hq hq'
    rw [hr.slot _ hid, hr.slot _ hid, if_neg hin, if_neg hin] at hs
    exact h.distintos i q q' ht (h.consistent.mem_emUso_iff.mpr hq)
      (h.consistent.mem_emUso_iff.mpr hq') hs
  · by_cases hin : i = n
    · rw [hin, Function.update_self, modelo_of_not_file (by simp [hr.type])]
    · rw [Function.update_of_ne hin]
      refine modelo_congr (by simp [hr.alocado, hin]) (by simp [hr.type, hin]) fun ht => ?_
      have hid := hold i ht
      exact bytes_congr (by rw [hr.size, if_neg hin, if_neg hid]) fun q hq =>
        hr.pagina _ (h.consistent.mem_emUso_iff.mpr hq) hid hin

theorem Exacto.escrito {fs fs' : Fs} (h : fs.Exacto) {file offset count : ℕ}
    {buffer : ℕ → Byte} (hw : Escrito fs fs' file offset count buffer) :
    fs'.Exacto ∧ fs'.modelo = Function.update fs.modelo file
      ((fs.modelo file).map fun s => sobrepor s offset count buffer) := by
  refine ⟨⟨hw.consistent, hw.distintos h.distintos⟩, funext fun i => ?_⟩
  by_cases hi : i = file
  · subst hi
    rw [Function.update_self, modelo_of_file h.consistent hw.ficheiro,
      modelo_of_file hw.consistent ((hw.type i).trans hw.ficheiro), hw.bytes h.distintos]
    rfl
  · rw [Function.update_of_ne hi]
    refine modelo_congr (by rw [alocado, alocado, hw.inodeBmap]) (hw.type i) fun _ => ?_
    exact bytes_congr (hw.size i hi) fun q hq =>
      hw.pagina _ (h.consistent.mem_emUso_iff.mpr hq) hi

theorem Exacto.copiado {fs fs' : Fs} (h : fs.Exacto) {de para : ℕ}
    (hc : Copiado fs fs' de para) :
    fs'.Exacto ∧ fs'.modelo = Function.update fs.modelo para (fs.modelo de) := by
  refine ⟨⟨hc.consistent, hc.distintos h.consistent h.distintos⟩, funext fun i => ?_⟩
  by_cases hi : i = para
  · subst hi
    rw [Function.update_self, modelo_of_file h.consistent hc.origem,
      modelo_of_file hc.consistent ((hc.type i).trans hc.destino), hc.bytes]
  · rw [Function.update_of_ne hi]
    refine modelo_congr (by rw [alocado, alocado, hc.inodeBmap]) (hc.type i) fun _ => ?_
    exact bytes_congr (by rw [hc.size, if_neg hi]) fun q hq =>
      hc.pagina _ (h.consistent.mem_emUso_iff.mpr hq) hi

/-! ## Names across a copy -/

theorem Criado.resolve_self {fs fs' : Fs} (h : fs.Consistent) {tipo : FsItype} {d n : ℕ}
    {nome : List Byte} (hc : Criado tipo fs fs' d nome n) : fs'.resolve d nome = some n := by
  have hnd : d ≠ n :=
    hc.ne_of_alocado (h.alocado_of_type (by simp [hc.dir]))
  have hnone : (fs.entradas d).find? (fun e => e.1 = nome) = none :=
    Option.map_eq_none_iff.mp hc.nova
  rw [resolve_of_dir (by rw [hc.type, if_neg hnd, hc.dir])]
  simp [procura, hc.entradas, List.find?_append, hnone]

theorem Criado.resolve_of_some {fs fs' : Fs} (h : fs.Consistent) {tipo : FsItype} {d n : ℕ}
    {nome : List Byte} (hc : Criado tipo fs fs' d nome n) {e j : ℕ} {m : List Byte}
    (hr : fs.resolve e m = some j) : fs'.resolve e m = some j := by
  by_cases ht : fs.typeAt e = .fsDir
  · have hen : e ≠ n :=
   hc.ne_of_alocado (h.alocado_of_type (by simp [ht]))
    rw [resolve_of_dir ht] at hr
    rw [resolve_of_dir (by rw [hc.type, if_neg hen, ht])]
    by_cases hed : e = d
    · subst hed
      obtain ⟨x, hx, rfl⟩ := Option.map_eq_some_iff.mp hr
      simp [procura, hc.entradas, List.find?_append, hx]
    · rw [procura_congr (hc.outras e hed hen), hr]
  · simp [resolve, ht] at hr

theorem Copiado.resolve {fs fs' : Fs} (h : fs.Consistent) {de para : ℕ}
    (hc : Copiado fs fs' de para) (d : ℕ) (m : List Byte) : fs'.resolve d m = fs.resolve d m := by
  simp only [Fs.resolve, hc.type]
  split
  · rename_i ht
    have hdp : d ≠ para := by
      rintro rfl
      have := hc.destino
      simp [ht] at this
    refine procura_congr (entradas_congr (by rw [hc.size, if_neg hdp]) fun q hq => ?_) m
    exact hc.pagina _ (h.mem_emUso_iff.mpr hq) hdp
  · rfl

/-- The destination of a copy, found or just created, seen by the model. -/
theorem Exacto.destinoDe {fs fs₁ : Fs} (h : fs.Exacto) {d para : ℕ} {nome : List Byte}
    (hd : DestinoDe fs fs₁ d nome para) :
    fs₁.Exacto ∧ fs₁.resolve d nome = some para ∧
      (∀ e m j, fs.resolve e m = some j → fs₁.resolve e m = some j) ∧
      ∀ i, i ≠ para → fs₁.modelo i = fs.modelo i := by
  cases hd with
  | achado hp he =>
      subst he
      exact ⟨h, hp, fun _ _ _ => id, fun _ _ => rfl⟩
  | criado hc =>
      obtain ⟨hex, hm⟩ := h.criado hc
      refine ⟨hex, hc.resolve_self h.consistent, fun e m j => hc.resolve_of_some h.consistent,
        fun i hi => ?_⟩
      rw [hm, if_pos rfl, Function.update_of_ne hi]

/-- In an exact state the counters fit every copy; a file copied onto itself shares its blocks. -/
theorem Exacto.fsCopy_spec {fs : Fs} (h : fs.Exacto) (d₁ : ℕ) (nome₁ : CString) (d₂ : ℕ)
    (nome₂ : CString)
    (hpart : ∀ n, fs.resolve d₁ nome₁.val = some n → fs.resolve d₂ nome₂.val = some n →
      fs.typeAt n = .fsFile → fs.Partilha n n) :
    fsCopy fs d₁ nome₁ d₂ nome₂ = some (fs, -1) ∨
      ∃ fs₁ fs' de para, fsCopy fs d₁ nome₁ d₂ nome₂ = some (fs', 0) ∧
        fs.resolve d₁ nome₁.val = some de ∧ fs.typeAt de = .fsFile ∧
        DestinoDe fs fs₁ d₂ nome₂.val para ∧ Copiado fs₁ fs' de para := by
  refine Fs.fsCopy_spec h.consistent d₁ nome₁ d₂ nome₂ hpart ?_
  -- the counters of the state in which the copy is made
  intro fs₁ de para hcons _ ht hdest _
  cases hdest with
  | achado hp he =>
      subst he
      exact h.distintos.cabe hcons ht
  | criado hc =>
      have hne : de ≠ para := hc.ne_of_alocado (h.consistent.alocado_of_type (by simp [ht]))
      exact (h.criado hc).1.distintos.cabe hcons (by rw [hc.type, if_neg hne, ht])

/-! ## Calls and runs -/

/-- Such a call does to the files what the model says, and never stops the server. -/
theorem Exacto.exec {fs : Fs} (h : fs.Exacto) {op : FsOp} (hop : op.SemAnexo fs) :
    ∃ fs' r, op.exec fs = some (fs', r) ∧ fs'.Exacto ∧ fs'.modelo = fs.modelo.passo op r := by
  cases op with
  | create dir file =>
      rcases fsCriar_spec h.consistent .fsFile (by decide) dir file with
        ⟨hr, -⟩ | ⟨fs', n, hr, hc⟩
      · exact ⟨fs, .inode none, by simp [FsOp.exec, fsCreate, hr], h, rfl⟩
      · obtain ⟨hex, hm⟩ := h.criado hc
        exact ⟨fs', .inode (some n), by simp [FsOp.exec, fsCreate, hr], hex, hm⟩
  | mkdir dir newdir =>
      rcases fsCriar_spec h.consistent .fsDir (by decide) dir newdir with
        ⟨hr, -⟩ | ⟨fs', n, hr, hc⟩
      · exact ⟨fs, .inode none, by simp [FsOp.exec, fsMkdir, hr], h, rfl⟩
      · obtain ⟨hex, hm⟩ := h.criado hc
        exact ⟨fs', .inode (some n), by simp [FsOp.exec, fsMkdir, hr], hex, hm⟩
  | write file offset count buffer lixo =>
      rcases fsWrite_spec h.consistent file offset count buffer lixo with
        ⟨hr, -⟩ | ⟨fs', hr, hw⟩
      · exact ⟨fs, .estado (-1), by simp [FsOp.exec, hr], h, rfl⟩
      · obtain ⟨hex, hm⟩ := h.escrito hw
        exact ⟨fs', .estado 0, by simp [FsOp.exec, hr], hex, hm⟩
  | read file offset count =>
      obtain ⟨fs', hr, hex, hm⟩ := h.fsRead_eq file offset count
      exact ⟨fs', .lido (fs.modelo.ler file offset count), by simp [FsOp.exec, hr], hex, hm⟩
  | copy d₁ nome₁ d₂ nome₂ =>
      rcases h.fsCopy_spec d₁ nome₁ d₂ nome₂ (fun n h₁ h₂ => absurd h₂ (hop n h₁)) with
        hr | ⟨fs₁, fs', de, para, hr, hres, htde, hdest, hcop⟩
      · exact ⟨fs, .copia (-1) (fs.resolve d₁ nome₁.val) (fs.resolve d₂ nome₂.val),
          by simp [FsOp.exec, hr], h, rfl⟩
      · obtain ⟨hex₁, hpara, hkeep, hm₁⟩ := h.destinoDe hdest
        obtain ⟨hex, hm⟩ := hex₁.copiado hcop
        have hde' := hkeep d₁ nome₁.val de hres
        have hne : de ≠ para := by
          cases hdest with
          | achado hp he => exact fun he => hop de hres (he ▸ hp)
          | criado hc => exact hc.ne_of_alocado (h.consistent.alocado_of_type (by simp [htde]))
        refine ⟨fs', .copia 0 (some de) (some para), ?_, hex, ?_⟩
        · simp only [FsOp.exec, hr, Option.map_some, hcop.resolve hex₁.consistent, hde', hpara]
        · rw [hm, hm₁ de hne, Modelo.passo]
          funext i
          by_cases hi : i = para
          · rw [hi, Function.update_self, Function.update_self]
          · rw [Function.update_of_ne hi, Function.update_of_ne hi, hm₁ i hi]
  | remove d nome =>
      rcases fsRemove_spec h.consistent d nome with ⟨hr, -⟩ | ⟨fs', n, hr, hrem⟩
      · exact ⟨fs, .inode none, by simp [FsOp.exec, hr], h, rfl⟩
      · obtain ⟨hex, hm⟩ := h.removido hrem
        exact ⟨fs', .inode (some n), by simp [FsOp.exec, hr], hex, hm⟩
  | append _ _ _ _ => exact absurd hop id
  | defrag => exact absurd hop id
  | actualizar intervalo =>
      have hs := actualizarCache_settled h.consistent.acc.coherent intervalo
      have hc : (actualizarCache fs.cache intervalo).conteudo = fs.cache.conteudo :=
        funext hs.conteudo
      have hacc := h.consistent.acc.withCache (hs.coherent h.consistent.acc.coherent) hs.numBlocks
        fun b hv => .inl (hs.valid hv)
      obtain ⟨hex, hm⟩ := h.withCache hc (h.consistent.withCache hacc hc)
      exact ⟨_, _, rfl, hex, hm⟩

theorem inicial_exacto (pilha : ℕ → ℤ) : (inicial pilha).Exacto :=
  ⟨inicial_consistent pilha, inicial_distintos pilha⟩

theorem inicial_modelo (pilha : ℕ → ℤ) : (inicial pilha).modelo = Modelo.vazio := by
  obtain ⟨-, -, -, -, -, -, -, -, htab⟩ := inicial_spec pilha
  funext i
  refine modelo_of_not_file ?_
  rw [typeAt, htab]
  simp only [fsiInodeInit]
  split <;> decide

/-- Every run of such calls ends in an exact state. -/
theorem exacto_of_run (pilha : ℕ → ℤ) {ops : List FsOp}
    (hops : Runs.Permitted FsOp.exec FsOp.SemAnexo (inicial pilha) ops) :
    ∃ fs rs, Runs.run FsOp.exec (inicial pilha) ops = some (fs, rs) ∧ fs.Exacto :=
  Runs.run_total (I := Exacto) (fun _ _ h hop => by
    obtain ⟨fs', r, hr, hex, -⟩ := h.exec hop
    exact ⟨fs', r, hr, hex⟩) (inicial_exacto pilha) hops

end Fs

/-- After any run of simple calls on the formatted disk, `fs_read` answers what the plain
model of the run holds. -/
theorem fsRead_after_run (pilha : ℕ → ℤ) (ops : List FsOp)
    (hops : Runs.Permitted FsOp.exec FsOp.Simples (fsFormat (fsNew Fs.discoServidor pilha)) ops)
    (file offset count : ℕ) :
    ∃ fs rs fs', Runs.run FsOp.exec (fsFormat (fsNew Fs.discoServidor pilha)) ops = some (fs, rs) ∧
      fsRead fs file offset count =
        some (fs', (Runs.replay Modelo.passo Modelo.vazio ops rs).ler file offset count) := by
  obtain ⟨fs, rs, hr, hex⟩ := Fs.exacto_of_run pilha (hops.mono fun _ _ => FsOp.Simples.semAnexo)
  obtain ⟨fs', hread, -, -⟩ := hex.fsRead_eq file offset count
  refine ⟨fs, rs, fs', hr, ?_⟩
  have hmodel := Runs.run_refines (I := Fs.Exacto) Modelo.passo Fs.modelo
    (fun s a s' o h hop hs => by
      obtain ⟨s₁, r₁, hr₁, hex₁, hm₁⟩ := h.exec hop.semAnexo
      obtain ⟨rfl, rfl⟩ := Prod.mk.inj (Option.some.inj (hr₁.symm.trans hs))
      exact ⟨hex₁, hm₁⟩) (Fs.inicial_exacto pilha) hops hr
  rw [Fs.inicial_modelo] at hmodel
  rw [hread, hmodel]

def nomeA : CString := ⟨[97], by decide⟩

def nomeB : CString := ⟨[98], by decide⟩

def nomeC : CString := ⟨[99], by decide⟩

/-- A file of two blocks is copied, and bytes of the copy in a block that both share are
overwritten. -/
def chamadasSobrepostas : List FsOp :=
  [.create 1 nomeA, .write 2 0 600 (fun _ => 1) nullBlock, .copy 1 nomeA 1 nomeB,
    .write 3 510 4 (fun _ => 2) nullBlock, .actualizar 5]

set_option maxRecDepth 100000 in
theorem fsRead_after_run_sobrepostas :
    ∃ fs rs fs' fs'', Runs.run FsOp.exec (fsFormat (fsNew Fs.discoServidor fun _ => 7))
        chamadasSobrepostas = some (fs, rs) ∧
      (fsRead fs 2 509 3 = some (fs',
          (Runs.replay Modelo.passo Modelo.vazio chamadasSobrepostas rs).ler 2 509 3) ∧
        (Runs.replay Modelo.passo Modelo.vazio chamadasSobrepostas rs).ler 2 509 3 =
          some [1, 1, 1]) ∧
      fsRead fs 3 509 3 = some (fs'',
          (Runs.replay Modelo.passo Modelo.vazio chamadasSobrepostas rs).ler 3 509 3) ∧
        (Runs.replay Modelo.passo Modelo.vazio chamadasSobrepostas rs).ler 3 509 3 =
          some [1, 2, 2] := by
  have hops : Runs.Permitted FsOp.exec FsOp.Simples
      (fsFormat (fsNew Fs.discoServidor fun _ => 7)) chamadasSobrepostas := by
    rw [Fs.fsFormat_eq_formatado]
    decide +kernel
  obtain ⟨fs, rs, hrun, h₂, h₃⟩ : ∃ fs rs,
      Runs.run FsOp.exec (fsFormat (fsNew Fs.discoServidor fun _ => 7)) chamadasSobrepostas =
        some (fs, rs) ∧ (fsRead fs 2 509 3).map Prod.snd = some (some [1, 1, 1]) ∧
      (fsRead fs 3 509 3).map Prod.snd = some (some [1, 2, 2]) := by
    rw [Fs.fsFormat_eq_formatado]
    exact Runs.exists_run_of_any (by decide +kernel)
  obtain ⟨fs₂, rs₂, fs', hrun₂, hread₂⟩ := fsRead_after_run (fun _ => 7) _ hops 2 509 3
  obtain ⟨rfl, rfl⟩ := Prod.mk.inj (Option.some.inj (hrun.symm.trans hrun₂))
  obtain ⟨fs₃, rs₃, fs'', hrun₃, hread₃⟩ := fsRead_after_run (fun _ => 7) _ hops 3 509 3
  obtain ⟨rfl, rfl⟩ := Prod.mk.inj (Option.some.inj (hrun.symm.trans hrun₃))
  refine ⟨fs, rs, fs', fs'', hrun, ⟨hread₂, ?_⟩, hread₃, ?_⟩
  · rw [hread₂] at h₂
    exact Option.some.inj h₂
  · rw [hread₃] at h₃
    exact Option.some.inj h₃

end ThreadScheduler.SnfsServer
