import ThreadScheduler.SnfsServer.Refinement

/-!
# Removing one name

When `fs_remove` takes out the entry it was asked to take out. The entry that leaves the
directory is always the last one, so this is when the name is the last one listed.
-/
namespace ThreadScheduler.SnfsServer

/-- `fsi_dir_search` finds i-node `j` under the name `m` of `d`. -/
def Procurado (fs : Fs) (d : ℕ) (m : CString) (j : ℕ) : Prop :=
  ∃ s, fsiDirSearch fs d m.val = some (s, some j)

/-- `fs_readdir` lists the name `x` in `d`. -/
def Listado (fs : Fs) (d : ℕ) (x : List Byte) : Prop :=
  ∃ maxentries s l, fsReaddir fs d maxentries = some (s, some l) ∧ x ∈ l.map Prod.fst

/-- The call from `fs` to `fs'` removed the name `nome` of `d`, and it alone. -/
structure RemoveuNome (fs fs' : Fs) (d : ℕ) (nome : CString) (n : ℕ) : Prop where
  procurados : ∀ m j, Procurado fs' d m j ↔ Procurado fs d m j ∧ m.val ≠ nome.val
  listados : ∀ x, Listado fs' d x ↔ Listado fs d x ∧ x ≠ nome.val
  outras : ∀ e, e ≠ d → fs.typeAt e = .fsDir →
    (∀ m j, Procurado fs' e m j ↔ Procurado fs e m j) ∧ ∀ x, Listado fs' e x ↔ Listado fs e x
  nomeado : Procurado fs d nome n
  libertado : ∀ j, fs'.alocado j = (!decide (j = n) && fs.alocado j)

namespace Fs

section Views

variable {fs : Fs} (h : fs.Consistent) {d : ℕ} (ht : fs.typeAt d = .fsDir)

include h ht

theorem procurado_iff (m : CString) (j : ℕ) : Procurado fs d m j ↔ fs.procura d m.val = some j := by
  simp [Procurado, h.fsiDirSearch_eq ht m.property]

theorem listado_iff (x : List Byte) : Listado fs d x ↔ x ∈ (fs.entradas d).map Prod.fst := by
  constructor
  · rintro ⟨max, s, l, hr, hx⟩
    have hmax : 0 ≤ max := by
      by_contra hneg
      have hlt : max < 0 := by omega
      rw [fsReaddir, if_pos (.inr hlt)] at hr
      simp at hr
    rw [h.fsReaddir_eq ht hmax] at hr
    simp only [Option.some.injEq, Prod.mk.injEq] at hr
    rw [← hr.2, List.map_map] at hx
    obtain ⟨e, he, rfl⟩ := List.mem_map.mp hx
    exact List.mem_map_of_mem (List.mem_of_mem_take he)
  · intro hx
    refine ⟨(fs.entradas d).length, fs, _, h.fsReaddir_eq ht (by omega), ?_⟩
    rw [Int.toNat_natCast, List.take_length, List.map_map]
    exact hx

end Views

/-- The last name of a list without repetitions is the one that `dropLast` takes out. -/
theorem mem_dropLast_iff {α : Type*} {l : List α} (hl : l.Nodup) {a : α}
    (ha : l.getLast? = some a) (x : α) : x ∈ l.dropLast ↔ x ∈ l ∧ x ≠ a := by
  obtain ⟨l', rfl⟩ := List.getLast?_eq_some_iff.mp ha
  rw [List.nodup_append] at hl
  simp only [List.dropLast_concat, List.mem_append, List.mem_singleton]
  constructor
  · intro hx
    exact ⟨.inl hx, hl.2.2 x hx a (by simp)⟩
  · rintro ⟨hx | hx, hne⟩
    · exact hx
    · exact absurd hx hne

/-- A search in distinct names is a membership. -/
theorem procura_iff_mem {fs : Fs} {d : ℕ} (hd : ((fs.entradas d).map Prod.fst).Nodup)
    (m : List Byte) (j : ℕ) : fs.procura d m = some j ↔ (m, j) ∈ fs.entradas d := by
  refine ⟨mem_of_procura, fun hm => ?_⟩
  cases hp : fs.procura d m with
  | none =>
      have hany : (fs.entradas d).any (fun e => e.1 = m) = true :=
        List.any_eq_true.mpr ⟨_, hm, by simp⟩
      rw [← procura_isSome, hp] at hany
      exact absurd hany (by simp)
  | some j' =>
      have := List.inj_on_of_nodup_map hd (mem_of_procura hp) hm rfl
      rw [(Prod.mk.inj this).2]

/-- `fs_remove` removes the name it is given exactly when that name is the last one. -/
theorem Removido.removeuNome_iff {fs fs' : Fs} (h : fs.Consistent) {d n : ℕ} {nome : CString}
    (hr : Removido fs fs' d nome.val n) :
    RemoveuNome fs fs' d nome n ↔ (fs.entradas d).getLast?.map Prod.fst = some nome.val := by
  have hmem := mem_of_procura hr.achado
  have hd := h.dirs d hr.dir
  have hdn : d ≠ n := by
    rintro rfl
    have hlen := List.length_pos_of_mem hmem
    rw [length_entradas, hr.vazio hr.dir] at hlen
    simp at hlen
  have ht' : fs'.typeAt d = .fsDir := by rw [hr.type, if_neg hdn, hr.dir]
  obtain ⟨⟨a, i⟩, hlast⟩ : ∃ e, (fs.entradas d).getLast? = some e :=
    ⟨_, List.getLast?_eq_some_getLast (List.ne_nil_of_mem hmem)⟩
  have hdrop := mem_dropLast_iff (List.Nodup.of_map _ hd.nodup) hlast
  have hdropn : ∀ x, x ∈ (fs.entradas d).dropLast.map Prod.fst ↔
      x ∈ (fs.entradas d).map Prod.fst ∧ x ≠ a := by
    intro x
    have := mem_dropLast_iff hd.nodup (a := a) (by rw [List.getLast?_map, hlast]; rfl) x
    rwa [← List.map_dropLast] at this
  rw [hlast, Option.map_some, Option.some.injEq]
  constructor
  · intro hone
    have := (hone.listados a).not
    rw [listado_iff hr.consistent ht', listado_iff h hr.dir, hr.entradas, hdropn] at this
    have hin : a ∈ (fs.entradas d).map Prod.fst :=
      List.mem_map_of_mem (List.mem_of_getLast? hlast)
    by_contra hne
    exact this.mp (by simp) ⟨hin, hne⟩
  · intro hlastn
    obtain rfl : a = nome.val := hlastn
    have hin : i = n := by
      have := List.inj_on_of_nodup_map hd.nodup (List.mem_of_getLast? hlast) hmem rfl
      exact (Prod.mk.inj this).2
    refine ⟨fun m j => ?_, fun x => ?_, fun e hed hte => ?_, ?_, hr.alocado⟩
    · rw [procurado_iff hr.consistent ht', procurado_iff h hr.dir,
        procura_iff_mem (hr.consistent.dirs d ht').nodup, procura_iff_mem hd.nodup, hr.entradas,
        hdrop]
      refine and_congr_right fun hm => not_congr ⟨fun he => (Prod.mk.inj he).1, fun he => ?_⟩
      exact List.inj_on_of_nodup_map hd.nodup hm (List.mem_of_getLast? hlast) he
    · rw [listado_iff hr.consistent ht', listado_iff h hr.dir, hr.entradas, hdropn]
    · by_cases hen : e = n
      · -- the directory that was removed had no entries
        subst hen
        have hz : (fs'.inodeTab e).size = 0 := by
          have := hr.size e
          rwa [if_pos rfl] at this
        have hnil : fs.entradas e = [] := by simp [Fs.entradas, hr.vazio hte]
        have hnone : fs'.alocado e = false := by simp [hr.alocado]
        refine ⟨fun m j => ?_, fun x => ?_⟩
        · rw [procurado_iff h hte, procura, hnil, Procurado, fsiDirSearch, hz, fsiDirSearchLoop]
          simp
        · rw [listado_iff h hte, hnil]
          refine ⟨?_, by simp⟩
          rintro ⟨max, s, l, hl, -⟩
          have hset : bmapIsSet fs'.inodeBmap e = false := hnone
          simp only [fsReaddir, hset, Bool.not_false, if_true] at hl
          split at hl <;> simp at hl
      · have hte' : fs'.typeAt e = .fsDir := by rw [hr.type, if_neg hen, hte]
        have hent := hr.outras e hed hen
        refine ⟨fun m j => ?_, fun x => ?_⟩
        · rw [procurado_iff hr.consistent hte', procurado_iff h hte, procura_congr hent]
        · rw [listado_iff hr.consistent hte', listado_iff h hte, hent]
    · rw [procurado_iff h hr.dir]
      exact hr.achado

end Fs

/-- In every state that runs without an append, a defragmentation or a copy of a file onto
itself reach, a successful `fs_remove` removes exactly the name it was given if and only if
that name is the last entry of the directory. -/
theorem fsRemove_removes_name_iff (pilha : ℕ → ℤ) (ops : List FsOp)
    (hops : Runs.Permitted FsOp.exec FsOp.SemAnexo (fsFormat (fsNew Fs.discoServidor pilha)) ops)
    {fs fs' : Fs} {rs : List Resposta} {d n : ℕ} {nome : CString}
    (hrun : Runs.run FsOp.exec (fsFormat (fsNew Fs.discoServidor pilha)) ops = some (fs, rs))
    (hrem : fsRemove fs d nome = some (fs', some n)) :
    RemoveuNome fs fs' d nome n ↔ (fs.entradas d).getLast?.map Prod.fst = some nome.val := by
  obtain ⟨fs₁, rs₁, hr₁, hex⟩ := Fs.exacto_of_run pilha hops
  obtain ⟨rfl, rfl⟩ := Prod.mk.inj (Option.some.inj (hr₁.symm.trans hrun))
  rcases Fs.fsRemove_spec hex.consistent d nome with ⟨hr, -⟩ | ⟨fs₂, n₂, hr, hremov⟩
  · simp [hr] at hrem
  · simp only [hr, Option.some.injEq, Prod.mk.injEq] at hrem
    obtain ⟨rfl, rfl⟩ := hrem
    exact hremov.removeuNome_iff hex.consistent

/-! ## Two files in the root -/

/-- The state after two calls of `fs_create`: the root lists files 2 and 3, in that order,
and the only block in use is that of the root. -/
structure DoisFicheiros (fs : Fs) : Prop where
  exacto : fs.Exacto
  raiz : fs.typeAt 1 = .fsDir ∧ fs.sizeAt 1 = 32
  ficheiro : fs.typeAt 2 = .fsFile ∧ fs.typeAt 3 = .fsFile
  vazio : ∀ i, i ≠ 1 → fs.sizeAt i = 0
  entradas : fs.entradas 1 = [(nomeA.val, 2), (nomeB.val, 3)]
  slot : ∀ p, fs.slot p = if p = (1, 0) then 10 else 0
  disco : ∀ b, 10 ≤ b → fs.ocupado b = false → fs.cache.disco.blocks b = nullBlock

theorem dois_ficheiros (pilha : ℕ → ℤ) :
    ∃ fs, Runs.run FsOp.exec (fsFormat (fsNew Fs.discoServidor pilha))
        [.create 1 nomeA, .create 1 nomeB] = some (fs, [.inode (some 2), .inode (some 3)]) ∧
      DoisFicheiros fs := by
  have h₀ := Fs.inicial_exacto pilha
  obtain ⟨c, hc₀, -, -, -, -, hal, hdisk, htab⟩ := Fs.inicial_spec pilha
  have hnil : (Fs.inicial pilha).entradas 1 = [] := Fs.inicial_entradas pilha 1
  have hroot := h₀.consistent.inodes.root.2
  have hsize₀ : ∀ i, (Fs.inicial pilha).sizeAt i = 0 := fun i => by rw [Fs.sizeAt, htab]; rfl
  have hslot₀ : ∀ p, (Fs.inicial pilha).slot p = 0 := fun p => by rw [Fs.slot, htab]; rfl
  -- the first file
  obtain ⟨fs₁, hr₁, hc₁⟩ := Fs.fsCriar_em_ordem h₀.consistent .fsFile (by decide)
    (by decide : ¬badName nomeA) hroot (by simp [Fs.procura, hnil]) hal (by decide)
  obtain ⟨hex₁, -⟩ := h₀.criado hc₁
  have hent₁ : fs₁.entradas 1 = [(nomeA.val, 2)] := by rw [hc₁.entradas, hnil]; rfl
  have hroot₁ : fs₁.typeAt 1 = .fsDir := by rw [hc₁.type, if_neg (by omega), hroot]
  have hsize₁ : fs₁.sizeAt 1 = 16 := by rw [hc₁.size, if_neg (by omega), if_pos rfl, hsize₀]
  have hblk₁ : fs₁.slot (1, 0) = 10 := by
    have := hc₁.bloco (hsize₀ 1)
    rw [Fs.inicial_findFreeBlk] at this
    exact (Option.some.inj this).symm
  -- the second file
  obtain ⟨fs₂, hr₂, hc₂⟩ := Fs.fsCriar_em_ordem hex₁.consistent .fsFile (by decide)
    (by decide : ¬badName nomeB) hroot₁ (by simp [Fs.procura, hent₁, nomeA, nomeB])
    (hc₁.alocado_succ hal) (by decide)
  obtain ⟨hex₂, -⟩ := hex₁.criado hc₂
  have hroot₂ : fs₂.typeAt 1 = .fsDir := by rw [hc₂.type, if_neg (by omega), hroot₁]
  have hsize₂ : fs₂.sizeAt 1 = 32 := by rw [hc₂.size, if_neg (by omega), if_pos rfl, hsize₁]
  refine ⟨fs₂, ?_, hex₂, ⟨hroot₂, hsize₂⟩, ⟨?_, ?_⟩, fun i hi => ?_, ?_, fun p => ?_,
    fun b hb hf => ?_⟩
  · have hr₁' : fsCreate (fsFormat (fsNew Fs.discoServidor pilha)) 1 nomeA =
        some (fs₁, some 2) := hr₁
    have hr₂' : fsCreate fs₁ 1 nomeB = some (fs₂, some 3) := hr₂
    simp [Runs.run, FsOp.exec, hr₁', hr₂']
  · rw [hc₂.type, if_neg (by omega), hc₁.type, if_pos rfl]
  · rw [hc₂.type, if_pos rfl]
  · rw [hc₂.size, if_neg hi, hc₁.size, if_neg hi, hsize₀]
    simp
  · rw [hc₂.entradas, hent₁]
    rfl
  · obtain ⟨i, q⟩ := p
    by_cases hi : i = 1
    · subst hi
      by_cases hq : q = 0
      · rw [hq, if_pos rfl, hc₂.slotDir (by rw [hsize₁]; decide), hblk₁]
      · rw [if_neg (by simp [hq])]
        refine (hex₂.consistent.dirs 1 hroot₂).clear q ?_
        rw [hsize₂, offsetToBlocks_le]
        simp only [blockSize]
        omega
    · rw [if_neg (by simp [hi]), hc₂.slot _ hi, hc₁.slot _ hi, hslot₀]
      simp
  · obtain ⟨hf₁, hd₁⟩ := hc₂.livres b hf
    obtain ⟨-, hd₀⟩ := hc₁.livres b hf₁
    rw [hd₁ hb, hd₀ hb, hc₀, hdisk b hb]

theorem semAnexo_dois_ficheiros (pilha : ℕ → ℤ) :
    Runs.Permitted FsOp.exec FsOp.SemAnexo (fsFormat (fsNew Fs.discoServidor pilha))
      [.create 1 nomeA, .create 1 nomeB] :=
  ⟨trivial, fun _ _ _ => ⟨trivial, fun _ _ _ => trivial⟩⟩

/-- A file that the root lists can be removed. -/
theorem Fs.Exacto.fsRemove_file {fs : Fs} (h : fs.Exacto) {d : ℕ} (nome : CString) (n : ℕ)
    (hname : ¬ badName nome) (ht : fs.typeAt d = .fsDir) (hp : fs.procura d nome.val = some n)
    (hn : fs.typeAt n = .fsFile) : ∃ fs', fsRemove fs d nome = some (fs', some n) := by
  rcases Fs.fsRemove_spec h.consistent d nome with ⟨-, hrec⟩ | ⟨fs', n', hr, hrem⟩
  · rcases hrec with hb | hd | hnone | ⟨m, hm, hdir, -⟩
    · exact absurd hb hname
    · exact absurd ht hd
    · simp [hp] at hnone
    · obtain rfl := Option.some.inj (hm.symm.trans hp)
      simp [hn] at hdir
  · obtain rfl := Option.some.inj (hrem.achado.symm.trans hp)
    exact ⟨fs', hr⟩

/-- The second of two files is removed under its own name. -/
theorem fsRemove_removes_name_last :
    ∃ fs rs fs' n, Runs.run FsOp.exec (fsFormat (fsNew Fs.discoServidor fun _ => 7))
        [.create 1 nomeA, .create 1 nomeB] = some (fs, rs) ∧
      fsRemove fs 1 nomeB = some (fs', some n) ∧ RemoveuNome fs fs' 1 nomeB n := by
  obtain ⟨fs, hrun, hd⟩ := dois_ficheiros fun _ => 7
  obtain ⟨fs', hrem⟩ := hd.exacto.fsRemove_file nomeB 3 (by decide) hd.raiz.1
    (by simp [Fs.procura, hd.entradas, nomeA, nomeB]) hd.ficheiro.2
  refine ⟨fs, _, fs', 3, hrun, hrem, ?_⟩
  rw [fsRemove_removes_name_iff _ _ (semAnexo_dois_ficheiros _) hrun hrem, hd.entradas]
  rfl

/-- Removing the first of two files takes the name of the second one out. -/
theorem fsRemove_removes_other_name :
    ∃ fs rs fs' n, Runs.run FsOp.exec (fsFormat (fsNew Fs.discoServidor fun _ => 7))
        [.create 1 nomeA, .create 1 nomeB] = some (fs, rs) ∧
      fsRemove fs 1 nomeA = some (fs', some n) ∧ ¬ RemoveuNome fs fs' 1 nomeA n ∧
      fs'.entradas 1 = [(nomeA.val, n)] := by
  obtain ⟨fs, hrun, hd⟩ := dois_ficheiros fun _ => 7
  have hex := hd.exacto
  have hent := hd.entradas
  have hp : fs.procura 1 nomeA.val = some 2 := by simp [Fs.procura, hent, nomeA]
  obtain ⟨fs', hrem⟩ := hex.fsRemove_file nomeA 2 (by decide) hd.raiz.1 hp hd.ficheiro.1
  rcases Fs.fsRemove_spec hex.consistent 1 nomeA with ⟨hr, -⟩ | ⟨fs₁, n, hr, hremov⟩
  · simp [hr] at hrem
  · obtain ⟨rfl, hn⟩ := Prod.mk.inj (Option.some.inj (hr.symm.trans hrem))
    obtain rfl := Option.some.inj hn
    refine ⟨fs, _, fs₁, 2, hrun, hr, fun hone => ?_, by rw [hremov.entradas, hent]; rfl⟩
    have := (hremov.removeuNome_iff hex.consistent).mp hone
    simp [hent, nomeA, nomeB] at this

end ThreadScheduler.SnfsServer
