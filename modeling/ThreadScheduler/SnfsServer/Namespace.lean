import ThreadScheduler.SnfsServer.Lookup

/-!
# The namespace

A plain model of the names: each directory is the list of what was created in it, in order. While
nothing is removed, every entry names an i-node of its own that is allocated, and the listings, the
searches and the lookups answer what the model says.
-/
namespace ThreadScheduler.SnfsServer

/-- The directories, each with its names, their i-nodes and their types; no other i-node. -/
abbrev Espaco := ℕ → Option (List (List Byte × ℕ × FsItype))

/-- Where a path leads. -/
inductive Alcance where
  | chega (n : ℕ)
  /-- A component is missing in its directory. -/
  | falta
  /-- A component is looked up in a file. -/
  | ficheiro
  deriving DecidableEq

/-- The status of `fs_lookup`. -/
def Alcance.estado : Alcance → ℤ
  | .chega _ => 1
  | .falta => 0
  | .ficheiro => -1

namespace Espaco

/-- The root alone, with no name. -/
def inicial : Espaco := fun d => if d = 1 then some [] else none

def criar (m : Espaco) (tipo : FsItype) (d : ℕ) (nome : List Byte) (n : ℕ) : Espaco :=
  let m := Function.update m d ((m d).map fun l => l ++ [(nome, n, tipo)])
  if tipo = .fsDir then Function.update m n (some []) else m

def procura (m : Espaco) (d : ℕ) (nome : List Byte) : Option ℕ :=
  (m d).bind fun l => (l.find? fun e => e.1 = nome).map fun e => e.2.1

/-- A call that creates a name adds it to its directory, also a copy under a new name. -/
def passo (m : Espaco) : FsOp → Resposta → Espaco
  | .create dir file, .inode (some n) => m.criar .fsFile dir file.val n
  | .mkdir dir newdir, .inode (some n) => m.criar .fsDir dir newdir.val n
  | .copy _ _ dirDestino nomeDestino, .copia 0 _ (some para) =>
      if (m.procura dirDestino nomeDestino.val).isSome then m
      else m.criar .fsFile dirDestino nomeDestino.val para
  | _, _ => m

/-- The names of a path, one after another from `d` on. -/
def seguir (m : Espaco) : ℕ → List (List Byte) → Alcance
  | d, [] => .chega d
  | d, nome :: nomes =>
      match m d with
      | none => .ficheiro
      | some _ =>
          match m.procura d nome with
          | none => .falta
          | some n => m.seguir n nomes

end Espaco

namespace Fs

/-- The names of a state. -/
def espaco (fs : Fs) : Espaco := fun d =>
  if fs.typeAt d = .fsDir then
    some ((fs.entradas d).map fun e => (e.1, e.2, fs.typeAt e.2))
  else none

/-- Every entry of every directory names an allocated i-node, and no two entries the same. -/
structure Ligado (fs : Fs) : Prop where
  alocado : ∀ d e, fs.typeAt d = .fsDir → e ∈ fs.entradas d → fs.alocado e.2 = true
  unico : ∀ d d' e e', fs.typeAt d = .fsDir → fs.typeAt d' = .fsDir → e ∈ fs.entradas d →
    e' ∈ fs.entradas d' → e.2 = e'.2 → d = d' ∧ e = e'

theorem espaco_of_dir {fs : Fs} {d : ℕ} (h : fs.typeAt d = .fsDir) :
    fs.espaco d = some ((fs.entradas d).map fun e => (e.1, e.2, fs.typeAt e.2)) := if_pos h

theorem espaco_of_not_dir {fs : Fs} {d : ℕ} (h : fs.typeAt d ≠ .fsDir) : fs.espaco d = none :=
  if_neg h

theorem espaco_procura (fs : Fs) (d : ℕ) (nome : List Byte) :
    fs.espaco.procura d nome = fs.resolve d nome := by
  unfold Espaco.procura resolve
  by_cases h : fs.typeAt d = .fsDir
  · rw [espaco_of_dir h, if_pos h, Option.bind_some, List.find?_map, Option.map_map]
    rfl
  · rw [espaco_of_not_dir h, if_neg h]
    rfl

/-! ## Calls that create a name -/

section Criado

variable {fs fs' : Fs} {tipo : FsItype} {d n : ℕ} {nome : List Byte}

/-- The entries after the call are those before it and the new one. -/
theorem Criado.mem_entradas (hc : Criado tipo fs fs' d nome n) {x : ℕ}
    {e : List Byte × ℕ} (hx : fs'.typeAt x = .fsDir) (he : e ∈ fs'.entradas x) :
    fs.typeAt x = .fsDir ∧ e ∈ fs.entradas x ∨ x = d ∧ e = (nome, n) := by
  by_cases hxn : x = n
  · subst hxn
    have hz : fs'.entradas x = [] := by
      rw [Fs.entradas, hc.size, if_pos rfl]
      rfl
    rw [hz] at he
    cases he
  · rw [hc.type, if_neg hxn] at hx
    by_cases hxd : x = d
    · subst hxd
      rw [hc.entradas, List.mem_append, List.mem_singleton] at he
      exact he.imp (fun he => ⟨hx, he⟩) fun he => ⟨rfl, he⟩
    · rw [hc.outras x hxd hxn] at he
      exact .inl ⟨hx, he⟩

theorem Ligado.criado (hl : fs.Ligado) (hc : Criado tipo fs fs' d nome n) : fs'.Ligado := by
  have hne : ∀ x e, fs.typeAt x = .fsDir → e ∈ fs.entradas x → e.2 ≠ n := by
    intro x e hx he hen
    have := hl.alocado x e hx he
    rw [hen, hc.livre] at this
    cases this
  refine ⟨fun x e hx he => ?_, fun x x' e e' hx hx' he he' heq => ?_⟩
  · rw [hc.alocado]
    obtain ⟨hx, he⟩ | ⟨-, rfl⟩ := hc.mem_entradas hx he
    · rw [hl.alocado x e hx he, Bool.or_true]
    · simp
  · obtain ⟨hx, he⟩ | ⟨rfl, rfl⟩ := hc.mem_entradas hx he
    · obtain ⟨hx', he'⟩ | ⟨rfl, rfl⟩ := hc.mem_entradas hx' he'
      · exact hl.unico x x' e e' hx hx' he he' heq
      · exact absurd heq (hne x e hx he)
    · obtain ⟨hx', he'⟩ | ⟨rfl, rfl⟩ := hc.mem_entradas hx' he'
      · exact absurd heq.symm (hne x' e' hx' he')
      · exact ⟨rfl, rfl⟩

theorem Ligado.espaco_criado (hl : fs.Ligado) (h : fs.Consistent)
    (hc : Criado tipo fs fs' d nome n) :
    fs'.espaco = fs.espaco.criar tipo d nome n := by
  have hdn : d ≠ n := hc.ne_of_alocado (h.alocado_of_type (by simp [hc.dir]))
  -- the entries that were there keep their types
  have hold : ∀ x, fs.typeAt x = .fsDir →
      (fs.entradas x).map (fun e => (e.1, e.2, fs'.typeAt e.2)) =
        (fs.entradas x).map fun e => (e.1, e.2, fs.typeAt e.2) := by
    intro x hx
    refine List.map_congr_left fun e he => ?_
    have hen : e.2 ≠ n := hc.ne_of_alocado (hl.alocado x e hx he)
    rw [hc.type, if_neg hen]
  have hnew : fs.espaco n = none :=
    espaco_of_not_dir (by rw [(h.inodes.livre n hc.livre).1]; decide)
  funext x
  unfold Espaco.criar
  by_cases hxn : x = n
  · subst hxn
    by_cases ht : tipo = .fsDir
    · have hz : fs'.entradas x = [] := by
        rw [entradas, hc.size, if_pos rfl]
        rfl
      rw [espaco_of_dir (by rw [hc.type, if_pos rfl, ht]), hz, if_pos ht, Function.update_self]
      rfl
    · rw [espaco_of_not_dir (by rw [hc.type, if_pos rfl]; exact ht), if_neg ht,
        Function.update_of_ne (Ne.symm hdn), hnew]
  · have hout : ∀ m : Espaco, (if tipo = .fsDir then Function.update m n (some []) else m) x =
        m x := by
      intro m
      split
      · exact Function.update_of_ne hxn _ _
      · rfl
    rw [hout]
    by_cases hxd : x = d
    · subst hxd
      rw [Function.update_self, espaco_of_dir (by rw [hc.type, if_neg hxn, hc.dir]),
        espaco_of_dir hc.dir, hc.entradas, List.map_append, hold x hc.dir]
      simp [hc.type]
    · rw [Function.update_of_ne hxd]
      by_cases hx : fs.typeAt x = .fsDir
      · rw [espaco_of_dir (by rw [hc.type, if_neg hxn, hx]), espaco_of_dir hx,
          hc.outras x hxd hxn, hold x hx]
      · rw [espaco_of_not_dir (by rw [hc.type, if_neg hxn]; exact hx), espaco_of_not_dir hx]

end Criado

/-! ## Calls that leave the names alone -/

/-- The call changed no name, no type and no bit of the i-node bitmap. -/
structure MesmosNomes (fs fs' : Fs) : Prop where
  inodeBmap : fs'.inodeBmap = fs.inodeBmap
  type : ∀ j, fs'.typeAt j = fs.typeAt j
  entradas : ∀ x, fs.typeAt x = .fsDir → fs'.entradas x = fs.entradas x

section MesmosNomes

variable {fs fs' : Fs}

theorem MesmosNomes.espaco (h : MesmosNomes fs fs') : fs'.espaco = fs.espaco := by
  funext x
  unfold Fs.espaco
  rw [h.type]
  split
  · rename_i hx
    simp only [h.entradas x hx, h.type]
  · rfl

theorem Ligado.mesmosNomes (hl : fs.Ligado) (h : MesmosNomes fs fs') : fs'.Ligado := by
  refine ⟨fun x e hx he => ?_, fun x x' e e' hx hx' he he' => ?_⟩
  · rw [h.type] at hx
    rw [h.entradas x hx] at he
    rw [Fs.alocado, h.inodeBmap]
    exact hl.alocado x e hx he
  · rw [h.type] at hx hx'
    rw [h.entradas x hx] at he
    rw [h.entradas x' hx'] at he'
    exact hl.unico x x' e e' hx hx' he he'

/-- A call that changes the size and the pages of one file. -/
theorem mesmosNomes_of_ficheiro (h : fs.Consistent) {file : ℕ} (ht : fs.typeAt file = .fsFile)
    (hb : fs'.inodeBmap = fs.inodeBmap) (htype : ∀ j, fs'.typeAt j = fs.typeAt j)
    (hsize : ∀ j, j ≠ file → fs'.sizeAt j = fs.sizeAt j)
    (hpag : ∀ p ∈ fs.emUso, p.1 ≠ file → fs'.pagina p = fs.pagina p) : MesmosNomes fs fs' := by
  refine ⟨hb, htype, fun x hx => ?_⟩
  have hne : x ≠ file := by
    rintro rfl
    rw [ht] at hx
    cases hx
  exact entradas_congr (hsize x hne) fun q hq => hpag _ (h.mem_emUso_iff.mpr hq) hne

theorem Escrito.mesmosNomes (h : fs.Consistent) {file offset count : ℕ} {buffer : ℕ → Byte}
    (hw : Escrito fs fs' file offset count buffer) : MesmosNomes fs fs' :=
  mesmosNomes_of_ficheiro h hw.ficheiro hw.inodeBmap hw.type hw.size hw.pagina

theorem Copiado.mesmosNomes (h : fs.Consistent) {de para : ℕ} (hc : Copiado fs fs' de para) :
    MesmosNomes fs fs' :=
  mesmosNomes_of_ficheiro h hc.destino hc.inodeBmap hc.type
    (fun j hj => by rw [hc.size, if_neg hj]) hc.pagina

theorem mesmosNomes_withCache {c : CacheT} (hc : c.conteudo = fs.cache.conteudo) :
    MesmosNomes fs (fs.withCache c) :=
  ⟨rfl, fun _ => rfl, fun _ _ => entradas_congr rfl fun q _ => by
    simp only [pagina, withCache_cache, hc, withCache_slot]⟩

end MesmosNomes

/-! ## Lookups -/

theorem fsLookupLoop_eq {fs : Fs} (h : fs.Consistent) (hl : fs.Ligado) (nomes : List CString)
    {d : ℕ} (hd : fs.alocado d = true) (fileid : Option ℕ) :
    ∃ f, fsLookupLoop fs d fileid (nomes.map Subtype.val) =
        some (fs, (fs.espaco.seguir d (nomes.map Subtype.val)).estado, f) ∧
      ∀ n, fs.espaco.seguir d (nomes.map Subtype.val) = .chega n →
        f = if nomes = [] then fileid else some n := by
  induction nomes generalizing d fileid with
  | nil => exact ⟨fileid, rfl, fun _ _ => rfl⟩
  | cons nome nomes ih =>
      have hbit : (!bmapIsSet fs.inodeBmap d) = false := by
        rw [show bmapIsSet fs.inodeBmap d = true from hd]
        rfl
      rw [List.map_cons, fsLookupLoop, hbit, Espaco.seguir]
      by_cases ht : fs.typeAt d = .fsDir
      · have ht' : ¬(fs.inodeTab d).type ≠ .fsDir := not_not.mpr ht
        rw [if_neg (by simp), if_neg ht', h.fsiDirSearch_eq ht nome.property, Option.bind_some,
          espaco_of_dir ht, espaco_procura, resolve_of_dir ht]
        cases hp : fs.procura d nome.val with
        | none => exact ⟨fileid, rfl, fun _ he => nomatch he⟩
        | some n =>
            have hn : fs.alocado n = true := hl.alocado d _ ht (mem_of_procura hp)
            obtain ⟨f, hf, hn⟩ := ih hn (some n)
            refine ⟨f, hf, fun k hk => ?_⟩
            rw [hn k hk, if_neg (List.cons_ne_nil nome nomes)]
            split
            · rename_i hnil
              subst hnil
              exact congrArg some (Alcance.chega.inj hk)
            · rfl
      · have ht' : (fs.inodeTab d).type ≠ .fsDir := ht
        rw [if_neg (by simp), if_pos ht', espaco_of_not_dir ht]
        exact ⟨fileid, rfl, fun _ he => nomatch he⟩

/-! ## Runs -/

end Fs

/-- The calls that remove no name and copy between different i-nodes. -/
def FsOp.SemRemocao (fs : Fs) : FsOp → Prop
  | copy d₁ nome₁ d₂ nome₂ => ∀ n, fs.resolve d₁ nome₁.val = some n →
      fs.resolve d₂ nome₂.val ≠ some n
  | remove _ _ => False
  | append _ _ _ _ => False
  | defrag => False
  | _ => True

namespace Fs

/-- A read moves blocks through the cache, and no name. -/
theorem Exacto.fsRead_nomes {fs : Fs} (h : fs.Exacto) (file offset count : ℕ) :
    ∃ fs' r, fsRead fs file offset count = some (fs', r) ∧ fs'.Exacto ∧ MesmosNomes fs fs' := by
  by_cases ht : fs.typeAt file = .fsFile
  · obtain ⟨c, hr, hcons, hc⟩ := h.consistent.fsRead_eq ht offset count
    exact ⟨_, _, hr, (h.withCache hc hcons).1, mesmosNomes_withCache hc⟩
  · obtain ⟨fs', hr, hex, -⟩ := h.fsRead_eq file offset count
    have ht' : (fs.inodeTab file).type ≠ .fsFile := ht
    have hsame : fs' = fs := by
      simp only [fsRead, ht', ne_eq, not_false_eq_true, if_true] at hr
      split_ifs at hr <;> exact (Prod.mk.inj (Option.some.inj hr)).1.symm
    subst hsame
    exact ⟨fs', _, hr, hex, rfl, fun _ => rfl, fun _ _ => rfl⟩

/-- The destination of a copy under a new name is created first. -/
theorem Ligado.destinoDe {fs fs₁ : Fs} (hl : fs.Ligado) (h : fs.Consistent) {d para : ℕ}
    {nome : List Byte} (hd : DestinoDe fs fs₁ d nome para) :
    fs₁.Ligado ∧ fs₁.espaco =
      if (fs.espaco.procura d nome).isSome then fs.espaco
      else fs.espaco.criar .fsFile d nome para := by
  rw [espaco_procura]
  cases hd with
  | achado hp he =>
      subst he
      rw [hp]
      exact ⟨hl, rfl⟩
  | criado hc =>
      rw [resolve_of_dir hc.dir, hc.nova]
      exact ⟨hl.criado hc, hl.espaco_criado h hc⟩

/-- A copy is refused, or its destination has the name afterwards. -/
theorem Exacto.fsCopy_nomes {fs : Fs} (h : fs.Exacto) (hl : fs.Ligado) (d₁ : ℕ) (nome₁ : CString)
    (d₂ : ℕ) (nome₂ : CString)
    (hpart : ∀ n, fs.resolve d₁ nome₁.val = some n → fs.resolve d₂ nome₂.val = some n →
      fs.typeAt n = .fsFile → fs.Partilha n n) :
    fsCopy fs d₁ nome₁ d₂ nome₂ = some (fs, -1) ∨
      ∃ fs' para, fsCopy fs d₁ nome₁ d₂ nome₂ = some (fs', 0) ∧ fs'.Exacto ∧ fs'.Ligado ∧
        fs'.resolve d₂ nome₂.val = some para ∧ fs'.espaco =
          if (fs.espaco.procura d₂ nome₂.val).isSome then fs.espaco
          else fs.espaco.criar .fsFile d₂ nome₂.val para := by
  rcases h.fsCopy_spec d₁ nome₁ d₂ nome₂ hpart with
    hr | ⟨fs₁, fs', de, para, hr, -, -, hdest, hcop⟩
  · exact .inl hr
  · obtain ⟨hex₁, hpara, -, -⟩ := h.destinoDe hdest
    obtain ⟨hl₁, hesp⟩ := hl.destinoDe h.consistent hdest
    have hm := hcop.mesmosNomes hex₁.consistent
    exact .inr ⟨fs', para, hr, (hex₁.copiado hcop).1, hl₁.mesmosNomes hm,
      (hcop.resolve hex₁.consistent _ _).trans hpara, hm.espaco.trans hesp⟩

/-- The calls of a run without removal, one by one: nothing stops the server, and the names change
as the model says. -/
theorem Exacto.exec_espaco {fs : Fs} (h : fs.Exacto) (hl : fs.Ligado) {op : FsOp}
    (hop : op.SemRemocao fs) :
    ∃ fs' r, op.exec fs = some (fs', r) ∧ fs'.Exacto ∧ fs'.Ligado ∧
      fs'.espaco = fs.espaco.passo op r := by
  have hcons := h.consistent
  cases op with
  | create dir file =>
      rcases fsCriar_spec hcons .fsFile (by decide) dir file with ⟨hr, -⟩ | ⟨fs', n, hr, hc⟩
      · exact ⟨fs, .inode none, by simp [FsOp.exec, fsCreate, hr], h, hl, rfl⟩
      · exact ⟨fs', .inode (some n), by simp [FsOp.exec, fsCreate, hr], (h.criado hc).1,
          hl.criado hc, hl.espaco_criado hcons hc⟩
  | mkdir dir newdir =>
      rcases fsCriar_spec hcons .fsDir (by decide) dir newdir with ⟨hr, -⟩ | ⟨fs', n, hr, hc⟩
      · exact ⟨fs, .inode none, by simp [FsOp.exec, fsMkdir, hr], h, hl, rfl⟩
      · exact ⟨fs', .inode (some n), by simp [FsOp.exec, fsMkdir, hr], (h.criado hc).1,
          hl.criado hc, hl.espaco_criado hcons hc⟩
  | write file offset count buffer lixo =>
      rcases fsWrite_spec hcons file offset count buffer lixo with ⟨hr, -⟩ | ⟨fs', hr, hw⟩
      · exact ⟨fs, .estado (-1), by simp [FsOp.exec, hr], h, hl, rfl⟩
      · have hm := hw.mesmosNomes hcons
        exact ⟨fs', .estado 0, by simp [FsOp.exec, hr], (h.escrito hw).1, hl.mesmosNomes hm,
          hm.espaco⟩
  | read file offset count =>
      obtain ⟨fs', r, hr, hex, hm⟩ := h.fsRead_nomes file offset count
      exact ⟨fs', .lido r, by simp [FsOp.exec, hr], hex, hl.mesmosNomes hm, hm.espaco⟩
  | copy d₁ nome₁ d₂ nome₂ =>
      rcases h.fsCopy_nomes hl d₁ nome₁ d₂ nome₂ (fun n h₁ h₂ => absurd h₂ (hop n h₁)) with
        hr | ⟨fs', para, hr, hex, hl', hpara, hesp⟩
      · exact ⟨fs, .copia (-1) (fs.resolve d₁ nome₁.val) (fs.resolve d₂ nome₂.val),
          by simp [FsOp.exec, hr], h, hl, rfl⟩
      · exact ⟨fs', .copia 0 (fs'.resolve d₁ nome₁.val) (some para),
          by simp [FsOp.exec, hr, hpara], hex, hl', hesp⟩
  | remove d nome => exact absurd hop id
  | append _ _ _ _ => exact absurd hop id
  | defrag => exact absurd hop id
  | actualizar intervalo =>
      have hs := actualizarCache_settled hcons.acc.coherent intervalo
      have hc : (actualizarCache fs.cache intervalo).conteudo = fs.cache.conteudo :=
        funext hs.conteudo
      have hacc := hcons.acc.withCache (hs.coherent hcons.acc.coherent) hs.numBlocks
        fun b hv => .inl (hs.valid hv)
      have hm : MesmosNomes fs _ := mesmosNomes_withCache hc
      exact ⟨_, _, rfl, (h.withCache hc (hcons.withCache hacc hc)).1, hl.mesmosNomes hm, hm.espaco⟩

/-! ## Answers -/

/-- The calls that only look at the names answer what a model says. -/
structure Responde (fs : Fs) (m : Espaco) : Prop where
  directorio : ∀ d, fs.typeAt d = .fsDir ↔ (m d).isSome
  /-- An i-node has one name. -/
  unico : ∀ d d' l l' e e', m d = some l → m d' = some l' → e ∈ l → e' ∈ l' → e.2.1 = e'.2.1 →
    d = d' ∧ e = e'
  listagem : ∀ d l, m d = some l → ∀ maxentries : ℤ, l.length ≤ maxentries →
    fsReaddir fs d maxentries = some (fs, some (l.map fun e => (e.1, e.2.2)))
  pesquisa : ∀ d l, m d = some l → ∀ nome : CString,
    fsiDirSearch fs d nome.val = some (fs, m.procura d nome.val)
  /-- A path of names is found at the i-node it leads to; else a name is missing, or a component is
  looked up in a file. -/
  caminhos : ∀ nomes : List CString, nomes ≠ [] → (∀ nome ∈ nomes, barra ∉ nome.val) →
    (∀ nome ∈ nomes, nome.val ≠ []) → (caminho nomes).length < maxPathNameSize →
    ∃ fileid, fsLookup fs ⟨caminho nomes, zero_notMem_caminho nomes⟩ =
        some (fs, (m.seguir 1 (nomes.map Subtype.val)).estado, fileid) ∧
      ∀ n, m.seguir 1 (nomes.map Subtype.val) = .chega n → fileid = some n

theorem espaco_eq_some_iff {fs : Fs} {d : ℕ} {l : List (List Byte × ℕ × FsItype)} :
    fs.espaco d = some l ↔
      fs.typeAt d = .fsDir ∧ (fs.entradas d).map (fun e => (e.1, e.2, fs.typeAt e.2)) = l := by
  unfold Fs.espaco
  by_cases h : fs.typeAt d = .fsDir
  · rw [if_pos h, Option.some_inj, and_iff_right h]
  · rw [if_neg h]
    simp [h]

theorem Ligado.responde {fs : Fs} (hl : fs.Ligado) (h : fs.Consistent) :
    fs.Responde fs.espaco := by
  refine ⟨fun d => ?_, fun d d' l l' e e' hd hd' he he' heq => ?_, fun d l hd max hmax => ?_,
    fun d l hd nome => ?_, fun nomes hne hbarra hvazio hlen => ?_⟩
  · rw [Fs.espaco]
    split <;> simp_all
  · obtain ⟨ht, rfl⟩ := espaco_eq_some_iff.mp hd
    obtain ⟨ht', rfl⟩ := espaco_eq_some_iff.mp hd'
    obtain ⟨x, hx, rfl⟩ := List.mem_map.mp he
    obtain ⟨x', hx', rfl⟩ := List.mem_map.mp he'
    obtain ⟨rfl, rfl⟩ := hl.unico d d' x x' ht ht' hx hx' heq
    exact ⟨rfl, rfl⟩
  · obtain ⟨ht, rfl⟩ := espaco_eq_some_iff.mp hd
    rw [List.length_map] at hmax
    rw [h.fsReaddir_eq ht (by omega), List.take_of_length_le (by omega), List.map_map]
    rfl
  · obtain ⟨ht, -⟩ := espaco_eq_some_iff.mp hd
    rw [h.fsiDirSearch_eq ht nome.property, espaco_procura, resolve_of_dir ht]
  · obtain ⟨f, hf, hn⟩ := fsLookupLoop_eq h hl nomes h.inodes.root.1 none
    refine ⟨f, ?_, fun n hc => by rw [hn n hc, if_neg hne]⟩
    have hhead : (caminho nomes).head? = some barra := by
      cases nomes with
      | nil => exact absurd rfl hne
      | cons nome nomes => rfl
    unfold fsLookup
    rw [if_neg (not_not.mpr hhead), if_neg (by simpa using hlen), strtok_caminho hbarra hvazio, hf]

/-! ## Runs -/

theorem inicial_ligado (pilha : ℕ → ℤ) : (inicial pilha).Ligado := by
  constructor
  · intro d e _ he
    rw [inicial_entradas] at he
    cases he
  · intro d d' e e' _ _ he
    rw [inicial_entradas] at he
    cases he

theorem inicial_espaco (pilha : ℕ → ℤ) : (inicial pilha).espaco = Espaco.inicial := by
  obtain ⟨-, -, -, -, -, -, -, -, htab⟩ := inicial_spec pilha
  funext d
  have ht : (inicial pilha).typeAt d = .fsDir ↔ d = 1 := by
    rw [typeAt, htab]
    simp only [fsiInodeInit]
    split <;> simp_all
  rw [Fs.espaco, Espaco.inicial, inicial_entradas]
  exact if_congr ht rfl rfl

/-- Every run without removal ends in an exact state, with its names in order. -/
theorem ligado_of_run (pilha : ℕ → ℤ) (ops : List FsOp)
    (hops : Runs.Permitted FsOp.exec FsOp.SemRemocao (inicial pilha) ops) :
    ∃ fs rs, Runs.run FsOp.exec (inicial pilha) ops = some (fs, rs) ∧ fs.Exacto ∧ fs.Ligado :=
  Runs.run_total (I := fun fs => fs.Exacto ∧ fs.Ligado)
    (fun s a h ha => by
      obtain ⟨s', o, hs, hex, hl, -⟩ := h.1.exec_espaco h.2 ha
      exact ⟨s', o, hs, hex, hl⟩) ⟨inicial_exacto pilha, inicial_ligado pilha⟩ hops

end Fs

/-- After any run without removal on the formatted disk, the listings, the searches and the lookups
answer what was created in the run. -/
theorem nomes_after_run (pilha : ℕ → ℤ) (ops : List FsOp)
    (hops : Runs.Permitted FsOp.exec FsOp.SemRemocao
      (fsFormat (fsNew Fs.discoServidor pilha)) ops) :
    ∃ fs rs, Runs.run FsOp.exec (fsFormat (fsNew Fs.discoServidor pilha)) ops = some (fs, rs) ∧
      fs.Responde (Runs.replay Espaco.passo Espaco.inicial ops rs) := by
  have hini : (Fs.inicial pilha).Exacto ∧ (Fs.inicial pilha).Ligado :=
    ⟨Fs.inicial_exacto pilha, Fs.inicial_ligado pilha⟩
  obtain ⟨fs, rs, hr, hex, hl⟩ := Fs.ligado_of_run pilha ops hops
  refine ⟨fs, rs, hr, ?_⟩
  have hmodel := Runs.run_refines (I := fun fs => fs.Exacto ∧ fs.Ligado) Espaco.passo Fs.espaco
    (fun s a s' o h ha hs => by
      obtain ⟨s₁, r₁, hr₁, hex₁, hl₁, hm₁⟩ := h.1.exec_espaco h.2 ha
      obtain ⟨rfl, rfl⟩ := Prod.mk.inj (Option.some.inj (hr₁.symm.trans hs))
      exact ⟨⟨hex₁, hl₁⟩, hm₁⟩) hini hops hr
  rw [show (fsFormat (fsNew Fs.discoServidor pilha)).espaco = Espaco.inicial from
    Fs.inicial_espaco pilha] at hmodel
  rw [← hmodel]
  exact hl.responde hex.consistent

/-- A directory with a file in it. -/
theorem nomes_after_run_mkdir :
    ∃ fs rs, Runs.run FsOp.exec (fsFormat (fsNew Fs.discoServidor fun _ => 7))
        [.mkdir 1 ⟨[97], by decide⟩, .create 2 ⟨[98], by decide⟩,
          .write 3 0 3 (fun k => BitVec.ofNat 8 k) nullBlock] = some (fs, rs) ∧
      fs.Responde (Runs.replay Espaco.passo Espaco.inicial
        [.mkdir 1 ⟨[97], by decide⟩, .create 2 ⟨[98], by decide⟩,
          .write 3 0 3 (fun k => BitVec.ofNat 8 k) nullBlock] rs) := by
  refine nomes_after_run (fun _ => 7) _ (Runs.permitted_of_forall fun a ha s => ?_)
  fin_cases ha <;> trivial

end ThreadScheduler.SnfsServer
