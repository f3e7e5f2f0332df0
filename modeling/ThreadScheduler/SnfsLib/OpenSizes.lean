import ThreadScheduler.SnfsLib.Client
import ThreadScheduler.SnfsServer.CopyAtomicity

/-!
# The size in a new descriptor

One variable of `my_open` takes the size of the file, and then, when there is no such file, that of
the directory in which it is made.
-/
namespace ThreadScheduler.SnfsServer

variable {fs fs' : Fs}

/-! ## What a lookup leaves -/

/-- A directory is read from the disk, past the cache. -/
theorem fsiDirSearchLoop_fs {dir : ℕ} {file : List Byte} (hdir : (fs.inodeTab dir).type = .fsDir)
    (num : ℕ) {iblock : ℕ} {found : Option ℕ}
    (h : fsiDirSearchLoop fs dir file num iblock = some (fs', found)) : fs' = fs := by
  induction num using Nat.strong_induction_on generalizing iblock with
  | h num ih =>
      rw [fsiDirSearchLoop] at h
      split at h
      · exact (Prod.mk.inj (Option.some.inj h)).1.symm
      · rename_i hne
        rw [Fs.lerBloco, hdir, if_neg (by decide), Option.bind_some] at h
        dsimp only at h
        split at h
        · exact (Prod.mk.inj (Option.some.inj h)).1.symm
        · exact ih _ (Fs.sub_page_lt hne) h

/-- A lookup changes nothing, and a path with a name in it sets `*fileid`. -/
theorem fsLookupLoop_fs {dir : ℕ} {fileid fileid' : Option ℕ} (tokens : List (List Byte))
    {status : ℤ} (h : fsLookupLoop fs dir fileid tokens = some (fs', status, fileid')) :
    fs' = fs ∧ (status = 1 → tokens ≠ [] ∨ fileid.isSome → fileid'.isSome) := by
  induction tokens generalizing dir fileid with
  | nil =>
      obtain ⟨rfl, hr⟩ := Prod.mk.inj (Option.some.inj h)
      obtain ⟨-, rfl⟩ := Prod.mk.inj hr
      refine ⟨rfl, fun _ hor => ?_⟩
      obtain hne | hsome := hor
      · exact absurd rfl hne
      · exact hsome
  | cons token tokens ih =>
      rw [fsLookupLoop] at h
      split at h
      · obtain ⟨rfl, hr⟩ := Prod.mk.inj (Option.some.inj h)
        obtain ⟨rfl, -⟩ := Prod.mk.inj hr
        exact ⟨rfl, fun hst => absurd hst (by decide)⟩
      split at h
      · obtain ⟨rfl, hr⟩ := Prod.mk.inj (Option.some.inj h)
        obtain ⟨rfl, -⟩ := Prod.mk.inj hr
        exact ⟨rfl, fun hst => absurd hst (by decide)⟩
      rename_i hdir
      obtain ⟨⟨fs₁, found⟩, hs, h⟩ := Option.bind_eq_some_iff.mp h
      obtain rfl : fs₁ = fs := fsiDirSearchLoop_fs (not_not.mp hdir) _ hs
      cases found with
      | none =>
          obtain ⟨rfl, hr⟩ := Prod.mk.inj (Option.some.inj h)
          obtain ⟨rfl, -⟩ := Prod.mk.inj hr
          exact ⟨rfl, fun hst => absurd hst (by decide)⟩
      | some fid =>
          obtain ⟨hfs, hfileid⟩ := ih h
          exact ⟨hfs, fun hst _ => hfileid hst (Or.inr rfl)⟩

/-- The path is at the i-node. -/
def Fs.EstaEm (fs : Fs) (pname : CString) (lixo file : ℕ) : Prop :=
  snfsLookup fs pname lixo = some (fs, .lookup file (fs.sizeAt file))

theorem Fs.EstaEm.unico {pname : CString} {lixo file file' : ℕ} (h : fs.EstaEm pname lixo file)
    (h' : fs.EstaEm pname lixo file') : file = file' := by
  have heq := Option.some.inj (h.symm.trans h')
  rw [Prod.mk.injEq, SnfsMsgRes.lookup.injEq] at heq
  exact heq.2.1

/-- The handler answers with the size of the i-node, or with `RES_ERROR`. -/
theorem snfsLookup_casos {pname : CString} {lixo : ℕ} {res : SnfsMsgRes}
    (h : snfsLookup fs pname lixo = some (fs', res)) :
    fs' = fs ∧ (res = .error ∨ ∃ file, res = .lookup file (fs.sizeAt file)) := by
  obtain ⟨⟨fs₁, status, fileid⟩, hl, hr⟩ := Option.bind_eq_some_iff.mp h
  have hfs : fs₁ = fs := by
    rw [fsLookup] at hl
    split at hl
    · exact (Prod.mk.inj (Option.some.inj hl)).1.symm
    split at hl
    · cases hl
    · exact (fsLookupLoop_fs _ hl).1
  subst hfs
  dsimp only at hr
  split at hr
  · obtain ⟨attrs, hattrs, hres⟩ := Option.map_eq_some_iff.mp hr
    cases attrs with
    | none =>
        obtain ⟨rfl, rfl⟩ := Prod.mk.inj hres
        exact ⟨rfl, Or.inl rfl⟩
    | some attrs =>
        obtain ⟨rfl, rfl⟩ := Prod.mk.inj hres
        refine ⟨rfl, Or.inr ⟨fileid.getD lixo, ?_⟩⟩
        rw [Fs.fsGetAttrs_size hattrs]
  · obtain ⟨rfl, rfl⟩ := Prod.mk.inj (Option.some.inj hr)
    exact ⟨rfl, Or.inl rfl⟩

/-- What `fileid` holds at first is read only for a path without a name. -/
theorem snfsLookup_lixo {pname : CString} (hne : strtok pname.val ≠ []) (lixo lixo' : ℕ) :
    snfsLookup fs pname lixo = snfsLookup fs pname lixo' := by
  unfold snfsLookup
  refine Option.bind_congr fun r hr => ?_
  obtain ⟨fs₁, status, fileid⟩ := r
  dsimp only
  split_ifs with hst
  · have hsome : fileid.isSome := by
      rw [fsLookup] at hr
      split at hr
      · rw [← (Prod.mk.inj (Prod.mk.inj (Option.some.inj hr)).2).1] at hst
        exact absurd hst (by decide)
      split at hr
      · cases hr
      · exact (fsLookupLoop_fs _ hr).2 hst (Or.inl hne)
    obtain ⟨file, rfl⟩ := Option.isSome_iff_exists.mp hsome
    rfl
  · rfl

/-- A new i-node is empty, and has a name. -/
theorem snfsCreate_vazio {dir file : ℕ} {name : CString}
    (h : snfsCreate fs dir name = some (fs', .create file)) :
    fs'.sizeAt file = 0 ∧ name.val ≠ [] := by
  obtain ⟨⟨fs₁, fileid⟩, hc, hr⟩ := Option.map_eq_some_iff.mp h
  cases fileid with
  | none => cases (Prod.mk.inj hr).2
  | some fileid =>
      obtain ⟨rfl, hres⟩ := Prod.mk.inj hr
      obtain rfl := SnfsMsgRes.create.inj hres
      rcases fsCriar_casos hc with ⟨hno, -⟩ | ⟨finode, fs₂, hadm, -, hr⟩
      · cases (Prod.mk.inj hno).2
      · obtain ⟨rfl, hfinode⟩ := Prod.mk.inj hr
        obtain rfl := Option.some.inj hfinode
        constructor
        · rw [(store_same _).size, comNovo_sizeAt, if_pos rfl]
        · intro hnil
          refine hadm.nome (Or.inl ?_)
          simp [terminar, hnil]

end ThreadScheduler.SnfsServer

namespace ThreadScheduler.SnfsLib
open SnfsServer CBuffers

variable {c c' : Cliente} {fs fs' : Fs} {name : CString} {flags : ℤ} {lixo lixo' : ℕ} {r : ℤ}

/-! ## The calls of `my_open` -/

theorem snfsLookup_some {file fsize : ℕ}
    (h : snfsLookup fs name lixo = some (fs', file, some fsize)) :
    fs' = fs ∧ fsize = fs.sizeAt file ∧ fs.EstaEm name lixo file := by
  unfold snfsLookup at h
  split at h
  · cases h
  obtain ⟨⟨fs₁, res⟩, hl, h⟩ := Option.map_eq_some_iff.mp h
  obtain ⟨rfl, rfl | ⟨file', rfl⟩⟩ := snfsLookup_casos hl
  · cases (Prod.mk.inj (Prod.mk.inj h).2).2
  · obtain ⟨rfl, hr⟩ := Prod.mk.inj h
    obtain ⟨rfl, hsize⟩ := Prod.mk.inj hr
    exact ⟨rfl, (Option.some.inj hsize).symm, hl⟩

theorem snfsLookup_none {file : ℕ} (h : snfsLookup fs name lixo = some (fs', file, none)) :
    fs' = fs ∧ ∀ file, ¬ fs.EstaEm name lixo file := by
  unfold snfsLookup at h
  split at h
  · cases h
  obtain ⟨⟨fs₁, res⟩, hl, h⟩ := Option.map_eq_some_iff.mp h
  obtain ⟨rfl, rfl | ⟨file', rfl⟩⟩ := snfsLookup_casos hl
  · obtain ⟨rfl, -⟩ := Prod.mk.inj h
    refine ⟨rfl, fun file hfile => ?_⟩
    cases (Prod.mk.inj (Option.some.inj (hl.symm.trans hfile))).2
  · cases (Prod.mk.inj (Prod.mk.inj h).2).2

/-- A file that `my_open` makes, and the lookup of the directory before. -/
structure Feito (c c' : Cliente) (fs fs' : Fs) (name : CString) (lixo lixo' : ℕ) (r : ℤ) :
    Prop where
  aceite : myparse name = some 0
  falta : ∀ file, ¬ fs.EstaEm name lixo file
  feito : ∃ corte newdirname newfilename dir procura dir' file,
    myOpenCorte name = some corte ∧ cadeia corte.newdirname = some newdirname ∧
    cadeia corte.newfilename = some newfilename ∧
    snfsLookup fs newdirname lixo' = some (fs, dir, procura) ∧
    snfsCreate fs dir' newfilename = some (fs', some file) ∧
    (c', r) = abrir c file (procura.getD 0)

/-- A call that succeeds finds the file, or makes it. -/
theorem myOpen_casos (h : myOpen c fs name flags lixo lixo' = some (c', fs', r)) (hr : r ≠ -1) :
    (fs' = fs ∧ ∃ file, fs.EstaEm name lixo file ∧ (c', r) = abrir c file (fs.sizeAt file)) ∨
      Feito c c' fs fs' name lixo lixo' r := by
  have hmenos : ∀ {x : Cliente × Fs}, some (x.1, x.2, (-1 : ℤ)) ≠ some (c', fs', r) :=
    fun he => hr (Prod.mk.inj (Prod.mk.inj (Option.some.inj he)).2).2.symm
  unfold myOpen at h
  by_cases hlib : (!c.libInitted) = true
  · rw [if_pos hlib] at h
    exact absurd h (hmenos (x := (c, fs)))
  by_cases hmax : maxOpenFiles ≤ c.openFiles
  · rw [if_neg hlib, if_pos hmax] at h
    exact absurd h (hmenos (x := (c, fs)))
  rw [if_neg hlib, if_neg hmax] at h
  obtain ⟨p, hp, hres⟩ := Option.bind_eq_some_iff.mp h
  by_cases hzero : p ≠ 0
  · rw [if_pos hzero] at hres
    exact absurd hres (hmenos (x := (c, fs)))
  rw [if_neg hzero] at hres
  obtain rfl : p = 0 := not_not.mp hzero
  obtain ⟨corte, hcorte, hres⟩ := Option.bind_eq_some_iff.mp hres
  obtain ⟨⟨fs₁, file_fh, procura⟩, hl, hres₁⟩ := Option.bind_eq_some_iff.mp hres
  dsimp only at hres₁
  cases procura with
  | some fsize =>
      obtain ⟨rfl, rfl, hem⟩ := snfsLookup_some hl
      obtain ⟨rfl, hr'⟩ := Prod.mk.inj (Option.some.inj hres₁)
      obtain ⟨rfl, rfl⟩ := Prod.mk.inj hr'
      exact Or.inl ⟨rfl, file_fh, hem, rfl⟩
  | none =>
      obtain ⟨rfl, hfalta⟩ := snfsLookup_none hl
      obtain ⟨newdirname, hdir, hres₂⟩ := Option.bind_eq_some_iff.mp hres₁
      obtain ⟨⟨fs₂, dir, procura⟩, hl', hres₃⟩ := Option.bind_eq_some_iff.mp hres₂
      have hfs : fs₂ = fs₁ := by
        cases procura with
        | none => exact (snfsLookup_none hl').1
        | some fsize => exact (snfsLookup_some hl').1
      subst hfs
      dsimp only at hres₃
      by_cases hflags : flags = oCreate
      · rw [if_pos hflags] at hres₃
        obtain ⟨newfilename, hfile, hres₄⟩ := Option.bind_eq_some_iff.mp hres₃
        obtain ⟨⟨fs₃, novo⟩, hc, hres₅⟩ := Option.bind_eq_some_iff.mp hres₄
        cases novo with
        | none => exact absurd hres₅ (hmenos (x := (c, fs₃)))
        | some file =>
            obtain ⟨rfl, hr'⟩ := Prod.mk.inj (Option.some.inj hres₅)
            obtain ⟨rfl, rfl⟩ := Prod.mk.inj hr'
            exact Or.inr ⟨hp, hfalta, corte, newdirname, newfilename, dir, procura, _, file,
              hcorte, hdir, hfile, hl', hc, rfl⟩
      · rw [if_neg hflags] at hres₃
        exact absurd hres₃ (hmenos (x := (c, fs₂)))

/-! ## The size -/

/-- The path without its last name. -/
def directorioDe (name : CString) : CString :=
  ⟨name.val.take (name.val.length - (((strtok name.val).getLastD []).length + 1)),
    fun h => name.property (List.mem_of_mem_take h)⟩

theorem length_lt_of_myparse {n : ℤ} (h : myparse name = some n) :
    name.val.length < maxPathNameSize := by
  by_contra hge
  rw [myparse, if_pos (Nat.le_of_not_lt hge)] at h
  cases h

/-- A token is shorter than its path, which starts with a slash. -/
theorem length_lt_of_mem_strtok {t : List Byte} (hhead : name.val.head? = some barra)
    (ht : t ∈ strtok name.val) : t.length < name.val.length := by
  obtain ⟨nomes, -, hbarra, hcam⟩ := exists_caminho name hhead
  rw [hcam, strtok_caminho_filter hbarra] at ht
  obtain ⟨nome, hnome, rfl⟩ := List.mem_map.mp (List.mem_of_mem_filter ht)
  rw [hcam]
  exact length_lt_caminho hnome

theorem getLastD_mem_strtok (hi : 1 < (strtok name.val).length) :
    (strtok name.val).getLastD [] ∈ strtok name.val := by
  have hne : strtok name.val ≠ [] := by
    intro hnil
    rw [hnil] at hi
    exact absurd hi (by decide)
  rw [List.getLastD_eq_getLast?, List.getLast?_eq_some_getLast hne]
  exact List.getLast_mem hne

/-- The only path that is accepted and has no name is the root. -/
theorem raiz_of_strtok_nil (hp : myparse name = some 0) (hnil : strtok name.val = []) :
    name.val = [barra] := by
  obtain ⟨hhead, -, hbarras, -⟩ := (myparse_eq_zero (length_lt_of_myparse hp)).mp hp
  obtain ⟨nomes, hne, hbarra, hcam⟩ := exists_caminho name hhead
  obtain ⟨inicio, ultimo, rfl⟩ := (List.eq_nil_or_concat' nomes).resolve_left hne
  rw [hcam, strtok_caminho_filter hbarra, List.filter_eq_nil_iff] at hnil
  have hvazio : ∀ nome ∈ inicio ++ [ultimo], nome.val = [] := by
    intro nome hnome
    simpa using hnil nome.val (List.mem_map_of_mem hnome)
  rw [hcam, barras_infix_caminho hbarra, List.dropLast_concat] at hbarras
  have hinicio : inicio = [] := by
    refine List.eq_nil_iff_forall_not_mem.mpr fun nome hnome => hbarras ⟨nome, hnome, ?_⟩
    exact hvazio nome (List.mem_append_left _ hnome)
  rw [hcam, hinicio]
  simp [caminho, hvazio ultimo (by simp)]

/-- What `newdirname` and `newfilename` hold on a path that `myparse` accepts. -/
theorem myOpenCorte_aceite {corte : Corte} (hp : myparse name = some 0)
    (h : myOpenCorte name = some corte) :
    (strtok name.val = [] → contents 0#8 corte.newfilename = some []) ∧
      ((strtok name.val).length = 1 → Holds 0#8 corte.newdirname name.val) ∧
      (1 < (strtok name.val).length → Holds 0#8 corte.newdirname (directorioDe name).val) := by
  have hlen := length_lt_of_myparse hp
  obtain ⟨hhead, -, -, hcurto⟩ := (myparse_eq_zero hlen).mp hp
  obtain ⟨buf, htok, hbuf⟩ := tokens_strtok hcurto
  refine ⟨fun hnil => ?_, fun hum => ?_, fun hi => ?_⟩
  · obtain ⟨full, -, hcorte⟩ := cortar_poucos (terminate 0#8) hlen htok (by simp [hnil])
    rw [hnil] at hbuf
    have hself : strncpy 0#8 buf [] 0 = some buf := hbuf.strncpy_self
    have htail : name.val.tail = [] := by rw [raiz_of_strtok_nil hp hnil]; rfl
    have hk : sizeSub name.val.length 1 = 0 := by rw [raiz_of_strtok_nil hp hnil]; rfl
    rw [myOpenCorte, hcorte, htail, hk, hself, Option.bind_some, hbuf.terminate_eq,
      Option.bind_some] at h
    rw [← Option.some.inj h]
    exact hbuf.contents_eq
  · obtain ⟨full, hfull, hcorte⟩ :=
      cortar_poucos (terminate 0#8) hlen htok (by omega)
    rw [myOpenCorte, hcorte] at h
    obtain ⟨buf₁, -, h₁⟩ := Option.bind_eq_some_iff.mp h
    obtain ⟨buf₂, -, h₂⟩ := Option.bind_eq_some_iff.mp h₁
    rw [← Option.some.inj h₂]
    exact hfull
  · have hlast := getLastD_mem_strtok hi
    obtain ⟨newdirname, hdir, hcorte⟩ := cortar_varios hlen htok hi hbuf
      (fun _ _ h => h.terminate_eq) (length_lt_of_mem_strtok hhead hlast)
    rw [myOpenCorte, hcorte] at h
    rw [← Option.some.inj h]
    exact hdir

theorem snfsCreate_some {dir file : ℕ} (h : snfsCreate fs dir name = some (fs', some file)) :
    fs'.sizeAt file = 0 ∧ name.val ≠ [] := by
  unfold snfsCreate at h
  split at h
  · cases h
  obtain ⟨⟨fs₁, res⟩, hc, h⟩ := Option.map_eq_some_iff.mp h
  cases res with
  | create file' =>
      obtain ⟨rfl, hfile⟩ := Prod.mk.inj h
      obtain rfl := Option.some.inj hfile
      exact snfsCreate_vazio hc
  | _ => cases (Prod.mk.inj h).2

/-- The size that `my_open` gives to a file it makes: what the lookup of the directory left. -/
theorem Feito.tamanho (h : Feito c c' fs fs' name lixo lixo' r) :
    ∃ fsize, (∃ file, (c', r) = abrir c file fsize ∧ fs'.sizeAt file = 0) ∧
      ((strtok name.val).length = 1 → fsize = 0) ∧
      (1 < (strtok name.val).length → ((∃ d, fs.EstaEm (directorioDe name) lixo' d ∧
          fsize = fs.sizeAt d) ∨
        fsize = 0 ∧ ∀ d, ¬ fs.EstaEm (directorioDe name) lixo' d)) ∧
      strtok name.val ≠ [] := by
  obtain ⟨corte, newdirname, newfilename, dir, procura, dir', file, hcorte, hdir, hfile, hl, hc,
    hres⟩ := h.feito
  obtain ⟨hnil, hum, hvarios⟩ := myOpenCorte_aceite h.aceite hcorte
  obtain ⟨hsize, hnome⟩ := snfsCreate_some hc
  have hne : strtok name.val ≠ [] := by
    intro h₀
    have hvazio := cadeia_eq (hnil h₀)
    rw [hfile] at hvazio
    exact hnome (Option.some.inj hvazio)
  refine ⟨procura.getD 0, ⟨file, hres, hsize⟩, fun h₁ => ?_, fun h₂ => ?_, hne⟩
  · -- the lookup of the path itself, which fails again
    rw [cadeia_of_holds (hum h₁)] at hdir
    obtain rfl : name = newdirname := Option.some.inj hdir
    cases procura with
    | none => rfl
    | some fsize =>
        have hem := (snfsLookup_some hl).2.2
        rw [Fs.EstaEm, snfsLookup_lixo hne lixo' lixo] at hem
        exact absurd hem (h.falta dir)
  · rw [cadeia_of_holds (hvarios h₂)] at hdir
    obtain rfl : directorioDe name = newdirname := Option.some.inj hdir
    cases procura with
    | none => exact Or.inr ⟨rfl, (snfsLookup_none hl).2⟩
    | some fsize =>
        obtain ⟨-, hfsize, hem⟩ := snfsLookup_some hl
        exact Or.inl ⟨dir, hem, hfsize⟩

/-- The descriptor has the size that the server holds, unless the file is made in a directory that
is not empty and is not the root. -/
theorem myOpen_tamanho (h : myOpen c fs name flags lixo lixo' = some (c', fs', r)) (hr : r ≠ -1) :
    (∃ fdesc, c'.openFilesList = c.openFilesList ++ [fdesc] ∧ r = fdesc.fileId ∧
        fdesc.size = BitVec.ofNat 32 (fs'.sizeAt fdesc.fileId)) ↔
      ((∃ file, fs.EstaEm name lixo file) ∨ (strtok name.val).length ≤ 1 ∨
        ∀ d, fs.EstaEm (directorioDe name) lixo' d → BitVec.ofNat 32 (fs.sizeAt d) = 0) := by
  obtain ⟨rfl, file, hem, hres⟩ | hfeito := myOpen_casos h hr
  · obtain ⟨rfl, rfl⟩ := Prod.mk.inj hres
    exact iff_of_true ⟨_, rfl, rfl, rfl⟩ (Or.inl ⟨file, hem⟩)
  · obtain ⟨fsize, ⟨file, hres, hsize⟩, hum, hvarios, hne⟩ := hfeito.tamanho
    obtain ⟨rfl, rfl⟩ := Prod.mk.inj hres
    have hdesc : (∃ fdesc, (abrir c file fsize).1.openFilesList = c.openFilesList ++ [fdesc] ∧
        (abrir c file fsize).2 = fdesc.fileId ∧
        fdesc.size = BitVec.ofNat 32 (fs'.sizeAt fdesc.fileId)) ↔
        BitVec.ofNat 32 fsize = 0 := by
      constructor
      · rintro ⟨fdesc, hlist, -, hfd⟩
        obtain ⟨-, hlast⟩ := List.append_inj' hlist rfl
        obtain rfl := (List.cons.inj hlast).1
        rw [hsize] at hfd
        exact hfd
      · intro hzero
        exact ⟨_, rfl, rfl, by rw [hsize]; exact hzero⟩
    refine hdesc.trans ?_
    constructor
    · intro hzero
      by_cases hlen : (strtok name.val).length ≤ 1
      · exact Or.inr (Or.inl hlen)
      refine Or.inr (Or.inr fun d hd => ?_)
      obtain ⟨d', hd', rfl⟩ | ⟨-, hno⟩ := hvarios (Nat.lt_of_not_le hlen)
      · rw [hd.unico hd']
        exact hzero
      · exact absurd hd (hno d)
    · rintro (⟨file', hfile'⟩ | hlen | hvazio)
      · exact absurd hfile' (hfeito.falta file')
      · rw [hum (Nat.le_antisymm hlen (List.length_pos_of_ne_nil hne))]
        rfl
      · by_cases hlen : (strtok name.val).length = 1
        · rw [hum hlen]
          rfl
        · have hpos := List.length_pos_of_ne_nil hne
          obtain ⟨d, hd, rfl⟩ | ⟨rfl, -⟩ := hvarios (by omega)
          · exact hvazio d hd
          · rfl

/-! ## A file made in a directory -/

/-- The steps of a call that makes a file below the root. -/
theorem myOpen_novo {c : Cliente} {dir file : ℕ} (hlib : c.libInitted = true)
    (hmax : c.openFiles < maxOpenFiles) (hp : myparse name = some 0)
    (hi : 1 < (strtok name.val).length) {file_fh : ℕ}
    (hfalta : snfsLookup fs name lixo = some (fs, file_fh, none))
    (hdir : snfsLookup fs (directorioDe name) lixo' = some (fs, dir, some (fs.sizeAt dir)))
    (ultimo : CString) (hultimo : (strtok name.val).getLastD [] = ultimo.val)
    (hnovo : snfsCreate fs dir ultimo = some (fs', some file)) :
    myOpen c fs name oCreate lixo lixo' =
      some ((abrir c file (fs.sizeAt dir)).1, fs', (abrir c file (fs.sizeAt dir)).2) := by
  have hlen := length_lt_of_myparse hp
  obtain ⟨hhead, -, -, hcurto⟩ := (myparse_eq_zero hlen).mp hp
  obtain ⟨buf, htok, hbuf⟩ := tokens_strtok hcurto
  have hlast := getLastD_mem_strtok hi
  obtain ⟨newdirname, hnew, hcorte⟩ := cortar_varios hlen htok hi hbuf
    (fun _ _ h => h.terminate_eq) (length_lt_of_mem_strtok hhead hlast)
  rw [hultimo] at hbuf
  have hcorte' : myOpenCorte name = some ⟨(strtok name.val).length, buf, newdirname⟩ := hcorte
  have hnewdir : cadeia newdirname = some (directorioDe name) := cadeia_of_holds hnew
  have hnewfile : cadeia buf = some ultimo := cadeia_of_holds hbuf
  rw [myOpen, hlib, if_neg (by simp), if_neg (not_le.mpr hmax), hp, Option.bind_some,
    if_neg (by simp), hcorte', Option.bind_some, hfalta, Option.bind_some]
  dsimp only
  rw [hnewdir, Option.bind_some, hdir, Option.bind_some]
  dsimp only
  rw [if_pos rfl, hnewfile, Option.bind_some, if_neg (Nat.ne_of_gt hi), hnovo, Option.bind_some]
  rfl

/-- "/b". -/
def caminhoB : CString := ⟨caminho [nomeB], zero_notMem_caminho [nomeB]⟩

/-- "/b/c". -/
def caminhoBC : CString := ⟨caminho [nomeB, nomeC], zero_notMem_caminho [nomeB, nomeC]⟩

/-- The lookup of a name of the root. -/
theorem snfsLookup_raiz (h : fs.Consistent) (hl : fs.Ligado) {nome : CString} {file : ℕ}
    (hnome : fs.resolve 1 nome.val = some file) (ht : fs.typeAt file ≠ .unset)
    (hbarra : barra ∉ nome.val) (hvazio : nome.val ≠ [])
    (hlen : (caminho [nome]).length < maxPathNameSize) (lixo : ℕ) :
    snfsLookup fs ⟨caminho [nome], zero_notMem_caminho [nome]⟩ lixo =
      some (fs, file, some (fs.sizeAt file)) := by
  obtain ⟨fileid, hr, hf⟩ := (hl.responde h).caminhos [nome] (by simp) (by simpa using hbarra)
    (by simpa using hvazio) hlen
  have hseguir : fs.espaco.seguir 1 ([nome].map Subtype.val) = .chega file := by
    have hp : fs.espaco.procura 1 nome.val = some file := by
      rw [Fs.espaco_procura, hnome]
    simp [Espaco.seguir, Fs.espaco_of_dir h.inodes.root.2, hp]
  obtain rfl := hf file hseguir
  rw [hseguir] at hr
  obtain ⟨attrs, hattrs⟩ := h.fsGetAttrs_of_type ht
  rw [snfsLookup, if_neg (Nat.not_le.mpr hlen), SnfsServer.snfsLookup, hr, Option.bind_some]
  dsimp only [Alcance.estado]
  rw [if_pos rfl, Option.getD_some, hattrs, ← Fs.fsGetAttrs_size hattrs]
  rfl

/-- A file of the root is opened with its size. -/
theorem myOpen_raiz (h : fs.Consistent) (hl : fs.Ligado) {nome : Componente} {file : ℕ}
    (hnome : fs.resolve 1 nome.val.val = some file) (ht : fs.typeAt file ≠ .unset) (c : Cliente)
    (hlib : c.libInitted = true) (hmax : c.openFiles < maxOpenFiles) (flags : ℤ)
    (lixo lixo' : ℕ) :
    myOpen c fs (trajeto [nome]) flags lixo lixo' =
      some ((abrir c file (fs.sizeAt file)).1, fs, (file : ℤ)) := by
  have hcurto := nome.property.curto
  have hlen : (trajeto [nome]).val.length < maxPathNameSize := by
    have hcons : (trajeto [nome]).val.length = nome.val.val.length + 1 := by
      simp [trajeto, caminhoDe, caminho]
    unfold maxFileNameSize at hcurto
    unfold maxPathNameSize
    omega
  have hbarra : ∀ n ∈ [] ++ [nome.val], barra ∉ n.val := by simpa using nome.property.semBarra
  have hp : myparse (trajeto [nome]) = some 0 :=
    (myparse_caminho hlen hbarra rfl).mpr ⟨by simp, Or.inr nome.property⟩
  obtain ⟨corte, hcorte, -⟩ :=
    Option.bind_eq_some_iff.mp (strcpy_certo (List.cons_ne_nil nome []) hlen)
  have hcorte' : myOpenCorte (trajeto [nome]) = some corte := hcorte
  have hfind : snfsLookup fs (trajeto [nome]) lixo = some (fs, file, some (fs.sizeAt file)) :=
    snfsLookup_raiz h hl hnome ht nome.property.semBarra nome.property.naoVazio hlen lixo
  rw [myOpen, hlib, if_neg (by simp), if_neg (not_le.mpr hmax), hp, Option.bind_some,
    if_neg (by simp), hcorte', Option.bind_some, hfind]
  rfl

section DirectorioB

variable (h : fs.Consistent) (hl : fs.Ligado) (ht₁ : fs.typeAt 1 = .fsDir)
  (ht₂ : fs.typeAt 2 = .fsDir) (hent : fs.entradas 1 = [(nomeB.val, 2)])
include h hl ht₁ ht₂ hent

theorem snfsLookup_b (lixo : ℕ) :
    snfsLookup fs caminhoB lixo = some (fs, 2, some (fs.sizeAt 2)) := by
  refine snfsLookup_raiz h hl ?_ (by simp [ht₂]) (by decide) (by decide) (by decide) lixo
  rw [Fs.resolve_of_dir ht₁, Fs.procura, hent]
  rfl

theorem snfsLookup_bc (hnova : fs.procura 2 nomeC.val = none) (lixo : ℕ) :
    snfsLookup fs caminhoBC lixo = some (fs, 0, none) := by
  obtain ⟨fileid, hr, -⟩ := (hl.responde h).caminhos [nomeB, nomeC] (by simp) (by decide)
    (by decide) (by decide)
  have hseguir : fs.espaco.seguir 1 ([nomeB, nomeC].map Subtype.val) = .falta := by
    have hp : fs.espaco.procura 2 nomeC.val = none := by
      rw [Fs.espaco_procura, Fs.resolve_of_dir ht₂, hnova]
    have hp₁ : fs.espaco.procura 1 nomeB.val = some 2 := by
      rw [Fs.espaco_procura, Fs.resolve_of_dir ht₁, Fs.procura, hent]
      rfl
    simp [Espaco.seguir, Fs.espaco_of_dir ht₁, Fs.espaco_of_dir ht₂, hp, hp₁]
  rw [hseguir] at hr
  rw [snfsLookup, if_neg (by decide), SnfsServer.snfsLookup, caminhoBC, hr]
  rfl

/-- A file made in directory 2: its descriptor has the size of the directory. -/
theorem myOpen_bc {n : ℕ} (hnova : fs.procura 2 nomeC.val = none)
    (hal : ∀ i, fs.alocado i = decide (i < n)) (hn : n < itabSize) {c : Cliente}
    (hlib : c.libInitted = true) (hmax : c.openFiles < maxOpenFiles) (lixo lixo' : ℕ) :
    ∃ fs', myOpen c fs caminhoBC oCreate lixo lixo' =
        some ((abrir c n (fs.sizeAt 2)).1, fs', (n : ℤ)) ∧ fs'.sizeAt n = 0 := by
  obtain ⟨fs', hr, hc⟩ := Fs.fsCriar_em_ordem h .fsFile (by decide) (by decide : ¬badName nomeC)
    ht₂ hnova hal hn
  refine ⟨fs', ?_, (hc.size n).trans (if_pos rfl)⟩
  refine myOpen_novo hlib hmax ?_ ?_ (snfsLookup_bc h hl ht₁ ht₂ hent hnova lixo)
    (snfsLookup_b h hl ht₁ ht₂ hent lixo') nomeC ?_ ?_
  · decide
  · decide
  · decide
  · rw [snfsCreate, if_neg (by decide), SnfsServer.snfsCreate]
    have hr' : fsCreate fs (toInodeid 2) (terminar nomeC) = some (fs', some n) := hr
    rw [hr']
    rfl

end DirectorioB

/-- Directory 2, "/b", on the formatted disk. -/
theorem directorio_b (pilha : ℕ → ℤ) :
    ∃ fs, Runs.run FsOp.exec (fsFormat (fsNew Fs.discoServidor pilha)) [.mkdir 1 nomeB] =
        some (fs, [.inode (some 2)]) ∧
      fs.Consistent ∧ fs.Ligado ∧ fs.typeAt 1 = .fsDir ∧ fs.typeAt 2 = .fsDir ∧
      fs.entradas 1 = [(nomeB.val, 2)] ∧ fs.entradas 2 = [] ∧ fs.sizeAt 2 = 0 ∧
      ∀ i, fs.alocado i = decide (i < 3) := by
  have h₀ := Fs.inicial_consistent pilha
  obtain ⟨-, -, -, -, -, -, hal, -, -⟩ := Fs.inicial_spec pilha
  have hnil := Fs.inicial_entradas pilha 1
  obtain ⟨fs, hr, hc⟩ := Fs.fsCriar_em_ordem h₀ .fsDir (by decide) (by decide : ¬badName nomeB)
    h₀.inodes.root.2 (by simp [Fs.procura, hnil]) hal (by decide)
  have hs : fs.sizeAt 2 = 0 := (hc.size 2).trans (if_pos rfl)
  refine ⟨fs, ?_, hc.consistent, (Fs.inicial_ligado pilha).criado hc, ?_,
    (hc.type 2).trans (if_pos rfl), ?_, ?_, hs, hc.alocado_succ hal⟩
  · have hr' : fsMkdir (fsFormat (fsNew Fs.discoServidor pilha)) 1 nomeB = some (fs, some 2) := hr
    simp [Runs.run, FsOp.exec, hr']
  · rw [hc.type, if_neg (by decide)]
    exact h₀.inodes.root.2
  · rw [hc.entradas, hnil]
    rfl
  · exact List.length_eq_zero_iff.mp (by rw [Fs.length_entradas, hs])

/-- A file made in an empty directory. -/
theorem myOpen_tamanho_vazio :
    ∃ fs c' fs', Runs.run FsOp.exec (fsFormat (fsNew Fs.discoServidor fun _ => 7))
        [.mkdir 1 nomeB] = some (fs, [.inode (some 2)]) ∧
      myOpen ⟨true, 0, []⟩ fs caminhoBC oCreate 0 0 = some (c', fs', 3) ∧
      ((∃ fdesc, c'.openFilesList = [] ++ [fdesc] ∧ (3 : ℤ) = fdesc.fileId ∧
          fdesc.size = BitVec.ofNat 32 (fs'.sizeAt fdesc.fileId)) ↔
        ((∃ file, fs.EstaEm caminhoBC 0 file) ∨ (strtok caminhoBC.val).length ≤ 1 ∨
          ∀ d, fs.EstaEm (directorioDe caminhoBC) 0 d → BitVec.ofNat 32 (fs.sizeAt d) = 0)) := by
  obtain ⟨fs, hrun, h, hl, ht₁, ht₂, hent, hnil, -, hal⟩ := directorio_b fun _ => 7
  obtain ⟨fs', hopen, -⟩ := myOpen_bc (c := ⟨true, 0, []⟩) h hl ht₁ ht₂ hent
    (by simp [Fs.procura, hnil]) hal (by decide) rfl (by decide) 0 0
  exact ⟨fs, _, fs', hrun, hopen, myOpen_tamanho hopen (by decide)⟩

/-- A file made in a directory with one entry: its descriptor has size 16. -/
theorem myOpen_tamanho_directorio :
    ∃ fs c' fs', Runs.run FsOp.exec (fsFormat (fsNew Fs.discoServidor fun _ => 7))
        [.mkdir 1 nomeB, .create 2 nomeA] = some (fs, [.inode (some 2), .inode (some 3)]) ∧
      myOpen ⟨true, 0, []⟩ fs caminhoBC oCreate 0 0 = some (c', fs', 4) ∧
      c'.openFilesList = [⟨4, 16, 0, 0⟩] ∧ fs'.sizeAt 4 = 0 := by
  obtain ⟨fs₁, hrun, h₁, hl₁, hroot, ht₂, hent, hnil, hs, hal⟩ := directorio_b fun _ => 7
  obtain ⟨fs, hr, hc⟩ := Fs.fsCriar_em_ordem h₁ .fsFile (by decide) (by decide : ¬badName nomeA)
    ht₂ (by simp [Fs.procura, hnil]) hal (by decide)
  have hent₂ : fs.entradas 2 = [(nomeA.val, 3)] := by
    rw [hc.entradas, hnil]
    rfl
  have hs₂ : fs.sizeAt 2 = 16 := by
    rw [hc.size, if_neg (by decide), if_pos rfl, hs]
  obtain ⟨fs', hopen, hsize⟩ := myOpen_bc (c := ⟨true, 0, []⟩) hc.consistent (hl₁.criado hc)
    ((hc.type 1).trans hroot) ((hc.type 2).trans ht₂)
    ((hc.outras 1 (by decide) (by decide)).trans hent)
    (by rw [Fs.procura, hent₂]; decide) (hc.alocado_succ hal) (by decide) rfl (by decide) 0 0
  refine ⟨fs, _, fs', ?_, hopen, ?_, hsize⟩
  · have hr' : FsOp.exec fs₁ (.create 2 nomeA) = some (fs, .inode (some 3)) := by
      simp only [FsOp.exec, fsCreate, hr, Option.map_some]
    have hrun' := Runs.run_append hrun (Runs.run_one hr')
    rwa [List.cons_append, List.nil_append] at hrun'
  · rw [hs₂]
    rfl

end ThreadScheduler.SnfsLib
