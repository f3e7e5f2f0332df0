import ThreadScheduler.SnfsServer.KeptInodes

/-!
# What the file system does to the cache

Every call of `fs.c` reaches the cache and the disk behind it through calls of `cache.c` and
`block_write` alone. So what those keep is kept by every call.
-/
namespace ThreadScheduler.SnfsServer

namespace CacheT

/-- One call on the cache, or a `block_write` on the disk behind it. -/
inductive Passo (c : CacheT) : CacheT → Prop where
  | ler {b : ℕ} {c' : CacheT} {bloco : Block} (h : lerCache c b = some (c', bloco)) : Passo c c'
  | escrever (b : ℕ) (bloco : Block) : Passo c (escreverCache c b bloco).2
  | invalidar (b : ℕ) : Passo c (invalidarBloco c b).2
  | disco (b : ℕ) (data : Block) : Passo c (c.writeDisk b data)

/-- Any number of such calls. -/
def Passos : CacheT → CacheT → Prop := Relation.ReflTransGen Passo

/-- Any number of reads. -/
def Leituras : CacheT → CacheT → Prop :=
  Relation.ReflTransGen fun c c' => ∃ b bloco, lerCache c b = some (c', bloco)

theorem Leituras.passos {c c' : CacheT} (h : Leituras c c') : Passos c c' := by
  induction h with
  | refl => exact .refl
  | tail _ hler ih =>
      obtain ⟨b, bloco, hler⟩ := hler
      exact ih.tail (.ler hler)

namespace Passos

variable {c c' c'' : CacheT}

@[refl] theorem refl (c : CacheT) : Passos c c := Relation.ReflTransGen.refl

theorem trans (h : Passos c c') (h' : Passos c' c'') : Passos c c'' :=
  Relation.ReflTransGen.trans h h'

theorem um (h : Passo c c') : Passos c c' := Relation.ReflTransGen.single h

theorem eliminar (c : CacheT) (b : ℕ) : Passos c (eliminarBlocoCache c b) :=
  (um (.invalidar b)).trans (um (.disco b nullBlock))

/-- What each call keeps, all of them keep. -/
theorem mantem {I : CacheT → Prop} (hI : ∀ c c', I c → Passo c c' → I c') (h : Passos c c')
    (hc : I c) : I c' := by
  induction h with
  | refl => exact hc
  | tail _ hpasso ih => exact hI _ _ ih hpasso

end Passos

end CacheT

open CacheT

namespace Fs

variable {fs fs' : Fs}

/-! ## Blocks -/

theorem lerBloco_leituras {type : FsItype} {b : ℕ} {page : Block}
    (h : fs.lerBloco type b = some (fs', page)) :
    ∃ c, fs' = fs.withCache c ∧ Leituras fs.cache c := by
  rw [lerBloco] at h
  split at h
  · obtain ⟨⟨c, bloco⟩, hler, he⟩ := Option.map_eq_some_iff.mp h
    exact ⟨c, (Prod.mk.inj he).1.symm, .single ⟨b, bloco, hler⟩⟩
  · exact ⟨fs.cache, (Prod.mk.inj (Option.some.inj h)).1.symm, .refl⟩

theorem lerBloco_passos {type : FsItype} {b : ℕ} {page : Block}
    (h : fs.lerBloco type b = some (fs', page)) : Passos fs.cache fs'.cache := by
  obtain ⟨c, rfl, hc⟩ := lerBloco_leituras h
  exact hc.passos

theorem store_passos (fs : Fs) : Passos fs.cache (fsiStoreFsdata fs).cache := by
  have hfold : ∀ (is : List ℕ) (fs : Fs), Passos fs.cache
      (is.foldl (fun fs i => fs.writeDisk (i + 2) (inodeTabBlock fs.inodeTab i)) fs).cache := by
    intro is
    induction is with
    | nil => exact fun fs => .refl _
    | cons i is ih =>
        exact fun fs => (Passos.um (.disco _ _)).trans
          (ih (fs.writeDisk (i + 2) (inodeTabBlock fs.inodeTab i)))
  exact ((Passos.um (.disco 0 _)).trans (.um (.disco 1 _))).trans
    (hfold (List.range 8) ((fs.writeDisk 0 fs.blkBmap).writeDisk 1 fs.inodeBmap))

theorem apagarBloco_passos (fs : Fs) (b i : ℕ) :
    Passos fs.cache (SnfsServer.apagarBloco fs b i).cache := by
  simp only [SnfsServer.apagarBloco]
  split
  · rfl
  · split
    · exact .um (.disco _ _)
    · exact .eliminar _ _

theorem copyOnWrite_passos {b i : ℕ} {novo : ℤ} (h : copyOnWrite fs b i = some (fs', novo)) :
    Passos fs.cache fs'.cache := by
  simp only [copyOnWrite] at h
  split at h
  · obtain ⟨rfl, -⟩ := Prod.mk.inj (Option.some.inj h)
    rfl
  split at h
  · obtain ⟨rfl, -⟩ := Prod.mk.inj (Option.some.inj h)
    rfl
  obtain ⟨⟨fs₁, page⟩, hler, h⟩ := Option.bind_eq_some_iff.mp h
  refine (lerBloco_passos hler).trans ?_
  dsimp only at h
  split at h
  · obtain ⟨rfl, -⟩ := Prod.mk.inj (Option.some.inj h)
    rfl
  split at h
  · obtain ⟨rfl, -⟩ := Prod.mk.inj (Option.some.inj h)
    rfl
  obtain ⟨rfl, -⟩ := Prod.mk.inj (Option.some.inj h)
  split
  · exact .um (.escrever _ _)
  · exact .um (.disco _ _)

theorem escreverBloco_passos {b i : ℕ} {dados : Block}
    (h : SnfsServer.escreverBloco fs b i dados = some fs') : Passos fs.cache fs'.cache := by
  obtain ⟨⟨fs₁, novo⟩, hcow, he⟩ := Option.map_eq_some_iff.mp h
  refine (copyOnWrite_passos hcow).trans ?_
  rw [← he]
  dsimp only
  split
  · exact .um (.disco _ _)
  · exact .um (.escrever _ _)

theorem gravarBloco_passos {file b : ℕ} {block : Block}
    (h : fs.gravarBloco file b block = some fs') : Passos fs.cache fs'.cache := by
  rw [gravarBloco] at h
  split at h
  · exact escreverBloco_passos h
  · obtain rfl := Option.some.inj h
    exact .um (.disco _ _)

/-! ## Loops -/

/-- A read changes nothing but the cache. -/
theorem fsReadLoop_leituras {file offset max n iblock pos : ℕ} {buffer buffer' : List Byte}
    (h : fsReadLoop file offset max n fs iblock pos buffer = some (fs', buffer')) :
    ∃ c, fs' = fs.withCache c ∧ Leituras fs.cache c := by
  induction n generalizing fs iblock pos buffer with
  | zero => exact ⟨fs.cache, (Prod.mk.inj (Option.some.inj h)).1.symm, .refl⟩
  | succ n ih =>
      rw [fsReadLoop] at h
      split at h
      · exact ⟨fs.cache, (Prod.mk.inj (Option.some.inj h)).1.symm, .refl⟩
      · obtain ⟨⟨fs₁, page⟩, hler, h⟩ := Option.bind_eq_some_iff.mp h
        obtain ⟨c₁, rfl, hc₁⟩ := lerBloco_leituras hler
        obtain ⟨c, rfl, hc⟩ := ih h
        exact ⟨c, rfl, Relation.ReflTransGen.trans hc₁ hc⟩

theorem escreverExistentes_passos {file offset count n num iblock num' iblock' : ℕ}
    {buffer : ℕ → Byte} {block block' : Block}
    (h : escreverExistentes file offset count buffer n fs num iblock block =
      some (fs', num', iblock', block')) : Passos fs.cache fs'.cache := by
  induction n generalizing fs num iblock block with
  | zero =>
      obtain ⟨rfl, -⟩ := Prod.mk.inj (Option.some.inj h)
      rfl
  | succ n ih =>
      rw [escreverExistentes] at h
      split at h
      · obtain ⟨rfl, -⟩ := Prod.mk.inj (Option.some.inj h)
        rfl
      · obtain ⟨⟨fs₁, page⟩, hler, h⟩ := Option.bind_eq_some_iff.mp h
        obtain ⟨fs₂, hgravar, h⟩ := Option.bind_eq_some_iff.mp h
        exact ((lerBloco_passos hler).trans (gravarBloco_passos hgravar)).trans (ih h)

theorem escreverReservados_passos {file count n num iblock num' : ℕ} {buffer : ℕ → Byte}
    {block : Block}
    (h : escreverReservados file count buffer n fs num iblock block = some (fs', num')) :
    Passos fs.cache fs'.cache := by
  induction n generalizing fs num iblock block with
  | zero =>
      obtain ⟨rfl, -⟩ := Prod.mk.inj (Option.some.inj h)
      rfl
  | succ n ih =>
      rw [escreverReservados] at h
      split at h
      · obtain ⟨rfl, -⟩ := Prod.mk.inj (Option.some.inj h)
        rfl
      · obtain ⟨fs₁, hgravar, h⟩ := Option.bind_eq_some_iff.mp h
        exact (gravarBloco_passos hgravar).trans (ih h)

/-- A reservation takes blocks in the bitmap only. -/
theorem reservarBlocos_cache (file n i : ℕ) (fs : Fs) :
    (reservarBlocos file n i fs).1.cache = fs.cache := by
  induction n generalizing fs i with
  | zero => rfl
  | succ n ih =>
      rw [reservarBlocos]
      split
      · rfl
      · exact ih _ _

theorem removerBlocos_passos (idFile n i : ℕ) (fs : Fs) :
    Passos fs.cache (removerBlocos idFile n i fs).1.cache := by
  induction n generalizing fs i with
  | zero => exact .refl _
  | succ n ih =>
      simp only [removerBlocos]
      split
      · exact .refl _
      · exact (apagarBloco_passos fs _ idFile).trans (ih (i + 1)
          ((SnfsServer.apagarBloco fs ((fs.inodeTab idFile).blocks i) idFile).setBlock idFile i 0))

theorem libertarDestino_passos (fs : Fs) (i n : ℕ) :
    Passos fs.cache (libertarDestino fs i n).cache := by
  induction n with
  | zero => exact .refl _
  | succ n ih =>
      rw [libertarDestino, List.range_succ, List.foldl_append]
      exact ih.trans (apagarBloco_passos _ _ _)

theorem copiarReferencias_cache (fs : Fs) (de para base n : ℕ) :
    (copiarReferencias fs de para base n).cache = fs.cache := by
  induction n with
  | zero => rfl
  | succ n ih =>
      rw [copiarReferencias, List.range_succ, List.foldl_append]
      exact ih

/-! ## Calls -/

theorem fsCriar_passos {tipo : FsItype} {dir : ℕ} {file : CString} {n : Option ℕ}
    (h : SnfsServer.fsCriar tipo fs dir file = some (fs', n)) : Passos fs.cache fs'.cache := by
  rcases fsCriar_casos h with ⟨hr, -⟩ | ⟨finode, fs₁, -, hv, hr⟩
  · rw [(Prod.mk.inj hr).1]
  · rw [(Prod.mk.inj hr).1]
    have hcache : fs₁.cache = fs.cache := by
      cases hv <;> rfl
    rw [← hcache]
    exact (Passos.um (.disco _ _)).trans (store_passos (comNovo tipo fs₁ dir finode file.val))

theorem fsWrite_passos {file offset count : ℕ} {buffer : ℕ → Byte} {lixo : Block} {r : ℤ}
    (h : SnfsServer.fsWrite fs file offset count buffer lixo = some (fs', r)) :
    Passos fs.cache fs'.cache := by
  have hres : (reservado fs file offset count).1.cache = fs.cache := reservarBlocos_cache _ _ _ _
  rcases fsWrite_casos h with ⟨hr, -⟩ | ⟨-, ⟨hr, -⟩ |
    ⟨-, fs₃, ⟨fs₂, num, iblock, block, he, hn⟩, hr⟩⟩
  · rw [(Prod.mk.inj hr).1]
  · rw [(Prod.mk.inj hr).1, hres]
  · rw [(Prod.mk.inj hr).1, ← hres]
    exact ((escreverExistentes_passos he).trans (escreverReservados_passos hn)).trans
      (store_passos (fs₃.setSize file _))

theorem fsRead_leituras {file offset count : ℕ} {lido : Option (List Byte)}
    (h : SnfsServer.fsRead fs file offset count = some (fs', lido)) :
    ∃ c, fs' = fs.withCache c ∧ Leituras fs.cache c := by
  have hsame : ∀ {r : Option (List Byte)}, some (fs, r) = some (fs', lido) →
      ∃ c, fs' = fs.withCache c ∧ Leituras fs.cache c := fun he =>
    ⟨fs.cache, (Prod.mk.inj (Option.some.inj he)).1.symm, .refl⟩
  rw [SnfsServer.fsRead] at h
  split at h
  · exact hsame h
  split at h
  · exact hsame h
  split at h
  · exact hsame h
  dsimp only at h
  split at h
  · exact hsame h
  · obtain ⟨⟨fs₁, buffer⟩, hloop, he⟩ := Option.map_eq_some_iff.mp h
    rw [← (Prod.mk.inj he).1]
    exact fsReadLoop_leituras hloop

theorem fsRemove_passos {dir : ℕ} {nome : CString} {n : Option ℕ}
    (h : SnfsServer.fsRemove fs dir nome = some (fs', n)) : Passos fs.cache fs'.cache := by
  rcases fsRemove_casos h with ⟨hr, -⟩ | ⟨idFile, hadm, hcasos⟩
  · rw [(Prod.mk.inj hr).1]
  have hsem : Passos fs.cache (semBlocos fs idFile).1.cache := removerBlocos_passos _ _ _ _
  rcases hcasos with ⟨hr, -⟩ | ⟨-, fs₂, ok, hent, hr⟩
  · rw [(Prod.mk.inj hr).1]
    exact hsem
  have hdir : (semBlocos fs idFile).1.typeAt dir = .fsDir := 
    ((removerBlocos_same _ _ _ fs).type dir).trans hadm.usado.2
  have hrem : Passos (semBlocos fs idFile).1.cache fs₂.cache := by
    generalize he : ((fs₂, ok) : Fs × Bool) = r at hent
    cases removerEntrada_casos hdir hent with
    | libertou u hs =>
        rw [(Prod.mk.inj he).1]
        exact apagarBloco_passos _ _ _
    | escreveu hne data hw =>
        rw [(Prod.mk.inj he).1]
        exact escreverBloco_passos hw
    | falhou => rw [(Prod.mk.inj he).1]
  refine (hsem.trans hrem).trans ?_
  cases ok with
  | false => rw [(Prod.mk.inj hr).1]
  | true =>
      rw [(Prod.mk.inj hr).1]
      exact store_passos (semInode fs₂ dir idFile)

theorem fsCopyInodes_passos (fs : Fs) (de para : ℕ) :
    Passos fs.cache (fsCopyInodes fs de para).1.cache := by
  rw [fsCopyInodes]
  split
  · rfl
  · change Passos fs.cache (copiarReferencias _ de para 0 _).cache
    rw [copiarReferencias_cache]
    exact libertarDestino_passos _ _ _

theorem fsCopy_passos {d₁ d₂ : ℕ} {nome₁ nome₂ : CString} {r : ℤ}
    (h : SnfsServer.fsCopy fs d₁ nome₁ d₂ nome₂ = some (fs', r)) : Passos fs.cache fs'.cache := by
  rcases fsCopy_casos h with ⟨hr, -⟩ | ⟨de, -, ⟨para, -, hr⟩ | ⟨-, ⟨-, hr⟩ | hcriou⟩⟩
  · rw [(Prod.mk.inj hr).1]
  · rw [(Prod.mk.inj hr).1]
    exact fsCopyInodes_passos _ _ _
  · rw [(Prod.mk.inj hr).1]
  · obtain ⟨fs₁, n, hcriar, -, ⟨-, hr⟩ | ⟨para, -, hr⟩⟩ := hcriou
    · rw [(Prod.mk.inj hr).1]
      exact fsCriar_passos hcriar
    · rw [(Prod.mk.inj hr).1]
      exact (fsCriar_passos hcriar).trans (fsCopyInodes_passos _ _ _)

theorem fsAppend_passos {d₁ d₂ : ℕ} {nome₁ nome₂ : CString} {n : Option ℕ}
    (h : SnfsServer.fsAppend fs d₁ nome₁ d₂ nome₂ = some (fs', n)) :
    Passos fs.cache fs'.cache := by
  rcases fsAppend_casos h with hr | ⟨de, para, -, -, -, hr⟩
  · rw [(Prod.mk.inj hr).1]
  · rw [(Prod.mk.inj hr).1]
    have hcache := copiarReferencias_cache fs para de (offsetToBlocks (fs.sizeAt de))
      (offsetToBlocks (fs.sizeAt para))
    exact hcache ▸ .refl _

/-! ## Defragmentation -/

theorem redirecionar_cache (inodes : List ℕ) (de para : ℕ) (fs : Fs) :
    (redirecionar fs inodes de para).cache = fs.cache := by
  induction inodes generalizing fs with
  | nil => rfl
  | cons o inodes ih =>
      rw [redirecionar, List.foldl_cons]
      refine (ih _).trans ?_
      rw [redirecionarInode]
      split <;> rfl

theorem mexeBlocoPara_passos (fs : Fs) (bl dest : ℕ) :
    Passos fs.cache (mexeBlocoPara fs bl dest).cache := by
  simp only [mexeBlocoPara]
  refine Passos.trans ?_ (store_passos _)
  refine Passos.trans ?_ (.um (.invalidar bl))
  split
  · rw [redirecionar_cache]
    exact .um (.disco _ _)
  · rw [redirecionar_cache]
    refine Passos.trans ?_ (.um (.disco dest _))
    refine Passos.trans ?_ (.um (.invalidar dest))
    rw [redirecionar_cache]
    exact .um (.disco _ _)

theorem defragSlot_passos (z q : ℕ) (r : Fs × ℕ) :
    Passos r.1.cache (defragSlot z q r).1.cache := by
  obtain ⟨fs, pos⟩ := r
  rw [defragSlot]
  split
  · exact .refl _
  split
  · exact mexeBlocoPara_passos _ _ _
  · exact .refl _

theorem foldl_passos {α : Type*} {f : Fs × ℕ → α → Fs × ℕ}
    (hf : ∀ r a, Passos r.1.cache (f r a).1.cache) (as : List α) (r : Fs × ℕ) :
    Passos r.1.cache (as.foldl f r).1.cache := by
  induction as generalizing r with
  | nil => exact .refl _
  | cons a as ih =>
      rw [List.foldl_cons]
      exact (hf r a).trans (ih (f r a))

theorem fsDefrag_passos (fs : Fs) : Passos fs.cache (SnfsServer.fsDefrag fs).1.cache := by
  rw [SnfsServer.fsDefrag, defragPass]
  generalize List.range inodeNumBlks = qs
  generalize List.range' 1 (itabSize - 1) = zs
  split
  · exact foldl_passos (fun r z => foldl_passos (fun r q => defragSlot_passos z q r) qs r) zs
      (fs, 10)
  · exact .refl _

end Fs

open Fs

/-- Every call but a sweep goes through the cache call by call. -/
theorem FsOp.exec_passos {fs fs' : Fs} {op : FsOp} {r : Resposta}
    (h : op.exec fs = some (fs', r)) :
    Passos fs.cache fs'.cache ∨ ∃ t, op = .actualizar t ∧
      fs' = fs.withCache (actualizarCache fs.cache t) := by
  cases op with
  | create dir file =>
      obtain ⟨⟨fs₁, n⟩, hr, he⟩ := Option.map_eq_some_iff.mp h
      exact .inl ((Prod.mk.inj he).1 ▸ fsCriar_passos hr)
  | mkdir dir newdir =>
      obtain ⟨⟨fs₁, n⟩, hr, he⟩ := Option.map_eq_some_iff.mp h
      exact .inl ((Prod.mk.inj he).1 ▸ fsCriar_passos hr)
  | write file offset count buffer lixo =>
      obtain ⟨⟨fs₁, n⟩, hr, he⟩ := Option.map_eq_some_iff.mp h
      exact .inl ((Prod.mk.inj he).1 ▸ fsWrite_passos hr)
  | read file offset count =>
      obtain ⟨⟨fs₁, n⟩, hr, he⟩ := Option.map_eq_some_iff.mp h
      obtain ⟨c, rfl, hc⟩ := fsRead_leituras hr
      exact .inl ((Prod.mk.inj he).1 ▸ hc.passos)
  | copy d₁ nome₁ d₂ nome₂ =>
      obtain ⟨⟨fs₁, n⟩, hr, he⟩ := Option.map_eq_some_iff.mp h
      exact .inl ((Prod.mk.inj he).1 ▸ fsCopy_passos hr)
  | remove d nome =>
      obtain ⟨⟨fs₁, n⟩, hr, he⟩ := Option.map_eq_some_iff.mp h
      exact .inl ((Prod.mk.inj he).1 ▸ fsRemove_passos hr)
  | append d₁ nome₁ d₂ nome₂ =>
      obtain ⟨⟨fs₁, n⟩, hr, he⟩ := Option.map_eq_some_iff.mp h
      exact .inl ((Prod.mk.inj he).1 ▸ fsAppend_passos hr)
  | defrag => exact .inl ((Prod.mk.inj (Option.some.inj h)).1 ▸ fsDefrag_passos fs)
  | actualizar t => exact .inr ⟨t, rfl, (Prod.mk.inj (Option.some.inj h)).1.symm⟩

end ThreadScheduler.SnfsServer
