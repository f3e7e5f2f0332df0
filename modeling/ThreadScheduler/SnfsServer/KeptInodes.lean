import ThreadScheduler.SnfsServer.CallCases

/-!
# Calls and the i-nodes they leave alone

Blocks come and go under an i-node while its type and its bit stay. Only a creation takes an i-node
that was free, and only a removal frees one. All of this holds in any state, whatever the accounts
of the blocks.
-/
namespace ThreadScheduler.SnfsServer

open Fs

section Blocos

variable {fs fs' : Fs}

theorem apagarBloco_inodeTab (fs : Fs) (b i : ℕ) : (apagarBloco fs b i).inodeTab = fs.inodeTab := by
  unfold apagarBloco
  dsimp only
  split_ifs <;> rfl

theorem apagarBloco_same (fs : Fs) (b i : ℕ) : SameInodes fs (apagarBloco fs b i) := by
  refine SameInodes.of_tab ?_ (apagarBloco_inodeTab fs b i)
  unfold apagarBloco
  dsimp only
  split_ifs <;> rfl

/-- A read changes the cache only. -/
theorem lerBloco_cache {tipo : FsItype} {b : ℕ} {page : Block}
    (h : fs.lerBloco tipo b = some (fs', page)) : ∃ c, fs' = fs.withCache c := by
  rw [Fs.lerBloco] at h
  split at h
  · obtain ⟨r, -, hr⟩ := Option.map_eq_some_iff.mp h
    exact ⟨r.1, (Prod.mk.inj hr).1.symm⟩
  · exact ⟨fs.cache, (Prod.mk.inj (Option.some.inj h)).1.symm⟩

theorem lerBloco_same {tipo : FsItype} {b : ℕ} {page : Block}
    (h : fs.lerBloco tipo b = some (fs', page)) : SameInodes fs fs' := by
  obtain ⟨c, rfl⟩ := lerBloco_cache h
  exact SameInodes.of_tab rfl rfl

theorem copyOnWrite_same {b i : ℕ} {n : ℤ} (h : copyOnWrite fs b i = some (fs', n)) :
    SameInodes fs fs' := by
  rw [copyOnWrite] at h
  simp only at h
  split at h
  · obtain ⟨rfl, -⟩ := Prod.mk.inj (Option.some.inj h)
    exact SameInodes.refl _
  split at h
  · obtain ⟨rfl, -⟩ := Prod.mk.inj (Option.some.inj h)
    exact SameInodes.refl _
  obtain ⟨⟨fs₁, block⟩, hl, h⟩ := Option.bind_eq_some_iff.mp h
  refine (lerBloco_same hl).trans ?_
  simp only at h
  split at h
  · obtain ⟨rfl, -⟩ := Prod.mk.inj (Option.some.inj h)
    exact SameInodes.refl _
  split at h
  · obtain ⟨rfl, -⟩ := Prod.mk.inj (Option.some.inj h)
    exact SameInodes.of_tab rfl rfl
  · rename_i bks _ _ k _
    obtain ⟨rfl, -⟩ := Prod.mk.inj (Option.some.inj h)
    refine (SameInodes.setBlock fs₁ i k bks).trans ?_
    split <;> exact SameInodes.of_tab rfl rfl

theorem escreverBloco_same {b i : ℕ} {dados : Block} (h : escreverBloco fs b i dados = some fs') :
    SameInodes fs fs' := by
  obtain ⟨⟨fs₁, n⟩, hc, rfl⟩ := Option.map_eq_some_iff.mp h
  refine (copyOnWrite_same hc).trans ?_
  dsimp only
  split <;> exact SameInodes.of_tab rfl rfl

theorem gravarBloco_same {b i : ℕ} {block : Block} (h : fs.gravarBloco i b block = some fs') :
    SameInodes fs fs' := by
  rw [Fs.gravarBloco] at h
  split at h
  · exact escreverBloco_same h
  · obtain rfl := Option.some.inj h
    exact SameInodes.of_tab rfl rfl

end Blocos

/-! ## The loops -/

section Ciclos

variable {fs fs' : Fs}

theorem fsReadLoop_same {file offset max : ℕ} (n : ℕ) {iblock pos : ℕ} {buffer buffer' : List Byte}
    (h : fsReadLoop file offset max n fs iblock pos buffer = some (fs', buffer')) :
    SameInodes fs fs' := by
  induction n generalizing fs iblock pos buffer with
  | zero =>
      obtain ⟨rfl, -⟩ := Prod.mk.inj (Option.some.inj h)
      exact SameInodes.refl _
  | succ n ih =>
      rw [fsReadLoop] at h
      split at h
      · obtain ⟨rfl, -⟩ := Prod.mk.inj (Option.some.inj h)
        exact SameInodes.refl _
      · obtain ⟨⟨fs₁, block⟩, hl, h⟩ := Option.bind_eq_some_iff.mp h
        exact (lerBloco_same hl).trans (ih h)

theorem reservarBlocos_same (file n i : ℕ) (fs : Fs) :
    SameInodes fs (reservarBlocos file n i fs).1 := by
  induction n generalizing i fs with
  | zero => exact SameInodes.refl fs
  | succ n ih =>
      rw [reservarBlocos]
      split
      · exact SameInodes.refl fs
      · rename_i blk _
        refine SameInodes.trans ?_ (ih (i + 1) _)
        exact (SameInodes.setBlock fs file i blk).trans (SameInodes.of_tab rfl rfl)

theorem escreverExistentes_same {file offset count : ℕ} {buffer : ℕ → Byte} (n : ℕ)
    {num iblock num' iblock' : ℕ} {block block' : Block}
    (h : escreverExistentes file offset count buffer n fs num iblock block =
      some (fs', num', iblock', block')) : SameInodes fs fs' := by
  induction n generalizing fs num iblock block with
  | zero =>
      obtain ⟨rfl, -⟩ := Prod.mk.inj (Option.some.inj h)
      exact SameInodes.refl _
  | succ n ih =>
      rw [escreverExistentes] at h
      split at h
      · obtain ⟨rfl, -⟩ := Prod.mk.inj (Option.some.inj h)
        exact SameInodes.refl _
      · obtain ⟨⟨fs₁, page⟩, hl, h⟩ := Option.bind_eq_some_iff.mp h
        obtain ⟨fs₂, hg, h⟩ := Option.bind_eq_some_iff.mp h
        exact ((lerBloco_same hl).trans (gravarBloco_same hg)).trans (ih h)

theorem escreverReservados_same {file count : ℕ} {buffer : ℕ → Byte} (n : ℕ)
    {num iblock num' : ℕ} {block : Block}
    (h : escreverReservados file count buffer n fs num iblock block = some (fs', num')) :
    SameInodes fs fs' := by
  induction n generalizing fs num iblock block with
  | zero =>
      obtain ⟨rfl, -⟩ := Prod.mk.inj (Option.some.inj h)
      exact SameInodes.refl _
  | succ n ih =>
      rw [escreverReservados] at h
      split at h
      · obtain ⟨rfl, -⟩ := Prod.mk.inj (Option.some.inj h)
        exact SameInodes.refl _
      · obtain ⟨fs₁, hg, h⟩ := Option.bind_eq_some_iff.mp h
        exact (gravarBloco_same hg).trans (ih h)

theorem removerBlocos_same (idFile n i : ℕ) (fs : Fs) :
    SameInodes fs (removerBlocos idFile n i fs).1 := by
  induction n generalizing i fs with
  | zero => exact SameInodes.refl fs
  | succ n ih =>
      rw [removerBlocos]
      split
      · exact SameInodes.refl fs
      · exact ((apagarBloco_same _ _ _).trans (SameInodes.setBlock _ _ _ _)).trans (ih (i + 1) _)

theorem SemEntrada.same {dir : ℕ} {r : Fs × Bool} (h : SemEntrada fs dir r) :
    SameInodes fs r.1 := by
  cases h with
  | libertou u hs => exact (apagarBloco_same _ _ _).trans (SameInodes.setBlock _ _ _ _)
  | escreveu hne data hw => exact escreverBloco_same hw
  | falhou => exact SameInodes.refl fs

theorem libertarDestino_same (fs : Fs) (i n : ℕ) : SameInodes fs (libertarDestino fs i n) := by
  induction n with
  | zero => exact SameInodes.refl fs
  | succ n ih =>
      rw [libertarDestino, List.range_succ, List.foldl_append]
      exact ih.trans (apagarBloco_same _ _ _)

theorem copiarReferencias_same (fs : Fs) (de para base n : ℕ) :
    SameInodes fs (copiarReferencias fs de para base n) := by
  induction n with
  | zero => exact SameInodes.refl fs
  | succ n ih =>
      rw [copiarReferencias, List.range_succ, List.foldl_append]
      exact (ih.trans (SameInodes.setBlock _ _ _ _)).trans (SameInodes.of_tab rfl rfl)

/-- The first slots of an i-node are copied behind `base`, also to slots of the i-node itself that
are the same or lie behind. -/
theorem copiarReferencias_slot_of (fs : Fs) {de para base n : ℕ}
    (hself : de = para → base = 0 ∨ n ≤ base) (p : ℕ × ℕ) :
    (copiarReferencias fs de para base n).slot p =
      if p.1 = para ∧ base ≤ p.2 ∧ p.2 < base + n then fs.slot (de, p.2 - base) else fs.slot p := by
  induction n generalizing p with
  | zero => rw [if_neg (by omega), copiarReferencias, List.range_zero, List.foldl_nil]
  | succ n ih =>
      have ih := ih fun he => (hself he).imp_right fun h => by omega
      have hde : (copiarReferencias fs de para base n).slot (de, n) = fs.slot (de, n) := by
        rw [ih]
        split
        · rename_i h
          rcases hself h.1 with h0 | hle
          · simp [h0]
          · exact absurd h.2.1 (by dsimp only; omega)
        · rfl
      have hsucc : (copiarReferencias fs de para base (n + 1)).slot p =
          if p = (para, base + n) then fs.slot (de, n)
          else (copiarReferencias fs de para base n).slot p := by
        rw [← hde, ← setBlock_slot, copiarReferencias, List.range_succ, List.foldl_append]
        rfl
      obtain ⟨j, q⟩ := p
      rw [hsucc, ih]
      by_cases hp : (j, q) = (para, base + n)
      · obtain ⟨rfl, rfl⟩ := Prod.mk.inj hp
        rw [if_pos rfl, if_pos ⟨rfl, by omega, by omega⟩, Nat.add_sub_cancel_left]
      · rw [if_neg hp]
        refine if_congr (and_congr_right fun hj => ?_) rfl rfl
        have hq : q ≠ base + n := fun hq => hp (by rw [show j = para from hj, hq])
        dsimp only
        omega

theorem copiarReferencias_slot (fs : Fs) {de para : ℕ} (hne : de ≠ para) (base n : ℕ) (p : ℕ × ℕ) :
    (copiarReferencias fs de para base n).slot p =
      if p.1 = para ∧ base ≤ p.2 ∧ p.2 < base + n then fs.slot (de, p.2 - base) else fs.slot p :=
  copiarReferencias_slot_of fs (fun he => absurd he hne) p

theorem redirecionar_same (inodes : List ℕ) (de para : ℕ) (fs : Fs) :
    SameInodes fs (redirecionar fs inodes de para) := by
  induction inodes generalizing fs with
  | nil => exact SameInodes.refl fs
  | cons o inodes ih =>
      refine SameInodes.trans ?_ (ih (redirecionarInode de para fs o))
      rw [redirecionarInode]
      split
      · exact SameInodes.setBlock _ _ _ _
      · exact SameInodes.refl fs

theorem store_same (fs : Fs) : SameInodes fs (fsiStoreFsdata fs) :=
  SameInodes.of_tab (store_inodeBmap fs) (store_inodeTab fs)

theorem mexeBlocoPara_same (fs : Fs) (bl dest : ℕ) : SameInodes fs (mexeBlocoPara fs bl dest) := by
  have hgrava : ∀ (g : Fs) (b c : ℕ), SameInodes g ((g.writeDisk b (g.readDisk c)).setBlk b) :=
    fun _ _ _ => SameInodes.of_tab rfl rfl
  have hlarga : ∀ g : Fs, SameInodes g ((g.invalidarBloco bl).clrBlk bl) :=
    fun _ => SameInodes.of_tab rfl rfl
  have hinvalida : ∀ g : Fs, SameInodes g (g.invalidarBloco dest) :=
    fun _ => SameInodes.of_tab rfl rfl
  unfold mexeBlocoPara
  refine SameInodes.trans ?_ ((hlarga _).trans (store_same _))
  dsimp only
  split
  · exact (hgrava fs dest bl).trans (redirecionar_same _ _ _ _)
  · refine SameInodes.trans ?_ ((hgrava _ dest bl).trans (redirecionar_same _ _ _ _))
    refine SameInodes.trans ?_ ((redirecionar_same _ _ _ _).trans (hinvalida _))
    exact SameInodes.of_tab rfl rfl

theorem defragPass_same (fs : Fs) : SameInodes fs (defragPass fs).1 := by
  have hslot : ∀ (z q : ℕ) (r : Fs × ℕ), SameInodes r.1 (defragSlot z q r).1 := by
    intro z q r
    obtain ⟨fs, pos⟩ := r
    dsimp only [defragSlot]
    split
    · exact SameInodes.refl fs
    split
    · exact mexeBlocoPara_same fs _ _
    · exact SameInodes.refl fs
  have hfold : ∀ (l : List ℕ) (f : ℕ → Fs × ℕ → Fs × ℕ),
      (∀ a r, SameInodes r.1 (f a r).1) → ∀ r : Fs × ℕ,
        SameInodes r.1 (l.foldl (fun r a => f a r) r).1 := by
    intro l f hf
    induction l with
    | nil => exact fun r => SameInodes.refl r.1
    | cons a l ih => exact fun r => (hf a r).trans (ih (f a r))
  rw [defragPass]
  generalize List.range' 1 (itabSize - 1) = zs
  generalize List.range inodeNumBlks = qs
  exact hfold zs (fun z r => qs.foldl (fun r q => defragSlot z q r) r)
    (fun z r => hfold qs (defragSlot z) (hslot z) r) (fs, 10)

theorem fsDefrag_same (fs : Fs) : SameInodes fs (fsDefrag fs).1 := by
  rw [fsDefrag]
  split
  · dsimp only
    exact defragPass_same fs
  · exact SameInodes.refl fs

end Ciclos

/-! ## The calls -/

/-- The answer of a removal that has freed the i-node. -/
def FsOp.Remove (i : ℕ) : FsOp → Resposta → Prop
  | .remove _ _, .inode (some n) => n = i
  | _, _ => False

section Chamadas

variable {fs fs' : Fs} {i : ℕ}

theorem Fs.SameInodes.ficheiroUsado_iff (h : SameInodes fs fs') :
    fs'.FicheiroUsado i ↔ fs.FicheiroUsado i := by
  rw [FicheiroUsado, FicheiroUsado, h.alocado, h.type]

theorem setSize_ficheiroUsado_iff (fs : Fs) (j s : ℕ) :
    (fs.setSize j s).FicheiroUsado i ↔ fs.FicheiroUsado i := by
  rw [FicheiroUsado, FicheiroUsado, setSize_typeAt]
  rfl

/-- A creation takes no i-node from a file in use. -/
theorem fsCriar_ficheiroUsado {tipo : FsItype} {dir : ℕ} {file : CString} {n : Option ℕ}
    (h : fsCriar tipo fs dir file = some (fs', n)) (hi : fs.FicheiroUsado i) :
    fs'.FicheiroUsado i := by
  rcases fsCriar_casos h with ⟨hr, -⟩ | ⟨finode, fs₁, hadm, hv, hr⟩
  · rw [(Prod.mk.inj hr).1]
    exact hi
  · obtain ⟨rfl, -⟩ := Prod.mk.inj hr
    obtain ⟨hbmap, htype, -⟩ := hv.campos
    have hne := hadm.ne hi.2.1
    have hlt := (fsiBmapFindFree_eq_some hadm.livre).1
    refine (store_same _).ficheiroUsado_iff.mpr ⟨hi.1, ?_, ?_⟩
    · rw [comNovo_alocado _ _ _ _ hlt, alocado, hbmap, ← alocado, hi.2.1, Bool.or_true]
    · rw [comNovo_typeAt, if_neg hne, htype, hi.2.2]

theorem fsWrite_ficheiroUsado {file offset count : ℕ} {buffer : ℕ → Byte} {lixo : Block} {n : ℤ}
    (h : fsWrite fs file offset count buffer lixo = some (fs', n)) :
    fs'.FicheiroUsado i ↔ fs.FicheiroUsado i := by
  have hres := reservarBlocos_same file (blksReq fs file offset count)
    (offsetToBlocks (fs.sizeAt file)) fs
  rcases fsWrite_casos h with ⟨hr, -⟩ | ⟨-, ⟨hr, -⟩ | ⟨-, fs₃, ⟨_, _, _, _, hex, hnew⟩, hr⟩⟩
  · rw [(Prod.mk.inj hr).1]
  · obtain ⟨rfl, -⟩ := Prod.mk.inj hr
    exact hres.ficheiroUsado_iff
  · obtain ⟨rfl, -⟩ := Prod.mk.inj hr
    rw [(store_same _).ficheiroUsado_iff, setSize_ficheiroUsado_iff]
    exact ((hres.trans (escreverExistentes_same _ hex)).trans
      (escreverReservados_same _ hnew)).ficheiroUsado_iff

theorem fsRead_same {file offset count : ℕ} {buffer : Option (List Byte)}
    (h : fsRead fs file offset count = some (fs', buffer)) : SameInodes fs fs' := by
  rw [fsRead] at h
  split at h
  · rw [(Prod.mk.inj (Option.some.inj h)).1]
    exact SameInodes.refl fs'
  split at h
  · rw [(Prod.mk.inj (Option.some.inj h)).1]
    exact SameInodes.refl fs'
  split at h
  · rw [(Prod.mk.inj (Option.some.inj h)).1]
    exact SameInodes.refl fs'
  simp only at h
  split at h
  · rw [(Prod.mk.inj (Option.some.inj h)).1]
    exact SameInodes.refl fs'
  · obtain ⟨⟨fs₁, buffer₁⟩, hl, hx⟩ := Option.map_eq_some_iff.mp h
    obtain ⟨rfl, -⟩ := Prod.mk.inj hx
    exact fsReadLoop_same _ hl

theorem fsCopyInodes_ficheiroUsado (fs : Fs) (de para : ℕ) :
    (fsCopyInodes fs de para).1.FicheiroUsado i ↔ fs.FicheiroUsado i := by
  rw [fsCopyInodes]
  split
  · rfl
  · dsimp only
    rw [setSize_ficheiroUsado_iff]
    exact ((libertarDestino_same _ _ _).trans
      (copiarReferencias_same _ _ _ _ _)).ficheiroUsado_iff

theorem fsCopy_ficheiroUsado {d₁ d₂ : ℕ} {nome₁ nome₂ : CString} {n : ℤ}
    (h : fsCopy fs d₁ nome₁ d₂ nome₂ = some (fs', n)) (hi : fs.FicheiroUsado i) :
    fs'.FicheiroUsado i := by
  rcases fsCopy_casos h with ⟨hr, -⟩ | ⟨de, -, ⟨para, -, hr⟩ | ⟨-, ⟨-, hr⟩ | hcriou⟩⟩
  · rw [(Prod.mk.inj hr).1]
    exact hi
  · rw [(Prod.mk.inj hr).1]
    exact (fsCopyInodes_ficheiroUsado fs de para).mpr hi
  · rw [(Prod.mk.inj hr).1]
    exact hi
  · obtain ⟨fs₁, finode, hcre, -, ⟨-, hr⟩ | ⟨para, -, hr⟩⟩ := hcriou
    · rw [(Prod.mk.inj hr).1]
      exact fsCriar_ficheiroUsado hcre hi
    · rw [(Prod.mk.inj hr).1]
      exact (fsCopyInodes_ficheiroUsado fs₁ de para).mpr (fsCriar_ficheiroUsado hcre hi)

theorem fsAppend_ficheiroUsado {d₁ d₂ : ℕ} {nome₁ nome₂ : CString} {n : Option ℕ}
    (h : fsAppend fs d₁ nome₁ d₂ nome₂ = some (fs', n)) :
    fs'.FicheiroUsado i ↔ fs.FicheiroUsado i := by
  rcases fsAppend_casos h with hr | ⟨de, para, -, -, -, hr⟩
  · rw [(Prod.mk.inj hr).1]
  · rw [(Prod.mk.inj hr).1, setSize_ficheiroUsado_iff]
    exact (copiarReferencias_same _ _ _ _ _).ficheiroUsado_iff

/-- A removal frees the i-node it answers, and that one only. -/
theorem fsRemove_ficheiroUsado {dir : ℕ} {nome : CString} {n : Option ℕ}
    (h : fsRemove fs dir nome = some (fs', n)) (hi : fs.FicheiroUsado i) :
    fs'.FicheiroUsado i ↔ n ≠ some i := by
  rcases fsRemove_casos h with ⟨hr, -⟩ | ⟨idFile, ha, hr⟩
  · obtain ⟨rfl, rfl⟩ := Prod.mk.inj hr
    exact iff_of_true hi nofun
  have hblocos : SameInodes fs (semBlocos fs idFile).1 := removerBlocos_same _ _ _ fs
  rcases hr with ⟨hr, -⟩ | ⟨-, fs₂, ok, hent, hr⟩
  · obtain ⟨rfl, rfl⟩ := Prod.mk.inj hr
    exact iff_of_true (hblocos.ficheiroUsado_iff.mpr hi) nofun
  have ht : (semBlocos fs idFile).1.typeAt dir = .fsDir := (hblocos.type dir).trans ha.usado.2
  have h₂ : SameInodes fs fs₂ := hblocos.trans (removerEntrada_casos ht hent).same
  cases ok with
  | false =>
      obtain ⟨rfl, rfl⟩ := Prod.mk.inj hr
      exact iff_of_true (h₂.ficheiroUsado_iff.mpr hi) nofun
  | true =>
      obtain ⟨rfl, rfl⟩ := Prod.mk.inj hr
      have hi₂ := h₂.ficheiroUsado_iff.mpr hi
      rw [(store_same _).ficheiroUsado_iff, FicheiroUsado, semInode_alocado, semInode_typeAt]
      by_cases he : i = idFile
      · subst he
        simp
      · have hne : some idFile ≠ some i := fun h => he (Option.some.inj h).symm
        simp only [he, decide_false, Bool.not_false, Bool.true_and, if_false]
        exact iff_of_true hi₂ hne

/-- A file in use stays in use, unless the call removes it. -/
theorem exec_ficheiroUsado {op : FsOp} {r : Resposta} (h : op.exec fs = some (fs', r))
    (hi : fs.FicheiroUsado i) : fs'.FicheiroUsado i ↔ ¬op.Remove i r := by
  cases op with
  | create dir file =>
      obtain ⟨⟨fs₁, n⟩, hc, hx⟩ := Option.map_eq_some_iff.mp h
      obtain ⟨rfl, rfl⟩ := Prod.mk.inj hx
      exact iff_of_true (fsCriar_ficheiroUsado hc hi) id
  | mkdir dir newdir =>
      obtain ⟨⟨fs₁, n⟩, hc, hx⟩ := Option.map_eq_some_iff.mp h
      obtain ⟨rfl, rfl⟩ := Prod.mk.inj hx
      exact iff_of_true (fsCriar_ficheiroUsado hc hi) id
  | write file offset count buffer lixo =>
      obtain ⟨⟨fs₁, n⟩, hw, hx⟩ := Option.map_eq_some_iff.mp h
      obtain ⟨rfl, rfl⟩ := Prod.mk.inj hx
      exact iff_of_true ((fsWrite_ficheiroUsado hw).mpr hi) id
  | read file offset count =>
      obtain ⟨⟨fs₁, n⟩, hl, hx⟩ := Option.map_eq_some_iff.mp h
      obtain ⟨rfl, rfl⟩ := Prod.mk.inj hx
      exact iff_of_true ((fsRead_same hl).ficheiroUsado_iff.mpr hi) id
  | copy d₁ nome₁ d₂ nome₂ =>
      obtain ⟨⟨fs₁, n⟩, hc, hx⟩ := Option.map_eq_some_iff.mp h
      obtain ⟨rfl, rfl⟩ := Prod.mk.inj hx
      exact iff_of_true (fsCopy_ficheiroUsado hc hi) id
  | remove dir nome =>
      obtain ⟨⟨fs₁, n⟩, hr, hx⟩ := Option.map_eq_some_iff.mp h
      obtain ⟨rfl, rfl⟩ := Prod.mk.inj hx
      rw [fsRemove_ficheiroUsado hr hi]
      cases n with
      | none => exact iff_of_true nofun id
      | some n => exact not_congr Option.some_inj
  | append d₁ nome₁ d₂ nome₂ =>
      obtain ⟨⟨fs₁, n⟩, ha, hx⟩ := Option.map_eq_some_iff.mp h
      obtain ⟨rfl, rfl⟩ := Prod.mk.inj hx
      exact iff_of_true ((fsAppend_ficheiroUsado ha).mpr hi) id
  | defrag =>
      obtain ⟨rfl, rfl⟩ := Prod.mk.inj (Option.some.inj h)
      exact iff_of_true ((fsDefrag_same fs).ficheiroUsado_iff.mpr hi) id
  | actualizar intervalo =>
      obtain ⟨rfl, rfl⟩ := Prod.mk.inj (Option.some.inj h)
      exact iff_of_true hi id

end Chamadas

end ThreadScheduler.SnfsServer
