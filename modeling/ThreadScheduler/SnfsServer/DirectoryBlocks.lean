import ThreadScheduler.SnfsServer.Containment
import ThreadScheduler.SnfsServer.DirSearch
import ThreadScheduler.SnfsServer.ReferenceOverflow

/-!
# Blocks of directories and of files

A directory block has no reference counter, so nothing but the bitmap keeps it from a file. The
calls keep the two kinds apart as long as no file is given the blocks of a directory, no counter
passes 127 and no block is taken that has no bit in the bitmap, on disks that run full as well.
-/
namespace ThreadScheduler.SnfsServer

namespace Fs

/-- The tables between calls, when marks and references may have been lost. -/
structure Coberto (fs : Fs) : Prop where
  contido : fs.Contido fs.emUso
  lt : ∀ i, fs.alocado i = true → i < itabSize
  livre : ∀ i, fs.alocado i = false → fs.typeAt i = .unset
  vazio : ∀ i, fs.typeAt i = .unset → fs.sizeAt i = 0
  align : ∀ d, fs.typeAt d = .fsDir → 16 ∣ fs.sizeAt d
  clear : ∀ d, fs.typeAt d = .fsDir → ∀ q, offsetToBlocks (fs.sizeAt d) ≤ q → fs.slot (d, q) = 0
  medido : fs.Medido

/-- The blocks that a write reserves and the private copies it makes have bits. -/
def CabeEscrita (fs : Fs) (file offset count : ℕ) : Prop :=
  AdmiteEscrita fs file offset count → 0 < count →
    fs.Chega (blksReq fs file offset count + fs.copias file (cobertos
      (offsetToBlocks (fs.sizeAt file)) (min offset (fs.sizeAt file) / blockSize)
        (min offset (fs.sizeAt file) + count)))

/-- A copy changes another file, and the counters have room for it. -/
def CabeCopia (fs : Fs) (de d : ℕ) (nome : CString) : Prop :=
  match fs.encontra d nome.val with
  | some para => fs.typeAt para = .fsFile → de ≠ para ∧ ∀ b,
      fs.referencias b + fs.vezes de (offsetToBlocks (fs.sizeAt de)) b ≤
        127 + fs.vezes para (offsetToBlocks (fs.sizeAt para)) b
  | none => ∀ finode fs₁, Admite fs d nome finode → Vaga fs d fs₁ →
      (fs.sizeAt d % blockSize = 0 → fs.Chega 1) ∧
        ∀ b, fs.referencias b + fs.vezes de (offsetToBlocks (fs.sizeAt de)) b ≤ 127

/-- An append that fits takes the blocks of a file, or none, and the counters have room for them. -/
def CabeAnexo (fs : Fs) (de para : ℕ) : Prop :=
  offsetToBlocks (fs.sizeAt de) + offsetToBlocks (fs.sizeAt para) ≤ inodeNumBlks →
    ¬(fs.typeAt para = .fsDir ∧ fs.sizeAt para ≠ 0) ∧
      ∀ b, fs.referencias b + fs.vezes para (offsetToBlocks (fs.sizeAt para)) b ≤ 127

namespace Coberto

variable {fs fs' : Fs}

theorem alocado_of_type (h : fs.Coberto) {i : ℕ} (ht : fs.typeAt i ≠ .unset) :
    fs.alocado i = true := by
  by_contra ha
  exact ht (h.livre i (Bool.eq_false_iff.mpr ha))

theorem lt_of_type (h : fs.Coberto) {i : ℕ} (ht : fs.typeAt i ≠ .unset) : i < itabSize :=
  h.lt i (h.alocado_of_type ht)

/-- There are no more entries than i-nodes. -/
theorem sizeAt_dir_le (h : fs.Coberto) {d : ℕ} (ht : fs.typeAt d = .fsDir) :
    fs.sizeAt d ≤ 16 * itabSize := by
  have hd := h.lt_of_type (i := d) (by simp [ht])
  have hle : fs.peso d ≤ fs.pesoTotal :=
    Finset.single_le_sum (fun _ _ => Nat.zero_le _) (Finset.mem_range.mpr hd)
  have htotal := h.medido.total
  obtain ⟨k, hk⟩ := h.align d ht
  rw [peso, if_pos ht] at hle
  omega

theorem offsetToBlocks_le (h : fs.Coberto) (i : ℕ) :
    offsetToBlocks (fs.sizeAt i) ≤ inodeNumBlks := by
  refine SnfsServer.offsetToBlocks_le.mpr ?_
  by_cases ht : fs.typeAt i = .fsDir
  · have := h.sizeAt_dir_le ht
    simp only [itabSize, blockSize, inodeNumBlks] at *
    omega
  · exact h.medido.ficheiro i ht

theorem mem_emUso_iff (h : fs.Coberto) {i q : ℕ} :
    (i, q) ∈ fs.emUso ↔ q < offsetToBlocks (fs.sizeAt i) := by
  rw [mem_emUso]
  refine ⟨fun hm => hm.2.2.2, fun hq => ?_⟩
  have ht : fs.typeAt i ≠ .unset := by
    intro ht
    rw [h.vazio i ht] at hq
    exact absurd hq (Nat.not_lt_zero q)
  have hle := h.offsetToBlocks_le i
  exact ⟨h.lt_of_type ht, by omega, h.alocado_of_type ht, hq⟩

/-- Calls that leave the i-nodes as they are. -/
theorem same (h : fs.Coberto) (hs : SameInodes fs fs') (hc : fs'.Contido fs.emUso)
    (hd : ∀ d, fs.typeAt d = .fsDir → ∀ q, fs'.slot (d, q) = fs.slot (d, q)) : fs'.Coberto where
  contido := by
    rw [hs.emUso]
    exact hc
  lt i ha := h.lt i (hs.alocado i ▸ ha)
  livre i ha := (hs.type i).trans (h.livre i (hs.alocado i ▸ ha))
  vazio i ht := (hs.size i).trans (h.vazio i (hs.type i ▸ ht))
  align d ht := by
    rw [hs.size]
    exact h.align d (hs.type d ▸ ht)
  clear d ht q hq := by
    have ht := hs.type d ▸ ht
    rw [hs.size] at hq
    exact (hd d ht q).trans (h.clear d ht q hq)
  medido := h.medido.same hs

/-- Calls that give a file other slots and another size. -/
theorem setSize (h : fs.Coberto) (hs : SameInodes fs fs') {file s : ℕ}
    (ht : fs.typeAt file = .fsFile) {live : Finset (ℕ × ℕ)} (hc : fs'.Contido live)
    (hsize : s ≤ blockSize * inodeNumBlks)
    (hfile : ∀ q < offsetToBlocks s, (file, q) ∈ live)
    (hother : ∀ p ∈ fs.emUso, p.1 ≠ file → p ∈ live)
    (hd : ∀ d, fs.typeAt d = .fsDir → ∀ q, fs'.slot (d, q) = fs.slot (d, q)) :
    (fs'.setSize file s).Coberto := by
  have htype : ∀ i, (fs'.setSize file s).typeAt i = fs.typeAt i := fun i =>
    (setSize_typeAt fs' file s i).trans (hs.type i)
  have hsz : ∀ i, i ≠ file → (fs'.setSize file s).sizeAt i = fs.sizeAt i := fun i hi => by
    rw [setSize_sizeAt, if_neg hi, hs.size]
  have hal : ∀ i, (fs'.setSize file s).alocado i = fs.alocado i := hs.alocado
  have hdir : ∀ d, fs.typeAt d = .fsDir → d ≠ file := by
    rintro d hd rfl
    rw [ht] at hd
    cases hd
  refine ⟨?_, fun i ha => h.lt i (hal i ▸ ha), fun i ha => (htype i).trans (h.livre i (hal i ▸ ha)),
    fun i hi => ?_, fun d hdt => ?_, fun d hdt q hq => ?_, ?_⟩
  · have hset : (fs'.setSize file s).Contido live :=
      hc.congr rfl rfl rfl (fun p _ => setSize_typeAt fs' file s p.1)
        fun p _ => setSize_slot fs' file s p
    refine hset.mono fun p hp => ?_
    obtain ⟨i, q⟩ := p
    obtain ⟨hi, hq, ha, hlt⟩ := mem_emUso.mp hp
    by_cases hif : i = file
    · subst hif
      rw [setSize_sizeAt, if_pos rfl] at hlt
      exact hfile q hlt
    · rw [hsz i hif] at hlt
      exact hother _ (h.mem_emUso_iff.mpr hlt) hif
  · rw [htype] at hi
    rw [hsz i (fun hif => by rw [hif, ht] at hi; cases hi)]
    exact h.vazio i hi
  · rw [htype] at hdt
    rw [hsz d (hdir d hdt)]
    exact h.align d hdt
  · rw [htype] at hdt
    rw [hsz d (hdir d hdt)] at hq
    rw [setSize_slot, hd d hdt]
    exact h.clear d hdt q hq
  · refine (h.medido.same hs).setSize ?_ hsize
    rw [hs.type, ht]
    decide

theorem store (h : fs.Coberto) : (fsiStoreFsdata fs).Coberto :=
  h.same (store_same fs) h.contido.store
    fun d _ q => congrFun (slot_congr (store_inodeTab fs)) (d, q)

/-- Calls that go through the cache only. -/
theorem withCache (h : fs.Coberto) {c : CacheT}
    (hc : c.disco.numBlocks = fs.cache.disco.numBlocks) : (fs.withCache c).Coberto :=
  h.same (SameInodes.of_tab rfl rfl) (h.contido.withCache hc) fun _ _ _ => rfl

theorem fsReadLoop (h : fs.Coberto) {file offset max : ℕ} (n : ℕ) {iblock pos : ℕ}
    {buffer buffer' : List Byte}
    (hr : SnfsServer.fsReadLoop file offset max n fs iblock pos buffer = some (fs', buffer')) :
    fs'.Coberto := by
  induction n generalizing fs iblock pos buffer with
  | zero =>
      rw [← (Prod.mk.inj (Option.some.inj hr)).1]
      exact h
  | succ n ih =>
      rw [SnfsServer.fsReadLoop] at hr
      split at hr
      · rw [← (Prod.mk.inj (Option.some.inj hr)).1]
        exact h
      · obtain ⟨⟨fs₁, block⟩, hl, hr⟩ := Option.bind_eq_some_iff.mp hr
        obtain ⟨c, rfl, hc⟩ := lerBloco_cache_numBlocks hl
        exact ih (h.withCache hc) hr

theorem ler (h : fs.Coberto) {file offset count : ℕ} {r : Option (List Byte)}
    (hr : fsRead fs file offset count = some (fs', r)) : fs'.Coberto := by
  rw [fsRead] at hr
  split at hr
  · rw [← (Prod.mk.inj (Option.some.inj hr)).1]
    exact h
  split at hr
  · rw [← (Prod.mk.inj (Option.some.inj hr)).1]
    exact h
  split at hr
  · rw [← (Prod.mk.inj (Option.some.inj hr)).1]
    exact h
  simp only at hr
  split at hr
  · rw [← (Prod.mk.inj (Option.some.inj hr)).1]
    exact h
  · obtain ⟨⟨fs₁, buffer⟩, hl, hx⟩ := Option.map_eq_some_iff.mp hr
    rw [← (Prod.mk.inj hx).1]
    exact h.fsReadLoop _ hl

theorem contagem (h : fs.Coberto) : fs.Contagem := by
  refine ⟨h.contido.cobre.mono fun p hp => ?_, fun i ht => ?_⟩
  · obtain ⟨i, q⟩ := p
    obtain ⟨-, ht, hq⟩ := mem_emFicheiros.mp hp
    exact Finset.mem_filter.mpr ⟨h.mem_emUso_iff.mpr hq, ht⟩
  · have ht' : fs.typeAt i ≠ .unset := by
      rw [ht]
      decide
    exact ⟨h.lt_of_type ht', h.alocado_of_type ht', h.offsetToBlocks_le i⟩

/-! ## Creating -/

/-- A creation, when the block that the directory may need has a bit. -/
theorem criar (h : fs.Coberto) {tipo : FsItype} {dir : ℕ} {file : CString} {n : Option ℕ}
    (hpag : fs.CabePagina dir file)
    (hr : fsCriar tipo fs dir file = some (fs', n)) : fs'.Coberto := by
  rcases fsCriar_casos hr with ⟨he, -⟩ | ⟨finode, fs₁, hadm, hv, he⟩
  · rw [(Prod.mk.inj he).1]
    exact h
  obtain ⟨rfl, -⟩ := Prod.mk.inj he
  obtain ⟨hbmap, htype, hsize⟩ := hv.campos
  have hfin := (fsiBmapFindFree_eq_some hadm.livre).1
  have hne : dir ≠ finode := hadm.ne hadm.usado.1
  have htd := hadm.usado.2
  have hlt := h.sizeAt_dir_le htd
  have halign := h.align dir htd
  -- the slots in use with the one that the directory may take
  obtain ⟨live, hc, hdir, hold, hlive⟩ : ∃ live, fs₁.Contido live ∧
      (∀ q < offsetToBlocks (fs.sizeAt dir + 16), (dir, q) ∈ live) ∧ fs.emUso ⊆ live ∧
      ∀ p ∈ live, p.1 = dir ∨ p ∈ fs.emUso := by
    cases hv with
    | bloco hs hb =>
        have hnew : (dir, fs.sizeAt dir / blockSize) ∉ fs.emUso := by
          rw [h.mem_emUso_iff, lt_offsetToBlocks]
          simp only [blockSize] at *
          omega
        have hbits := (hpag finode _ hadm (.bloco hs hb) hs).lt hb
        refine ⟨_, h.contido.reserveDir hnew hadm.lt ?_ htd hbits hb, fun q hq => ?_,
          Finset.subset_insert _ _, fun p hp => (Finset.mem_insert.mp hp).imp_left fun he => ?_⟩
        · simp only [itabSize, blockSize, inodeNumBlks] at *
          omega
        · rw [lt_offsetToBlocks] at hq
          rcases eq_or_ne q (fs.sizeAt dir / blockSize) with rfl | hlast
          · exact Finset.mem_insert_self _ _
          · refine Finset.mem_insert_of_mem (h.mem_emUso_iff.mpr (lt_offsetToBlocks.mpr ?_))
            simp only [blockSize] at hs hq hlast ⊢
            omega
        · rw [he]
    | aberta hs =>
        refine ⟨_, h.contido, fun q hq => ?_, Finset.Subset.refl _, fun p => .inr⟩
        rw [lt_offsetToBlocks] at hq
        rw [h.mem_emUso_iff, lt_offsetToBlocks]
        simp only [blockSize] at *
        omega
  have hslot : ∀ p, p ≠ (dir, fs.sizeAt dir / blockSize) → fs₁.slot p = fs.slot p := by
    intro p hp
    cases hv with
    | bloco hs hb => exact (setBlock_slot _ _ _ _ _).trans (if_neg hp)
    | aberta hs => rfl
  have hlivre : ∀ p ∈ live, p.1 ≠ finode := by
    rintro ⟨i, q⟩ hp
    rcases hlive _ hp with hi | hu
    · rwa [show i = dir from hi]
    · exact hadm.ne (mem_emUso.mp hu).2.2.1
  refine Coberto.store ⟨?_, fun i ha => ?_, fun i ha => ?_, fun i ht => ?_, fun d ht => ?_,
    fun d ht q hq => ?_, ?_⟩
  · have hnovo : (comNovo tipo fs₁ dir finode file.val).Contido live :=
      hc.congr (comNovo_numBlocks _ _ _ _ _) rfl rfl
        (fun p hp => by rw [comNovo_typeAt, if_neg (hlivre p hp)])
        fun p hp => by rw [comNovo_slot, if_neg (hlivre p hp)]
    refine hnovo.mono fun p hp => ?_
    obtain ⟨i, q⟩ := p
    obtain ⟨-, -, -, hq⟩ := mem_emUso.mp hp
    rw [comNovo_sizeAt] at hq
    split at hq
    · exact absurd hq (Nat.not_lt_zero q)
    split at hq
    · rename_i hi
      rw [hsize] at hq
      rw [hi]
      exact hdir q hq
    · rw [hsize] at hq
      exact hold (h.mem_emUso_iff.mpr hq)
  · rw [comNovo_alocado _ _ _ _ hfin, alocado, hbmap, ← alocado, Bool.or_eq_true,
      decide_eq_true_eq] at ha
    rcases ha with rfl | ha
    · exact hfin
    · exact h.lt i ha
  · rw [comNovo_alocado _ _ _ _ hfin, alocado, hbmap, ← alocado, Bool.or_eq_false_iff,
      decide_eq_false_iff_not] at ha
    rw [comNovo_typeAt, if_neg ha.1, htype]
    exact h.livre i ha.2
  · rw [comNovo_typeAt] at ht
    rw [comNovo_sizeAt]
    split
    · rfl
    · rename_i hi
      rw [if_neg hi, htype] at ht
      rw [if_neg (fun hid => by rw [hid, htd] at ht; cases ht), hsize]
      exact h.vazio i ht
  · rw [comNovo_typeAt, htype] at ht
    rw [comNovo_sizeAt, hsize, hsize]
    split
    · exact Nat.dvd_zero 16
    · rename_i hi
      rw [if_neg hi] at ht
      split
      · exact Nat.dvd_add halign (Nat.dvd_refl 16)
      · exact h.align d ht
  · rw [comNovo_typeAt, htype] at ht
    rw [comNovo_sizeAt, hsize, hsize] at hq
    rw [comNovo_slot]
    split
    · rfl
    · rename_i hi
      rw [if_neg hi] at ht hq
      split at hq
      · rename_i hid
        subst hid
        rw [SnfsServer.offsetToBlocks_le] at hq
        rw [hslot _ (fun he => by
          have := (Prod.mk.inj he).2
          simp only [blockSize] at *
          omega)]
        exact h.clear d ht q (SnfsServer.offsetToBlocks_le.mpr (by omega))
      · rename_i hid
        rw [hslot _ fun he => hid (Prod.mk.inj he).1]
        exact h.clear d ht q hq
  · have hs := store_same (comNovo tipo fs₁ dir finode file.val)
    exact (h.medido.criado hadm hv tipo).congr (fun i => (hs.type i).symm)
      (fun i => (hs.size i).symm) fun i => (hs.alocado i).symm

/-- The pages of a directory that has room for another entry are blocks of the disk. -/
theorem vaga (h : fs.Coberto) {dir : ℕ} {fs₁ : Fs} (hv : Vaga fs dir fs₁) {q : ℕ}
    (hq : q ≤ fs.sizeAt dir / blockSize) :
    10 ≤ fs₁.slot (dir, q) ∧ fs₁.slot (dir, q) < fs.numBlocks := by
  have hold : blockSize * q < fs.sizeAt dir →
      10 ≤ fs.slot (dir, q) ∧ fs.slot (dir, q) < fs.numBlocks := by
    intro hlt
    have hm := h.mem_emUso_iff.mpr (lt_offsetToBlocks.mpr hlt)
    exact ⟨h.contido.range _ hm, h.contido.limite _ hm⟩
  cases hv with
  | bloco hs hb =>
      rw [setBlock_slot]
      split
      · obtain ⟨hlt, hfree⟩ := fsiBmapFindFree_eq_some hb
        exact ⟨h.contido.ten_le_of_free hfree, hlt⟩
      · rename_i hne
        refine hold ?_
        have hqu : q ≠ fs.sizeAt dir / blockSize := fun he => hne (by rw [he])
        simp only [blockSize] at *
        omega
  | aberta hs =>
      refine hold ?_
      simp only [blockSize] at *
      omega

/-- The name of a creation gives the i-node that was free. -/
theorem encontra_criar (h : fs.Coberto) {tipo : FsItype} {dir n : ℕ} {file : CString}
    (hr : fsCriar tipo fs dir file = some (fs', some n)) :
    ∃ fs₁, Admite fs dir file n ∧ Vaga fs dir fs₁ ∧ fs'.encontra dir file.val = some n := by
  rcases fsCriar_casos hr with ⟨he, -⟩ | ⟨finode, fs₁, hadm, hv, he⟩
  · cases (Prod.mk.inj he).2
  obtain ⟨rfl, hn⟩ := Prod.mk.inj he
  rw [Option.some.inj hn]
  exact ⟨fs₁, hadm, hv, encontra_criado hadm hv (fun q hq => (h.vaga hv hq).1) (h.vaga hv le_rfl).2⟩

/-! ## Writing -/

/-- A write, when the blocks it reserves and the private copies it makes have a bit. -/
theorem escrever (h : fs.Coberto) {file offset count : ℕ} {buffer : ℕ → Byte} {lixo : Block} {n : ℤ}
    (hcabe : fs.CabeEscrita file offset count)
    (hr : fsWrite fs file offset count buffer lixo = some (fs', n)) : fs'.Coberto := by
  rcases fsWrite_casos hr with ⟨he, -⟩ | ⟨⟨hfile, hreq⟩, hcasos⟩
  · rw [(Prod.mk.inj he).1]
    exact h
  have hroom := hcabe ⟨hfile, hreq⟩
  have ht := hfile.2.2
  have hnb := h.offsetToBlocks_le file
  have hmem : ∀ q < offsetToBlocks (fs.sizeAt file), (file, q) ∈ fs.emUso := fun q =>
    h.mem_emUso_iff.mpr
  have hdir : ∀ d, fs.typeAt d = .fsDir → d ≠ file := by
    rintro d hd rfl
    rw [ht] at hd
    cases hd
  generalize hs : cobertos (offsetToBlocks (fs.sizeAt file))
    (min offset (fs.sizeAt file) / blockSize) (min offset (fs.sizeAt file) + count) = s at hroom
  obtain ⟨k, hk, hkp⟩ : ∃ k, fs.Chega (blksReq fs file offset count + k) ∧
      (0 < count → k = fs.copias file s) := by
    rcases Nat.eq_zero_or_pos count with rfl | hpos
    · refine ⟨0, .inr ?_, fun h0 => absurd h0 (lt_irrefl 0)⟩
      rw [blksReq, Nat.add_zero, Nat.add_zero, max_eq_right (offsetToBlocks_mono (min_le_right _ _)),
        Nat.sub_self]
      exact Nat.zero_le _
    · exact ⟨_, hroom hpos, fun _ => rfl⟩
  obtain ⟨live, hres, hchega, hnovos⟩ := h.contido.reservarBlocos hfile.1 ht
    (fun q hq hm => absurd (h.mem_emUso_iff.mp hm) (Nat.not_lt.mpr hq)) (by omega) hk
  have hsame : SameInodes fs (reservado fs file offset count).1 := reservarBlocos_same _ _ _ _
  change Reserva fs (reservado fs file offset count).1 _ live _ _ at hres
  change (reservado fs file offset count).1.Chega k at hchega
  change (reservado fs file offset count).2 = true → ∀ q, _ → _ → _ ∧
    (reservado fs file offset count).1.referencias
      ((reservado fs file offset count).1.slot (file, q)) ≤ 1 at hnovos
  rcases hcasos with ⟨he, -⟩ | ⟨hok, fs₃, ⟨fs₂, num, iblock, block, hex, hrv⟩, he⟩
  · -- some blocks stay reserved, behind the end of the file
    rw [(Prod.mk.inj he).1]
    exact h.same hsame (hres.contido.mono hres.sub) fun d hd q => hres.slot _ (.inl (hdir d hd))
  rw [(Prod.mk.inj he).1]
  generalize (reservado fs file offset count).1 = fs₁ at hres hchega hnovos hsame hex
  have hall : ∀ q < offsetToBlocks (fs.sizeAt file) + blksReq fs file offset count,
      (file, q) ∈ live := by
    intro q hq
    by_cases hq' : q < offsetToBlocks (fs.sizeAt file)
    · exact hres.sub (hmem q hq')
    · exact (hnovos hok q (by omega) hq).1
  have hini : min offset (fs.sizeAt file) / blockSize ≤ offsetToBlocks (fs.sizeAt file) :=
    (Nat.div_le_div_right (min_le_right _ _)).trans (Nat.le_add_right _ _)
  have hshared : 0 < count → fs₁.Chega (fs₁.copias file s) := by
    intro hpos
    rw [hres.copias_eq fun q hq => ?_, ← hkp hpos]
    · exact hchega
    · obtain ⟨hlt, -, -⟩ := mem_cobertos.mp (hs ▸ hq)
      exact ⟨hlt, h.contido.ocupado _ (hmem q hlt)⟩
  obtain ⟨hc₂, htoca₂, hle, hend⟩ := hres.contido.escreverExistentes (fun q hq => hall q (by omega))
    ((hsame.type file).trans ht) _ (Nat.add_sub_cancel' hini).le (.inl ⟨rfl, rfl⟩)
    (hs ▸ hshared) hex
  rw [Nat.add_sub_cancel' hini] at hle hend
  have hsame₂ := hsame.trans (escreverExistentes_same _ hex)
  -- the slots behind those of the file were reserved
  have hsole : ∀ q, iblock ≤ q → q < offsetToBlocks (fs.sizeAt file) +
      blksReq fs file offset count → num < count → fs₂.referencias (fs₂.slot (file, q)) ≤ 1 := by
    intro q hq hqn hlt
    rw [hend hlt] at hq
    rw [htoca₂.slot (file, q) (.inr hq)]
    exact (htoca₂.refs _ (hres.contido.ocupado _ (hall q hqn))).trans (hnovos hok q hq hqn).2
  obtain ⟨hc₃, htoca₃⟩ := hc₂.escreverReservados hall ((hsame₂.type file).trans ht) _ (by omega)
    hsole hrv
  have hsize : offsetToBlocks (max (min offset (fs.sizeAt file) + count) (fs.sizeAt file)) ≤
      offsetToBlocks (fs.sizeAt file) + blksReq fs file offset count := by
    rw [offsetToBlocks_mono.map_max, blksReq]
    omega
  refine (h.setSize (hsame₂.trans (escreverReservados_same _ hrv)) ht hc₃
    (SnfsServer.offsetToBlocks_le.mp (by omega)) (fun q hq => hall q (by omega))
    (fun p hp _ => hres.sub hp) fun d hd q => ?_).store
  rw [htoca₃.slot _ (.inl (hdir d hd)), htoca₂.slot _ (.inl (hdir d hd)),
    hres.slot _ (.inl (hdir d hd))]

end Coberto

/-! ## Removing -/

/-- Releasing a block changes that block on the disk. -/
theorem apagarBloco_readDisk {fs : Fs} {b c : ℕ} (i : ℕ) (h : c ≠ b) :
    (SnfsServer.apagarBloco fs b i).readDisk c = fs.readDisk c := by
  rw [SnfsServer.apagarBloco]
  dsimp only
  split
  · rfl
  · split
    · exact writeDisk_readDisk_of_ne (fs.setRef b 0) nullBlock h
    · have hinv : ((fs.setRef b 0).withCache (SnfsServer.invalidarBloco fs.cache b).2).readDisk c =
          fs.readDisk c := by
        rw [readDisk, readDisk, withCache_cache, SnfsServer.invalidarBloco]
        split <;> rfl
      exact (writeDisk_readDisk_of_ne
        ((fs.setRef b 0).withCache (SnfsServer.invalidarBloco fs.cache b).2) nullBlock h).trans hinv

theorem removerBlocos_readDisk {fs : Fs} {idFile i n c : ℕ}
    (h : ∀ q, i ≤ q → q < i + n → c ≠ fs.slot (idFile, q)) :
    (SnfsServer.removerBlocos idFile n i fs).1.readDisk c = fs.readDisk c := by
  induction n generalizing i fs with
  | zero => rfl
  | succ n ih =>
      rw [SnfsServer.removerBlocos]
      split
      · rfl
      · have hi := h i le_rfl (by omega)
        refine (ih fun q hq hlt => ?_).trans (apagarBloco_readDisk idFile hi)
        rw [setBlock_slot, if_neg fun he => by have := (Prod.mk.inj he).2; omega,
          slot_congr (apagarBloco_inodeTab _ _ _)]
        exact h q (by omega) (by omega)

/-- The directory finds on the disk what it found, when its pages are the same. -/
theorem encontra_isSome_congr {fs fs' : Fs} {d : ℕ} (ht : fs.typeAt d = .fsDir)
    (ht' : fs'.typeAt d = .fsDir) (hs : fs'.sizeAt d = fs.sizeAt d)
    (hp : ∀ q < offsetToBlocks (fs.sizeAt d), fs'.readDisk (fs'.slot (d, q)) =
      fs.readDisk (fs.slot (d, q))) (nome : List Byte) :
    (fs'.encontra d nome).isSome = (fs.encontra d nome).isSome := by
  rw [Bool.eq_iff_iff, encontra_isSome_iff ht, encontra_isSome_iff ht', hs]
  refine exists_congr fun k => and_congr_right fun hk => ?_
  have hq : k / dirPageEntries < offsetToBlocks (fs.sizeAt d) := by
    rw [lt_offsetToBlocks]
    simp only [dirPageEntries, blockSize]
    omega
  rw [temNome, temNome, paginaDisco, paginaDisco, hp _ hq]

end Fs

/-- When the last entry is alone on its page, its block is released. -/
theorem removerEntrada_of_resto {fs : Fs} {dir u : ℕ} {nome : List Byte} {r : Fs × Bool}
    (ht : fs.typeAt dir = .fsDir) (h : removerEntrada fs dir nome = some r) (hr : r.2 = true)
    (hs : fs.sizeAt dir / 16 = dirPageEntries * u + 1) :
    r.1 = (apagarBloco fs (fs.slot (dir, u)) dir).setBlock dir u 0 := by
  have hsize : (fs.inodeTab dir).size / 16 = dirPageEntries * u + 1 := hs
  rw [removerEntrada, hsize] at h
  simp only at h
  split at h
  · rename_i hone
    obtain rfl : u = 0 := by
      simp only [dirPageEntries] at hone
      omega
    rw [← Option.some.inj h]
    rfl
  rename_i hone
  obtain ⟨found, hf⟩ := procurarEntrada_of_dir ht nome (dirPageEntries * u + 1) 0
  rw [hf, Option.bind_some] at h
  have hu0 : u ≠ 0 := by
    rintro rfl
    exact hone rfl
  have hdiv : (dirPageEntries * u + 1) / dirPageEntries = u := by
    simp only [dirPageEntries]
    omega
  have hmod : (dirPageEntries * u + 1 - 1) % (u * dirPageEntries) = 0 := by
    rw [Nat.add_sub_cancel, Nat.mul_comm, Nat.mod_self]
  have ht' : (fs.inodeTab dir).type ≠ .fsFile := by
    rw [show (fs.inodeTab dir).type = .fsDir from ht]
    decide
  simp only [hdiv, hu0, if_false, hmod, false_and, Fs.lerBloco, ht', Option.bind_some,
    if_true] at h
  split at h
  · rw [← Option.some.inj h] at hr
    cases hr
  · rw [← Option.some.inj h]
    rfl

namespace Fs

/-- What taking the last entry out of a directory leaves. -/
structure SemPagina (fs fs' : Fs) (live : Finset (ℕ × ℕ)) (dir : ℕ) : Prop where
  contido : fs'.Contido (live.filter fun p =>
    ¬(p.1 = dir ∧ offsetToBlocks (fs.sizeAt dir - 16) ≤ p.2))
  slot : ∀ p, p.1 ≠ dir → fs'.slot p = fs.slot p
  clear : ∀ q, offsetToBlocks (fs.sizeAt dir - 16) ≤ q → fs'.slot (dir, q) = 0

/-- The last page goes with the last entry on it, and no other page does. -/
theorem Contido.removerEntrada {fs fs' : Fs} {live : Finset (ℕ × ℕ)} (h : fs.Contido live)
    {dir : ℕ} {nome : List Byte} (ht : fs.typeAt dir = .fsDir) (halign : 16 ∣ fs.sizeAt dir)
    (hlive : ∀ q, q < offsetToBlocks (fs.sizeAt dir) → (dir, q) ∈ live)
    (hclear : ∀ q, offsetToBlocks (fs.sizeAt dir) ≤ q → fs.slot (dir, q) = 0)
    (hr : SnfsServer.removerEntrada fs dir nome = some (fs', true)) : SemPagina fs fs' live dir := by
  obtain ⟨num, hnum⟩ := halign
  have hdiv : fs.sizeAt dir / 16 = num := by omega
  by_cases hu : ∃ u, num = dirPageEntries * u + 1
  · -- the last entry is alone on its page
    obtain ⟨u, hu⟩ := hu
    have hres := removerEntrada_of_resto ht hr rfl (hdiv.trans hu)
    have hsize : fs.sizeAt dir = blockSize * u + 16 := by
      simp only [dirPageEntries, blockSize] at hu ⊢
      omega
    have hblocks : offsetToBlocks (fs.sizeAt dir - 16) = u := by
      rw [hsize, Nat.add_sub_cancel, offsetToBlocks_mul]
    have hmem : (dir, u) ∈ live := hlive u (lt_offsetToBlocks.mpr (by omega))
    rw [show fs' = _ from hres]
    refine ⟨?_, fun p hp => ?_, fun q hq => ?_⟩
    · refine ((h.apagarBloco hmem dir).setBlock_dead (Finset.notMem_erase _ _) 0).mono ?_
      intro p hp
      obtain ⟨hl, hno⟩ := Finset.mem_filter.mp hp
      refine Finset.mem_erase.mpr ⟨?_, hl⟩
      rintro rfl
      exact hno ⟨rfl, hblocks.le⟩
    · rw [setBlock_slot, if_neg fun he => hp (by rw [he]), slot_congr (apagarBloco_inodeTab _ _ _)]
    · rw [setBlock_slot, slot_congr (apagarBloco_inodeTab _ _ _)]
      split
      · rfl
      · rename_i hne
        refine hclear q (SnfsServer.offsetToBlocks_le.mpr ?_)
        have hqu : q ≠ u := fun he => hne (by rw [he])
        simp only [blockSize] at *
        omega
  · -- the last page stays, and its block is written in place
    have hblocks : ∀ q, offsetToBlocks (fs.sizeAt dir - 16) ≤ q →
        offsetToBlocks (fs.sizeAt dir) ≤ q := by
      intro q hq
      rw [SnfsServer.offsetToBlocks_le] at hq ⊢
      by_contra hlt
      refine hu ⟨q, ?_⟩
      simp only [dirPageEntries, blockSize] at *
      omega
    cases removerEntrada_casos ht hr with
    | libertou u hs => exact absurd ⟨u, hdiv.symm.trans hs⟩ hu
    | escreveu hne data hw =>
        have hrefs : fs.referencias (fs.slot (dir, fs.sizeAt dir / 16 / dirPageEntries)) = 0 := by
          by_cases hq : fs.sizeAt dir / 16 / dirPageEntries < offsetToBlocks (fs.sizeAt dir)
          · exact h.dirRefs _ (hlive _ hq) ht
          · rw [hclear _ (Nat.not_lt.mp hq)]
            exact (h.reserved 0 (by decide)).2
        rw [Accounts.escreverBloco_of_refs_zero hrefs ht] at hw
        rw [← Option.some.inj hw]
        refine ⟨?_, fun _ _ => rfl, fun q hq => hclear q (hblocks q hq)⟩
        exact (h.withCache (CacheT.writeDisk_numBlocks _ _ _)).mono (Finset.filter_subset _ _)

/-- The i-node is freed and the directory gets shorter. -/
theorem Coberto.removido {fs fs₂ : Fs} (h : fs.Coberto) {dir idFile : ℕ} {nome : CString}
    (hadm : AdmiteRemocao fs dir nome idFile) (hne : dir ≠ idFile) (hs : SameInodes fs fs₂)
    {live : Finset (ℕ × ℕ)} (hc : fs₂.Contido live)
    (hlive : ∀ p ∈ fs.emUso, p.1 ≠ idFile →
      ¬(p.1 = dir ∧ offsetToBlocks (fs.sizeAt dir - 16) ≤ p.2) → p ∈ live)
    (hslot : ∀ d q, d ≠ dir → d ≠ idFile → fs₂.slot (d, q) = fs.slot (d, q))
    (hclear : ∀ q, offsetToBlocks (fs.sizeAt dir - 16) ≤ q → fs₂.slot (dir, q) = 0) :
    (fsiStoreFsdata (semInode fs₂ dir idFile)).Coberto := by
  have htd := hadm.usado.2
  have htype : ∀ i, i ≠ idFile → (semInode fs₂ dir idFile).typeAt i = fs.typeAt i :=
    fun i hi => by rw [semInode_typeAt, if_neg hi, hs.type]
  have hal : ∀ i, i ≠ idFile → (semInode fs₂ dir idFile).alocado i = fs.alocado i :=
    fun i hi => by rw [semInode_alocado, decide_eq_false hi, Bool.not_false, Bool.true_and,
      hs.alocado]
  have hsize : ∀ i, i ≠ idFile → (semInode fs₂ dir idFile).sizeAt i =
      if i = dir then fs.sizeAt dir - 16 else fs.sizeAt i :=
    fun i hi => by rw [semInode_sizeAt, if_neg hi, hs.size, hs.size]
  have hfreed : (semInode fs₂ dir idFile).typeAt idFile = .unset := by
    rw [semInode_typeAt, if_pos rfl]
  have hdir : ∀ d, (semInode fs₂ dir idFile).typeAt d = .fsDir →
      d ≠ idFile ∧ fs.typeAt d = .fsDir := by
    intro d hd
    have hdi : d ≠ idFile := by
      rintro rfl
      rw [hfreed] at hd
      cases hd
    exact ⟨hdi, htype d hdi ▸ hd⟩
  refine Coberto.store ⟨?_, fun i ha => ?_, fun i ha => ?_, fun i ht => ?_, fun d ht => ?_,
    fun d ht q hq => ?_, ?_⟩
  · have hmem : ∀ p ∈ (semInode fs₂ dir idFile).emUso, p.1 ≠ idFile ∧ p ∈ live := by
      rintro ⟨i, q⟩ hp
      obtain ⟨-, -, -, hq⟩ := mem_emUso.mp hp
      have hi : i ≠ idFile := by
        rintro rfl
        rw [semInode_sizeAt, if_pos rfl] at hq
        exact Nat.not_lt_zero q hq
      rw [hsize i hi] at hq
      refine ⟨hi, hlive _ (h.mem_emUso_iff.mpr ?_) hi ?_⟩
      · split at hq
        · rename_i hd
          subst hd
          exact hq.trans_le (offsetToBlocks_mono (Nat.sub_le _ _))
        · exact hq
      · rintro ⟨rfl, hle⟩
        rw [if_pos rfl] at hq
        exact absurd hq (Nat.not_lt.mpr hle)
    refine (hc.mono fun p hp => (hmem p hp).2).congr rfl rfl rfl (fun p hp => ?_) fun p hp => ?_
    · rw [semInode_typeAt, if_neg (hmem p hp).1]
    · rw [semInode_slot, if_neg (hmem p hp).1]
  · by_cases hi : i = idFile
    · rw [semInode_alocado, decide_eq_true hi] at ha
      cases ha
    · exact h.lt i (hal i hi ▸ ha)
  · by_cases hi : i = idFile
    · rw [hi, hfreed]
    · rw [htype i hi]
      exact h.livre i (hal i hi ▸ ha)
  · by_cases hi : i = idFile
    · rw [semInode_sizeAt, if_pos hi]
    · rw [htype i hi] at ht
      rw [hsize i hi, if_neg (fun hd => by rw [hd, htd] at ht; cases ht)]
      exact h.vazio i ht
  · obtain ⟨hdi, ht⟩ := hdir d ht
    rw [hsize d hdi]
    split
    · exact Nat.dvd_sub (h.align dir htd) (Nat.dvd_refl 16)
    · exact h.align d ht
  · obtain ⟨hdi, ht⟩ := hdir d ht
    rw [hsize d hdi] at hq
    rw [semInode_slot, if_neg hdi]
    split at hq
    · rename_i hd
      rw [hd]
      exact hclear q hq
    · rename_i hd
      rw [hslot d q hd hdi]
      exact h.clear d ht q hq
  · have hst := store_same (semInode fs₂ dir idFile)
    exact (h.medido.removido hadm hs).congr (fun i => (hst.type i).symm) (fun i => (hst.size i).symm)
      fun i => (hst.alocado i).symm

theorem Coberto.remover {fs fs' : Fs} (h : fs.Coberto) {dir : ℕ} {nome : CString} {n : Option ℕ}
    (hr : fsRemove fs dir nome = some (fs', n)) : fs'.Coberto := by
  rcases fsRemove_casos hr with ⟨he, -⟩ | ⟨idFile, hadm, hcasos⟩
  · rw [(Prod.mk.inj he).1]
    exact h
  have htd := hadm.usado.2
  have hsize : fs.sizeAt dir ≠ 0 := by
    intro h0
    have hnone := encontra_of_vazio h0 nome.val
    rw [hadm.achado] at hnone
    cases hnone
  have hne : dir ≠ idFile := by
    rintro rfl
    exact hadm.vazio ⟨htd, hsize⟩
  have hlive : ∀ q, 0 ≤ q → q < 0 + offsetToBlocks (fs.sizeAt idFile) → (idFile, q) ∈ fs.emUso :=
    fun q _ hq => h.mem_emUso_iff.mpr (by omega)
  obtain ⟨hok, hc₁, hslot₁⟩ := h.contido.removerBlocos hlive
  have hsame₁ : SameInodes fs (semBlocos fs idFile).1 := removerBlocos_same _ _ _ fs
  have hdisk : ∀ q < offsetToBlocks (fs.sizeAt dir), (semBlocos fs idFile).1.readDisk
      (fs.slot (dir, q)) = fs.readDisk (fs.slot (dir, q)) := by
    intro q hq
    refine removerBlocos_readDisk fun r hr hlt heq => hne ?_
    have hp := h.contido.dirOwn _ (h.mem_emUso_iff.mpr hq) _ (hlive r hr hlt) htd heq.symm
    exact (Prod.mk.inj hp).1.symm
  change (semBlocos fs idFile).2 = true at hok
  change ∀ p, p.1 ≠ idFile → (semBlocos fs idFile).1.slot p = fs.slot p at hslot₁
  change (semBlocos fs idFile).1.Contido _ at hc₁
  rcases hcasos with ⟨-, hno⟩ | ⟨-, fs₂, ok, hent, he⟩
  · rw [hok] at hno
    cases hno
  generalize (semBlocos fs idFile).1 = fs₁ at hsame₁ hdisk hslot₁ hc₁ hent
  have htd₁ : fs₁.typeAt dir = .fsDir := (hsame₁.type dir).trans htd
  -- the entry is still found, so the directory loses its last one
  have hfound : (fs₁.encontra dir nome.val).isSome = true := by
    rw [encontra_isSome_congr htd htd₁ (hsame₁.size dir) fun q hq => by
      rw [hslot₁ (dir, q) hne, hdisk q hq], hadm.achado]
    rfl
  obtain rfl : ok = true := removerEntrada_encontra htd₁ hfound hent
  rw [if_pos rfl] at he
  rw [(Prod.mk.inj he).1]
  have hsame₂ : SameInodes fs fs₂ := hsame₁.trans (removerEntrada_casos htd₁ hent).same
  obtain ⟨hc₂, hslot₂, hclear₂⟩ := hc₁.removerEntrada htd₁
    ((hsame₁.size dir).symm ▸ h.align dir htd)
    (fun q hq => Finset.mem_filter.mpr ⟨h.mem_emUso_iff.mpr (hsame₁.size dir ▸ hq),
      fun hf => hne hf.1⟩)
    (fun q hq => (hslot₁ (dir, q) hne).trans (h.clear dir htd q (hsame₁.size dir ▸ hq))) hent
  rw [hsame₁.size] at hc₂ hclear₂
  refine h.removido hadm hne hsame₂ hc₂ (fun p hp hi hno => ?_) (fun d q hd hdi => ?_) hclear₂
  · exact Finset.mem_filter.mpr ⟨Finset.mem_filter.mpr ⟨hp, fun hf => hi hf.1⟩, hno⟩
  · rw [hslot₂ (d, q) hd, hslot₁ (d, q) hdi]

/-! ## Copying and appending -/

namespace Coberto

variable {fs fs' : Fs}

/-- A copy to another file, when the counters have room for it. -/
theorem copiar (h : fs.Coberto) {de para : ℕ} (ht : fs.typeAt de = .fsFile)
    (hcabe : fs.typeAt para = .fsFile → de ≠ para ∧ ∀ b,
      fs.referencias b + fs.vezes de (offsetToBlocks (fs.sizeAt de)) b ≤
        127 + fs.vezes para (offsetToBlocks (fs.sizeAt para)) b) :
    (fsCopyInodes fs de para).1.Coberto := by
  rw [fsCopyInodes]
  split
  · exact h
  rename_i hp
  have htp : fs.typeAt para = .fsFile := not_not.mp hp
  obtain ⟨hne, hcabe⟩ := hcabe htp
  have hlive : ∀ q < offsetToBlocks (fs.sizeAt para), (para, q) ∈ fs.emUso := fun q =>
    h.mem_emUso_iff.mpr
  obtain ⟨hc₁, htab⟩ := h.contido.libertarDestino para _ hlive
  obtain ⟨-, -, hrefs⟩ := h.contido.cobre.libertarDestino para
    (offsetToBlocks (fs.sizeAt para)) fun q hq => Finset.mem_filter.mpr ⟨hlive q hq, htp⟩
  change ((copiarReferencias (libertarDestino fs para (offsetToBlocks (fs.sizeAt para))) de para 0
    (offsetToBlocks ((libertarDestino fs para (offsetToBlocks (fs.sizeAt para))).sizeAt de))).setSize
      para ((libertarDestino fs para (offsetToBlocks (fs.sizeAt para))).sizeAt de)).Coberto
  have hsame := libertarDestino_same fs para (offsetToBlocks (fs.sizeAt para))
  rw [hsame.size]
  generalize libertarDestino fs para (offsetToBlocks (fs.sizeAt para)) = fs₁ at *
  have hv : ∀ b, fs₁.vezes de (offsetToBlocks (fs.sizeAt de)) b =
      fs.vezes de (offsetToBlocks (fs.sizeAt de)) b := fun b => by
    rw [vezes, slot_congr htab, ← vezes]
  have hde : ∀ q < offsetToBlocks (fs.sizeAt de), (de, q) ∈ fs.emUso.filter fun p =>
      ¬(p.1 = para ∧ p.2 < offsetToBlocks (fs.sizeAt para)) := fun q hq =>
    Finset.mem_filter.mpr ⟨h.mem_emUso_iff.mpr hq, fun hno => hne hno.1⟩
  have hpara : ∀ r < offsetToBlocks (fs.sizeAt de), (para, 0 + r) ∉ fs.emUso.filter fun p =>
      ¬(p.1 = para ∧ p.2 < offsetToBlocks (fs.sizeAt para)) := by
    intro r _ hm
    obtain ⟨hm, hno⟩ := Finset.mem_filter.mp hm
    exact hno ⟨rfl, h.mem_emUso_iff.mp hm⟩
  obtain ⟨live', hlive', hc₂⟩ := hc₁.copiarReferencias hde ((hsame.type de).trans ht)
    (h.lt_of_type (by simp [htp])) ((hsame.type para).trans htp)
    (by rw [Nat.zero_add]; exact h.offsetToBlocks_le de) hpara fun b => by
      have := hcabe b
      rw [hv, hrefs]
      omega
  refine h.setSize (hsame.trans (copiarReferencias_same _ _ _ _ _)) htp hc₂
    (h.medido.ficheiro de (by simp [ht]))
    (fun q hq => (hlive' _).mpr (.inr ⟨rfl, Nat.zero_le q, by dsimp only; omega⟩))
    (fun p hp hpp => (hlive' p).mpr (.inl (Finset.mem_filter.mpr ⟨hp, fun hno => hpp hno.1⟩)))
    fun d hd q => ?_
  rw [copiarReferencias_slot fs₁ hne, if_neg, slot_congr htab]
  rintro ⟨rfl, -⟩
  rw [htp] at hd
  cases hd

theorem copia (h : fs.Coberto) {d₁ d₂ : ℕ} {nome₁ nome₂ : CString} {n : ℤ}
    (hcabe : ∀ de, AdmiteNomes fs d₁ nome₁ d₂ nome₂ de → fs.CabeCopia de d₂ nome₂)
    (hr : fsCopy fs d₁ nome₁ d₂ nome₂ = some (fs', n)) : fs'.Coberto := by
  rcases fsCopy_casos hr with ⟨he, -⟩ | ⟨de, hadm, ⟨para, hpara, he⟩ | ⟨hnone, hcasos⟩⟩
  · rw [(Prod.mk.inj he).1]
    exact h
  · have hcabe := hcabe de hadm
    rw [CabeCopia, hpara] at hcabe
    have hc := h.copiar hadm.ficheiro hcabe
    rwa [← he] at hc
  have hcabe := hcabe de hadm
  rw [CabeCopia, hnone] at hcabe
  have hpag : fs.CabePagina d₂ nome₂ := fun finode fs₁ ha hv => (hcabe finode fs₁ ha hv).1
  rcases hcasos with ⟨-, he⟩ | ⟨fs₁, m, hcriar, -, ⟨-, he⟩ | ⟨para, hpara, he⟩⟩
  · rw [(Prod.mk.inj he).1]
    exact h
  · rw [(Prod.mk.inj he).1]
    exact h.criar hpag hcriar
  -- the creation leaves the source and the counters alone
  obtain ⟨hrefs, hmantem⟩ := h.contagem.criar_mantem hcriar
  obtain ⟨ht, hs, -, hslot⟩ := hmantem de hadm.ficheiro
  obtain ⟨hachado, hlivre, hcabe⟩ : fs₁.encontra d₂ nome₂.val = some m ∧ fs.alocado m = false ∧
      ∀ b, fs.referencias b + fs.vezes de (offsetToBlocks (fs.sizeAt de)) b ≤ 127 := by
    obtain ⟨fs₀, hadm', hv, hachado⟩ := h.encontra_criar hcriar
    exact ⟨hachado, (fsiBmapFindFree_eq_some hadm'.livre).2, (hcabe m fs₀ hadm' hv).2⟩
  obtain rfl : m = para := Option.some.inj (hachado.symm.trans hpara)
  have hne : de ≠ m := by
    rintro rfl
    rw [h.alocado_of_type (i := de) (by simp [hadm.ficheiro])] at hlivre
    cases hlivre
  have hc := (h.criar hpag hcriar).copiar (ht.trans hadm.ficheiro) fun _ => ⟨hne, fun b => by
    have := hcabe b
    rw [hrefs, hs, vezes, Finset.filter_congr fun r _ => by rw [hslot r], ← vezes]
    omega⟩
  rwa [← he] at hc

/-- An append of a file, or of an i-node without blocks. -/
theorem anexar (h : fs.Coberto) {d₁ d₂ : ℕ} {nome₁ nome₂ : CString} {n : Option ℕ}
    (hsep : ∀ de para, AdmiteNomes fs d₁ nome₁ d₂ nome₂ de →
      fs.encontra d₂ nome₂.val = some para → fs.CabeAnexo de para)
    (hr : fsAppend fs d₁ nome₁ d₂ nome₂ = some (fs', n)) : fs'.Coberto := by
  rcases fsAppend_casos hr with he | ⟨de, para, hadm, hpara, hfits, he⟩
  · rw [(Prod.mk.inj he).1]
    exact h
  have hnd := h.offsetToBlocks_le de
  obtain ⟨hdir, hcabe⟩ := hsep de para hadm hpara (by omega)
  rw [(Prod.mk.inj he).1]
  have ht := hadm.ficheiro
  -- nothing is copied from an i-node that is not a file
  obtain ⟨live', hlive', hc⟩ : ∃ live', (∀ p, p ∈ live' ↔ p ∈ fs.emUso ∨ p.1 = de ∧
      offsetToBlocks (fs.sizeAt de) ≤ p.2 ∧
        p.2 < offsetToBlocks (fs.sizeAt de) + offsetToBlocks (fs.sizeAt para)) ∧
      (copiarReferencias fs para de (offsetToBlocks (fs.sizeAt de))
        (offsetToBlocks (fs.sizeAt para))).Contido live' := by
    by_cases htp : fs.typeAt para = .fsFile
    · exact h.contido.copiarReferencias (fun q hq => h.mem_emUso_iff.mpr hq) htp
        (h.lt_of_type (by simp [ht])) ht (by omega)
        (fun r _ hm => by
          have := h.mem_emUso_iff.mp hm
          omega) hcabe
    · have h0 : fs.sizeAt para = 0 := by
        by_contra hs
        have hunset : fs.typeAt para ≠ .unset := fun hu => hs (h.vazio para hu)
        cases hty : fs.typeAt para with
        | unset => exact hunset hty
        | fsFile => exact htp hty
        | fsDir => exact hdir ⟨hty, hs⟩
      rw [h0]
      exact ⟨fs.emUso, fun p => ⟨.inl, fun hp => hp.resolve_right fun hq => by
        rw [offsetToBlocks_zero] at hq
        omega⟩, h.contido⟩
  have hadd : offsetToBlocks (fs.sizeAt de + fs.sizeAt para) ≤
      offsetToBlocks (fs.sizeAt de) + offsetToBlocks (fs.sizeAt para) := by
    rw [SnfsServer.offsetToBlocks_le, Nat.mul_add]
    exact Nat.add_le_add (SnfsServer.offsetToBlocks_le.mp le_rfl)
      (SnfsServer.offsetToBlocks_le.mp le_rfl)
  refine h.setSize (copiarReferencias_same _ _ _ _ _) ht hc
    (SnfsServer.offsetToBlocks_le.mp (by omega)) (fun q hq => ?_)
    (fun p hp _ => (hlive' p).mpr (.inl hp)) fun d hd q => ?_
  · rw [hlive']
    by_cases hq' : q < offsetToBlocks (fs.sizeAt de)
    · exact .inl (h.mem_emUso_iff.mpr hq')
    · exact .inr ⟨rfl, Nat.not_lt.mp hq', by dsimp only; omega⟩
  · rw [copiarReferencias_slot_of fs (by rintro rfl; exact .inr le_rfl), if_neg]
    rintro ⟨rfl, -⟩
    rw [ht] at hd
    cases hd

end Coberto

end Fs

end ThreadScheduler.SnfsServer
