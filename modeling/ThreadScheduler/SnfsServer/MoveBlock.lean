import ThreadScheduler.SnfsServer.BlockOps

/-!
# Moving a block

`mexeBlocoPara` copies a block on disk, makes the slots that name it name its new place
and frees the old one; what was at the new place goes to a temporary block first. The
copy is of the disk, so a page that moves loses whatever only the cache held.
-/
namespace ThreadScheduler.SnfsServer

namespace Fs

/-- The slots of i-nodes 1 to 63 in the order of the pass. -/
def percurso : List (ℕ × ℕ) :=
  (List.range' 1 (itabSize - 1)).flatMap fun z => (List.range inodeNumBlks).map fun q => (z, q)

theorem mem_percurso {p : ℕ × ℕ} :
    p ∈ percurso ↔ (1 ≤ p.1 ∧ p.1 < itabSize) ∧ p.2 < inodeNumBlks := by
  obtain ⟨z, q⟩ := p
  simp [percurso, itabSize]

theorem card_percurso_le : percurso.toFinset.card ≤ (itabSize - 1) * inodeNumBlks := by
  have hsub : percurso.toFinset ⊆ Finset.Ico 1 itabSize ×ˢ Finset.range inodeNumBlks := by
    intro p hp
    rw [List.mem_toFinset, mem_percurso] at hp
    rwa [Finset.mem_product, Finset.mem_Ico, Finset.mem_range]
  simpa using Finset.card_le_card hsub

/-- From the next place on, the i-node table names no block twice in one i-node, and the slots
that are not live name blocks in use or blocks below `lim`. -/
structure Arrumado (fs : Fs) (live : Finset (ℕ × ℕ)) (pos lim : ℕ) : Prop where
  layout : fs.Layout live
  dentro : ∀ p ∈ live, p ∈ percurso
  restos : ∀ p ∈ percurso, p ∉ live → pos ≤ fs.slot p →
    fs.typeAt p.1 = .fsFile ∧ (fs.ocupado (fs.slot p) = true ∨ fs.slot p < lim)
  unico : ∀ i q q', (i, q) ∈ percurso → (i, q') ∈ percurso → pos ≤ fs.slot (i, q) →
    fs.slot (i, q) = fs.slot (i, q') → q = q'

namespace Arrumado

variable {fs : Fs} {live : Finset (ℕ × ℕ)} {pos lim : ℕ} (h : fs.Arrumado live pos lim)

include h

theorem mono {pos' : ℕ} (hle : pos ≤ pos') : fs.Arrumado live pos' lim where
  layout := h.layout
  dentro := h.dentro
  restos p hp hno hge := h.restos p hp hno (hle.trans hge)
  unico i q q' hq hq' hge hs := h.unico i q q' hq hq' (hle.trans hge) hs

/-- A block whose bit is clear is below `lim` where a slot names it. -/
theorem lt_of_free {p : ℕ × ℕ} (hp : p ∈ percurso) (hge : pos ≤ fs.slot p)
    (hfree : fs.ocupado (fs.slot p) = false) : fs.slot p < lim := by
  by_cases hlive : p ∈ live
  · exact absurd rfl (h.layout.slot_ne_of_free hfree hlive)
  · exact (h.restos p hp hlive hge).2.resolve_left (by simp [hfree])

/-- No slot names a free block behind `lim`. -/
theorem slot_ne {k : ℕ} (hk : pos ≤ k) (hlim : lim ≤ k) (hfree : fs.ocupado k = false)
    {p : ℕ × ℕ} (hp : p ∈ percurso) : fs.slot p ≠ k := by
  rintro rfl
  have := h.lt_of_free hp hk hfree
  omega

end Arrumado

/-! ## Redirecting slots -/

theorem mem_refInodes {fs : Fs} {bl o : ℕ} : o ∈ refInodes fs bl ↔
    1 ≤ o ∧ o < itabSize ∧ ∃ q < inodeNumBlks, fs.slot (o, q) = bl := by
  simp only [refInodes, List.mem_filter, List.mem_range'_1, List.any_eq_true, List.mem_range,
    decide_eq_true_eq, itabSize, and_assoc]
  rfl

theorem nodup_refInodes (fs : Fs) (bl : ℕ) : (refInodes fs bl).Nodup :=
  (List.nodup_range' ..).filter _

theorem refInodes_congr (fs fs' : Fs) {bl : ℕ}
    (h : ∀ p, fs'.slot p = bl ↔ fs.slot p = bl) : refInodes fs' bl = refInodes fs bl := by
  refine List.filter_congr fun o _ => ?_
  refine List.any_congr rfl fun q => ?_
  exact decide_eq_decide.mpr (h (o, q))

theorem redirecionarInode_spec (fs : Fs) (de para : ℕ) {o : ℕ}
    (hun : ∀ q < inodeNumBlks, ∀ q' < inodeNumBlks,
      fs.slot (o, q) = de → fs.slot (o, q') = de → q = q') :
    ∃ tab, redirecionarInode de para fs o = fs.withTab tab ∧ SameInodes fs (fs.withTab tab) ∧
      ∀ p, (fs.withTab tab).slot p =
        if p.1 = o ∧ p.2 < inodeNumBlks ∧ fs.slot p = de then para else fs.slot p := by
  rw [redirecionarInode]
  cases hf : (List.range inodeNumBlks).find? fun w => (fs.inodeTab o).blocks w = de with
  | none =>
      refine ⟨fs.inodeTab, rfl, SameInodes.refl fs, fun p => (if_neg ?_).symm⟩
      rintro ⟨rfl, hq, hs⟩
      have := List.find?_eq_none.mp hf p.2 (List.mem_range.mpr hq)
      exact this (decide_eq_true hs)
  | some w =>
      have hw : w < inodeNumBlks := List.mem_range.mp (List.mem_of_find?_eq_some hf)
      have hsw : (fs.inodeTab o).blocks w = de := by simpa using List.find?_some hf
      refine ⟨_, rfl, SameInodes.setBlock fs o w para, fun p => ?_⟩
      refine (setBlock_slot fs o w para p).trans (if_congr ?_ rfl rfl)
      constructor
      · rintro rfl
        exact ⟨rfl, hw, hsw⟩
      · rintro ⟨rfl, hq, hs⟩
        exact Prod.ext rfl (hun p.2 hq w hw hs hsw)

/-- Redirecting changes the slots of the listed i-nodes that name the block, each of which
has at most one. -/
theorem redirecionar_spec (fs : Fs) (de para : ℕ) {inodes : List ℕ} (hnd : inodes.Nodup)
    (hun : ∀ o ∈ inodes, ∀ q < inodeNumBlks, ∀ q' < inodeNumBlks,
      fs.slot (o, q) = de → fs.slot (o, q') = de → q = q') :
    ∃ tab, redirecionar fs inodes de para = fs.withTab tab ∧ SameInodes fs (fs.withTab tab) ∧
      ∀ p, (fs.withTab tab).slot p =
        if p.1 ∈ inodes ∧ p.2 < inodeNumBlks ∧ fs.slot p = de then para else fs.slot p := by
  induction inodes generalizing fs with
  | nil => exact ⟨fs.inodeTab, rfl, SameInodes.refl fs, by simp [withTab]⟩
  | cons o os ih =>
      obtain ⟨ho, hos⟩ := List.nodup_cons.mp hnd
      obtain ⟨tab₁, hstep, hsame₁, hslot₁⟩ := redirecionarInode_spec fs de para
        (hun o (by simp))
      obtain ⟨tab, hrest, hsame, hslot⟩ := ih (fs.withTab tab₁) hos
        fun o' ho' q hq q' hq' hs hs' => by
          have hne : o' ≠ o := fun he => ho (he ▸ ho')
          rw [hslot₁, if_neg fun h => hne h.1] at hs hs'
          exact hun o' (List.mem_cons_of_mem _ ho') q hq q' hq' hs hs'
      refine ⟨tab, ?_, hsame₁.trans hsame, fun p => ?_⟩
      · rw [redirecionar, List.foldl_cons, hstep]
        exact hrest
      · refine (hslot p).trans ?_
        rw [hslot₁]
        by_cases hp : p.1 = o
        · simp [hp, ho]
        · simp [hp]

/-- In a tidy i-node table the i-nodes found to name a block are redirected in all the slots
that name it. -/
theorem Arrumado.redirecionar {fs : Fs} {live : Finset (ℕ × ℕ)} {pos lim : ℕ}
    (h : fs.Arrumado live pos lim) (fs' : Fs) {de : ℕ} (para : ℕ) (hde : pos ≤ de)
    (htab : fs'.inodeTab = fs.inodeTab) :
    ∃ tab, SnfsServer.redirecionar fs' (refInodes fs de) de para = fs'.withTab tab ∧
      SameInodes fs' (fs'.withTab tab) ∧
      ∀ p, (fs'.withTab tab).slot p =
        if p ∈ percurso ∧ fs.slot p = de then para else fs.slot p := by
  have hslots := slot_congr htab
  obtain ⟨tab, hr, hsame, hslot⟩ := redirecionar_spec fs' de para
    (nodup_refInodes fs de) fun o ho q hq q' hq' hs hs' => by
      obtain ⟨h1, h2, -⟩ := mem_refInodes.mp ho
      rw [hslots] at hs hs'
      exact h.unico o q q' (mem_percurso.mpr ⟨⟨h1, h2⟩, hq⟩) (mem_percurso.mpr ⟨⟨h1, h2⟩, hq'⟩)
        (hs ▸ hde) (hs.trans hs'.symm)
  refine ⟨tab, hr, hsame, fun p => ?_⟩
  rw [hslot, hslots]
  refine if_congr ⟨fun ⟨ho, hq, hs⟩ => ?_, fun ⟨hp, hs⟩ => ?_⟩ rfl rfl
  · obtain ⟨h1, h2, -⟩ := mem_refInodes.mp ho
    exact ⟨mem_percurso.mpr ⟨⟨h1, h2⟩, hq⟩, hs⟩
  · obtain ⟨⟨h1, h2⟩, hq⟩ := mem_percurso.mp hp
    exact ⟨mem_refInodes.mpr ⟨h1, h2, p.2, hq, hs⟩, hq, hs⟩

/-! ## One move -/

/-- The page of every live slot as the disk has it. -/
def noDisco (fs : Fs) (p : ℕ × ℕ) : Block := fs.cache.disco.blocks (fs.slot p)

/-- The live slots after block `de` has moved: its bit is set from then on, so the slots that
name it join them if it was clear. -/
def juntar (fs : Fs) (live : Finset (ℕ × ℕ)) (de : ℕ) : Finset (ℕ × ℕ) :=
  live ∪ (percurso.filter fun p => fs.slot p = de ∧ fs.ocupado de = false).toFinset

theorem mem_juntar {fs : Fs} {live : Finset (ℕ × ℕ)} {de : ℕ} {p : ℕ × ℕ} :
    p ∈ fs.juntar live de ↔
      p ∈ live ∨ p ∈ percurso ∧ fs.slot p = de ∧ fs.ocupado de = false := by
  simp only [juntar, Finset.mem_union, List.mem_toFinset, List.mem_filter, decide_eq_true_eq]

theorem subset_juntar (fs : Fs) (live : Finset (ℕ × ℕ)) (de : ℕ) : live ⊆ fs.juntar live de :=
  Finset.subset_union_left

theorem juntar_of_ocupado {fs : Fs} {live : Finset (ℕ × ℕ)} {de : ℕ}
    (h : fs.ocupado de = true) : fs.juntar live de = live := by
  ext p
  rw [mem_juntar, h]
  simp

/-- Block `de` is now at the place `para`, which was free, and has left the cache. -/
structure Movido (fs fs' : Fs) (live : Finset (ℕ × ℕ)) (pos lim de para : ℕ) : Prop where
  arrumado : fs'.Arrumado (fs.juntar live de) pos lim
  same : SameInodes fs fs'
  referencias : fs'.referencias = fs.referencias
  slot : ∀ p, fs'.slot p = if p ∈ percurso ∧ fs.slot p = de then para else fs.slot p
  ocupado : ∀ c, fs'.ocupado c = (decide (c = para) || !decide (c = de) && fs.ocupado c)
  noDisco : ∀ p ∈ live, fs'.noDisco p = fs.noDisco p
  conteudo : ∀ b, b ≠ de → b ≠ para → fs'.cache.conteudo b = fs.cache.conteudo b
  valid : ∀ b, fs'.cache.Valid b → fs.cache.Valid b
  foraDaCache : ¬ fs'.cache.Valid para

section Mover

variable {fs fs' : Fs} {live : Finset (ℕ × ℕ)} {pos pos' lim de para : ℕ}
  (h : fs.Arrumado live pos lim) (hge : pos ≤ de) (hfree : fs.ocupado para = false)
  (hslot : ∀ p, fs'.slot p = if p ∈ percurso ∧ fs.slot p = de then para else fs.slot p)

include h hfree hslot in
/-- Live slots name one block after the move only if they did before. -/
theorem Arrumado.slot_inj_mover {p p' : ℕ × ℕ} (hp : p ∈ fs.juntar live de)
    (hp' : p' ∈ fs.juntar live de) (hs : fs'.slot p = fs'.slot p') : fs.slot p = fs.slot p' := by
  have hmem : ∀ r ∈ fs.juntar live de, r ∈ percurso := fun r hr =>
    (mem_juntar.mp hr).elim (h.dentro r) And.left
  have hne : ∀ r ∈ fs.juntar live de, fs.slot r ≠ de → fs.slot r ≠ para := fun r hr hd =>
    (mem_juntar.mp hr).elim (h.layout.slot_ne_of_free hfree) fun hj => absurd hj.2.1 hd
  rw [hslot, hslot] at hs
  simp only [hmem p hp, hmem p' hp', true_and] at hs
  split_ifs at hs with h1 h2 h2
  · rw [h1, h2]
  · exact absurd hs.symm (hne p' hp' h2)
  · exact absurd hs (hne p hp h1)
  · exact hs

include h hge

/-- A slot that joins the live ones belongs to a file. -/
theorem Arrumado.file_of_juntar {p : ℕ × ℕ} (hp : p ∈ fs.juntar live de) :
    p ∈ live ∨ fs.typeAt p.1 = .fsFile ∧ fs.slot p = de ∧ fs.ocupado de = false := by
  rcases mem_juntar.mp hp with hp | ⟨hp, hs, ho⟩
  · exact .inl hp
  · by_cases hlive : p ∈ live
    · exact .inl hlive
    · exact .inr ⟨(h.restos p hp hlive (hs ▸ hge)).1, hs, ho⟩

include hslot

/-- The i-node table stays tidy when a block moves before the place `pos'`, or to a block that no
slot names. -/
theorem Arrumado.unico_mover (hle : pos ≤ pos')
    (hnovo : para < pos' ∨ ∀ p ∈ percurso, fs.slot p ≠ para) {i q q' : ℕ}
    (hq : (i, q) ∈ percurso) (hq' : (i, q') ∈ percurso) (hpos : pos' ≤ fs'.slot (i, q))
    (hs : fs'.slot (i, q) = fs'.slot (i, q')) : q = q' := by
  have hnovo' := hnovo.imp id fun hne => And.intro (hne _ hq) (hne _ hq')
  have hsame : fs.slot (i, q) = fs.slot (i, q') := by
    rw [hslot, hslot] at hs
    rw [hslot] at hpos
    simp only [hq, hq', true_and] at hs hpos
    split_ifs at hs hpos with h1 h2 h2 <;> omega
  have hpos : pos ≤ fs.slot (i, q) := by
    rw [hslot] at hpos
    split_ifs at hpos with h1
    · omega
    · omega
  exact h.unico i q q' hq hq' hpos hsame

theorem Arrumado.restos_mover (hle : pos ≤ pos')
    (hocc : ∀ c, fs'.ocupado c = (decide (c = para) || !decide (c = de) && fs.ocupado c))
    (hsame : SameInodes fs fs') {p : ℕ × ℕ} (hp : p ∈ percurso) (hno : p ∉ fs.juntar live de)
    (hpos : pos' ≤ fs'.slot p) :
    fs'.typeAt p.1 = .fsFile ∧ (fs'.ocupado (fs'.slot p) = true ∨ fs'.slot p < lim) := by
  have hlive : p ∉ live := fun hm => hno (subset_juntar fs live de hm)
  rw [hsame.type, hocc]
  by_cases hs : fs.slot p = de
  · exact ⟨(h.restos p hp hlive (hs ▸ hge)).1, .inl (by rw [hslot, if_pos ⟨hp, hs⟩]; simp)⟩
  · have heq : fs'.slot p = fs.slot p := by rw [hslot, if_neg fun hc => hs hc.2]
    rw [heq] at hpos ⊢
    obtain ⟨ht, hor⟩ := h.restos p hp hlive (by omega)
    exact ⟨ht, hor.imp_left fun ho => by simp [hs, ho]⟩

end Mover

/-- A move, from what it stores. -/
theorem Arrumado.mover {fs fs' : Fs} {live : Finset (ℕ × ℕ)} {pos pos' lim de para : ℕ}
    (h : fs.Arrumado live pos lim) (hge : pos ≤ de) (hle : pos ≤ pos')
    (hde : ∃ p ∈ percurso, fs.slot p = de) (hpara : 10 ≤ para) (hde10 : 10 ≤ de)
    (hbits : para < bmapBits) (hfree : fs.ocupado para = false)
    (hnovo : para < pos' ∨ ∀ p ∈ percurso, fs.slot p ≠ para) (hsame : SameInodes fs fs')
    (href : fs'.referencias = fs.referencias)
    (hslot : ∀ p, fs'.slot p = if p ∈ percurso ∧ fs.slot p = de then para else fs.slot p)
    (hocc : ∀ c, fs'.ocupado c = (decide (c = para) || !decide (c = de) && fs.ocupado c))
    (hcache : fs'.cache =
      (SnfsServer.invalidarBloco (fs.cache.writeDisk para (fs.readDisk de)) de).2) :
    Movido fs fs' live pos' lim de para := by
  have hl := h.layout
  have hnv := hl.not_valid_of_free hfree
  have hne : ∀ p ∈ live, fs.slot p ≠ para := fun p => hl.slot_ne_of_free hfree
  have hdisk : para < fs.cache.disco.numBlocks := by
    simp only [hl.disco, bmapBits, blockSize, discoServidor] at *
    omega
  have hmem : ∀ p ∈ fs.juntar live de, p ∈ percurso := fun p hp =>
    (mem_juntar.mp hp).elim (h.dentro p) And.left
  have hin : ∀ p ∈ fs.juntar live de,
      fs'.slot p = if fs.slot p = de then para else fs.slot p := by
    intro p hp
    rw [hslot]
    simp only [hmem p hp, true_and]
  have hold : ∀ p ∈ fs.juntar live de, fs.slot p ≠ de → p ∈ live := fun p hp hs =>
    (mem_juntar.mp hp).resolve_right fun hj => hs hj.2.1
  -- some live slot names the block that moves
  obtain ⟨p₀, hp₀, hs₀⟩ : ∃ p ∈ fs.juntar live de, fs.slot p = de := by
    obtain ⟨p, hp, hs⟩ := hde
    cases ho : fs.ocupado de with
    | false => exact ⟨p, mem_juntar.mpr (.inr ⟨hp, hs, ho⟩), hs⟩
    | true =>
        obtain ⟨p', hp', hs'⟩ := (hl.bits de hde10).mp ho
        exact ⟨p', subset_juntar fs live de hp', hs'⟩
  have hval : ∀ b, fs'.cache.Valid b ↔ b ≠ de ∧ fs.cache.Valid b := by
    intro b
    rw [hcache, invalidarBloco_valid, CacheT.writeDisk_valid]
  have hdisco : fs'.cache.disco = (fs.cache.writeDisk para (fs.readDisk de)).disco := by
    rw [hcache, invalidarBloco_disco]
  refine ⟨⟨⟨?_, ?_, fun p hp => ?_, fun p hp => ?_, fun b hb => ?_, fun b hb => ?_, fun p hp => ?_,
    fun p hp p' hp' hd hs => ?_, fun b hv => ?_⟩, hmem,
    fun p => h.restos_mover hge hslot hle hocc hsame,
    fun i q q' => h.unico_mover hge hslot hle hnovo⟩,
    hsame, href, hslot, hocc, fun p hp => ?_, fun b hb hb' => ?_,
    fun b hv => ((hval b).mp hv).2, ?_⟩
  · rw [hcache]
    exact invalidarBloco_coherent (hl.coherent.writeDisk _ hnv) _
  · rw [hdisco]
    exact (CacheT.writeDisk_numBlocks _ _ _).trans hl.disco
  · obtain ⟨⟨-, h2⟩, hq⟩ := mem_percurso.mp (hmem p hp)
    exact ⟨h2, hq⟩
  · rw [hin p hp]
    split
    · exact hpara
    · rename_i hs
      exact hl.range p (hold p hp hs)
  · have hb' : b ≠ de := by omega
    simp [hocc, hl.reserved b hb, hb']
  · rw [hocc, Bool.or_eq_true, Bool.and_eq_true, Bool.not_eq_true', decide_eq_true_eq,
      decide_eq_false_iff_not, hl.bits b hb]
    constructor
    · rintro (rfl | ⟨hb', p, hp, rfl⟩)
      · exact ⟨p₀, hp₀, by rw [hin p₀ hp₀, if_pos hs₀]⟩
      · have hp := subset_juntar fs live de hp
        exact ⟨p, hp, by rw [hin p hp, if_neg hb']⟩
    · rintro ⟨p, hp, rfl⟩
      rw [hin p hp]
      split
      · exact .inl rfl
      · rename_i hs
        exact .inr ⟨hs, p, hold p hp hs, rfl⟩
  · rw [hsame.type]
    rcases h.file_of_juntar hge hp with hp | ⟨ht, -⟩
    · exact hl.typed p hp
    · simp [ht]
  · -- a directory has no slot that joins the live ones, and its block is taken
    rw [hsame.type] at hd
    have hs := h.slot_inj_mover hfree hslot hp' hp hs
    have hp := (h.file_of_juntar hge hp).resolve_right fun hj => by simp [hj.1] at hd
    rcases h.file_of_juntar hge hp' with hp' | ⟨-, hs', ho⟩
    · exact hl.dirOwn p hp p' hp' hd hs
    · exact absurd (hs.symm.trans hs') (hl.slot_ne_of_free ho hp)
  · obtain ⟨hb, hv⟩ := (hval b).mp hv
    obtain ⟨p, hp, ht, rfl⟩ := hl.valid b hv
    have hp := subset_juntar fs live de hp
    exact ⟨p, hp, by rw [hsame.type, ht], by rw [hin p hp, if_neg hb]⟩
  · rw [Fs.noDisco, Fs.noDisco, hdisco, hin p (subset_juntar fs live de hp), CacheT.writeDisk]
    split
    · rename_i hs
      rw [blockWrite_blocks_self _ hdisk, Fs.readDisk, ← hs, blockRead_of_lt (hl.slot_lt_disco hp)]
    · exact blockWrite_blocks_of_ne _ _ (hne p hp)
  · rw [hcache, invalidarBloco_conteudo_of_ne _ hb, CacheT.writeDisk_conteudo_of_ne _ _ hb']
  · rw [hval]
    exact fun hv => hnv hv.2

/-! ## The temporary block -/

/-- The temporary block is the highest free block up to 640. -/
theorem blocoTemporario_spec {fs : Fs} {c : ℕ} (h10 : 10 ≤ c) (hc : c ≤ numBlocosMax)
    (hfree : fs.ocupado c = false) : c ≤ blocoTemporario fs ∧
      blocoTemporario fs ≤ numBlocosMax ∧ fs.ocupado (blocoTemporario fs) = false := by
  have hmem : c ∈ (List.range' 10 (numBlocosMax - 9)).reverse := by
    rw [List.mem_reverse, List.mem_range'_1]
    omega
  have hpos : (!bmapIsSet fs.blkBmap c) = true := by simpa [ocupado] using hfree
  rw [SnfsServer.blocoTemporario]
  cases hf : (List.range' 10 (numBlocosMax - 9)).reverse.find?
      fun k => !bmapIsSet fs.blkBmap k with
  | none => exact absurd hpos (List.find?_eq_none.mp hf c hmem)
  | some k =>
      have hk := List.mem_range'_1.mp (List.mem_reverse.mp (List.mem_of_find?_eq_some hf))
      obtain ⟨hkfree, as, bs, hsplit, has⟩ := List.find?_eq_some_iff_append.mp hf
      refine ⟨?_, ?_, by simpa [ocupado] using hkfree⟩
      · -- the list goes down from 640
        have hsorted := List.pairwise_reverse.mpr
          (List.pairwise_lt_range' (s := 10) (n := numBlocosMax - 9) 1)
        rw [hsplit] at hmem hsorted
        rcases List.mem_append.mp hmem with hin | hin
        · simpa [hpos] using has c hin
        · rcases List.mem_cons.mp hin with rfl | hin
          · exact le_rfl
          · have := (List.pairwise_append.mp hsorted).2.1
            exact ((List.pairwise_cons.mp this).1 c hin).le
      · simp only [Option.getD_some]
        omega

/-! ## The call -/

/-- What `mexeBlocoPara` does: block `bl` goes to `dest`, and what was at `dest`, if that was taken,
to a free block `k`. A page that moves shows the disk from then on. -/
structure Mexido (fs fs' : Fs) (live : Finset (ℕ × ℕ)) (lim bl dest k : ℕ) : Prop where
  arrumado : fs'.Arrumado (fs.juntar live bl) (dest + 1) lim
  same : SameInodes fs fs'
  referencias : fs'.referencias = fs.referencias
  temp : k = dest ∧ fs.ocupado dest = false ∨
    fs.ocupado dest = true ∧ dest < k ∧ ∀ p ∈ percurso, fs.slot p ≠ k
  slot : ∀ p ∈ percurso, fs'.slot p =
    if fs.slot p = bl then dest else if fs.slot p = dest then k else fs.slot p
  fora : ∀ p, p ∉ percurso → fs'.slot p = fs.slot p
  noDisco : ∀ p ∈ live, fs'.noDisco p = fs.noDisco p
  fica : ∀ p ∈ live, fs.slot p ≠ bl → fs.slot p ≠ dest → fs'.pagina p = fs.pagina p
  vai : ∀ p ∈ live, fs.slot p = bl ∨ fs.slot p = dest → ¬ fs'.cache.Valid (fs'.slot p)
  valid : ∀ b, fs'.cache.Valid b → fs.cache.Valid b

/-- Storing the metadata touches no block that a live slot names. -/
theorem Arrumado.store {fs : Fs} {live : Finset (ℕ × ℕ)} {pos lim : ℕ}
    (h : fs.Arrumado live pos lim) :
    (fsiStoreFsdata fs).Arrumado live pos lim ∧ SameInodes fs (fsiStoreFsdata fs) ∧
      (fsiStoreFsdata fs).referencias = fs.referencias ∧ (fsiStoreFsdata fs).slot = fs.slot ∧
      (∀ p ∈ live, (fsiStoreFsdata fs).noDisco p = fs.noDisco p) ∧
      (∀ p ∈ live, (fsiStoreFsdata fs).pagina p = fs.pagina p) ∧
      ∀ b, (fsiStoreFsdata fs).cache.Valid b ↔ fs.cache.Valid b := by
  have hl := h.layout.store
  have hcont := fun p hp => store_conteudo fs (h.layout.range p hp)
  obtain ⟨c, hc, ht, -, hb⟩ := fsiStoreFsdata_spec fs
  rw [hc] at hl hcont ⊢
  exact ⟨⟨hl, h.dentro, h.restos, h.unico⟩, SameInodes.of_tab rfl rfl, rfl, rfl,
    fun p hp => hb _ (h.layout.range p hp), hcont, fun b => by simp [CacheT.Valid, ht]⟩

/-- A move to a free place, with the metadata stored. -/
theorem Movido.mexido {fs fs' : Fs} {live : Finset (ℕ × ℕ)} {pos lim bl dest : ℕ}
    (h : fs.Arrumado live pos lim) (hfree : fs.ocupado dest = false)
    (hm : Movido fs fs' live (dest + 1) lim bl dest) :
    Mexido fs (fsiStoreFsdata fs') live lim bl dest dest := by
  obtain ⟨harr, hsame, href, hslot, hdisk, hpag, hval⟩ := hm.arrumado.store
  have hsub := subset_juntar fs live bl
  have hne : ∀ p ∈ live, fs.slot p ≠ dest := fun p => h.layout.slot_ne_of_free hfree
  have hin : ∀ p ∈ percurso, (fsiStoreFsdata fs').slot p =
      if fs.slot p = bl then dest else fs.slot p := by
    intro p hp
    rw [hslot, hm.slot]
    simp only [hp, true_and]
  refine ⟨harr, hm.same.trans hsame, href.trans hm.referencias, .inl ⟨rfl, hfree⟩,
    fun p hp => ?_, fun p hp => by rw [hslot, hm.slot, if_neg fun h => hp h.1],
    fun p hp => (hdisk p (hsub hp)).trans (hm.noDisco p hp),
    fun p hp hb hd => ?_, fun p hp hbd => ?_, fun b hv => hm.valid b ((hval b).mp hv)⟩
  · rw [hin p hp]
    refine if_congr Iff.rfl rfl ?_
    split
    · assumption
    · rfl
  · have hs := hin p (h.dentro p hp)
    rw [if_neg hb, hslot] at hs
    rw [hpag p (hsub hp), pagina, hs]
    exact hm.conteudo _ hb hd
  · rw [hin p (h.dentro p hp), if_pos (hbd.resolve_right (hne p hp)), hval]
    exact hm.foraDaCache

/-- A swap: what was at `dest` has gone to the free block `k` first. -/
theorem Movido.troca {fs fs₁ fs' : Fs} {live : Finset (ℕ × ℕ)} {pos lim bl dest k : ℕ}
    (h : fs.Arrumado live pos lim) (hset : fs.ocupado dest = true) (hlt : dest < bl)
    (hk : dest < k) (hnovo : ∀ p ∈ percurso, fs.slot p ≠ k) (hkbl : k ≠ bl)
    (hm₁ : Movido fs fs₁ live pos lim dest k) (hm : Movido fs₁ fs' live (dest + 1) lim bl dest) :
    Mexido fs (fsiStoreFsdata fs') live lim bl dest k := by
  obtain ⟨harr, hsame, href, hslot, hdisk, hpag, hval⟩ := hm.arrumado.store
  have hsub := subset_juntar fs₁ live bl
  have hin₁ : ∀ p ∈ percurso, fs₁.slot p = if fs.slot p = dest then k else fs.slot p := by
    intro p hp
    rw [hm₁.slot]
    simp only [hp, true_and]
  have hin : ∀ p ∈ percurso, (fsiStoreFsdata fs').slot p =
      if fs.slot p = bl then dest else if fs.slot p = dest then k else fs.slot p := by
    intro p hp
    rw [hslot, hm.slot, hin₁ p hp]
    simp only [hp, true_and]
    by_cases hd : fs.slot p = dest
    · simp only [hd, if_true, hkbl, if_false, hlt.ne]
    · simp only [hd, if_false]
  -- the slots that name `bl` are the same before and after the first move
  have hjuntar : fs₁.juntar live bl = fs.juntar live bl := by
    ext p
    rw [mem_juntar, mem_juntar, hm₁.ocupado]
    refine or_congr Iff.rfl (and_congr_right fun hp => and_congr ?_ ?_)
    · rw [hin₁ p hp]
      split
      · omega
      · rfl
    · simp [hkbl.symm, hlt.ne']
  rw [hjuntar] at harr
  refine ⟨harr, (hm₁.same.trans hm.same).trans hsame,
    href.trans (hm.referencias.trans hm₁.referencias), .inr ⟨hset, hk, hnovo⟩, hin,
    fun p hp => by rw [hslot, hm.slot, if_neg fun h => hp h.1, hm₁.slot, if_neg fun h => hp h.1],
    fun p hp => (hdisk p (hsub hp)).trans ((hm.noDisco p hp).trans (hm₁.noDisco p hp)),
    fun p hp hb hd => ?_, fun p hp hbd => ?_,
    fun b hv => hm₁.valid b (hm.valid b ((hval b).mp hv))⟩
  · have hs := hin p (h.dentro p hp)
    rw [if_neg hb, if_neg hd, hslot] at hs
    rw [hpag p (hsub hp), pagina, hs, hm.conteudo _ hb hd,
      hm₁.conteudo _ hd (hnovo p (h.dentro p hp))]
    rfl
  · rw [hin p (h.dentro p hp), hval]
    split
    · exact hm.foraDaCache
    · rename_i hb
      rw [if_pos (hbd.resolve_left hb)]
      exact fun hv => hm₁.foraDaCache (hm.valid k hv)

theorem mexeBlocoPara_spec {fs : Fs} {live : Finset (ℕ × ℕ)} {lim bl dest : ℕ}
    (h : fs.Arrumado live dest lim) (hbl : ∃ p ∈ percurso, fs.slot p = bl) (hdest : 10 ≤ dest)
    (hlt : dest < bl) (hbits : bl < bmapBits)
    (htemp : fs.ocupado dest = true → dest < blocoTemporario fs ∧ lim ≤ blocoTemporario fs ∧
      blocoTemporario fs ≤ numBlocosMax ∧ fs.ocupado (blocoTemporario fs) = false) :
    ∃ k, Mexido fs (mexeBlocoPara fs bl dest) live lim bl dest k := by
  rw [mexeBlocoPara]
  split
  · -- the place is free
    rename_i hfree
    have hfree : fs.ocupado dest = false := by simpa [ocupado] using hfree
    obtain ⟨tab, hred, hsame, hslot⟩ := h.redirecionar
      ((fs.writeDisk dest (fs.readDisk bl)).setBlk dest) dest hlt.le rfl
    refine ⟨dest, Movido.mexido h hfree ?_⟩
    dsimp only
    rw [hred]
    refine h.mover hlt.le dest.le_succ hbl hdest (hdest.trans hlt.le) (hlt.trans hbits) hfree
      (.inl dest.lt_succ_self) ⟨rfl, hsame.type, hsame.size⟩ rfl hslot (fun c => ?_) rfl
    refine (clrBlk_ocupado _ bl c).trans ?_
    refine (congrArg _ (setBlk_ocupado fs (hlt.trans hbits) c)).trans ?_
    by_cases hc : c = dest
    · simp [hc, hlt.ne]
    · simp [hc]
  · -- the place is taken
    rename_i hset
    have hset : fs.ocupado dest = true := by simpa [ocupado] using hset
    obtain ⟨hk, hklim, hkmax, hkfree⟩ := htemp hset
    have hocup : ∃ p ∈ percurso, fs.slot p = dest := by
      obtain ⟨p, hp, hs⟩ := (h.layout.bits dest hdest).mp hset
      exact ⟨p, h.dentro p hp, hs⟩
    dsimp only
    generalize blocoTemporario fs = k at *
    have hkbits : k < bmapBits := by
      simp only [numBlocosMax, inodeNumBlks, itabSize, bmapBits, blockSize] at *
      omega
    have hnovo : ∀ p ∈ percurso, fs.slot p ≠ k := fun p => h.slot_ne hk.le hklim hkfree
    have hkbl : k ≠ bl := by
      obtain ⟨p, hp, rfl⟩ := hbl
      exact (hnovo p hp).symm
    -- first what is there goes to `k` ...
    generalize hfs₀ : ((fs.setBlk k).writeDisk k ((fs.setBlk k).readDisk dest)).setBlk k = fs₀
    have htab₀ : fs₀.inodeTab = fs.inodeTab := by rw [← hfs₀]; rfl
    have hocc₀ : ∀ c, fs₀.ocupado c = (decide (c = k) || fs.ocupado c) := by
      intro c
      rw [← hfs₀, setBlk_ocupado _ hkbits, writeDisk_eq]
      refine (congrArg _ (setBlk_ocupado fs hkbits c)).trans ?_
      rw [← Bool.or_assoc, Bool.or_self]
    obtain ⟨tab₁, hred₁, hsame₁, hslot₁⟩ := h.redirecionar fs₀ k le_rfl htab₀
    have hm₁ : Movido fs (((fs₀.withTab tab₁).invalidarBloco dest).clrBlk dest) live dest lim
        dest k := by
      refine h.mover le_rfl le_rfl hocup (by omega) hdest hkbits hkfree (.inr hnovo)
        ⟨?_, fun j => ?_, fun j => ?_⟩ ?_ hslot₁ (fun c => ?_) ?_
      · rw [← hfs₀]
        rfl
      · exact (hsame₁.type j).trans (by rw [typeAt_congr htab₀])
      · exact (hsame₁.size j).trans (by rw [sizeAt_congr htab₀])
      · rw [← hfs₀]
        rfl
      · refine (clrBlk_ocupado _ dest c).trans ((congrArg _ (hocc₀ c)).trans ?_)
        by_cases hc : c = k <;> simp [hc, hk.ne']
      · rw [← hfs₀]
        rfl
    rw [show refInodes (fs.setBlk k) dest = refInodes fs dest from rfl, hred₁]
    -- ... then the block takes its place
    have hbl₁ : ∀ p, (fs₀.withTab tab₁).slot p = bl ↔ fs.slot p = bl := by
      intro p
      rw [hslot₁]
      split
      · rename_i hp
        rw [hp.2]
        exact ⟨fun he => absurd he hkbl, fun he => absurd he hlt.ne⟩
      · rfl
    generalize hfs₁ : (fs₀.withTab tab₁).invalidarBloco dest = fs₁ at *
    have hslots₁ : (fs₁.clrBlk dest).slot = (fs₀.withTab tab₁).slot := by rw [← hfs₁]; rfl
    have harr₁ := hm₁.arrumado
    rw [juntar_of_ocupado hset] at harr₁
    obtain ⟨tab₂, hred₂, hsame₂, hslot₂⟩ := harr₁.redirecionar
      ((fs₁.writeDisk dest (fs₁.readDisk bl)).setBlk dest) dest hlt.le rfl
    rw [refInodes_congr fs (fs₁.clrBlk dest) fun p => by rw [hslots₁, hbl₁]] at hred₂
    rw [hred₂]
    refine ⟨k, Movido.troca h hset hlt hk hnovo hkbl hm₁ ?_⟩
    refine harr₁.mover hlt.le dest.le_succ ?_ hdest (hdest.trans hlt.le) (hlt.trans hbits) ?_
      (.inl dest.lt_succ_self) ⟨rfl, hsame₂.type, hsame₂.size⟩ rfl hslot₂ (fun c => ?_) rfl
    · obtain ⟨p, hp, hs⟩ := hbl
      exact ⟨p, hp, by rw [hslots₁, hbl₁, hs]⟩
    · rw [clrBlk_ocupado]
      simp
    · refine (clrBlk_ocupado _ bl c).trans ?_
      refine (congrArg _ (setBlk_ocupado _ (hlt.trans hbits) c)).trans ?_
      rw [clrBlk_ocupado]
      change (_ && (_ || fs₁.ocupado c)) = _
      by_cases hc : c = dest
      · simp [hc, hlt.ne]
      · simp [hc]

end Fs

end ThreadScheduler.SnfsServer
