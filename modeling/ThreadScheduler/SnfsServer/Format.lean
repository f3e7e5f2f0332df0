import ThreadScheduler.SnfsServer.Copy

/-!
# The formatted disk

The state in which the server starts: `fs_new` on a blank disk followed by `fs_format`.
-/
namespace ThreadScheduler.SnfsServer

namespace Fs

/-- Clearing every block of a blank disk keeps the cache table. -/
theorem foldl_writeDisk_null {fs : Fs} (h : ∀ b, fs.cache.disco.blocks b = nullBlock) (n : ℕ) :
    ∃ c, (List.range n).foldl (fun fs i => fs.writeDisk i nullBlock) fs = fs.withCache c ∧
      c.tabela = fs.cache.tabela ∧ c.disco.numBlocks = fs.cache.disco.numBlocks ∧
      ∀ b, c.disco.blocks b = nullBlock := by
  induction n with
  | zero => exact ⟨fs.cache, rfl, rfl, rfl, h⟩
  | succ n ih =>
      obtain ⟨c, hc, ht, hn, hb⟩ := ih
      rw [List.range_succ, List.foldl_append, hc]
      refine ⟨c.writeDisk n nullBlock, rfl, ht, (CacheT.writeDisk_numBlocks _ _ _).trans hn,
        fun b => ?_⟩
      by_cases hbn : b = n
      · subst hbn
        by_cases hlt : b < c.disco.numBlocks
        · exact blockWrite_blocks_self nullBlock hlt
        · rw [CacheT.writeDisk, blockWrite, if_pos (Nat.not_lt.mp hlt)]
          exact hb b
      · exact (blockWrite_blocks_of_ne c.disco nullBlock hbn).trans (hb b)

theorem bmapIsSet_foldl_clr (bmap : Block) (n b : ℕ) :
    bmapIsSet ((List.range n).foldl bmapClr bmap) b = (decide (n ≤ b) && bmapIsSet bmap b) := by
  induction n with
  | zero => simp
  | succ n ih =>
      rw [List.range_succ, List.foldl_append, List.foldl_cons, List.foldl_nil, bmapIsSet_clr, ih,
        Bool.eq_iff_iff]
      simp only [Bool.and_eq_true, Bool.not_eq_true', decide_eq_false_iff_not, decide_eq_true_eq,
        ← and_assoc, and_congr_left_iff]
      omega

theorem bmapIsSet_foldl_set (bmap : Block) {n : ℕ} (hn : n ≤ bmapBits) (b : ℕ) :
    bmapIsSet ((List.range n).foldl bmapSet bmap) b = (decide (b < n) || bmapIsSet bmap b) := by
  induction n with
  | zero => simp
  | succ n ih =>
      rw [List.range_succ, List.foldl_append, List.foldl_cons, List.foldl_nil,
        bmapIsSet_set (by omega), ih (by omega), Bool.eq_iff_iff]
      simp only [Bool.or_eq_true, decide_eq_true_eq, ← or_assoc]
      refine or_congr_left ?_
      omega

/-- No bit survives clearing them all. -/
theorem bmapIsSet_cleared (bmap : Block) (b : ℕ) :
    bmapIsSet ((List.range bmapBits).foldl bmapClr bmap) b = false := by
  rw [bmapIsSet_foldl_clr]
  by_cases hb : bmapBits ≤ b
  · rw [bmapIsSet_of_ge bmap hb, Bool.and_false]
  · simp [hb]

/-- `fs_format` up to the metadata it stores. -/
theorem fsFormat_eq {fs : Fs} {c : CacheT} (h : (List.range fs.numBlocks).foldl
      (fun fs i => fs.writeDisk i nullBlock) fs = fs.withCache c) :
    ∃ fs₂, fsFormat fs = fsiStoreFsdata fs₂ ∧ fs₂.cache = c ∧
      (fs₂.referencias = fun b => if b < c.disco.numBlocks then 0 else fs.referencias b) ∧
      fs₂.blkBmap = (List.range 10).foldl bmapSet
        ((List.range bmapBits).foldl bmapClr fs.blkBmap) ∧
      fs₂.inodeBmap = bmapSet (bmapSet ((List.range bmapBits).foldl bmapClr fs.inodeBmap) 0) 1 ∧
      fs₂.inodeTab = Function.update fs.inodeTab 1 (fsiInodeInit .fsDir) := by
  refine ⟨_, by rw [fsFormat, h], rfl, ?_, ?_, ?_, rfl⟩
  · rfl
  · simp only [setInode, withCache]
  · simp only [setInode, withCache]

/-- The state the server starts with; `pilha` is what its cache finds on the stack. -/
def inicial (pilha : ℕ → ℤ) : Fs := fsFormat (fsNew discoServidor pilha)

section Inicial

variable (pilha : ℕ → ℤ)

/-- A blank disk holds an empty i-node table. -/
theorem fsNew_inodeTab (numBlocks i : ℕ) :
    (fsNew numBlocks pilha).inodeTab i = fsiInodeInit .unset := by
  have hdisk : ∀ b, (blockRead (blockNew numBlocks) b nullBlock).2 = nullBlock := by
    intro b
    rw [blockRead]
    split <;> rfl
  have hbyte : ∀ k, byteAt nullBlock k = 0#8 := by
    intro k
    rw [byteAt]
    split <;> rfl
  have hword : ∀ off, wordAt nullBlock off = 0 := by
    intro off
    simp [wordAt, hbyte]
  change inodeAt (blockRead (blockNew numBlocks) (2 + i / 8) nullBlock).2 (64 * (i % 8)) = _
  simp [hdisk, inodeAt, hword, FsItype.ofCode, fsiInodeInit]

/-- A disk of any size, after `fs_format`. -/
theorem fsFormat_spec (numBlocks : ℕ) : ∃ c, (fsFormat (fsNew numBlocks pilha)).cache = c ∧
    c.tabela = (fsNew numBlocks pilha).cache.tabela ∧ c.disco.numBlocks = numBlocks ∧
    (∀ b, (fsFormat (fsNew numBlocks pilha)).referencias b = 0) ∧
    (∀ b, (fsFormat (fsNew numBlocks pilha)).ocupado b = decide (b < 10)) ∧
    (∀ i, (fsFormat (fsNew numBlocks pilha)).alocado i = decide (i < 2)) ∧
    (∀ b, 10 ≤ b → c.disco.blocks b = nullBlock) ∧
    ∀ i, (fsFormat (fsNew numBlocks pilha)).inodeTab i =
      fsiInodeInit (if i = 1 then .fsDir else .unset) := by
  have hblank : ∀ b, (fsNew numBlocks pilha).cache.disco.blocks b = nullBlock := fun _ => rfl
  obtain ⟨c₁, h₁, ht₁, hn₁, hb₁⟩ := foldl_writeDisk_null hblank (fsNew numBlocks pilha).numBlocks
  obtain ⟨fs₂, hini, hcache, href, hblk, hino, htab⟩ := fsFormat_eq h₁
  obtain ⟨c, hc, ht, hn, hdisk⟩ := fsiStoreFsdata_spec fs₂
  rw [hc] at hini
  refine ⟨c, by rw [hini]; rfl, ?_, ?_, fun b => ?_, fun b => ?_, fun i => ?_,
    fun b hb => by rw [hdisk b hb, hcache, hb₁], fun i => ?_⟩
  · rw [ht, hcache, ht₁]
  · rw [hn, hcache, hn₁]
    rfl
  · rw [hini, withCache_referencias, href]
    simp only
    split <;> rfl
  · rw [hini, ocupado, withCache_blkBmap, hblk, bmapIsSet_foldl_set _ (by decide),
      bmapIsSet_cleared, Bool.or_false]
  · rw [hini, alocado, withCache_inodeBmap, hino, bmapIsSet_set (by decide),
      bmapIsSet_set (by decide), bmapIsSet_cleared, Bool.eq_iff_iff]
    simp only [Bool.or_false, Bool.or_eq_true, decide_eq_true_eq]
    omega
  · rw [hini, withCache_inodeTab, htab]
    by_cases hi : i = 1
    · simp [hi]
    · simp [hi, fsNew_inodeTab]

theorem inicial_spec : ∃ c, (inicial pilha).cache = c ∧
    c.tabela = (fsNew discoServidor pilha).cache.tabela ∧ c.disco.numBlocks = discoServidor ∧
    (∀ b, (inicial pilha).referencias b = 0) ∧
    (∀ b, (inicial pilha).ocupado b = decide (b < 10)) ∧
    (∀ i, (inicial pilha).alocado i = decide (i < 2)) ∧
    (∀ b, 10 ≤ b → c.disco.blocks b = nullBlock) ∧
    ∀ i, (inicial pilha).inodeTab i = fsiInodeInit (if i = 1 then .fsDir else .unset) :=
  fsFormat_spec pilha discoServidor

/-- The formatted disk is consistent: an empty root and nothing else. -/
theorem inicial_consistent : (inicial pilha).Consistent := by
  obtain ⟨c, hc, ht, hn, href, hocc, hal, -, htab⟩ := inicial_spec pilha
  have htype : ∀ i, (inicial pilha).typeAt i = if i = 1 then .fsDir else .unset := by
    intro i
    rw [typeAt, htab]
    rfl
  have hsize : ∀ i, (inicial pilha).sizeAt i = 0 := by
    intro i
    rw [sizeAt, htab]
    rfl
  have huso : (inicial pilha).emUso = ∅ := by
    ext ⟨i, q⟩
    simp [mem_emUso, hsize]
  have hget : ∀ b, hashGet c.tabela b = none := by
    intro b
    rw [ht]
    simp [fsNew, fsiLoadFsdata, criarCache]
  have hw : c.tabela.WellFormed := by
    rw [ht]
    exact newHash_wellFormed (by decide)
  refine ⟨?_, ⟨fun i hi => ?_, fun i hi => ?_, ?_, ?_, fun i h0 hi => ?_, fun i => ?_, ?_⟩,
    fun d _ => ?_⟩
  · rw [huso]
    refine ⟨⟨hc ▸ ⟨hw, by simp [hget], by simp [hget]⟩, hc ▸ hn, by simp, by simp, fun b hb => ?_,
      fun b hb => ?_, by simp, by simp, fun b hv => ?_⟩, fun b => ?_, fun b => ?_⟩
    · simp [hocc, hb]
    · simp [hocc, hb]
    · rw [hc] at hv
      obtain ⟨e, he, -⟩ := hv
      simp [hget] at he
    · rw [href]
      rfl
    · rw [href]
      decide
  · rw [hal, decide_eq_true_eq] at hi
    exact hi.trans (by decide)
  · rw [hal, decide_eq_false_iff_not] at hi
    rw [htype, if_neg (by omega)]
    exact ⟨rfl, hsize i⟩
  · exact ⟨by rw [hal]; rfl, by rw [htype]; rfl, hsize 0⟩
  · exact ⟨by rw [hal]; rfl, by rw [htype]; rfl⟩
  · rw [hal, decide_eq_true_eq] at hi
    rw [htype, if_pos (by omega)]
    decide
  · rw [hsize]
    exact Nat.zero_le _
  · have hz : ∀ d, (inicial pilha).numEntradas d = 0 := by
      intro d
      simp [numEntradas, hsize]
    have hsub : ({0, 1} : Finset ℕ) ⊆ (inicial pilha).alocados := by
      intro i hi
      rw [mem_alocados, hal, decide_eq_true_eq]
      simp only [Finset.mem_insert, Finset.mem_singleton] at hi
      simp only [itabSize]
      omega
    have := Finset.card_le_card hsub
    simpa [hz] using this
  · have hnil : (inicial pilha).entradas d = [] := by simp [entradas, hsize]
    refine ⟨by simp [hsize], fun q _ => ?_, by simp [hnil], by simp [hnil]⟩
    rw [slot, htab]
    rfl

theorem inicial_distintos : (inicial pilha).Distintos (inicial pilha).emUso := by
  obtain ⟨-, -, -, -, -, -, -, -, htab⟩ := inicial_spec pilha
  intro i q q' ht
  have : (inicial pilha).typeAt i = if i = 1 then .fsDir else .unset := by
    rw [typeAt, htab]
    rfl
  rw [this] at ht
  split at ht <;> exact absurd ht (by decide)

/-- The first block that is given out is the first one behind the file system's own. -/
theorem inicial_findFreeBlk : (inicial pilha).findFreeBlk = some 10 := by
  obtain ⟨c, hc, -, hn, -, hocc, -⟩ := inicial_spec pilha
  refine List.find?_range_eq_some.mpr ⟨?_, ?_, fun j hj => ?_⟩
  · have := hocc 10
    rw [ocupado] at this
    simp [this]
  · have hnum : (inicial pilha).numBlocks = discoServidor := by
      rw [numBlocks, hc]
      exact hn
    rw [List.mem_range, hnum]
    decide
  · have := hocc j
    rw [ocupado] at this
    simp [this, hj]

theorem inicial_entradas (d : ℕ) : (inicial pilha).entradas d = [] := by
  obtain ⟨-, -, -, -, -, -, -, -, htab⟩ := inicial_spec pilha
  have : (inicial pilha).sizeAt d = 0 := by
    rw [sizeAt, htab]
    rfl
  simp [entradas, this]

end Inicial

/-! ## What the formatted disk holds -/

/-- The formatted disk with its tables written out, for runs that are to be evaluated. -/
def formatado (numBlocks : ℕ) (pilha : ℕ → ℤ) : Fs :=
  fsiStoreFsdata
    { cache := criarCache dimCache (blockNew numBlocks) pilha
      referencias := fun _ => 0
      inodeBmap := bmapSet (bmapSet nullBlock 0) 1
      blkBmap := (List.range 10).foldl bmapSet nullBlock
      inodeTab := fun i => fsiInodeInit (if i = 1 then .fsDir else .unset) }

/-- To clear a block of a blank disk is to leave it. -/
theorem foldl_writeDisk_blank {fs : Fs} (h : ∀ b, fs.cache.disco.blocks b = nullBlock) (n : ℕ) :
    (List.range n).foldl (fun fs i => fs.writeDisk i nullBlock) fs = fs := by
  have hone : ∀ i, fs.writeDisk i nullBlock = fs := by
    intro i
    have hself : Function.update fs.cache.disco.blocks i nullBlock = fs.cache.disco.blocks := by
      rw [← h i, Function.update_eq_self]
    have hdisco : (blockWrite fs.cache.disco i nullBlock).2 = fs.cache.disco := by
      rw [blockWrite]
      split
      · rfl
      · dsimp only
        rw [hself]
    rw [writeDisk, CacheT.writeDisk, hdisco]
  induction n with
  | zero => rfl
  | succ n ih => rw [List.range_succ, List.foldl_append, ih, List.foldl_cons, hone, List.foldl_nil]

theorem foldl_bmapClr_null (n : ℕ) : (List.range n).foldl bmapClr nullBlock = nullBlock := by
  have hone : ∀ i, bmapClr nullBlock i = nullBlock := by
    intro i
    funext k
    simp [bmapClr, nullBlock]
  induction n with
  | zero => rfl
  | succ n ih => rw [List.range_succ, List.foldl_append, ih, List.foldl_cons, hone, List.foldl_nil]

theorem fsFormat_eq_formatado (numBlocks : ℕ) (pilha : ℕ → ℤ) :
    fsFormat (fsNew numBlocks pilha) = formatado numBlocks pilha := by
  have hblank : ∀ b, (fsNew numBlocks pilha).cache.disco.blocks b = nullBlock := fun _ => rfl
  have hnull : ∀ b, (fsNew numBlocks pilha).readDisk b = nullBlock := by
    intro b
    rw [readDisk, blockRead]
    split <;> rfl
  have htab : Function.update (fsNew numBlocks pilha).inodeTab 1 (fsiInodeInit .fsDir) =
      fun i => fsiInodeInit (if i = 1 then .fsDir else .unset) := by
    funext i
    by_cases hi : i = 1
    · simp [hi]
    · simp [hi, fsNew_inodeTab]
  have hblk : (fsNew numBlocks pilha).blkBmap = nullBlock := hnull 0
  have hino : (fsNew numBlocks pilha).inodeBmap = nullBlock := hnull 1
  rw [fsFormat, foldl_writeDisk_blank hblank, formatado, hblk, hino, foldl_bmapClr_null]
  simp only [setInode, htab]
  congr 2
  funext b
  exact ite_self 0

theorem inicial_eq_formatado (pilha : ℕ → ℤ) : inicial pilha = formatado discoServidor pilha :=
  fsFormat_eq_formatado discoServidor pilha

end Fs

end ThreadScheduler.SnfsServer
