import ThreadScheduler.SnfsServer.ReferenceCounts

/-!
# Accounts with lost references

`fs_append` counts references for slots that the new size leaves out, and a write that fails keeps
the blocks it has reserved, so the counters and the bitmap may be ahead of the slots in use.
`Contido` is what is left of the accounts then: no slot in use is forgotten, and a directory block
has one slot and no reference. It says nothing of contents and nothing of the cache.
-/
namespace ThreadScheduler.SnfsServer

namespace Fs

/-! ## Slots and counters -/

/-- The bitmap and the counters cover the slots of `live`. -/
structure Contido (fs : Fs) (live : Finset (ℕ × ℕ)) : Prop where
  bound : ∀ p ∈ live, p.1 < itabSize ∧ p.2 < inodeNumBlks
  range : ∀ p ∈ live, 10 ≤ fs.slot p
  limite : ∀ p ∈ live, fs.slot p < fs.numBlocks
  ocupado : ∀ p ∈ live, fs.ocupado (fs.slot p) = true
  typed : ∀ p ∈ live, fs.typeAt p.1 ≠ .unset
  dirOwn : ∀ p ∈ live, ∀ p' ∈ live, fs.typeAt p.1 = .fsDir → fs.slot p' = fs.slot p → p' = p
  dirRefs : ∀ p ∈ live, fs.typeAt p.1 = .fsDir → fs.referencias (fs.slot p) = 0
  refs : ∀ b, (fs.fileSlots live b).card ≤ fs.referencias b
  char : ∀ b, fs.referencias b ≤ 127
  livre : ∀ b, fs.ocupado b = false → fs.referencias b = 0
  reserved : ∀ b < 10, fs.ocupado b = true ∧ fs.referencias b = 0

namespace Contido

variable {fs fs' : Fs} {live live' : Finset (ℕ × ℕ)}

/-- Slots may be dropped without a trace. -/
theorem mono (h : fs.Contido live) (hs : live' ⊆ live) : fs.Contido live' where
  bound p hp := h.bound p (hs hp)
  range p hp := h.range p (hs hp)
  limite p hp := h.limite p (hs hp)
  ocupado p hp := h.ocupado p (hs hp)
  typed p hp := h.typed p (hs hp)
  dirOwn p hp p' hp' := h.dirOwn p (hs hp) p' (hs hp')
  dirRefs p hp := h.dirRefs p (hs hp)
  refs b := by
    have hle := Finset.card_le_card (Finset.filter_subset_filter
      (fun p => fs.typeAt p.1 = .fsFile ∧ fs.slot p = b) hs)
    have hrefs := h.refs b
    rw [fileSlots] at hrefs ⊢
    omega
  char := h.char
  livre := h.livre
  reserved := h.reserved

/-- Stores that leave the bitmap, the counters and the live slots alone. -/
theorem congr (h : fs.Contido live) (hn : fs'.numBlocks = fs.numBlocks)
    (hb : fs'.blkBmap = fs.blkBmap) (hr : fs'.referencias = fs.referencias)
    (ht : ∀ p ∈ live, fs'.typeAt p.1 = fs.typeAt p.1)
    (hs : ∀ p ∈ live, fs'.slot p = fs.slot p) : fs'.Contido live where
  bound := h.bound
  range p hp := by rw [hs p hp]; exact h.range p hp
  limite p hp := by rw [hs p hp, hn]; exact h.limite p hp
  ocupado p hp := by rw [hs p hp, Fs.ocupado, hb]; exact h.ocupado p hp
  typed p hp := by rw [ht p hp]; exact h.typed p hp
  dirOwn p hp p' hp' hd he := by
    rw [ht p hp] at hd
    rw [hs p hp, hs p' hp'] at he
    exact h.dirOwn p hp p' hp' hd he
  dirRefs p hp hd := by
    rw [ht p hp] at hd
    rw [hs p hp, hr]
    exact h.dirRefs p hp hd
  refs b := by rw [hr, fileSlots_congr ht hs]; exact h.refs b
  char b := by rw [hr]; exact h.char b
  livre b hl := by
    rw [Fs.ocupado, hb] at hl
    rw [hr]
    exact h.livre b hl
  reserved b hlt := by
    rw [Fs.ocupado, hb, hr]
    exact h.reserved b hlt

theorem withCache (h : fs.Contido live) {c : CacheT}
    (hc : c.disco.numBlocks = fs.cache.disco.numBlocks) : (fs.withCache c).Contido live :=
  h.congr hc rfl rfl (fun _ _ => rfl) fun _ _ => rfl

theorem store (h : fs.Contido live) : (fsiStoreFsdata fs).Contido live :=
  h.congr (store_numBlocks fs) (store_blkBmap fs) (store_referencias fs)
    (fun p _ => congrFun (typeAt_congr (store_inodeTab fs)) p.1)
    fun p _ => congrFun (slot_congr (store_inodeTab fs)) p

theorem setBlock_dead (h : fs.Contido live) {i q : ℕ} (hp : (i, q) ∉ live) (b : ℕ) :
    (fs.setBlock i q b).Contido live := by
  refine h.congr rfl rfl rfl (fun p _ => setBlock_typeAt fs i q b p.1) fun p hl => ?_
  rw [setBlock_slot, if_neg]
  rintro rfl
  exact hp hl

theorem file_or_dir (h : fs.Contido live) {p : ℕ × ℕ} (hp : p ∈ live) :
    fs.typeAt p.1 = .fsFile ∨ fs.typeAt p.1 = .fsDir := by
  have := h.typed p hp
  cases ht : fs.typeAt p.1 <;> simp_all

/-- A block that is not marked is named by no live slot. -/
theorem slot_ne_of_free (h : fs.Contido live) {b : ℕ} (hb : fs.ocupado b = false) {p : ℕ × ℕ}
    (hp : p ∈ live) : fs.slot p ≠ b := by
  rintro rfl
  rw [h.ocupado p hp] at hb
  cases hb

theorem ten_le_of_free (h : fs.Contido live) {b : ℕ} (hb : fs.ocupado b = false) : 10 ≤ b := by
  by_contra hlt
  rw [(h.reserved b (by omega)).1] at hb
  cases hb

theorem refs_pos (h : fs.Contido live) {p : ℕ × ℕ} (hp : p ∈ live)
    (ht : fs.typeAt p.1 = .fsFile) : 1 ≤ fs.referencias (fs.slot p) := by
  have hcard := Finset.card_pos.mpr ⟨p, mem_fileSlots.mpr ⟨hp, ht, rfl⟩⟩
  have := h.refs (fs.slot p)
  omega

/-- The block of a file slot is not that of a directory slot. -/
theorem apart (h : fs.Contido live) {p p' : ℕ × ℕ} (hp : p ∈ live) (hp' : p' ∈ live)
    (ht : fs.typeAt p.1 = .fsDir) (ht' : fs.typeAt p'.1 = .fsFile) : fs.slot p' ≠ fs.slot p := by
  intro hs
  rw [h.dirOwn p hp p' hp' ht hs, ht] at ht'
  cases ht'

/-- A block with one reference at most has one live slot. -/
theorem eq_of_refs_le_one (h : fs.Contido live) {p p' : ℕ × ℕ} (hp : p ∈ live) (hp' : p' ∈ live)
    (hr : fs.referencias (fs.slot p) ≤ 1) (hs : fs.slot p' = fs.slot p) : p' = p := by
  rcases h.file_or_dir hp with ht | ht
  · rcases h.file_or_dir hp' with ht' | ht'
    · have hrefs := h.refs (fs.slot p)
      have hcard : (fs.fileSlots live (fs.slot p)).card ≤ 1 := by omega
      exact Finset.card_le_one.mp hcard p' (mem_fileSlots.mpr ⟨hp', ht', hs⟩) p
        (mem_fileSlots.mpr ⟨hp, ht, rfl⟩)
    · exact (h.dirOwn p' hp' p hp ht' hs.symm).symm
  · exact h.dirOwn p hp p' hp' ht hs

/-! ### Slots that start to count -/

/-- A slot takes the number `b`, which is marked, and a file slot adds a reference. A block that was
live already is shared between files only. -/
theorem insert_slot (h : fs.Contido live) {p : ℕ × ℕ} {b : ℕ} (hp : p ∉ live)
    (hbound : p.1 < itabSize ∧ p.2 < inodeNumBlks) (hb10 : 10 ≤ b) (hlim : b < fs.numBlocks)
    (htyped : fs.typeAt p.1 ≠ .unset)
    (hown : ∀ p' ∈ live, fs.slot p' = b → fs.typeAt p'.1 = .fsFile ∧ fs.typeAt p.1 = .fsFile)
    (hdir : fs.typeAt p.1 = .fsDir → fs.referencias b = 0)
    (hchar : fs.referencias b < 127) (hn : fs'.numBlocks = fs.numBlocks)
    (htype : ∀ j, fs'.typeAt j = fs.typeAt j)
    (hslot : ∀ p', fs'.slot p' = if p' = p then b else fs.slot p')
    (hocc : ∀ c, fs'.ocupado c = (decide (c = b) || fs.ocupado c))
    (href : ∀ c, fs'.referencias c =
      if c = b ∧ fs.typeAt p.1 = .fsFile then fs.referencias c + 1 else fs.referencias c) :
    fs'.Contido (insert p live) := by
  have hold : ∀ p' ∈ live, fs'.slot p' = fs.slot p' := by
    intro p' hl
    rw [hslot, if_neg]
    rintro rfl
    exact hp hl
  have hself : fs'.slot p = b := by rw [hslot, if_pos rfl]
  have hfiles : ∀ c, fs'.fileSlots (insert p live) c =
      if c = b ∧ fs.typeAt p.1 = .fsFile then insert p (fs.fileSlots live c)
      else fs.fileSlots live c := by
    intro c
    have hlive : live.filter (fun p' => fs'.typeAt p'.1 = .fsFile ∧ fs'.slot p' = c) =
        fs.fileSlots live c :=
      Finset.filter_congr fun p' hl => by rw [htype, hold p' hl]
    simp only [fileSlots] at hlive ⊢
    rw [Finset.filter_insert, hlive, htype, hself]
    simp only [eq_comm (a := b), and_comm]
  refine ⟨?_, ?_, ?_, ?_, ?_, ?_, ?_, ?_, ?_, ?_, ?_⟩
  · exact fun p' hp' => (Finset.mem_insert.mp hp').elim (fun he => he ▸ hbound) (h.bound p')
  · intro p' hp'
    rcases Finset.mem_insert.mp hp' with rfl | hl
    · rw [hself]; exact hb10
    · rw [hold p' hl]; exact h.range p' hl
  · intro p' hp'
    rw [hn]
    rcases Finset.mem_insert.mp hp' with rfl | hl
    · rw [hself]; exact hlim
    · rw [hold p' hl]; exact h.limite p' hl
  · intro p' hp'
    rw [hocc]
    rcases Finset.mem_insert.mp hp' with rfl | hl
    · rw [hself, decide_eq_true rfl, Bool.true_or]
    · rw [hold p' hl, h.ocupado p' hl, Bool.or_true]
  · intro p' hp'
    rw [htype]
    exact (Finset.mem_insert.mp hp').elim (fun he => he ▸ htyped) (h.typed p')
  · intro p₁ hp₁ p₂ hp₂ hd hs
    rw [htype] at hd
    rcases Finset.mem_insert.mp hp₁ with rfl | hl₁ <;>
      rcases Finset.mem_insert.mp hp₂ with rfl | hl₂
    · rfl
    · rw [hself, hold p₂ hl₂] at hs
      rw [(hown p₂ hl₂ hs).2] at hd
      cases hd
    · rw [hself, hold p₁ hl₁] at hs
      rw [(hown p₁ hl₁ hs.symm).1] at hd
      cases hd
    · rw [hold p₁ hl₁, hold p₂ hl₂] at hs
      exact h.dirOwn p₁ hl₁ p₂ hl₂ hd hs
  · intro p' hp' hd
    rw [htype] at hd
    rcases Finset.mem_insert.mp hp' with rfl | hl
    · rw [hself, href, if_neg (fun hf => by rw [hf.2] at hd; cases hd)]
      exact hdir hd
    · rw [hold p' hl, href, if_neg]
      · exact h.dirRefs p' hl hd
      · rintro ⟨hs, -⟩
        rw [(hown p' hl hs).1] at hd
        cases hd
  · intro c
    have hrefs := h.refs c
    rw [hfiles, href]
    split
    · rw [Finset.card_insert_of_notMem fun hm => hp (mem_fileSlots.mp hm).1]
      push_cast
      omega
    · exact hrefs
  · intro c
    have := h.char c
    rw [href]
    split
    · rename_i hc
      rw [hc.1]
      omega
    · exact this
  · intro c hc
    rw [hocc, Bool.or_eq_false_iff, decide_eq_false_iff_not] at hc
    rw [href, if_neg fun hf => hc.1 hf.1]
    exact h.livre c hc.2
  · intro c hc
    obtain ⟨ho, hr⟩ := h.reserved c hc
    rw [hocc, ho, Bool.or_true, href, if_neg fun hf => by omega]
    exact ⟨rfl, hr⟩

/-- A free block becomes the block of a new file slot, with one reference. -/
theorem reserve (h : fs.Contido live) {i q b : ℕ} (hp : (i, q) ∉ live) (hi : i < itabSize)
    (hq : q < inodeNumBlks) (ht : fs.typeAt i = .fsFile) (hbits : b < bmapBits)
    (hb : fs.findFreeBlk = some b) :
    (((fs.setBlock i q b).setBlk b).setRef b (fs.referencias b + 1)).Contido
      (insert (i, q) live) := by
  obtain ⟨hlim, hfree⟩ := fsiBmapFindFree_eq_some hb
  have hr0 := h.livre b hfree
  refine h.insert_slot hp ⟨hi, hq⟩ (h.ten_le_of_free hfree) hlim (by simp [ht])
    (fun p' hl hs => absurd hs (h.slot_ne_of_free hfree hl)) (fun _ => hr0) (by omega) rfl
    (fun j => setBlock_typeAt fs i q b j) (fun p' => setBlock_slot fs i q b p')
    (fun c => setBlk_ocupado (fs.setBlock i q b) hbits c) fun c => ?_
  rw [setRef_referencias _ (by omega) (by omega)]
  by_cases hc : c = b
  · simp [hc, ht]
  · simp [hc]

/-- A free block becomes the block of a new directory slot. -/
theorem reserveDir (h : fs.Contido live) {i q b : ℕ} (hp : (i, q) ∉ live) (hi : i < itabSize)
    (hq : q < inodeNumBlks) (ht : fs.typeAt i = .fsDir) (hbits : b < bmapBits)
    (hb : fs.findFreeBlk = some b) :
    ((fs.setBlk b).setBlock i q b).Contido (insert (i, q) live) := by
  obtain ⟨hlim, hfree⟩ := fsiBmapFindFree_eq_some hb
  have hr0 := h.livre b hfree
  refine h.insert_slot hp ⟨hi, hq⟩ (h.ten_le_of_free hfree) hlim (by simp [ht])
    (fun p' hl hs => absurd hs (h.slot_ne_of_free hfree hl)) (fun _ => hr0) (by omega) rfl
    (fun j => setBlock_typeAt _ i q b j) (fun p' => setBlock_slot _ i q b p')
    (fun c => setBlk_ocupado fs hbits c) fun c => ?_
  simp [ht]

/-- A file slot starts to name the block of another file slot. -/
theorem share (h : fs.Contido live) {i q : ℕ} {p : ℕ × ℕ} (hn : (i, q) ∉ live)
    (hi : i < itabSize) (hq : q < inodeNumBlks) (ht : fs.typeAt i = .fsFile) (hp : p ∈ live)
    (htp : fs.typeAt p.1 = .fsFile) (hchar : fs.referencias (fs.slot p) < 127) :
    ((fs.setBlock i q (fs.slot p)).setRef (fs.slot p) (fs.referencias (fs.slot p) + 1)).Contido
      (insert (i, q) live) := by
  have hpos := h.refs_pos hp htp
  refine h.insert_slot hn ⟨hi, hq⟩ (h.range p hp) (h.limite p hp) (by simp [ht])
    (fun p' hl hs => ⟨?_, ht⟩) (fun hd => ?_) hchar rfl (fun j => setBlock_typeAt fs i q _ j)
    (fun p' => setBlock_slot fs i q _ p') (fun c => ?_) fun c => ?_
  · rcases h.file_or_dir hl with hf | hd
    · exact hf
    · exact absurd hs.symm (h.apart hl hp hd htp)
  · have hd : fs.typeAt i = .fsDir := hd
    rw [ht] at hd
    cases hd
  · have hocc : ((fs.setBlock i q (fs.slot p)).setRef (fs.slot p)
        (fs.referencias (fs.slot p) + 1)).ocupado c = fs.ocupado c := rfl
    rw [hocc]
    by_cases hc : c = fs.slot p
    · rw [hc, h.ocupado p hp, Bool.or_true]
    · rw [decide_eq_false hc, Bool.false_or]
  · rw [setRef_referencias _ (by omega) (by omega)]
    by_cases hc : c = fs.slot p
    · simp [hc, ht]
    · simp [hc]

/-! ### Slots that stop to count -/

/-- The block keeps its other slots, with one reference less. -/
theorem setRef_pred (h : fs.Contido live) {p : ℕ × ℕ} (hp : p ∈ live)
    (hr : 1 < fs.referencias (fs.slot p)) :
    (fs.setRef (fs.slot p) (fs.referencias (fs.slot p) - 1)).Contido (live.erase p) := by
  have hle := h.char (fs.slot p)
  have hf : fs.typeAt p.1 = .fsFile := by
    rcases h.file_or_dir hp with hf | hd
    · exact hf
    · rw [h.dirRefs p hp hd] at hr
      omega
  have h' := h.mono (Finset.erase_subset p live)
  have href := setRef_referencias fs (b := fs.slot p) (n := fs.referencias (fs.slot p) - 1)
    (by omega) (by omega)
  refine ⟨h'.bound, h'.range, h'.limite, h'.ocupado, h'.typed, h'.dirOwn, fun p' hp' hd => ?_,
    fun c => ?_, fun c => ?_, fun c hc => ?_, fun c hc => ?_⟩
  · have hs : fs.slot p' ≠ fs.slot p := (h.apart (Finset.mem_of_mem_erase hp') hp hd hf).symm
    exact (href _).trans ((if_neg hs).trans (h'.dirRefs p' hp' hd))
  · have hset : (fs.setRef (fs.slot p) (fs.referencias (fs.slot p) - 1)).fileSlots
        (live.erase p) c = (fs.fileSlots live c).erase p := Finset.filter_erase _ p live
    have hrefs := h.refs c
    rw [hset, href]
    split
    · rename_i hc
      subst hc
      rw [Finset.card_erase_of_mem (mem_fileSlots.mpr ⟨hp, hf, rfl⟩)]
      omega
    · exact le_trans (Int.ofNat_le.mpr (Finset.card_erase_le)) hrefs
  · rw [href]
    split
    · omega
    · exact h.char c
  · have hc : fs.ocupado c = false := hc
    rw [href, if_neg]
    · exact h.livre c hc
    · rintro rfl
      exact h.slot_ne_of_free hc hp rfl
  · have := h.range p hp
    rw [href, if_neg (by omega)]
    exact h.reserved c hc

/-- The block is released with its only slot. -/
theorem libertar (h : fs.Contido live) {p : ℕ × ℕ} (hp : p ∈ live)
    (hr : fs.referencias (fs.slot p) ≤ 1) (hn : fs'.numBlocks = fs.numBlocks)
    (htab : fs'.inodeTab = fs.inodeTab)
    (hocc : ∀ c, fs'.ocupado c = (!decide (c = fs.slot p) && fs.ocupado c))
    (href : ∀ c, fs'.referencias c = if c = fs.slot p then 0 else fs.referencias c) :
    fs'.Contido (live.erase p) := by
  have h' := h.mono (Finset.erase_subset p live)
  have hslot := slot_congr htab
  have htype := typeAt_congr htab
  have hne : ∀ p' ∈ live.erase p, fs.slot p' ≠ fs.slot p := fun p' hp' hs =>
    Finset.ne_of_mem_erase hp' (h.eq_of_refs_le_one hp (Finset.mem_of_mem_erase hp') hr hs)
  refine ⟨h'.bound, ?_, ?_, ?_, ?_, ?_, ?_, fun c => ?_, fun c => ?_, fun c hc => ?_,
    fun c hc => ?_⟩
  · rw [hslot]
    exact h'.range
  · rw [hslot, hn]
    exact h'.limite
  · intro p' hp'
    rw [hslot, hocc, decide_eq_false (hne p' hp'), h'.ocupado p' hp']
    rfl
  · rw [htype]
    exact h'.typed
  · rw [hslot, htype]
    exact h'.dirOwn
  · intro p' hp' hd
    rw [hslot, href, if_neg (hne p' hp')]
    exact h'.dirRefs p' hp' (htype ▸ hd)
  · rw [fileSlots_congr (fun p' _ => congrFun htype p'.1) fun p' _ => congrFun hslot p', href]
    split
    · rename_i hc
      have hempty : fs.fileSlots (live.erase p) c = ∅ := by
        refine Finset.eq_empty_of_forall_notMem fun p' hp' => ?_
        obtain ⟨hl, -, hs⟩ := mem_fileSlots.mp hp'
        exact hne p' hl (hs.trans hc)
      rw [hempty, Finset.card_empty]
      exact le_rfl
    · exact h'.refs c
  · rw [href]
    split
    · decide
    · exact h.char c
  · rw [href]
    split
    · rfl
    · rename_i hcb
      rw [hocc, decide_eq_false hcb] at hc
      exact h.livre c hc
  · have := h.range p hp
    rw [hocc, href, if_neg (by omega), decide_eq_false (by omega)]
    exact h.reserved c hc

/-- `apagarBloco` on the block of a slot. -/
theorem apagarBloco (h : fs.Contido live) {p : ℕ × ℕ} (hp : p ∈ live) (i : ℕ) :
    (SnfsServer.apagarBloco fs (fs.slot p) i).Contido (live.erase p) := by
  rw [SnfsServer.apagarBloco]
  dsimp only
  split
  · rename_i hr
    exact h.setRef_pred hp hr
  · rename_i hr
    have hzero := setRef_referencias fs (b := fs.slot p) (n := 0) le_rfl (by decide)
    refine h.libertar hp (not_lt.mp hr) ?_ ?_ ?_ ?_
    · split
      · exact CacheT.writeDisk_numBlocks fs.cache _ _
      · exact eliminarBlocoCache_numBlocks fs.cache _
    · split <;> rfl
    · intro c
      refine (clrBlk_ocupado _ _ c).trans ?_
      split <;> rfl
    · intro c
      rw [clrBlk_referencias]
      split <;> exact hzero c

end Contido

/-! ## Writing -/

/-- What writes through the first `n` slots of a file leave alone. -/
structure Toca (fs fs' : Fs) (file n : ℕ) : Prop where
  slot : ∀ p, p.1 ≠ file ∨ n ≤ p.2 → fs'.slot p = fs.slot p
  ocupado : ∀ b, fs.ocupado b = true → fs'.ocupado b = true
  refs : ∀ b, fs.ocupado b = true → fs'.referencias b ≤ fs.referencias b

theorem Toca.refl (fs : Fs) (file n : ℕ) : Toca fs fs file n :=
  ⟨fun _ _ => rfl, fun _ => id, fun _ _ => le_rfl⟩

theorem Toca.trans {fs fs' fs'' : Fs} {file n m : ℕ} (h : Toca fs fs' file n)
    (h' : Toca fs' fs'' file m) (hnm : n ≤ m) : Toca fs fs'' file m :=
  ⟨fun p hp => (h'.slot p hp).trans (h.slot p (hp.imp_right hnm.trans)),
    fun b ho => h'.ocupado b (h.ocupado b ho),
    fun b ho => (h'.refs b (h.ocupado b ho)).trans (h.refs b ho)⟩

/-- A write through slot `q` of a file. If its block is shared, it takes one block of the room, and
the shared block loses a reference unless the disk is full. -/
structure Escreve (fs fs' : Fs) (live : Finset (ℕ × ℕ)) (file q : ℕ) : Prop where
  contido : fs'.Contido live
  toca : Toca fs fs' file (q + 1)
  chega : ∀ k, fs.Chega (k + if 1 < fs.referencias (fs.slot (file, q)) then 1 else 0) →
    fs'.Chega k
  menos : fs.numBlocks ≤ bmapBits ∨ (1 < fs.referencias (fs.slot (file, q)) →
    fs'.referencias (fs.slot (file, q)) < fs.referencias (fs.slot (file, q)))

theorem Escreve.withCache {fs fs' : Fs} {live : Finset (ℕ × ℕ)} {file q : ℕ}
    (h : Escreve fs fs' live file q) {c : CacheT}
    (hc : c.disco.numBlocks = fs'.cache.disco.numBlocks) :
    Escreve fs (fs'.withCache c) live file q :=
  ⟨h.contido.withCache hc, ⟨h.toca.slot, h.toca.ocupado, h.toca.refs⟩,
    fun k hk => (h.chega k hk).congr hc rfl, h.menos⟩

namespace Contido

variable {fs fs' : Fs} {live : Finset (ℕ × ℕ)} {file q : ℕ}

/-- The private copy: slot `k` moves from a shared block to a free one. -/
theorem moveSlot (h : fs.Contido live) {k b : ℕ} (hp : (file, k) ∈ live)
    (ht : fs.typeAt file = .fsFile) (hr : 1 < fs.referencias (fs.slot (file, k)))
    (hbits : b < bmapBits) (hb : fs.findFreeBlk = some b) :
    ((((fs.setBlk b).setBlock file k b).setRef b (fs.referencias b + 1)).setRef (fs.slot (file, k))
      (fs.referencias (fs.slot (file, k)) - 1)).Contido live := by
  have hne : b ≠ fs.slot (file, k) := fun he =>
    h.slot_ne_of_free (fsiBmapFindFree_eq_some hb).2 hp he.symm
  have hins := (h.setRef_pred hp hr).reserve (i := file) (q := k) (b := b) (by simp) (h.bound _ hp).1
    (h.bound _ hp).2 ht hbits hb
  rw [Finset.insert_erase hp] at hins
  refine hins.congr rfl rfl ?_ (fun _ _ => rfl) fun _ _ => rfl
  have hb : (fs.setRef (fs.slot (file, k)) (fs.referencias (fs.slot (file, k)) - 1)).referencias b =
      fs.referencias b := by
    simp [setRef, hne]
  rw [hb]
  simp only [setRef, setBlk_referencias, setBlock_referencias]
  exact Function.update_comm hne _ _ _

/-- A private copy is made in a block that is free, and the first slot that names the shared block
moves there. -/
theorem copyOnWrite (h : fs.Contido live) (hlive : ∀ r ≤ q, (file, r) ∈ live)
    (ht : fs.typeAt file = .fsFile)
    (hroom : 1 < fs.referencias (fs.slot (file, q)) → fs.Chega 1) {n : ℤ}
    (hc : SnfsServer.copyOnWrite fs (fs.slot (file, q)) file = some (fs', n)) :
    Escreve fs fs' live file q := by
  have hself : fs.numBlocks ≤ bmapBits ∨ ¬1 < fs.referencias (fs.slot (file, q)) →
      Escreve fs fs live file q := fun hm =>
    ⟨h, .refl fs file _, fun k hk => hk.mono (Nat.le_add_right _ _),
      hm.imp_right fun hr hr' => absurd hr' hr⟩
  rw [SnfsServer.copyOnWrite] at hc
  simp only at hc
  split at hc
  · rename_i hr0
    obtain ⟨rfl, -⟩ := Prod.mk.inj (Option.some.inj hc)
    exact hself (.inr (by omega))
  rename_i hr0
  split at hc
  · rename_i hr1
    obtain ⟨rfl, -⟩ := Prod.mk.inj (Option.some.inj hc)
    exact hself (.inr (by omega))
  rename_i hr1
  have hq := hlive q le_rfl
  have hr : 1 < fs.referencias (fs.slot (file, q)) := by
    have := h.refs_pos hq ht
    omega
  obtain ⟨⟨fs₁, block⟩, hl, hc⟩ := Option.bind_eq_some_iff.mp hc
  obtain ⟨c, rfl, hcn⟩ := lerBloco_cache_numBlocks hl
  have h₁ := h.withCache hcn
  have hroom₁ : (fs.withCache c).Chega 1 := (hroom hr).congr hcn rfl
  simp only at hc
  split at hc
  · rename_i hb
    obtain ⟨rfl, -⟩ := Prod.mk.inj (Option.some.inj hc)
    exact (hself (.inl (hcn.symm.trans_le (hroom₁.cheio hb)))).withCache hcn
  rename_i bks hb
  obtain ⟨k, hfind, hkq, hsk, -⟩ := Accounts.find_slot fs (i := file) (h.bound _ hq).2
  have hbits := hroom₁.lt hb
  have hfree := (fsiBmapFindFree_eq_some hb).2
  have hne : bks ≠ fs.slot (file, q) := fun he => h₁.slot_ne_of_free hfree hq he.symm
  have hmove := h₁.moveSlot (hlive k hkq) ht (by simpa [hsk] using hr) hbits hb
  have hfind' : (List.range inodeNumBlks).find? (fun i =>
      (((fs.withCache c).setBlk bks).inodeTab file).blocks i = fs.slot (file, q)) = some k := hfind
  have href : ((((fs.withCache c).setBlk bks).setBlock file k bks).setRef bks
      (fs.referencias bks + 1)).referencias (fs.slot (file, q)) =
      fs.referencias (fs.slot (file, q)) := by
    simp [setRef, hne.symm]
  simp only [hfind', setBlock_referencias, setBlk_referencias, withCache_referencias, href] at hc
  simp only [withCache_slot, withCache_referencias, hsk] at hmove
  generalize hfs₂ : (((((fs.withCache c).setBlk bks).setBlock file k bks).setRef bks
    (fs.referencias bks + 1)).setRef (fs.slot (file, q))
      (fs.referencias (fs.slot (file, q)) - 1)) = fs₂ at hmove hc
  have hchar := h.char (fs.slot (file, q))
  have hbks0 : fs.referencias bks = 0 := h.livre bks hfree
  have htoca : Toca fs fs₂ file (q + 1) := by
    subst hfs₂
    refine ⟨fun p hp => ?_, fun b ho => bmapIsSet_set_of_set ho bks, fun b ho => ?_⟩
    · refine (setBlock_slot ((fs.withCache c).setBlk bks) file k bks p).trans (if_neg ?_)
      rintro rfl
      exact hp.elim (fun hf => hf rfl) fun hlt => absurd (Nat.le_of_succ_le hlt) (by omega)
    · have hbne : b ≠ bks := by
        rintro rfl
        have hfree : fs.ocupado b = false := hfree
        rw [ho] at hfree
        cases hfree
      rw [setRef_referencias _ (by omega) (by omega),
        setRef_referencias _ (by omega) (by omega), if_neg hbne]
      split
      · rename_i he
        rw [he]
        omega
      · exact le_rfl
  have h₂ : Escreve fs fs₂ live file q := by
    refine ⟨hmove, htoca, fun m hm => ?_, .inr fun _ => ?_⟩
    · subst hfs₂
      rw [if_pos hr] at hm
      have hm₁ : (fs.withCache c).Chega (m + 1) := hm.congr hcn rfl
      exact hm₁.ocupar rfl (setBlk_ocupado (fs.withCache c) hbits)
    · rw [← hfs₂, setRef_referencias _ (by omega) (by omega), if_pos rfl]
      omega
  obtain ⟨rfl, -⟩ := Prod.mk.inj (Option.some.inj hc)
  split
  · exact h₂.withCache (SnfsServer.escreverCache_numBlocks _ _ _)
  · exact h₂.withCache (CacheT.writeDisk_numBlocks _ _ _)

theorem gravarBloco (h : fs.Contido live) (hlive : ∀ r ≤ q, (file, r) ∈ live)
    (ht : fs.typeAt file = .fsFile)
    (hroom : 1 < fs.referencias (fs.slot (file, q)) → fs.Chega 1) {block : Block}
    (hg : fs.gravarBloco file (fs.slot (file, q)) block = some fs') :
    Escreve fs fs' live file q := by
  have ht' : (fs.inodeTab file).type = .fsFile := ht
  rw [Fs.gravarBloco, if_pos ht'] at hg
  obtain ⟨⟨fs₁, n⟩, hc, rfl⟩ := Option.map_eq_some_iff.mp hg
  have h₁ := h.copyOnWrite hlive ht hroom hc
  dsimp only
  split
  · exact h₁.withCache (CacheT.writeDisk_numBlocks _ _ _)
  · exact h₁.withCache (SnfsServer.escreverCache_numBlocks _ _ _)

end Contido

/-! ### Reserving -/

/-- What a reservation for the slots from `i` on leaves: new slots of one reference each, and all
else as it was. -/
structure Reserva (fs fs' : Fs) (live live' : Finset (ℕ × ℕ)) (file i : ℕ) : Prop where
  sub : live ⊆ live'
  contido : fs'.Contido live'
  slot : ∀ p, p.1 ≠ file ∨ p.2 < i → fs'.slot p = fs.slot p
  ocupado : ∀ b, fs.ocupado b = true → fs'.ocupado b = true ∧ fs'.referencias b = fs.referencias b

theorem Contido.reservarBlocos {fs : Fs} {live : Finset (ℕ × ℕ)} (h : fs.Contido live)
    {file i m k : ℕ} (hfile : file < itabSize) (ht : fs.typeAt file = .fsFile)
    (hdead : ∀ q, i ≤ q → (file, q) ∉ live) (hm : i + m ≤ inodeNumBlks)
    (hroom : fs.Chega (m + k)) :
    ∃ live', Reserva fs (SnfsServer.reservarBlocos file m i fs).1 live live' file i ∧
      (SnfsServer.reservarBlocos file m i fs).1.Chega k ∧
      ((SnfsServer.reservarBlocos file m i fs).2 = true → ∀ q, i ≤ q → q < i + m →
        (file, q) ∈ live' ∧ (SnfsServer.reservarBlocos file m i fs).1.referencias
          ((SnfsServer.reservarBlocos file m i fs).1.slot (file, q)) ≤ 1) := by
  induction m generalizing i fs live with
  | zero =>
      refine ⟨live, ⟨Finset.Subset.refl _, h, fun _ _ => rfl, fun _ ho => ⟨ho, rfl⟩⟩, ?_, ?_⟩
      · rwa [Nat.zero_add] at hroom
      · intro _ q hq hlt
        omega
  | succ m ih =>
      rw [SnfsServer.reservarBlocos]
      split
      · refine ⟨live, ⟨Finset.Subset.refl _, h, fun _ _ => rfl, fun _ ho => ⟨ho, rfl⟩⟩,
          hroom.mono (by omega), ?_⟩
        intro hf
        cases hf
      · rename_i blk hb
        have hroom' : fs.Chega (m + k + 1) := hroom.mono (by omega)
        have hbits := hroom'.lt hb
        have hfree := (fsiBmapFindFree_eq_some hb).2
        have hins := h.reserve (hdead i le_rfl) hfile (by omega) ht hbits hb
        have hr0 := h.livre blk hfree
        dsimp only
        have href : (((fs.setBlock file i blk).setBlk blk).setRef blk
            (((fs.setBlock file i blk).setBlk blk).referencias blk + 1)) =
            (((fs.setBlock file i blk).setBlk blk).setRef blk (fs.referencias blk + 1)) := rfl
        rw [href]
        generalize hfs₁ : ((fs.setBlock file i blk).setBlk blk).setRef blk
          (fs.referencias blk + 1) = fs₁ at hins ⊢
        have hslot₁ : ∀ p, fs₁.slot p = if p = (file, i) then blk else fs.slot p := by
          subst hfs₁
          exact setBlock_slot fs file i blk
        have hocc₁ : ∀ b, fs₁.ocupado b = (decide (b = blk) || fs.ocupado b) := by
          subst hfs₁
          exact setBlk_ocupado (fs.setBlock file i blk) hbits
        have href₁ : ∀ b, fs₁.referencias b = if b = blk then 1 else fs.referencias b := by
          subst hfs₁
          intro b
          rw [setRef_referencias _ (by omega) (by omega), hr0]
          rfl
        have htype₁ : fs₁.typeAt file = .fsFile := by
          subst hfs₁
          exact (setBlock_typeAt fs file i blk file).trans ht
        have hroom₁ : fs₁.Chega (m + k) := by
          refine hroom'.ocupar ?_ hocc₁
          subst hfs₁
          rfl
        have hdead₁ : ∀ q, i + 1 ≤ q → (file, q) ∉ insert (file, i) live := by
          intro q hq hmem
          rcases Finset.mem_insert.mp hmem with he | hl
          · have := (Prod.mk.inj he).2
            omega
          · exact hdead q (by omega) hl
        obtain ⟨live', hres, hk, hnovos⟩ := ih hins htype₁ hdead₁ (by omega) hroom₁
        have hblk : fs₁.ocupado blk = true := by rw [hocc₁, decide_eq_true rfl, Bool.true_or]
        refine ⟨live', ⟨(Finset.subset_insert _ _).trans hres.sub, hres.contido, fun p hp => ?_,
          fun b ho => ?_⟩, hk, fun hok q hq hlt => ?_⟩
        · rw [hres.slot p (hp.imp_right fun h => by omega), hslot₁, if_neg]
          rintro rfl
          exact hp.elim (fun hf => hf rfl) fun hlt => absurd hlt (lt_irrefl _)
        · have hbne : b ≠ blk := by
            rintro rfl
            have hfree : fs.ocupado b = false := hfree
            rw [ho] at hfree
            cases hfree
          obtain ⟨ho', hr'⟩ := hres.ocupado b (by rw [hocc₁, ho, Bool.or_true])
          exact ⟨ho', by rw [hr', href₁, if_neg hbne]⟩
        · rcases Nat.eq_or_lt_of_le hq with rfl | hgt
          · refine ⟨hres.sub (Finset.mem_insert_self _ _), ?_⟩
            rw [hres.slot _ (.inr (Nat.lt_succ_self _)), hslot₁, if_pos rfl,
              (hres.ocupado blk hblk).2, href₁, if_pos rfl]
          · exact hnovos hok q hgt (by omega)

/-! ### The loops of a write -/

/-- The slots from `i` on, of the first `n`, that a write up to byte `fim` covers. -/
def cobertos (n i fim : ℕ) : Finset ℕ :=
  (Finset.range n).filter fun q => i ≤ q ∧ blockSize * q < fim

/-- The private copies that a write through the slots makes, in this order: one at each slot whose
block has another reference left when the slots before it have moved away. -/
def copias (fs : Fs) (file : ℕ) (s : Finset ℕ) : ℕ :=
  (s.filter fun q => ((s.filter fun r => r < q ∧ fs.slot (file, r) = fs.slot (file, q)).card : ℤ) +
    1 < fs.referencias (fs.slot (file, q))).card

theorem mem_cobertos {n i fim q : ℕ} :
    q ∈ cobertos n i fim ↔ q < n ∧ i ≤ q ∧ blockSize * q < fim := by
  rw [cobertos, Finset.mem_filter, Finset.mem_range]

theorem cobertos_eq_insert {n i fim : ℕ} (hi : i < n) (hfim : blockSize * i < fim) :
    cobertos n i fim = insert i (cobertos n (i + 1) fim) := by
  ext q
  rw [Finset.mem_insert, mem_cobertos, mem_cobertos]
  constructor
  · rintro ⟨hq, hle, hlt⟩
    rcases Nat.eq_or_lt_of_le hle with rfl | hgt
    · exact .inl rfl
    · exact .inr ⟨hq, hgt, hlt⟩
  · rintro (rfl | ⟨hq, hle, hlt⟩)
    · exact ⟨hi, le_rfl, hfim⟩
    · exact ⟨hq, by omega, hlt⟩

/-- No slot comes before the first one. -/
theorem filter_antes_eq_empty {s : Finset ℕ} {q : ℕ} (hs : ∀ r ∈ s, q < r) (P : ℕ → Prop)
    [DecidablePred P] : ((insert q s).filter fun r => r < q ∧ P r) = ∅ := by
  refine Finset.filter_eq_empty_iff.mpr fun r hr hlt => ?_
  rcases Finset.mem_insert.mp hr with rfl | hr
  · exact absurd hlt.1 (lt_irrefl r)
  · exact absurd hlt.1 (Nat.not_lt.mpr (hs r hr).le)

/-- The first slot makes a copy if its block is shared. -/
theorem mem_copias {fs : Fs} {file q : ℕ} {s : Finset ℕ} (hs : ∀ r ∈ s, q < r)
    (hr : 1 < fs.referencias (fs.slot (file, q))) :
    q ∈ (insert q s).filter fun p => (((insert q s).filter fun r => r < p ∧
      fs.slot (file, r) = fs.slot (file, p)).card : ℤ) + 1 < fs.referencias (fs.slot (file, p)) := by
  refine Finset.mem_filter.mpr ⟨Finset.mem_insert_self q s, ?_⟩
  rw [filter_antes_eq_empty hs, Finset.card_empty]
  exact hr

/-- After the write through the first slot, the others make the rest of the copies. -/
theorem Escreve.copias_le {fs fs' : Fs} {live : Finset (ℕ × ℕ)} {file q : ℕ}
    (h : Escreve fs fs' live file q) (hm : 1 < fs.referencias (fs.slot (file, q)) →
      fs'.referencias (fs.slot (file, q)) < fs.referencias (fs.slot (file, q)))
    {s : Finset ℕ} (hs : ∀ r ∈ s, q < r ∧ fs.ocupado (fs.slot (file, r)) = true) :
    fs'.copias file s + (if 1 < fs.referencias (fs.slot (file, q)) then 1 else 0) ≤
      fs.copias file (insert q s) := by
  have hq : q ∉ s := fun hm => absurd (hs q hm).1 (lt_irrefl q)
  have hslot : ∀ r ∈ s, fs'.slot (file, r) = fs.slot (file, r) := fun r hr =>
    h.toca.slot (file, r) (.inr (hs r hr).1)
  -- the slots that still make a copy made one before
  have hsub : (s.filter fun p => ((s.filter fun r => r < p ∧
        fs'.slot (file, r) = fs'.slot (file, p)).card : ℤ) + 1 <
        fs'.referencias (fs'.slot (file, p))) ⊆
      (insert q s).filter fun p => (((insert q s).filter fun r => r < p ∧
        fs.slot (file, r) = fs.slot (file, p)).card : ℤ) + 1 <
        fs.referencias (fs.slot (file, p)) := by
    intro p hp
    obtain ⟨hps, hlt⟩ := Finset.mem_filter.mp hp
    obtain ⟨hqp, ho⟩ := hs p hps
    have hcount : (s.filter fun r => r < p ∧ fs'.slot (file, r) = fs'.slot (file, p)) =
        s.filter fun r => r < p ∧ fs.slot (file, r) = fs.slot (file, p) :=
      Finset.filter_congr fun r hr => by rw [hslot r hr, hslot p hps]
    rw [hcount, hslot p hps] at hlt
    have hle := h.toca.refs _ ho
    refine Finset.mem_filter.mpr ⟨Finset.mem_insert_of_mem hps, ?_⟩
    rw [Finset.filter_insert]
    split
    · rename_i hsame
      rw [Finset.card_insert_of_notMem fun hm => hq (Finset.mem_filter.mp hm).1, ← hsame.2]
      rw [← hsame.2] at hlt hle
      push_cast
      by_cases hr : 1 < fs.referencias (fs.slot (file, q))
      · have := hm hr
        omega
      · omega
    · omega
  split
  · rename_i hr
    rw [copias, copias, ← Finset.card_insert_of_notMem fun hm => hq (Finset.mem_filter.mp hm).1]
    exact Finset.card_le_card (Finset.insert_subset (mem_copias (fun r hr => (hs r hr).1) hr) hsub)
  · exact Finset.card_le_card hsub

theorem Reserva.copias_eq {fs fs' : Fs} {live live' : Finset (ℕ × ℕ)} {file n : ℕ}
    (h : Reserva fs fs' live live' file n) {s : Finset ℕ}
    (hs : ∀ q ∈ s, q < n ∧ fs.ocupado (fs.slot (file, q)) = true) :
    fs'.copias file s = fs.copias file s := by
  have hslot : ∀ q ∈ s, fs'.slot (file, q) = fs.slot (file, q) := fun q hq =>
    h.slot (file, q) (.inr (hs q hq).1)
  refine congrArg Finset.card (Finset.filter_congr fun q hq => ?_)
  rw [Finset.filter_congr fun r hr => by rw [hslot r hr, hslot q hq], hslot q hq,
    (h.ocupado _ (hs q hq).2).2]

/-- Before a turn of the loop the next byte of the buffer goes to the start of the next block, the
first turn apart. -/
def NaPosicao (offset count num iblock : ℕ) : Prop :=
  num = 0 ∧ iblock = offset / blockSize ∨ count ≤ num ∨ offset + num = blockSize * iblock

theorem NaPosicao.coberto {offset count num iblock : ℕ} (h : NaPosicao offset count num iblock)
    (hnum : num < count) : blockSize * iblock < offset + count := by
  simp only [NaPosicao, blockSize] at *
  omega

theorem NaPosicao.succ {offset count num iblock : ℕ} (h : NaPosicao offset count num iblock)
    (hnum : num < count) : NaPosicao offset count
      (min count (num + (blockSize - if num = 0 then offset % blockSize else 0))) (iblock + 1) := by
  simp only [NaPosicao, blockSize] at *
  split <;> omega

namespace Contido

variable {fs fs' : Fs} {live : Finset (ℕ × ℕ)} {file offset count : ℕ} {buffer : ℕ → Byte}

theorem escreverExistentes (h : fs.Contido live) {n : ℕ} (hlive : ∀ q < n, (file, q) ∈ live)
    (ht : fs.typeAt file = .fsFile) (m : ℕ) {num iblock num' iblock' : ℕ}
    {block block' : Block} (hn : iblock + m ≤ n) (hpos : NaPosicao offset count num iblock)
    (hroom : num < count →
      fs.Chega (fs.copias file (cobertos n iblock (offset + count))))
    (hw : SnfsServer.escreverExistentes file offset count buffer m fs num iblock block =
      some (fs', num', iblock', block')) :
    fs'.Contido live ∧ Toca fs fs' file n ∧
      iblock' ≤ iblock + m ∧ (num' < count → iblock' = iblock + m) := by
  induction m generalizing fs num iblock block with
  | zero =>
      obtain ⟨rfl, he₁⟩ := Prod.mk.inj (Option.some.inj hw)
      obtain ⟨rfl, he₂⟩ := Prod.mk.inj he₁
      obtain ⟨rfl, -⟩ := Prod.mk.inj he₂
      exact ⟨h, .refl fs file n, le_rfl, fun _ => rfl⟩
  | succ m ih =>
      rw [SnfsServer.escreverExistentes] at hw
      split at hw
      · rename_i hnum
        obtain ⟨rfl, he₁⟩ := Prod.mk.inj (Option.some.inj hw)
        obtain ⟨rfl, he₂⟩ := Prod.mk.inj he₁
        obtain ⟨rfl, -⟩ := Prod.mk.inj he₂
        exact ⟨h, .refl fs file n, Nat.le_add_right _ _,
          fun hlt => absurd hnum (Nat.not_le.mpr hlt)⟩
      rename_i hnum
      have hnum := Nat.not_le.mp hnum
      obtain ⟨⟨fs₁, page⟩, hl, hw⟩ := Option.bind_eq_some_iff.mp hw
      obtain ⟨c, rfl, hcn⟩ := lerBloco_cache_numBlocks hl
      obtain ⟨fs₂, hg, hw⟩ := Option.bind_eq_some_iff.mp hw
      have hroom := hroom hnum
      rw [cobertos_eq_insert (by omega) (hpos.coberto hnum)] at hroom
      have hroom₁ : (fs.withCache c).Chega _ := hroom.congr hcn rfl
      have hcov : ∀ r ∈ cobertos n (iblock + 1) (offset + count), iblock < r ∧
          (fs.withCache c).ocupado ((fs.withCache c).slot (file, r)) = true := by
        intro r hr
        obtain ⟨hrn, hle, -⟩ := mem_cobertos.mp hr
        exact ⟨hle, h.ocupado _ (hlive r hrn)⟩
      have hesc : Escreve (fs.withCache c) fs₂ live file iblock := by
        refine (h.withCache hcn).gravarBloco (fun r hr => hlive r (by omega)) ht
          (fun hr => hroom₁.mono ?_) hg
        exact Finset.card_pos.mpr ⟨iblock, mem_copias (fun r hr => (hcov r hr).1) hr⟩
      have hstep : Toca fs fs₂ file (iblock + 1) := ⟨hesc.toca.slot, hesc.toca.ocupado,
        hesc.toca.refs⟩
      have hless : fs₂.Chega (fs₂.copias file (cobertos n (iblock + 1) (offset + count))) := by
        rcases hesc.menos with hle | hm
        · exact hesc.chega _ (.inl hle)
        · exact hesc.chega _ (hroom₁.mono (hesc.copias_le hm hcov))
      have ht₂ : fs₂.typeAt file = .fsFile := ((gravarBloco_same hg).type file).trans ht
      obtain ⟨h', htoca, hle, heq⟩ := ih hesc.contido ht₂ (by omega) (hpos.succ hnum)
        (fun _ => hless) hw
      exact ⟨h', hstep.trans htoca (by omega), by omega, fun hlt => by rw [heq hlt]; omega⟩

/-- The slots that were reserved share no block. -/
theorem escreverReservados (h : fs.Contido live) {n : ℕ} (hlive : ∀ q < n, (file, q) ∈ live)
    (ht : fs.typeAt file = .fsFile) (m : ℕ) {num iblock num' : ℕ} {block : Block}
    (hn : iblock + m ≤ n)
    (hsole : ∀ q, iblock ≤ q → q < n → num < count →
      fs.referencias (fs.slot (file, q)) ≤ 1)
    (hw : SnfsServer.escreverReservados file count buffer m fs num iblock block =
      some (fs', num')) : fs'.Contido live ∧ Toca fs fs' file n := by
  induction m generalizing fs num iblock block with
  | zero =>
      obtain ⟨rfl, -⟩ := Prod.mk.inj (Option.some.inj hw)
      exact ⟨h, .refl fs file n⟩
  | succ m ih =>
      rw [SnfsServer.escreverReservados] at hw
      split at hw
      · obtain ⟨rfl, -⟩ := Prod.mk.inj (Option.some.inj hw)
        exact ⟨h, .refl fs file n⟩
      rename_i hnum
      have hnum := Nat.not_le.mp hnum
      obtain ⟨fs₁, hg, hw⟩ := Option.bind_eq_some_iff.mp hw
      have hesc : Escreve fs fs₁ live file iblock := by
        refine h.gravarBloco (fun r hr => hlive r (by omega)) ht (fun hr => ?_) hg
        exact absurd hr (not_lt.mpr (hsole iblock le_rfl (by omega) hnum))
      have ht₁ : fs₁.typeAt file = .fsFile := ((gravarBloco_same hg).type file).trans ht
      have hsole₁ : ∀ q, iblock + 1 ≤ q → q < n → fs₁.referencias (fs₁.slot (file, q)) ≤ 1 := by
        intro q hq hqn
        rw [hesc.toca.slot (file, q) (.inr hq)]
        exact (hesc.toca.refs _ (h.ocupado _ (hlive q hqn))).trans (hsole q (by omega) hqn hnum)
      obtain ⟨h', htoca⟩ := ih hesc.contido ht₁ (by omega) (fun q hq hqn _ => hsole₁ q hq hqn) hw
      exact ⟨h', hesc.toca.trans htoca (by omega)⟩

end Contido

/-! ## Copies, appends and removals -/

namespace Contido

variable {fs fs' : Fs} {live : Finset (ℕ × ℕ)}

theorem cobre (h : fs.Contido live) :
    fs.Cobre (live.filter fun p => fs.typeAt p.1 = .fsFile) := by
  refine ⟨fun b => ?_, h.char⟩
  have hrefs := h.refs b
  rw [fileSlots, ← Finset.filter_filter] at hrefs
  exact hrefs

/-- The slots of the destination stop to count. -/
theorem libertarDestino (h : fs.Contido live) (i n : ℕ) (hlive : ∀ r < n, (i, r) ∈ live) :
    (SnfsServer.libertarDestino fs i n).Contido (live.filter fun p => ¬(p.1 = i ∧ p.2 < n)) ∧
      (SnfsServer.libertarDestino fs i n).inodeTab = fs.inodeTab := by
  induction n with
  | zero => exact ⟨h.mono (Finset.filter_subset _ _), rfl⟩
  | succ n ih =>
      obtain ⟨hc, htab⟩ := ih fun r hr => hlive r (by omega)
      have hstep : SnfsServer.libertarDestino fs i (n + 1) =
          SnfsServer.apagarBloco (SnfsServer.libertarDestino fs i n) (fs.slot (i, n)) i := by
        rw [← slot_congr htab, SnfsServer.libertarDestino, List.range_succ, List.foldl_append]
        rfl
      have hmem : (i, n) ∈ live.filter fun p => ¬(p.1 = i ∧ p.2 < n) :=
        Finset.mem_filter.mpr ⟨hlive n (Nat.lt_succ_self n), by simp⟩
      rw [hstep]
      refine ⟨?_, (apagarBloco_inodeTab _ _ _).trans htab⟩
      rw [← slot_congr htab]
      refine (hc.apagarBloco hmem i).mono fun p hp => ?_
      obtain ⟨hl, hno⟩ := Finset.mem_filter.mp hp
      refine Finset.mem_erase.mpr ⟨?_, Finset.mem_filter.mpr ⟨hl, by omega⟩⟩
      rintro rfl
      exact hno ⟨rfl, Nat.lt_succ_self n⟩

/-- The slots of a file from `base` on start to name the blocks of a file, maybe the same one. -/
theorem copiarReferencias (h : fs.Contido live) {de para base n : ℕ}
    (hde : ∀ q < n, (de, q) ∈ live) (htde : fs.typeAt de = .fsFile)
    (hfile : para < itabSize) (htp : fs.typeAt para = .fsFile) (hn : base + n ≤ inodeNumBlks)
    (hpara : ∀ r < n, (para, base + r) ∉ live)
    (hcabe : ∀ b, fs.referencias b + fs.vezes de n b ≤ 127) :
    ∃ live', (∀ p, p ∈ live' ↔ p ∈ live ∨ p.1 = para ∧ base ≤ p.2 ∧ p.2 < base + n) ∧
      (SnfsServer.copiarReferencias fs de para base n).Contido live' := by
  induction n with
  | zero =>
      exact ⟨live, fun p => ⟨.inl, fun hp => hp.resolve_right fun hq => by omega⟩, h⟩
  | succ n ih =>
      have hv := vezes_succ fs de n
      have hself : de = para → base = 0 ∨ n ≤ base := by
        rintro rfl
        right
        by_contra hlt
        exact hpara 0 (Nat.succ_pos n) (hde base (by omega))
      have hcabe' : ∀ b, fs.referencias b + fs.vezes de n b ≤ 127 := by
        intro b
        have := hcabe b
        rw [hv] at this
        push_cast at this
        split at this <;> omega
      obtain ⟨live', hlive', hc⟩ := ih (fun q hq => hde q (by omega)) (by omega)
        (fun r hr => hpara r (by omega)) hcabe'
      have hrefs := (h.cobre.copiarReferencias de para base n hself
        (fun r hr hm => hpara r (by omega) (Finset.mem_filter.mp hm).1) hcabe').2
      have hslot := copiarReferencias_slot_of fs hself
      have hsame := copiarReferencias_same fs de para base n
      rw [Cobre.copiarReferencias_succ]
      generalize SnfsServer.copiarReferencias fs de para base n = fs₁ at hc hrefs hslot hsame ⊢
      have hden : fs₁.slot (de, n) = fs.slot (de, n) := by
        rw [hslot, if_neg]
        rintro ⟨rfl, hle, -⟩
        exact hpara (n - base) (by omega) (by
          rw [Nat.add_sub_cancel' hle]
          exact hde n (Nat.lt_succ_self n))
      have hlt : fs₁.referencias (fs₁.slot (de, n)) < 127 := by
        have := hcabe (fs.slot (de, n))
        rw [hv, if_pos rfl] at this
        rw [hden, hrefs]
        push_cast at this
        omega
      have hnew : (para, base + n) ∉ live' := by
        rw [hlive']
        rintro (hp | ⟨-, -, hlt'⟩)
        · exact hpara n (Nat.lt_succ_self n) hp
        · exact absurd hlt' (Nat.lt_irrefl _)
      refine ⟨insert (para, base + n) live', fun p => ?_, hc.share hnew hfile (by omega)
        ((hsame.type para).trans htp) ((hlive' _).mpr (.inl (hde n (Nat.lt_succ_self n))))
        ((hsame.type de).trans htde) hlt⟩
      obtain ⟨j, q⟩ := p
      rw [Finset.mem_insert, hlive', Prod.mk.injEq]
      constructor
      · rintro (⟨rfl, rfl⟩ | hp | ⟨hj, h1, h2⟩)
        · exact .inr ⟨rfl, by omega, by omega⟩
        · exact .inl hp
        · exact .inr ⟨hj, h1, by omega⟩
      · rintro (hp | ⟨hj, h1, h2⟩)
        · exact .inr (.inl hp)
        · by_cases hq : q = base + n
          · exact .inl ⟨hj, hq⟩
          · exact .inr (.inr ⟨hj, h1, by dsimp only at *; omega⟩)

/-- The blocks of a file are released, and its slots cleared. -/
theorem removerBlocos (h : fs.Contido live) {idFile i n : ℕ}
    (hlive : ∀ q, i ≤ q → q < i + n → (idFile, q) ∈ live) :
    (SnfsServer.removerBlocos idFile n i fs).2 = true ∧
      (SnfsServer.removerBlocos idFile n i fs).1.Contido
        (live.filter fun p => ¬(p.1 = idFile ∧ i ≤ p.2 ∧ p.2 < i + n)) ∧
      ∀ p, p.1 ≠ idFile → (SnfsServer.removerBlocos idFile n i fs).1.slot p = fs.slot p := by
  induction n generalizing i fs live with
  | zero => exact ⟨rfl, h.mono (Finset.filter_subset _ _), fun _ _ => rfl⟩
  | succ n ih =>
      have hi : (idFile, i) ∈ live := hlive i le_rfl (by omega)
      have hlt : ¬(fs.inodeTab idFile).blocks i < 10 := Nat.not_lt.mpr (h.range _ hi)
      rw [SnfsServer.removerBlocos, if_neg hlt]
      have hap : ((SnfsServer.apagarBloco fs (fs.slot (idFile, i)) idFile).setBlock idFile i
          0).Contido (live.erase (idFile, i)) :=
        (h.apagarBloco hi idFile).setBlock_dead (Finset.notMem_erase _ _) 0
      obtain ⟨hok, hc, hslot⟩ := ih (i := i + 1) hap fun q hq hlt => Finset.mem_erase.mpr
        ⟨fun he => by have := (Prod.mk.inj he).2; omega, hlive q (by omega) (by omega)⟩
      refine ⟨hok, hc.mono fun p hp => ?_, fun p hp => (hslot p hp).trans ?_⟩
      · obtain ⟨hl, hno⟩ := Finset.mem_filter.mp hp
        refine Finset.mem_filter.mpr ⟨Finset.mem_erase.mpr ⟨?_, hl⟩, by omega⟩
        rintro rfl
        exact hno ⟨rfl, le_rfl, by omega⟩
      · rw [setBlock_slot, if_neg fun he => hp (by rw [he]),
          slot_congr (apagarBloco_inodeTab _ _ _)]

end Contido

end Fs

end ThreadScheduler.SnfsServer
