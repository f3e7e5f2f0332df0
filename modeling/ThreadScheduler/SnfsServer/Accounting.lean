import ThreadScheduler.SnfsServer.FsState
import Mathlib.Data.Finset.Prod
import Mathlib.Data.Finset.Card

/-!
# Block accounting

The bitmap, the reference counters and the slots of the i-nodes describe the same
thing. `Accounts fs live` says that they agree when exactly the slots in `live`
count; the operations keep it while they take slots in and out of `live` one by
one, so the states between the two halves of an operation satisfy it too.
-/
namespace ThreadScheduler.SnfsServer

namespace Fs

/-- The file slots of `live` that name a block. -/
def fileSlots (fs : Fs) (live : Finset (ℕ × ℕ)) (b : ℕ) : Finset (ℕ × ℕ) :=
  live.filter fun p => fs.typeAt p.1 = .fsFile ∧ fs.slot p = b

/-- The size of the disk the server creates. -/
abbrev discoServidor : ℕ := 16384

/-- The bitmap and the slots of `live` agree. A directory block has one slot; a valid
cache entry belongs to a file block. -/
structure Layout (fs : Fs) (live : Finset (ℕ × ℕ)) : Prop where
  coherent : fs.cache.Coherent
  disco : fs.cache.disco.numBlocks = discoServidor
  bound : ∀ p ∈ live, p.1 < itabSize ∧ p.2 < inodeNumBlks
  range : ∀ p ∈ live, 10 ≤ fs.slot p
  reserved : ∀ b < 10, fs.ocupado b = true
  bits : ∀ b, 10 ≤ b → (fs.ocupado b = true ↔ ∃ p ∈ live, fs.slot p = b)
  typed : ∀ p ∈ live, fs.typeAt p.1 ≠ .unset
  dirOwn : ∀ p ∈ live, ∀ p' ∈ live, fs.typeAt p.1 = .fsDir → fs.slot p' = fs.slot p → p' = p
  valid : ∀ b, fs.cache.Valid b → ∃ p ∈ live, fs.typeAt p.1 = .fsFile ∧ fs.slot p = b

/-- All three tables agree on the slots of `live`: the counters count the file slots, and
fit in a `char`. -/
structure Accounts (fs : Fs) (live : Finset (ℕ × ℕ)) : Prop extends Layout fs live where
  refs : ∀ b, fs.referencias b = (fs.fileSlots live b).card
  char : ∀ b, fs.referencias b ≤ 127

theorem mem_fileSlots {fs : Fs} {live : Finset (ℕ × ℕ)} {b : ℕ} {p : ℕ × ℕ} :
    p ∈ fs.fileSlots live b ↔ p ∈ live ∧ fs.typeAt p.1 = .fsFile ∧ fs.slot p = b := by
  simp [fileSlots]

theorem fileSlots_congr {fs fs' : Fs} {live : Finset (ℕ × ℕ)} {b : ℕ}
    (ht : ∀ p ∈ live, fs'.typeAt p.1 = fs.typeAt p.1) (hs : ∀ p ∈ live, fs'.slot p = fs.slot p) :
    fs'.fileSlots live b = fs.fileSlots live b := by
  ext p
  simp only [mem_fileSlots]
  constructor
  · rintro ⟨hp, h1, h2⟩
    exact ⟨hp, by rw [← ht p hp, h1], by rw [← hs p hp, h2]⟩
  · rintro ⟨hp, h1, h2⟩
    exact ⟨hp, by rw [ht p hp, h1], by rw [hs p hp, h2]⟩

theorem store_conteudo (fs : Fs) {b : ℕ} (hb : 10 ≤ b) :
    (fsiStoreFsdata fs).cache.conteudo b = fs.cache.conteudo b := by
  obtain ⟨c, hc, ht, -, hd⟩ := fsiStoreFsdata_spec fs
  simp only [hc, Fs.withCache, CacheT.conteudo, ht, hd b hb]

namespace Layout

variable {fs : Fs} {live : Finset (ℕ × ℕ)}

theorem file_or_dir (h : fs.Layout live) {p : ℕ × ℕ} (hp : p ∈ live) :
    fs.typeAt p.1 = .fsFile ∨ fs.typeAt p.1 = .fsDir := by
  have := h.typed p hp
  cases ht : fs.typeAt p.1 <;> simp_all

theorem ocupado (h : fs.Layout live) {p : ℕ × ℕ} (hp : p ∈ live) :
    fs.ocupado (fs.slot p) = true := (h.bits _ (h.range p hp)).mpr ⟨p, hp, rfl⟩

theorem slot_lt_bits (h : fs.Layout live) {p : ℕ × ℕ} (hp : p ∈ live) :
    fs.slot p < bmapBits := lt_of_bmapIsSet (h.ocupado hp)

theorem slot_lt_disco (h : fs.Layout live) {p : ℕ × ℕ} (hp : p ∈ live) :
    fs.slot p < fs.cache.disco.numBlocks := by
  have := h.slot_lt_bits hp
  simp only [h.disco, bmapBits, blockSize, discoServidor] at *
  omega

/-- A block that is not marked is named by no live slot. -/
theorem slot_ne_of_free (h : fs.Layout live) {b : ℕ} (hb : fs.ocupado b = false) {p : ℕ × ℕ}
    (hp : p ∈ live) : fs.slot p ≠ b := by
  rintro rfl
  rw [h.ocupado hp] at hb
  exact Bool.noConfusion hb

theorem not_valid_of_free (h : fs.Layout live) {b : ℕ} (hb : fs.ocupado b = false) :
    ¬ fs.cache.Valid b := by
  intro hv
  obtain ⟨p, hp, -, hs⟩ := h.valid b hv
  exact h.slot_ne_of_free hb hp hs

theorem not_valid_of_dir (h : fs.Layout live) {p : ℕ × ℕ} (hp : p ∈ live)
    (ht : fs.typeAt p.1 = .fsDir) : ¬ fs.cache.Valid (fs.slot p) := by
  intro hv
  obtain ⟨p', hp', ht', hs⟩ := h.valid _ hv
  rw [h.dirOwn p hp p' hp' ht hs, ht] at ht'
  exact FsItype.noConfusion ht'

theorem not_valid_of_lt (h : fs.Layout live) {b : ℕ} (hb : b < 10) : ¬ fs.cache.Valid b := by
  intro hv
  obtain ⟨p, hp, -, hs⟩ := h.valid _ hv
  have := h.range p hp
  omega

theorem card_le (h : fs.Layout live) : live.card ≤ itabSize * inodeNumBlks := by
  have hsub : live ⊆ Finset.range itabSize ×ˢ Finset.range inodeNumBlks := by
    intro p hp
    simpa using h.bound p hp
  simpa using Finset.card_le_card hsub

/-- The disk of the server is never full: 640 slots cannot name all its data blocks. -/
theorem exists_free (h : fs.Layout live) :
    ∃ b, fs.findFreeBlk = some b ∧ 10 ≤ b ∧ b < bmapBits ∧ fs.ocupado b = false := by
  obtain ⟨b₀, hb₀, hlt, hfree⟩ : ∃ b, 10 ≤ b ∧ b < bmapBits ∧ fs.ocupado b = false := by
    by_contra hno
    have hsub : Finset.Ico 10 bmapBits ⊆ live.image fs.slot := by
      intro b hb
      rw [Finset.mem_Ico] at hb
      rw [Finset.mem_image]
      by_contra hnone
      refine hno ⟨b, hb.1, hb.2, ?_⟩
      cases ho : fs.ocupado b with
      | false => rfl
      | true => exact absurd ((h.bits b hb.1).mp ho) hnone
    have hcard := (Finset.card_le_card hsub).trans (Finset.card_image_le.trans h.card_le)
    simp [bmapBits, itabSize, inodeNumBlks, blockSize] at hcard
  have hdisk : fs.numBlocks = discoServidor := h.disco
  cases hf : fs.findFreeBlk with
  | none =>
      have := fsiBmapFindFree_eq_none.mp hf b₀ (by
        simp only [hdisk, discoServidor, bmapBits, blockSize] at *
        omega)
      rw [Fs.ocupado, this] at hfree
      exact Bool.noConfusion hfree
  | some b =>
      obtain ⟨-, hset⟩ := fsiBmapFindFree_eq_some hf
      have hle : b ≤ b₀ := by
        -- the search answers the first clear bit
        by_contra hgt
        have hb₀' : b₀ < fs.numBlocks := by
          simp only [hdisk, discoServidor, bmapBits, blockSize] at *
          omega
        have hfirst := (List.find?_range_eq_some.mp hf).2.2 b₀ (by omega)
        simp only [Fs.ocupado] at hfree
        simp [hfree] at hfirst
      refine ⟨b, rfl, ?_, by omega, hset⟩
      by_contra hb10
      have := h.reserved b (by omega)
      rw [Fs.ocupado, hset] at this
      exact Bool.noConfusion this

/-! ### Stores that do not touch the slots -/

/-- A call that only moves blocks through the cache. -/
theorem withCache (h : fs.Layout live) {c : CacheT} (hc : c.Coherent)
    (hn : c.disco.numBlocks = fs.cache.disco.numBlocks)
    (hv : ∀ b, c.Valid b → fs.cache.Valid b ∨
      ∃ p ∈ live, fs.typeAt p.1 = .fsFile ∧ fs.slot p = b) :
    (fs.withCache c).Layout live where
  coherent := hc
  disco := hn.trans h.disco
  bound := h.bound
  range := h.range
  reserved := h.reserved
  bits := h.bits
  typed := h.typed
  dirOwn := h.dirOwn
  valid b hb := (hv b hb).elim (h.valid b) id

/-- I-node stores that leave the types and the live slots alone. -/
theorem congr {fs' : Fs} (h : fs.Layout live) (hc : fs'.cache = fs.cache)
    (hb : fs'.blkBmap = fs.blkBmap) (ht : ∀ p ∈ live, fs'.typeAt p.1 = fs.typeAt p.1)
    (hs : ∀ p ∈ live, fs'.slot p = fs.slot p) : fs'.Layout live where
  coherent := hc ▸ h.coherent
  disco := hc ▸ h.disco
  bound := h.bound
  range p hp := by rw [hs p hp]; exact h.range p hp
  reserved b hlt := by rw [Fs.ocupado, hb]; exact h.reserved b hlt
  bits b hge := by
    rw [Fs.ocupado, hb]
    refine (h.bits b hge).trans ⟨?_, ?_⟩
    · rintro ⟨p, hp, rfl⟩
      exact ⟨p, hp, hs p hp⟩
    · rintro ⟨p, hp, rfl⟩
      exact ⟨p, hp, (hs p hp).symm⟩
  typed p hp := by rw [ht p hp]; exact h.typed p hp
  dirOwn p hp p' hp' hd he := by
    rw [ht p hp] at hd
    rw [hs p hp, hs p' hp'] at he
    exact h.dirOwn p hp p' hp' hd he
  valid b hv := by
    rw [hc] at hv
    obtain ⟨p, hp, h1, h2⟩ := h.valid b hv
    exact ⟨p, hp, by rw [ht p hp, h1], by rw [hs p hp, h2]⟩

theorem store (h : fs.Layout live) : (fsiStoreFsdata fs).Layout live := by
  obtain ⟨c, hc, ht, hn, hb⟩ := fsiStoreFsdata_spec fs
  have hvalid : ∀ b, c.Valid b ↔ fs.cache.Valid b := by simp [CacheT.Valid, ht]
  rw [hc]
  refine h.withCache ⟨ht ▸ h.coherent.tabela, fun b e he hv hm => ?_, fun b e he => ?_⟩ hn
    fun b hv => .inl ((hvalid b).mp hv)
  · rw [ht] at he
    have hb10 : 10 ≤ b := by
      by_contra hlt
      exact h.not_valid_of_lt (by omega) ⟨e, he, hv⟩
    rw [hb b hb10]
    exact h.coherent.clean b e he hv hm
  · rw [hn]
    exact h.coherent.inRange b e (ht ▸ he)

end Layout

namespace Accounts

variable {fs : Fs} {live : Finset (ℕ × ℕ)}

theorem fileSlots_of_free (h : fs.Accounts live) {b : ℕ} (hb : fs.ocupado b = false) :
    fs.fileSlots live b = ∅ := by
  ext p
  simp only [mem_fileSlots, Finset.notMem_empty, iff_false, not_and]
  exact fun hp _ => h.slot_ne_of_free hb hp

theorem refs_of_free (h : fs.Accounts live) {b : ℕ} (hb : fs.ocupado b = false) :
    fs.referencias b = 0 := by rw [h.refs, h.fileSlots_of_free hb]; rfl

/-- A directory block has no references. -/
theorem refs_of_dir (h : fs.Accounts live) {p : ℕ × ℕ} (hp : p ∈ live)
    (ht : fs.typeAt p.1 = .fsDir) : fs.referencias (fs.slot p) = 0 := by
  have : fs.fileSlots live (fs.slot p) = ∅ := by
    ext p'
    simp only [mem_fileSlots, Finset.notMem_empty, iff_false, not_and]
    intro hp' ht' hs
    rw [h.dirOwn p hp p' hp' ht hs, ht] at ht'
    exact FsItype.noConfusion ht'
  rw [h.refs, this]
  rfl

theorem refs_pos (h : fs.Accounts live) {p : ℕ × ℕ} (hp : p ∈ live)
    (ht : fs.typeAt p.1 = .fsFile) : 0 < fs.referencias (fs.slot p) := by
  rw [h.refs]
  exact_mod_cast Finset.card_pos.mpr ⟨p, mem_fileSlots.mpr ⟨hp, ht, rfl⟩⟩

/-- The only reference to a block is the slot that is known to name it. -/
theorem eq_of_refs_le_one (h : fs.Accounts live) {p p' : ℕ × ℕ} (hp : p ∈ live) (hp' : p' ∈ live)
    (hr : fs.referencias (fs.slot p) ≤ 1) (hs : fs.slot p' = fs.slot p) : p' = p := by
  rcases h.file_or_dir hp with ht | ht
  · rcases h.file_or_dir hp' with ht' | ht'
    · rw [h.refs] at hr
      have hcard : (fs.fileSlots live (fs.slot p)).card ≤ 1 := by exact_mod_cast hr
      exact Finset.card_le_one.mp hcard p' (mem_fileSlots.mpr ⟨hp', ht', hs⟩) p
        (mem_fileSlots.mpr ⟨hp, ht, rfl⟩)
    · exact (h.dirOwn p' hp' p hp ht' hs.symm).symm
  · exact h.dirOwn p hp p' hp' ht hs

/-- A shared block is named by another file slot. -/
theorem exists_other (h : fs.Accounts live) {p : ℕ × ℕ}
    (hr : 1 < fs.referencias (fs.slot p)) :
    ∃ p' ∈ live, p' ≠ p ∧ fs.typeAt p'.1 = .fsFile ∧ fs.slot p' = fs.slot p := by
  rw [h.refs] at hr
  have hcard : 1 < (fs.fileSlots live (fs.slot p)).card := by exact_mod_cast hr
  obtain ⟨p', hp', hne⟩ := Finset.exists_mem_ne hcard p
  obtain ⟨hl, ht, hs⟩ := mem_fileSlots.mp hp'
  exact ⟨p', hl, hne, ht, hs⟩

/-! ### Stores that do not touch the accounts -/

theorem of_layout (h : fs.Accounts live) {c : CacheT} (hl : (fs.withCache c).Layout live) :
    (fs.withCache c).Accounts live := ⟨hl, h.refs, h.char⟩

theorem withCache (h : fs.Accounts live) {c : CacheT} (hc : c.Coherent)
    (hn : c.disco.numBlocks = fs.cache.disco.numBlocks)
    (hv : ∀ b, c.Valid b → fs.cache.Valid b ∨
      ∃ p ∈ live, fs.typeAt p.1 = .fsFile ∧ fs.slot p = b) :
    (fs.withCache c).Accounts live := h.of_layout (h.toLayout.withCache hc hn hv)

theorem congr {fs' : Fs} (h : fs.Accounts live) (hc : fs'.cache = fs.cache)
    (hr : fs'.referencias = fs.referencias) (hb : fs'.blkBmap = fs.blkBmap)
    (ht : ∀ p ∈ live, fs'.typeAt p.1 = fs.typeAt p.1) (hs : ∀ p ∈ live, fs'.slot p = fs.slot p) :
    fs'.Accounts live where
  toLayout := h.toLayout.congr hc hb ht hs
  refs b := by rw [hr, h.refs, fileSlots_congr ht hs]
  char b := by rw [hr]; exact h.char b

theorem setBlock_dead (h : fs.Accounts live) {i q : ℕ} (hp : (i, q) ∉ live) (b : ℕ) :
    (fs.setBlock i q b).Accounts live := by
  refine h.congr rfl rfl rfl (by simp) fun p hlive => ?_
  rw [setBlock_slot, if_neg]
  rintro rfl
  exact hp hlive

theorem store (h : fs.Accounts live) : (fsiStoreFsdata fs).Accounts live := by
  obtain ⟨c, hc, -⟩ := fsiStoreFsdata_spec fs
  have := h.toLayout.store
  rw [hc] at this ⊢
  exact h.of_layout this

/-! ### Taking slots in and out -/

/-- A slot that starts to count: it takes the number `b`, which is marked, and a file
slot adds a reference. A block that was live already is shared between files only. -/
theorem insert_slot {fs' : Fs} (h : fs.Accounts live) {p : ℕ × ℕ} {b : ℕ} (hp : p ∉ live)
    (hbound : p.1 < itabSize ∧ p.2 < inodeNumBlks) (hb10 : 10 ≤ b)
    (htyped : fs.typeAt p.1 ≠ .unset)
    (hown : ∀ p' ∈ live, fs.slot p' = b → fs.typeAt p'.1 = .fsFile ∧ fs.typeAt p.1 = .fsFile)
    (hchar : fs.referencias b < 127) (hcache : fs'.cache = fs.cache)
    (htype : ∀ j, fs'.typeAt j = fs.typeAt j)
    (hslot : ∀ p', fs'.slot p' = if p' = p then b else fs.slot p')
    (hocc : ∀ c, fs'.ocupado c = (decide (c = b) || fs.ocupado c))
    (href : ∀ c, fs'.referencias c =
      if c = b ∧ fs.typeAt p.1 = .fsFile then fs.referencias c + 1 else fs.referencias c) :
    fs'.Accounts (insert p live) := by
  have hold : ∀ p' ∈ live, fs'.slot p' = fs.slot p' := by
    intro p' hl
    rw [hslot, if_neg]
    rintro rfl
    exact hp hl
  have hself : fs'.slot p = b := by rw [hslot, if_pos rfl]
  have hfiles : ∀ c, fs'.fileSlots (insert p live) c =
      if c = b ∧ fs.typeAt p.1 = .fsFile then insert p (fs.fileSlots live c)
      else fs.fileSlots live c := by
    intro c
    have hlive : live.filter (fun p' => fs'.typeAt p'.1 = .fsFile ∧ fs'.slot p' = c) =
        fs.fileSlots live c :=
      Finset.filter_congr fun p' hl => by rw [htype, hold p' hl]
    simp only [fileSlots] at hlive ⊢
    rw [Finset.filter_insert, hlive, htype, hself]
    simp only [eq_comm (a := b), and_comm]
  refine ⟨⟨hcache ▸ h.coherent, hcache ▸ h.disco, ?_, ?_, ?_, ?_, ?_, ?_, ?_⟩, ?_, ?_⟩
  · exact fun p' hp' => (Finset.mem_insert.mp hp').elim (fun he => he ▸ hbound) (h.bound p')
  · intro p' hp'
    rcases Finset.mem_insert.mp hp' with rfl | hl
    · rw [hself]; exact hb10
    · rw [hold p' hl]; exact h.range p' hl
  · intro c hc
    simp [hocc, h.reserved c hc]
  · intro c hc
    rw [hocc, Bool.or_eq_true, decide_eq_true_eq, h.bits c hc]
    constructor
    · rintro (rfl | ⟨p', hl, rfl⟩)
      · exact ⟨p, Finset.mem_insert_self _ _, hself⟩
      · exact ⟨p', Finset.mem_insert_of_mem hl, hold p' hl⟩
    · rintro ⟨p', hp', rfl⟩
      rcases Finset.mem_insert.mp hp' with rfl | hl
      · exact .inl hself
      · exact .inr ⟨p', hl, (hold p' hl).symm⟩
  · intro p' hp'
    rw [htype]
    exact (Finset.mem_insert.mp hp').elim (fun he => he ▸ htyped) (h.typed p')
  · intro p₁ hp₁ p₂ hp₂ hd hs
    rw [htype] at hd
    rcases Finset.mem_insert.mp hp₁ with rfl | hl₁ <;>
      rcases Finset.mem_insert.mp hp₂ with rfl | hl₂
    · rfl
    · rw [hself, hold p₂ hl₂] at hs
      have := (hown p₂ hl₂ hs).2
      simp [hd] at this
    · rw [hself, hold p₁ hl₁] at hs
      have := (hown p₁ hl₁ hs.symm).1
      simp [hd] at this
    · rw [hold p₁ hl₁, hold p₂ hl₂] at hs
      exact h.dirOwn p₁ hl₁ p₂ hl₂ hd hs
  · intro c hv
    rw [hcache] at hv
    obtain ⟨p', hl, h1, hs⟩ := h.valid c hv
    exact ⟨p', Finset.mem_insert_of_mem hl, by rw [htype, h1], by rw [hold p' hl, hs]⟩
  · intro c
    rw [href, hfiles, h.refs]
    split
    · rw [Finset.card_insert_of_notMem fun hm => hp (mem_fileSlots.mp hm).1]
      push_cast
      rfl
    · rfl
  · intro c
    have := h.char c
    rw [href]
    split
    · rename_i hc
      rw [hc.1]
      omega
    · exact this

/-- A free block becomes the block of a new file slot, with one reference. -/
theorem reserve (h : fs.Accounts live) {i q b : ℕ} (hp : (i, q) ∉ live) (hi : i < itabSize)
    (hq : q < inodeNumBlks) (ht : fs.typeAt i = .fsFile) (hb10 : 10 ≤ b) (hbits : b < bmapBits)
    (hfree : fs.ocupado b = false) :
    (((fs.setBlock i q b).setBlk b).setRef b (fs.referencias b + 1)).Accounts
      (insert (i, q) live) := by
  have hr0 := h.refs_of_free hfree
  refine h.insert_slot hp ⟨hi, hq⟩ hb10 (by simp [ht])
    (fun p' hl hs => absurd hs (h.slot_ne_of_free hfree hl)) (by omega) rfl
    (fun j => setBlock_typeAt fs i q b j) (fun p' => setBlock_slot fs i q b p')
    (fun c => setBlk_ocupado (fs.setBlock i q b) hbits c) fun c => ?_
  rw [setRef_referencias _ (by omega) (by omega)]
  by_cases hc : c = b
  · simp [hc, ht]
  · simp [hc]

/-- A free block becomes the block of a new directory slot. -/
theorem reserveDir (h : fs.Accounts live) {i q b : ℕ} (hp : (i, q) ∉ live) (hi : i < itabSize)
    (hq : q < inodeNumBlks) (ht : fs.typeAt i = .fsDir) (hb10 : 10 ≤ b) (hbits : b < bmapBits)
    (hfree : fs.ocupado b = false) :
    ((fs.setBlk b).setBlock i q b).Accounts (insert (i, q) live) := by
  have hr0 := h.refs_of_free hfree
  refine h.insert_slot hp ⟨hi, hq⟩ hb10 (by simp [ht])
    (fun p' hl hs => absurd hs (h.slot_ne_of_free hfree hl)) (by omega) rfl
    (fun j => setBlock_typeAt _ i q b j) (fun p' => setBlock_slot _ i q b p')
    (fun c => setBlk_ocupado fs hbits c) fun c => ?_
  simp [ht]

/-- A file slot starts to name the block of another file slot. -/
theorem share (h : fs.Accounts live) {i q : ℕ} {p : ℕ × ℕ} (hn : (i, q) ∉ live)
    (hi : i < itabSize) (hq : q < inodeNumBlks) (ht : fs.typeAt i = .fsFile) (hp : p ∈ live)
    (htp : fs.typeAt p.1 = .fsFile) (hchar : fs.referencias (fs.slot p) < 127) :
    ((fs.setBlock i q (fs.slot p)).setRef (fs.slot p) (fs.referencias (fs.slot p) + 1)).Accounts
      (insert (i, q) live) := by
  have hpos := h.refs_pos hp htp
  refine h.insert_slot hn ⟨hi, hq⟩ (h.range p hp) (by simp [ht]) (fun p' hl hs => ⟨?_, ht⟩)
    hchar rfl (fun j => setBlock_typeAt fs i q _ j) (fun p' => setBlock_slot fs i q _ p')
    (fun c => ?_) fun c => ?_
  · rcases h.file_or_dir hl with hf | hd
    · exact hf
    · rw [← h.dirOwn p' hl p hp hd hs.symm, htp]
  · change fs.ocupado c = _
    by_cases hc : c = fs.slot p
    · simp [hc, h.ocupado hp]
    · simp [hc]
  · rw [setRef_referencias _ (by omega) (by omega)]
    by_cases hc : c = fs.slot p
    · simp [hc, ht]
    · simp [hc]

/-- The state `fs'` after a slot has stopped to count. The block it named keeps its
content and its mark unless the slot was the last one to name it. -/
theorem erase_slot {fs' : Fs} (h : fs.Accounts live) {p : ℕ × ℕ} (hp : p ∈ live)
    (hcoh : fs'.cache.Coherent) (hn : fs'.cache.disco.numBlocks = fs.cache.disco.numBlocks)
    (htype : ∀ j, fs'.typeAt j = fs.typeAt j) (hslot : ∀ p', fs'.slot p' = fs.slot p')
    (hocc : ∀ c, fs'.ocupado c = true ↔ fs.ocupado c = true ∧
      (c = fs.slot p → ∃ p' ∈ live, p' ≠ p ∧ fs.slot p' = c))
    (href : ∀ c, fs'.referencias c =
      if c = fs.slot p ∧ fs.typeAt p.1 = .fsFile then fs.referencias c - 1 else fs.referencias c)
    (hvalid : ∀ c, fs'.cache.Valid c → fs.cache.Valid c ∧
      (c = fs.slot p → ∃ p' ∈ live, p' ≠ p ∧ fs.typeAt p'.1 = .fsFile ∧ fs.slot p' = c)) :
    fs'.Accounts (live.erase p) := by
  refine ⟨⟨hcoh, hn.trans h.disco, fun p' hp' => h.bound p' (Finset.mem_of_mem_erase hp'),
    fun p' hp' => ?_, fun c hc => ?_, fun c hc => ?_, fun p' hp' => ?_,
    fun p₁ hp₁ p₂ hp₂ hd hs => ?_, fun c hv => ?_⟩, fun c => ?_, fun c => ?_⟩
  · rw [hslot]
    exact h.range p' (Finset.mem_of_mem_erase hp')
  · rw [hocc]
    refine ⟨h.reserved c hc, ?_⟩
    rintro rfl
    have := h.range p hp
    omega
  · rw [hocc, h.bits c hc]
    constructor
    · rintro ⟨⟨p', hl, hs⟩, hother⟩
      by_cases hpp : p' = p
      · subst hpp
        obtain ⟨p'', hl', hne, hs'⟩ := hother hs.symm
        exact ⟨p'', Finset.mem_erase.mpr ⟨hne, hl'⟩, by rw [hslot, hs']⟩
      · exact ⟨p', Finset.mem_erase.mpr ⟨hpp, hl⟩, by rw [hslot, hs]⟩
    · rintro ⟨p', hp', hs⟩
      rw [hslot] at hs
      obtain ⟨hne, hl⟩ := Finset.mem_erase.mp hp'
      exact ⟨⟨p', hl, hs⟩, fun _ => ⟨p', hl, hne, hs⟩⟩
  · rw [htype]
    exact h.typed p' (Finset.mem_of_mem_erase hp')
  · rw [htype] at hd
    rw [hslot, hslot] at hs
    exact h.dirOwn p₁ (Finset.mem_of_mem_erase hp₁) p₂ (Finset.mem_of_mem_erase hp₂) hd hs
  · obtain ⟨hv', hother⟩ := hvalid c hv
    obtain ⟨p', hl, h1, hs⟩ := h.valid c hv'
    by_cases hpp : p' = p
    · subst hpp
      obtain ⟨p'', hl', hne, h1', hs'⟩ := hother hs.symm
      exact ⟨p'', Finset.mem_erase.mpr ⟨hne, hl'⟩, by rw [htype, h1'], by rw [hslot, hs']⟩
    · exact ⟨p', Finset.mem_erase.mpr ⟨hpp, hl⟩, by rw [htype, h1], by rw [hslot, hs]⟩
  · have hfiles : fs'.fileSlots (live.erase p) c = (fs.fileSlots live c).erase p := by
      ext p'
      simp only [mem_fileSlots, Finset.mem_erase, htype, hslot, and_assoc]
    rw [href, hfiles, h.refs]
    split
    · rename_i hc
      have hmem : p ∈ fs.fileSlots live c := mem_fileSlots.mpr ⟨hp, hc.2, hc.1.symm⟩
      have hpos := Finset.card_pos.mpr ⟨p, hmem⟩
      rw [Finset.card_erase_of_mem hmem]
      omega
    · rename_i hc
      rw [Finset.erase_eq_of_notMem]
      intro hmem
      obtain ⟨-, h1, h2⟩ := mem_fileSlots.mp hmem
      exact hc ⟨h2.symm, h1⟩
  · have := h.char c
    rw [href]
    split <;> omega

end Accounts

end Fs

end ThreadScheduler.SnfsServer
