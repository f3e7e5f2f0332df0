import ThreadScheduler.SnfsServer.Accounting

/-!
# The block operations of the file system

What `lerBloco`, `apagarBloco`, `copy_on_write` and `escreverBloco` do to the
accounts and to the pages behind the live slots. A write through a shared block
changes the page of one slot only.
-/
namespace ThreadScheduler.SnfsServer

namespace Fs

/-- The i-nodes keep their allocation, type and size. -/
structure SameInodes (fs fs' : Fs) : Prop where
  inodeBmap : fs'.inodeBmap = fs.inodeBmap
  type : ∀ j, fs'.typeAt j = fs.typeAt j
  size : ∀ j, fs'.sizeAt j = fs.sizeAt j

theorem SameInodes.refl (fs : Fs) : SameInodes fs fs := ⟨rfl, fun _ => rfl, fun _ => rfl⟩

theorem SameInodes.trans {fs fs' fs'' : Fs} (h : SameInodes fs fs') (h' : SameInodes fs' fs'') :
    SameInodes fs fs'' :=
  ⟨h'.inodeBmap.trans h.inodeBmap, fun j => (h'.type j).trans (h.type j),
    fun j => (h'.size j).trans (h.size j)⟩

theorem SameInodes.setBlock (fs : Fs) (i q b : ℕ) : SameInodes fs (fs.setBlock i q b) :=
  ⟨rfl, fs.setBlock_typeAt i q b, fs.setBlock_sizeAt i q b⟩

theorem SameInodes.of_tab {fs fs' : Fs} (hb : fs'.inodeBmap = fs.inodeBmap)
    (ht : fs'.inodeTab = fs.inodeTab) : SameInodes fs fs' :=
  ⟨hb, fun j => by rw [typeAt_congr ht], fun j => by rw [sizeAt_congr ht]⟩

theorem SameInodes.alocado {fs fs' : Fs} (h : SameInodes fs fs') (i : ℕ) :
    fs'.alocado i = fs.alocado i := by rw [Fs.alocado, Fs.alocado, h.inodeBmap]

/-! ## Reads -/

namespace Layout

variable {fs : Fs} {live : Finset (ℕ × ℕ)}

/-- Reading the block of a live slot answers its page and changes no page. -/
theorem lerBloco (h : fs.Layout live) {p : ℕ × ℕ} (hp : p ∈ live) :
    ∃ c, fs.lerBloco (fs.typeAt p.1) (fs.slot p) = some (fs.withCache c, fs.pagina p) ∧
      (fs.withCache c).Layout live ∧ c.conteudo = fs.cache.conteudo := by
  rcases h.file_or_dir hp with ht | ht
  · obtain ⟨c, hl, hc, hh⟩ := lerCache_holds h.coherent (h.slot_lt_disco hp)
    refine ⟨c, by simp [Fs.lerBloco, ht, hl, Fs.withCache, pagina], ?_, ?_⟩
    · refine h.withCache hc hh.numBlocks fun b hv => ?_
      rcases hh.valid hv with rfl | hv'
      · exact .inr ⟨p, hp, ht, rfl⟩
      · exact .inl hv'
    · rw [hh.conteudo, Function.update_eq_self]
  · refine ⟨fs.cache, ?_, h, rfl⟩
    simp only [Fs.lerBloco, ht, reduceCtorEq, if_false, Fs.readDisk, pagina,
      blockRead_of_lt (h.slot_lt_disco hp),
      CacheT.conteudo_of_not_valid (h.not_valid_of_dir hp ht)]
    rfl

/-- A directory block is read from disk, and the state stays the same. -/
theorem lerBloco_dir (h : fs.Layout live) {p : ℕ × ℕ} (hp : p ∈ live)
    (ht : fs.typeAt p.1 = .fsDir) :
    fs.lerBloco .fsDir (fs.slot p) = some (fs, fs.pagina p) := by
  simp only [Fs.lerBloco, reduceCtorEq, if_false, Fs.readDisk, pagina,
    blockRead_of_lt (h.slot_lt_disco hp), CacheT.conteudo_of_not_valid (h.not_valid_of_dir hp ht)]

end Layout

namespace Accounts

variable {fs : Fs} {live : Finset (ℕ × ℕ)}

theorem lerBloco (h : fs.Accounts live) {p : ℕ × ℕ} (hp : p ∈ live) :
    ∃ c, fs.lerBloco (fs.typeAt p.1) (fs.slot p) = some (fs.withCache c, fs.pagina p) ∧
      (fs.withCache c).Accounts live ∧ c.conteudo = fs.cache.conteudo := by
  obtain ⟨c, hl, hlay, hc⟩ := h.toLayout.lerBloco hp
  exact ⟨c, hl, h.of_layout hlay, hc⟩

/-! ### Writes -/

/-- Writing the only reference of a file block. -/
theorem escreverCache (h : fs.Accounts live) {p : ℕ × ℕ} (hp : p ∈ live)
    (ht : fs.typeAt p.1 = .fsFile) (data : Block) :
    (fs.escreverCache (fs.slot p) data).Accounts live ∧
      (fs.escreverCache (fs.slot p) data).cache.conteudo =
        Function.update fs.cache.conteudo (fs.slot p) data := by
  obtain ⟨-, hc, hh⟩ := escreverCache_holds h.coherent (h.slot_lt_disco hp) data
  refine ⟨h.withCache hc hh.numBlocks fun b hv => ?_, hh.conteudo⟩
  rcases hh.valid hv with rfl | hv'
  · exact .inr ⟨p, hp, ht, rfl⟩
  · exact .inl hv'

/-- Writing a disk block that no file uses. -/
theorem writeDisk (h : fs.Accounts live) {b : ℕ} (hv : ¬ fs.cache.Valid b) (data : Block) :
    (fs.writeDisk b data).Accounts live :=
  h.withCache (h.coherent.writeDisk data hv) (CacheT.writeDisk_numBlocks _ _ _) fun _ => .inl

/-- Writing a directory block changes the page of its slot only. -/
theorem writeDisk_dir (h : fs.Accounts live) {p : ℕ × ℕ} (hp : p ∈ live)
    (ht : fs.typeAt p.1 = .fsDir) (data : Block) :
    (fs.writeDisk (fs.slot p) data).Accounts live ∧
      (fs.writeDisk (fs.slot p) data).pagina p = data ∧
      ∀ p' ∈ live, p' ≠ p → (fs.writeDisk (fs.slot p) data).pagina p' = fs.pagina p' := by
  have hv := h.not_valid_of_dir hp ht
  refine ⟨h.writeDisk hv data, ?_, fun p' hp' hne => ?_⟩
  · exact CacheT.writeDisk_conteudo_self data (h.slot_lt_disco hp) hv
  · exact CacheT.writeDisk_conteudo_of_ne _ data fun hs => hne (h.dirOwn p hp p' hp' ht hs)

theorem refs_of_lt (h : fs.Accounts live) {b : ℕ} (hb : b < 10) : fs.referencias b = 0 := by
  have : fs.fileSlots live b = ∅ := by
    ext p
    simp only [mem_fileSlots, Finset.notMem_empty, iff_false, not_and]
    rintro hp - rfl
    have := h.range p hp
    omega
  rw [h.refs, this]
  rfl

/-- A block without references is written in place. -/
theorem escreverBloco_of_refs_zero {b i : ℕ} (hr : fs.referencias b = 0)
    (ht : fs.typeAt i = .fsDir) (data : Block) :
    escreverBloco fs b i data = some (fs.writeDisk b data) := by
  have ht' : (fs.inodeTab i).type = .fsDir := ht
  simp [escreverBloco, copyOnWrite, hr, ht']

/-! ### Releasing a block -/

/-- `apagarBloco` on the block of a slot takes the slot out of the accounts. -/
theorem apagarBloco (h : fs.Accounts live) {p : ℕ × ℕ} (hp : p ∈ live) :
    (apagarBloco fs (fs.slot p) p.1).Accounts (live.erase p) ∧
      (apagarBloco fs (fs.slot p) p.1).inodeTab = fs.inodeTab ∧
      (apagarBloco fs (fs.slot p) p.1).inodeBmap = fs.inodeBmap ∧
      ∀ p' ∈ live.erase p, (apagarBloco fs (fs.slot p) p.1).pagina p' = fs.pagina p' := by
  have hchar := h.char (fs.slot p)
  simp only [SnfsServer.apagarBloco]
  split
  · -- other slots still name the block: only the counter goes down
    rename_i hr
    obtain ⟨p', hl, hne, ht', hs⟩ := h.exists_other hr
    have ht : fs.typeAt p.1 = .fsFile := by
      rcases h.file_or_dir hp with ht | ht
      · exact ht
      · rw [h.refs_of_dir hp ht] at hr
        omega
    refine ⟨h.erase_slot hp h.coherent rfl (fun _ => rfl) (fun _ => rfl) (fun c => ?_)
      (fun c => ?_) (fun c hv => ?_), rfl, rfl, fun _ _ => rfl⟩
    · exact ⟨fun ho => ⟨ho, fun hc => ⟨p', hl, hne, hs.trans hc.symm⟩⟩, And.left⟩
    · rw [setRef_referencias _ (by omega) (by omega)]
      by_cases hc : c = fs.slot p <;> simp [hc, ht]
    · exact ⟨hv, fun hc => ⟨p', hl, hne, ht', hs.trans hc.symm⟩⟩
  · -- the last reference: the block is cleared and freed
    rename_i hr
    have honly : ∀ p' ∈ live, p' ≠ p → fs.slot p' ≠ fs.slot p := by
      intro p' hl hne hs
      exact hne (h.eq_of_refs_le_one hp hl (by omega) hs)
    have hrefs : ∀ c, ((fs.setRef (fs.slot p) 0).referencias c) =
        if c = fs.slot p ∧ fs.typeAt p.1 = .fsFile then fs.referencias c - 1
        else fs.referencias c := by
      intro c
      rw [setRef_referencias _ le_rfl (by omega)]
      by_cases hc : c = fs.slot p
      · subst hc
        rcases h.file_or_dir hp with ht | ht
        · have := h.refs_pos hp ht
          simp [ht]
          omega
        · simp [ht, h.refs_of_dir hp ht]
      · simp [hc]
    -- both branches leave a cache without a valid entry for the block
    obtain ⟨c, hif, hcoh, hnum, hval, hcont⟩ : ∃ c : CacheT,
        (if ((fs.setRef (fs.slot p) 0).inodeTab p.1).type = .fsDir then
            (fs.setRef (fs.slot p) 0).writeDisk (fs.slot p) nullBlock
          else { (fs.setRef (fs.slot p) 0) with
            cache := eliminarBlocoCache (fs.setRef (fs.slot p) 0).cache (fs.slot p) }) =
          (fs.setRef (fs.slot p) 0).withCache c ∧ c.Coherent ∧
        c.disco.numBlocks = fs.cache.disco.numBlocks ∧
        (∀ b, c.Valid b → b ≠ fs.slot p ∧ fs.cache.Valid b) ∧
        ∀ b, b ≠ fs.slot p → c.conteudo b = fs.cache.conteudo b := by
      rcases h.file_or_dir hp with ht | ht
      · have ht' : (fs.inodeTab p.1).type = .fsFile := ht
        refine ⟨eliminarBlocoCache fs.cache (fs.slot p), by simp [ht', Fs.withCache],
          eliminarBlocoCache_coherent h.coherent _, eliminarBlocoCache_numBlocks _ _,
          fun b => (eliminarBlocoCache_valid _ _ _).mp, fun b hb => ?_⟩
        rw [eliminarBlocoCache_conteudo (h.slot_lt_disco hp), Function.update_of_ne hb]
      · have ht' : (fs.inodeTab p.1).type = .fsDir := ht
        have hv := h.not_valid_of_dir hp ht
        refine ⟨fs.cache.writeDisk (fs.slot p) nullBlock, by simp [ht', Fs.writeDisk_eq],
          h.coherent.writeDisk _ hv, CacheT.writeDisk_numBlocks _ _ _, fun b hb => ⟨?_, hb⟩,
          fun b hb => CacheT.writeDisk_conteudo_of_ne _ _ hb⟩
        rintro rfl
        exact hv hb
    rw [hif]
    refine ⟨h.erase_slot hp hcoh hnum (fun _ => rfl) (fun _ => rfl) (fun c' => ?_)
      (fun c' => hrefs c') (fun c' hv => ?_), rfl, rfl, fun p' hp' => ?_⟩
    · rw [clrBlk_ocupado]
      simp only [Bool.and_eq_true, Bool.not_eq_true', decide_eq_false_iff_not]
      constructor
      · rintro ⟨hne, ho⟩
        exact ⟨ho, fun hc => absurd hc hne⟩
      · rintro ⟨ho, hother⟩
        refine ⟨fun hc => ?_, ho⟩
        obtain ⟨p', hl, hne, hs⟩ := hother hc
        exact honly p' hl hne (hs.trans hc)
    · exact ⟨(hval c' hv).2, fun hc => absurd hc (hval c' hv).1⟩
    · obtain ⟨hne, hl⟩ := Finset.mem_erase.mp hp'
      exact hcont _ (honly p' hl hne)

/-- The loops that release a block also clear its slot. -/
theorem apagarBloco_clear (h : fs.Accounts live) {i q : ℕ} (hp : (i, q) ∈ live) :
    ((SnfsServer.apagarBloco fs (fs.slot (i, q)) i).setBlock i q 0).Accounts (live.erase (i, q)) ∧
      SameInodes fs ((SnfsServer.apagarBloco fs (fs.slot (i, q)) i).setBlock i q 0) ∧
      (∀ p, ((SnfsServer.apagarBloco fs (fs.slot (i, q)) i).setBlock i q 0).slot p =
        if p = (i, q) then 0 else fs.slot p) ∧
      ∀ p ∈ live.erase (i, q),
        ((SnfsServer.apagarBloco fs (fs.slot (i, q)) i).setBlock i q 0).pagina p =
          fs.pagina p := by
  obtain ⟨hacc, htab, hbmap, hpag⟩ := h.apagarBloco hp
  have hslot : ∀ p, ((SnfsServer.apagarBloco fs (fs.slot (i, q)) i).setBlock i q 0).slot p =
      if p = (i, q) then 0 else fs.slot p := by
    intro p
    rw [setBlock_slot, slot_congr htab]
  refine ⟨hacc.setBlock_dead (by simp) 0, (SameInodes.of_tab hbmap htab).trans
    (SameInodes.setBlock _ i q 0), hslot, fun p hp' => ?_⟩
  rw [← hpag p hp', pagina, pagina, hslot, if_neg (Finset.mem_erase.mp hp').1, slot_congr htab]
  rfl

/-! ### Writing a block of a file -/

/-- The first slot of a file that names the block of slot `q`. -/
theorem find_slot (fs : Fs) {i q : ℕ} (hq : q < inodeNumBlks) :
    ∃ k, (List.range inodeNumBlks).find? (fun r => (fs.inodeTab i).blocks r = fs.slot (i, q)) =
        some k ∧ k ≤ q ∧ fs.slot (i, k) = fs.slot (i, q) ∧
      ∀ r < k, fs.slot (i, r) ≠ fs.slot (i, q) := by
  cases hf : (List.range inodeNumBlks).find?
      (fun r => (fs.inodeTab i).blocks r = fs.slot (i, q)) with
  | none =>
      rw [List.find?_eq_none] at hf
      have := hf q (List.mem_range.mpr hq)
      simp [slot] at this
  | some k =>
      obtain ⟨hk, -, hlt⟩ := List.find?_range_eq_some.mp hf
      refine ⟨k, rfl, ?_, of_decide_eq_true hk, fun r hr => ?_⟩
      · by_contra hgt
        have := hlt q (by omega)
        simp [slot] at this
      · exact of_decide_eq_false (Bool.not_eq_true' _ |>.mp (hlt r hr))

/-- The private copy: slot `k` moves from a shared block to a free one. -/
theorem moveSlot (h : fs.Accounts live) {i k b : ℕ} (hp : (i, k) ∈ live)
    (ht : fs.typeAt i = .fsFile) (hr : 1 < fs.referencias (fs.slot (i, k))) (hb10 : 10 ≤ b)
    (hbits : b < bmapBits) (hfree : fs.ocupado b = false) :
    ((((fs.setBlk b).setBlock i k b).setRef b (fs.referencias b + 1)).setRef (fs.slot (i, k))
      (fs.referencias (fs.slot (i, k)) - 1)).Accounts live := by
  have hchar := h.char (fs.slot (i, k))
  have hne : b ≠ fs.slot (i, k) := fun he => h.slot_ne_of_free hfree hp he.symm
  obtain ⟨p', hl, hp', ht', hs⟩ := h.exists_other hr
  -- the slot leaves the shared block ...
  have herase : (fs.setRef (fs.slot (i, k)) (fs.referencias (fs.slot (i, k)) - 1)).Accounts
      (live.erase (i, k)) := by
    refine h.erase_slot hp h.coherent rfl (fun _ => rfl) (fun _ => rfl) (fun c => ?_)
      (fun c => ?_) (fun c hv => ?_)
    · exact ⟨fun ho => ⟨ho, fun hc => ⟨p', hl, hp', hs.trans hc.symm⟩⟩, And.left⟩
    · rw [setRef_referencias _ (by omega) (by omega)]
      by_cases hc : c = fs.slot (i, k) <;> simp [hc, ht]
    · exact ⟨hv, fun hc => ⟨p', hl, hp', ht', hs.trans hc.symm⟩⟩
  -- ... and takes the free one
  have hins := herase.reserve (i := i) (q := k) (b := b) (by simp) (h.bound _ hp).1
    (h.bound _ hp).2 ht hb10 hbits hfree
  rw [Finset.insert_erase hp] at hins
  refine hins.congr rfl ?_ rfl (fun _ _ => rfl) (fun _ _ => rfl)
  have hb : (fs.setRef (fs.slot (i, k)) (fs.referencias (fs.slot (i, k)) - 1)).referencias b =
      fs.referencias b := by
    simp [setRef, hne]
  rw [hb]
  simp only [setRef, setBlk_referencias, setBlock_referencias]
  exact Function.update_comm hne _ _ _

/-- Writing the block of slot `q` of a file gives the new page to the first slot of the
file that names the block, which keeps its block or moves to a free one, and shares it with no
slot; every other page stays. -/
theorem escreverBloco (h : fs.Accounts live) {i q : ℕ} (hq : q < inodeNumBlks)
    (hlive : ∀ r ≤ q, (i, r) ∈ live) (ht : fs.typeAt i = .fsFile) (dados : Block) :
    ∃ fs' k, SnfsServer.escreverBloco fs (fs.slot (i, q)) i dados = some fs' ∧
      fs'.Accounts live ∧ SameInodes fs fs' ∧
      k ≤ q ∧ fs.slot (i, k) = fs.slot (i, q) ∧ (∀ r < k, fs.slot (i, r) ≠ fs.slot (i, q)) ∧
      (∀ p, p ≠ (i, k) → fs'.slot p = fs.slot p) ∧
      (fs'.slot (i, k) = fs.slot (i, k) ∨ fs.ocupado (fs'.slot (i, k)) = false) ∧
      fs'.pagina (i, k) = dados ∧
      (∀ p ∈ live, p ≠ (i, k) → fs'.pagina p = fs.pagina p) ∧
      ∀ p ∈ live, p ≠ (i, k) → fs'.slot p ≠ fs'.slot (i, k) := by
  obtain ⟨k, hfind, hkq, hsk, hfirst⟩ := find_slot fs (i := i) hq
  have hk := hlive k hkq
  have ht' : (fs.inodeTab i).type = .fsFile := ht
  have hpos := h.refs_pos hk ht
  by_cases hr : fs.referencias (fs.slot (i, q)) = 1
  · -- the only reference: the block is written in place
    obtain ⟨hacc, hcont⟩ := h.escreverCache hk ht dados
    have honly : ∀ p ∈ live, p ≠ (i, k) → fs.slot p ≠ fs.slot (i, k) := fun p hp hne hs =>
      hne (h.eq_of_refs_le_one hk hp (by rw [hsk, hr]) hs)
    refine ⟨fs.escreverCache (fs.slot (i, k)) dados, k, ?_, hacc, SameInodes.of_tab rfl rfl, hkq,
      hsk, hfirst, fun _ _ => rfl, .inl rfl, ?_, fun p hp hne => ?_, honly⟩
    · simp [SnfsServer.escreverBloco, copyOnWrite, hr, ht', hsk]
    · simp only [pagina, hcont]
      exact Function.update_self _ _ _
    · simp only [pagina, hcont]
      exact Function.update_of_ne (honly p hp hne) _ _
  · -- a shared block: the slot gets a private copy first
    rw [hsk] at hpos
    have hr1 : 1 < fs.referencias (fs.slot (i, q)) := by omega
    obtain ⟨c, hler, hacc₁, hcont₁⟩ := h.lerBloco (hlive q le_rfl)
    rw [ht] at hler
    obtain ⟨b, hfree, hb10, hbits, hocc⟩ := hacc₁.exists_free
    have hmove := hacc₁.moveSlot hk ht (by simpa [hsk] using hr1) hb10 hbits hocc
    simp only [withCache_slot, withCache_referencias, hsk] at hmove
    have hne : fs.slot (i, q) ≠ b := hacc₁.slot_ne_of_free hocc (hlive q le_rfl)
    generalize hfs₂ : (((((fs.withCache c).setBlk b).setBlock i k b).setRef b
      (fs.referencias b + 1)).setRef (fs.slot (i, q)) (fs.referencias (fs.slot (i, q)) - 1)) = fs₂
      at hmove
    have hslot₂ : ∀ p, fs₂.slot p = if p = (i, k) then b else fs.slot p := by
      intro p
      rw [← hfs₂]
      exact setBlock_slot ((fs.withCache c).setBlk b) i k b p
    have hsb : fs₂.slot (i, k) = b := by rw [hslot₂, if_pos rfl]
    have htype₂ : ∀ j, fs₂.typeAt j = fs.typeAt j := by
      intro j
      rw [← hfs₂]
      exact setBlock_typeAt ((fs.withCache c).setBlk b) i k b j
    have hsize₂ : ∀ j, fs₂.sizeAt j = fs.sizeAt j := by
      intro j
      rw [← hfs₂]
      exact setBlock_sizeAt ((fs.withCache c).setBlk b) i k b j
    obtain ⟨hacc₃, hcont₃⟩ := hmove.escreverCache hk (by rw [htype₂, ht]) (fs.pagina (i, q))
    obtain ⟨hacc₄, hcont₄⟩ := hacc₃.escreverCache (p := (i, k)) hk
      (by rw [escreverCache_eq, withCache_typeAt, htype₂, ht]) dados
    rw [hsb] at hacc₃ hcont₃ hacc₄ hcont₄
    have hs₃ : (fs₂.escreverCache b (fs.pagina (i, q))).slot = fs₂.slot := rfl
    rw [hs₃, hsb] at hacc₄ hcont₄
    have ht₂ : (fs₂.inodeTab i).type = .fsFile := (htype₂ i).trans ht
    have ht₃ : ((fs₂.escreverCache b (fs.pagina (i, q))).inodeTab i).type = .fsFile := ht₂
    refine ⟨(fs₂.escreverCache b (fs.pagina (i, q))).escreverCache b dados, k, ?_, hacc₄,
      ⟨by rw [← hfs₂]; rfl, htype₂, hsize₂⟩, hkq, hsk, hfirst, fun p hp => ?_,
      .inr ?_, ?_, fun p hp hpk => ?_, fun p hp hpk => ?_⟩
    · have hcow : copyOnWrite fs (fs.slot (i, q)) i =
          some (fs₂.escreverCache b (fs.pagina (i, q)), (b : ℤ)) := by
        have hr0 : fs.referencias (fs.slot (i, q)) ≠ 0 := by omega
        have hfind' : (List.range inodeNumBlks).find? (fun r =>
            (((fs.withCache c).setBlk b).inodeTab i).blocks r = fs.slot (i, q)) = some k := hfind
        have href : ((((fs.withCache c).setBlk b).setBlock i k b).setRef b
            (fs.referencias b + 1)).referencias (fs.slot (i, q)) =
            fs.referencias (fs.slot (i, q)) := by
          simp [setRef, hne]
        simp only [copyOnWrite, hr0, hr, if_false, ht', hler, Option.bind_some, hfree, hfind',
          setBlock_referencias, setBlk_referencias, withCache_referencias, href, hfs₂, ht₂, if_true]
      simp only [SnfsServer.escreverBloco, hcow, Option.map_some, ht₃]
      simp
    · change fs₂.slot p = _
      rw [hslot₂, if_neg hp]
    · change fs.ocupado (fs₂.slot (i, k)) = false
      rw [hsb]
      exact hocc
    · change ((fs₂.escreverCache b (fs.pagina (i, q))).escreverCache b dados).cache.conteudo
        (fs₂.slot (i, k)) = dados
      rw [hcont₄, hsb, Function.update_self]
    · have hpb : fs.slot p ≠ b := hacc₁.slot_ne_of_free hocc hp
      change ((fs₂.escreverCache b (fs.pagina (i, q))).escreverCache b dados).cache.conteudo
        (fs₂.slot p) = _
      rw [hcont₄, hslot₂, if_neg hpk, Function.update_of_ne hpb, hcont₃,
        Function.update_of_ne hpb, pagina, ← hcont₁, ← hfs₂]
      rfl
    · change fs₂.slot p ≠ fs₂.slot (i, k)
      rw [hsb, hslot₂, if_neg hpk]
      exact hacc₁.slot_ne_of_free hocc hp

end Accounts

end Fs

end ThreadScheduler.SnfsServer
