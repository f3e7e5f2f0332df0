import ThreadScheduler.Lib.Labelling
import ThreadScheduler.SnfsServer.CopyData
import ThreadScheduler.SnfsServer.TableWords

/-!
# Reference counters

`referencias` has one `char` for each block. The counters cover the slots of the files as long as
no call takes one past 127, whatever else has happened to the tables: the size of a file after an
append, or the bitmap after a copy of a file onto itself, may be wrong.
-/
namespace ThreadScheduler.SnfsServer

open Labelling

namespace Fs

/-- The slots of the files, up to their sizes. -/
def emFicheiros (fs : Fs) : Finset (ℕ × ℕ) :=
  (((Finset.range itabSize).filter fun i => fs.typeAt i = .fsFile) ×ˢ
    Finset.range inodeNumBlks).filter fun p => p.2 < offsetToBlocks (fs.sizeAt p.1)

/-- The slots of the files that name a block. -/
def nomeiam (fs : Fs) (b : ℕ) : Finset (ℕ × ℕ) := fibre fs.emFicheiros fs.slot b

/-- No block has more than 127 references, the counters are not below them, and a block that two
slots name is not freed when one of them goes. -/
structure SemEstouro (fs : Fs) : Prop where
  cabem : ∀ b, (fs.nomeiam b).card ≤ 127
  contados : ∀ b, ((fs.nomeiam b).card : ℤ) ≤ fs.referencias b
  apagados : ∀ b, 2 ≤ (fs.nomeiam b).card → ∀ i,
    (apagarBloco fs b i).ocupado b = fs.ocupado b

/-- The counters cover the slots of `live`, and none is past the range of a `char`. -/
structure Cobre (fs : Fs) (live : Finset (ℕ × ℕ)) : Prop where
  covers : Covers fs.referencias live fs.slot
  char : ∀ b, fs.referencias b ≤ 127

theorem mem_emFicheiros {fs : Fs} {i q : ℕ} : (i, q) ∈ fs.emFicheiros ↔
    (i < itabSize ∧ q < inodeNumBlks) ∧ fs.typeAt i = .fsFile ∧
      q < offsetToBlocks (fs.sizeAt i) := by
  simp only [emFicheiros, Finset.mem_filter, Finset.mem_product, Finset.mem_range]
  tauto

namespace Cobre

variable {fs fs' : Fs} {live live' : Finset (ℕ × ℕ)}

theorem semEstouro (h : fs.Cobre fs.emFicheiros) : fs.SemEstouro := by
  have hcard : ∀ b, ((fs.nomeiam b).card : ℤ) ≤ fs.referencias b := h.covers
  refine ⟨fun b => ?_, hcard, fun b hb i => ?_⟩
  · have := hcard b
    have := h.char b
    omega
  · have := hcard b
    rw [SnfsServer.apagarBloco]
    dsimp only
    rw [if_pos (by omega)]
    rfl

theorem mono (h : fs.Cobre live) (hsub : live' ⊆ live) : fs.Cobre live' :=
  ⟨h.covers.mono hsub, h.char⟩

theorem congr (h : fs.Cobre live) (hr : fs'.referencias = fs.referencias)
    (hs : ∀ p ∈ live, fs'.slot p = fs.slot p) : fs'.Cobre live :=
  ⟨hr ▸ h.covers.congr hs, hr ▸ h.char⟩

/-- A slot starts to name a block whose counter has room. -/
theorem nomear (h : fs.Cobre live) {i q b : ℕ} (hp : (i, q) ∉ live)
    (hb : fs.referencias b < 127) :
    ((fs.setBlock i q b).setRef b (fs.referencias b + 1)).Cobre (insert (i, q) live) := by
  have hnn := h.covers.nonneg b
  have hrefs : ∀ c, ((fs.setBlock i q b).setRef b (fs.referencias b + 1)).referencias c =
      if c = b then fs.referencias b + 1 else fs.referencias c := fun c => by
    rw [setRef_referencias _ (by omega) (by omega)]
    rfl
  have hslot : ∀ p, ((fs.setBlock i q b).setRef b (fs.referencias b + 1)).slot p =
      if p = (i, q) then b else fs.slot p := fun p => setBlock_slot fs i q b p
  constructor
  · refine h.covers.insert (fun p' hp' => ?_) fun c => ?_
    · rw [hslot, if_neg]
      rintro rfl
      exact hp hp'
    · rw [hslot, if_pos rfl, hrefs]
      split <;> simp_all
  · intro c
    have := h.char c
    rw [hrefs]
    split <;> omega

/-- `apagarBloco` lowers a counter that is not zero by one. -/
theorem apagarBloco_referencias {b i : ℕ} (h1 : 1 ≤ fs.referencias b)
    (h127 : fs.referencias b ≤ 127) (c : ℕ) : (apagarBloco fs b i).referencias c =
      if c = b then fs.referencias b - 1 else fs.referencias c := by
  rw [apagarBloco]
  dsimp only
  split
  · exact setRef_referencias _ (by omega) (by omega) c
  · rename_i hle
    have hone : fs.referencias b = 1 := by omega
    have hset : (fs.setRef b 0).referencias c = if c = b then 0 else fs.referencias c :=
      setRef_referencias fs le_rfl (by decide) c
    rw [hone, show (1 : ℤ) - 1 = 0 from rfl, ← hset, clrBlk_referencias]
    split
    · rfl
    · rfl

theorem apagarBloco (h : fs.Cobre live) {p : ℕ × ℕ} (hp : p ∈ live) (i : ℕ) :
    (SnfsServer.apagarBloco fs (fs.slot p) i).Cobre (live.erase p) := by
  have hrefs := apagarBloco_referencias (i := i) (h.covers.pos hp) (h.char (fs.slot p))
  have htab := apagarBloco_inodeTab fs (fs.slot p) i
  constructor
  · rw [slot_congr htab]
    refine h.covers.erase hp fun c => ?_
    rw [hrefs]
    split
    · rename_i hc
      rw [hc]
    · omega
  · intro c
    have := h.char c
    rw [hrefs]
    split
    · have := h.char (fs.slot p)
      omega
    · exact this

/-! ### The loops of `fs_copy` and `fs_append` -/

theorem libertarDestino (h : fs.Cobre live) (i n : ℕ) (hlive : ∀ r < n, (i, r) ∈ live) :
    (SnfsServer.libertarDestino fs i n).Cobre (live.filter fun p => ¬ (p.1 = i ∧ p.2 < n)) ∧
      (SnfsServer.libertarDestino fs i n).inodeTab = fs.inodeTab ∧
      ∀ b, (SnfsServer.libertarDestino fs i n).referencias b =
        fs.referencias b - fs.vezes i n b := by
  induction n with
  | zero =>
      refine ⟨h.mono (Finset.filter_subset _ _), rfl, fun b => ?_⟩
      simp [SnfsServer.libertarDestino, vezes]
  | succ n ih =>
      obtain ⟨hc, htab, hrefs⟩ := ih fun r hr => hlive r (by omega)
      have hstep : SnfsServer.libertarDestino fs i (n + 1) =
          SnfsServer.apagarBloco (SnfsServer.libertarDestino fs i n) (fs.slot (i, n)) i := by
        rw [← slot_congr htab, SnfsServer.libertarDestino, List.range_succ, List.foldl_append]
        rfl
      have hmem : (i, n) ∈ live.filter fun p => ¬ (p.1 = i ∧ p.2 < n) :=
        Finset.mem_filter.mpr ⟨hlive n (Nat.lt_succ_self n), by simp⟩
      have hslot : (SnfsServer.libertarDestino fs i n).slot (i, n) = fs.slot (i, n) := by
        rw [slot_congr htab]
      rw [hstep]
      refine ⟨?_, (apagarBloco_inodeTab _ _ _).trans htab, fun b => ?_⟩
      · rw [← hslot]
        refine (hc.apagarBloco hmem i).mono fun p hp => ?_
        obtain ⟨hl, hno⟩ := Finset.mem_filter.mp hp
        refine Finset.mem_erase.mpr ⟨?_, Finset.mem_filter.mpr ⟨hl, by omega⟩⟩
        rintro rfl
        exact hno ⟨rfl, Nat.lt_succ_self n⟩
      · have h1 := hc.covers.pos hmem
        rw [hslot] at h1
        rw [apagarBloco_referencias h1 (hc.char _), vezes_succ, hrefs, hrefs]
        by_cases hb : b = fs.slot (i, n)
        · rw [if_pos hb, if_pos hb.symm, hb]
          push_cast
          omega
        · rw [if_neg hb, if_neg fun he => hb he.symm]
          push_cast
          omega

theorem copiarReferencias_succ (fs : Fs) (de para base n : ℕ) :
    SnfsServer.copiarReferencias fs de para base (n + 1) =
      let fs₁ := SnfsServer.copiarReferencias fs de para base n
      (fs₁.setBlock para (base + n) (fs₁.slot (de, n))).setRef (fs₁.slot (de, n))
        (fs₁.referencias (fs₁.slot (de, n)) + 1) := by
  rw [SnfsServer.copiarReferencias, List.range_succ, List.foldl_append]
  rfl

theorem copiarReferencias (h : fs.Cobre live) (de para base n : ℕ)
    (hself : de = para → base = 0 ∨ n ≤ base) (hpara : ∀ r < n, (para, base + r) ∉ live)
    (hcabe : ∀ b, fs.referencias b + fs.vezes de n b ≤ 127) :
    (∃ live', (∀ p, p ∈ live' ↔ p ∈ live ∨ p.1 = para ∧ base ≤ p.2 ∧ p.2 < base + n) ∧
      (SnfsServer.copiarReferencias fs de para base n).Cobre live') ∧
      ∀ b, (SnfsServer.copiarReferencias fs de para base n).referencias b =
        fs.referencias b + fs.vezes de n b := by
  induction n with
  | zero =>
      refine ⟨⟨live, fun p => ?_, h⟩, fun b => by simp [SnfsServer.copiarReferencias, vezes]⟩
      exact ⟨.inl, fun hp => hp.resolve_right fun hq => by omega⟩
  | succ n ih =>
      have hv := vezes_succ fs de n
      obtain ⟨⟨live', hlive', hc⟩, hrefs⟩ := ih (fun he => (hself he).imp_right fun h => by omega)
        (fun r hr => hpara r (by omega)) fun b => by
          have := hcabe b
          rw [hv] at this
          push_cast at this
          split at this <;> omega
      have hslot : ∀ p, (SnfsServer.copiarReferencias fs de para base n).slot p = _ :=
        copiarReferencias_slot_of fs fun he => (hself he).imp_right fun h => by omega
      generalize hfs₁ : SnfsServer.copiarReferencias fs de para base n = fs₁ at hc hrefs hslot
      have hde : fs₁.slot (de, n) = fs.slot (de, n) := by
        rw [hslot]
        split
        · rename_i hp
          rcases hself hp.1 with h0 | hle
          · simp [h0]
          · exact absurd hp.2.1 (by dsimp only; omega)
        · rfl
      have hstep : SnfsServer.copiarReferencias fs de para base (n + 1) =
          (fs₁.setBlock para (base + n) (fs.slot (de, n))).setRef (fs.slot (de, n))
            (fs₁.referencias (fs.slot (de, n)) + 1) := by
        rw [← hde, ← hfs₁, copiarReferencias_succ]
      have hlt : fs₁.referencias (fs.slot (de, n)) < 127 := by
        have := hcabe (fs.slot (de, n))
        rw [hv, if_pos rfl] at this
        rw [hrefs]
        push_cast at this
        omega
      have hnn := hc.covers.nonneg (fs.slot (de, n))
      rw [hstep]
      refine ⟨⟨Insert.insert (para, base + n) live', fun p => ?_, hc.nomear ?_ hlt⟩, fun b => ?_⟩
      · obtain ⟨j, q⟩ := p
        rw [Finset.mem_insert, hlive', Prod.mk.injEq]
        constructor
        · rintro (⟨rfl, rfl⟩ | hp | ⟨hj, h1, h2⟩)
          · exact .inr ⟨rfl, by omega, by omega⟩
          · exact .inl hp
          · exact .inr ⟨hj, h1, by omega⟩
        · rintro (hp | ⟨hj, h1, h2⟩)
          · exact .inr (.inl hp)
          · by_cases hq : q = base + n
            · exact .inl ⟨hj, hq⟩
            · exact .inr (.inr ⟨hj, h1, by dsimp only at *; omega⟩)
      · rw [hlive']
        rintro (hp | ⟨-, -, hlt'⟩)
        · exact hpara n (Nat.lt_succ_self n) hp
        · exact absurd hlt' (Nat.lt_irrefl _)
      · rw [setRef_referencias _ (by omega) (by omega), setBlock_referencias, hv]
        by_cases hb : b = fs.slot (de, n)
        · rw [if_pos hb, if_pos hb.symm, hb, hrefs]
          push_cast
          omega
        · rw [if_neg hb, if_neg fun he => hb he.symm, hrefs]
          push_cast
          omega

end Cobre

/-! ### The loops of `fs_write` -/

/-- The bits of the bitmap that are clear. -/
def bitsLivres (fs : Fs) : Finset ℕ :=
  (Finset.range bmapBits).filter fun b => fs.ocupado b = false

/-- The next `k` blocks that `fsi_bmap_find_free` finds have a bit in the bitmap: the disk has no
more blocks than the bitmap has bits, or so many bits are clear. -/
def Chega (fs : Fs) (k : ℕ) : Prop := fs.numBlocks ≤ bmapBits ∨ k ≤ fs.bitsLivres.card

theorem mem_bitsLivres {fs : Fs} {b : ℕ} :
    b ∈ fs.bitsLivres ↔ b < bmapBits ∧ fs.ocupado b = false := by
  rw [bitsLivres, Finset.mem_filter, Finset.mem_range]

section Chega

variable {fs fs' : Fs} {j k : ℕ}

theorem Chega.mono (h : fs.Chega k) (hjk : j ≤ k) : fs.Chega j := h.imp_right hjk.trans

theorem Chega.congr (h : fs.Chega k) (hn : fs'.numBlocks = fs.numBlocks)
    (hb : fs'.blkBmap = fs.blkBmap) : fs'.Chega k := by
  have hocc : fs'.ocupado = fs.ocupado := funext fun b => by rw [ocupado, ocupado, hb]
  have hset : fs'.bitsLivres = fs.bitsLivres := by rw [bitsLivres, bitsLivres, hocc]
  exact h.imp hn.trans_le fun hk => hk.trans_eq (congrArg Finset.card hset.symm)

theorem Chega.lt (h : fs.Chega (k + 1)) {b : ℕ} (hb : fs.findFreeBlk = some b) : b < bmapBits := by
  rcases h with hn | hk
  · exact (fsiBmapFindFree_eq_some hb).1.trans_le hn
  · obtain ⟨c, hc⟩ := Finset.card_pos.mp ((Nat.succ_pos k).trans_le hk)
    obtain ⟨hlt, hfree⟩ := mem_bitsLivres.mp hc
    exact (fsiBmapFindFree_le hb hfree).trans_lt hlt

/-- If no block is free, the bitmap has a bit for each. -/
theorem Chega.cheio (h : fs.Chega (k + 1)) (hb : fs.findFreeBlk = none) :
    fs.numBlocks ≤ bmapBits := by
  rcases h with hn | hk
  · exact hn
  · obtain ⟨c, hc⟩ := Finset.card_pos.mp ((Nat.succ_pos k).trans_le hk)
    obtain ⟨hlt, hfree⟩ := mem_bitsLivres.mp hc
    by_contra hn
    have hocc := fsiBmapFindFree_eq_none.mp hb c (by omega)
    have hfree : bmapIsSet fs.blkBmap c = false := hfree
    rw [hocc] at hfree
    cases hfree

/-- One block is taken. -/
theorem Chega.ocupar (h : fs.Chega (k + 1)) {b : ℕ} (hn : fs'.numBlocks = fs.numBlocks)
    (hocc : ∀ c, fs'.ocupado c = (decide (c = b) || fs.ocupado c)) : fs'.Chega k := by
  refine h.imp (fun hle => hn ▸ hle) fun hk => ?_
  have herase : fs'.bitsLivres = fs.bitsLivres.erase b := by
    ext c
    rw [Finset.mem_erase, mem_bitsLivres, mem_bitsLivres, hocc, Bool.or_eq_false_iff,
      decide_eq_false_iff_not, and_left_comm]
  rw [herase]
  exact (Nat.le_sub_of_add_le hk).trans Finset.pred_card_le_card_erase

end Chega

/-- A read moves blocks through the cache. -/
theorem lerBloco_cache_numBlocks {fs fs' : Fs} {tipo : FsItype} {b : ℕ} {page : Block}
    (h : fs.lerBloco tipo b = some (fs', page)) :
    ∃ c, fs' = fs.withCache c ∧ c.disco.numBlocks = fs.cache.disco.numBlocks := by
  rw [Fs.lerBloco] at h
  split at h
  · obtain ⟨r, hr, he⟩ := Option.map_eq_some_iff.mp h
    exact ⟨r.1, (Prod.mk.inj he).1.symm, lerCache_numBlocks hr⟩
  · exact ⟨fs.cache, (Prod.mk.inj (Option.some.inj h)).1.symm, rfl⟩

/-- A free block has room for one more reference, and the next `k` blocks that are taken have
bits in the bitmap. -/
structure Folga (fs : Fs) (live : Finset (ℕ × ℕ)) (k : ℕ) : Prop extends Cobre fs live where
  livre : ∀ b < bmapBits, fs.ocupado b = false → fs.referencias b < 127
  chega : fs.Chega k

namespace Folga

variable {fs fs' : Fs} {live live' : Finset (ℕ × ℕ)} {k : ℕ}

theorem weaken (h : fs.Folga live k) {k' : ℕ} (hk : k' ≤ k) : fs.Folga live k' :=
  ⟨h.toCobre, h.livre, h.chega.mono hk⟩

theorem withCache (h : fs.Folga live k) {c : CacheT}
    (hc : c.disco.numBlocks = fs.cache.disco.numBlocks) : (fs.withCache c).Folga live k :=
  ⟨⟨h.covers, h.char⟩, h.livre, h.chega.congr hc rfl⟩

/-- The block that is found has a bit, and room for a reference. -/
theorem achado (h : fs.Folga live (k + 1)) {b : ℕ} (hb : fs.findFreeBlk = some b) :
    b < bmapBits ∧ fs.referencias b < 127 := by
  have hlt := h.chega.lt hb
  exact ⟨hlt, h.livre b hlt (fsiBmapFindFree_eq_some hb).2⟩

/-- A new slot takes a free block. -/
theorem tomar (h : fs.Folga live (k + 1)) {i q b : ℕ} (hp : (i, q) ∉ live)
    (hb : fs.findFreeBlk = some b) :
    (((fs.setBlock i q b).setBlk b).setRef b (fs.referencias b + 1)).Folga
      (insert (i, q) live) k := by
  obtain ⟨hbits, hlt⟩ := h.achado hb
  have hnn := h.covers.nonneg b
  have hocc : ∀ c, (((fs.setBlock i q b).setBlk b).setRef b (fs.referencias b + 1)).ocupado c =
      (decide (c = b) || fs.ocupado c) := setBlk_ocupado fs hbits
  refine ⟨(h.toCobre.nomear hp hlt).congr rfl fun _ _ => rfl, fun c hc hfree => ?_,
    h.chega.ocupar rfl hocc⟩
  rw [hocc, Bool.or_eq_false_iff, decide_eq_false_iff_not] at hfree
  rw [setRef_referencias _ (by omega) (by omega), if_neg hfree.1]
  exact h.livre c hc hfree.2

/-- A slot that shares its block takes a free one instead. -/
theorem mover (h : fs.Folga live (k + 1)) {p : ℕ × ℕ} {b : ℕ} (hp : p ∈ live)
    (hb : fs.findFreeBlk = some b) {fs' : Fs} (hn : fs'.numBlocks = fs.numBlocks)
    (hrefs : ∀ c, fs'.referencias c = fs.referencias c - (if c = fs.slot p then 1 else 0) +
      if c = b then 1 else 0)
    (hslot : ∀ p', fs'.slot p' = if p' = p then b else fs.slot p')
    (hocc : fs'.blkBmap = (fs.setBlk b).blkBmap) : fs'.Folga live k := by
  obtain ⟨hbits, hlt⟩ := h.achado hb
  have hocc' : ∀ c, fs'.ocupado c = (decide (c = b) || fs.ocupado c) := fun c => by
    rw [ocupado, hocc, ← ocupado, setBlk_ocupado fs hbits]
  refine ⟨⟨?_, fun c => ?_⟩, fun c hc hfree => ?_, h.chega.ocupar hn hocc'⟩
  · refine h.covers.relabel hp (fun p' hp' => by rw [hslot, if_neg hp']) fun c => ?_
    rw [hrefs, hslot p, if_pos rfl]
  · have := h.char c
    rw [hrefs]
    by_cases hcb : c = b
    · rw [if_pos hcb]
      rw [← hcb] at hlt
      split <;> omega
    · rw [if_neg hcb]
      split <;> omega
  · rw [hocc', Bool.or_eq_false_iff, decide_eq_false_iff_not] at hfree
    have := h.livre c hc hfree.2
    rw [hrefs, if_neg hfree.1]
    split <;> omega

theorem lerBloco (h : fs.Folga live k) {tipo : FsItype} {b : ℕ} {page : Block}
    (hr : fs.lerBloco tipo b = some (fs', page)) : fs'.Folga live k := by
  obtain ⟨c, rfl, hc⟩ := lerBloco_cache_numBlocks hr
  exact h.withCache hc

/-- A private copy takes a free block at most. -/
theorem copyOnWrite (h : fs.Folga live (k + 1)) {i q : ℕ} (hq : q < inodeNumBlks)
    (hlive : ∀ r ≤ q, (i, r) ∈ live) {n : ℤ}
    (hr : SnfsServer.copyOnWrite fs (fs.slot (i, q)) i = some (fs', n)) : fs'.Folga live k := by
  have hle := h.weaken (Nat.le_succ k)
  obtain ⟨j, hfind, hjq, hsj, -⟩ := Accounts.find_slot fs (i := i) hq
  have hpos := h.covers.pos (hlive q le_rfl)
  rw [SnfsServer.copyOnWrite] at hr
  simp only at hr
  split at hr
  · obtain ⟨rfl, -⟩ := Prod.mk.inj (Option.some.inj hr)
    exact hle
  split at hr
  · obtain ⟨rfl, -⟩ := Prod.mk.inj (Option.some.inj hr)
    exact hle
  rename_i h0 h1
  obtain ⟨⟨fs₁, block⟩, hler, hr⟩ := Option.bind_eq_some_iff.mp hr
  have hF₁ := h.lerBloco hler
  obtain ⟨c, rfl, hcn⟩ := lerBloco_cache_numBlocks hler
  simp only at hr
  split at hr
  · obtain ⟨rfl, -⟩ := Prod.mk.inj (Option.some.inj hr)
    exact hF₁.weaken (Nat.le_succ k)
  rename_i b hb
  have hlt := (hF₁.achado hb).2
  have hnn := hF₁.covers.nonneg b
  rw [withCache_referencias] at hlt hnn
  have hfind' : (List.range inodeNumBlks).find? (fun r =>
      (((fs.withCache c).setBlk b).inodeTab i).blocks r = fs.slot (i, q)) = some j := hfind
  rw [hfind'] at hr
  simp only at hr
  obtain ⟨rfl, -⟩ := Prod.mk.inj (Option.some.inj hr)
  -- the counters of the two blocks, which may be the same one
  have hmove : ∀ fs₂, fs₂ = (((fs.withCache c).setBlk b).setBlock i j b).setRef b
      (fs.referencias b + 1) →
      (fs₂.setRef (fs.slot (i, q)) (fs₂.referencias (fs.slot (i, q)) - 1)).Folga live k := by
    rintro fs₂ rfl
    have hb₁ : ∀ x, ((((fs.withCache c).setBlk b).setBlock i j b).setRef b
        (fs.referencias b + 1)).referencias x =
          if x = b then fs.referencias b + 1 else fs.referencias x :=
      setRef_referencias _ (by omega) (by omega)
    have hchar := h.char (fs.slot (i, q))
    refine hF₁.mover (hlive j hjq) hb rfl (fun x => ?_) (fun p => setBlock_slot _ i j b p) rfl
    have ha : 0 ≤ ((((fs.withCache c).setBlk b).setBlock i j b).setRef b
        (fs.referencias b + 1)).referencias (fs.slot (i, q)) - 1 ∧
        ((((fs.withCache c).setBlk b).setBlock i j b).setRef b
        (fs.referencias b + 1)).referencias (fs.slot (i, q)) - 1 ≤ 127 := by
      rw [hb₁]
      split <;> omega
    rw [setRef_referencias _ ha.1 ha.2, hb₁, hb₁, withCache_slot, hsj]
    generalize fs.slot (i, q) = a
    by_cases hx : x = a
    · subst hx
      by_cases hxb : x = b
      · simp [hxb]
      · simp [hxb]
    · by_cases hxb : x = b
      · subst hxb
        simp [hx]
      · simp [hx, hxb]
  split
  · exact (hmove _ rfl).withCache (escreverCache_numBlocks _ _ _)
  · exact (hmove _ rfl).withCache (CacheT.writeDisk_numBlocks _ _ _)

theorem gravarBloco (h : fs.Folga live (k + 1)) {i q : ℕ} (hq : q < inodeNumBlks)
    (hlive : ∀ r ≤ q, (i, r) ∈ live) {block : Block}
    (hr : fs.gravarBloco i (fs.slot (i, q)) block = some fs') : fs'.Folga live k := by
  rw [Fs.gravarBloco] at hr
  split at hr
  · obtain ⟨⟨fs₁, n⟩, hcow, rfl⟩ := Option.map_eq_some_iff.mp hr
    have hF := h.copyOnWrite hq hlive hcow
    dsimp only
    split
    · exact hF.withCache (CacheT.writeDisk_numBlocks _ _ _)
    · exact hF.withCache (escreverCache_numBlocks _ _ _)
  · obtain rfl := Option.some.inj hr
    exact (h.weaken (Nat.le_succ k)).withCache (CacheT.writeDisk_numBlocks _ _ _)

theorem reservarBlocos (file n i : ℕ) (h : fs.Folga live (n + k))
    (hnew : ∀ q, i ≤ q → (file, q) ∉ live) :
    ∃ live', live ⊆ live' ∧ (SnfsServer.reservarBlocos file n i fs).1.Folga live' k ∧
      ((SnfsServer.reservarBlocos file n i fs).2 = true →
        ∀ q, i ≤ q → q < i + n → (file, q) ∈ live') := by
  induction n generalizing fs live i with
  | zero =>
      exact ⟨live, Finset.Subset.refl _, h.weaken (by omega), fun _ q h1 h2 => by omega⟩
  | succ n ih =>
      rw [SnfsServer.reservarBlocos]
      split
      · exact ⟨live, Finset.Subset.refl _, h.weaken (by omega), fun he => Bool.noConfusion he⟩
      · rename_i b hb
        have htomar := Folga.tomar (k := n + k) (by rwa [Nat.add_right_comm] at h)
          (hnew i le_rfl) hb
        obtain ⟨live', hsub, hF, hall⟩ := ih (i + 1) htomar fun q hq hm => by
          rcases Finset.mem_insert.mp hm with he | hm
          · have := (Prod.mk.inj he).2
            omega
          · exact hnew q (by omega) hm
        refine ⟨live', fun p hp => hsub (Finset.mem_insert_of_mem hp), hF, fun hok q h1 h2 => ?_⟩
        by_cases hq : q = i
        · rw [hq]
          exact hsub (Finset.mem_insert_self _ _)
        · exact hall hok q (by omega) (by omega)

/-- Every slot that is written through may take one block. -/
theorem escreverExistentes {file offset count : ℕ} {buffer : ℕ → Byte} (n : ℕ)
    {num iblock num' iblock' : ℕ} {block block' : Block} (h : fs.Folga live (n + k))
    (hn : iblock + n ≤ inodeNumBlks) (hlive : ∀ q < iblock + n, (file, q) ∈ live)
    (hr : SnfsServer.escreverExistentes file offset count buffer n fs num iblock block =
      some (fs', num', iblock', block')) :
    fs'.Folga live (iblock + n - iblock' + k) ∧ iblock ≤ iblock' ∧ iblock' ≤ iblock + n := by
  induction n generalizing fs num iblock block with
  | zero =>
      obtain ⟨rfl, he⟩ := Prod.mk.inj (Option.some.inj hr)
      obtain ⟨-, he⟩ := Prod.mk.inj he
      obtain ⟨rfl, -⟩ := Prod.mk.inj he
      exact ⟨h.weaken (by omega), le_rfl, le_rfl⟩
  | succ n ih =>
      rw [SnfsServer.escreverExistentes] at hr
      split at hr
      · obtain ⟨rfl, he⟩ := Prod.mk.inj (Option.some.inj hr)
        obtain ⟨-, he⟩ := Prod.mk.inj he
        obtain ⟨rfl, -⟩ := Prod.mk.inj he
        exact ⟨h.weaken (by omega), le_rfl, by omega⟩
      · obtain ⟨⟨fs₁, page⟩, hler, hr⟩ := Option.bind_eq_some_iff.mp hr
        obtain ⟨fs₂, hgr, hr⟩ := Option.bind_eq_some_iff.mp hr
        have hF₁ := h.lerBloco hler
        rw [Nat.add_right_comm] at hF₁
        have hF₂ := hF₁.gravarBloco (q := iblock) (by omega)
          (fun r hr => hlive r (by omega)) hgr
        obtain ⟨hF, hle, hle'⟩ := ih hF₂ (by omega) (fun q hq => hlive q (by omega)) hr
        exact ⟨hF.weaken (by omega), by omega, by omega⟩

theorem escreverReservados {file count : ℕ} {buffer : ℕ → Byte} (n : ℕ) {num iblock num' : ℕ}
    {block : Block} (h : fs.Folga live (n + k)) (hn : iblock + n ≤ inodeNumBlks ∨ n = 0)
    (hlive : ∀ q < iblock + n, (file, q) ∈ live)
    (hr : SnfsServer.escreverReservados file count buffer n fs num iblock block =
      some (fs', num')) : fs'.Folga live k := by
  induction n generalizing fs num iblock block with
  | zero =>
      obtain ⟨rfl, -⟩ := Prod.mk.inj (Option.some.inj hr)
      exact h.weaken (by omega)
  | succ n ih =>
      rw [SnfsServer.escreverReservados] at hr
      split at hr
      · obtain ⟨rfl, -⟩ := Prod.mk.inj (Option.some.inj hr)
        exact h.weaken (by omega)
      · obtain ⟨fs₁, hgr, hr⟩ := Option.bind_eq_some_iff.mp hr
        rw [Nat.add_right_comm] at h
        have hF₁ := h.gravarBloco (q := iblock) (by omega) (fun r hr => hlive r (by omega)) hgr
        exact ih hF₁ (by omega) (fun q hq => hlive q (by omega)) hr

end Folga

end Fs

end ThreadScheduler.SnfsServer
