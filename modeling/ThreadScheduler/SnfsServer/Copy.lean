import ThreadScheduler.SnfsServer.Write

/-!
# Copying files

`fs_copy` releases the blocks of the destination and gives it the block numbers of the
source, so both name the same blocks afterwards. The counters are `char`s: the copy is
exact as long as no block gets more than 127 references.
-/
namespace ThreadScheduler.SnfsServer

namespace Fs

/-- How many of the first `n` slots of an i-node name a block. -/
def vezes (fs : Fs) (i n b : ℕ) : ℕ := ((Finset.range n).filter fun r => fs.slot (i, r) = b).card

/-- The references a block has from slots of `live` and gets from `n` slots of an i-node
fit in a `char`. -/
def Cabe (fs : Fs) (live : Finset (ℕ × ℕ)) (i n : ℕ) : Prop :=
  ∀ b, (fs.fileSlots live b).card + fs.vezes i n b ≤ 127

theorem vezes_succ (fs : Fs) (i n b : ℕ) :
    fs.vezes i (n + 1) b = fs.vezes i n b + if fs.slot (i, n) = b then 1 else 0 := by
  rw [vezes, vezes, Finset.range_add_one, Finset.filter_insert]
  split
  · rw [Finset.card_insert_of_notMem (by simp)]
  · rfl

/-! ## Releasing the destination -/

/-- The loop of `fs_copy` takes the slots of the destination out of the accounts. -/
theorem libertarDestino_spec {fs : Fs} {live : Finset (ℕ × ℕ)} (h : fs.Accounts live) (i n : ℕ)
    (hlive : ∀ r < n, (i, r) ∈ live) :
    (libertarDestino fs i n).Accounts (live.filter fun p => ¬ (p.1 = i ∧ p.2 < n)) ∧
      (libertarDestino fs i n).inodeTab = fs.inodeTab ∧
      (libertarDestino fs i n).inodeBmap = fs.inodeBmap ∧
      ∀ p ∈ live, ¬ (p.1 = i ∧ p.2 < n) → (libertarDestino fs i n).pagina p = fs.pagina p := by
  induction n with
  | zero =>
      refine ⟨?_, rfl, rfl, fun _ _ _ => rfl⟩
      rw [Finset.filter_true_of_mem fun p _ => by omega]
      exact h
  | succ n ih =>
      obtain ⟨hacc, htab, hbmap, hpag⟩ := ih fun r hr => hlive r (by omega)
      have hmem : (i, n) ∈ live.filter fun p => ¬ (p.1 = i ∧ p.2 < n) :=
        Finset.mem_filter.mpr ⟨hlive n (by omega), by simp⟩
      obtain ⟨hacc', htab', hbmap', hpag'⟩ := hacc.apagarBloco hmem
      have hstep : libertarDestino fs i (n + 1) = apagarBloco (libertarDestino fs i n)
          ((libertarDestino fs i n).slot (i, n)) i := by
        simp only [libertarDestino, List.range_succ, List.foldl_append, List.foldl_cons,
          List.foldl_nil]
        rfl
      have hsplit : ∀ p : ℕ × ℕ, (p.1 = i ∧ p.2 < n + 1) ↔ p = (i, n) ∨ (p.1 = i ∧ p.2 < n) := by
        rintro ⟨j, r⟩
        simp only [Prod.mk.injEq]
        omega
      rw [hstep]
      refine ⟨?_, htab'.trans htab, hbmap'.trans hbmap, fun p hp hno => ?_⟩
      · convert hacc' using 1
        ext p
        simp only [Finset.mem_filter, Finset.mem_erase, hsplit]
        tauto
      · rw [hsplit, not_or] at hno
        rw [hpag' p (Finset.mem_erase.mpr ⟨hno.1, Finset.mem_filter.mpr ⟨hp, hno.2⟩⟩),
          hpag p hp hno.2]

/-! ## Sharing the blocks of the source -/

/-- The loop that copies references makes slots of `para` name the blocks of slots of `de`,
which live file slots name already. -/
theorem copiarReferencias_spec {fs : Fs} {live : Finset (ℕ × ℕ)} (h : fs.Accounts live)
    (de para base n : ℕ) (htp : fs.typeAt para = .fsFile)
    (hde : ∀ i < n, ∃ p ∈ live, fs.typeAt p.1 = .fsFile ∧ fs.slot p = fs.slot (de, i))
    (hpara : ∀ i < n, (para, base + i) ∉ live) (hself : de = para → base = 0 ∨ n ≤ base)
    (hp : para < itabSize) (hn : base + n ≤ inodeNumBlks) (hcabe : fs.Cabe live de n) :
    ∃ live', (∀ p, p ∈ live' ↔ p ∈ live ∨ p.1 = para ∧ base ≤ p.2 ∧ p.2 < base + n) ∧
      (copiarReferencias fs de para base n).Accounts live' ∧
      SameInodes fs (copiarReferencias fs de para base n) ∧
      (copiarReferencias fs de para base n).cache = fs.cache ∧
      ∀ p, (copiarReferencias fs de para base n).slot p =
        if p.1 = para ∧ base ≤ p.2 ∧ p.2 < base + n then fs.slot (de, p.2 - base)
        else fs.slot p := by
  induction n with
  | zero =>
      refine ⟨live, fun p => ⟨.inl, fun hq => hq.elim id fun hno => ?_⟩, h, SameInodes.refl fs, rfl,
        fun p => (if_neg ?_).symm⟩ <;> omega
  | succ n ih =>
      obtain ⟨live', hlive', hacc, hsame, hcache, hslot⟩ := ih (fun i hi => hde i (by omega))
        (fun i hi => hpara i (by omega)) (fun he => by have := hself he; omega) (by omega)
        fun b => by
          have := hcabe b
          rw [vezes_succ] at this
          omega
      generalize hfs₁ : copiarReferencias fs de para base n = fs₁ at hacc hsame hcache hslot
      -- the slot that is read has not been written by the loop
      have hread : fs₁.slot (de, n) = fs.slot (de, n) := by
        rw [hslot]
        split
        · rename_i hin
          obtain ⟨he, h1, h2⟩ := hin
          have hbase : base = 0 := by
            have := hself he
            simp only at h1 h2
            omega
          rw [hbase, Nat.sub_zero]
        · rfl
      obtain ⟨p, hpl, htd, hps⟩ := hde n (by omega)
      have hps₁ : fs₁.slot p = fs₁.slot (de, n) := by
        rw [hread, ← hps, hslot, if_neg]
        rintro ⟨hp1, hp2, hp3⟩
        refine hpara (p.2 - base) (by omega) ?_
        rw [Nat.add_sub_cancel' hp2, ← hp1]
        exact hpl
      have hnew : (para, base + n) ∉ live' := by
        rw [hlive', not_or]
        exact ⟨hpara n (by omega), by simp⟩
      -- the references so far: those of `live` and those the loop has added
      have hrefs : fs₁.referencias (fs₁.slot (de, n)) < 127 := by
        have hcard : fs₁.fileSlots live' (fs.slot (de, n)) ⊆ fs.fileSlots live (fs.slot (de, n)) ∪
            ((Finset.range n).filter fun r => fs.slot (de, r) = fs.slot (de, n)).image
              fun r => (para, base + r) := by
          rintro ⟨j, q⟩ hq
          obtain ⟨hl, ht, hs⟩ := mem_fileSlots.mp hq
          rw [hsame.type] at ht
          rw [hslot] at hs
          rw [Finset.mem_union]
          by_cases hin : j = para ∧ base ≤ q ∧ q < base + n
          · rw [if_pos hin] at hs
            refine .inr (Finset.mem_image.mpr ⟨q - base, Finset.mem_filter.mpr ⟨?_, hs⟩, ?_⟩)
            · exact Finset.mem_range.mpr (by omega)
            · rw [Nat.add_sub_cancel' hin.2.1, hin.1]
          · rw [if_neg hin] at hs
            exact .inl (mem_fileSlots.mpr ⟨((hlive' _).mp hl).resolve_right hin, ht, hs⟩)
        have h1 := (Finset.card_le_card hcard).trans (Finset.card_union_le _ _)
        have h2 : (((Finset.range n).filter fun r => fs.slot (de, r) = fs.slot (de, n)).image
            fun r => (para, base + r)).card ≤ fs.vezes de n (fs.slot (de, n)) :=
          Finset.card_image_le
        have h3 := hcabe (fs.slot (de, n))
        rw [vezes_succ, if_pos rfl] at h3
        rw [hread, hacc.refs]
        omega
      have hshare := hacc.share hnew hp (by omega) ((hsame.type para).trans htp)
        ((hlive' p).mpr (.inl hpl)) ((hsame.type p.1).trans htd) (by rw [hps₁]; exact hrefs)
      rw [hps₁] at hshare
      have hstep : copiarReferencias fs de para base (n + 1) =
          (fs₁.setBlock para (base + n) (fs₁.slot (de, n))).setRef (fs₁.slot (de, n))
            (fs₁.referencias (fs₁.slot (de, n)) + 1) := by
        simp only [copiarReferencias, List.range_succ, List.foldl_append, List.foldl_cons,
          List.foldl_nil] at hfs₁ ⊢
        rw [hfs₁]
        rfl
      rw [hstep]
      refine ⟨_, fun p => ?_, hshare, hsame.trans
        ((SameInodes.setBlock fs₁ _ _ _).trans (SameInodes.of_tab rfl rfl)), hcache,
        fun p => ?_⟩
      · obtain ⟨j, q⟩ := p
        rw [Finset.mem_insert, hlive']
        simp only [Prod.mk.injEq]
        constructor
        · rintro (⟨rfl, rfl⟩ | hm | ⟨rfl, h1, h2⟩)
          · exact .inr ⟨rfl, by omega, by omega⟩
          · exact .inl hm
          · exact .inr ⟨rfl, h1, by omega⟩
        · rintro (hm | ⟨rfl, h1, h2⟩)
          · exact .inr (.inl hm)
          · by_cases hq : q = base + n
            · exact .inl ⟨rfl, hq⟩
            · exact .inr (.inr ⟨rfl, h1, by omega⟩)
      · obtain ⟨j, q⟩ := p
        rw [setRef_slot, setBlock_slot, hread, hslot]
        by_cases hq : (j, q) = (para, base + n)
        · obtain ⟨rfl, rfl⟩ := Prod.mk.inj hq
          rw [if_pos rfl, if_pos ⟨rfl, by omega, by omega⟩, Nat.add_sub_cancel_left]
        · rw [if_neg hq]
          refine if_congr ⟨fun ⟨h1, h2, h3⟩ => ⟨h1, h2, by omega⟩, fun ⟨h1, h2, h3⟩ => ⟨h1, h2, ?_⟩⟩
            rfl rfl
          have : q ≠ base + n := fun he => hq (Prod.ext h1 he)
          simp only at h2 h3
          omega

/-! ## The call -/

/-- The slots in use outside a file. -/
def foraDe (fs : Fs) (i : ℕ) : Finset (ℕ × ℕ) := fs.emUso.filter fun p => p.1 ≠ i

/-- What `fs_copy` of file `de` over file `para` does. -/
structure Copiado (fs fs' : Fs) (de para : ℕ) : Prop where
  origem : fs.typeAt de = .fsFile
  destino : fs.typeAt para = .fsFile
  inodeBmap : fs'.inodeBmap = fs.inodeBmap
  type : ∀ j, fs'.typeAt j = fs.typeAt j
  size : ∀ j, fs'.sizeAt j = if j = para then fs.sizeAt de else fs.sizeAt j
  slot : ∀ p, p.1 ≠ para → fs'.slot p = fs.slot p
  partilha : ∀ q < offsetToBlocks (fs.sizeAt de), fs'.slot (para, q) = fs.slot (de, q)
  pagina : ∀ p ∈ fs.emUso, p.1 ≠ para → fs'.pagina p = fs.pagina p
  copia : ∀ q < offsetToBlocks (fs.sizeAt de), fs'.pagina (para, q) = fs.pagina (de, q)
  consistent : fs'.Consistent

theorem Copiado.bytes {fs fs' : Fs} {de para : ℕ} (h : Copiado fs fs' de para) :
    fs'.bytes para = fs.bytes de := by
  simp only [Fs.bytes, h.size, if_true]
  refine List.map_congr_left fun k hk => ?_
  have hk' := List.mem_range.mp hk
  have hq : k / blockSize < offsetToBlocks (fs.sizeAt de) := by
    rw [lt_offsetToBlocks]
    simp only [blockSize]
    omega
  simp only [byteFicheiro, h.copia _ hq]

theorem Copiado.distintos {fs fs' : Fs} {de para : ℕ} (h : Copiado fs fs' de para)
    (hc : fs.Consistent) (hd : fs.Distintos fs.emUso) : fs'.Distintos fs'.emUso := by
  intro i q q' ht hq hq' hs
  have hq := h.consistent.lt_of_mem hq
  have hq' := h.consistent.lt_of_mem hq'
  rw [h.size] at hq hq'
  by_cases hi : i = para
  · subst hi
    rw [if_pos rfl] at hq hq'
    rw [h.partilha q hq, h.partilha q' hq'] at hs
    exact hd de q q' h.origem (hc.mem_emUso_iff.mpr hq) (hc.mem_emUso_iff.mpr hq') hs
  · rw [if_neg hi] at hq hq'
    rw [h.type] at ht
    rw [h.slot _ hi, h.slot _ hi] at hs
    exact hd i q q' ht (hc.mem_emUso_iff.mpr hq) (hc.mem_emUso_iff.mpr hq') hs

theorem Distintos.mono {fs : Fs} {live live' : Finset (ℕ × ℕ)} (hd : fs.Distintos live)
    (hsub : live' ⊆ live) : fs.Distintos live' :=
  fun i q q' ht hq hq' => hd i q q' ht (hsub hq) (hsub hq')

/-- A block has at most one reference from each i-node. -/
theorem Distintos.card_fileSlots_le {fs : Fs} {live : Finset (ℕ × ℕ)} (hd : fs.Distintos live)
    (hb : ∀ p ∈ live, p.1 < itabSize) (b : ℕ) : (fs.fileSlots live b).card ≤ itabSize := by
  rw [← Finset.card_range itabSize]
  refine Finset.card_le_card_of_injOn Prod.fst (fun p hp => ?_) fun p hp p' hp' he => ?_
  · exact Finset.mem_coe.mpr (Finset.mem_range.mpr (hb p (mem_fileSlots.mp hp).1))
  · obtain ⟨hl, htp, hs⟩ := mem_fileSlots.mp hp
    obtain ⟨hl', -, hs'⟩ := mem_fileSlots.mp hp'
    obtain ⟨i, q⟩ := p
    obtain ⟨i', q'⟩ := p'
    obtain rfl : i = i' := he
    rw [hd i q q' htp hl hl' (hs.trans hs'.symm)]

theorem Distintos.vezes_le_one {fs : Fs} {live : Finset (ℕ × ℕ)} (hd : fs.Distintos live)
    {i n : ℕ} (ht : fs.typeAt i = .fsFile) (hlive : ∀ q < n, (i, q) ∈ live) (b : ℕ) :
    fs.vezes i n b ≤ 1 := by
  refine Finset.card_le_one.mpr fun q hq q' hq' => ?_
  obtain ⟨hq, hs⟩ := Finset.mem_filter.mp hq
  obtain ⟨hq', hs'⟩ := Finset.mem_filter.mp hq'
  exact hd i q q' ht (hlive q (Finset.mem_range.mp hq)) (hlive q' (Finset.mem_range.mp hq'))
    (hs.trans hs'.symm)

/-- A file that names no block twice always fits: there are only 64 i-nodes. -/
theorem Distintos.cabe_live {fs : Fs} (h : fs.Consistent) (hd : fs.Distintos fs.emUso)
    {live : Finset (ℕ × ℕ)} (hsub : live ⊆ fs.emUso) {i : ℕ} (ht : fs.typeAt i = .fsFile) :
    fs.Cabe live i (offsetToBlocks (fs.sizeAt i)) := by
  intro b
  have h1 := (hd.mono hsub).card_fileSlots_le (fun p hp => (h.acc.bound p (hsub hp)).1) b
  have h2 := hd.vezes_le_one ht (fun q hq => h.mem_emUso_iff.mpr hq) b
  simp only [itabSize] at h1
  omega

theorem Distintos.cabe {fs : Fs} (h : fs.Consistent) (hd : fs.Distintos fs.emUso) {de para : ℕ}
    (ht : fs.typeAt de = .fsFile) :
    fs.Cabe (fs.foraDe para) de (offsetToBlocks (fs.sizeAt de)) :=
  hd.cabe_live h (Finset.filter_subset _ _) ht

/-- The blocks of `de` are still named by file slots once `para` has let its blocks go. -/
def Partilha (fs : Fs) (de para : ℕ) : Prop :=
  ∀ q < offsetToBlocks (fs.sizeAt de),
    ∃ p ∈ fs.foraDe para, fs.typeAt p.1 = .fsFile ∧ fs.slot p = fs.slot (de, q)

instance (fs : Fs) (de para : ℕ) : Decidable (fs.Partilha de para) := by
  unfold Partilha
  infer_instance

theorem Consistent.partilha {fs : Fs} (h : fs.Consistent) {de para : ℕ} (hne : de ≠ para)
    (ht : fs.typeAt de = .fsFile) : fs.Partilha de para := fun q hq =>
  ⟨(de, q), Finset.mem_filter.mpr ⟨h.mem_emUso_iff.mpr hq, hne⟩, ht, rfl⟩

/-- The copy of a file over another one, or over itself. -/
theorem fsCopyInodes_spec {fs : Fs} (h : fs.Consistent) {de para : ℕ}
    (hpart : fs.typeAt para = .fsFile → fs.Partilha de para) (ht : fs.typeAt de = .fsFile)
    (hcabe : fs.typeAt para = .fsFile →
      fs.Cabe (fs.foraDe para) de (offsetToBlocks (fs.sizeAt de))) :
    fsCopyInodes fs de para = (fs, -1) ∨
      ∃ fs', fsCopyInodes fs de para = (fs', 0) ∧ Copiado fs fs' de para := by
  rw [fsCopyInodes]
  split
  · exact .inl rfl
  rename_i hfile
  right
  have htp : fs.typeAt para = .fsFile := not_not.mp hfile
  have hlt := h.lt_of_alocado (h.alocado_of_type (i := para) (by simp [htp]))
  have hsizep : (fs.inodeTab para).size = fs.sizeAt para := rfl
  -- the destination lets its blocks go
  obtain ⟨hacc₁, htab₁, hbmap₁, hpag₁⟩ := libertarDestino_spec h.acc para
    (offsetToBlocks (fs.sizeAt para)) fun r hr => h.mem_emUso_iff.mpr hr
  rw [hsizep]
  generalize libertarDestino fs para (offsetToBlocks (fs.sizeAt para)) = fs₁ at *
  have hlive₁ : (fs.emUso.filter fun p => ¬ (p.1 = para ∧ p.2 < offsetToBlocks (fs.sizeAt para))) =
      fs.foraDe para := by
    refine Finset.filter_congr fun p hp => ?_
    have := h.lt_of_mem (i := p.1) (q := p.2) hp
    constructor
    · rintro hno rfl
      exact hno ⟨rfl, this⟩
    · exact fun hp' he => hp' he.1
  rw [hlive₁] at hacc₁
  have htype₁ := typeAt_congr htab₁
  have hsize₁ := sizeAt_congr htab₁
  have hslot₁ := slot_congr htab₁
  have hsized : (fs₁.inodeTab de).size = fs.sizeAt de := by rw [htab₁]; rfl
  have hmem : ∀ p : ℕ × ℕ, p ∈ fs.foraDe para ↔ p ∈ fs.emUso ∧ p.1 ≠ para := fun p =>
    Finset.mem_filter
  -- and takes those of the source
  obtain ⟨live', hlive', hacc₂, hsame₂, hcache₂, hslot₂⟩ := copiarReferencias_spec hacc₁
    de para 0 (offsetToBlocks (fs.sizeAt de)) (by rw [htype₁, htp])
    (fun i hi => by simpa only [htype₁, hslot₁] using hpart htp i hi)
    (fun i _ hm => ((hmem _).mp hm).2 rfl) (fun _ => .inl rfl) hlt
    (by have := h.offsetToBlocks_le de; omega)
    fun b => by
      have := hcabe htp b
      simpa only [vezes, fileSlots, htype₁, hslot₁] using this
  simp only [hsized]
  generalize copiarReferencias fs₁ de para 0 (offsetToBlocks (fs.sizeAt de)) = fs₂ at *
  have hslot : ∀ p, (fs₂.setSize para (fs.sizeAt de)).slot p =
      if p.1 = para ∧ p.2 < offsetToBlocks (fs.sizeAt de) then fs.slot (de, p.2)
      else fs.slot p := by
    intro p
    rw [setSize_slot, hslot₂, hslot₁]
    simp
  have hsize : ∀ j, (fs₂.setSize para (fs.sizeAt de)).sizeAt j =
      if j = para then fs.sizeAt de else fs.sizeAt j := by
    intro j
    rw [setSize_sizeAt, hsame₂.size, hsize₁]
  have htype : ∀ j, (fs₂.setSize para (fs.sizeAt de)).typeAt j = fs.typeAt j := by
    intro j
    rw [setSize_typeAt, hsame₂.type, htype₁]
  have hbmap : (fs₂.setSize para (fs.sizeAt de)).inodeBmap = fs.inodeBmap :=
    hsame₂.inodeBmap.trans hbmap₁
  have ha : ∀ j, (fs₂.setSize para (fs.sizeAt de)).alocado j = fs.alocado j := fun j => by
    rw [alocado, alocado, hbmap]
  have huso : (fs₂.setSize para (fs.sizeAt de)).emUso = live' := by
    ext ⟨j, r⟩
    rw [hlive', hmem, mem_emUso, ha, hsize]
    by_cases hj : j = para
    · subst hj
      have hal := h.alocado_of_type (i := j) (by simp [htp])
      have := h.offsetToBlocks_le de
      simp [hal, hlt]
      omega
    · simp [hj, mem_emUso]
  -- the blocks that stay keep their content
  have hstay : ∀ p ∈ fs.foraDe para,
      fs₂.cache.conteudo (fs.slot p) = fs.pagina p := by
    intro p hp
    obtain ⟨hp, hne'⟩ := (hmem p).mp hp
    have := hpag₁ p hp fun he => hne' he.1
    rw [hcache₂, ← this, pagina, hslot₁]
  have hpag : ∀ p ∈ fs.emUso, p.1 ≠ para →
      (fs₂.setSize para (fs.sizeAt de)).pagina p = fs.pagina p := by
    intro p hp hp'
    rw [pagina, hslot, if_neg fun he => hp' he.1]
    exact hstay p ((hmem p).mpr ⟨hp, hp'⟩)
  have hdir : ∀ d, fs.typeAt d = .fsDir → d ≠ para := by
    rintro d hd rfl
    simp [htp] at hd
  refine ⟨_, rfl, ht, htp, hbmap, htype, hsize, fun p hp => by rw [hslot, if_neg fun he => hp he.1],
    fun q hq => by rw [hslot, if_pos ⟨rfl, hq⟩], hpag, fun q hq => ?_, ?_⟩
  · obtain ⟨p, hp, -, hs⟩ := hpart htp q hq
    rw [pagina, hslot, if_pos ⟨rfl, hq⟩, ← hs]
    exact (hstay p hp).trans (by rw [pagina, pagina, hs])
  · refine h.of_files hbmap htype (fun j hj => ?_) (fun j => ?_)
      (fun d hd q _ => by rw [hslot, if_neg fun he => hdir d hd he.1])
      (fun d hd q hq => hpag _ hq (hdir d hd)) ?_
    · rw [hsize, if_neg]
      rintro rfl
      exact hj htp
    · rw [hsize]
      split
      · exact h.inodes.full de
      · exact h.inodes.full j
    · rw [huso]
      exact hacc₂.congr rfl rfl rfl (fun p _ => setSize_typeAt _ _ _ _)
        fun p _ => setSize_slot _ _ _ _

/-- The i-node of the destination while `fs_copy` runs: the one its name gives, or the one
it creates. -/
inductive DestinoDe (fs fs₁ : Fs) (d : ℕ) (nome : List Byte) (n : ℕ) : Prop where
  | achado (h : fs.resolve d nome = some n) (he : fs₁ = fs)
  | criado (h : Criado .fsFile fs fs₁ d nome n)

/-- `fs_copy` either refuses the call or copies between the i-nodes of the two names. -/
theorem fsCopy_spec {fs : Fs} (h : fs.Consistent) (d₁ : ℕ) (nome₁ : CString) (d₂ : ℕ)
    (nome₂ : CString)
    (hpart : ∀ n, fs.resolve d₁ nome₁.val = some n → fs.resolve d₂ nome₂.val = some n →
      fs.typeAt n = .fsFile → fs.Partilha n n)
    (hcabe : ∀ fs₁ de para, fs₁.Consistent → fs.resolve d₁ nome₁.val = some de →
      fs.typeAt de = .fsFile → DestinoDe fs fs₁ d₂ nome₂.val para → fs₁.typeAt para = .fsFile →
      fs₁.Cabe (fs₁.foraDe para) de (offsetToBlocks (fs₁.sizeAt de))) :
    fsCopy fs d₁ nome₁ d₂ nome₂ = some (fs, -1) ∨
      ∃ fs₁ fs' de para, fsCopy fs d₁ nome₁ d₂ nome₂ = some (fs', 0) ∧
        fs.resolve d₁ nome₁.val = some de ∧ fs.typeAt de = .fsFile ∧
        DestinoDe fs fs₁ d₂ nome₂.val para ∧ Copiado fs₁ fs' de para := by
  rw [fsCopy]
  by_cases hargs : itabSize ≤ d₁ ∨ badName nome₁
  · exact .inl (if_pos hargs)
  rw [if_neg hargs]
  by_cases hset₁ : (!bmapIsSet fs.inodeBmap d₁) = true
  · exact .inl (if_pos hset₁)
  rw [if_neg hset₁]
  by_cases hdir₁ : (fs.inodeTab d₁).type ≠ .fsDir
  · exact .inl (if_pos hdir₁)
  rw [if_neg hdir₁]
  have ht₁ : fs.typeAt d₁ = .fsDir := not_not.mp hdir₁
  rw [h.fsiDirSearch_eq ht₁ nome₁.property, Option.bind_some]
  cases hde : fs.procura d₁ nome₁.val with
  | none => exact .inl rfl
  | some de =>
      simp only
      by_cases hfile : (fs.inodeTab de).type ≠ .fsFile
      · exact .inl (if_pos hfile)
      rw [if_neg hfile]
      by_cases hname : badName nome₂
      · exact .inl (if_pos hname)
      rw [if_neg hname]
      by_cases hset₂ : (!bmapIsSet fs.inodeBmap d₂) = true
      · exact .inl (if_pos hset₂)
      rw [if_neg hset₂]
      by_cases hdir₂ : (fs.inodeTab d₂).type ≠ .fsDir
      · exact .inl (if_pos hdir₂)
      rw [if_neg hdir₂]
      have htde : fs.typeAt de = .fsFile := not_not.mp hfile
      have ht₂ : fs.typeAt d₂ = .fsDir := not_not.mp hdir₂
      have hres₁ : fs.resolve d₁ nome₁.val = some de := by rw [resolve_of_dir ht₁, hde]
      rw [h.fsiDirSearch_eq ht₂ nome₂.property, Option.bind_some]
      cases hpara : fs.procura d₂ nome₂.val with
      | some para =>
          have hres₂ : fs.resolve d₂ nome₂.val = some para := by rw [resolve_of_dir ht₂, hpara]
          have hpart' : fs.typeAt para = .fsFile → fs.Partilha de para := by
            intro htp
            by_cases he : de = para
            · subst he
              exact hpart de hres₁ hres₂ htp
            · exact h.partilha he htde
          rcases fsCopyInodes_spec h hpart' htde
            (hcabe fs de para h hres₁ htde (.achado hres₂ rfl)) with hr | ⟨fs', hr, hcop⟩
          · exact .inl (by rw [← hr])
          · exact .inr ⟨fs, fs', de, para, by rw [← hr], hres₁, htde, .achado hres₂ rfl, hcop⟩
      | none =>
          rcases fsCriar_spec h .fsFile (by decide) d₂ nome₂ with
            ⟨hr, -⟩ | ⟨fs₁, n, hr, hcr⟩
          · exact .inl (by simp [fsCreate, hr])
          · right
            have hproc : fs₁.procura d₂ nome₂.val = some n := by
              have hnone : (fs.entradas d₂).find? (fun e => e.1 = nome₂.val) = none :=
                Option.map_eq_none_iff.mp hpara
              simp [procura, hcr.entradas, List.find?_append, hnone]
            have hn₂ : d₂ ≠ n :=
              hcr.ne_of_alocado (h.alocado_of_type (by simp [ht₂]))
            have hnde : de ≠ n :=
              hcr.ne_of_alocado (h.alocado_of_type (by simp [htde]))
            have ht₂' : fs₁.typeAt d₂ = .fsDir := by rw [hcr.type, if_neg hn₂, ht₂]
            have htde' : fs₁.typeAt de = .fsFile := by rw [hcr.type, if_neg hnde, htde]
            have htn : fs₁.typeAt n = .fsFile := by rw [hcr.type, if_pos rfl]
            simp only [fsCreate, hr, Option.bind_some,
              hcr.consistent.fsiDirSearch_eq ht₂' nome₂.property, hproc]
            rcases fsCopyInodes_spec hcr.consistent (fun _ => hcr.consistent.partilha hnde htde')
              htde'
              (hcabe fs₁ de n hcr.consistent hres₁ htde (.criado hcr)) with hr' | ⟨fs', hr', hcop⟩
            · exfalso
              have htn' : (fs₁.inodeTab n).type = .fsFile := htn
              simp [fsCopyInodes, htn'] at hr'
            · exact ⟨fs₁, fs', de, n, by rw [← hr'], hres₁, htde, .criado hcr, hcop⟩

/-- A name that resolves is one that the checks of the calls accept. -/
theorem Consistent.of_resolve {fs : Fs} (h : fs.Consistent) {d n : ℕ} {nome : CString}
    (hr : fs.resolve d nome.val = some n) :
    d < itabSize ∧ bmapIsSet fs.inodeBmap d = true ∧ fs.typeAt d = .fsDir ∧ ¬ badName nome ∧
      fs.procura d nome.val = some n := by
  have ht : fs.typeAt d = .fsDir := by
    by_contra hne
    simp [resolve, hne] at hr
  rw [resolve_of_dir ht] at hr
  have ha := h.alocado_of_type (i := d) (by simp [ht])
  have hok := (h.dirs d ht).entries _ (mem_of_procura hr)
  refine ⟨h.lt_of_alocado ha, ha, ht, fun hbad => ?_, hr⟩
  have hlen := hok.2.1
  rcases hbad with hb | hb
  · exact hok.1 (List.length_eq_zero_iff.mp hb)
  · simp only [fsMaxFnameSz] at *
    omega

/-- `fs_copy` of a file to a name that exists. -/
theorem fsCopy_of_resolve {fs : Fs} (h : fs.Consistent) {d₁ d₂ de para : ℕ}
    {nome₁ nome₂ : CString} (hde : fs.resolve d₁ nome₁.val = some de)
    (ht : fs.typeAt de = .fsFile) (hpara : fs.resolve d₂ nome₂.val = some para) :
    fsCopy fs d₁ nome₁ d₂ nome₂ = some (fsCopyInodes fs de para) := by
  obtain ⟨hlt₁, ha₁, ht₁, hn₁, hp₁⟩ := h.of_resolve hde
  obtain ⟨-, ha₂, ht₂, hn₂, hp₂⟩ := h.of_resolve hpara
  have ht₁' : (fs.inodeTab d₁).type = .fsDir := ht₁
  have ht₂' : (fs.inodeTab d₂).type = .fsDir := ht₂
  have ht' : (fs.inodeTab de).type = .fsFile := ht
  simp [fsCopy, Nat.not_le.mpr hlt₁, hn₁, hn₂, ha₁, ha₂, ht₁', ht₂', ht',
    h.fsiDirSearch_eq ht₁ nome₁.property, h.fsiDirSearch_eq ht₂ nome₂.property, hp₁, hp₂]

end Fs

end ThreadScheduler.SnfsServer
