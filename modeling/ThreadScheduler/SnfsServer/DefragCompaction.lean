import ThreadScheduler.SnfsServer.CreateRemove
import ThreadScheduler.SnfsServer.DefragData

/-!
# What a defragmentation compacts

Without copies and appends a block has one slot. The slots that name a block are then the slots in
use, and the pass gives their blocks the numbers from 10 on, in the order of the slots.
-/
namespace ThreadScheduler.SnfsServer

/-- A list without duplicates, each element replaced by its place. -/
theorem map_idxOf_of_nodup {xs : List ℕ} (h : xs.Nodup) (a : ℕ) :
    xs.map (fun b => a + xs.idxOf b) = List.range' a xs.length := by
  refine List.ext_getElem (by simp) fun i h₁ h₂ => ?_
  rw [List.length_map] at h₁
  rw [List.getElem_map, List.getElem_range', h.idxOf_getElem, Nat.one_mul]

/-- Numbers replaced by numbers, where 0 stands for none. -/
theorem filter_map_ite {α : Type*} (s : α → ℕ) {g : ℕ → ℕ} (hg : ∀ b, g b ≠ 0) (ps : List α) :
    (ps.map fun p => if s p = 0 then 0 else g (s p)).filter (· ≠ 0) =
      ((ps.map s).filter (· ≠ 0)).map g := by
  induction ps with
  | nil => rfl
  | cons p ps ih =>
      by_cases h0 : s p = 0
      · simpa [h0] using ih
      · simpa [h0, hg] using ih

theorem eraseDups_of_nodup {xs : List ℕ} (h : xs.Nodup) : xs.eraseDups = xs := by
  induction xs with
  | nil => rfl
  | cons x xs ih =>
      obtain ⟨hx, hxs⟩ := List.nodup_cons.mp h
      rw [List.eraseDups_cons, List.filter_eq_self.mpr, ih hxs]
      intro y hy
      have : y ≠ x := fun he => hx (he ▸ hy)
      simpa using this

/-- A creation, a write or a removal. -/
def FsOp.SemCopia : FsOp → Prop
  | .create _ _ => True
  | .mkdir _ _ => True
  | .write _ _ _ _ _ => True
  | .remove _ _ => True
  | _ => False

namespace Fs

/-- The block numbers in the slots of i-nodes 1 to 63, in the order of the slots. -/
def numeros (fs : Fs) : List ℕ := (percurso.map fs.slot).filter (· ≠ 0)

/-- The blocks are the ones from 10 on, in the order of the slots, the bitmap marks no other, and
the disk holds behind each slot what it held. -/
structure Compactado (fs fs' : Fs) : Prop where
  numeros : fs'.numeros = List.range' 10 fs.numeros.length
  ocupado : ∀ b, 10 ≤ b → (fs'.ocupado b = true ↔ b ∈ fs'.numeros)
  mesmos : ∀ p ∈ percurso, fs'.slot p = 0 ↔ fs.slot p = 0
  disco : ∀ p ∈ percurso, fs.slot p ≠ 0 → fs'.noDisco p = fs.noDisco p

/-- No block has two slots, no slot past the end of its i-node holds a number, and every block
is one that `fs_defrag` looks at. -/
structure Sozinhos (fs : Fs) : Prop where
  consistent : fs.Consistent
  restos : fs.SemRestos
  refs : ∀ b, fs.referencias b ≤ 1
  baixo : ∀ p ∈ fs.emUso, fs.slot p < numBlocosMax

theorem nodup_percurso : percurso.Nodup := by
  rw [percurso, List.nodup_flatMap]
  refine ⟨fun z _ => List.nodup_range.map fun _ _ he => (Prod.mk.inj he).2, ?_⟩
  refine List.Pairwise.imp ?_ List.nodup_range'
  rintro z z' hne p hp hp'
  obtain ⟨q, -, rfl⟩ := List.mem_map.mp hp
  obtain ⟨q', -, he⟩ := List.mem_map.mp hp'
  exact hne (Prod.mk.inj he).1.symm

namespace Sozinhos

variable {fs fs' : Fs}

theorem unico (h : fs.Sozinhos) {p p' : ℕ × ℕ} (hp : p ∈ fs.emUso) (hp' : p' ∈ fs.emUso)
    (hs : fs.slot p' = fs.slot p) : p' = p := by
  rcases h.consistent.acc.file_or_dir hp with ht | ht
  · exact h.consistent.acc.eq_of_refs_le_one hp hp' (h.refs _) hs
  · exact h.consistent.acc.dirOwn p hp p' hp' ht hs

theorem distintos (h : fs.Sozinhos) : fs.Distintos fs.emUso := by
  intro i q q' _ hq hq' hs
  exact (Prod.mk.inj (h.unico hq' hq hs)).2

/-- The slots with a number are the slots in use. -/
theorem slot_ne_zero_iff (h : fs.Sozinhos) {p : ℕ × ℕ} (hp : p ∈ percurso) :
    fs.slot p ≠ 0 ↔ p ∈ fs.emUso := by
  obtain ⟨⟨h1, h64⟩, hq⟩ := mem_percurso.mp hp
  refine ⟨h.restos p h1 h64 hq, fun hl => ?_⟩
  have := h.consistent.acc.range p hl
  omega

theorem nodup_numeros (h : fs.Sozinhos) : fs.numeros.Nodup := by
  rw [numeros, List.filter_map]
  refine List.Nodup.map_on (fun p hp p' hp' hs => ?_) (nodup_percurso.filter _)
  obtain ⟨hp, h0⟩ := List.mem_filter.mp hp
  obtain ⟨hp', h0'⟩ := List.mem_filter.mp hp'
  have hl := (h.slot_ne_zero_iff hp).mp (by simpa using h0)
  have hl' := (h.slot_ne_zero_iff hp').mp (by simpa using h0')
  exact h.unico hl' hl hs

/-- The defragmentation compacts. -/
theorem compactado (h : fs.Sozinhos) (hb : ∃ b, 10 ≤ b ∧ fs.ocupado b = true) :
    ∃ fs', fsDefrag fs = (fs', 1) ∧ Compactado fs fs' := by
  have htem : fs.TemBlocos := by
    obtain ⟨b, h10, hocc⟩ := hb
    obtain ⟨p, hp, rfl⟩ := (h.consistent.acc.bits b h10).mp hocc
    exact ⟨_, h10, h.baixo p hp, hocc⟩
  obtain ⟨fs', hr, hd⟩ := h.consistent.fsDefrag_semRestos h.restos h.distintos htem
  have hordem : fs.ordem percurso = fs.numeros := eraseDups_of_nodup h.nodup_numeros
  -- a slot has its place as its number, or none as before
  have hslot : ∀ p ∈ percurso, fs'.slot p = if fs.slot p = 0 then 0 else fs.lugar (fs.slot p) := by
    intro p hp
    split
    · rename_i h0
      rw [hd.fora p (.inr h0), h0]
    · rename_i h0
      rw [hd.slot p ((h.slot_ne_zero_iff hp).mp h0), h.consistent.destino_eq_lugar h.restos]
  have hlugar : ∀ b, fs.lugar b = 10 + fs.numeros.idxOf b := fun b => by rw [lugar, hordem]
  have hnum : fs'.numeros = List.range' 10 fs.numeros.length := by
    rw [numeros, List.map_congr_left hslot, filter_map_ite _ (fun b => by rw [hlugar]; omega),
      ← map_idxOf_of_nodup h.nodup_numeros]
    exact List.map_congr_left fun b _ => hlugar b
  have hzero : ∀ p ∈ percurso, fs'.slot p = 0 ↔ fs.slot p = 0 := fun p hp => by
    rw [hslot p hp]
    split
    · rename_i h0
      exact iff_of_true rfl h0
    · rename_i h0
      exact iff_of_false (by rw [hlugar]; omega) h0
  refine ⟨fs', hr, hnum, fun b h10 => ?_, hzero, fun p hp h0 => ?_⟩
  · rw [hd.layout.bits b h10]
    constructor
    · rintro ⟨p, hp, rfl⟩
      have := hd.layout.range p hp
      exact List.mem_filter.mpr ⟨List.mem_map_of_mem (hd.dentro p hp).1, by
        simp only [decide_eq_true_eq]
        omega⟩
    · intro hm
      obtain ⟨hm, h0⟩ := List.mem_filter.mp hm
      obtain ⟨p, hp, rfl⟩ := List.mem_map.mp hm
      have h0' : fs'.slot p ≠ 0 := by simpa using h0
      exact ⟨p, (h.slot_ne_zero_iff hp).mp fun he => h0' ((hzero p hp).mpr he), rfl⟩
  · exact hd.noDisco p ((h.slot_ne_zero_iff hp).mp h0)

end Sozinhos

/-! ## The calls -/

/-- The first free block, while some slot of i-nodes 1 to 63 is not in use. -/
theorem Layout.findFreeBlk_lt {fs : Fs} {live : Finset (ℕ × ℕ)} (h : fs.Layout live)
    (hd : ∀ p ∈ live, 1 ≤ p.1) {i q : ℕ} (hi : 1 ≤ i ∧ i < itabSize) (hq : q < inodeNumBlks)
    (hp : (i, q) ∉ live) {b : ℕ} (hb : fs.findFreeBlk = some b) : b < numBlocosMax := by
  have hcheios : Finset.Ico 10 b ⊆ live.image fs.slot := fun c hc => by
    obtain ⟨h10, hlt⟩ := Finset.mem_Ico.mp hc
    rw [Finset.mem_image]
    refine (h.bits c h10).mp ?_
    by_contra hno
    have := fsiBmapFindFree_le hb (Bool.eq_false_iff.mpr hno)
    omega
  have hcaixa : insert (i, q) live ⊆ Finset.Ico 1 itabSize ×ˢ Finset.range inodeNumBlks := by
    intro p hm
    rw [Finset.mem_product, Finset.mem_Ico, Finset.mem_range]
    rcases Finset.mem_insert.mp hm with rfl | hm
    · exact ⟨hi, hq⟩
    · exact ⟨⟨hd p hm, (h.bound p hm).1⟩, (h.bound p hm).2⟩
  have h₁ := (Finset.card_le_card hcheios).trans Finset.card_image_le
  have h₂ := Finset.card_le_card hcaixa
  rw [Finset.card_insert_of_notMem hp, Finset.card_product] at h₂
  simp only [Nat.card_Ico, Finset.card_range, itabSize, inodeNumBlks] at h₁ h₂
  simp only [numBlocosMax, inodeNumBlks, itabSize]
  omega

/-! ### Writes where no block is shared -/

section Escrita

variable {fs fs' : Fs} (h : ∀ b, 0 ≤ fs.referencias b ∧ fs.referencias b ≤ 1)

include h

theorem gravarBloco_cache {i b : ℕ} {block : Block} (hr : fs.gravarBloco i b block = some fs') :
    ∃ c, fs' = fs.withCache c := by
  have hcow : ∃ n : ℤ, n < 0 ∧ copyOnWrite fs b i = some (fs, n) := by
    obtain ⟨h0, h1⟩ := h b
    rw [copyOnWrite]
    simp only
    by_cases hz : fs.referencias b = 0
    · exact ⟨-2, by decide, if_pos hz⟩
    · exact ⟨-1, by decide, by rw [if_neg hz, if_pos (by omega)]⟩
  obtain ⟨n, hn, hcow⟩ := hcow
  rw [Fs.gravarBloco] at hr
  split at hr
  · rw [escreverBloco, hcow, Option.map_some, Option.some.injEq] at hr
    dsimp only at hr
    rw [if_neg (Int.not_le.mpr hn)] at hr
    split at hr
    · exact ⟨_, hr.symm⟩
    · exact ⟨_, hr.symm⟩
  · exact ⟨_, (Option.some.inj hr).symm⟩

theorem escreverExistentes_cache {file offset count : ℕ} {buffer : ℕ → Byte} (n : ℕ)
    {num iblock num' iblock' : ℕ} {block block' : Block}
    (hr : escreverExistentes file offset count buffer n fs num iblock block =
      some (fs', num', iblock', block')) : ∃ c, fs' = fs.withCache c := by
  induction n generalizing fs num iblock block with
  | zero => exact ⟨fs.cache, (Prod.mk.inj (Option.some.inj hr)).1.symm⟩
  | succ n ih =>
      rw [escreverExistentes] at hr
      split at hr
      · exact ⟨fs.cache, (Prod.mk.inj (Option.some.inj hr)).1.symm⟩
      · obtain ⟨⟨fs₁, page⟩, hler, hr⟩ := Option.bind_eq_some_iff.mp hr
        obtain ⟨c₁, rfl⟩ := lerBloco_cache hler
        obtain ⟨fs₂, hgr, hr⟩ := Option.bind_eq_some_iff.mp hr
        have h₁ : ∀ b, 0 ≤ (fs.withCache c₁).referencias b ∧
            (fs.withCache c₁).referencias b ≤ 1 := h
        obtain ⟨c₂, rfl⟩ := gravarBloco_cache h₁ hgr
        have h₂ : ∀ b, 0 ≤ ((fs.withCache c₁).withCache c₂).referencias b ∧
            ((fs.withCache c₁).withCache c₂).referencias b ≤ 1 := h
        obtain ⟨c, rfl⟩ := ih h₂ hr
        exact ⟨c, rfl⟩

theorem escreverReservados_cache {file count : ℕ} {buffer : ℕ → Byte} (n : ℕ)
    {num iblock num' : ℕ} {block : Block}
    (hr : escreverReservados file count buffer n fs num iblock block = some (fs', num')) :
    ∃ c, fs' = fs.withCache c := by
  induction n generalizing fs num iblock block with
  | zero => exact ⟨fs.cache, (Prod.mk.inj (Option.some.inj hr)).1.symm⟩
  | succ n ih =>
      rw [escreverReservados] at hr
      split at hr
      · exact ⟨fs.cache, (Prod.mk.inj (Option.some.inj hr)).1.symm⟩
      · obtain ⟨fs₁, hgr, hr⟩ := Option.bind_eq_some_iff.mp hr
        obtain ⟨c, rfl⟩ := gravarBloco_cache h hgr
        have h₁ : ∀ b, 0 ≤ (fs.withCache c).referencias b ∧
            (fs.withCache c).referencias b ≤ 1 := h
        obtain ⟨c', rfl⟩ := ih h₁ hr
        exact ⟨c', rfl⟩

end Escrita

/-- The reserved blocks have one reference each, and low numbers. -/
theorem Accounts.reservarBlocos_baixo {file : ℕ} (n : ℕ) {fs : Fs} {live : Finset (ℕ × ℕ)}
    (h : fs.Accounts live) (hd : ∀ p ∈ live, 1 ≤ p.1) (hrefs : ∀ b, fs.referencias b ≤ 1)
    (ht : fs.typeAt file = .fsFile) (hfile : 1 ≤ file ∧ file < itabSize) (i : ℕ)
    (hlive : ∀ q, i ≤ q → (file, q) ∉ live) (hn : i + n ≤ inodeNumBlks) :
    (∀ b, 0 ≤ (reservarBlocos file n i fs).1.referencias b ∧
      (reservarBlocos file n i fs).1.referencias b ≤ 1) ∧
      ∀ p, (reservarBlocos file n i fs).1.slot p = fs.slot p ∨
        p.1 = file ∧ i ≤ p.2 ∧ p.2 < i + n ∧
          (reservarBlocos file n i fs).1.slot p < numBlocosMax := by
  induction n generalizing fs live i with
  | zero =>
      refine ⟨fun b => ⟨?_, hrefs b⟩, fun _ => .inl rfl⟩
      rw [reservarBlocos, h.refs]
      exact Int.natCast_nonneg _
  | succ n ih =>
      obtain ⟨b, hf, hb10, hbits, hfree⟩ := h.exists_free
      have hr := h.reserve (hlive i le_rfl) hfile.2 (by omega) ht hb10 hbits hfree
      have hlow := h.toLayout.findFreeBlk_lt hd hfile (by omega) (hlive i le_rfl) hf
      have hrefs₁ : ∀ c, (((fs.setBlock file i b).setBlk b).setRef b
          (fs.referencias b + 1)).referencias c ≤ 1 := fun c => by
        rw [h.refs_of_free hfree, setRef_referencias _ (by decide) (by decide)]
        split
        · exact le_rfl
        · exact hrefs c
      have hstep : reservarBlocos file (n + 1) i fs = reservarBlocos file n (i + 1)
          (((fs.setBlock file i b).setBlk b).setRef b (fs.referencias b + 1)) := by
        rw [reservarBlocos, hf]
        rfl
      obtain ⟨hrefs', hslot'⟩ := ih hr (fun p hp => by
          rcases Finset.mem_insert.mp hp with rfl | hp
          · exact hfile.1
          · exact hd p hp) hrefs₁ ((setBlock_typeAt fs file i b file).trans ht) (i + 1)
        (fun q hq => by simp [show q ≠ i by omega, hlive q (by omega)]) (by omega)
      rw [hstep]
      refine ⟨hrefs', fun p => ?_⟩
      have hslot₁ : (((fs.setBlock file i b).setBlk b).setRef b (fs.referencias b + 1)).slot p =
          if p = (file, i) then b else fs.slot p := setBlock_slot fs file i b p
      rcases hslot' p with hs | ⟨hp, h1, h2, hs⟩
      · rw [hs, hslot₁]
        split
        · rename_i hp
          rw [hp]
          exact .inr ⟨rfl, le_rfl, by omega, hlow⟩
        · exact .inl rfl
      · exact .inr ⟨hp, by omega, by omega, hs⟩

namespace Sozinhos

variable {fs fs' : Fs}

/-- Every slot of i-nodes 1 to 63 holds a low number. -/
theorem slot_lt (h : fs.Sozinhos) {p : ℕ × ℕ} (h1 : 1 ≤ p.1) (h64 : p.1 < itabSize)
    (hq : p.2 < inodeNumBlks) : fs.slot p < numBlocosMax := by
  by_cases h0 : fs.slot p = 0
  · rw [h0]
    decide
  · exact h.baixo p (h.restos p h1 h64 hq h0)

/-- A call that takes slots away. -/
theorem of_menos (h : fs.Sozinhos) (hc : fs'.Consistent) (hr : fs'.SemRestos)
    (hm : ∀ p ∈ fs'.emUso, p ∈ fs.emUso ∧ fs'.slot p = fs.slot p ∧
      fs'.typeAt p.1 = fs.typeAt p.1) : fs'.Sozinhos := by
  refine ⟨hc, hr, fun b => ?_, fun p hp => ?_⟩
  · have hle : (fs'.fileSlots fs'.emUso b).card ≤ (fs.fileSlots fs.emUso b).card :=
      Finset.card_le_card fun p hp => by
        obtain ⟨hl, ht, hs⟩ := mem_fileSlots.mp hp
        obtain ⟨hl', hs', ht'⟩ := hm p hl
        exact mem_fileSlots.mpr ⟨hl', ht' ▸ ht, hs' ▸ hs⟩
    have := h.refs b
    rw [h.consistent.acc.refs] at this
    rw [hc.acc.refs]
    omega
  · obtain ⟨hl, hs, -⟩ := hm p hp
    rw [hs]
    exact h.baixo p hl

theorem criar (h : fs.Sozinhos) {tipo : FsItype} (htipo : tipo ≠ .unset) {d : ℕ} {file : CString}
    {n : Option ℕ} (hr : fsCriar tipo fs d file = some (fs', n)) : fs'.Sozinhos := by
  rcases fsCriar_spec h.consistent tipo htipo d file with ⟨hno, -⟩ | ⟨fs₂, m, hyes, hc⟩
  · obtain ⟨rfl, -⟩ := Prod.mk.inj (Option.some.inj (hno.symm.trans hr))
    exact h
  obtain ⟨rfl, rfl⟩ := Prod.mk.inj (Option.some.inj (hyes.symm.trans hr))
  have had := h.consistent.alocado_of_type (i := d) (by simp [hc.dir])
  have hdn : d ≠ m := hc.ne_of_alocado had
  have hdir : fs₂.typeAt d = .fsDir := by rw [hc.type, if_neg hdn, hc.dir]
  rcases fsCriar_casos hr with ⟨he, -⟩ | ⟨finode, fs₁, hadm, hv, he⟩
  · cases he
  obtain ⟨rfl, hfin⟩ := Prod.mk.inj he
  obtain rfl := Option.some.inj hfin
  have hd1 := h.consistent.pos_of_type (i := d) (by simp [hc.dir])
  have hdlt := h.consistent.lt_of_alocado had
  refine ⟨hc.consistent, ?_, fun b => ?_, ?_⟩
  · rintro ⟨i, q⟩ h1 h64 hq h0
    rw [hc.consistent.mem_emUso_iff]
    by_contra hge
    by_cases hi : i = d
    · subst hi
      exact h0 ((hc.consistent.dirs i hdir).clear q (Nat.not_lt.mp hge))
    · rw [hc.slot _ hi] at h0
      rw [hc.size] at hge
      by_cases hin : i = m
      · rw [if_pos hin] at h0
        exact h0 rfl
      · rw [if_neg hin] at h0
        rw [if_neg hin, if_neg hi, ← h.consistent.mem_emUso_iff] at hge
        exact hge (h.restos _ h1 h64 hq h0)
  · rw [store_referencias, comNovo_referencias]
    cases hv with
    | bloco => exact h.refs b
    | aberta => exact h.refs b
  · rintro ⟨i, q⟩ hp
    have hb := hc.consistent.acc.bound _ hp
    rw [slot_congr (store_inodeTab _), comNovo_slot]
    split
    · decide
    · have hi1 := hc.consistent.pos_of_mem hp
      cases hv with
      | aberta => exact h.slot_lt hi1 hb.1 hb.2
      | bloco hs hfree =>
          rw [setBlock_slot]
          split
          · have hle := h.consistent.sizeAt_dir_le hc.dir
            refine h.consistent.acc.toLayout.findFreeBlk_lt (fun p => h.consistent.pos_of_mem)
              (q := fs.sizeAt d / blockSize)
              ⟨hd1, hdlt⟩ ?_ (fun hm => ?_) hfree
            · simp only [blockSize, inodeNumBlks]
              omega
            · rw [h.consistent.mem_emUso_iff, lt_offsetToBlocks] at hm
              have := Nat.div_add_mod (fs.sizeAt d) blockSize
              omega
          · exact h.slot_lt hi1 hb.1 hb.2

theorem remover (h : fs.Sozinhos) {d : ℕ} {nome : CString} {n : Option ℕ}
    (hr : fsRemove fs d nome = some (fs', n)) : fs'.Sozinhos := by
  rcases fsRemove_spec h.consistent d nome with ⟨hno, -⟩ | ⟨fs₃, m, hyes, hrem⟩
  · obtain ⟨rfl, -⟩ := Prod.mk.inj (Option.some.inj (hno.symm.trans hr))
    exact h
  obtain ⟨rfl, rfl⟩ := Prod.mk.inj (Option.some.inj (hyes.symm.trans hr))
  have hmd : m ≠ d := hrem.ne
  have hdir : fs₃.typeAt d = .fsDir := by rw [hrem.type, if_neg hmd.symm, hrem.dir]
  have hrestos : fs₃.SemRestos := by
    rintro ⟨i, q⟩ h1 h64 hq h0
    rw [hrem.consistent.mem_emUso_iff]
    by_contra hge
    by_cases hi : i = d
    · subst hi
      exact h0 ((hrem.consistent.dirs i hdir).clear q (Nat.not_lt.mp hge))
    · rw [hrem.slot _ hi] at h0
      by_cases hin : i = m
      · rw [if_pos hin] at h0
        exact h0 rfl
      · rw [if_neg hin] at h0
        rw [hrem.size, if_neg hin, if_neg hi, ← h.consistent.mem_emUso_iff] at hge
        exact hge (h.restos _ h1 h64 hq h0)
  refine h.of_menos hrem.consistent hrestos ?_
  rintro ⟨i, q⟩ hp
  rw [hrem.consistent.mem_emUso_iff, hrem.size] at hp
  have him : i ≠ m := by
    rintro rfl
    rw [if_pos rfl] at hp
    exact absurd hp (Nat.not_lt_zero q)
  rw [if_neg him] at hp
  rw [hrem.type, if_neg him]
  by_cases hi : i = d
  · subst hi
    rw [if_pos rfl] at hp
    have hle := offsetToBlocks_le.mpr
      ((Nat.sub_le (fs.sizeAt i) 16).trans (offsetToBlocks_le.mp le_rfl))
    refine ⟨h.consistent.mem_emUso_iff.mpr (by omega), ?_, rfl⟩
    rcases fsRemove_casos hr with ⟨he, -⟩ | ⟨idFile, hadm, ⟨he, -⟩ | ⟨-, fs₂, ok, hent, he⟩⟩
    · cases he
    · cases he
    cases ok with
    | false => cases he
    | true =>
        obtain ⟨rfl, hid⟩ := Prod.mk.inj he
        obtain rfl := Option.some.inj hid
        rw [slot_congr (store_inodeTab _), semInode_slot, if_neg him]
        obtain ⟨fs₁, hsem, hacc, hsame, hslot, -⟩ := removerBlocos_spec h.consistent.acc m
          (offsetToBlocks (fs.sizeAt m)) 0 fun r _ hr => h.consistent.mem_emUso_iff.mpr (by omega)
        have hsem' : semBlocos fs m = (fs₁, true) := hsem
        rw [hsem'] at hent
        have hdir₁ : fs₁.typeAt i = .fsDir := (hsame.type i).trans hrem.dir
        have hslotd : ∀ r, fs₁.slot (i, r) = fs.slot (i, r) := fun r => by
          rw [hslot, if_neg fun he => him he.1]
        rw [← hslotd]
        refine (removerEntrada_casos hdir₁ hent).slot_dir_of hdir₁ ?_ ?_ (by rwa [hsame.size])
        · rw [hsame.size]
          exact (h.consistent.dirs i hrem.dir).align
        · rw [hsame.size]
          by_cases hlive : fs.sizeAt i / 16 / dirPageEntries < offsetToBlocks (fs.sizeAt i)
          · exact hacc.refs_of_dir (Finset.mem_filter.mpr ⟨h.consistent.mem_emUso_iff.mpr hlive,
              fun he => him he.1⟩) hdir₁
          · rw [hslotd, (h.consistent.dirs i hrem.dir).clear _ (Nat.not_lt.mp hlive)]
            exact hacc.refs_of_lt (by decide)
  · rw [if_neg hi, ← h.consistent.mem_emUso_iff] at hp
    exact ⟨hp, by rw [hrem.slot _ hi, if_neg him], rfl⟩

theorem escrever (h : fs.Sozinhos) {file offset count : ℕ} {buffer : ℕ → Byte} {lixo : Block}
    {n : ℤ} (hr : fsWrite fs file offset count buffer lixo = some (fs', n)) : fs'.Sozinhos := by
  rcases fsWrite_spec h.consistent file offset count buffer lixo with ⟨hno, -⟩ | ⟨fs₂, hyes, he⟩
  · obtain ⟨rfl, -⟩ := Prod.mk.inj (Option.some.inj (hno.symm.trans hr))
    exact h
  obtain ⟨rfl, rfl⟩ := Prod.mk.inj (Option.some.inj (hyes.symm.trans hr))
  have hf1 := h.consistent.pos_of_type (i := file) (by simp [he.ficheiro])
  rcases fsWrite_casos hr with ⟨hno, -⟩ | ⟨⟨hfile, hreq⟩, ⟨hno, -⟩ | ⟨-, fs₃, ⟨fs₄, num, iblock,
    block, hex, hrv⟩, hfim⟩⟩
  · exact absurd (Prod.mk.inj hno).2 (by decide)
  · exact absurd (Prod.mk.inj hno).2 (by decide)
  obtain ⟨rfl, -⟩ := Prod.mk.inj hfim
  have hnb := h.consistent.offsetToBlocks_le file
  -- only the reserved slots change: no block has to be copied
  obtain ⟨hrefs, hslot⟩ := h.consistent.acc.reservarBlocos_baixo (blksReq fs file offset count)
    (fun p => h.consistent.pos_of_mem) h.refs he.ficheiro ⟨hf1, hfile.1⟩
    (offsetToBlocks (fs.sizeAt file))
    (fun q hq hm => absurd (h.consistent.lt_of_mem hm) (Nat.not_lt.mpr hq)) (by omega)
  change ∀ b, 0 ≤ (reservado fs file offset count).1.referencias b ∧ _ at hrefs
  change ∀ p, (reservado fs file offset count).1.slot p = _ ∨ _ at hslot
  obtain ⟨c₄, rfl⟩ := escreverExistentes_cache hrefs _ hex
  have hrefs₄ : ∀ b, 0 ≤ ((reservado fs file offset count).1.withCache c₄).referencias b ∧
      ((reservado fs file offset count).1.withCache c₄).referencias b ≤ 1 := hrefs
  obtain ⟨c₃, rfl⟩ := escreverReservados_cache hrefs₄ _ hrv
  have htab := store_inodeTab ((((reservado fs file offset count).1.withCache c₄).withCache
    c₃).setSize file (max (min offset (fs.sizeAt file) + count) (fs.sizeAt file)))
  have hslot' : ∀ p, (fsiStoreFsdata ((((reservado fs file offset count).1.withCache c₄).withCache
      c₃).setSize file (max (min offset (fs.sizeAt file) + count) (fs.sizeAt file)))).slot p =
        (reservado fs file offset count).1.slot p := fun p => by
    rw [slot_congr htab]
    exact setSize_slot _ _ _ _
  have hnovo : offsetToBlocks (max (min offset (fs.sizeAt file) + count) (fs.sizeAt file)) =
      offsetToBlocks (fs.sizeAt file) + blksReq fs file offset count := by
    rw [offsetToBlocks_mono.map_max, blksReq]
    omega
  refine ⟨he.consistent, ?_, fun b => ?_, ?_⟩
  · rintro ⟨i, q⟩ h1 h64 hq h0
    rw [he.consistent.mem_emUso_iff]
    rw [hslot'] at h0
    by_contra hge
    by_cases hi : i = file
    · subst hi
      rw [he.tamanho, hnovo] at hge
      rcases hslot (i, q) with hs | ⟨-, -, hlt, -⟩
      · rw [hs] at h0
        have := h.consistent.mem_emUso_iff.mp (h.restos _ h1 h64 hq h0)
        omega
      · exact hge hlt
    · rw [he.size i hi, ← h.consistent.mem_emUso_iff] at hge
      rcases hslot (i, q) with hs | ⟨hf, -⟩
      · rw [hs] at h0
        exact hge (h.restos _ h1 h64 hq h0)
      · exact hi hf
  · rw [store_referencias]
    exact (hrefs b).2
  · rintro ⟨i, q⟩ hp
    have hb := he.consistent.acc.bound _ hp
    rw [hslot']
    rcases hslot (i, q) with hs | ⟨-, -, -, hlow⟩
    · rw [hs]
      exact h.slot_lt (he.consistent.pos_of_mem hp) hb.1 hb.2
    · exact hlow

/-- A call that neither copies nor appends leaves every block alone. -/
theorem exec (h : fs.Sozinhos) {op : FsOp} (hop : op.SemCopia) {r : Resposta}
    (hr : op.exec fs = some (fs', r)) : fs'.Sozinhos := by
  cases op with
  | create dir file =>
      obtain ⟨⟨fs₁, n⟩, hs, he⟩ := Option.map_eq_some_iff.mp hr
      obtain ⟨rfl, -⟩ := Prod.mk.inj he
      exact h.criar (by decide) hs
  | mkdir dir newdir =>
      obtain ⟨⟨fs₁, n⟩, hs, he⟩ := Option.map_eq_some_iff.mp hr
      obtain ⟨rfl, -⟩ := Prod.mk.inj he
      exact h.criar (by decide) hs
  | write file offset count buffer lixo =>
      obtain ⟨⟨fs₁, n⟩, hs, he⟩ := Option.map_eq_some_iff.mp hr
      obtain ⟨rfl, -⟩ := Prod.mk.inj he
      exact h.escrever hs
  | remove d nome =>
      obtain ⟨⟨fs₁, n⟩, hs, he⟩ := Option.map_eq_some_iff.mp hr
      obtain ⟨rfl, -⟩ := Prod.mk.inj he
      exact h.remover hs
  | read => exact hop.elim
  | copy => exact hop.elim
  | append => exact hop.elim
  | defrag => exact hop.elim
  | actualizar => exact hop.elim

theorem inicial (pilha : ℕ → ℤ) : (Fs.inicial pilha).Sozinhos := by
  obtain ⟨-, -, -, -, hrefs, -, -, -, htab⟩ := inicial_spec pilha
  have hslot : ∀ p, (Fs.inicial pilha).slot p = 0 := fun p => by rw [slot, htab]; rfl
  refine ⟨inicial_consistent pilha, fun p _ _ _ h0 => absurd (hslot p) h0, fun b => ?_,
    fun p _ => ?_⟩
  · rw [hrefs]
    decide
  · rw [hslot]
    decide

end Sozinhos

end Fs

/-- In every state that creations, writes and removals reach and in which a data block is
allocated, a defragmentation answers 1 and compacts the disk. -/
theorem fsDefrag_compacta (pilha : ℕ → ℤ) (ops : List FsOp) (hops : ∀ op ∈ ops, op.SemCopia)
    {fs : Fs} {rs : List Resposta}
    (hrun : Runs.run FsOp.exec (fsFormat (fsNew Fs.discoServidor pilha)) ops = some (fs, rs))
    (hb : ∃ b, 10 ≤ b ∧ fs.ocupado b = true) :
    ∃ fs', fsDefrag fs = (fs', 1) ∧ Fs.Compactado fs fs' := by
  have h : fs.Sozinhos := Runs.run_invariant (I := Fs.Sozinhos) (P := fun _ op => op.SemCopia)
    (fun _ _ _ _ hI hop he => hI.exec hop he) (Fs.Sozinhos.inicial pilha)
    (Runs.permitted_of_forall fun op hm _ => hops op hm) hrun
  exact h.compactado hb

/-- Three files are written from the last to the first, and the last is removed. -/
def chamadasComBuraco : List FsOp :=
  [.create 1 nomeA, .create 1 nomeB, .create 1 nomeC, .write 4 0 1 (fun _ => 3) nullBlock,
    .write 3 0 1 (fun _ => 2) nullBlock, .write 2 0 1 (fun _ => 1) nullBlock, .remove 1 nomeC]

set_option maxRecDepth 100000 in
/-- Block 11 is free, and blocks 13 and 12 are behind that of the root: they become 11 and 12. -/
theorem fsDefrag_compacta_buraco :
    ∃ fs rs fs', Runs.run FsOp.exec (fsFormat (fsNew Fs.discoServidor fun _ => 7))
        chamadasComBuraco = some (fs, rs) ∧ fs.numeros = [10, 13, 12] ∧
      fsDefrag fs = (fs', 1) ∧ fs'.numeros = [10, 11, 12] ∧ Fs.Compactado fs fs' := by
  obtain ⟨fs, rs, hrun, hnum, hocc⟩ : ∃ fs rs,
      Runs.run FsOp.exec (fsFormat (fsNew Fs.discoServidor fun _ => 7)) chamadasComBuraco =
        some (fs, rs) ∧ fs.numeros = [10, 13, 12] ∧ fs.ocupado 13 = true := by
    rw [Fs.fsFormat_eq_formatado]
    exact Runs.exists_run_of_any (by decide +kernel)
  obtain ⟨fs', hr, hc⟩ := fsDefrag_compacta _ chamadasComBuraco
    (by simp [chamadasComBuraco, FsOp.SemCopia]) hrun ⟨13, by decide, hocc⟩
  refine ⟨fs, rs, fs', hrun, hnum, hr, ?_, hc⟩
  rw [hc.numeros, hnum]
  rfl

end ThreadScheduler.SnfsServer
