import ThreadScheduler.SnfsServer.Create

/-!
# Removing files and directories

`fs_remove` releases the blocks of the i-node the name gives, and the i-node. In the
directory it takes out the last entry, whichever entry was found: the page with the
hole is changed in a buffer and never written back.
-/
namespace ThreadScheduler.SnfsServer

namespace Fs

/-- What a successful `fs_remove` of `nome` in `d` does, `n` being the i-node it frees. -/
structure Removido (fs fs' : Fs) (d : ℕ) (nome : List Byte) (n : ℕ) : Prop where
  achado : fs.procura d nome = some n
  dir : fs.typeAt d = .fsDir
  vazio : fs.typeAt n = .fsDir → fs.sizeAt n = 0
  alocado : ∀ j, fs'.alocado j = (!decide (j = n) && fs.alocado j)
  type : ∀ j, fs'.typeAt j = if j = n then .unset else fs.typeAt j
  size : ∀ j, fs'.sizeAt j =
    if j = n then 0 else if j = d then fs.sizeAt d - 16 else fs.sizeAt j
  slot : ∀ p, p.1 ≠ d → fs'.slot p = if p.1 = n then 0 else fs.slot p
  pagina : ∀ p ∈ fs.emUso, p.1 ≠ d → p.1 ≠ n → fs'.pagina p = fs.pagina p
  entradas : fs'.entradas d = (fs.entradas d).dropLast
  outras : ∀ e, e ≠ d → e ≠ n → fs'.entradas e = fs.entradas e
  consistent : fs'.Consistent

/-! ## The blocks of the file -/

/-- The loop of `fs_remove` takes the slots it walks out of the accounts. -/
theorem removerBlocos_spec {fs : Fs} {live : Finset (ℕ × ℕ)} (h : fs.Accounts live) (n k i : ℕ)
    (hlive : ∀ r, i ≤ r → r < i + k → (n, r) ∈ live) :
    ∃ fs₁, removerBlocos n k i fs = (fs₁, true) ∧
      fs₁.Accounts (live.filter fun p => ¬ (p.1 = n ∧ i ≤ p.2 ∧ p.2 < i + k)) ∧
      SameInodes fs fs₁ ∧
      (∀ p, fs₁.slot p = if p.1 = n ∧ i ≤ p.2 ∧ p.2 < i + k then 0 else fs.slot p) ∧
      ∀ p ∈ live, ¬ (p.1 = n ∧ i ≤ p.2 ∧ p.2 < i + k) → fs₁.pagina p = fs.pagina p := by
  induction k generalizing fs live i with
  | zero =>
      have hno : ∀ p : ℕ × ℕ, ¬ (p.1 = n ∧ i ≤ p.2 ∧ p.2 < i + 0) := by omega
      refine ⟨fs, rfl, ?_, SameInodes.refl fs, fun p => (if_neg (hno p)).symm, fun _ _ _ => rfl⟩
      rwa [Finset.filter_true_of_mem fun p _ => hno p]
  | succ k ih =>
      have hi := hlive i le_rfl (by omega)
      obtain ⟨hacc, hsame, hslot, hpag⟩ := h.apagarBloco_clear hi
      obtain ⟨fs₁, hr, hacc₁, hsame₁, hslot₁, hpag₁⟩ := ih hacc (i + 1) fun r h1 h2 =>
        Finset.mem_erase.mpr ⟨by simp; omega, hlive r (by omega) (by omega)⟩
      -- the slots of the loop are slot `i` and those of the rest of the loop
      have hsplit : ∀ p : ℕ × ℕ, (p.1 = n ∧ i ≤ p.2 ∧ p.2 < i + (k + 1)) ↔
          p = (n, i) ∨ (p.1 = n ∧ i + 1 ≤ p.2 ∧ p.2 < i + 1 + k) := by
        rintro ⟨j, r⟩
        simp only [Prod.mk.injEq]
        omega
      have hrange : ¬ (fs.inodeTab n).blocks i < 10 := Nat.not_lt.mpr (h.range _ hi)
      refine ⟨fs₁, ?_, ?_, hsame.trans hsame₁, fun p => ?_, fun p hp hno => ?_⟩
      · rw [removerBlocos, if_neg hrange]
        exact hr
      · convert hacc₁ using 1
        ext p
        simp only [Finset.mem_filter, Finset.mem_erase, hsplit]
        tauto
      · rw [hslot₁, hslot]
        simp only [hsplit]
        split_ifs <;> tauto
      · rw [hsplit, not_or] at hno
        have hp' := Finset.mem_erase.mpr ⟨hno.1, hp⟩
        rw [hpag₁ p hp' hno.2, hpag p hp']

/-! ## The entry -/

/-- The slots a directory keeps when it loses its last entry. -/
def semUltima (fs : Fs) (live : Finset (ℕ × ℕ)) (d : ℕ) : Finset (ℕ × ℕ) :=
  live.filter fun p => ¬ (p.1 = d ∧ offsetToBlocks (fs.sizeAt d - 16) ≤ p.2)

/-- Losing the last entry leaves the accounts, the other pages and the other entries. -/
structure SemUltima (fs fs' : Fs) (live : Finset (ℕ × ℕ)) (d : ℕ) : Prop where
  acc : fs'.Accounts (fs.semUltima live d)
  same : SameInodes fs fs'
  slot : ∀ p, p.1 ≠ d → fs'.slot p = fs.slot p
  clear : ∀ q, offsetToBlocks (fs.sizeAt d - 16) ≤ q → fs'.slot (d, q) = 0
  pagina : ∀ p ∈ live, p.1 ≠ d → fs'.pagina p = fs.pagina p
  entrada : ∀ k, k + 1 < fs.sizeAt d / 16 → fs'.entrada d k = fs.entrada d k

section Entrada

variable {fs : Fs} {live : Finset (ℕ × ℕ)} (h : fs.Accounts live) {d : ℕ}
  (ht : fs.typeAt d = .fsDir) (hlive : ∀ q, (d, q) ∈ live ↔ q < offsetToBlocks (fs.sizeAt d))
  (hd : fs.DirOk d)

include h ht hlive hd

/-- The last entry is the only one of its block, which is released. -/
theorem libertar_ultimo {u : ℕ} (hu : fs.sizeAt d = blockSize * u + 16) :
    SemUltima fs ((apagarBloco fs (fs.slot (d, u)) d).setBlock d u 0) live d := by
  have hotb : ∀ q, offsetToBlocks (fs.sizeAt d - 16) ≤ q ↔ u ≤ q := by
    intro q
    rw [offsetToBlocks_le, hu, Nat.add_sub_cancel]
    exact Nat.mul_le_mul_left_iff (by decide)
  have hother : ∀ q, (d, q) ∈ live → q ≠ u → q < u := by
    intro q hq hne
    rw [hlive, lt_offsetToBlocks] at hq
    simp only [blockSize] at *
    omega
  have hmem : (d, u) ∈ live := by
    rw [hlive, lt_offsetToBlocks]
    simp only [blockSize] at *
    omega
  obtain ⟨hacc, hsame, hslot, hpag⟩ := h.apagarBloco_clear hmem
  have herase : fs.semUltima live d = live.erase (d, u) := by
    ext ⟨j, q⟩
    simp only [semUltima, hotb, Finset.mem_filter, Finset.mem_erase, ne_eq, Prod.mk.injEq]
    constructor
    · rintro ⟨hm, hno⟩
      exact ⟨fun he => hno ⟨he.1, he.2.ge⟩, hm⟩
    · rintro ⟨hne, hm⟩
      refine ⟨hm, ?_⟩
      rintro ⟨rfl, hle⟩
      have := hother q hm fun he => hne ⟨rfl, he⟩
      omega
  refine ⟨herase ▸ hacc, hsame, fun p hp => ?_, fun q hq => ?_, fun p hp hpd => ?_, fun k hk => ?_⟩
  · rw [hslot, if_neg]
    rintro rfl
    exact hp rfl
  · rw [hslot]
    split
    · rfl
    · rename_i hne
      refine hd.clear q (offsetToBlocks_le.mpr ?_)
      have hqu : q ≠ u := fun he => hne (by rw [he])
      have hle := (hotb q).mp hq
      simp only [blockSize] at *
      omega
  · refine hpag p (Finset.mem_erase.mpr ⟨?_, hp⟩)
    rintro rfl
    exact hpd rfl
  · have hq : (d, k / dirPageEntries) ∈ live.erase (d, u) := by
      refine Finset.mem_erase.mpr ⟨?_, (hlive _).mpr (lt_offsetToBlocks.mpr ?_)⟩ <;>
        simp only [dirPageEntries, blockSize, ne_eq, Prod.mk.injEq, true_and] at * <;> omega
    simp only [entrada, hpag _ hq]

/-- The last entry shares its block with entries before it, and is blanked. -/
theorem apagar_ultima {u e : ℕ} (hu : fs.sizeAt d = blockSize * u + 16 * e + 16) (he0 : e ≠ 0)
    (he : e < dirPageEntries) :
    SemUltima fs (fs.writeDisk (fs.slot (d, u))
      (setInodeid (strcpy (fs.pagina (d, u)) (16 * e) []) e 65535)) live d := by
  have hotb : ∀ q, q < offsetToBlocks (fs.sizeAt d - 16) ↔ q < offsetToBlocks (fs.sizeAt d) := by
    intro q
    rw [lt_offsetToBlocks, lt_offsetToBlocks]
    simp only [blockSize, dirPageEntries] at *
    omega
  have hmem : (d, u) ∈ live := by
    rw [hlive, lt_offsetToBlocks]
    simp only [blockSize] at *
    omega
  have hall : fs.semUltima live d = live := by
    refine Finset.filter_true_of_mem fun p hp => ?_
    rintro ⟨rfl, hle⟩
    have := (hlive p.2).mp hp
    rw [← hotb] at this
    omega
  obtain ⟨hacc, hself, hother⟩ := h.writeDisk_dir hmem ht
    (setInodeid (strcpy (fs.pagina (d, u)) (16 * e) []) e 65535)
  refine ⟨hall.symm ▸ hacc, SameInodes.of_tab rfl rfl, fun _ _ => rfl, fun q hq => ?_,
    fun p hp hpd => ?_, fun k hk => ?_⟩
  · refine hd.clear q (Nat.not_lt.mp fun hlt => ?_)
    have := (hotb q).mpr hlt
    omega
  · refine hother p hp ?_
    rintro rfl
    exact hpd rfl
  · by_cases hku : k / dirPageEntries = u
    · -- an entry before the blanked one, on the same page
      have hke : k % dirPageEntries ≠ e := by
        simp only [blockSize, dirPageEntries] at *
        omega
      have hk32 : k % dirPageEntries < dirPageEntries := Nat.mod_lt _ (by decide)
      have hfits : NameFits (fs.pagina (d, u)) (k % dirPageEntries) := by
        have hin : fs.entrada d k ∈ fs.entradas d :=
          List.mem_map_of_mem (List.mem_range.mpr (by omega))
        have := (hd.entries _ hin).2.1
        rwa [entrada, hku] at this
      simp only [entrada, hku, hself]
      rw [nameAt_store_of_ne _ he (by decide) _ hk32 hke hfits,
        inodeidAt_store_of_ne _ he (by decide) _ hke]
    · have hq : (d, k / dirPageEntries) ∈ live := by
        rw [hlive, lt_offsetToBlocks]
        simp only [dirPageEntries, blockSize] at *
        omega
      simp only [entrada, hother _ hq (by simp [hku])]

/-- The last entry ends its block: the call blanks block 0 of the disk instead. -/
theorem ignorar_ultima {u : ℕ} (hu : fs.sizeAt d = blockSize * u) (data : Block) :
    SemUltima fs (fs.writeDisk 0 data) live d := by
  have hotb : ∀ q, q < offsetToBlocks (fs.sizeAt d - 16) ↔ q < offsetToBlocks (fs.sizeAt d) := by
    intro q
    rw [lt_offsetToBlocks, lt_offsetToBlocks]
    simp only [blockSize] at *
    omega
  have hall : fs.semUltima live d = live := by
    refine Finset.filter_true_of_mem fun p hp => ?_
    rintro ⟨rfl, hle⟩
    have := (hlive p.2).mp hp
    rw [← hotb] at this
    omega
  have hpag : ∀ p ∈ live, (fs.writeDisk 0 data).pagina p = fs.pagina p := by
    intro p hp
    refine CacheT.writeDisk_conteudo_of_ne _ data ?_
    have := h.range p hp
    change fs.slot p ≠ 0
    omega
  refine ⟨hall.symm ▸ h.writeDisk (h.not_valid_of_lt (by omega)) data, SameInodes.of_tab rfl rfl,
    fun _ _ => rfl, fun q hq => ?_, fun p hp _ => hpag p hp, fun k hk => ?_⟩
  · refine hd.clear q (Nat.not_lt.mp fun hlt => ?_)
    have := (hotb q).mpr hlt
    omega
  · have hq : (d, k / dirPageEntries) ∈ live := by
      rw [hlive, lt_offsetToBlocks]
      simp only [dirPageEntries, blockSize] at *
      omega
    simp only [entrada, hpag _ hq]

/-- Taking the entry out of the directory always takes the last one out. -/
theorem removerEntrada_spec {nome : List Byte} (hs : 0#8 ∉ nome)
    (hin : (fs.entradas d).any (fun e => e.1 = nome) = true) (hmax : fs.sizeAt d / 16 ≤ 62) :
    ∃ fs₁, removerEntrada fs d nome = some (fs₁, true) ∧ SemUltima fs fs₁ live d := by
  have hsize : (fs.inodeTab d).size = fs.sizeAt d := rfl
  have htype : (fs.inodeTab d).type = .fsDir := ht
  have hblk : ∀ u, (fs.inodeTab d).blocks u = fs.slot (d, u) := fun _ => rfl
  obtain ⟨num, hnum⟩ := hd.align
  have hdiv : fs.sizeAt d / 16 = num := by omega
  have hpos : num ≠ 0 := by
    rintro rfl
    simp [entradas, hdiv] at hin
  simp only [removerEntrada, hsize, hblk, htype, hdiv]
  split
  · -- the only entry
    exact ⟨_, rfl, libertar_ultimo h ht hlive hd (u := 0) (by simp only [blockSize]; omega)⟩
  · rename_i h1
    obtain ⟨r, hr, hsome⟩ := procurarEntrada_eq h.toLayout ht (fun q => (hlive q).mpr) hs num 0
      (by simp [hdiv])
    rw [Nat.mul_zero, ← List.range_eq_range', ← hdiv] at hsome
    have hr' : r.isNone = false := by
      rw [← Option.not_isSome, hsome]
      simpa [entradas] using hin
    rw [hr, Option.bind_some]
    simp only [hr', Bool.false_eq_true, if_false]
    rcases Nat.lt_trichotomy num dirPageEntries with hlt | heq | hgt
    · have h0 : num / dirPageEntries = 0 := Nat.div_eq_of_lt hlt
      have hne : ¬ (num - 1 = 0) := by omega
      have hmem : (d, 0) ∈ live := by
        rw [hlive, lt_offsetToBlocks]
        simp only [blockSize]
        omega
      simp only [h0, if_true, hne, and_false, if_false, h.lerBloco_dir hmem ht, Option.bind_some,
        Accounts.escreverBloco_of_refs_zero (h.refs_of_dir hmem ht) ht, Option.map_some]
      exact ⟨_, rfl, apagar_ultima h ht hlive hd (u := 0)
        (by simp only [blockSize]; omega) hne (by omega)⟩
    · have h0 : num / dirPageEntries = 1 := by simp [heq]
      have he : (num - 1) % (1 * dirPageEntries) = 31 := by simp [heq]
      have hclear : fs.slot (d, 1) = 0 :=
        hd.clear 1 (offsetToBlocks_le.mpr (by simp only [blockSize, dirPageEntries] at *; omega))
      simp only [h0, he, one_ne_zero, if_false, false_and, hclear]
      have hread : fs.lerBloco .fsDir 0 = some (fs, fs.readDisk 0) := rfl
      have hw : ∀ data, escreverBloco fs 0 d data = some (fs.writeDisk 0 data) :=
        Accounts.escreverBloco_of_refs_zero (h.refs_of_lt (by omega)) ht
      simp only [hread, Option.bind_some, hw, Option.map_some]
      exact ⟨_, rfl, ignorar_ultima h ht hlive hd (u := 1)
        (by simp only [blockSize, dirPageEntries] at *; omega) _⟩
    · have h0 : num / dirPageEntries = 1 := by
        simp only [dirPageEntries] at *
        omega
      have he : (num - 1) % (1 * dirPageEntries) = num - 33 := by
        simp only [dirPageEntries] at *
        omega
      have hmem : (d, 1) ∈ live := by
        rw [hlive, lt_offsetToBlocks]
        simp only [blockSize, dirPageEntries] at *
        omega
      simp only [h0, he, one_ne_zero, if_false, false_and, h.lerBloco_dir hmem ht,
        Option.bind_some]
      split
      · exact ⟨_, rfl, libertar_ultimo h ht hlive hd (u := 1)
          (by simp only [blockSize, dirPageEntries] at *; omega)⟩
      · rename_i hne
        rw [Accounts.escreverBloco_of_refs_zero (h.refs_of_dir hmem ht) ht, Option.map_some]
        exact ⟨_, rfl, apagar_ultima h ht hlive hd (u := 1)
          (by simp only [blockSize, dirPageEntries] at *; omega) hne
          (by simp only [dirPageEntries] at *; omega)⟩

end Entrada

/-! ## The i-node -/

/-- The i-node table after an i-node is freed and an entry taken out. -/
theorem Inodes.remover {fs fs' : Fs} {d n : ℕ} (h : fs.Consistent) (ht : fs.typeAt d = .fsDir)
    (hd : 16 ≤ fs.sizeAt d) (hn : 2 ≤ n) (hvazio : fs.typeAt n = .fsDir → fs.sizeAt n = 0)
    (ha : ∀ j, fs'.alocado j = (!decide (j = n) && fs.alocado j))
    (htype : ∀ j, fs'.typeAt j = if j = n then .unset else fs.typeAt j)
    (hsize : ∀ j, fs'.sizeAt j =
      if j = n then 0 else if j = d then fs.sizeAt d - 16 else fs.sizeAt j) : fs'.Inodes := by
  have hdn : d ≠ n := by
    rintro rfl
    have := hvazio ht
    omega
  have hda := h.alocado_of_type (i := d) (by simp [ht])
  refine ⟨fun i hi => ?_, fun i hi => ?_, ?_, ?_, fun i h0 hi => ?_, fun i => ?_, ?_⟩
  · rw [ha, Bool.and_eq_true] at hi
    exact h.inodes.lt i hi.2
  · rw [htype, hsize]
    by_cases hin : i = n
    · simp [hin]
    · have hi' : fs.alocado i = false := by simpa [ha, hin] using hi
      have hid : i ≠ d := by
        rintro rfl
        simp [hda] at hi'
      simpa [hin, hid] using h.inodes.livre i hi'
  · obtain ⟨h1, h2, h3⟩ := h.inodes.zero
    have h0n : 0 ≠ n := by omega
    have h0d : 0 ≠ d := by
      rintro rfl
      simp [h2] at ht
    exact ⟨by simp [ha, h1, h0n], by rw [htype, if_neg h0n, h2],
      by rw [hsize, if_neg h0n, if_neg h0d, h3]⟩
  · obtain ⟨h1, h2⟩ := h.inodes.root
    have h1n : 1 ≠ n := by omega
    exact ⟨by simp [ha, h1, h1n], by rw [htype, if_neg h1n, h2]⟩
  · rw [ha, Bool.and_eq_true, Bool.not_eq_true', decide_eq_false_iff_not] at hi
    rw [htype, if_neg hi.1]
    exact h.inodes.typed i h0 hi.2
  · have := h.inodes.full i
    have := h.inodes.full d
    rw [hsize]
    split_ifs <;> omega
  · have hnum : ∀ j, fs.numEntradas j = fs'.numEntradas j + if j = d then 1 else 0 := by
      intro j
      simp only [numEntradas, htype, hsize]
      by_cases hjn : j = n
      · subst hjn
        by_cases hj : fs.typeAt j = .fsDir
        · simp [hj, hvazio hj, Ne.symm hdn]
        · simp [hj, Ne.symm hdn]
      · by_cases hjd : j = d
        · subst hjd
          simp only [hjn, ht, if_true, if_false]
          omega
        · simp [hjn, hjd]
    have hcard : fs'.alocados = fs.alocados.erase n := by
      ext j
      simp only [Finset.mem_erase, mem_alocados, ha, Bool.and_eq_true, Bool.not_eq_true',
        decide_eq_false_iff_not]
      tauto
    have htotal := h.inodes.total
    have herase := Finset.pred_card_le_card_erase (s := fs.alocados) (a := n)
    simp only [hnum, Finset.sum_add_distrib, Finset.sum_ite_eq', Finset.mem_range,
      h.lt_of_alocado hda, if_true] at htotal
    rw [hcard]
    omega

/-! ## The call -/

/-- The names and states for which `fs_remove` answers -1. -/
def RemoverRecusado (fs : Fs) (d : ℕ) (nome : CString) : Prop :=
  badName nome ∨ fs.typeAt d ≠ .fsDir ∨ fs.procura d nome.val = none ∨
    ∃ n, fs.procura d nome.val = some n ∧ fs.typeAt n = .fsDir ∧ fs.sizeAt n ≠ 0

instance (fs : Fs) (d : ℕ) (nome : CString) : Decidable (fs.RemoverRecusado d nome) :=
  inferInstanceAs (Decidable (_ ∨ _ ∨ _ ∨
    ∃ n ∈ fs.procura d nome.val, fs.typeAt n = .fsDir ∧ fs.sizeAt n ≠ 0))

/-- `fs_remove` either refuses the call or frees the i-node the name gives. -/
theorem fsRemove_spec {fs : Fs} (h : fs.Consistent) (d : ℕ) (nome : CString) :
    fsRemove fs d nome = some (fs, none) ∧ fs.RemoverRecusado d nome ∨
      ∃ fs' n, fsRemove fs d nome = some (fs', some n) ∧ Removido fs fs' d nome.val n := by
  rw [fsRemove]
  split
  · rename_i hargs
    exact .inl ⟨rfl, hargs.elim (fun hd => .inr (.inl (h.not_dir (.inl hd)))) .inl⟩
  split
  · rename_i hset
    exact .inl ⟨rfl, .inr (.inl (h.not_dir (.inr (by simpa [alocado] using hset))))⟩
  split
  · rename_i hdir
    exact .inl ⟨rfl, .inr (.inl hdir)⟩
  rename_i hdir
  have ht : fs.typeAt d = .fsDir := not_not.mp hdir
  rw [h.fsiDirSearch_eq ht nome.property, Option.bind_some]
  cases hfound : fs.procura d nome.val with
  | none => exact .inl ⟨rfl, .inr (.inr (.inl hfound))⟩
  | some n =>
      by_cases hvazio : fs.typeAt n = .fsDir ∧ fs.sizeAt n ≠ 0
      · have hvazio' : (fs.inodeTab n).type = .fsDir ∧ (fs.inodeTab n).size ≠ 0 := hvazio
        exact .inl ⟨by simp [hvazio'], .inr (.inr (.inr ⟨n, hfound, hvazio⟩))⟩
      have hdirvazio : fs.typeAt n = .fsDir → fs.sizeAt n = 0 := by tauto
      have hmem := mem_of_procura hfound
      have hok := (h.dirs d ht).entries _ hmem
      have hlen := List.length_pos_of_mem hmem
      rw [length_entradas] at hlen
      have hdn : d ≠ n := by
        rintro rfl
        have := hdirvazio ht
        simp [this] at hlen
      right
      -- the blocks of the i-node
      obtain ⟨fs₁, hr₁, hacc₁, hsame₁, hslot₁, hpag₁⟩ :=
        removerBlocos_spec h.acc n (offsetToBlocks (fs.sizeAt n)) 0
          fun r _ hr => h.mem_emUso_iff.mpr (by omega)
      generalize hlive₁ : fs.emUso.filter (fun p => ¬ (p.1 = n ∧ 0 ≤ p.2 ∧
        p.2 < 0 + offsetToBlocks (fs.sizeAt n))) = live₁ at hacc₁
      have hmem₁ : ∀ p : ℕ × ℕ, p ∈ live₁ ↔ p ∈ fs.emUso ∧ p.1 ≠ n := by
        rintro ⟨i, r⟩
        rw [← hlive₁, Finset.mem_filter, and_congr_right_iff]
        intro hm
        have := h.mem_emUso_iff.mp hm
        constructor
        · rintro hno (he : i = n)
          rw [he] at this
          exact hno ⟨he, Nat.zero_le _, by omega⟩
        · exact fun hne he => hne he.1
      have hpage₁ : ∀ p ∈ live₁, fs₁.pagina p = fs.pagina p := by
        intro p hp
        obtain ⟨hm, hne⟩ := (hmem₁ p).mp hp
        exact hpag₁ p hm fun he => hne he.1
      have hsizeb : (fs.inodeTab n).size = fs.sizeAt n := rfl
      -- the entry
      have hsd : fs₁.sizeAt d = fs.sizeAt d := hsame₁.size d
      have hent₁ : fs₁.entradas d = fs.entradas d :=
        entradas_congr hsd fun q hq => hpage₁ _ ((hmem₁ _).mpr ⟨h.mem_emUso_iff.mpr hq, hdn⟩)
      have hdir₁ : fs₁.DirOk d := by
        obtain ⟨halign, hclear, hentries, hnodup⟩ := h.dirs d ht
        refine ⟨hsd ▸ halign, fun q hq => ?_, hent₁ ▸ hentries, hent₁ ▸ hnodup⟩
        rw [hslot₁, if_neg fun he => hdn he.1]
        exact hclear q (hsd ▸ hq)
      obtain ⟨fs₂, hr₂, hsem⟩ := removerEntrada_spec hacc₁ ((hsame₁.type d).trans ht)
        (fun q => by rw [hmem₁, h.mem_emUso_iff, hsd]; exact ⟨And.left, fun hq => ⟨hq, hdn⟩⟩)
        hdir₁ nome.property (by rw [hent₁, ← procura_isSome, hfound]; rfl)
        (by rw [hsd]; exact h.sizeAt_dir_le ht)
      have hlive₂ : ∀ p ∈ fs₁.semUltima live₁ d, p.1 ≠ n := fun p hp =>
        ((hmem₁ p).mp (Finset.mem_of_mem_filter p hp)).2
      obtain ⟨fs', hfs', hacc', hbmap', htype', hsize', hslot', hpag', -, -⟩ :=
        hsem.acc.concluir d ((fs₂.inodeTab d).size - 16) hlive₂ (fsiInodeInit .unset)
          (bmapClr fs₂.inodeBmap n)
      refine ⟨fs', n, ?_, ?_⟩
      · have hvazio' : ¬ ((fs.inodeTab n).type = .fsDir ∧ fs.sizeAt n ≠ 0) := hvazio
        simp only [hsizeb, hvazio', if_false, hr₁, hr₂, Option.bind_some, Bool.not_true,
          Bool.false_eq_true]
        exact congrArg (fun s => some (s, some n)) hfs'
      have hsame := hsame₁.trans hsem.same
      have hsd₂ : (fs₂.inodeTab d).size = fs.sizeAt d := hsame.size d
      have ha : ∀ j, fs'.alocado j = (!decide (j = n) && fs.alocado j) := by
        intro j
        rw [alocado, hbmap', bmapIsSet_clr, hsame.inodeBmap]
        rfl
      have htype : ∀ j, fs'.typeAt j = if j = n then .unset else fs.typeAt j := by
        intro j
        rw [htype', hsame.type]
        rfl
      have hsize : ∀ j, fs'.sizeAt j =
          if j = n then 0 else if j = d then fs.sizeAt d - 16 else fs.sizeAt j := by
        intro j
        rw [hsize', hsame.size, hsd₂]
        rfl
      have hslot : ∀ p, p.1 ≠ d → fs'.slot p = if p.1 = n then 0 else fs.slot p := by
        intro p hp
        rw [hslot', hsem.slot p hp, hslot₁]
        by_cases hpn : p.1 = n
        · simp [hpn, fsiInodeInit]
        · simp [hpn]
      have hinodes : fs'.Inodes :=
        Inodes.remover h ht (by omega) hok.2.2.1 hdirvazio ha htype hsize
      have hsemd : ∀ p : ℕ × ℕ, p ∈ fs₁.semUltima live₁ d ↔
          p ∈ fs.emUso ∧ p.1 ≠ n ∧ ¬ (p.1 = d ∧ offsetToBlocks (fs.sizeAt d - 16) ≤ p.2) := by
        intro p
        rw [semUltima, Finset.mem_filter, hmem₁, hsd, and_assoc]
      have huso : fs'.emUso = fs₁.semUltima live₁ d := by
        ext ⟨j, r⟩
        rw [hsemd, mem_emUso, mem_emUso, ha, hsize]
        by_cases hjn : j = n
        · simp [hjn]
        · by_cases hjd : j = d
          · subst hjd
            have hle : r < offsetToBlocks (fs.sizeAt j - 16) →
                r < offsetToBlocks (fs.sizeAt j) := by
              rw [lt_offsetToBlocks, lt_offsetToBlocks]
              omega
            simp only [hjn, if_false, if_true, decide_false, Bool.not_false, Bool.true_and,
              true_and, ne_eq, not_false_eq_true, not_le]
            tauto
          · simp [hjn, hjd]
      have hpag : ∀ p ∈ fs.emUso, p.1 ≠ d → p.1 ≠ n → fs'.pagina p = fs.pagina p := by
        intro p hp hpd hpn
        have h₁ := (hmem₁ p).mpr ⟨hp, hpn⟩
        rw [hpag' p ((hsemd p).mpr ⟨hp, hpn, fun he => hpd he.1⟩), hsem.pagina p h₁ hpd,
          hpage₁ p h₁]
      have hse : fs'.sizeAt d = fs.sizeAt d - 16 := by rw [hsize, if_neg hdn, if_pos rfl]
      have hentradas : fs'.entradas d = (fs.entradas d).dropLast := by
        obtain ⟨num, hnum⟩ : ∃ num, fs.sizeAt d / 16 = num + 1 :=
          ⟨fs.sizeAt d / 16 - 1, by omega⟩
        have hnum' : (fs.sizeAt d - 16) / 16 = num := by omega
        simp only [entradas, hse, hnum, hnum', List.range_succ, List.map_append, List.map_singleton,
          List.dropLast_concat]
        refine List.map_congr_left fun k hk => ?_
        have hk' := List.mem_range.mp hk
        have hq : k / dirPageEntries < offsetToBlocks (fs.sizeAt d - 16) := by
          rw [lt_offsetToBlocks]
          simp only [dirPageEntries, blockSize]
          omega
        have hlt : k / dirPageEntries < offsetToBlocks (fs.sizeAt d) := by
          rw [lt_offsetToBlocks] at hq ⊢
          omega
        have hp := h.mem_emUso_iff.mpr hlt
        have hlast := hpag' _ ((hsemd (d, k / dirPageEntries)).mpr
          ⟨hp, hdn, fun he => Nat.not_le.mpr hq he.2⟩)
        have hk₂ := hsem.entrada k (by rw [hsd]; omega)
        have hk₁ := hpage₁ _ ((hmem₁ _).mpr ⟨hp, hdn⟩)
        simp only [entrada] at hk₂ ⊢
        rw [hlast, hk₂, hk₁]
      have houtras : ∀ e, e ≠ d → e ≠ n → fs'.entradas e = fs.entradas e := by
        intro e hed hen
        refine entradas_congr (by rw [hsize, if_neg hen, if_neg hed]) fun r hr => ?_
        exact hpag (e, r) (h.mem_emUso_iff.mpr hr) hed hen
      refine ⟨hfound, ht, hdirvazio, ha, htype, hsize, hslot, hpag, hentradas, houtras,
        huso ▸ hacc', hinodes, fun e he => ?_⟩
      rw [htype] at he
      have hen : e ≠ n := by
        rintro rfl
        simp at he
      rw [if_neg hen] at he
      obtain ⟨halign, hclear, hentries, hnodup⟩ := h.dirs e he
      by_cases hed : e = d
      · subst hed
        refine ⟨hse ▸ (Nat.dvd_sub halign (by simp)), fun r hr => ?_, ?_, ?_⟩
        · rw [hslot', if_neg hdn]
          exact hsem.clear r (by rw [hsd]; exact hse ▸ hr)
        · rw [hentradas]
          exact fun x hx => hentries x (List.dropLast_subset _ hx)
        · rw [hentradas, List.map_dropLast]
          exact hnodup.sublist (List.dropLast_sublist _)
      · have hse' : fs'.sizeAt e = fs.sizeAt e := by rw [hsize, if_neg hen, if_neg hed]
        rw [← houtras e hed hen] at hentries hnodup
        refine ⟨hse' ▸ halign, fun r hr => ?_, hentries, hnodup⟩
        rw [hslot (e, r) hed, if_neg hen]
        exact hclear r (hse' ▸ hr)

end Fs

end ThreadScheduler.SnfsServer
