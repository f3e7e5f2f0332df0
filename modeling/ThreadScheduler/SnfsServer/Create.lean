import ThreadScheduler.SnfsServer.FsInvariant

/-!
# Creating files and directories

`fs_create` and `fs_mkdir` allocate an i-node, append its entry to the directory,
and touch nothing else. A refused call leaves the state as it was.
-/
namespace ThreadScheduler.SnfsServer

namespace Fs

/-- What a successful `fs_create` or `fs_mkdir` of `nome` in `d` does. -/
structure Criado (tipo : FsItype) (fs fs' : Fs) (d : ℕ) (nome : List Byte) (n : ℕ) : Prop where
  nova : fs.procura d nome = none
  dir : fs.typeAt d = .fsDir
  range : 2 ≤ n ∧ n < itabSize
  livre : fs.alocado n = false
  primeiro : ∀ j < n, fs.alocado j = true
  alocado : ∀ j, fs'.alocado j = (decide (j = n) || fs.alocado j)
  type : ∀ j, fs'.typeAt j = if j = n then tipo else fs.typeAt j
  size : ∀ j, fs'.sizeAt j =
    if j = n then 0 else if j = d then fs.sizeAt d + 16 else fs.sizeAt j
  slot : ∀ p, p.1 ≠ d → fs'.slot p = if p.1 = n then 0 else fs.slot p
  bloco : fs.sizeAt d = 0 → fs.findFreeBlk = some (fs'.slot (d, 0))
  pagina : ∀ p ∈ fs.emUso, p.1 ≠ d → fs'.pagina p = fs.pagina p
  slotDir : fs.sizeAt d % blockSize ≠ 0 → ∀ q, fs'.slot (d, q) = fs.slot (d, q)
  livres : ∀ b, fs'.ocupado b = false → fs.ocupado b = false ∧
    (10 ≤ b → fs'.cache.disco.blocks b = fs.cache.disco.blocks b)
  entradas : fs'.entradas d = fs.entradas d ++ [(nome, n)]
  outras : ∀ e, e ≠ d → e ≠ n → fs'.entradas e = fs.entradas e
  consistent : fs'.Consistent

/-- The i-node that is taken is none that was in use. -/
theorem Criado.ne_of_alocado {tipo : FsItype} {fs fs' : Fs} {d n i : ℕ} {nome : List Byte}
    (hc : Criado tipo fs fs' d nome n) (hi : fs.alocado i = true) : i ≠ n := by
  rintro rfl
  simp [hc.livre] at hi

/-! ## The entry -/

/-- The page and the position of the entry that a directory gets next. -/
theorem next_entry {s : ℕ} (h : 16 ∣ s) :
    s / 16 / dirPageEntries = s / blockSize ∧
      s / 16 % dirPageEntries = s % blockSize / 16 ∧ s % blockSize / 16 < dirPageEntries ∧
      (s + 16) / 16 = s / 16 + 1 := by
  obtain ⟨k, rfl⟩ := h
  simp only [dirPageEntries, blockSize]
  omega

/-- Storing an entry behind the last one appends it. -/
theorem entradas_append {fs fs' : Fs} {d n : ℕ} {nome : List Byte} (page : Block)
    (h : fs.DirOk d) (hsize : fs'.sizeAt d = fs.sizeAt d + 16)
    (hpages : ∀ q < fs.sizeAt d / blockSize, fs'.pagina (d, q) = fs.pagina (d, q))
    (hlast : fs.sizeAt d % blockSize ≠ 0 → page = fs.pagina (d, fs.sizeAt d / blockSize))
    (hpage : fs'.pagina (d, fs.sizeAt d / blockSize) =
      setInodeid (strcpy page (16 * (fs.sizeAt d % blockSize / 16)) nome)
        (fs.sizeAt d % blockSize / 16) n)
    (hlen : nome.length < fsMaxFnameSz) (hs : 0#8 ∉ nome) (hn : n < itabSize) :
    fs'.entradas d = fs.entradas d ++ [(nome, n)] := by
  obtain ⟨hdiv, hmod, hlt, hsucc⟩ := next_entry h.align
  simp only [entradas, hsize, hsucc, List.range_succ, List.map_append, List.map_cons, List.map_nil]
  congr 1
  · refine List.map_congr_left fun k hk => ?_
    have hk' := List.mem_range.mp hk
    by_cases hq : k / dirPageEntries < fs.sizeAt d / blockSize
    · simp only [entrada, hpages _ hq]
    · -- an entry of the page that changes keeps its bytes
      have hkq : k / dirPageEntries = fs.sizeAt d / blockSize := by
        rw [← hdiv]
        exact Nat.le_antisymm (Nat.div_le_div_right hk'.le) (hdiv ▸ Nat.not_lt.mp hq)
      have hne : k % dirPageEntries ≠ fs.sizeAt d % blockSize / 16 := by
        simp only [dirPageEntries, blockSize] at *
        omega
      have hpart : fs.sizeAt d % blockSize ≠ 0 := by
        simp only [dirPageEntries, blockSize] at *
        omega
      have hfits : NameFits page (k % dirPageEntries) := by
        have hmem : fs.entrada d k ∈ fs.entradas d := List.mem_map_of_mem hk
        have := (h.entries _ hmem).2.1
        rwa [entrada, hkq, ← hlast hpart] at this
      have hk32 : k % dirPageEntries < dirPageEntries := Nat.mod_lt _ (by decide)
      simp only [entrada, hkq, hpage, ← hlast hpart]
      rw [nameAt_store_of_ne page hlt hlen n hk32 hne hfits,
        inodeidAt_store_of_ne page hlt hlen n hne]
  · rw [entrada, hdiv, hmod, hpage, nameAt_store_self page hlt hlen hs,
      inodeidAt_setInodeid _ hlt (hn.trans (by decide))]

/-- The block for the next entry: a new one when the directory is empty or its blocks
are full. -/
theorem reservar_entrada {fs : Fs} (h : fs.Consistent) {d : ℕ} (ht : fs.typeAt d = .fsDir) :
    ∃ fs₁, (if fs.sizeAt d % blockSize = 0 then
          fs.findFreeBlk.map fun fblock =>
            (fs.setBlk fblock).setBlock d (fs.sizeAt d / blockSize) fblock
        else some fs) = some fs₁ ∧
      fs₁.Accounts (insert (d, fs.sizeAt d / blockSize) fs.emUso) ∧ SameInodes fs fs₁ ∧
      fs₁.cache = fs.cache ∧ (∀ p, p ≠ (d, fs.sizeAt d / blockSize) → fs₁.slot p = fs.slot p) ∧
      (fs.sizeAt d % blockSize ≠ 0 → fs₁.slot = fs.slot) ∧
      (∀ b, fs.ocupado b = true → fs₁.ocupado b = true) ∧
      (fs.sizeAt d % blockSize = 0 →
        fs.findFreeBlk = some (fs₁.slot (d, fs.sizeAt d / blockSize))) := by
  have hlt := h.lt_of_alocado (h.alocado_of_type (i := d) (by simp [ht]))
  split
  · rename_i h0
    obtain ⟨b, hf, hb10, hbits, hfree⟩ := h.acc.exists_free
    have hnew : (d, fs.sizeAt d / blockSize) ∉ fs.emUso := by
      rw [h.mem_emUso_iff, lt_offsetToBlocks, Nat.not_lt]
      simp only [blockSize] at *
      omega
    have hq : fs.sizeAt d / blockSize < inodeNumBlks := by
      have := h.sizeAt_dir_le ht
      simp only [blockSize, inodeNumBlks] at *
      omega
    refine ⟨_, by rw [hf]; rfl, h.acc.reserveDir hnew hlt hq ht hb10 hbits hfree,
      ⟨rfl, (fs.setBlk b).setBlock_typeAt _ _ _, (fs.setBlk b).setBlock_sizeAt _ _ _⟩, rfl,
      fun p hp => (setBlock_slot _ _ _ _ _).trans (if_neg hp), fun hc => absurd h0 hc,
      fun c hc => (setBlk_ocupado fs hbits c).trans (by simp [hc]), fun _ => ?_⟩
    rw [hf, setBlock_slot, if_pos rfl]
  · rename_i h0
    have hmem : (d, fs.sizeAt d / blockSize) ∈ fs.emUso := by
      rw [h.mem_emUso_iff, lt_offsetToBlocks]
      simp only [blockSize] at *
      omega
    refine ⟨fs, rfl, ?_, SameInodes.refl fs, rfl, fun _ _ => rfl, fun _ => rfl, fun _ => id,
      fun hc => absurd hc h0⟩
    rw [Finset.insert_eq_of_mem hmem]
    exact h.acc

/-! ## The i-node -/

theorem bmapIsSet_inode_lt {n : ℕ} (h : n < itabSize) : n < bmapBits := h.trans (by decide)

/-- The i-node table after an i-node is taken and its entry added. -/
theorem Inodes.criar {fs fs' : Fs} {tipo : FsItype} {d n : ℕ} (h : fs.Consistent)
    (ht : fs.typeAt d = .fsDir) (htipo : tipo ≠ .unset) (hn : n < itabSize)
    (hlivre : fs.alocado n = false)
    (ha : ∀ j, fs'.alocado j = (decide (j = n) || fs.alocado j))
    (htype : ∀ j, fs'.typeAt j = if j = n then tipo else fs.typeAt j)
    (hsize : ∀ j, fs'.sizeAt j =
      if j = n then 0 else if j = d then fs.sizeAt d + 16 else fs.sizeAt j) : fs'.Inodes := by
  have hd := h.alocado_of_type (i := d) (by simp [ht])
  have hnd : d ≠ n := by
    rintro rfl
    simp [hlivre] at hd
  have hne : ∀ i, fs.alocado i = true → i ≠ n := by
    rintro i hi rfl
    simp [hlivre] at hi
  have hdle := h.sizeAt_dir_le ht
  refine ⟨fun i hi => ?_, fun i hi => ?_, ?_, ?_, fun i h0 hi => ?_, fun i => ?_, ?_⟩
  · rw [ha, Bool.or_eq_true, decide_eq_true_eq] at hi
    exact hi.elim (fun he => he ▸ hn) (h.inodes.lt i)
  · rw [ha, Bool.or_eq_false_iff, decide_eq_false_iff_not] at hi
    have hid : i ≠ d := by
      rintro rfl
      simp [hd] at hi
    rw [htype, if_neg hi.1, hsize, if_neg hi.1, if_neg hid]
    exact h.inodes.livre i hi.2
  · obtain ⟨h1, h2, h3⟩ := h.inodes.zero
    have h0n := hne 0 h1
    have h0d : 0 ≠ d := by
      rintro rfl
      simp [h2] at ht
    exact ⟨by simp [ha, h1], by rw [htype, if_neg h0n, h2],
      by rw [hsize, if_neg h0n, if_neg h0d, h3]⟩
  · obtain ⟨h1, h2⟩ := h.inodes.root
    exact ⟨by simp [ha, h1], by rw [htype, if_neg (hne 1 h1), h2]⟩
  · rw [htype]
    split
    · exact htipo
    · rename_i hin
      refine h.inodes.typed i h0 ?_
      simpa [ha, hin] using hi
  · have := h.inodes.full i
    rw [hsize]
    simp only [blockSize, inodeNumBlks] at *
    split_ifs <;> omega
  · have hnum : ∀ j, fs'.numEntradas j = fs.numEntradas j + if j = d then 1 else 0 := by
      intro j
      have hlv := h.inodes.livre n hlivre
      simp only [numEntradas, htype, hsize]
      by_cases hjn : j = n
      · simp [hjn, Ne.symm hnd, hlv.1]
      · by_cases hjd : j = d
        · subst hjd
          simp only [hjn, ht, if_true, if_false]
          omega
        · simp [hjn, hjd]
    have hcard : fs'.alocados = insert n fs.alocados := by
      ext j
      simp only [Finset.mem_insert, mem_alocados, ha, Bool.or_eq_true, decide_eq_true_eq]
      constructor
      · rintro ⟨hlt, he | hj⟩
        · exact .inl he
        · exact .inr ⟨hlt, hj⟩
      · rintro (rfl | ⟨hlt, hj⟩)
        · exact ⟨hn, .inl rfl⟩
        · exact ⟨hlt, .inr hj⟩
    have hnot : n ∉ fs.alocados := by simp [mem_alocados, hlivre]
    have htotal := h.inodes.total
    simp only [hnum, Finset.sum_add_distrib, Finset.sum_ite_eq', Finset.mem_range, hcard,
      Finset.card_insert_of_notMem hnot, h.lt_of_alocado hd, if_true]
    omega

/-- The slots in use after an entry is added. -/
theorem emUso_criar {fs fs' : Fs} {d n : ℕ} (h : fs.Consistent) (ht : fs.typeAt d = .fsDir)
    (hlivre : fs.alocado n = false)
    (ha : ∀ j, fs'.alocado j = (decide (j = n) || fs.alocado j))
    (hsize : ∀ j, fs'.sizeAt j =
      if j = n then 0 else if j = d then fs.sizeAt d + 16 else fs.sizeAt j) :
    fs'.emUso = insert (d, fs.sizeAt d / blockSize) fs.emUso := by
  have hd := h.alocado_of_type (i := d) (by simp [ht])
  have hnd : d ≠ n := by
    rintro rfl
    simp [hlivre] at hd
  have hdle := h.sizeAt_dir_le ht
  have halign := (h.dirs d ht).align
  ext ⟨j, r⟩
  rw [Finset.mem_insert, mem_emUso, mem_emUso, ha, hsize]
  by_cases hjn : j = n
  · subst hjn
    simp [hlivre, Ne.symm hnd]
  · by_cases hjd : j = d
    · subst hjd
      have hlt := h.lt_of_alocado hd
      simp only [hjn, if_false, if_true, hd, lt_offsetToBlocks, Prod.mk.injEq, true_and,
        decide_false, Bool.or_true]
      simp only [blockSize, inodeNumBlks, itabSize] at *
      omega
    · simp [hjn, hjd]

/-- The end of the calls that change an entry: the size of the directory, an i-node, the
i-node bitmap and the metadata on disk. -/
theorem Accounts.concluir {fs : Fs} {live : Finset (ℕ × ℕ)} (h : fs.Accounts live)
    (d s : ℕ) {n : ℕ} (hn : ∀ p ∈ live, p.1 ≠ n) (inode : FsInode) (bmap : Block) :
    ∃ fs', fsiStoreFsdata (Fs.setInode { fs.setSize d s with inodeBmap := bmap } n inode) = fs' ∧
      fs'.Accounts live ∧ fs'.inodeBmap = bmap ∧
      (∀ j, fs'.typeAt j = if j = n then inode.type else fs.typeAt j) ∧
      (∀ j, fs'.sizeAt j = if j = n then inode.size else if j = d then s else fs.sizeAt j) ∧
      (∀ p, fs'.slot p = if p.1 = n then inode.blocks p.2 else fs.slot p) ∧
      (∀ p ∈ live, fs'.pagina p = fs.pagina p) ∧ fs'.blkBmap = fs.blkBmap ∧
      ∀ b, 10 ≤ b → fs'.cache.disco.blocks b = fs.cache.disco.blocks b := by
  generalize hfs₁ : Fs.setInode { fs.setSize d s with inodeBmap := bmap } n inode = fs₁
  have htype : ∀ j, fs₁.typeAt j = if j = n then inode.type else fs.typeAt j := by
    intro j
    rw [← hfs₁, setInode_typeAt]
    exact if_congr Iff.rfl rfl (setSize_typeAt fs d s j)
  have hsize : ∀ j, fs₁.sizeAt j =
      if j = n then inode.size else if j = d then s else fs.sizeAt j := by
    intro j
    rw [← hfs₁, setInode_sizeAt]
    exact if_congr Iff.rfl rfl (setSize_sizeAt fs d s j)
  have hslot : ∀ p, fs₁.slot p = if p.1 = n then inode.blocks p.2 else fs.slot p := by
    intro p
    rw [← hfs₁, setInode_slot]
    exact if_congr Iff.rfl rfl (setSize_slot fs d s p)
  have hlive : ∀ p ∈ live, fs₁.slot p = fs.slot p := fun p hp => by rw [hslot, if_neg (hn p hp)]
  have hacc : fs₁.Accounts live :=
    h.congr (by rw [← hfs₁]; rfl) (by rw [← hfs₁]; rfl) (by rw [← hfs₁]; rfl)
      (fun p hp => by rw [htype, if_neg (hn p hp)]) hlive
  obtain ⟨c, hc, -, -, hdisk⟩ := fsiStoreFsdata_spec fs₁
  refine ⟨_, rfl, hacc.store, by rw [hc, ← hfs₁]; rfl, ?_, ?_, ?_, fun p hp => ?_,
    by rw [hc, ← hfs₁]; rfl, fun b hb => by rw [hc, withCache_cache, hdisk b hb, ← hfs₁]; rfl⟩
  · rw [hc]
    exact htype
  · rw [hc]
    exact hsize
  · rw [hc]
    exact hslot
  · have hs : (fsiStoreFsdata fs₁).slot p = fs.slot p := by
      rw [hc]
      exact hlive p hp
    rw [pagina, hs, store_conteudo fs₁ (h.range p hp), ← hfs₁]
    rfl

/-- The new entry keeps the directories packed and their names distinct. -/
theorem dirs_criar {fs fs' : Fs} {tipo : FsItype} {d n q : ℕ} {nome : List Byte}
    (h : fs.Consistent) (ht : fs.typeAt d = .fsDir) (hnd : d ≠ n)
    (hq : fs.sizeAt d / blockSize = q) (hname : EntradaOk (nome, n))
    (hnova : fs.procura d nome = none)
    (htype : ∀ j, fs'.typeAt j = if j = n then tipo else fs.typeAt j)
    (hsize : ∀ j, fs'.sizeAt j =
      if j = n then 0 else if j = d then fs.sizeAt d + 16 else fs.sizeAt j)
    (hslot : ∀ p, p ≠ (d, q) → fs'.slot p = if p.1 = n then 0 else fs.slot p)
    (hentradas : fs'.entradas d = fs.entradas d ++ [(nome, n)])
    (houtras : ∀ e, e ≠ d → e ≠ n → fs'.entradas e = fs.entradas e) (e : ℕ)
    (he : fs'.typeAt e = .fsDir) : fs'.DirOk e := by
  by_cases hed : e = d
  · subst hed
    obtain ⟨halign, hdclear, hentries, hnodup⟩ := h.dirs e ht
    have hse : fs'.sizeAt e = fs.sizeAt e + 16 := by rw [hsize, if_neg hnd, if_pos rfl]
    refine ⟨hse ▸ (Nat.dvd_add_self_right.mpr halign), fun r hr => ?_, ?_, ?_⟩
    · rw [hse, offsetToBlocks_le] at hr
      have hrq : r ≠ q := by
        simp only [blockSize] at *
        omega
      rw [hslot (e, r) (by simp [hrq]), if_neg hnd]
      refine hdclear r (offsetToBlocks_le.mpr ?_)
      omega
    · rw [hentradas]
      intro x hx
      rcases List.mem_append.mp hx with hx | hx
      · exact hentries x hx
      · rw [List.mem_singleton.mp hx]
        exact hname
    · rw [hentradas, List.map_append, List.map_singleton, List.nodup_append]
      refine ⟨hnodup, List.nodup_singleton _, fun a ha' b hb' => ?_⟩
      rw [List.mem_singleton.mp hb']
      intro hab
      obtain ⟨x, hx, hxe⟩ := List.mem_map.mp ha'
      have hany : (fs.entradas e).any (fun y => y.1 = nome) = true :=
        List.any_eq_true.mpr ⟨x, hx, decide_eq_true (hxe.trans hab)⟩
      rw [← procura_isSome, hnova] at hany
      exact Bool.noConfusion hany
  · by_cases hen : e = n
    · have hs0 : fs'.sizeAt e = 0 := by rw [hsize, if_pos hen]
      have hnil : fs'.entradas e = [] := by simp [entradas, hs0]
      refine ⟨by simp [hs0], fun r _ => ?_, by simp [hnil], by simp [hnil]⟩
      rw [hslot (e, r) (by simp [hed]), if_pos hen]
    · have hse : fs'.sizeAt e = fs.sizeAt e := by rw [hsize, if_neg hen, if_neg hed]
      rw [htype, if_neg hen] at he
      obtain ⟨halign, hdclear, hentries, hnodup⟩ := h.dirs e he
      rw [← houtras e hed hen] at hentries hnodup
      refine ⟨hse ▸ halign, fun r hr => ?_, hentries, hnodup⟩
      rw [hslot (e, r) (by simp [hed]), if_neg hen]
      exact hdclear r (hse ▸ hr)

/-! ## The calls -/

/-- The names and states for which `fs_create` and `fs_mkdir` answer -1. -/
def CriarRecusado (fs : Fs) (d : ℕ) (file : CString) : Prop :=
  badName file ∨ fs.typeAt d ≠ .fsDir ∨ (fs.procura d file.val).isSome = true ∨
    ∀ n < itabSize, fs.alocado n = true

/-- `fs_create` and `fs_mkdir` either refuse the call or create one i-node. -/
theorem fsCriar_spec {fs : Fs} (h : fs.Consistent) (tipo : FsItype) (htipo : tipo ≠ .unset)
    (d : ℕ) (file : CString) :
    fsCriar tipo fs d file = some (fs, none) ∧ fs.CriarRecusado d file ∨
      ∃ fs' n, fsCriar tipo fs d file = some (fs', some n) ∧ Criado tipo fs fs' d file.val n := by
  rw [fsCriar]
  split
  · rename_i hargs
    exact .inl ⟨rfl, hargs.elim (fun hd => .inr (.inl (h.not_dir (.inl hd)))) .inl⟩
  rename_i hargs
  split
  · rename_i hset
    exact .inl ⟨rfl, .inr (.inl (h.not_dir (.inr (by simpa [alocado] using hset))))⟩
  split
  · rename_i hdir
    exact .inl ⟨rfl, .inr (.inl hdir)⟩
  rename_i hdir
  have ht : fs.typeAt d = .fsDir := not_not.mp hdir
  have ht' : (fs.inodeTab d).type = .fsDir := ht
  have hd := h.alocado_of_type (i := d) (by simp [ht])
  rw [h.fsiDirSearch_eq ht file.property, Option.bind_some]
  by_cases hfound : (fs.procura d file.val).isSome
  · exact .inl ⟨by simp [hfound], .inr (.inr (.inl hfound))⟩
  simp only [hfound, Bool.false_eq_true, if_false]
  cases hfree : fsiBmapFindFree fs.inodeBmap itabSize with
  | none =>
      exact .inl ⟨rfl, .inr (.inr (.inr fun n hn => fsiBmapFindFree_eq_none.mp hfree n hn))⟩
  | some n =>
      right
      obtain ⟨hn, hclear⟩ := fsiBmapFindFree_eq_some hfree
      have hlivre : fs.alocado n = false := hclear
      have hnd : d ≠ n := by
        rintro rfl
        simp [hlivre] at hd
      obtain ⟨fs₁, hres, hacc₁, hsame₁, hcache₁, hslot₁, hslot₁', hocc₁, hbloco₁⟩ :=
        reservar_entrada h ht
      have hsize : (fs.inodeTab d).size = fs.sizeAt d := rfl
      have htype₁ : (fs₁.inodeTab d).type = .fsDir := (hsame₁.type d).trans ht
      simp only [hsize, hres, htype₁]
      generalize hq : fs.sizeAt d / blockSize = q at *
      have hmem : (d, q) ∈ insert (d, q) fs.emUso := Finset.mem_insert_self _ _
      have hb : (fs₁.inodeTab d).blocks q = fs₁.slot (d, q) := rfl
      rw [hb, hacc₁.lerBloco_dir hmem ((hsame₁.type d).trans ht)]
      simp only [Option.bind_some, htype₁, reduceCtorEq, if_false]
      generalize hpg : setInodeid
        (strcpy (fs₁.pagina (d, q)) (16 * (fs.sizeAt d % blockSize / 16)) file.val)
        (fs.sizeAt d % blockSize / 16) n = page
      obtain ⟨hacc₂, hself₂, hother₂⟩ :=
        hacc₁.writeDisk_dir hmem ((hsame₁.type d).trans ht) page
      have hlive : ∀ p ∈ insert (d, q) fs.emUso, p.1 ≠ n := by
        rintro ⟨i, r⟩ hp rfl
        rcases Finset.mem_insert.mp hp with he | hp
        · exact hnd (Prod.mk.injEq _ _ _ _ ▸ he).1.symm
        · have := (mem_emUso.mp hp).2.2.1
          simp [hlivre] at this
      obtain ⟨fs', hfs', hacc', hbmap', htype', hsize', hslot', hpag', hblk', hdisk'⟩ :=
        hacc₂.concluir d (fs.sizeAt d + 16) hlive (fsiInodeInit tipo) (bmapSet fs₁.inodeBmap n)
      refine ⟨fs', n, congrArg (fun s => some (s, some n)) hfs', ?_⟩
      have ha : ∀ j, fs'.alocado j = (decide (j = n) || fs.alocado j) := by
        intro j
        rw [alocado, hbmap', bmapIsSet_set (bmapIsSet_inode_lt hn), hsame₁.inodeBmap]
        rfl
      have htype : ∀ j, fs'.typeAt j = if j = n then tipo else fs.typeAt j := by
        intro j
        rw [htype', writeDisk_eq, withCache_typeAt, hsame₁.type]
        rfl
      have hsize : ∀ j, fs'.sizeAt j =
          if j = n then 0 else if j = d then fs.sizeAt d + 16 else fs.sizeAt j := by
        intro j
        rw [hsize', writeDisk_eq, withCache_sizeAt, hsame₁.size]
        rfl
      have hslot : ∀ p, p ≠ (d, q) → fs'.slot p = if p.1 = n then 0 else fs.slot p := by
        intro p hp
        rw [hslot', writeDisk_eq, withCache_slot, hslot₁ p hp]
        rfl
      have hpag : ∀ p ∈ fs.emUso, p ≠ (d, q) → fs'.pagina p = fs.pagina p := by
        intro p hp hne
        have hp' := Finset.mem_insert_of_mem (b := (d, q)) hp
        rw [hpag' p hp', hother₂ p hp' hne, pagina, pagina, hcache₁, hslot₁ p hne]
      have hinodes : fs'.Inodes := Inodes.criar h ht htipo hn hlivre ha htype hsize
      have huso : fs'.emUso = insert (d, q) fs.emUso := by
        rw [← hq]
        exact emUso_criar h ht hlivre ha hsize
      have hentradas : fs'.entradas d = fs.entradas d ++ [(file.val, n)] := by
        refine entradas_append (fs₁.pagina (d, q)) (h.dirs d ht)
          (by rw [hsize, if_neg hnd, if_pos rfl]) (fun r hr => ?_) (fun hpart => ?_) ?_ ?_
          file.property hn
        · rw [hq] at hr
          refine hpag (d, r) (h.mem_emUso_iff.mpr (lt_offsetToBlocks.mpr ?_)) (by simp; omega)
          simp only [blockSize] at *
          omega
        · rw [hq, pagina, pagina, hcache₁, hslot₁' hpart]
        · rw [hq, hpg, hpag' _ hmem, hself₂]
        · have := not_or.mp (not_or.mp hargs).2
          simp only [fsMaxFnameSz] at *
          omega
      have houtras : ∀ e, e ≠ d → e ≠ n → fs'.entradas e = fs.entradas e := by
        intro e hed hen
        refine entradas_congr (by rw [hsize, if_neg hen, if_neg hed]) fun r hr => ?_
        exact hpag (e, r) (h.mem_emUso_iff.mpr hr) (by simp [hed])
      have hrange : 2 ≤ n := by
        have h0 := h.inodes.zero.1
        have h1 := h.inodes.root.1
        by_contra hlt
        obtain rfl | rfl : n = 0 ∨ n = 1 := by omega
        · simp [h0] at hlivre
        · simp [h1] at hlivre
      have hnova : fs.procura d file.val = none := by simpa using hfound
      have hname : EntradaOk (file.val, n) := by
        have := not_or.mp (not_or.mp hargs).2
        refine ⟨fun hnil => this.1 (List.length_eq_zero_iff.mpr hnil), ?_, hrange, hn⟩
        simp only [fsMaxFnameSz] at *
        omega
      have hslotd : ∀ r, fs'.slot (d, r) = fs₁.slot (d, r) := by
        intro r
        rw [hslot', if_neg hnd, writeDisk_eq, withCache_slot]
      refine ⟨hnova, ht, ⟨hrange, hn⟩, hlivre, fun j hj => ?_, ha, htype, hsize,
        fun p hp => hslot p fun he => hp (by rw [he]), fun h0 => ?_,
        fun p hp hne => hpag p hp fun he => hne (by rw [he]),
        fun h0 r => by rw [hslotd, hslot₁' h0], fun b hb => ?_, hentradas, houtras, huso ▸ hacc',
        hinodes, dirs_criar h ht hnd hq hname hnova htype hsize hslot hentradas houtras⟩
      · have hfirst := (List.find?_range_eq_some.mp hfree).2.2 j hj
        simpa [alocado] using hfirst
      · have hq0 : q = 0 := by rw [← hq, h0, Nat.zero_div]
        rw [hslotd, hbloco₁ (by rw [h0, Nat.zero_mod]), hq0]
      · rw [ocupado, hblk'] at hb
        have hb₁ : fs₁.ocupado b = false := hb
        refine ⟨?_, fun h10 => ?_⟩
        · by_contra hno
          rw [Bool.not_eq_false] at hno
          simp [hocc₁ b hno] at hb₁
        · have hne : b ≠ fs₁.slot (d, q) := (hacc₁.slot_ne_of_free hb₁ hmem).symm
          rw [hdisk' b h10, writeDisk_eq, withCache_cache, CacheT.writeDisk,
            blockWrite_blocks_of_ne _ _ hne, hcache₁]

/-- Where the first `n` i-nodes are taken, a new name gets i-node `n`. -/
theorem fsCriar_em_ordem {fs : Fs} (h : fs.Consistent) (tipo : FsItype) (htipo : tipo ≠ .unset)
    {d n : ℕ} {file : CString} (hfile : ¬badName file) (hd : fs.typeAt d = .fsDir)
    (hnova : fs.procura d file.val = none) (hal : ∀ i, fs.alocado i = decide (i < n))
    (hn : n < itabSize) :
    ∃ fs', fsCriar tipo fs d file = some (fs', some n) ∧ Criado tipo fs fs' d file.val n := by
  rcases fsCriar_spec h tipo htipo d file with ⟨-, hrec⟩ | ⟨fs', m, hr, hc⟩
  · rcases hrec with hb | hno | hp | hf
    · exact absurd hb hfile
    · exact absurd hd hno
    · rw [hnova] at hp
      cases hp
    · have := hf n hn
      rw [hal, decide_eq_true_iff] at this
      exact absurd this (lt_irrefl n)
  · have hlivre := hc.livre
    rw [hal, decide_eq_false_iff_not] at hlivre
    obtain rfl : m = n := by
      by_contra hne
      have := hc.primeiro n (by omega)
      rw [hal, decide_eq_true_iff] at this
      exact lt_irrefl n this
    exact ⟨fs', hr, hc⟩

/-- The i-nodes are taken in order. -/
theorem Criado.alocado_succ {tipo : FsItype} {fs fs' : Fs} {d n : ℕ} {nome : List Byte}
    (hc : Criado tipo fs fs' d nome n) (hal : ∀ i, fs.alocado i = decide (i < n)) (i : ℕ) :
    fs'.alocado i = decide (i < n + 1) := by
  rw [hc.alocado, hal, Bool.eq_iff_iff]
  simp only [Bool.or_eq_true, decide_eq_true_eq]
  omega

end Fs

end ThreadScheduler.SnfsServer
