import ThreadScheduler.SnfsServer.CallCases

/-!
# Searches on the disk

`fsi_dir_search` and `fs_remove` look for a name in the same entries, and they read them from the
disk. What they find depends on the size and on the pages of the directory only, whatever the rest
of the state.
-/
namespace ThreadScheduler.SnfsServer

theorem procurarNaPagina_eq_find (page : Block) (file : List Byte) (i n : ℕ) :
    procurarNaPagina page file i n =
      ((List.range' i n).find? fun k => strcmpEq page (16 * k) file).map (inodeidAt page) := by
  induction n generalizing i with
  | zero => rfl
  | succ n ih =>
      rw [procurarNaPagina, List.range'_succ, List.find?_cons]
      split
      · rename_i h
        simp only [h, Option.map_some]
      · rename_i h
        simp only [h, ih]

theorem indiceNaPagina_isSome_iff (page : Block) (name : List Byte) (n : ℕ) :
    (indiceNaPagina page name n).isSome = true ↔ ∃ k < n, strcmpEq page (16 * k) name = true := by
  induction n with
  | zero =>
      refine iff_of_false Bool.noConfusion ?_
      rintro ⟨k, hk, -⟩
      exact Nat.not_lt_zero k hk
  | succ n ih =>
      rw [indiceNaPagina]
      split
      · rename_i h
        exact iff_of_true rfl ⟨n, Nat.lt_succ_self n, h⟩
      · rename_i h
        rw [ih]
        constructor
        · rintro ⟨k, hk, hs⟩
          exact ⟨k, Nat.lt_succ_of_lt hk, hs⟩
        · rintro ⟨k, hk, hs⟩
          refine ⟨k, (Nat.lt_succ_iff.mp hk).lt_of_ne ?_, hs⟩
          rintro rfl
          exact h hs

namespace Fs

/-- The page of entry `k` on the disk. -/
def paginaDisco (fs : Fs) (d k : ℕ) : Block := fs.readDisk (fs.slot (d, k / dirPageEntries))

/-- Entry `k` has the name. -/
def temNome (fs : Fs) (d : ℕ) (nome : List Byte) (k : ℕ) : Bool :=
  strcmpEq (fs.paginaDisco d k) (16 * (k % dirPageEntries)) nome

/-- The i-node of entry `k`. -/
def inodeDisco (fs : Fs) (d k : ℕ) : ℕ := inodeidAt (fs.paginaDisco d k) (k % dirPageEntries)

variable {fs : Fs} {d : ℕ}

theorem paginaDisco_eq (fs : Fs) (d iblock : ℕ) {i : ℕ} (hi : i < dirPageEntries) :
    fs.paginaDisco d (dirPageEntries * iblock + i) = fs.readDisk (fs.slot (d, iblock)) ∧
      (dirPageEntries * iblock + i) % dirPageEntries = i := by
  have hdiv : (dirPageEntries * iblock + i) / dirPageEntries = iblock := by
    simp only [dirPageEntries] at *
    omega
  refine ⟨by rw [paginaDisco, hdiv], ?_⟩
  simp only [dirPageEntries] at *
  omega

theorem temNome_eq (fs : Fs) (d iblock : ℕ) (nome : List Byte) {i : ℕ} (hi : i < dirPageEntries) :
    fs.temNome d nome (dirPageEntries * iblock + i) =
      strcmpEq (fs.readDisk (fs.slot (d, iblock))) (16 * i) nome := by
  obtain ⟨hp, hm⟩ := paginaDisco_eq fs d iblock hi
  rw [temNome, hp, hm]

/-- The loop of `fsi_dir_search` finds the first entry with the name. -/
theorem fsiDirSearchLoop_disco (ht : fs.typeAt d = .fsDir) (nome : List Byte) (num iblock : ℕ) :
    fsiDirSearchLoop fs d nome num iblock =
      some (fs, ((List.range' (dirPageEntries * iblock) num).find? (fs.temNome d nome)).map
        (fs.inodeDisco d)) := by
  have ht' : (fs.inodeTab d).type = .fsDir := ht
  induction num using Nat.strong_induction_on generalizing iblock with
  | _ num ih =>
      rw [fsiDirSearchLoop]
      split
      · rename_i h0
        rw [h0]
        rfl
      · rename_i h0
        simp only [ht', Fs.lerBloco, reduceCtorEq, if_false, Option.bind_some]
        rw [procurarNaPagina_eq_find, ← List.range_eq_range', range_page, List.find?_append,
          List.find?_map]
        have hfind : (List.range (min num dirPageEntries)).find?
              (fs.temNome d nome ∘ (dirPageEntries * iblock + ·)) =
            (List.range (min num dirPageEntries)).find? fun k =>
              strcmpEq (fs.readDisk ((fs.inodeTab d).blocks iblock)) (16 * k) nome :=
          List.find?_congr fun k hm => temNome_eq fs d iblock nome (lt_of_mem_page hm)
        rw [hfind]
        cases hf : (List.range (min num dirPageEntries)).find? fun k =>
            strcmpEq (fs.readDisk ((fs.inodeTab d).blocks iblock)) (16 * k) nome with
        | some k =>
            obtain ⟨hp, hm⟩ := paginaDisco_eq fs d iblock
              (lt_of_mem_page (List.mem_of_find?_eq_some hf))
            simp only [Option.map_some, Option.some_or, inodeDisco, hp, hm]
            rfl
        | none =>
            simp only [Option.map_none, Option.none_or]
            exact ih _ (sub_page_lt h0) (iblock + 1)

/-- `fsi_dir_search` in a directory. -/
theorem encontra_disco (ht : fs.typeAt d = .fsDir) (nome : List Byte) : fs.encontra d nome =
    ((List.range (fs.sizeAt d / 16)).find? (fs.temNome d nome)).map (fs.inodeDisco d) := by
  have hsize : (fs.inodeTab d).size = fs.sizeAt d := rfl
  rw [encontra, fsiDirSearch, hsize, fsiDirSearchLoop_disco ht, Nat.mul_zero,
    ← List.range_eq_range']
  rfl

theorem encontra_isSome_iff (ht : fs.typeAt d = .fsDir) (nome : List Byte) :
    (fs.encontra d nome).isSome = true ↔ ∃ k < fs.sizeAt d / 16, fs.temNome d nome k = true := by
  rw [encontra_disco ht, Option.isSome_map, List.find?_isSome]
  simp only [List.mem_range]

/-- The search of `fs_remove` finds an entry when there is one. -/
theorem procurarEntrada_isSome_iff (ht : fs.typeAt d = .fsDir) (nome : List Byte)
    (num iblock : ℕ) :
    ∃ r, procurarEntrada fs d nome num iblock = some (fs, r) ∧ (r.isSome = true ↔
      ∃ k, dirPageEntries * iblock ≤ k ∧ k < dirPageEntries * iblock + num ∧
        fs.temNome d nome k = true) := by
  have ht' : (fs.inodeTab d).type = .fsDir := ht
  induction num using Nat.strong_induction_on generalizing iblock with
  | _ num ih =>
      rw [procurarEntrada]
      split
      · rename_i h0
        refine ⟨none, rfl, iff_of_false Bool.noConfusion ?_⟩
        rintro ⟨k, h1, h2, -⟩
        omega
      · rename_i h0
        simp only [ht', Fs.lerBloco, reduceCtorEq, if_false, Option.bind_some]
        have hpage := indiceNaPagina_isSome_iff (fs.readDisk ((fs.inodeTab d).blocks iblock)) nome
          (min num dirPageEntries)
        cases hi : indiceNaPagina (fs.readDisk ((fs.inodeTab d).blocks iblock)) nome
            (min num dirPageEntries) with
        | some i =>
            rw [hi] at hpage
            obtain ⟨k, hk, hs⟩ := hpage.mp rfl
            refine ⟨some i, rfl, iff_of_true rfl ⟨dirPageEntries * iblock + k, Nat.le_add_right _ _,
              by omega, ?_⟩⟩
            rw [temNome_eq fs d iblock nome (by omega)]
            exact hs
        | none =>
            rw [hi] at hpage
            obtain ⟨r, hr, hiff⟩ := ih _ (sub_page_lt h0) (iblock + 1)
            refine ⟨r, hr, hiff.trans ⟨?_, ?_⟩⟩
            · rintro ⟨k, h1, h2, hs⟩
              refine ⟨k, ?_, ?_, hs⟩ <;> simp only [dirPageEntries] at * <;> omega
            · rintro ⟨k, h1, h2, hs⟩
              refine ⟨k, ?_, ?_, hs⟩
              · -- an entry of this page would have been found
                by_contra hlt
                have hk : k - dirPageEntries * iblock < min num dirPageEntries := by
                  simp only [dirPageEntries] at *
                  omega
                refine absurd (hpage.mpr ⟨_, hk, ?_⟩) Bool.noConfusion
                have := temNome_eq fs d iblock nome (i := k - dirPageEntries * iblock) (by omega)
                rw [Nat.add_sub_cancel' h1, hs] at this
                exact this.symm
              · simp only [dirPageEntries] at *
                omega

/-! ### Blocks on the disk -/

theorem readDisk_eq (fs : Fs) (b : ℕ) :
    fs.readDisk b = if b < fs.numBlocks then fs.cache.disco.blocks b else nullBlock := by
  rw [readDisk, blockRead, numBlocks, blockNumBlocks]
  split
  · rename_i h
    rw [if_neg (Nat.not_lt.mpr h)]
  · rename_i h
    rw [if_pos (Nat.not_le.mp h)]

theorem writeDisk_readDisk_of_ne (fs : Fs) {b c : ℕ} (data : Block) (h : c ≠ b) :
    (fs.writeDisk b data).readDisk c = fs.readDisk c := by
  have hn : (fs.writeDisk b data).numBlocks = fs.numBlocks :=
    CacheT.writeDisk_numBlocks fs.cache b data
  rw [readDisk_eq, readDisk_eq, hn]
  exact if_congr Iff.rfl (blockWrite_blocks_of_ne _ _ h) rfl

theorem writeDisk_readDisk_self {fs : Fs} {b : ℕ} (data : Block) (h : b < fs.numBlocks) :
    (fs.writeDisk b data).readDisk b = data := by
  have hn : (fs.writeDisk b data).numBlocks = fs.numBlocks :=
    CacheT.writeDisk_numBlocks fs.cache b data
  rw [readDisk_eq, hn, if_pos h]
  exact blockWrite_blocks_self data h

theorem store_readDisk (fs : Fs) {b : ℕ} (hb : 10 ≤ b) :
    (fsiStoreFsdata fs).readDisk b = fs.readDisk b := by
  obtain ⟨c, hc, -, hn, hd⟩ := fsiStoreFsdata_spec fs
  rw [readDisk_eq, readDisk_eq, store_numBlocks, hc]
  exact if_congr Iff.rfl (hd b hb) rfl

end Fs

open Fs

/-! ## Removing -/

/-- The entry that `fsi_dir_search` has found is found again. -/
theorem removerEntrada_encontra {fs : Fs} {dir : ℕ} {nome : List Byte} {r : Fs × Bool}
    (ht : fs.typeAt dir = .fsDir) (hf : (fs.encontra dir nome).isSome = true)
    (h : removerEntrada fs dir nome = some r) : r.2 = true := by
  obtain ⟨k, hk, hs⟩ := (encontra_isSome_iff ht nome).mp hf
  obtain ⟨found, hp, hiff⟩ := procurarEntrada_isSome_iff ht nome (fs.sizeAt dir / 16) 0
  have hfound : found.isSome = true := hiff.mpr ⟨k, Nat.zero_le k, by omega, hs⟩
  have hsize : (fs.inodeTab dir).size = fs.sizeAt dir := rfl
  rw [removerEntrada, hsize] at h
  simp only at h
  split at h
  · rw [← Option.some.inj h]
  rw [hp, Option.bind_some] at h
  generalize fs.sizeAt dir / 16 = num at h
  generalize num / dirPageEntries = u at h
  generalize (if u = 0 then num - 1 else (num - 1) % (u * dirPageEntries)) = e at h
  simp only [Option.isSome_iff_ne_none.mp hfound, Option.isNone_iff_eq_none, if_false] at h
  split at h
  · rw [← Option.some.inj h]
  obtain ⟨⟨fs₁, data⟩, -, h⟩ := Option.bind_eq_some_iff.mp h
  simp only at h
  split at h
  · rw [← Option.some.inj h]
  · obtain ⟨fs₂, -, rfl⟩ := Option.map_eq_some_iff.mp h
    rfl

/-! ## Creating -/

theorem strcmpEq_congr {page page' : Block} {off : ℕ} {s : List Byte}
    (h : ∀ j, off ≤ j → j ≤ off + s.length → byteAt page' j = byteAt page j) :
    strcmpEq page' off s = strcmpEq page off s := by
  induction s generalizing off with
  | nil => rw [strcmpEq, strcmpEq, h off le_rfl (Nat.le_add_right _ _)]
  | cons c s ih =>
      have htail : strcmpEq page' (off + 1) s = strcmpEq page (off + 1) s := by
        refine ih fun j h1 h2 => h j (by omega) ?_
        rw [List.length_cons]
        omega
      rw [strcmpEq, strcmpEq, h off le_rfl (Nat.le_add_right _ _), htail]

theorem length_of_not_badName {file : CString} (h : ¬badName file) :
    file.val.length < fsMaxFnameSz := by
  rw [badName] at h
  omega

/-- The page with the new entry: it has the name, with the new i-node, and the other entries have
the names that they had. -/
theorem paginaNova_temNome (fs : Fs) (dir finode : ℕ) {i : ℕ} {file : CString}
    (hname : ¬badName file) (hi : i < dirPageEntries) :
    if i = fs.sizeAt dir % blockSize / 16 then
      strcmpEq (paginaNova fs dir finode file.val) (16 * i) file.val = true ∧
        (finode < itabSize → inodeidAt (paginaNova fs dir finode file.val) i = finode)
    else strcmpEq (paginaNova fs dir finode file.val) (16 * i) file.val =
      strcmpEq (fs.readDisk (fs.slot (dir, fs.sizeAt dir / blockSize))) (16 * i) file.val := by
  have hlen := length_of_not_badName hname
  have he : fs.sizeAt dir % blockSize / 16 < dirPageEntries := by
    simp only [blockSize, dirPageEntries]
    omega
  rw [paginaNova]
  generalize fs.readDisk (fs.slot (dir, fs.sizeAt dir / blockSize)) = page
  split
  · rename_i hie
    subst hie
    refine ⟨?_, fun hf => inodeidAt_setInodeid _ he (by simp only [itabSize] at hf; omega)⟩
    rw [strcmpEq_nameAt _ he file.property, decide_eq_true_eq]
    exact nameAt_store_self page he hlen file.property finode
  · rename_i hie
    refine strcmpEq_congr fun j h1 h2 => byteAt_store_of_outside page he hlen finode ?_
    simp only [fsMaxFnameSz] at hlen
    omega

/-- After a creation in a directory whose blocks are data blocks, its name gives the new i-node. -/
theorem encontra_criado {tipo : FsItype} {fs fs₁ : Fs} {dir finode : ℕ} {file : CString}
    (h : Admite fs dir file finode) (hv : Vaga fs dir fs₁)
    (hs : ∀ q ≤ fs.sizeAt dir / blockSize, 10 ≤ fs₁.slot (dir, q))
    (hlt : fs₁.slot (dir, fs.sizeAt dir / blockSize) < fs.numBlocks) :
    (fsiStoreFsdata (comNovo tipo fs₁ dir finode file.val)).encontra dir file.val =
      some finode := by
  obtain ⟨hbmap, htype, hsize⟩ := hv.campos
  have hf := (fsiBmapFindFree_eq_some h.livre).1
  have hne : dir ≠ finode := h.ne h.usado.1
  have hnum : fs₁.numBlocks = fs.numBlocks := by
    cases hv with
    | bloco hs hb => rfl
    | aberta hs => rfl
  generalize hfs' : fsiStoreFsdata (comNovo tipo fs₁ dir finode file.val) = fs'
  have ht' : fs'.typeAt dir = .fsDir := by
    rw [← hfs', typeAt_congr (store_inodeTab _), comNovo_typeAt, if_neg hne, htype, h.usado.2]
  have hsize' : fs'.sizeAt dir = fs.sizeAt dir + 16 := by
    rw [← hfs', sizeAt_congr (store_inodeTab _), comNovo_sizeAt, if_neg hne, if_pos rfl, hsize]
  have hslot' : ∀ q, fs'.slot (dir, q) = fs₁.slot (dir, q) := by
    intro q
    rw [← hfs', slot_congr (store_inodeTab _), comNovo_slot, if_neg hne]
  generalize hb : fs₁.slot (dir, fs.sizeAt dir / blockSize) = b at hlt
  generalize hpage : paginaNova fs₁ dir finode file.val = page
  have hdisk : ∀ c, 10 ≤ c → fs'.readDisk c = if c = b then page else fs₁.readDisk c := by
    intro c hc
    have hcomNovo : (comNovo tipo fs₁ dir finode file.val).readDisk c =
        (fs₁.writeDisk b page).readDisk c := by
      rw [← hb, ← hpage, ← hsize]
      rfl
    rw [← hfs', store_readDisk _ hc, hcomNovo]
    split
    · rename_i hcb
      rw [hcb, writeDisk_readDisk_self page (by rw [hnum]; exact hlt)]
    · rename_i hcb
      exact writeDisk_readDisk_of_ne fs₁ page hcb
  generalize hn : fs.sizeAt dir / 16 = num
  have hmod : num % dirPageEntries = fs.sizeAt dir % blockSize / 16 := by
    simp only [dirPageEntries, blockSize]
    omega
  have hdiv : num / dirPageEntries = fs.sizeAt dir / blockSize := by
    simp only [dirPageEntries, blockSize]
    omega
  have hblk : ∀ k ≤ num, k / dirPageEntries ≤ fs.sizeAt dir / blockSize := by
    intro k hk
    rw [← hdiv]
    exact Nat.div_le_div_right hk
  -- the entries that were there have other names, and their pages are the old ones
  have hvelha : ∀ k < num,
      strcmpEq (fs₁.readDisk (fs₁.slot (dir, k / dirPageEntries))) (16 * (k % dirPageEntries))
        file.val = false := by
    intro k hk
    have hold : fs₁.readDisk (fs₁.slot (dir, k / dirPageEntries)) = fs.paginaDisco dir k := by
      cases hv with
      | aberta hs => rfl
      | bloco hs hb =>
          have hk' : (dir, k / dirPageEntries) ≠ (dir, fs.sizeAt dir / blockSize) := by
            intro he
            have := (Prod.mk.inj he).2
            simp only [dirPageEntries, blockSize] at *
            omega
          rw [setBlock_slot, if_neg hk']
          rfl
    have hnone := mt (encontra_isSome_iff h.usado.2 file.val).mpr (by rw [h.nova]; decide)
    rw [hold]
    exact Bool.eq_false_iff.mpr fun he => hnone ⟨k, by omega, he⟩
  have hnovo : ∀ k ≤ num, if k = num then
      fs'.temNome dir file.val k = true ∧ fs'.inodeDisco dir k = finode
      else fs'.temNome dir file.val k = true → fs'.inodeDisco dir k = finode := by
    intro k hk
    have hi := paginaNova_temNome fs₁ dir finode h.nome
      (Nat.mod_lt k (by decide : 0 < dirPageEntries))
    rw [hpage, hsize, hb, ← hmod] at hi
    rw [temNome, inodeDisco, paginaDisco, hslot', hdisk _ (hs _ (hblk k hk))]
    by_cases hkb : fs₁.slot (dir, k / dirPageEntries) = b
    · rw [if_pos hkb]
      by_cases hke : k % dirPageEntries = num % dirPageEntries
      · rw [if_pos hke] at hi
        split
        · exact ⟨hi.1, hi.2 hf⟩
        · exact fun _ => hi.2 hf
      · rw [if_neg hke, ← hkb] at hi
        have hne' : k ≠ num := fun he => hke (by rw [he])
        rw [if_neg hne', hi, hvelha k (by omega)]
        exact fun he => nomatch he
    · rw [if_neg hkb]
      have hne' : k ≠ num := by
        rintro rfl
        exact hkb (by rw [hdiv, hb])
      rw [if_neg hne', hvelha k (by omega)]
      exact fun he => nomatch he
  have hlast := hnovo num le_rfl
  rw [if_pos rfl] at hlast
  rw [encontra_disco ht', hsize', show (fs.sizeAt dir + 16) / 16 = num + 1 by omega]
  cases hfind : (List.range (num + 1)).find? (fs'.temNome dir file.val) with
  | none =>
      have := List.find?_eq_none.mp hfind num (List.mem_range.mpr (Nat.lt_succ_self num))
      exact absurd hlast.1 this
  | some k =>
      have hk := List.mem_range.mp (List.mem_of_find?_eq_some hfind)
      have htem := List.find?_some hfind
      have := hnovo k (by omega)
      rw [Option.map_some, Option.some_inj]
      split at this
      · exact this.2
      · exact this htem

end ThreadScheduler.SnfsServer
