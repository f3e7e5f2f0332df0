import ThreadScheduler.SnfsServer.BlockOps
import ThreadScheduler.SnfsServer.DirPage

/-!
# Directory listings

A directory is the list of its entries, read off the pages behind its slots. The
three scans of `fs.c` (`fsi_dir_search`, `fs_readdir` and the search of
`fs_remove`) walk the pages block by block; here each is a search of that list.
-/
namespace ThreadScheduler.SnfsServer

theorem lt_offsetToBlocks {q n : ℕ} : q < offsetToBlocks n ↔ blockSize * q < n := by
  simp only [offsetToBlocks, blockSize]
  split <;> omega

theorem offsetToBlocks_le {q n : ℕ} : offsetToBlocks n ≤ q ↔ n ≤ blockSize * q := by
  rw [← Nat.not_lt, lt_offsetToBlocks, Nat.not_lt]

@[simp] theorem offsetToBlocks_zero : offsetToBlocks 0 = 0 := rfl

theorem offsetToBlocks_mono : Monotone offsetToBlocks := fun _ _ h =>
  offsetToBlocks_le.mpr (h.trans (offsetToBlocks_le.mp le_rfl))

theorem offsetToBlocks_mul (m : ℕ) : offsetToBlocks (blockSize * m) = m := by
  simp [offsetToBlocks, blockSize]

/-- A search in a directory changes nothing, whatever the state. -/
theorem fsiDirSearch_of_not_file {fs : Fs} {d : ℕ} (ht : (fs.inodeTab d).type ≠ .fsFile)
    (file : List Byte) : ∃ found, fsiDirSearch fs d file = some (fs, found) := by
  have hloop : ∀ num iblock, ∃ found, fsiDirSearchLoop fs d file num iblock = some (fs, found) := by
    intro num
    induction num using Nat.strong_induction_on with
    | _ num ih =>
        intro iblock
        rw [fsiDirSearchLoop]
        split
        · exact ⟨none, rfl⟩
        · rename_i hne
          rw [Fs.lerBloco, if_neg ht, Option.bind_some]
          dsimp only
          split
          · rename_i fileid _
            exact ⟨some fileid, rfl⟩
          · exact ih _ (by simp only [dirPageEntries]; omega) _
  exact hloop _ 0

namespace Fs

/-- Entry `k` of a directory: its name and its i-node. -/
def entrada (fs : Fs) (d k : ℕ) : List Byte × ℕ :=
  (nameAt (fs.pagina (d, k / dirPageEntries)) (k % dirPageEntries),
    inodeidAt (fs.pagina (d, k / dirPageEntries)) (k % dirPageEntries))

/-- The entries of a directory, as the searches see them. -/
def entradas (fs : Fs) (d : ℕ) : List (List Byte × ℕ) :=
  (List.range (fs.sizeAt d / 16)).map (fs.entrada d)

/-- The i-node the first entry of that name gives. -/
def procura (fs : Fs) (d : ℕ) (nome : List Byte) : Option ℕ :=
  ((fs.entradas d).find? fun e => e.1 = nome).map Prod.snd

/-- What a name in `d` resolves to. -/
def resolve (fs : Fs) (d : ℕ) (nome : List Byte) : Option ℕ :=
  if fs.typeAt d = .fsDir then fs.procura d nome else none

theorem resolve_of_dir {fs : Fs} {d : ℕ} (h : fs.typeAt d = .fsDir) (nome : List Byte) :
    fs.resolve d nome = fs.procura d nome := if_pos h

theorem entrada_eq (fs : Fs) (d : ℕ) {iblock i : ℕ} (hi : i < dirPageEntries) :
    fs.entrada d (dirPageEntries * iblock + i) =
      (nameAt (fs.pagina (d, iblock)) i, inodeidAt (fs.pagina (d, iblock)) i) := by
  have hdiv : (dirPageEntries * iblock + i) / dirPageEntries = iblock := by
    simp only [dirPageEntries] at *
    omega
  have hmod : (dirPageEntries * iblock + i) % dirPageEntries = i := by
    simp only [dirPageEntries] at *
    omega
  rw [entrada, hdiv, hmod]

/-- The entries of one page, and those of the pages after it. -/
theorem range_page (iblock num : ℕ) :
    List.range' (dirPageEntries * iblock) num =
      (List.range (min num dirPageEntries)).map (dirPageEntries * iblock + ·) ++
        List.range' (dirPageEntries * (iblock + 1)) (num - dirPageEntries) := by
  rcases Nat.le_total num dirPageEntries with h | h
  · rw [Nat.min_eq_left h, Nat.sub_eq_zero_of_le h, List.range'_zero, List.append_nil,
      List.range_eq_range', List.map_add_range', Nat.add_zero]
  · have := List.range'_append_1 (s := dirPageEntries * iblock) (m := dirPageEntries)
      (n := num - dirPageEntries)
    rw [Nat.add_sub_cancel' h] at this
    rw [Nat.min_eq_right h, List.range_eq_range', List.map_add_range', Nat.add_zero, Nat.mul_succ,
      this]

theorem lt_of_mem_page {num k : ℕ} (h : k ∈ List.range (min num dirPageEntries)) :
    k < dirPageEntries := (List.mem_range.mp h).trans_le (Nat.min_le_right _ _)

theorem sub_page_lt {num : ℕ} (h : num ≠ 0) : num - dirPageEntries < num := by
  simp only [dirPageEntries]
  omega

theorem next_page {num iblock n : ℕ} (h : num ≠ 0 → dirPageEntries * iblock + num ≤ n) :
    num - dirPageEntries ≠ 0 → dirPageEntries * (iblock + 1) + (num - dirPageEntries) ≤ n := by
  simp only [dirPageEntries] at *
  omega

section Scans

variable {fs : Fs} {live : Finset (ℕ × ℕ)} (h : fs.Layout live) {d : ℕ}
  (ht : fs.typeAt d = .fsDir) (hlive : ∀ q < offsetToBlocks (fs.sizeAt d), (d, q) ∈ live)

include h ht hlive

/-- The scans never read past the blocks of the directory. -/
theorem lerBloco_entradas {num iblock : ℕ} (hnum : num ≠ 0)
    (hk : num ≠ 0 → dirPageEntries * iblock + num ≤ fs.sizeAt d / 16) :
    fs.lerBloco (fs.inodeTab d).type ((fs.inodeTab d).blocks iblock) =
      some (fs, fs.pagina (d, iblock)) := by
  have htype : (fs.inodeTab d).type = .fsDir := ht
  rw [htype]
  refine h.lerBloco_dir (hlive iblock (lt_offsetToBlocks.mpr ?_)) ht
  have := hk hnum
  simp only [dirPageEntries, blockSize] at *
  omega

theorem fsiDirSearchLoop_eq {file : List Byte} (hs : 0#8 ∉ file) (num iblock : ℕ)
    (hk : num ≠ 0 → dirPageEntries * iblock + num ≤ fs.sizeAt d / 16) :
    fsiDirSearchLoop fs d file num iblock =
      some (fs, (((List.range' (dirPageEntries * iblock) num).map (fs.entrada d)).find?
        fun e => e.1 = file).map Prod.snd) := by
  induction num using Nat.strong_induction_on generalizing iblock with
  | _ num ih =>
      rw [fsiDirSearchLoop]
      split
      · rename_i h0
        simp [h0]
      · rename_i h0
        simp only [lerBloco_entradas h ht hlive h0 hk, Option.bind_some]
        rw [procurarNaPagina_eq _ hs _ _ (by omega), ← List.range_eq_range', range_page,
          List.map_append, List.find?_append, List.map_map, List.find?_map]
        -- on this page the entries are the names and i-nodes of its slots
        have hfind : (List.range (min num dirPageEntries)).find?
              ((fun e : List Byte × ℕ => decide (e.1 = file)) ∘
                (fs.entrada d ∘ (dirPageEntries * iblock + ·))) =
            (List.range (min num dirPageEntries)).find?
              fun k => nameAt (fs.pagina (d, iblock)) k = file := by
          refine List.find?_congr fun k hm => ?_
          simp [entrada_eq fs d (lt_of_mem_page hm)]
        rw [hfind]
        cases hf : (List.range (min num dirPageEntries)).find?
            fun k => nameAt (fs.pagina (d, iblock)) k = file with
        | some k =>
            simp [entrada_eq fs d (lt_of_mem_page (List.mem_of_find?_eq_some hf))]
        | none =>
            simp only [Option.map_none, Option.none_or]
            exact ih _ (sub_page_lt h0) _ (next_page hk)

/-- `fsi_dir_search` finds the first entry of that name. -/
theorem fsiDirSearch_eq {file : List Byte} (hs : 0#8 ∉ file) :
    fsiDirSearch fs d file = some (fs, fs.procura d file) := by
  have := fsiDirSearchLoop_eq h ht hlive hs (fs.sizeAt d / 16) 0 (by simp)
  rw [Nat.mul_zero, ← List.range_eq_range'] at this
  exact this

theorem fsReaddirLoop_eq (num iblock : ℕ) (entries : List (List Byte × FsItype))
    (hk : num ≠ 0 → dirPageEntries * iblock + num ≤ fs.sizeAt d / 16) :
    fsReaddirLoop fs d num iblock entries =
      some (fs, entries ++ (List.range' (dirPageEntries * iblock) num).map fun k =>
        ((fs.entrada d k).1, fs.typeAt (fs.entrada d k).2)) := by
  induction num using Nat.strong_induction_on generalizing iblock entries with
  | _ num ih =>
      rw [fsReaddirLoop]
      split
      · rename_i h0
        simp [h0]
      · rename_i h0
        rw [lerBloco_entradas h ht hlive h0 hk, Option.bind_some, range_page, List.map_append,
          List.map_map, ← List.append_assoc]
        have hpage : (List.range (min num dirPageEntries)).map
              ((fun k => ((fs.entrada d k).1, fs.typeAt (fs.entrada d k).2)) ∘
                (dirPageEntries * iblock + ·)) =
            (List.range (min num dirPageEntries)).map fun i =>
              (nameAt (fs.pagina (d, iblock)) i,
                (fs.inodeTab (inodeidAt (fs.pagina (d, iblock)) i)).type) := by
          refine List.map_congr_left fun k hm => ?_
          simp [entrada_eq fs d (lt_of_mem_page hm), typeAt]
        simp only [hpage]
        exact ih _ (sub_page_lt h0) _ _ (next_page hk)

/-- `fs_readdir` lists the first `maxentries` entries with the types of their i-nodes. -/
theorem fsReaddir_eq (hd : d < itabSize) (ha : fs.alocado d = true) {maxentries : ℤ}
    (hm : 0 ≤ maxentries) : fsReaddir fs d maxentries =
      some (fs, some (((fs.entradas d).take maxentries.toNat).map fun e =>
        (e.1, fs.typeAt e.2))) := by
  have hno : ¬ (itabSize ≤ d ∨ maxentries < 0) := by omega
  have htype : (fs.inodeTab d).type = .fsDir := ht
  have ha' : bmapIsSet fs.inodeBmap d = true := ha
  have hloop := fsReaddirLoop_eq h ht hlive (min (fs.sizeAt d / 16) maxentries.toNat) 0 []
    (by simp)
  have hsize : (fs.inodeTab d).size = fs.sizeAt d := rfl
  rw [fsReaddir, if_neg hno]
  simp only [ha', htype, hsize, hloop, Bool.not_true, Bool.false_eq_true, if_false, ne_eq,
    not_true_eq_false, Option.map_some]
  rw [entradas, ← List.map_take, List.take_range, List.map_map, Nat.min_comm]
  simp [List.range_eq_range', Function.comp_def]

/-- The search of `fs_remove` finds an entry when there is one. -/
theorem procurarEntrada_eq {name : List Byte} (hs : 0#8 ∉ name) (num iblock : ℕ)
    (hk : num ≠ 0 → dirPageEntries * iblock + num ≤ fs.sizeAt d / 16) :
    ∃ r, procurarEntrada fs d name num iblock = some (fs, r) ∧
      r.isSome = ((List.range' (dirPageEntries * iblock) num).map (fs.entrada d)).any
        fun e => e.1 = name := by
  induction num using Nat.strong_induction_on generalizing iblock with
  | _ num ih =>
      rw [procurarEntrada]
      split
      · rename_i h0
        exact ⟨none, rfl, by simp [h0]⟩
      · rename_i h0
        rw [lerBloco_entradas h ht hlive h0 hk, Option.bind_some]
        have hany : ((List.range (min num dirPageEntries)).map
              (fs.entrada d ∘ (dirPageEntries * iblock + ·))).any (fun e => e.1 = name) =
            (indiceNaPagina (fs.pagina (d, iblock)) name (min num dirPageEntries)).isSome := by
          rw [indiceNaPagina_isSome _ hs _ (by omega), List.any_map, Bool.eq_iff_iff,
            List.any_eq_true, List.any_eq_true]
          refine exists_congr fun k => and_congr_right fun hm => ?_
          simp [entrada_eq fs d (lt_of_mem_page hm)]
        rw [range_page, List.map_append, List.any_append, List.map_map, hany]
        cases hi : indiceNaPagina (fs.pagina (d, iblock)) name (min num dirPageEntries) with
        | some i => exact ⟨some i, by simp only [hi], by simp⟩
        | none =>
            simp only [Option.isSome_none, Bool.false_or, hi]
            exact ih _ (sub_page_lt h0) _ (next_page hk)

end Scans

end Fs

end ThreadScheduler.SnfsServer
