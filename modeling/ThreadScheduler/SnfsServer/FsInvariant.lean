import ThreadScheduler.SnfsServer.Directory

/-!
# Consistent states

`Consistent` is what every operation of `fs.c` other than `fs_append` and
`fs_defrag` keeps without any condition: the accounts agree with the slots in use,
the i-node table agrees with its bitmap, directories are packed and their names
distinct, and there are fewer entries than i-nodes, so that a directory never
outgrows its first two blocks.
-/
namespace ThreadScheduler.SnfsServer

namespace Fs

/-- The slots in use: those of an allocated i-node below `OFFSET_TO_BLOCKS(size)`. -/
def emUso (fs : Fs) : Finset (ℕ × ℕ) :=
  (Finset.range itabSize ×ˢ Finset.range inodeNumBlks).filter fun p =>
    fs.alocado p.1 = true ∧ p.2 < offsetToBlocks (fs.sizeAt p.1)

/-- The number of entries of an i-node, none unless it is a directory. -/
def numEntradas (fs : Fs) (d : ℕ) : ℕ := if fs.typeAt d = .fsDir then fs.sizeAt d / 16 else 0

/-- The allocated i-nodes. -/
def alocados (fs : Fs) : Finset ℕ := (Finset.range itabSize).filter fun i => fs.alocado i = true

/-- The i-node table agrees with its bitmap; i-node 0 is never used and 1 is the root. -/
structure Inodes (fs : Fs) : Prop where
  lt : ∀ i, fs.alocado i = true → i < itabSize
  livre : ∀ i, fs.alocado i = false → fs.typeAt i = .unset ∧ fs.sizeAt i = 0
  zero : fs.alocado 0 = true ∧ fs.typeAt 0 = .unset ∧ fs.sizeAt 0 = 0
  root : fs.alocado 1 = true ∧ fs.typeAt 1 = .fsDir
  typed : ∀ i, i ≠ 0 → fs.alocado i = true → fs.typeAt i ≠ .unset
  full : ∀ i, fs.sizeAt i ≤ blockSize * inodeNumBlks
  total : ∑ d ∈ Finset.range itabSize, fs.numEntradas d + 2 ≤ fs.alocados.card

/-- An entry with a name that fits and an i-node that a call could have given it. -/
def EntradaOk (e : List Byte × ℕ) : Prop :=
  e.1 ≠ [] ∧ e.1.length < fsMaxFnameSz ∧ 2 ≤ e.2 ∧ e.2 < itabSize

/-- A directory holds whole entries with distinct names, and no block past them. -/
structure DirOk (fs : Fs) (d : ℕ) : Prop where
  align : 16 ∣ fs.sizeAt d
  clear : ∀ q, offsetToBlocks (fs.sizeAt d) ≤ q → fs.slot (d, q) = 0
  entries : ∀ e ∈ fs.entradas d, EntradaOk e
  nodup : ((fs.entradas d).map Prod.fst).Nodup

/-- The invariant of the file system between calls. -/
structure Consistent (fs : Fs) : Prop where
  acc : fs.Accounts fs.emUso
  inodes : fs.Inodes
  dirs : ∀ d, fs.typeAt d = .fsDir → fs.DirOk d

theorem mem_emUso {fs : Fs} {i q : ℕ} : (i, q) ∈ fs.emUso ↔
    i < itabSize ∧ q < inodeNumBlks ∧ fs.alocado i = true ∧ q < offsetToBlocks (fs.sizeAt i) := by
  simp [emUso, and_assoc]

theorem mem_alocados {fs : Fs} {i : ℕ} : i ∈ fs.alocados ↔ i < itabSize ∧ fs.alocado i = true := by
  simp [alocados]

theorem emUso_congr {fs fs' : Fs} (ha : ∀ i, fs'.alocado i = fs.alocado i)
    (hs : ∀ i, fs'.sizeAt i = fs.sizeAt i) : fs'.emUso = fs.emUso := by
  simp [emUso, ha, hs]

@[simp] theorem withCache_emUso (fs : Fs) (c : CacheT) : (fs.withCache c).emUso = fs.emUso :=
  emUso_congr (fun _ => rfl) fun _ => rfl

theorem alocados_congr {fs fs' : Fs} (ha : ∀ i, fs'.alocado i = fs.alocado i) :
    fs'.alocados = fs.alocados := by
  simp [alocados, ha]

theorem card_alocados_le (fs : Fs) : fs.alocados.card ≤ itabSize := by
  have := Finset.card_filter_le (Finset.range itabSize) fun i => fs.alocado i = true
  rwa [Finset.card_range] at this

-- membership goes through the lemmas above; unfolding would enumerate the ranges
attribute [irreducible] emUso alocados

theorem SameInodes.emUso {fs fs' : Fs} (h : SameInodes fs fs') : fs'.emUso = fs.emUso :=
  emUso_congr h.alocado h.size

theorem length_entradas (fs : Fs) (d : ℕ) : (fs.entradas d).length = fs.sizeAt d / 16 := by
  simp [entradas]

/-- The entries of a directory depend on its size and its pages in use. -/
theorem entradas_congr {fs fs' : Fs} {d : ℕ} (hs : fs'.sizeAt d = fs.sizeAt d)
    (hp : ∀ q < offsetToBlocks (fs.sizeAt d), fs'.pagina (d, q) = fs.pagina (d, q)) :
    fs'.entradas d = fs.entradas d := by
  simp only [entradas, hs]
  refine List.map_congr_left fun k hk => ?_
  have hk' := List.mem_range.mp hk
  have hq : k / dirPageEntries < offsetToBlocks (fs.sizeAt d) := by
    rw [lt_offsetToBlocks]
    simp only [dirPageEntries, blockSize]
    omega
  simp only [entrada, hp _ hq]

theorem procura_congr {fs fs' : Fs} {d : ℕ} (h : fs'.entradas d = fs.entradas d)
    (nome : List Byte) : fs'.procura d nome = fs.procura d nome := by
  simp only [procura, h]

theorem procura_isSome {fs : Fs} {d : ℕ} {nome : List Byte} :
    (fs.procura d nome).isSome = (fs.entradas d).any fun e => e.1 = nome := by
  rw [procura, Option.isSome_map, Bool.eq_iff_iff, List.find?_isSome, List.any_eq_true]

theorem mem_of_procura {fs : Fs} {d n : ℕ} {nome : List Byte}
    (h : fs.procura d nome = some n) : (nome, n) ∈ fs.entradas d := by
  obtain ⟨⟨nome', n'⟩, hf, rfl⟩ := Option.map_eq_some_iff.mp h
  have hn := List.find?_some hf
  have hm := List.mem_of_find?_eq_some hf
  simp only [decide_eq_true_eq] at hn
  rwa [← hn]

namespace Consistent

variable {fs : Fs} (h : fs.Consistent)

include h

theorem lt_of_alocado {i : ℕ} (ha : fs.alocado i = true) : i < itabSize := h.inodes.lt i ha

theorem alocado_of_type {i : ℕ} (ht : fs.typeAt i ≠ .unset) : fs.alocado i = true := by
  cases ha : fs.alocado i with
  | true => rfl
  | false => exact absurd (h.inodes.livre i ha).1 ht

/-- The number of a free i-node, or one past the table, is not that of a directory. -/
theorem not_dir {i : ℕ} (hi : itabSize ≤ i ∨ fs.alocado i = false) : fs.typeAt i ≠ .fsDir := by
  intro ht
  have ha := h.alocado_of_type (i := i) (by simp [ht])
  have hlt := h.lt_of_alocado ha
  rcases hi with hi | hi
  · omega
  · simp [ha] at hi

theorem offsetToBlocks_le (i : ℕ) : offsetToBlocks (fs.sizeAt i) ≤ inodeNumBlks :=
  SnfsServer.offsetToBlocks_le.mpr (h.inodes.full i)

/-- The slots in use are the ones below `OFFSET_TO_BLOCKS(size)`. -/
theorem mem_emUso_iff {i q : ℕ} : (i, q) ∈ fs.emUso ↔ q < offsetToBlocks (fs.sizeAt i) := by
  rw [mem_emUso]
  refine ⟨fun hm => hm.2.2.2, fun hq => ?_⟩
  have ha : fs.alocado i = true := by
    cases ha : fs.alocado i with
    | true => rfl
    | false =>
        rw [(h.inodes.livre i ha).2, offsetToBlocks_zero] at hq
        omega
  exact ⟨h.inodes.lt i ha, hq.trans_le (h.offsetToBlocks_le i), ha, hq⟩

theorem lt_of_mem {i q : ℕ} (hp : (i, q) ∈ fs.emUso) : q < offsetToBlocks (fs.sizeAt i) :=
  h.mem_emUso_iff.mp hp

/-- I-node 0 is neither a file nor a directory. -/
theorem pos_of_type {i : ℕ} (ht : fs.typeAt i ≠ .unset) : 1 ≤ i := by
  by_contra h0
  obtain rfl : i = 0 := by omega
  exact ht h.inodes.zero.2.1

theorem pos_of_mem {p : ℕ × ℕ} (hp : p ∈ fs.emUso) : 1 ≤ p.1 :=
  h.pos_of_type (h.acc.typed p hp)

theorem numEntradas_le (d : ℕ) : fs.numEntradas d + 2 ≤ fs.alocados.card := by
  by_cases hd : d < itabSize
  · have := Finset.single_le_sum (f := fs.numEntradas) (fun _ _ => Nat.zero_le _)
      (Finset.mem_range.mpr hd)
    have := h.inodes.total
    omega
  · have hu : fs.typeAt d = .unset := by
      by_contra hne
      exact hd (h.lt_of_alocado (h.alocado_of_type hne))
    have := h.inodes.total
    simp [numEntradas, hu]
    omega

/-- A directory has at most 62 entries. -/
theorem sizeAt_dir_le {d : ℕ} (ht : fs.typeAt d = .fsDir) : fs.sizeAt d / 16 ≤ 62 := by
  have hle := h.numEntradas_le d
  have hcard := fs.card_alocados_le
  simp only [numEntradas, ht, if_true, itabSize] at *
  omega

section Scans

variable {d : ℕ} (ht : fs.typeAt d = .fsDir)

include ht

theorem fsiDirSearch_eq {file : List Byte} (hs : 0#8 ∉ file) :
    fsiDirSearch fs d file = some (fs, fs.procura d file) :=
  Fs.fsiDirSearch_eq h.acc.toLayout ht (fun _ => h.mem_emUso_iff.mpr) hs

theorem fsReaddir_eq {maxentries : ℤ} (hm : 0 ≤ maxentries) : fsReaddir fs d maxentries =
    some (fs, some (((fs.entradas d).take maxentries.toNat).map fun e =>
      (e.1, fs.typeAt e.2))) :=
  have ha := h.alocado_of_type (by simp [ht])
  Fs.fsReaddir_eq h.acc.toLayout ht (fun _ => h.mem_emUso_iff.mpr) (h.lt_of_alocado ha) ha hm

end Scans

/-- Operations on files leave the directories, and with them the invariant, alone. -/
theorem of_files {fs' : Fs} (hb : fs'.inodeBmap = fs.inodeBmap)
    (ht : ∀ i, fs'.typeAt i = fs.typeAt i)
    (hs : ∀ i, fs.typeAt i ≠ .fsFile → fs'.sizeAt i = fs.sizeAt i)
    (hfull : ∀ i, fs'.sizeAt i ≤ blockSize * inodeNumBlks)
    (hslot : ∀ d, fs.typeAt d = .fsDir → ∀ q, offsetToBlocks (fs.sizeAt d) ≤ q →
      fs'.slot (d, q) = fs.slot (d, q))
    (hpag : ∀ d, fs.typeAt d = .fsDir → ∀ q, (d, q) ∈ fs.emUso →
      fs'.pagina (d, q) = fs.pagina (d, q))
    (hacc : fs'.Accounts fs'.emUso) : fs'.Consistent := by
  have ha : ∀ i, fs'.alocado i = fs.alocado i := fun i => by rw [alocado, alocado, hb]
  refine ⟨hacc, ⟨?_, ?_, ?_, ?_, ?_, hfull, ?_⟩, fun d hd => ?_⟩
  · simpa only [ha] using h.inodes.lt
  · intro i hi
    rw [ha] at hi
    have := h.inodes.livre i hi
    exact ⟨(ht i).trans this.1, (hs i (by simp [this.1])).trans this.2⟩
  · have := h.inodes.zero
    exact ⟨(ha 0).trans this.1, (ht 0).trans this.2.1, (hs 0 (by simp [this.2.1])).trans this.2.2⟩
  · exact ⟨(ha 1).trans h.inodes.root.1, (ht 1).trans h.inodes.root.2⟩
  · simpa only [ha, ht] using h.inodes.typed
  · have hn : ∀ d, fs'.numEntradas d = fs.numEntradas d := by
      intro d
      simp only [numEntradas, ht]
      split
      · rename_i hd
        rw [hs d (by simp [hd])]
      · rfl
    simp only [hn, alocados_congr ha]
    exact h.inodes.total
  · rw [ht] at hd
    have hsd := hs d (by simp [hd])
    have hent : fs'.entradas d = fs.entradas d :=
      entradas_congr hsd fun q hq => hpag d hd q (h.mem_emUso_iff.mpr hq)
    obtain ⟨halign, hclear, hentries, hnodup⟩ := h.dirs d hd
    refine ⟨hsd ▸ halign, fun q hq => ?_, hent ▸ hentries, hent ▸ hnodup⟩
    have hq : offsetToBlocks (fs.sizeAt d) ≤ q := hsd ▸ hq
    rw [hslot d hd q hq]
    exact hclear q hq

/-- Calls that only move blocks through the cache. -/
theorem withCache {c : CacheT} (hacc : (fs.withCache c).Accounts fs.emUso)
    (hc : c.conteudo = fs.cache.conteudo) : (fs.withCache c).Consistent :=
  h.of_files rfl (fun _ => rfl) (fun _ _ => rfl) h.inodes.full (fun _ _ _ _ => rfl)
    (fun d _ q _ => by simp only [pagina, withCache_cache, hc, withCache_slot])
    (by rw [withCache_emUso]; exact hacc)

end Consistent

end Fs

end ThreadScheduler.SnfsServer
