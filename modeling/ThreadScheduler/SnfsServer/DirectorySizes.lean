import ThreadScheduler.SnfsServer.Requests

/-!
# Sizes of directories

Nothing in `fs_create`, `fs_mkdir` or `snfs_readdir` checks how many entries a directory has. Each
entry was given an i-node of its own, and an i-node is freed only by a call that takes an entry out
of some directory, so the i-node table bounds the entries of all directories together.
-/
namespace ThreadScheduler.SnfsServer

/-- `MAX_READDIR_ENTRIES`, the length of both arrays of `snfs_readdir`. -/
abbrev maxReaddirEntries : ℕ := 64

namespace Fs

/-- The allocated directory i-nodes. -/
def directorios (fs : Fs) : Finset ℕ := fs.alocados.filter fun d => fs.typeAt d = .fsDir

theorem mem_directorios {fs : Fs} {d : ℕ} : d ∈ fs.directorios ↔
    (d < itabSize ∧ fs.alocado d = true) ∧ fs.typeAt d = .fsDir := by
  rw [directorios, Finset.mem_filter, mem_alocados]

namespace Consistent

variable {fs : Fs} (h : fs.Consistent)

include h

/-- The entries of all directories, against the i-nodes other than 0 and the root. -/
theorem sum_directorios_le :
    ∑ d ∈ fs.directorios, fs.sizeAt d / 16 + 2 ≤ fs.alocados.card := by
  refine le_trans (Nat.add_le_add_right ?_ 2) h.inodes.total
  calc ∑ d ∈ fs.directorios, fs.sizeAt d / 16
      = ∑ d ∈ fs.directorios, fs.numEntradas d := by
        refine Finset.sum_congr rfl fun d hd => ?_
        rw [numEntradas, if_pos (mem_directorios.mp hd).2]
    _ ≤ ∑ d ∈ Finset.range itabSize, fs.numEntradas d :=
        Finset.sum_le_sum_of_subset fun d hd =>
          Finset.mem_range.mpr (mem_directorios.mp hd).1.1

theorem offsetToBlocks_dir_le {d : ℕ} (ht : fs.typeAt d = .fsDir) :
    offsetToBlocks (fs.sizeAt d) ≤ 2 := by
  have hle := h.sizeAt_dir_le ht
  obtain ⟨k, hk⟩ := (h.dirs d ht).align
  refine SnfsServer.offsetToBlocks_le.mpr ?_
  simp only [blockSize]
  omega

/-- `fs_readdir` answers, lists no more than its entries, and each name fits. -/
theorem fsReaddir_limitado (d : ℕ) (maxentries : ℤ) :
    ∃ fs' l, fsReaddir fs d maxentries = some (fs', l) ∧ ∀ l', l = some l' →
      l'.length ≤ maxReaddirEntries ∧ ∀ e ∈ l', e.1.length < fsMaxFnameSz := by
  by_cases hok : fs.typeAt d = .fsDir ∧ 0 ≤ maxentries
  · obtain ⟨ht, hm⟩ := hok
    refine ⟨fs, _, h.fsReaddir_eq ht hm, fun l' hl' => ?_⟩
    rw [← Option.some.inj hl']
    have hle := h.sizeAt_dir_le ht
    refine ⟨?_, fun e he => ?_⟩
    · rw [List.length_map, List.length_take, length_entradas]
      simp only [maxReaddirEntries]
      omega
    · obtain ⟨x, hx, rfl⟩ := List.mem_map.mp he
      exact ((h.dirs d ht).entries x (List.mem_of_mem_take hx)).2.1
  · exact ⟨fs, none, fsReaddir_recusado hok, fun l' hl' => nomatch hl'⟩

end Consistent

end Fs

/-- After any run without `fs_append`, `fs_defrag` or a copy of a file to itself, the directories
have no more entries than there are i-nodes to name. One has at most 62 entries in its first two
blocks, so the listing that the handler asks for fits in its arrays, whatever `cmax` is. -/
theorem directorios_limitados (pilha : ℕ → ℤ) (ops : List FsOp)
    (hops : Runs.Permitted FsOp.exec FsOp.SemAnexo (fsFormat (fsNew Fs.discoServidor pilha)) ops) :
    ∃ fs rs, Runs.run FsOp.exec (fsFormat (fsNew Fs.discoServidor pilha)) ops = some (fs, rs) ∧
      ∑ d ∈ fs.directorios, fs.sizeAt d / 16 + 2 ≤ fs.alocados.card ∧
      (∀ d ∈ fs.directorios, fs.sizeAt d / 16 ≤ 62 ∧ offsetToBlocks (fs.sizeAt d) ≤ 2 ∧
        ∀ q, 2 ≤ q → fs.slot (d, q) = 0) ∧
      ∀ dir cmax, ∃ fs' l,
        fsReaddir fs (toInodeid dir) (BitVec.ofNat 32 cmax).toInt = some (fs', l) ∧
          ∀ l', l = some l' → l'.length ≤ maxReaddirEntries ∧
            ∀ e ∈ l', e.1.length < fsMaxFnameSz := by
  obtain ⟨fs, rs, hr, hex⟩ := Fs.exacto_of_run pilha hops
  have h := hex.consistent
  refine ⟨fs, rs, hr, h.sum_directorios_le, fun d hd => ?_, fun dir cmax =>
    h.fsReaddir_limitado (toInodeid dir) (BitVec.ofNat 32 cmax).toInt⟩
  have ht := (Fs.mem_directorios.mp hd).2
  have hblocks := h.offsetToBlocks_dir_le ht
  exact ⟨h.sizeAt_dir_le ht, hblocks, fun q hq => (h.dirs d ht).clear q (hblocks.trans hq)⟩

/-- A directory in the root. -/
theorem directorios_limitados_mkdir :
    ∃ fs rs, Runs.run FsOp.exec (fsFormat (fsNew Fs.discoServidor fun _ => 7))
        [.mkdir 1 nomeA, .mkdir 2 nomeB, .remove 2 nomeB] = some (fs, rs) ∧
      ∑ d ∈ fs.directorios, fs.sizeAt d / 16 + 2 ≤ fs.alocados.card := by
  obtain ⟨fs, rs, hr, hsum, -⟩ := directorios_limitados (fun _ => 7)
    [.mkdir 1 nomeA, .mkdir 2 nomeB, .remove 2 nomeB]
    (Runs.permitted_of_forall fun a ha s => by
      simp only [List.mem_cons, List.not_mem_nil, or_false] at ha
      rcases ha with rfl | rfl | rfl <;> trivial)
  exact ⟨fs, rs, hr, hsum⟩

end ThreadScheduler.SnfsServer
