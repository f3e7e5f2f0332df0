import ThreadScheduler.SnfsServer.CacheCoherence
import ThreadScheduler.SnfsServer.Fs

/-!
# The state of the file system, field by field

What each elementary store of `fs.c` does to the type, the size and the slots of
an i-node, and to the content of a block. `pagina` is the content behind a slot:
copies share blocks, but what a slot shows is a page of its own.
-/
namespace ThreadScheduler.SnfsServer

namespace Fs

def typeAt (fs : Fs) (i : ℕ) : FsItype := (fs.inodeTab i).type

def sizeAt (fs : Fs) (i : ℕ) : ℕ := (fs.inodeTab i).size

/-- The block number in a slot, given as i-node and index. -/
def slot (fs : Fs) (p : ℕ × ℕ) : ℕ := (fs.inodeTab p.1).blocks p.2

/-- The content behind a slot. -/
def pagina (fs : Fs) (p : ℕ × ℕ) : Block := fs.cache.conteudo (fs.slot p)

/-- The i-node is allocated. -/
def alocado (fs : Fs) (i : ℕ) : Bool := bmapIsSet fs.inodeBmap i

/-- The block is marked as used. -/
def ocupado (fs : Fs) (b : ℕ) : Bool := bmapIsSet fs.blkBmap b

/-- `withCache` is the state after a call that only moves blocks through the cache. -/
def withCache (fs : Fs) (c : CacheT) : Fs := { fs with cache := c }

/-- `withTab` is the state after stores to the i-node table. -/
def withTab (fs : Fs) (tab : ℕ → FsInode) : Fs := { fs with inodeTab := tab }

section Fields

variable (fs : Fs)

@[simp] theorem setInode_typeAt (i : ℕ) (inode : FsInode) (j : ℕ) :
    (fs.setInode i inode).typeAt j = if j = i then inode.type else fs.typeAt j := by
  by_cases h : j = i <;> simp [setInode, typeAt, h]

@[simp] theorem setInode_sizeAt (i : ℕ) (inode : FsInode) (j : ℕ) :
    (fs.setInode i inode).sizeAt j = if j = i then inode.size else fs.sizeAt j := by
  by_cases h : j = i <;> simp [setInode, sizeAt, h]

theorem setInode_slot (i : ℕ) (inode : FsInode) (p : ℕ × ℕ) :
    (fs.setInode i inode).slot p = if p.1 = i then inode.blocks p.2 else fs.slot p := by
  by_cases h : p.1 = i <;> simp [setInode, slot, h]

@[simp] theorem setInode_cache (i : ℕ) (inode : FsInode) :
    (fs.setInode i inode).cache = fs.cache := rfl

@[simp] theorem setInode_referencias (i : ℕ) (inode : FsInode) :
    (fs.setInode i inode).referencias = fs.referencias := rfl

@[simp] theorem setInode_blkBmap (i : ℕ) (inode : FsInode) :
    (fs.setInode i inode).blkBmap = fs.blkBmap := rfl

@[simp] theorem setInode_inodeBmap (i : ℕ) (inode : FsInode) :
    (fs.setInode i inode).inodeBmap = fs.inodeBmap := rfl

@[simp] theorem setBlock_typeAt (i q b j : ℕ) : (fs.setBlock i q b).typeAt j = fs.typeAt j := by
  by_cases h : j = i <;> simp [setBlock, setInode, typeAt, h]

@[simp] theorem setBlock_sizeAt (i q b j : ℕ) : (fs.setBlock i q b).sizeAt j = fs.sizeAt j := by
  by_cases h : j = i <;> simp [setBlock, setInode, sizeAt, h]

theorem setBlock_slot (i q b : ℕ) (p : ℕ × ℕ) :
    (fs.setBlock i q b).slot p = if p = (i, q) then b else fs.slot p := by
  obtain ⟨j, r⟩ := p
  by_cases hj : j = i
  · subst hj
    by_cases hr : r = q <;> simp [setBlock, setInode, slot, hr]
  · simp [setBlock, setInode, slot, hj]

@[simp] theorem setBlock_cache (i q b : ℕ) : (fs.setBlock i q b).cache = fs.cache := rfl

@[simp] theorem setBlock_referencias (i q b : ℕ) :
    (fs.setBlock i q b).referencias = fs.referencias := rfl

@[simp] theorem setBlock_blkBmap (i q b : ℕ) : (fs.setBlock i q b).blkBmap = fs.blkBmap := rfl

@[simp] theorem setBlock_inodeBmap (i q b : ℕ) :
    (fs.setBlock i q b).inodeBmap = fs.inodeBmap := rfl

@[simp] theorem setSize_typeAt (i s j : ℕ) : (fs.setSize i s).typeAt j = fs.typeAt j := by
  by_cases h : j = i <;> simp [setSize, setInode, typeAt, h]

@[simp] theorem setSize_sizeAt (i s j : ℕ) :
    (fs.setSize i s).sizeAt j = if j = i then s else fs.sizeAt j := by
  by_cases h : j = i <;> simp [setSize, setInode, sizeAt, h]

@[simp] theorem setSize_slot (i s : ℕ) (p : ℕ × ℕ) : (fs.setSize i s).slot p = fs.slot p := by
  by_cases h : p.1 = i <;> simp [setSize, setInode, slot, h]

@[simp] theorem setSize_cache (i s : ℕ) : (fs.setSize i s).cache = fs.cache := rfl

@[simp] theorem setSize_referencias (i s : ℕ) :
    (fs.setSize i s).referencias = fs.referencias := rfl

@[simp] theorem setSize_blkBmap (i s : ℕ) : (fs.setSize i s).blkBmap = fs.blkBmap := rfl

@[simp] theorem setSize_inodeBmap (i s : ℕ) : (fs.setSize i s).inodeBmap = fs.inodeBmap := rfl

@[simp] theorem setRef_inodeTab (b : ℕ) (n : ℤ) : (fs.setRef b n).inodeTab = fs.inodeTab := rfl

@[simp] theorem setRef_cache (b : ℕ) (n : ℤ) : (fs.setRef b n).cache = fs.cache := rfl

@[simp] theorem setRef_blkBmap (b : ℕ) (n : ℤ) : (fs.setRef b n).blkBmap = fs.blkBmap := rfl

@[simp] theorem setRef_inodeBmap (b : ℕ) (n : ℤ) : (fs.setRef b n).inodeBmap = fs.inodeBmap := rfl

theorem toChar_of_le {n : ℤ} (h : 0 ≤ n) (h' : n ≤ 127) : toChar n = n := by
  simp only [toChar, Int.bmod_def]
  omega

theorem setRef_referencias {b : ℕ} {n : ℤ} (h : 0 ≤ n) (h' : n ≤ 127) (c : ℕ) :
    (fs.setRef b n).referencias c = if c = b then n else fs.referencias c := by
  by_cases hc : c = b <;> simp [setRef, hc, toChar_of_le h h']

@[simp] theorem setBlk_inodeTab (b : ℕ) : (fs.setBlk b).inodeTab = fs.inodeTab := rfl

@[simp] theorem setBlk_cache (b : ℕ) : (fs.setBlk b).cache = fs.cache := rfl

@[simp] theorem setBlk_referencias (b : ℕ) : (fs.setBlk b).referencias = fs.referencias := rfl

@[simp] theorem setBlk_inodeBmap (b : ℕ) : (fs.setBlk b).inodeBmap = fs.inodeBmap := rfl

theorem setBlk_ocupado {b : ℕ} (hb : b < bmapBits) (c : ℕ) :
    (fs.setBlk b).ocupado c = (decide (c = b) || fs.ocupado c) := bmapIsSet_set hb c

@[simp] theorem clrBlk_inodeTab (b : ℕ) : (fs.clrBlk b).inodeTab = fs.inodeTab := rfl

@[simp] theorem clrBlk_cache (b : ℕ) : (fs.clrBlk b).cache = fs.cache := rfl

@[simp] theorem clrBlk_referencias (b : ℕ) : (fs.clrBlk b).referencias = fs.referencias := rfl

@[simp] theorem clrBlk_inodeBmap (b : ℕ) : (fs.clrBlk b).inodeBmap = fs.inodeBmap := rfl

theorem clrBlk_ocupado (b c : ℕ) :
    (fs.clrBlk b).ocupado c = (!decide (c = b) && fs.ocupado c) := bmapIsSet_clr fs.blkBmap b c

@[simp] theorem withCache_inodeTab (c : CacheT) : (fs.withCache c).inodeTab = fs.inodeTab := rfl

@[simp] theorem withCache_cache (c : CacheT) : (fs.withCache c).cache = c := rfl

@[simp] theorem withCache_referencias (c : CacheT) :
    (fs.withCache c).referencias = fs.referencias := rfl

@[simp] theorem withCache_blkBmap (c : CacheT) : (fs.withCache c).blkBmap = fs.blkBmap := rfl

@[simp] theorem withCache_inodeBmap (c : CacheT) :
    (fs.withCache c).inodeBmap = fs.inodeBmap := rfl

theorem writeDisk_eq (b : ℕ) (data : Block) :
    fs.writeDisk b data = fs.withCache (fs.cache.writeDisk b data) := rfl

theorem escreverCache_eq (b : ℕ) (data : Block) :
    fs.escreverCache b data = fs.withCache (SnfsServer.escreverCache fs.cache b data).2 := rfl

theorem slot_congr {fs fs' : Fs} (h : fs'.inodeTab = fs.inodeTab) : fs'.slot = fs.slot := by
  simp [funext_iff, slot, h]

theorem typeAt_congr {fs fs' : Fs} (h : fs'.inodeTab = fs.inodeTab) : fs'.typeAt = fs.typeAt := by
  simp [funext_iff, typeAt, h]

theorem sizeAt_congr {fs fs' : Fs} (h : fs'.inodeTab = fs.inodeTab) : fs'.sizeAt = fs.sizeAt := by
  simp [funext_iff, sizeAt, h]

@[simp] theorem withCache_slot (c : CacheT) : (fs.withCache c).slot = fs.slot := rfl

@[simp] theorem withCache_typeAt (c : CacheT) : (fs.withCache c).typeAt = fs.typeAt := rfl

@[simp] theorem withCache_sizeAt (c : CacheT) : (fs.withCache c).sizeAt = fs.sizeAt := rfl

@[simp] theorem setRef_slot (b : ℕ) (n : ℤ) : (fs.setRef b n).slot = fs.slot := rfl

@[simp] theorem setRef_typeAt (b : ℕ) (n : ℤ) : (fs.setRef b n).typeAt = fs.typeAt := rfl

@[simp] theorem setRef_sizeAt (b : ℕ) (n : ℤ) : (fs.setRef b n).sizeAt = fs.sizeAt := rfl

@[simp] theorem setBlk_slot (b : ℕ) : (fs.setBlk b).slot = fs.slot := rfl

@[simp] theorem setBlk_typeAt (b : ℕ) : (fs.setBlk b).typeAt = fs.typeAt := rfl

@[simp] theorem setBlk_sizeAt (b : ℕ) : (fs.setBlk b).sizeAt = fs.sizeAt := rfl

@[simp] theorem clrBlk_slot (b : ℕ) : (fs.clrBlk b).slot = fs.slot := rfl

@[simp] theorem clrBlk_typeAt (b : ℕ) : (fs.clrBlk b).typeAt = fs.typeAt := rfl

@[simp] theorem clrBlk_sizeAt (b : ℕ) : (fs.clrBlk b).sizeAt = fs.sizeAt := rfl

end Fields

/-! ## The metadata write -/

/-- Storing the metadata only writes disk blocks 0 to 9. -/
theorem fsiStoreFsdata_spec (fs : Fs) :
    ∃ c, fsiStoreFsdata fs = fs.withCache c ∧ c.tabela = fs.cache.tabela ∧
      c.disco.numBlocks = fs.cache.disco.numBlocks ∧
      ∀ b, 10 ≤ b → c.disco.blocks b = fs.cache.disco.blocks b := by
  -- the writes of the table blocks, one after another
  have hfold : ∀ (is : List ℕ) (fs₀ : Fs), (∀ i ∈ is, i < 8) → ∃ c,
      is.foldl (fun fs i => fs.writeDisk (i + 2) (inodeTabBlock fs.inodeTab i)) fs₀ =
        fs₀.withCache c ∧ c.tabela = fs₀.cache.tabela ∧
      c.disco.numBlocks = fs₀.cache.disco.numBlocks ∧
      ∀ b, 10 ≤ b → c.disco.blocks b = fs₀.cache.disco.blocks b := by
    intro is
    induction is with
    | nil => exact fun fs₀ _ => ⟨fs₀.cache, rfl, rfl, rfl, fun _ _ => rfl⟩
    | cons i is ih =>
        intro fs₀ his
        obtain ⟨c, hc, ht, hn, hb⟩ := ih (fs₀.writeDisk (i + 2) (inodeTabBlock fs₀.inodeTab i))
          fun j hj => his j (by simp [hj])
        refine ⟨c, hc, ht, hn.trans (blockWrite_numBlocks _ _ _), fun b hb10 => ?_⟩
        have hi := his i (by simp)
        rw [hb b hb10]
        exact blockWrite_blocks_of_ne _ _ (by omega)
  obtain ⟨c, hc, ht, hn, hb⟩ := hfold (List.range 8)
    ((fs.writeDisk 0 fs.blkBmap).writeDisk 1 fs.inodeBmap) (by simp)
  refine ⟨c, hc, ht, ?_, fun b hb10 => ?_⟩
  · rw [hn]
    exact (blockWrite_numBlocks _ _ _).trans (blockWrite_numBlocks _ _ _)
  · rw [hb b hb10]
    exact (blockWrite_blocks_of_ne _ _ (by omega)).trans (blockWrite_blocks_of_ne _ _ (by omega))

end Fs

end ThreadScheduler.SnfsServer
