import Mathlib.Tactic

/-!
# Storage layer

`block.c`: a sequence of fixed-size blocks kept in memory. A block is the 512
characters of a `char block[BLOCK_SIZE]` buffer; both transfers copy a whole
block and answer `-1` for a block number past the end of the disk.
-/
namespace ThreadScheduler.SnfsServer

/-- A `char`, as the eight bits the bitmaps are made of. -/
abbrev Byte := BitVec 8

/-- `BLOCK_SIZE`. -/
abbrev blockSize : ℕ := 512

/-- The contents of one block buffer. -/
abbrev Block := Fin blockSize → Byte

/-- The result of `memset(block,0,BLOCK_SIZE)`. -/
def nullBlock : Block := fun _ => 0#8

/-- `struct blocks_`; every instance of the server has `block_size` 512. -/
structure Blocks where
  numBlocks : ℕ
  blocks : ℕ → Block

/-- `block_new` clears the storage it allocates. -/
def blockNew (numBlocks : ℕ) : Blocks := ⟨numBlocks, fun _ => nullBlock⟩

/-- `block_num_blocks`. -/
def blockNumBlocks (bks : Blocks) : ℕ := bks.numBlocks

/-- `block_read`: the status and the caller's buffer after the call. -/
def blockRead (bks : Blocks) (blockNo : ℕ) (block : Block) : ℤ × Block :=
  if bks.numBlocks ≤ blockNo then (-1, block) else (0, bks.blocks blockNo)

/-- `block_write`: the status and the disk after the call. -/
def blockWrite (bks : Blocks) (blockNo : ℕ) (block : Block) : ℤ × Blocks :=
  if bks.numBlocks ≤ blockNo then (-1, bks)
  else (0, { bks with blocks := Function.update bks.blocks blockNo block })

theorem blockRead_of_lt {bks : Blocks} {b : ℕ} (h : b < bks.numBlocks) (buf : Block) :
    blockRead bks b buf = (0, bks.blocks b) := if_neg (Nat.not_le.mpr h)

theorem blockWrite_of_lt {bks : Blocks} {b : ℕ} (h : b < bks.numBlocks) (data : Block) :
    blockWrite bks b data = (0, { bks with blocks := Function.update bks.blocks b data }) :=
  if_neg (Nat.not_le.mpr h)

@[simp] theorem blockWrite_numBlocks (bks : Blocks) (b : ℕ) (data : Block) :
    (blockWrite bks b data).2.numBlocks = bks.numBlocks := by
  simp only [blockWrite]
  split <;> rfl

/-- A write touches no other block, whether or not it succeeds. -/
theorem blockWrite_blocks_of_ne (bks : Blocks) {b j : ℕ} (data : Block) (h : j ≠ b) :
    (blockWrite bks b data).2.blocks j = bks.blocks j := by
  simp only [blockWrite]
  split <;> simp [h]

theorem blockWrite_blocks_self {bks : Blocks} {b : ℕ} (data : Block) (h : b < bks.numBlocks) :
    (blockWrite bks b data).2.blocks b = data := by
  simp [blockWrite_of_lt h]

end ThreadScheduler.SnfsServer
