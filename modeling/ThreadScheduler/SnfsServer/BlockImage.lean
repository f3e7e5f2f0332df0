import ThreadScheduler.Lib.Runs
import ThreadScheduler.Lib.Slices
import ThreadScheduler.SnfsServer.Block

/-!
# The storage layer byte by byte

`struct blocks_` is two words and the bytes of all blocks one after another. `block_read` and
`block_write` on these bytes do what they do on the blocks, and the image that `block_store` leaves
over the start of a file is what `block_load` reads back. Words are little-endian.
-/
namespace ThreadScheduler.SnfsServer

open Slices

/-- `struct blocks_` as it lies in memory. -/
structure BlocksMem where
  blockSize : ℕ
  numBlocks : ℕ
  blocks : List Byte

/-- An `unsigned` product. -/
def produto (a b : ℕ) : ℕ := a * b % 2 ^ 32

/-- The four bytes of an `unsigned`. -/
def palavra (n : ℕ) : List Byte :=
  [BitVec.ofNat 8 n, BitVec.ofNat 8 (n / 256), BitVec.ofNat 8 (n / 65536),
    BitVec.ofNat 8 (n / 16777216)]

/-- The value of bytes from the lowest one on. -/
def valor (bs : List Byte) : ℕ := bs.foldr (fun b n => b.toNat + 256 * n) 0

/-- The most that one `read` or `write` transfers. -/
abbrev maxTransferencia : ℕ := 0x7ffff000

namespace BlocksMem

/-- `block_new`. -/
def blockNew (numBlocks blockSz : ℕ) : Option BlocksMem :=
  if produto numBlocks blockSz = 0 then none
  else some ⟨blockSz, numBlocks, List.replicate (produto numBlocks blockSz) 0#8⟩

/-- `block_read`: the status and the caller's buffer. `none` is a copy out of bounds. -/
def blockRead (bks : BlocksMem) (blockNo : ℕ) (block : List Byte) : Option (ℤ × List Byte) :=
  if bks.numBlocks ≤ blockNo then some (-1, block)
  else
    let ptr := produto blockNo bks.blockSize
    if bks.blocks.length < ptr + bks.blockSize ∨ block.length < bks.blockSize then none
    else some (0, patch block 0 (slice bks.blocks ptr bks.blockSize))

/-- `block_write`: the status and the blocks. -/
def blockWrite (bks : BlocksMem) (blockNo : ℕ) (block : List Byte) : Option (ℤ × BlocksMem) :=
  if bks.numBlocks ≤ blockNo then some (-1, bks)
  else
    let ptr := produto blockNo bks.blockSize
    if bks.blocks.length < ptr + bks.blockSize ∨ block.length < bks.blockSize then none
    else some (0, { bks with blocks := patch bks.blocks ptr (slice block 0 bks.blockSize) })

/-- `read(fd,buf,n)`: the bytes read and the rest of the file. -/
def ler (resto : List Byte) (n : ℕ) : List Byte × List Byte :=
  (resto.take (min n maxTransferencia), resto.drop (min n maxTransferencia))

/-- `block_load` of a file with these bytes; `none` is one that cannot be opened. -/
def blockLoad (file : Option (List Byte)) : Option BlocksMem :=
  file.bind fun resto =>
    let (blockSize, resto) := ler resto 4
    if blockSize.length ≠ 4 then none
    else
      let (numBlocks, resto) := ler resto 4
      if numBlocks.length ≠ 4 then none
      else
        let n := produto (valor numBlocks) (valor blockSize)
        let (blocks, _) := ler resto n
        if blocks.length ≠ n then none else some ⟨valor blockSize, valor numBlocks, blocks⟩

/-- The bytes of the structure. -/
def imagem (bks : BlocksMem) : List Byte :=
  palavra bks.blockSize ++ (palavra bks.numBlocks ++ bks.blocks)

/-- `block_store`: the status and the file. It is opened without `O_TRUNC`, so what it held past the
image stays; a new one is empty. -/
def blockStore (bks : BlocksMem) (file : Option (List Byte)) : ℤ × Option (List Byte) :=
  match file with
  | none => (-1, none)
  | some antes =>
      let size := (8 + produto bks.blockSize bks.numBlocks) % 2 ^ 32
      let escritos := bks.imagem.take (min size maxTransferencia)
      (if escritos.length = size then 0 else -1, some (patch antes 0 escritos))

/-- The two words fit, and there are as many bytes as they say. -/
structure BemFormado (bks : BlocksMem) : Prop where
  blockSize : bks.blockSize < 2 ^ 32
  numBlocks : bks.numBlocks < 2 ^ 32
  length : bks.blocks.length = produto bks.numBlocks bks.blockSize

end BlocksMem

/-! ## Words -/

theorem valor_palavra {n : ℕ} (h : n < 2 ^ 32) : valor (palavra n) = n := by
  simp only [palavra, valor, List.foldr_cons, List.foldr_nil, BitVec.toNat_ofNat]
  omega

theorem valor_lt (bs : List Byte) : valor bs < 256 ^ bs.length := by
  induction bs with
  | nil => decide
  | cons b bs ih =>
      have hb := b.isLt
      rw [valor, List.foldr_cons, ← valor, List.length_cons, pow_succ]
      omega

theorem palavra_valor {bs : List Byte} (h : bs.length = 4) : palavra (valor bs) = bs := by
  obtain ⟨a, b, c, d, rfl⟩ := List.length_eq_four.mp h
  have ha := a.isLt
  have hb := b.isLt
  have hc := c.isLt
  have hd := d.isLt
  simp only [palavra, valor, List.foldr_cons, List.foldr_nil, List.cons.injEq, and_true,
    BitVec.toNat_eq, BitVec.toNat_ofNat]
  omega

@[simp] theorem length_palavra (n : ℕ) : (palavra n).length = 4 := rfl

namespace BlocksMem

/-! ## Files -/

theorem ler_append {xs resto : List Byte} {n : ℕ} (h : xs.length = n)
    (hn : n ≤ maxTransferencia) : ler (xs ++ resto) n = (xs, resto) := by
  rw [ler, min_eq_left hn, List.take_left' h, List.drop_left' h]

theorem ler_completa {resto xs resto' : List Byte} {n : ℕ} (hl : ler resto n = (xs, resto'))
    (h : xs.length = n) : n ≤ maxTransferencia ∧ resto = xs ++ resto' := by
  obtain ⟨rfl, rfl⟩ := Prod.mk.inj hl
  rw [List.length_take] at h
  exact ⟨by omega, (List.take_append_drop _ resto).symm⟩

/-- What is accepted is the image of well-formed blocks, whatever comes after it. -/
theorem blockLoad_iff {file : List Byte} {bks : BlocksMem} :
    blockLoad (some file) = some bks ↔ bks.BemFormado ∧ bks.blocks.length ≤ maxTransferencia ∧
      ∃ resto, file = bks.imagem ++ resto := by
  rw [blockLoad, Option.bind_some]
  constructor
  · intro h
    obtain ⟨⟨w, r₁⟩, hw⟩ : ∃ p, ler file 4 = p := ⟨_, rfl⟩
    obtain ⟨⟨v, r₂⟩, hv⟩ : ∃ p, ler r₁ 4 = p := ⟨_, rfl⟩
    obtain ⟨⟨blocks, resto⟩, hb⟩ : ∃ p, ler r₂ (produto (valor v) (valor w)) = p := ⟨_, rfl⟩
    rw [hw] at h
    dsimp only at h
    split at h
    · cases h
    rename_i hw4
    rw [hv] at h
    dsimp only at h
    split at h
    · cases h
    rename_i hv4
    rw [hb] at h
    dsimp only at h
    split at h
    · cases h
    rename_i hlen
    obtain rfl := Option.some.inj h
    rw [not_not] at hw4 hv4 hlen
    obtain ⟨-, rfl⟩ := ler_completa hw hw4
    obtain ⟨-, rfl⟩ := ler_completa hv hv4
    obtain ⟨hmax, rfl⟩ := ler_completa hb hlen
    have hwlt := valor_lt w
    have hvlt := valor_lt v
    rw [hw4] at hwlt
    rw [hv4] at hvlt
    refine ⟨⟨hwlt, hvlt, hlen⟩, hlen.trans_le hmax, resto, ?_⟩
    rw [imagem, palavra_valor hw4, palavra_valor hv4, List.append_assoc, List.append_assoc]
  · rintro ⟨h, hmax, resto, rfl⟩
    have hlen := h.length
    rw [imagem, List.append_assoc, List.append_assoc, ler_append (length_palavra _) (by decide)]
    dsimp only
    rw [if_neg (not_not.mpr (length_palavra _)), ler_append (length_palavra _) (by decide)]
    dsimp only
    rw [if_neg (not_not.mpr (length_palavra _)), valor_palavra h.numBlocks,
      valor_palavra h.blockSize, ler_append hlen (hlen ▸ hmax)]
    exact if_neg (not_not.mpr hlen)

theorem BemFormado.length_imagem {bks : BlocksMem} (h : bks.BemFormado) :
    bks.imagem.length = 8 + produto bks.blockSize bks.numBlocks := by
  rw [imagem, List.length_append, List.length_append, h.length, produto, produto,
    Nat.mul_comm bks.numBlocks]
  simp only [length_palavra]
  omega

/-- What is stored over the start of a file is loaded from it, even where more stands behind. -/
theorem BemFormado.store_load {bks : BlocksMem} (h : bks.BemFormado)
    (hmax : 8 + bks.blocks.length ≤ maxTransferencia) (antes : List Byte) :
    ∃ file, bks.blockStore (some antes) = (0, some file) ∧ blockLoad (some file) = some bks := by
  have himg := h.length_imagem
  have hsize : (8 + produto bks.blockSize bks.numBlocks) % 2 ^ 32 = bks.imagem.length := by
    rw [himg]
    refine Nat.mod_eq_of_lt ?_
    rw [h.length, produto, Nat.mul_comm, ← produto] at hmax
    exact hmax.trans_lt (by decide)
  have hle : bks.imagem.length ≤ maxTransferencia := by
    rw [himg, produto, Nat.mul_comm, ← produto, ← h.length]
    exact hmax
  refine ⟨patch antes 0 bks.imagem, ?_, ?_⟩
  · rw [blockStore, hsize, min_eq_left hle, List.take_length, if_pos rfl]
  · rw [blockLoad_iff, patch_zero]
    exact ⟨h, by omega, _, rfl⟩

end BlocksMem

/-! ## The blocks -/

/-- The bytes of a block buffer, and the block that they are. -/
def bytesDe (block : Block) : List Byte := List.ofFn block

def blocoDe (bytes : List Byte) : Block := fun i => bytes.getD i.val 0#8

theorem length_bytesDe (block : Block) : (bytesDe block).length = blockSize := List.length_ofFn

theorem blocoDe_bytesDe (block : Block) : blocoDe (bytesDe block) = block := by
  funext i
  have hi : i.val < (bytesDe block).length := (length_bytesDe block).symm ▸ i.isLt
  rw [blocoDe, List.getD_eq_getElem?_getD, List.getElem?_eq_getElem hi]
  exact List.getElem_ofFn _

theorem bytesDe_blocoDe {bytes : List Byte} (h : bytes.length = blockSize) :
    bytesDe (blocoDe bytes) = bytes := by
  refine List.ext_getElem ((length_bytesDe _).trans h.symm) fun i _ hi => ?_
  refine (List.getElem_ofFn _).trans ?_
  rw [blocoDe, List.getD_eq_getElem?_getD, List.getElem?_eq_getElem hi]
  rfl

namespace BlocksMem

/-- The blocks, with nothing past the last one. -/
def paraBlocks (bks : BlocksMem) : Blocks :=
  ⟨bks.numBlocks, fun b => if b < bks.numBlocks then
    blocoDe (slice bks.blocks (b * bks.blockSize) bks.blockSize) else nullBlock⟩

/-- A disk of the server, in one transfer. -/
structure DoServidor (bks : BlocksMem) : Prop where
  blockSize : bks.blockSize = SnfsServer.blockSize
  length : bks.blocks.length = bks.numBlocks * SnfsServer.blockSize
  cabe : 8 + bks.numBlocks * SnfsServer.blockSize ≤ maxTransferencia

end BlocksMem

/-- A call on the disk. -/
inductive BlockOp where
  | ler (b : ℕ) (buffer : Block)
  | escrever (b : ℕ) (data : Block)

namespace BlockOp

/-- On the bytes. The buffer comes back with a read. -/
def execMem (bks : BlocksMem) : BlockOp → Option (BlocksMem × ℤ × List Byte)
  | ler b buffer => (bks.blockRead b (bytesDe buffer)).map fun r => (bks, r)
  | escrever b data => (bks.blockWrite b (bytesDe data)).map fun r => (r.2, r.1, [])

/-- On the blocks. -/
def exec (bks : Blocks) : BlockOp → Option (Blocks × ℤ × List Byte)
  | ler b buffer => some (bks, (blockRead bks b buffer).1, bytesDe (blockRead bks b buffer).2)
  | escrever b data => some ((blockWrite bks b data).2, (blockWrite bks b data).1, [])

end BlockOp

namespace BlocksMem

namespace DoServidor

variable {bks : BlocksMem}

theorem bemFormado (h : bks.DoServidor) : bks.BemFormado := by
  have hcabe := h.cabe
  have hbs := h.blockSize
  refine ⟨?_, ?_, ?_⟩
  · rw [hbs]
    decide
  · simp only [SnfsServer.blockSize, maxTransferencia] at hcabe
    omega
  · rw [h.length, produto, hbs, Nat.mod_eq_of_lt]
    exact (Nat.le_add_left _ 8).trans_lt (hcabe.trans_lt (by decide))

/-- A block lies within the bytes. -/
theorem bloco (h : bks.DoServidor) {b : ℕ} (hb : b < bks.numBlocks) :
    produto b bks.blockSize = b * SnfsServer.blockSize ∧
      b * SnfsServer.blockSize + SnfsServer.blockSize ≤ bks.blocks.length := by
  have hle : (b + 1) * SnfsServer.blockSize ≤ bks.numBlocks * SnfsServer.blockSize :=
    Nat.mul_le_mul_right _ hb
  rw [Nat.succ_mul] at hle
  have hcabe := h.cabe
  refine ⟨?_, by rwa [h.length]⟩
  rw [produto, h.blockSize]
  refine Nat.mod_eq_of_lt ?_
  simp only [maxTransferencia, SnfsServer.blockSize] at hcabe hle ⊢
  omega

theorem slice_length (h : bks.DoServidor) {b : ℕ} (hb : b < bks.numBlocks) :
    (slice bks.blocks (b * SnfsServer.blockSize) SnfsServer.blockSize).length =
      SnfsServer.blockSize := by
  have hle := (h.bloco hb).2
  rw [length_slice]
  exact min_eq_left (by omega)

theorem paraBlocks_of_lt (h : bks.DoServidor) {b : ℕ} (hb : b < bks.numBlocks) :
    bks.paraBlocks.blocks b =
      blocoDe (slice bks.blocks (b * SnfsServer.blockSize) SnfsServer.blockSize) := by
  rw [paraBlocks]
  dsimp only
  rw [if_pos hb, h.blockSize]

theorem blockRead (h : bks.DoServidor) (b : ℕ) (buffer : Block) :
    bks.blockRead b (bytesDe buffer) =
      some ((SnfsServer.blockRead bks.paraBlocks b buffer).1,
        bytesDe (SnfsServer.blockRead bks.paraBlocks b buffer).2) := by
  have hbuf := length_bytesDe buffer
  rw [BlocksMem.blockRead]
  by_cases hb : b < bks.numBlocks
  · obtain ⟨hptr, hle⟩ := h.bloco hb
    have hlen := h.slice_length hb
    rw [if_neg (Nat.not_le.mpr hb), blockRead_of_lt (show b < bks.paraBlocks.numBlocks from hb)]
    dsimp only
    rw [hptr, h.blockSize, hbuf, if_neg (by omega), h.paraBlocks_of_lt hb, bytesDe_blocoDe hlen,
      patch_zero, hlen, List.drop_of_length_le hbuf.le, List.append_nil]
  · rw [if_pos (Nat.not_lt.mp hb), SnfsServer.blockRead]
    rw [if_pos (show bks.paraBlocks.numBlocks ≤ b from Nat.not_lt.mp hb)]

theorem blockWrite (h : bks.DoServidor) (b : ℕ) (data : Block) :
    ∃ bks', bks.blockWrite b (bytesDe data) =
        some ((SnfsServer.blockWrite bks.paraBlocks b data).1, bks') ∧ bks'.DoServidor ∧
      bks'.paraBlocks = (SnfsServer.blockWrite bks.paraBlocks b data).2 := by
  have hdata := length_bytesDe data
  obtain ⟨sz, num, blocks⟩ := bks
  obtain rfl : sz = SnfsServer.blockSize := h.blockSize
  rw [BlocksMem.blockWrite]
  by_cases hb : b < num
  · obtain ⟨hptr, hle⟩ := h.bloco hb
    dsimp only at hptr hle
    have hinicio : b * SnfsServer.blockSize ≤ blocks.length := (Nat.le_add_right _ _).trans hle
    have hself : slice (bytesDe data) 0 SnfsServer.blockSize = bytesDe data := by
      rw [slice, List.drop_zero, List.take_of_length_le hdata.le]
    have hlen : (patch blocks (b * SnfsServer.blockSize) (bytesDe data)).length =
        blocks.length := length_patch (by rw [hdata]; exact hle)
    rw [if_neg (Nat.not_le.mpr hb), blockWrite_of_lt hb]
    dsimp only
    rw [hptr, hdata, if_neg (by omega), hself]
    have h' : DoServidor ⟨SnfsServer.blockSize, num,
        patch blocks (b * SnfsServer.blockSize) (bytesDe data)⟩ :=
      ⟨rfl, hlen.trans h.length, h.cabe⟩
    refine ⟨_, rfl, h', congrArg (Blocks.mk num) (funext fun j => ?_)⟩
    by_cases hj : j < num
    · refine (h'.paraBlocks_of_lt hj).trans ?_
      dsimp only
      by_cases hjb : j = b
      · subst hjb
        have hs : slice (patch blocks (j * SnfsServer.blockSize) (bytesDe data))
            (j * SnfsServer.blockSize) (bytesDe data).length = bytesDe data :=
          slice_patch_self hinicio
        rw [hdata] at hs
        rw [Function.update_self, hs, blocoDe_bytesDe]
      · rw [Function.update_of_ne hjb, h.paraBlocks_of_lt hj]
        refine congrArg blocoDe ?_
        rcases Nat.lt_or_gt_of_ne hjb with hlt | hgt
        · refine slice_patch_of_le hinicio ?_
          have := Nat.mul_le_mul_right SnfsServer.blockSize hlt
          rwa [Nat.succ_mul] at this
        · refine slice_patch_of_ge hinicio ?_
          have := Nat.mul_le_mul_right SnfsServer.blockSize hgt
          rw [Nat.succ_mul] at this
          rwa [hdata]
    · rw [Function.update_of_ne (by omega)]
      exact (if_neg hj).trans (if_neg hj).symm
  · rw [if_pos (Nat.not_lt.mp hb), SnfsServer.blockWrite, paraBlocks,
      if_pos (Nat.not_lt.mp hb)]
    exact ⟨_, rfl, h, rfl⟩

/-- On the bytes a call does what it does on the blocks. -/
theorem exec (h : bks.DoServidor) (op : BlockOp) : ∃ bks' d r, op.execMem bks = some (bks', r) ∧
    op.exec bks.paraBlocks = some (d, r) ∧ bks'.DoServidor ∧ bks'.paraBlocks = d := by
  cases op with
  | ler b buffer => exact ⟨bks, _, _, congrArg (Option.map _) (h.blockRead b buffer), rfl, h, rfl⟩
  | escrever b data =>
      obtain ⟨bks', hw, h', he⟩ := h.blockWrite b data
      exact ⟨bks', _, _, congrArg (Option.map _) hw, rfl, h', he⟩

/-- A new disk is blank. -/
theorem novo {n : ℕ} (hn : 0 < n) (hmax : 8 + n * SnfsServer.blockSize ≤ maxTransferencia) :
    ∃ bks, BlocksMem.blockNew n SnfsServer.blockSize = some bks ∧ bks.DoServidor ∧
      bks.paraBlocks = SnfsServer.blockNew n := by
  have hprod : produto n SnfsServer.blockSize = n * SnfsServer.blockSize :=
    Nat.mod_eq_of_lt ((Nat.le_add_left _ 8).trans_lt (hmax.trans_lt (by decide)))
  have hne : n * SnfsServer.blockSize ≠ 0 := by
    simp only [SnfsServer.blockSize]
    omega
  rw [BlocksMem.blockNew, hprod, if_neg hne]
  refine ⟨_, rfl, ⟨rfl, List.length_replicate, hmax⟩,
    congrArg (Blocks.mk n) (funext fun b => ?_)⟩
  dsimp only
  split
  · funext i
    rw [blocoDe, slice, List.drop_replicate, List.take_replicate, List.getD_eq_getElem?_getD,
      List.getElem?_replicate]
    split <;> rfl
  · rfl

end DoServidor

/-- Any run of reads and writes on the bytes of a new disk answers what it does on the blocks, and
the image that is stored after it, over whatever the file held, is loaded as the same blocks. -/
theorem imagem_after_run {n : ℕ} (hn : 0 < n)
    (hmax : 8 + n * SnfsServer.blockSize ≤ maxTransferencia) (ops : List BlockOp)
    (antes : List Byte) :
    ∃ bks bks' d rs file, BlocksMem.blockNew n SnfsServer.blockSize = some bks ∧
      Runs.run BlockOp.execMem bks ops = some (bks', rs) ∧
      Runs.run BlockOp.exec (SnfsServer.blockNew n) ops = some (d, rs) ∧
      bks'.blockStore (some antes) = (0, some file) ∧
      (blockLoad (some file)).map paraBlocks = some d := by
  obtain ⟨bks, hnew, h, hblank⟩ := DoServidor.novo hn hmax
  obtain ⟨bks', d, rs, hmem, hrun, h', rfl⟩ := Runs.run_simulates (P := fun _ _ => True)
    (R := fun (bks : BlocksMem) d => bks.DoServidor ∧ bks.paraBlocks = d)
    (fun bks d op hR _ => by
      obtain ⟨bks', d', r, hm, he, h', hd⟩ := hR.1.exec op
      exact ⟨bks', d', r, hm, hR.2 ▸ he, h', hd⟩)
    ⟨h, hblank⟩ (Runs.permitted_of_forall fun _ _ _ => trivial)
  obtain ⟨file, hstore, hload⟩ := h'.bemFormado.store_load (h'.length ▸ h'.cabe) antes
  exact ⟨bks, bks', _, rs, file, hnew, hmem, hrun, hstore, by rw [hload]; rfl⟩

/-- The disk of the server: a block written and read, and one past the last written, all stored over
a file that is longer than the image. -/
theorem imagem_after_run_servidor :
    ∃ bks bks' d file, BlocksMem.blockNew 16384 SnfsServer.blockSize = some bks ∧
      Runs.run BlockOp.execMem bks
          [.escrever 10 fun _ => 1, .ler 10 nullBlock, .escrever 16384 fun _ => 2] =
        some (bks', [(0, []), (0, bytesDe fun _ => 1), (-1, [])]) ∧
      Runs.run BlockOp.exec (SnfsServer.blockNew 16384)
          [.escrever 10 fun _ => 1, .ler 10 nullBlock, .escrever 16384 fun _ => 2] =
        some (d, [(0, []), (0, bytesDe fun _ => 1), (-1, [])]) ∧
      bks'.blockStore (some (List.replicate 9000000 7)) = (0, some file) ∧
      (blockLoad (some file)).map paraBlocks = some d := by
  obtain ⟨bks, bks', d, rs, file, hnew, hmem, hrun, hdisco⟩ :=
    imagem_after_run (n := 16384) (by decide) (by decide)
      [.escrever 10 fun _ => 1, .ler 10 nullBlock, .escrever 16384 fun _ => 2]
      (List.replicate 9000000 7)
  have hrs : rs = [(0, []), (0, bytesDe fun _ => 1), (-1, [])] := by
    obtain ⟨-, rfl⟩ := Prod.mk.inj (Option.some.inj hrun)
    rfl
  subst hrs
  exact ⟨bks, bks', d, file, hnew, hmem, hrun, hdisco⟩

end BlocksMem

end ThreadScheduler.SnfsServer
