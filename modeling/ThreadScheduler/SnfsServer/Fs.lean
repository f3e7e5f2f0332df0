import ThreadScheduler.SnfsServer.Cache
import ThreadScheduler.SnfsServer.Bitmap

/-!
# File system layer

`fs.c`: 64 i-nodes with ten direct block slots each, a block bitmap, an i-node
bitmap and a reference counter for each block. File blocks go through the cache,
directory blocks and metadata go straight to the disk behind it. Calls run one
at a time, so the reader and writer monitors and `defrag_state` are left out.

An outer `none` is a call that dereferences NULL or ends the process. A buffer
is zero where the source leaves it uninitialised and only a refused `block_read`
would show it.
-/
namespace ThreadScheduler.SnfsServer

/-- `fs_itype_t`, with the value 0 that an i-node holds before and after its use. -/
inductive FsItype where
  | unset
  | fsDir
  | fsFile
  deriving DecidableEq, Repr

/-- `INODE_NUM_BLKS`. -/
abbrev inodeNumBlks : ℕ := 10

/-- `ITAB_SIZE`, the i-nodes that fit in eight blocks. -/
abbrev itabSize : ℕ := 64

/-- `DIR_PAGE_ENTRIES`, the 16-byte entries that fit in a block. -/
abbrev dirPageEntries : ℕ := 32

/-- `FS_MAX_FNAME_SZ`. -/
abbrev fsMaxFnameSz : ℕ := 14

/-- `NUM_BLOCOS_MAX`. -/
abbrev numBlocosMax : ℕ := inodeNumBlks * itabSize

/-- `DIM_CACHE`. -/
abbrev dimCache : ℕ := 8

/-- `struct fs_inode`; the reserved words are always zero. -/
structure FsInode where
  type : FsItype
  size : ℕ
  blocks : ℕ → ℕ

/-- `struct fs_`. `fs->blocks` is the disk of the cache. -/
structure Fs where
  cache : CacheT
  referencias : ℕ → ℤ
  inodeBmap : Block
  blkBmap : Block
  inodeTab : ℕ → FsInode

/-- A NUL-terminated argument, without its terminator. -/
abbrev CString := { s : List Byte // 0#8 ∉ s }

namespace Fs

/-- `block_num_blocks(fs->blocks)`. -/
def numBlocks (fs : Fs) : ℕ := blockNumBlocks fs.cache.disco

/-- `block_read(fs->blocks,b,..)`. -/
def readDisk (fs : Fs) (b : ℕ) : Block := (blockRead fs.cache.disco b nullBlock).2

/-- `block_write(fs->blocks,b,data)`. -/
def writeDisk (fs : Fs) (b : ℕ) (data : Block) : Fs :=
  { fs with cache := fs.cache.writeDisk b data }

def setInode (fs : Fs) (i : ℕ) (inode : FsInode) : Fs :=
  { fs with inodeTab := Function.update fs.inodeTab i inode }

/-- `fs->inode_tab[i].blocks[q] = b`. -/
def setBlock (fs : Fs) (i q b : ℕ) : Fs :=
  fs.setInode i { fs.inodeTab i with blocks := Function.update (fs.inodeTab i).blocks q b }

def setSize (fs : Fs) (i size : ℕ) : Fs := fs.setInode i { fs.inodeTab i with size := size }

/-- A value stored in a `char`. -/
def toChar (n : ℤ) : ℤ := n.bmod 256

def setRef (fs : Fs) (b : ℕ) (n : ℤ) : Fs :=
  { fs with referencias := Function.update fs.referencias b (toChar n) }

/-- `BMAP_SET(fs->blk_bmap,b)` and `BMAP_CLR(fs->blk_bmap,b)`. -/
def setBlk (fs : Fs) (b : ℕ) : Fs := { fs with blkBmap := bmapSet fs.blkBmap b }

def clrBlk (fs : Fs) (b : ℕ) : Fs := { fs with blkBmap := bmapClr fs.blkBmap b }

/-- `fsi_bmap_find_free` on the block bitmap. -/
def findFreeBlk (fs : Fs) : Option ℕ := fsiBmapFindFree fs.blkBmap fs.numBlocks

/-- The read that goes through the cache for a file and to the disk otherwise. -/
def lerBloco (fs : Fs) (type : FsItype) (b : ℕ) : Option (Fs × Block) :=
  if type = .fsFile then
    (lerCache fs.cache b).map fun r => ({ fs with cache := r.1 }, r.2)
  else some (fs, fs.readDisk b)

/-- `escreverCache(fs->cache,b,data)`, whose status every caller ignores. -/
def escreverCache (fs : Fs) (b : ℕ) (data : Block) : Fs :=
  { fs with cache := (SnfsServer.escreverCache fs.cache b data).2 }

end Fs

/-- `OFFSET_TO_BLOCKS`. -/
def offsetToBlocks (pos : ℕ) : ℕ := pos / blockSize + if 0 < pos % blockSize then 1 else 0

/-- `fsi_inode_init`. -/
def fsiInodeInit (type : FsItype) : FsInode := ⟨type, 0, fun _ => 0⟩

/-! ## Metadata on disk -/

/-- A byte of a page; no access of the source leaves its page. -/
def byteAt (page : Block) (k : ℕ) : Byte := if h : k < blockSize then page ⟨k, h⟩ else 0#8

def FsItype.code : FsItype → ℕ
  | .unset => 0
  | .fsDir => 1
  | .fsFile => 2

def FsItype.ofCode : ℕ → FsItype
  | 1 => .fsDir
  | 2 => .fsFile
  | _ => .unset

/-- The 32-bit words of an i-node: type, size, ten slots, four reserved. -/
def FsInode.word (inode : FsInode) (w : ℕ) : ℕ :=
  if w = 0 then inode.type.code
  else if w = 1 then inode.size
  else if w < 2 + inodeNumBlks then inode.blocks (w - 2)
  else 0

/-- Block `j` of the i-node table, little-endian words of eight i-nodes. -/
def inodeTabBlock (tab : ℕ → FsInode) (j : ℕ) : Block := fun k =>
  BitVec.ofNat 8 ((tab (8 * j + k.val / 64)).word (k.val % 64 / 4) / 256 ^ (k.val % 4))

def wordAt (page : Block) (off : ℕ) : ℕ :=
  (byteAt page off).toNat + 256 * (byteAt page (off + 1)).toNat +
    65536 * (byteAt page (off + 2)).toNat + 16777216 * (byteAt page (off + 3)).toNat

def inodeAt (page : Block) (off : ℕ) : FsInode :=
  ⟨FsItype.ofCode (wordAt page off), wordAt page (off + 4), fun q =>
    if q < inodeNumBlks then wordAt page (off + 8 + 4 * q) else 0⟩

/-- `fsi_load_fsdata`. -/
def fsiLoadFsdata (fs : Fs) : Fs :=
  { fs with
    blkBmap := fs.readDisk 0
    inodeBmap := fs.readDisk 1
    inodeTab := fun i => inodeAt (fs.readDisk (2 + i / 8)) (64 * (i % 8)) }

/-- `fsi_store_fsdata`. -/
def fsiStoreFsdata (fs : Fs) : Fs :=
  let fs := fs.writeDisk 0 fs.blkBmap
  let fs := fs.writeDisk 1 fs.inodeBmap
  (List.range 8).foldl (fun fs i => fs.writeDisk (i + 2) (inodeTabBlock fs.inodeTab i)) fs

/-- `fs_new`, without the sweeping thread it starts. -/
def fsNew (numBlocks : ℕ) (pilha : ℕ → ℤ) : Fs :=
  fsiLoadFsdata
    { cache := criarCache dimCache (blockNew numBlocks) pilha
      referencias := fun _ => 0
      inodeBmap := nullBlock
      blkBmap := nullBlock
      inodeTab := fun _ => fsiInodeInit .unset }

/-- `fs_format`. The i-node table keeps what it held, the root apart. -/
def fsFormat (fs : Fs) : Fs :=
  let fs := (List.range fs.numBlocks).foldl (fun fs i => fs.writeDisk i nullBlock) fs
  let fs := { fs with referencias := fun b => if b < fs.numBlocks then 0 else fs.referencias b }
  let fs := { fs with blkBmap := (List.range bmapBits).foldl bmapClr fs.blkBmap }
  let fs := { fs with inodeBmap := (List.range bmapBits).foldl bmapClr fs.inodeBmap }
  let fs := { fs with blkBmap := (List.range 10).foldl bmapSet fs.blkBmap }
  let fs := { fs with inodeBmap := bmapSet (bmapSet fs.inodeBmap 0) 1 }
  fsiStoreFsdata (fs.setInode 1 (fsiInodeInit .fsDir))

/-! ## Directory pages -/

/-- `strcmp(&page[off],file) == 0`. -/
def strcmpEq (page : Block) (off : ℕ) : List Byte → Bool
  | [] => byteAt page off == 0#8
  | c :: cs => byteAt page off == c && strcmpEq page (off + 1) cs

def poke (page : Block) (k : ℕ) (v : Byte) : Block := fun i => if i.val = k then v else page i

/-- `strcpy(&page[off],file)`. -/
def strcpy (page : Block) (off : ℕ) : List Byte → Block
  | [] => poke page off 0#8
  | c :: cs => strcpy (poke page off c) (off + 1) cs

/-- The string at `off`, read for at most the given number of characters. -/
def cstrAt (page : Block) (off : ℕ) : ℕ → List Byte
  | 0 => []
  | n + 1 => if byteAt page off = 0#8 then [] else byteAt page off :: cstrAt page (off + 1) n

/-- `page[i].name`, with what `strcpy` from it copies. -/
def nameAt (page : Block) (i : ℕ) : List Byte := cstrAt page (16 * i) (blockSize - 16 * i)

/-- `page[i].inodeid`, an `unsigned short`. -/
def inodeidAt (page : Block) (i : ℕ) : ℕ :=
  (byteAt page (16 * i + 14)).toNat + 256 * (byteAt page (16 * i + 15)).toNat

def setInodeid (page : Block) (i id : ℕ) : Block :=
  poke (poke page (16 * i + 14) (BitVec.ofNat 8 id)) (16 * i + 15) (BitVec.ofNat 8 (id / 256))

/-- The scan of a page by `fsi_dir_search`, from entry `i` for `n` entries. -/
def procurarNaPagina (page : Block) (file : List Byte) : ℕ → ℕ → Option ℕ
  | _, 0 => none
  | i, n + 1 =>
      if strcmpEq page (16 * i) file then some (inodeidAt page i)
      else procurarNaPagina page file (i + 1) n

/-- The loop of `fsi_dir_search` with `num` entries left. -/
def fsiDirSearchLoop (fs : Fs) (dir : ℕ) (file : List Byte) (num iblock : ℕ) :
    Option (Fs × Option ℕ) :=
  if num = 0 then some (fs, none)
  else
    (fs.lerBloco (fs.inodeTab dir).type ((fs.inodeTab dir).blocks iblock)).bind fun (fs, page) =>
      match procurarNaPagina page file 0 (min num dirPageEntries) with
      | some fileid => some (fs, some fileid)
      | none => fsiDirSearchLoop fs dir file (num - dirPageEntries) (iblock + 1)
termination_by num

/-- `fsi_dir_search`: the i-node found (status 0), or `none` (status -1). -/
def fsiDirSearch (fs : Fs) (dir : ℕ) (file : List Byte) : Option (Fs × Option ℕ) :=
  fsiDirSearchLoop fs dir file ((fs.inodeTab dir).size / 16) 0

/-! ## Blocks -/

/-- `apagarBloco`; its result is ignored everywhere. -/
def apagarBloco (fs : Fs) (idBloco inode : ℕ) : Fs :=
  let nRef := fs.referencias idBloco
  if 1 < nRef then fs.setRef idBloco (nRef - 1)
  else
    let fs := fs.setRef idBloco 0
    let fs :=
      if (fs.inodeTab inode).type = .fsDir then fs.writeDisk idBloco nullBlock
      else { fs with cache := eliminarBlocoCache fs.cache idBloco }
    fs.clrBlk idBloco

/-- `copy_on_write`: the number of the private copy, or a negative value. -/
def copyOnWrite (fs : Fs) (blockId idFile : ℕ) : Option (Fs × ℤ) :=
  let nRef := fs.referencias blockId
  if nRef = 0 then some (fs, -2)
  else if nRef = 1 then some (fs, -1)
  else
    (fs.lerBloco (fs.inodeTab idFile).type blockId).bind fun (fs, block) =>
      match fs.findFreeBlk with
      | none => some (fs, -1)
      | some bks =>
          let fs := fs.setBlk bks
          -- the first slot that names the block, even one past the size of the file
          match (List.range inodeNumBlks).find?
              (fun i => (fs.inodeTab idFile).blocks i = blockId) with
          | none => some (fs, -1)
          | some k =>
              let fs := fs.setBlock idFile k bks
              let fs := fs.setRef bks (fs.referencias bks + 1)
              let fs := fs.setRef blockId (fs.referencias blockId - 1)
              let fs := if (fs.inodeTab idFile).type = .fsFile then fs.escreverCache bks block
                else fs.writeDisk bks block
              some (fs, bks)

/-- `escreverBloco`. -/
def escreverBloco (fs : Fs) (idBloco idFile : ℕ) (dados : Block) : Option Fs :=
  (copyOnWrite fs idBloco idFile).map fun (fs, novoBloco) =>
    let b := if 0 ≤ novoBloco then novoBloco.toNat else idBloco
    if (fs.inodeTab idFile).type = .fsDir then fs.writeDisk b dados else fs.escreverCache b dados

/-! ## Reading and writing files -/

/-- The loop of `fs_read` over at most the given number of blocks. -/
def fsReadLoop (file offset max : ℕ) : ℕ → Fs → ℕ → ℕ → List Byte → Option (Fs × List Byte)
  | 0, fs, _, _, buffer => some (fs, buffer)
  | n + 1, fs, iblock, pos, buffer =>
      if max ≤ pos then some (fs, buffer)
      else
        (fs.lerBloco (fs.inodeTab file).type ((fs.inodeTab file).blocks iblock)).bind
          fun (fs, block) =>
            let start := if pos = 0 then offset % blockSize else 0
            let num := min (blockSize - start) (max - pos)
            fsReadLoop file offset max n fs (iblock + 1) (pos + num)
              (buffer ++ (List.range num).map fun k => byteAt block (start + k))

/-- `fs_read`: the `*nread` bytes put in the buffer (status 0), or `none` (status -1). -/
def fsRead (fs : Fs) (file offset count : ℕ) : Option (Fs × Option (List Byte)) :=
  if itabSize ≤ file then some (fs, none)
  else if !bmapIsSet fs.inodeBmap file then some (fs, none)
  else if (fs.inodeTab file).type ≠ .fsFile then some (fs, none)
  else
    let size := (fs.inodeTab file).size
    if size ≤ offset then some (fs, some [])
    else
      let iblock := offset / blockSize
      (fsReadLoop file offset (min count (size - offset)) (offsetToBlocks size - iblock) fs
        iblock 0 []).map fun (fs, buffer) => (fs, some buffer)

/-- `for (i = start; i < BLOCK_SIZE && num < count; i++, num++) block[i] = buffer[num]`. -/
def copiarPara (block : Block) (start num count : ℕ) (buffer : ℕ → Byte) : Block := fun i =>
  if start ≤ i.val ∧ num + (i.val - start) < count then buffer (num + (i.val - start)) else block i

/-- The reservation loop of `fs_write` for slots `i` on; `false` when the disk is full. -/
def reservarBlocos (file : ℕ) : ℕ → ℕ → Fs → Fs × Bool
  | 0, _, fs => (fs, true)
  | n + 1, i, fs =>
      match fs.findFreeBlk with
      | none => (fs, false)
      | some blk =>
          let fs := (fs.setBlock file i blk).setBlk blk
          reservarBlocos file n (i + 1) (fs.setRef blk (fs.referencias blk + 1))

/-- `if(type == FS_FILE) escreverBloco(..) else block_write(..)` of `fs_write`. -/
def Fs.gravarBloco (fs : Fs) (file b : ℕ) (block : Block) : Option Fs :=
  if (fs.inodeTab file).type = .fsFile then escreverBloco fs b file block
  else some (fs.writeDisk b block)

/-- The loop of `fs_write` over the blocks the file has: the state, the bytes
written, the next block index and the buffer `block` afterwards. -/
def escreverExistentes (file offset count : ℕ) (buffer : ℕ → Byte) :
    ℕ → Fs → ℕ → ℕ → Block → Option (Fs × ℕ × ℕ × Block)
  | 0, fs, num, iblock, block => some (fs, num, iblock, block)
  | n + 1, fs, num, iblock, block =>
      if count ≤ num then some (fs, num, iblock, block)
      else
        (fs.lerBloco (fs.inodeTab file).type ((fs.inodeTab file).blocks iblock)).bind
          fun (fs, block) =>
            let start := if num = 0 then offset % blockSize else 0
            let block := copiarPara block start num count buffer
            (fs.gravarBloco file ((fs.inodeTab file).blocks iblock) block).bind fun fs =>
              escreverExistentes file offset count buffer n fs
                (min count (num + (blockSize - start))) (iblock + 1) block

/-- The loop of `fs_write` over the blocks it reserved. -/
def escreverReservados (file count : ℕ) (buffer : ℕ → Byte) :
    ℕ → Fs → ℕ → ℕ → Block → Option (Fs × ℕ)
  | 0, fs, num, _, _ => some (fs, num)
  | n + 1, fs, num, iblock, block =>
      if count ≤ num then some (fs, num)
      else
        let block := copiarPara block 0 num count buffer
        (fs.gravarBloco file ((fs.inodeTab file).blocks iblock) block).bind fun fs =>
          escreverReservados file count buffer n fs (min count (num + blockSize)) (iblock + 1) block

/-- `fs_write`; `lixo` is what its local `block` holds at first. -/
def fsWrite (fs : Fs) (file offset count : ℕ) (buffer : ℕ → Byte) (lixo : Block) :
    Option (Fs × ℤ) :=
  if itabSize ≤ file then some (fs, -1)
  else if !bmapIsSet fs.inodeBmap file then some (fs, -1)
  else if (fs.inodeTab file).type ≠ .fsFile then some (fs, -1)
  else
    let size := (fs.inodeTab file).size
    let offset := if size < offset then size else offset
    let blksUsed := offsetToBlocks size
    let blksReq := max (offsetToBlocks (offset + count)) blksUsed - blksUsed
    if inodeNumBlks - blksUsed < blksReq then some (fs, -1)
    else
      match reservarBlocos file blksReq blksUsed fs with
      | (fs, false) => some (fs, -1)
      | (fs, true) =>
          let iblock := offset / blockSize
          (escreverExistentes file offset count buffer (blksUsed - iblock) fs 0 iblock lixo).bind
            fun (fs, num, iblock, block) =>
              (escreverReservados file count buffer (blksUsed + blksReq - iblock) fs num iblock
                block).bind fun (fs, num) =>
                  if num ≠ count then none
                  else some (fsiStoreFsdata (fs.setSize file (max (offset + count) size)), 0)

/-! ## Directories -/

/-- A name argument that the length checks refuse. -/
def badName (name : CString) : Prop := name.val.length = 0 ∨ fsMaxFnameSz < name.val.length + 1

instance (name : CString) : Decidable (badName name) := instDecidableOr

/-- The body `fs_create` and `fs_mkdir` share, for a new i-node of type `tipo`: the
i-node (status 0), or `none` (status -1). -/
def fsCriar (tipo : FsItype) (fs : Fs) (dir : ℕ) (file : CString) : Option (Fs × Option ℕ) :=
  if itabSize ≤ dir ∨ badName file then some (fs, none)
  else if !bmapIsSet fs.inodeBmap dir then some (fs, none)
  else if (fs.inodeTab dir).type ≠ .fsDir then some (fs, none)
  else
    (fsiDirSearch fs dir file.val).bind fun (fs, found) =>
      if found.isSome then some (fs, none)
      else
        match fsiBmapFindFree fs.inodeBmap itabSize with
        | none => some (fs, none)
        | some finode =>
            let size := (fs.inodeTab dir).size
            -- a full or empty directory takes one more block
            match (if size % blockSize = 0 then
                fs.findFreeBlk.map fun fblock =>
                  (fs.setBlk fblock).setBlock dir (size / blockSize) fblock
              else some fs) with
            | none => some (fs, none)
            | some fs =>
                let b := (fs.inodeTab dir).blocks (size / blockSize)
                (fs.lerBloco (fs.inodeTab dir).type b).bind fun (fs, page) =>
                  let entry := size % blockSize / 16
                  let page := setInodeid (strcpy page (16 * entry) file.val) entry finode
                  (if (fs.inodeTab dir).type = .fsFile then escreverBloco fs b dir page
                    else some (fs.writeDisk b page)).bind fun fs =>
                      let fs := fs.setSize dir (size + 16)
                      let fs := { fs with inodeBmap := bmapSet fs.inodeBmap finode }
                      let fs := fs.setInode finode (fsiInodeInit tipo)
                      some (fsiStoreFsdata fs, some finode)

/-- `fs_create`. -/
def fsCreate : Fs → ℕ → CString → Option (Fs × Option ℕ) := fsCriar .fsFile

/-- `fs_mkdir`; the early return that keeps the writer lock is the same return here. -/
def fsMkdir : Fs → ℕ → CString → Option (Fs × Option ℕ) := fsCriar .fsDir

/-- The loop of `fs_readdir` with `num` entries left to list. -/
def fsReaddirLoop (fs : Fs) (dir num iblock : ℕ) (entries : List (List Byte × FsItype)) :
    Option (Fs × List (List Byte × FsItype)) :=
  if num = 0 then some (fs, entries)
  else
    (fs.lerBloco (fs.inodeTab dir).type ((fs.inodeTab dir).blocks iblock)).bind fun (fs, page) =>
      fsReaddirLoop fs dir (num - dirPageEntries) (iblock + 1)
        (entries ++ (List.range (min num dirPageEntries)).map fun i =>
          (nameAt page i, (fs.inodeTab (inodeidAt page i)).type))
termination_by num

/-- `fs_readdir`: the entries listed (status 0), or `none` (status -1). -/
def fsReaddir (fs : Fs) (dir : ℕ) (maxentries : ℤ) :
    Option (Fs × Option (List (List Byte × FsItype))) :=
  if itabSize ≤ dir ∨ maxentries < 0 then some (fs, none)
  else if !bmapIsSet fs.inodeBmap dir then some (fs, none)
  else if (fs.inodeTab dir).type ≠ .fsDir then some (fs, none)
  else
    (fsReaddirLoop fs dir (min ((fs.inodeTab dir).size / 16) maxentries.toNat) 0 []).map
      fun (fs, entries) => (fs, some entries)

/-- The loop of `fs_remove` over the blocks of the file; `false` when it meets a
block of the file system. -/
def removerBlocos (idFile : ℕ) : ℕ → ℕ → Fs → Fs × Bool
  | 0, _, fs => (fs, true)
  | n + 1, i, fs =>
      let idBlock := (fs.inodeTab idFile).blocks i
      if idBlock < 10 then (fs, false)
      else removerBlocos idFile n (i + 1) ((apagarBloco fs idBlock idFile).setBlock idFile i 0)

/-- The last of the first `n` entries of a page with the name. -/
def indiceNaPagina (page : Block) (name : List Byte) : ℕ → Option ℕ
  | 0 => none
  | n + 1 => if strcmpEq page (16 * n) name then some n else indiceNaPagina page name n

/-- The search of `fs_remove` for the entry, with `num` entries left. -/
def procurarEntrada (fs : Fs) (directorio : ℕ) (name : List Byte) (num iblock : ℕ) :
    Option (Fs × Option ℕ) :=
  if num = 0 then some (fs, none)
  else
    (fs.lerBloco (fs.inodeTab directorio).type ((fs.inodeTab directorio).blocks iblock)).bind
      fun (fs, page) =>
        match indiceNaPagina page name (min num dirPageEntries) with
        | some i => some (fs, some i)
        | none => procurarEntrada fs directorio name (num - dirPageEntries) (iblock + 1)
termination_by num

/-- The part of `fs_remove` that takes the entry out of the directory; `false` when
the entry is not found. -/
def removerEntrada (fs : Fs) (directorio : ℕ) (name : List Byte) : Option (Fs × Bool) :=
  let idirectorio := fs.inodeTab directorio
  let num := idirectorio.size / 16
  if num = 1 then
    let fs := apagarBloco fs (idirectorio.blocks 0) directorio
    some (fs.setBlock directorio 0 0, true)
  else
    (procurarEntrada fs directorio name num 0).bind fun (fs, idEntradaDirectorio) =>
      if idEntradaDirectorio.isNone then some (fs, false)
      else
        let ultimoBloco := num / dirPageEntries
        let idUltimaEntrada :=
          if ultimoBloco = 0 then num - 1 else (num - 1) % (ultimoBloco * dirPageEntries)
        if ultimoBloco = 0 ∧ idUltimaEntrada = 0 then
          some (apagarBloco fs (idirectorio.blocks 0) directorio, true)
        else
          let b := idirectorio.blocks ultimoBloco
          (fs.lerBloco idirectorio.type b).bind fun (fs, entradasUltimoBloco) =>
            -- the last entry is copied over the removed one, but only in the buffer
            -- the search filled: that page is never written back
            if idUltimaEntrada = 0 then
              some ((apagarBloco fs b directorio).setBlock directorio ultimoBloco 0, true)
            else
              let page := setInodeid (strcpy entradasUltimoBloco (16 * idUltimaEntrada) [])
                idUltimaEntrada 65535
              (escreverBloco fs b directorio page).map fun fs => (fs, true)

/-- `fs_remove`: the i-node freed (status 0), or `none` (status -1). -/
def fsRemove (fs : Fs) (directorio : ℕ) (nomeFicheiro : CString) : Option (Fs × Option ℕ) :=
  if itabSize ≤ directorio ∨ badName nomeFicheiro then some (fs, none)
  else if !bmapIsSet fs.inodeBmap directorio then some (fs, none)
  else if (fs.inodeTab directorio).type ≠ .fsDir then some (fs, none)
  else
    (fsiDirSearch fs directorio nomeFicheiro.val).bind fun (fs, found) =>
      match found with
      | none => some (fs, none)
      | some idFile =>
          let ifile := fs.inodeTab idFile
          if ifile.type = .fsDir ∧ ifile.size ≠ 0 then some (fs, none)
          else
            match removerBlocos idFile (offsetToBlocks ifile.size) 0 fs with
            | (fs, false) => some (fs, none)
            | (fs, true) =>
                (removerEntrada fs directorio nomeFicheiro.val).bind fun (fs, ok) =>
                  if !ok then some (fs, none)
                  else
                    let fs := fs.setSize directorio ((fs.inodeTab directorio).size - 16)
                    let fs := fs.setInode idFile (fsiInodeInit .unset)
                    let fs := { fs with inodeBmap := bmapClr fs.inodeBmap idFile }
                    some (fsiStoreFsdata fs, some idFile)

/-! ## Copying and appending -/

/-- The loop of `fs_copy` that releases the blocks of the destination. -/
def libertarDestino (fs : Fs) (idFile n : ℕ) : Fs :=
  (List.range n).foldl (fun fs k => apagarBloco fs ((fs.inodeTab idFile).blocks k) idFile) fs

/-- The loop of `fs_copy` and `fs_append` that copies `n` references of the file `de`
to the slots of `para` from `base` on. -/
def copiarReferencias (fs : Fs) (de para base n : ℕ) : Fs :=
  (List.range n).foldl
    (fun fs i =>
      let b := (fs.inodeTab de).blocks i
      let fs := fs.setBlock para (base + i) b
      fs.setRef b (fs.referencias b + 1))
    fs

/-- The end of `fs_copy`, once both i-nodes are known. -/
def fsCopyInodes (fs : Fs) (idFileOrigem idFileDestino : ℕ) : Fs × ℤ :=
  if (fs.inodeTab idFileDestino).type ≠ .fsFile then (fs, -1)
  else
    let fs := libertarDestino fs idFileDestino
      (offsetToBlocks (fs.inodeTab idFileDestino).size)
    let size := (fs.inodeTab idFileOrigem).size
    let fs := copiarReferencias fs idFileOrigem idFileDestino 0 (offsetToBlocks size)
    (fs.setSize idFileDestino size, 0)

/-- `fs_copy`; it never stores to `*fileHandler`. It does not check `dirDestino`: a number from
4096 on, whose bit the source would read behind `inode_bmap`, is refused here. -/
def fsCopy (fs : Fs) (dirOrigem : ℕ) (nomeOrigem : CString) (dirDestino : ℕ)
    (nomeDestino : CString) : Option (Fs × ℤ) :=
  if itabSize ≤ dirOrigem ∨ badName nomeOrigem then some (fs, -1)
  else if !bmapIsSet fs.inodeBmap dirOrigem then some (fs, -1)
  else if (fs.inodeTab dirOrigem).type ≠ .fsDir then some (fs, -1)
  else
    (fsiDirSearch fs dirOrigem nomeOrigem.val).bind fun (fs, found) =>
      match found with
      | none => some (fs, -1)
      | some idFileOrigem =>
          if (fs.inodeTab idFileOrigem).type ≠ .fsFile then some (fs, -1)
          else if badName nomeDestino then some (fs, -1)
          else if !bmapIsSet fs.inodeBmap dirDestino then some (fs, -1)
          else if (fs.inodeTab dirDestino).type ≠ .fsDir then some (fs, -1)
          else
            (fsiDirSearch fs dirDestino nomeDestino.val).bind fun (fs, found) =>
              match found with
              | some idFileDestino => some (fsCopyInodes fs idFileOrigem idFileDestino)
              | none =>
                  (fsCreate fs dirDestino nomeDestino).bind fun (fs, created) =>
                    match created with
                    | none => some (fs, -1)
                    | some _ =>
                        (fsiDirSearch fs dirDestino nomeDestino.val).bind fun (fs, found) =>
                          match found with
                          | none => some (fs, -1)
                          | some idFileDestino =>
                              some (fsCopyInodes fs idFileOrigem idFileDestino)

/-- `fs_append`: the new size (status 0), or `none` (status -1). The type check of the
second file tests the first one again. As in `fs_copy`, a `dirDestino` past the bits of
`inode_bmap` is refused here. -/
def fsAppend (fs : Fs) (dirOrigem : ℕ) (nomeOrigem : CString) (dirDestino : ℕ)
    (nomeDestino : CString) : Option (Fs × Option ℕ) :=
  if itabSize ≤ dirOrigem ∨ badName nomeOrigem then some (fs, none)
  else if !bmapIsSet fs.inodeBmap dirOrigem then some (fs, none)
  else if (fs.inodeTab dirOrigem).type ≠ .fsDir then some (fs, none)
  else
    (fsiDirSearch fs dirOrigem nomeOrigem.val).bind fun (fs, found) =>
      match found with
      | none => some (fs, none)
      | some idFileOrigem =>
          if (fs.inodeTab idFileOrigem).type ≠ .fsFile then some (fs, none)
          else if badName nomeDestino then some (fs, none)
          else if !bmapIsSet fs.inodeBmap dirDestino then some (fs, none)
          else if (fs.inodeTab dirDestino).type ≠ .fsDir then some (fs, none)
          else
            (fsiDirSearch fs dirDestino nomeDestino.val).bind fun (fs, found) =>
              match found with
              | none => some (fs, none)
              | some idFileDestino =>
                  if (fs.inodeTab idFileOrigem).type ≠ .fsFile then some (fs, none)
                  else
                    let size := (fs.inodeTab idFileOrigem).size
                    let size2 := (fs.inodeTab idFileDestino).size
                    let num := offsetToBlocks size
                    let num2 := offsetToBlocks size2
                    if inodeNumBlks - num < num2 then some (fs, none)
                    else
                      let fs := copiarReferencias fs idFileDestino idFileOrigem num num2
                      some (fs.setSize idFileOrigem (size + size2), some (size + size2))

/-! ## Defragmentation -/

/-- The i-nodes from 1 on that name a block in some slot. -/
def refInodes (fs : Fs) (bl : ℕ) : List ℕ :=
  (List.range' 1 (itabSize - 1)).filter fun o =>
    (List.range inodeNumBlks).any fun p => (fs.inodeTab o).blocks p = bl

/-- The first slot of an i-node that names block `de` is made to name `para`. -/
def redirecionarInode (de para : ℕ) (fs : Fs) (o : ℕ) : Fs :=
  match (List.range inodeNumBlks).find? (fun w => (fs.inodeTab o).blocks w = de) with
  | some w => fs.setBlock o w para
  | none => fs

/-- The loop of `mexeBlocoPara` over the i-nodes that name block `de`. -/
def redirecionar (fs : Fs) (inodes : List ℕ) (de para : ℕ) : Fs :=
  inodes.foldl (redirecionarInode de para) fs

/-- `invalidarBloco(fs->cache,b)`. -/
def Fs.invalidarBloco (fs : Fs) (b : ℕ) : Fs :=
  { fs with cache := (SnfsServer.invalidarBloco fs.cache b).2 }

/-- The highest free block from 640 down to 10, or 9. -/
def blocoTemporario (fs : Fs) : ℕ :=
  ((List.range' 10 (numBlocosMax - 9)).reverse.find? fun k => !bmapIsSet fs.blkBmap k).getD 9

/-- `mexeBlocoPara`. -/
def mexeBlocoPara (fs : Fs) (bl dest : ℕ) : Fs :=
  let refinodes := refInodes fs bl
  let fs :=
    if !bmapIsSet fs.blkBmap dest then
      let fs := (fs.writeDisk dest (fs.readDisk bl)).setBlk dest
      redirecionar fs refinodes bl dest
    else
      let k := blocoTemporario fs
      let fs := fs.setBlk k
      let tempRef := refInodes fs dest
      let fs := (fs.writeDisk k (fs.readDisk dest)).setBlk k
      let fs := (redirecionar fs tempRef dest k).invalidarBloco dest
      let fs := (fs.writeDisk dest (fs.readDisk bl)).setBlk dest
      redirecionar fs refinodes bl dest
  fsiStoreFsdata ((fs.invalidarBloco bl).clrBlk bl)

/-- One slot of the pass of `fs_defrag`, with the next place `pos`. -/
def defragSlot (z q : ℕ) (r : Fs × ℕ) : Fs × ℕ :=
  let (fs, pos) := r
  let bl := (fs.inodeTab z).blocks q
  if bl = pos then (fs, pos + 1)
  else if pos < bl then (mexeBlocoPara fs bl pos, pos + 1)
  else (fs, pos)

/-- The pass of `fs_defrag` over all slots of i-nodes 1 to 63. -/
def defragPass (fs : Fs) : Fs × ℕ :=
  (List.range' 1 (itabSize - 1)).foldl
    (fun r z => (List.range inodeNumBlks).foldl (fun r q => defragSlot z q r) r) (fs, 10)

/-- `fs_defrag`: 1, or -1 when no block from 10 to 639 is set. -/
def fsDefrag (fs : Fs) : Fs × ℤ :=
  if (List.range' 10 (numBlocosMax - 10)).any (fun i => bmapIsSet fs.blkBmap i) then
    ((defragPass fs).1, 1)
  else (fs, -1)

end ThreadScheduler.SnfsServer
