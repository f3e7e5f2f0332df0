import Mathlib.Data.List.TakeWhile
import ThreadScheduler.SnfsLib.PathSplit

/-!
# The client library

`myfs.c` over `snfs_api.c`: the open files are descriptors in a queue, and a transfer is a loop of
requests of up to 1024 bytes. An `int` and an `unsigned` are 32 bits. The outer `none` of a call is
a server that does not answer, and an inner one is `RES_ERROR`.
-/
namespace ThreadScheduler.SnfsLib
open SnfsServer CBuffers

/-- `MAX_OPEN_FILES`. -/
abbrev maxOpenFiles : ℤ := 10

/-- `O_CREATE`. -/
abbrev oCreate : ℤ := 1

/-! ## Descriptors -/

/-- `struct _file_desc`. -/
structure FileDesc where
  fileId : ℕ
  size : BitVec 32
  readOffset : BitVec 32
  writeOffset : BitVec 32
  deriving DecidableEq

/-- `queue_node_get`: the first descriptor of the file. -/
def queueNodeGet (queue : List FileDesc) (fileId : ℕ) : Option FileDesc :=
  queue.find? fun fd => fd.fileId = fileId

/-- An assignment through the pointer that `queue_node_get` gave. -/
def queueNodeSet : List FileDesc → FileDesc → List FileDesc
  | [], _ => []
  | fd :: queue, fdesc =>
      if fd.fileId = fdesc.fileId then fdesc :: queue else fd :: queueNodeSet queue fdesc

/-- `queue_node_remove`. -/
def queueNodeRemove : List FileDesc → ℕ → Option (FileDesc × List FileDesc)
  | [], _ => none
  | fd :: queue, fileId =>
      if fd.fileId = fileId then some (fd, queue)
      else (queueNodeRemove queue fileId).map fun r => (r.1, fd :: r.2)

/-- The static variables of `myfs.c`. -/
structure Cliente where
  libInitted : Bool
  openFiles : ℤ
  openFilesList : List FileDesc

@[simp] theorem queueNodeGet_set {queue : List FileDesc} {fdesc fd : FileDesc}
    (h : queueNodeGet queue fdesc.fileId = some fd) :
    queueNodeGet (queueNodeSet queue fdesc) fdesc.fileId = some fdesc := by
  induction queue with
  | nil => cases h
  | cons fd' queue ih =>
      rw [queueNodeSet]
      split_ifs with heq
      · simp [queueNodeGet]
      · rw [queueNodeGet, List.find?_cons_of_neg (by simpa using heq)] at h ⊢
        exact ih h

/-! ## Calls to the server -/

/-- The server, as `snfs_read` and `snfs_write` of `snfs_api.c` see it. -/
structure Servidor (σ : Type*) where
  read : σ → (fhandle offset count : ℕ) → Option (σ × Option (List Byte))
  write : σ → (fhandle offset count : ℕ) → (data : ℕ → Byte) → Option (σ × Option ℕ)

/-- `memcpy(&dest[pos],src,count)`. -/
def memcpy (dest : ℕ → Byte) (pos : ℕ) (src : ℕ → Byte) (count : ℕ) : ℕ → Byte :=
  fun k => if pos ≤ k ∧ k < pos + count then src (k - pos) else dest k

/-- The handlers of `snfs.c`; `lixo` is what the buffer of `fs_write` holds. -/
def servidorFs (lixo : Fs → ℕ → Block) : Servidor Fs where
  read fs fhandle offset count :=
    (snfsRead fs fhandle offset count).map fun (fs, res) =>
      match res with
      | .read data => (fs, some data)
      | _ => (fs, none)
  write fs fhandle offset count data :=
    (snfsWrite fs fhandle offset count data (lixo fs offset)).map fun (fs, res) =>
      match res with
      | .write fsize => (fs, some fsize)
      | _ => (fs, none)

/-- `snfs_lookup` of `snfs_api.c`: the handle, 0 if there is none, and the size. -/
def snfsLookup (fs : Fs) (pathname : CString) (lixo : ℕ) : Option (Fs × ℕ × Option ℕ) :=
  if maxPathNameSize ≤ pathname.val.length then none
  else
    (SnfsServer.snfsLookup fs pathname lixo).map fun (fs, res) =>
      match res with
      | .lookup file fsize => (fs, file, some fsize)
      | _ => (fs, 0, none)

/-- `snfs_create` of `snfs_api.c`. -/
def snfsCreate (fs : Fs) (dir : ℕ) (name : CString) : Option (Fs × Option ℕ) :=
  if maxFileNameSize ≤ name.val.length then none
  else
    (SnfsServer.snfsCreate fs dir name).map fun (fs, res) =>
      match res with
      | .create file => (fs, some file)
      | _ => (fs, none)

/-! ## Opening -/

/-- The string in a buffer. -/
def cadeia (buf : List Byte) : Option CString :=
  if 0#8 ∈ buf then
    some ⟨buf.takeWhile fun c => c ≠ 0#8, fun h => by simpa using List.mem_takeWhile_imp h⟩
  else none

theorem cadeia_eq {buf s : List Byte} (h : contents 0#8 buf = some s) :
    (cadeia buf).map Subtype.val = some s := by
  unfold contents at h
  unfold cadeia
  split_ifs at h ⊢
  exact h

theorem cadeia_of_holds {buf s : List Byte} (h : Holds 0#8 buf s) :
    cadeia buf = some ⟨s, h.notMem⟩ := by
  obtain ⟨x, hx, rfl⟩ := Option.map_eq_some_iff.mp (cadeia_eq h.contents_eq)
  exact hx

/-- The new descriptor, and what `my_open` returns. -/
def abrir (c : Cliente) (file_fh fsize : ℕ) : Cliente × ℤ :=
  ({ c with
      openFiles := c.openFiles + 1
      openFilesList := c.openFilesList ++ [⟨file_fh, BitVec.ofNat 32 fsize, 0, 0⟩] },
    file_fh)

/-- `my_open`; `lixo` is what `fileid` holds on the server in each lookup. -/
def myOpen (c : Cliente) (fs : Fs) (name : CString) (flags : ℤ) (lixo lixo' : ℕ) :
    Option (Cliente × Fs × ℤ) :=
  if !c.libInitted then some (c, fs, -1)
  else if maxOpenFiles ≤ c.openFiles then some (c, fs, -1)
  else
    (myparse name).bind fun r =>
      if r ≠ 0 then some (c, fs, -1)
      else
        (myOpenCorte name).bind fun corte =>
          (snfsLookup fs name lixo).bind fun (fs, file_fh, procura) =>
            match procura with
            | some fsize => some ((abrir c file_fh fsize).1, fs, (abrir c file_fh fsize).2)
            | none =>
                (cadeia corte.newdirname).bind fun newdirname =>
                  (snfsLookup fs newdirname lixo').bind fun (fs, dir, procura) =>
                    -- the lookup of the directory sets `fsize` as well
                    let fsize := procura.getD 0
                    let dir := if corte.i = 1 then 1 else dir
                    if flags = oCreate then
                      (cadeia corte.newfilename).bind fun newfilename =>
                        (snfsCreate fs dir newfilename).bind fun (fs, novo) =>
                          match novo with
                          | some file_fh =>
                              some ((abrir c file_fh fsize).1, fs, (abrir c file_fh fsize).2)
                          | none => some (c, fs, -1)
                    else some (c, fs, -1)

/-! ## Reading and writing -/

/-- The variables of the loop of `my_read`. -/
structure Leitura (σ : Type*) where
  servidor : σ
  readOffset : BitVec 32
  numBytes : BitVec 32
  rBytes : BitVec 32
  buffer : ℕ → Byte
  counter : BitVec 32

/-- The loop of `my_read`, for up to as many tests of its condition. -/
def myReadLoop {σ : Type*} (s : Servidor σ) (fileId : ℕ) :
    ℕ → Leitura σ → Option (Leitura σ × ℤ)
  | 0, _ => none
  | n + 1, l =>
      if l.numBytes = 0 then some (l, l.counter.toInt)
      else
        let rBytes := if l.numBytes < l.rBytes then l.numBytes else l.rBytes
        (s.read l.servidor fileId l.readOffset.toNat rBytes.toNat).bind fun (servidor, res) =>
          match res with
          | none => some ({ l with servidor := servidor, rBytes := rBytes }, -1)
          | some data =>
              let nread := BitVec.ofNat 32 data.length
              myReadLoop s fileId n
                { servidor := servidor
                  readOffset := l.readOffset + nread
                  numBytes := l.numBytes - nread
                  rBytes := rBytes
                  -- the answer is zero after its data
                  buffer := memcpy l.buffer l.counter.toNat (fun k => data.getD k 0#8) rBytes.toNat
                  counter := l.counter + nread }

/-- `my_read`, for up to `n` tests of the condition of its loop. -/
def myRead {σ : Type*} (s : Servidor σ) (n : ℕ) (c : Cliente) (servidor : σ) (fileId : ℕ)
    (buffer : ℕ → Byte) (numBytes : BitVec 32) : Option (Cliente × σ × (ℕ → Byte) × ℤ) :=
  if !c.libInitted then some (c, servidor, buffer, -1)
  else
    match queueNodeGet c.openFilesList fileId with
    | none => some (c, servidor, buffer, -1)
    | some fdesc =>
        if fdesc.readOffset = fdesc.size then some (c, servidor, buffer, 0)
        else
          let numBytes :=
            if fdesc.size < fdesc.readOffset + numBytes then fdesc.size - fdesc.readOffset
            else numBytes
          let rBytes := if BitVec.ofNat 32 maxReadData < numBytes then .ofNat 32 maxReadData
            else numBytes
          (myReadLoop s fileId n ⟨servidor, fdesc.readOffset, numBytes, rBytes, buffer, 0⟩).map
            fun (l, r) =>
              ({ c with
                  openFilesList :=
                    queueNodeSet c.openFilesList { fdesc with readOffset := l.readOffset } },
                l.servidor, l.buffer, r)

/-- The variables of the loop of `my_write`. -/
structure Escrita (σ : Type*) where
  servidor : σ
  size : BitVec 32
  writeOffset : BitVec 32
  numBytes : BitVec 32
  wBytes : BitVec 32
  counter : BitVec 32

/-- The loop of `my_write`, for up to as many tests of its condition. -/
def myWriteLoop {σ : Type*} (s : Servidor σ) (fileId : ℕ) (buffer : ℕ → Byte) :
    ℕ → Escrita σ → Option (Escrita σ × ℤ)
  | 0, _ => none
  | n + 1, l =>
      if l.numBytes = 0 then some (l, l.counter.toInt)
      else
        let wBytes := if l.numBytes < l.wBytes then l.numBytes else l.wBytes
        let data := memcpy (fun _ => 0#8) 0 (fun k => buffer (l.counter.toNat + k)) wBytes.toNat
        (s.write l.servidor fileId l.writeOffset.toNat wBytes.toNat data).bind
          fun (servidor, res) =>
            match res with
            | none => some ({ l with servidor := servidor, wBytes := wBytes }, -1)
            | some fsize =>
                myWriteLoop s fileId buffer n
                  { servidor := servidor
                    size := BitVec.ofNat 32 fsize
                    writeOffset := l.writeOffset + wBytes
                    numBytes := l.numBytes - wBytes
                    wBytes := wBytes
                    counter := l.counter + wBytes }

/-- `my_write`, for up to `n` tests of the condition of its loop. -/
def myWrite {σ : Type*} (s : Servidor σ) (n : ℕ) (c : Cliente) (servidor : σ) (fileId : ℕ)
    (buffer : ℕ → Byte) (numBytes : BitVec 32) : Option (Cliente × σ × ℤ) :=
  if !c.libInitted then some (c, servidor, -1)
  else
    match queueNodeGet c.openFilesList fileId with
    | none => some (c, servidor, -1)
    | some fdesc =>
        let wBytes := if BitVec.ofNat 32 maxWriteData < numBytes then .ofNat 32 maxWriteData
          else numBytes
        (myWriteLoop s fileId buffer n
          ⟨servidor, fdesc.size, fdesc.writeOffset, numBytes, wBytes, 0⟩).map fun (l, r) =>
            ({ c with
                openFilesList := queueNodeSet c.openFilesList
                  { fdesc with size := l.size, writeOffset := l.writeOffset } },
              l.servidor, r)

/-- `my_close`. -/
def myClose (c : Cliente) (fileId : ℕ) : Cliente × ℤ :=
  if !c.libInitted then (c, -1)
  else
    match queueNodeRemove c.openFilesList fileId with
    | none => (c, -1)
    | some (_, queue) => ({ c with openFiles := c.openFiles - 1, openFilesList := queue }, 0)

end ThreadScheduler.SnfsLib
