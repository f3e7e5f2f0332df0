import ThreadScheduler.SnfsServer.Namespace
import ThreadScheduler.SnfsServer.RemoveName

/-!
# Requests

`snfs.c`: a handler takes a request apart, calls the file system and fills in the response. An
outer `none` is a handler that ends the process; `lixo` is what a local variable holds that
the handler does not set.
-/
namespace ThreadScheduler.SnfsServer

/-- `MAX_FILE_NAME_SIZE`. -/
abbrev maxFileNameSize : ℕ := 14

/-- `MAX_READ_DATA`. -/
abbrev maxReadData : ℕ := 1024

/-- `MAX_WRITE_DATA`. -/
abbrev maxWriteData : ℕ := 1024

/-- `fs_file_attrs_t`. -/
structure FsFileAttrs where
  inodeid : ℕ
  type : FsItype
  size : ℕ
  numEntries : ℤ

/-- `fs_get_attrs`: the attributes (status 0), or an inner `none` (status -1). -/
def fsGetAttrs (fs : Fs) (file : ℕ) : Option (Option FsFileAttrs) :=
  if itabSize ≤ file then some none
  else if !bmapIsSet fs.inodeBmap file then some none
  else
    let inode := fs.inodeTab file
    match inode.type with
    | .fsDir => some (some ⟨file, .fsDir, inode.size, inode.size / 16⟩)
    | .fsFile => some (some ⟨file, .fsFile, inode.size, -1⟩)
    | .unset => none

/-- `snfs_dir_entry_type_t`. -/
inductive SnfsDirEntryType where
  | snfsDir
  | snfsFile

/-- The body of a response, or `RES_ERROR`. -/
inductive SnfsMsgRes where
  | error
  | lookup (file fsize : ℕ)
  | read (data : List Byte)
  | write (fsize : ℕ)
  | create (file : ℕ)
  | mkdir (newdirid : ℕ)
  | readdir (list : List (List Byte × SnfsDirEntryType))
  | remove (file : ℕ)
  | copy (file : ℕ)

/-- `(inodeid_t)fhandle`, an `unsigned short`. -/
def toInodeid (fhandle : ℕ) : ℕ := fhandle % 65536

/-- `name[MAX_FILE_NAME_SIZE-1] = '\0'`. -/
def terminar (name : CString) : CString :=
  ⟨name.val.take (maxFileNameSize - 1), fun h => name.property (List.mem_of_mem_take h)⟩

/-! ## Handlers -/

def snfsLookup (fs : Fs) (pname : CString) (lixo : ℕ) : Option (Fs × SnfsMsgRes) :=
  (fsLookup fs pname).bind fun (fs, status, fileid) =>
    if status = 1 then
      (fsGetAttrs fs (fileid.getD lixo)).map fun attrs =>
        match attrs with
        | some attrs => (fs, .lookup (fileid.getD lixo) attrs.size)
        | none => (fs, .error)
    else some (fs, .error)

def snfsRead (fs : Fs) (fhandle offset count : ℕ) : Option (Fs × SnfsMsgRes) :=
  if count ≤ maxReadData then
    (fsRead fs (toInodeid fhandle) offset count).map fun (fs, data) =>
      match data with
      | some data => (fs, .read data)
      | none => (fs, .error)
  else some (fs, .error)

def snfsWrite (fs : Fs) (fhandle offset count : ℕ) (data : ℕ → Byte) (lixo : Block) :
    Option (Fs × SnfsMsgRes) :=
  if count ≤ maxWriteData then
    (fsWrite fs (toInodeid fhandle) offset count data lixo).bind fun (fs, status) =>
      if status = 0 then
        (fsGetAttrs fs (toInodeid fhandle)).map fun attrs =>
          match attrs with
          | some attrs => (fs, .write attrs.size)
          | none => (fs, .error)
      else some (fs, .error)
  else some (fs, .error)

def snfsCreate (fs : Fs) (dir : ℕ) (name : CString) : Option (Fs × SnfsMsgRes) :=
  (fsCreate fs (toInodeid dir) (terminar name)).map fun (fs, fileid) =>
    match fileid with
    | some fileid => (fs, .create fileid)
    | none => (fs, .error)

def snfsMkdir (fs : Fs) (dir : ℕ) (file : CString) : Option (Fs × SnfsMsgRes) :=
  (fsMkdir fs (toInodeid dir) (terminar file)).map fun (fs, dirid) =>
    match dirid with
    | some dirid => (fs, .mkdir dirid)
    | none => (fs, .error)

/-- The loop of `snfs_readdir` that fills in the list of the response. -/
def preencherLista : List (List Byte × FsItype) → Option (List (List Byte × SnfsDirEntryType))
  | [] => some []
  | (name, type) :: entries =>
      match type with
      | .fsDir => (preencherLista entries).map fun l => (name.take maxFileNameSize, .snfsDir) :: l
      | .fsFile => (preencherLista entries).map fun l => (name.take maxFileNameSize, .snfsFile) :: l
      | .unset => none

/-- The handler passes the unsigned `cmax` as an `int`. -/
def snfsReaddir (fs : Fs) (dir cmax : ℕ) : Option (Fs × SnfsMsgRes) :=
  (fsReaddir fs (toInodeid dir) (BitVec.ofNat 32 cmax).toInt).bind fun (fs, entries) =>
    match entries with
    | some entries => (preencherLista entries).map fun list => (fs, .readdir list)
    | none => some (fs, .error)

def snfsRemove (fs : Fs) (dir : ℕ) (name : CString) : Option (Fs × SnfsMsgRes) :=
  (fsRemove fs (toInodeid dir) (terminar name)).map fun (fs, fileId) =>
    match fileId with
    | some fileId => (fs, .remove fileId)
    | none => (fs, .error)

/-- `fs_copy` does not set the `fileId` that the response is filled in with. -/
def snfsCopy (fs : Fs) (srcDir dstDir : ℕ) (srcName dstName : CString) (lixo : ℕ) :
    Option (Fs × SnfsMsgRes) :=
  (fsCopy fs (toInodeid srcDir) (terminar srcName) (toInodeid dstDir) (terminar dstName)).map
    fun (fs, status) => if status = 0 then (fs, .copy lixo) else (fs, .error)

/-- A request; the path of a lookup fits in the field of its message. -/
inductive SnfsMsgReq where
  | lookup (pname : { s : CString // s.val.length < maxPathNameSize }) (lixo : ℕ)
  | read (fhandle offset count : ℕ)
  | write (fhandle offset count : ℕ) (data : ℕ → Byte) (lixo : Block)
  | create (dir : ℕ) (name : CString)
  | mkdir (dir : ℕ) (file : CString)
  | readdir (dir cmax : ℕ)
  | remove (dir : ℕ) (name : CString)
  | copy (srcDir dstDir : ℕ) (srcName dstName : CString) (lixo : ℕ)

namespace SnfsMsgReq

/-- One request, handled to its response. -/
def handle (fs : Fs) : SnfsMsgReq → Option (Fs × SnfsMsgRes)
  | lookup pname lixo => snfsLookup fs pname.val lixo
  | read fhandle offset count => snfsRead fs fhandle offset count
  | write fhandle offset count data lixo => snfsWrite fs fhandle offset count data lixo
  | create dir name => snfsCreate fs dir name
  | mkdir dir file => snfsMkdir fs dir file
  | readdir dir cmax => snfsReaddir fs dir cmax
  | remove dir name => snfsRemove fs dir name
  | copy srcDir dstDir srcName dstName lixo => snfsCopy fs srcDir dstDir srcName dstName lixo

/-- The requests that leave every name at an i-node of its own: a lookup with no component finds
something else than i-node 0 in `fileid`, a file that is removed is the last entry of its
directory, and a file that is copied onto itself shares its blocks. The destination directory
of a copy, which `fs_copy` does not check, has a bit in `inode_bmap`. -/
def Seguro (fs : Fs) : SnfsMsgReq → Prop
  | lookup pname lixo => pname.val.val.head? = some barra → strtok pname.val.val = [] → lixo ≠ 0
  | remove dir name => fs.RemoverRecusado (toInodeid dir) (terminar name) ∨
      (fs.entradas (toInodeid dir)).getLast?.map Prod.fst = some (terminar name).val
  | copy srcDir dstDir srcName dstName _ =>
      ∀ n ∈ fs.resolve (toInodeid srcDir) (terminar srcName).val, fs.typeAt n = .fsFile →
        (¬ badName (terminar dstName) → toInodeid dstDir < bmapBits) ∧
          (fs.resolve (toInodeid dstDir) (terminar dstName).val = some n → fs.Partilha n n)
  | _ => True

instance decidableSeguro (fs : Fs) : ∀ p, Decidable (Seguro fs p)
  | lookup _ _ | remove _ _ | copy _ _ _ _ _ => by
      unfold Seguro
      infer_instance
  | read _ _ _ | write _ _ _ _ _ | create _ _ | mkdir _ _ | readdir _ _ => isTrue trivial

end SnfsMsgReq

/-! ## Types -/

namespace Fs

/-- An i-node with a type has attributes. -/
theorem Consistent.fsGetAttrs_of_type {fs : Fs} (h : fs.Consistent) {file : ℕ}
    (ht : fs.typeAt file ≠ .unset) : ∃ attrs, fsGetAttrs fs file = some (some attrs) := by
  have ha := h.alocado_of_type ht
  have hset : bmapIsSet fs.inodeBmap file = true := ha
  rw [fsGetAttrs, if_neg (Nat.not_le.mpr (h.lt_of_alocado ha)), hset, if_neg (by simp)]
  dsimp only
  rw [Fs.typeAt] at ht
  cases hk : (fs.inodeTab file).type with
  | unset => exact absurd hk ht
  | fsDir => exact ⟨_, rfl⟩
  | fsFile => exact ⟨_, rfl⟩

theorem fsGetAttrs_size {fs : Fs} {file : ℕ} {attrs : FsFileAttrs}
    (h : fsGetAttrs fs file = some (some attrs)) : attrs.size = fs.sizeAt file := by
  rw [fsGetAttrs] at h
  split at h
  · cases h
  split at h
  · cases h
  dsimp only at h
  split at h
  · rw [← Option.some.inj (Option.some.inj h)]
    rfl
  · rw [← Option.some.inj (Option.some.inj h)]
    rfl
  · cases h

/-- Every entry that `fs_readdir` reports is a directory or a file. -/
theorem Ligado.fsReaddir_tipos {fs : Fs} (hl : fs.Ligado) (h : fs.Consistent) {d : ℕ} {max : ℤ}
    {fs' : Fs} {l : List (List Byte × FsItype)} (hr : fsReaddir fs d max = some (fs', some l)) :
    ∀ e ∈ l, e.2 ≠ .unset := by
  have ht : fs.typeAt d = .fsDir := by
    by_contra hne
    have hne' : (fs.inodeTab d).type ≠ .fsDir := hne
    simp only [fsReaddir, hne', ne_eq, not_false_eq_true, if_true] at hr
    split_ifs at hr
    all_goals simp at hr
  have hmax : 0 ≤ max := by
    by_contra hneg
    rw [fsReaddir, if_pos (.inr (by omega))] at hr
    simp at hr
  rw [h.fsReaddir_eq ht hmax] at hr
  obtain ⟨-, hl'⟩ := Prod.mk.inj (Option.some.inj hr)
  intro e he
  rw [← Option.some.inj hl'] at he
  obtain ⟨x, hx, rfl⟩ := List.mem_map.mp he
  have hx := List.mem_of_mem_take hx
  obtain ⟨-, -, hge, -⟩ := (h.dirs d ht).entries x hx
  exact h.inodes.typed x.2 (by omega) (hl.alocado d x ht hx)

/-- `fs_readdir` refuses the call. -/
theorem fsReaddir_recusado {fs : Fs} {d : ℕ} {max : ℤ} (h : ¬(fs.typeAt d = .fsDir ∧ 0 ≤ max)) :
    fsReaddir fs d max = some (fs, none) := by
  unfold fsReaddir
  split
  · rfl
  split
  · rfl
  · rename_i hargs _
    have hdir : (fs.inodeTab d).type ≠ .fsDir := fun ht => h ⟨ht, by omega⟩
    rw [if_pos hdir]

section Removido

variable {fs fs' : Fs} {d n : ℕ} {nome : List Byte}

/-- What is left was there, and the last entry of the directory is gone. -/
theorem Removido.mem_entradas (h : fs.Consistent) (hr : Removido fs fs' d nome n) {x : ℕ}
    {e : List Byte × ℕ} (hx : fs'.typeAt x = .fsDir) (he : e ∈ fs'.entradas x) :
    fs.typeAt x = .fsDir ∧ e ∈ fs.entradas x ∧
      (x = d → (fs.entradas d).getLast?.map Prod.fst ≠ some e.1) := by
  have hxn : x ≠ n := by
    rintro rfl
    simp [hr.type] at hx
  rw [hr.type, if_neg hxn] at hx
  by_cases hxd : x = d
  · subst hxd
    rw [hr.entradas] at he
    refine ⟨hx, List.dropLast_subset _ he, fun _ hlast => ?_⟩
    have hnodup := (h.dirs x hx).nodup
    rw [← List.getLast?_map] at hlast
    have hmem : e.1 ∈ ((fs.entradas x).map Prod.fst).dropLast := by
      rw [← List.map_dropLast]
      exact List.mem_map_of_mem he
    exact ((mem_dropLast_iff hnodup hlast e.1).mp hmem).2 rfl
  · rw [hr.outras x hxd hxn] at he
    exact ⟨hx, he, fun hd => absurd hd hxd⟩

theorem Ligado.removido (hl : fs.Ligado) (h : fs.Consistent) (hr : Removido fs fs' d nome n)
    (hlast : (fs.entradas d).getLast?.map Prod.fst = some nome) : fs'.Ligado := by
  have hmem := mem_of_procura hr.achado
  refine ⟨fun x e hx he => ?_, fun x x' e e' hx hx' he he' heq => ?_⟩
  · obtain ⟨hx, he, hne⟩ := hr.mem_entradas h hx he
    -- the entry of the i-node that is freed is the last one
    have hen : e.2 ≠ n := by
      intro hen
      obtain ⟨rfl, rfl⟩ := hl.unico x d e (nome, n) hx hr.dir he hmem hen
      exact hne rfl hlast
    simp [hr.alocado, hen, hl.alocado x e hx he]
  · obtain ⟨hx, he, -⟩ := hr.mem_entradas h hx he
    obtain ⟨hx', he', -⟩ := hr.mem_entradas h hx' he'
    exact hl.unico x x' e e' hx hx' he he' heq

/-- A call that removed something was not refused. -/
theorem Removido.not_recusado {nome : CString} (h : fs.Consistent)
    (hr : Removido fs fs' d nome.val n) : ¬ fs.RemoverRecusado d nome := by
  obtain ⟨hne, hlen, -, -⟩ := (h.dirs d hr.dir).entries _ (mem_of_procura hr.achado)
  rintro (hb | hd | hnone | ⟨m, hm, hdir, hsize⟩)
  · obtain hz | hlt := hb
    · exact hne (List.eq_nil_of_length_eq_zero hz)
    · have hlen' : nome.val.length < fsMaxFnameSz := hlen
      omega
  · exact hd hr.dir
  · rw [hr.achado] at hnone
    cases hnone
  · obtain rfl := Option.some.inj (hm.symm.trans hr.achado)
    exact hsize (hr.vazio hdir)

end Removido

/-! ## Paths -/

end Fs

namespace SnfsMsgReq

variable {fs : Fs} (h : fs.Exacto) (hl : fs.Ligado)

include h hl

omit hl in
/-- The lookup of a path with no component ends the server if `fileid` happens to be 0. -/
theorem lookup_inseguro {pname : { s : CString // s.val.length < maxPathNameSize }} {lixo : ℕ}
    (hp : ¬ (lookup pname lixo).Seguro fs) : handle fs (lookup pname lixo) = none := by
  simp only [Seguro, not_forall, not_not] at hp
  obtain ⟨hhead, hnil, rfl⟩ := hp
  have hr : fsLookup fs pname.val = some (fs, 1, none) := by
    unfold fsLookup
    rw [if_neg (not_not.mpr hhead), if_neg (by have := pname.property; omega), hnil]
    rfl
  have hattrs : fsGetAttrs fs 0 = none := by
    obtain ⟨hset, ht, -⟩ := h.consistent.inodes.zero
    rw [Fs.alocado] at hset
    rw [Fs.typeAt] at ht
    unfold fsGetAttrs
    rw [if_neg (by decide), hset]
    simp [ht]
  show snfsLookup fs pname.val 0 = none
  unfold snfsLookup
  simp [hr, hattrs]

end SnfsMsgReq

/-! ## Runs -/

end ThreadScheduler.SnfsServer
