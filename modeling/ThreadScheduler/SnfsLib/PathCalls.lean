import ThreadScheduler.SnfsLib.Client
import ThreadScheduler.SnfsServer.DirectorySizes

/-!
# The calls on paths

`my_mkdir`, `my_remove`, `my_copy`, `my_append` and `my_listdir` of `myfs.c`, with the requests of
`snfs_api.c` that they make. `lixo k` is what `fileid` holds on the server in the `k`-th lookup of a
call. An outer `none` is a server that does not answer or a buffer that overflows.
-/
namespace ThreadScheduler.SnfsLib
open SnfsServer CBuffers

/-! ## Requests -/

/-- `snfs_mkdir` of `snfs_api.c`. -/
def snfsMkdir (fs : Fs) (dir : ℕ) (name : CString) : Option (Fs × Option ℕ) :=
  if maxFileNameSize ≤ name.val.length then none
  else
    (SnfsServer.snfsMkdir fs dir name).map fun (fs, res) =>
      match res with
      | .mkdir newdirid => (fs, some newdirid)
      | _ => (fs, none)

/-- `snfs_readdir` of `snfs_api.c`. -/
def snfsReaddir (fs : Fs) (dir cmax : ℕ) :
    Option (Fs × Option (List (List Byte × SnfsDirEntryType))) :=
  (SnfsServer.snfsReaddir fs dir cmax).map fun (fs, res) =>
    match res with
    | .readdir list => (fs, some list)
    | _ => (fs, none)

/-- `snfs_remove` of `snfs_api.c`. -/
def snfsRemove (fs : Fs) (dir : ℕ) (name : CString) : Option (Fs × Option ℕ) :=
  if maxFileNameSize ≤ name.val.length then none
  else
    (SnfsServer.snfsRemove fs dir name).map fun (fs, res) =>
      match res with
      | .remove file => (fs, some file)
      | _ => (fs, none)

/-- `snfs_copy` of `snfs_api.c`: the status is `STAT_OK`. -/
def snfsCopy (fs : Fs) (srcDir : ℕ) (srcName : CString) (dstDir : ℕ) (dstName : CString)
    (lixo : ℕ) : Option (Fs × Bool) :=
  if maxFileNameSize ≤ srcName.val.length ∨ maxFileNameSize ≤ dstName.val.length then none
  else
    (SnfsServer.snfsCopy fs srcDir dstDir srcName dstName lixo).map fun (fs, res) =>
      match res with
      | .copy _ => (fs, true)
      | _ => (fs, false)

/-- `snfs_append` of `snfs.c`: the response has the size after the append. -/
def snfsAppendHandler (fs : Fs) (srcDir dstDir : ℕ) (srcName dstName : CString) :
    Option (Fs × Option ℕ) :=
  fsAppend fs (toInodeid srcDir) (terminar srcName) (toInodeid dstDir) (terminar dstName)

/-- `snfs_append` of `snfs_api.c`, which leaves `*fsize`: the status is `STAT_OK`. -/
def snfsAppend (fs : Fs) (dir1 : ℕ) (name1 : CString) (dir2 : ℕ) (name2 : CString) :
    Option (Fs × Bool) :=
  if maxFileNameSize ≤ name1.val.length ∨ maxFileNameSize ≤ name2.val.length then none
  else (snfsAppendHandler fs dir1 dir2 name1 name2).map fun (fs, fsize) => (fs, fsize.isSome)

/-! ## Directories of paths -/

/-- The handle of the directory: 1, or the one that the lookup of `newdirname` finds. -/
def Corte.dir (corte : Corte) (fs : Fs) (lixo : ℕ) : Option (Fs × Option ℕ) :=
  if corte.i = 1 then some (fs, some 1)
  else
    (cadeia corte.newdirname).bind fun newdirname =>
      (snfsLookup fs newdirname lixo).map fun (fs, dir, procura) => (fs, procura.map fun _ => dir)

/-- `my_mkdir`. -/
def myMkdir (c : Cliente) (fs : Fs) (dirname : CString) (lixo : ℕ → ℕ) : Option (Fs × ℤ) :=
  if !c.libInitted then some (fs, -1)
  else
    (myparse dirname).bind fun r =>
      if r ≠ 0 then some (fs, -1)
      else
        (snfsLookup fs dirname (lixo 0)).bind fun (fs, _, procura) =>
          if procura.isSome then some (fs, -1)
          else
            (myMkdirCorte dirname).bind fun corte =>
              (corte.dir fs (lixo 1)).bind fun (fs, dir) =>
                match dir with
                | none => some (fs, -1)
                | some dir =>
                    (cadeia corte.newfilename).bind fun newfilename =>
                      (snfsMkdir fs dir newfilename).map fun (fs, newdir) =>
                        (fs, if newdir.isSome then 0 else -1)

/-- `my_remove`: 1 when it succeeds, else 0, or -1 if there is no directory. -/
def myRemove (c : Cliente) (fs : Fs) (name : CString) (lixo : ℕ → ℕ) : Option (Fs × ℤ) :=
  if !c.libInitted then some (fs, 0)
  else
    (myparse name).bind fun r =>
      if r ≠ 0 then some (fs, 0)
      else
        (snfsLookup fs name (lixo 0)).bind fun (fs, _, procura) =>
          if procura.isNone then some (fs, 0)
          else
            (myRemoveCorte name).bind fun corte =>
              (corte.dir fs (lixo 1)).bind fun (fs, dir) =>
                match dir with
                | none => some (fs, -1)
                | some dir =>
                    (cadeia corte.newfilename).bind fun newfilename =>
                      (snfsRemove fs dir newfilename).map fun (fs, file) =>
                        (fs, if file.isSome then 1 else 0)

/-- Both paths are malformed; the second one is parsed only if the first one is. -/
def malformados (nameOrigem nameDestino : CString) : Option Bool :=
  (myparse nameOrigem).bind fun r =>
    if r ≠ 0 then (myparse nameDestino).map fun r => r ≠ 0 else some false

/-- `my_copy`: 1 when it succeeds, else 0. A destination that is missing is created before the
server is asked to copy. -/
def myCopy (c : Cliente) (fs : Fs) (nameOrigem nameDestino : CString) (lixo : ℕ → ℕ) :
    Option (Fs × ℤ) :=
  if !c.libInitted then some (fs, 0)
  else
    (malformados nameOrigem nameDestino).bind fun mal =>
      if mal then some (fs, 0)
      else
        (snfsLookup fs nameOrigem (lixo 0)).bind fun (fs, _, procura) =>
          if procura.isNone then some (fs, 0)
          else
            (myCopyOrigemCorte nameOrigem).bind fun origem =>
              (origem.dir fs (lixo 1)).bind fun (fs, dirOrigem) =>
                match dirOrigem with
                | none => some (fs, 0)
                | some dirOrigem =>
                    (myCopyDestinoCorte nameDestino).bind fun destino =>
                      (destino.dir fs (lixo 2)).bind fun (fs, dirDestino) =>
                        match dirDestino with
                        | none => some (fs, 0)
                        | some dirDestino =>
                            (snfsLookup fs nameDestino (lixo 3)).bind fun (fs, _, procura) =>
                              (cadeia origem.newfilename).bind fun filenameOrigem =>
                                (cadeia destino.newfilename).bind fun filenameDestino =>
                                  (if procura.isSome then some (fs, true)
                                    else (snfsCreate fs dirDestino filenameDestino).map
                                      fun (fs, file) => (fs, file.isSome)).bind fun (fs, ha) =>
                                    if ha then
                                      (snfsCopy fs dirOrigem filenameOrigem dirDestino
                                        filenameDestino (lixo 4)).map fun (fs, ok) =>
                                          (fs, if ok then 1 else 0)
                                    else some (fs, 0)

/-- `my_append`: 1 when it succeeds, 0 when the server refuses it, else -1. -/
def myAppend (c : Cliente) (fs : Fs) (nameOrigem nameDestino : CString) (lixo : ℕ → ℕ) :
    Option (Fs × ℤ) :=
  if !c.libInitted then some (fs, -1)
  else
    (malformados nameOrigem nameDestino).bind fun mal =>
      if mal then some (fs, -1)
      else
        (snfsLookup fs nameOrigem (lixo 0)).bind fun (fs, _, procura) =>
          if procura.isNone then some (fs, -1)
          else
            (myAppendOrigemCorte nameOrigem).bind fun origem =>
              (origem.dir fs (lixo 1)).bind fun (fs, dirOrigem) =>
                match dirOrigem with
                | none => some (fs, -1)
                | some dirOrigem =>
                    (snfsLookup fs nameDestino (lixo 2)).bind fun (fs, _, procura) =>
                      if procura.isNone then some (fs, -1)
                      else
                        (myAppendDestinoCorte nameDestino).bind fun destino =>
                          (destino.dir fs (lixo 3)).bind fun (fs, dirDestino) =>
                            match dirDestino with
                            | none => some (fs, -1)
                            | some dirDestino =>
                                (cadeia origem.newfilename).bind fun filenameOrigem =>
                                  (cadeia destino.newfilename).bind fun filenameDestino =>
                                    (snfsAppend fs dirOrigem filenameOrigem dirDestino
                                      filenameDestino).map fun (fs, ok) =>
                                        (fs, if ok then 1 else 0)

/-! ## Listings -/

/-- The loop of `my_listdir`: one name after another, each with its terminator. -/
def escreverNomes : List Byte → List (List Byte) → Option (List Byte)
  | fnames, [] => some fnames
  | fnames, name :: list =>
      (contents 0#8 (filled 0#8 maxFileNameSize name)).bind fun name =>
        (strcpy 0#8 fnames name).bind fun fnames =>
          (escreverNomes (fnames.drop (name.length + 1)) list).map fun resto =>
            fnames.take (name.length + 1) ++ resto

/-- `my_listdir`: the number of files and the buffer of their names, or -1; `memoria` is what
`malloc` finds in the buffer. -/
def myListdir (c : Cliente) (fs : Fs) (path : CString) (lixo : ℕ) (memoria : ℕ → Byte) :
    Option (Fs × Option (ℕ × List Byte)) :=
  if !c.libInitted then some (fs, none)
  else
    (myparse path).bind fun r =>
      if r ≠ 0 then some (fs, none)
      else
        (if path.val.length = 1 ∧ path.val.head? = some barra then some (fs, some 1)
          else (snfsLookup fs path lixo).map fun (fs, dir, procura) =>
            (fs, procura.map fun _ => dir)).bind fun (fs, dir) =>
          match dir with
          | none => some (fs, none)
          | some dir =>
              (snfsReaddir fs dir maxReaddirEntries).bind fun (fs, list) =>
                match list with
                | none => some (fs, none)
                | some list =>
                    (escreverNomes
                      ((List.range ((maxFileNameSize + 1) * list.length)).map memoria)
                      (list.map Prod.fst)).map fun filenames =>
                        (fs, some (list.length, filenames))

end ThreadScheduler.SnfsLib
