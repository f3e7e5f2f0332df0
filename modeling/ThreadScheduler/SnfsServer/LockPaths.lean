import ThreadScheduler.SnfsServer.LockCalls
import ThreadScheduler.SnfsServer.Lookup
import ThreadScheduler.SnfsServer.RemoveName

/-!
# The paths through the operations

Each operation as the list of its calls of the lock, return by return, with the status it answers.
`nulo` says that one of its pointers other than `fs` is NULL. A path that does not return is
`none`.
-/
namespace ThreadScheduler.SnfsServer

/-- A path to a `return`: the calls of the lock on it and the status. -/
structure Caminho where
  chamadas : List Chamada
  estado : ℤ

/-- The rest of a path, after a call of the lock. -/
def Caminho.apos (c : Chamada) (r : Option Caminho) : Option Caminho :=
  r.map fun p => ⟨c :: p.chamadas, p.estado⟩

open Caminho (apos)

def caminhoFormat : Option Caminho := some ⟨[.iniciaEscrita, .terminaEscrita], 0⟩

def caminhoLookupLoop (fs : Fs) (dir : ℕ) : List (List Byte) → Option Caminho
  | [] => some ⟨[.terminaLeitura], 1⟩
  | token :: tokens =>
      if !bmapIsSet fs.inodeBmap dir then some ⟨[.terminaLeitura], -1⟩
      else if (fs.inodeTab dir).type ≠ .fsDir then some ⟨[.terminaLeitura], -1⟩
      else
        (fsiDirSearch fs dir token).bind fun (fs, found) =>
          match found with
          | none => some ⟨[.terminaLeitura], 0⟩
          | some fid => caminhoLookupLoop fs fid tokens

def caminhoLookup (fs : Fs) (nulo : Bool) (file : CString) : Option Caminho :=
  if nulo then some ⟨[], -1⟩
  else if file.val.head? ≠ some barra then some ⟨[], -1⟩
  else if maxPathNameSize ≤ file.val.length then none
  else apos .iniciaLeitura (caminhoLookupLoop fs 1 (strtok file.val))

def caminhoRead (fs : Fs) (nulo : Bool) (file offset count : ℕ) : Option Caminho :=
  if nulo ∨ itabSize ≤ file then some ⟨[], -1⟩
  else apos .iniciaLeitura <|
    if !bmapIsSet fs.inodeBmap file then some ⟨[.terminaLeitura], -1⟩
    else if (fs.inodeTab file).type ≠ .fsFile then some ⟨[.terminaLeitura], -1⟩
    else
      let size := (fs.inodeTab file).size
      if size ≤ offset then some ⟨[.terminaLeitura], 0⟩
      else
        let iblock := offset / blockSize
        (fsReadLoop file offset (min count (size - offset)) (offsetToBlocks size - iblock) fs
          iblock 0 []).map fun _ => ⟨[.terminaLeitura], 0⟩

/-- The check at the end of `fs_write` gives the lock back and exits. -/
def caminhoWrite (fs : Fs) (nulo : Bool) (file offset count : ℕ) (buffer : ℕ → Byte)
    (lixo : Block) : Option Caminho :=
  if nulo ∨ itabSize ≤ file then some ⟨[], -1⟩
  else apos .iniciaEscrita <|
    if !bmapIsSet fs.inodeBmap file then some ⟨[.terminaEscrita], -1⟩
    else if (fs.inodeTab file).type ≠ .fsFile then some ⟨[.terminaEscrita], -1⟩
    else
      let size := (fs.inodeTab file).size
      let offset := if size < offset then size else offset
      let blksUsed := offsetToBlocks size
      let blksReq := max (offsetToBlocks (offset + count)) blksUsed - blksUsed
      if inodeNumBlks - blksUsed < blksReq then some ⟨[.terminaEscrita], -1⟩
      else
        match reservarBlocos file blksReq blksUsed fs with
        | (_, false) => some ⟨[.terminaEscrita], -1⟩
        | (fs, true) =>
            let iblock := offset / blockSize
            (escreverExistentes file offset count buffer (blksUsed - iblock) fs 0 iblock lixo).bind
              fun (fs, num, iblock, block) =>
                (escreverReservados file count buffer (blksUsed + blksReq - iblock) fs num iblock
                  block).bind fun (_, num) =>
                    if num ≠ count then none else some ⟨[.terminaEscrita], 0⟩

/-- `fs_create` and `fs_mkdir` from the search on. -/
def caminhoEntrada (fs : Fs) (dir : ℕ) (file : CString) : Option Caminho :=
  (fsiDirSearch fs dir file.val).bind fun (fs, found) =>
    if found.isSome then some ⟨[.terminaEscrita], -1⟩
    else
      match fsiBmapFindFree fs.inodeBmap itabSize with
      | none => some ⟨[.terminaEscrita], -1⟩
      | some _ =>
          if (fs.inodeTab dir).size % blockSize = 0 ∧ fs.findFreeBlk = none then
            some ⟨[.terminaEscrita], -1⟩
          else some ⟨[.terminaEscrita], 0⟩

def caminhoCreate (fs : Fs) (nulo : Bool) (dir : ℕ) (file : CString) : Option Caminho :=
  if nulo ∨ itabSize ≤ dir then some ⟨[], -1⟩
  else if badName file then some ⟨[], -1⟩
  else apos .iniciaEscrita <|
    if !bmapIsSet fs.inodeBmap dir then some ⟨[.terminaEscrita], -1⟩
    else if (fs.inodeTab dir).type ≠ .fsDir then some ⟨[.terminaEscrita], -1⟩
    else caminhoEntrada fs dir file

/-- The return for a directory that is not in use has no `terminaEscrita`. -/
def caminhoMkdir (fs : Fs) (nulo : Bool) (dir : ℕ) (newdir : CString) : Option Caminho :=
  if nulo ∨ itabSize ≤ dir then some ⟨[], -1⟩
  else if badName newdir then some ⟨[], -1⟩
  else apos .iniciaEscrita <|
    if !bmapIsSet fs.inodeBmap dir then some ⟨[], -1⟩
    else if (fs.inodeTab dir).type ≠ .fsDir then some ⟨[.terminaEscrita], -1⟩
    else caminhoEntrada fs dir newdir

def caminhoReaddir (fs : Fs) (nulo : Bool) (dir : ℕ) (maxentries : ℤ) : Option Caminho :=
  if nulo ∨ itabSize ≤ dir ∨ maxentries < 0 then some ⟨[], -1⟩
  else apos .iniciaLeitura <|
    if !bmapIsSet fs.inodeBmap dir then some ⟨[.terminaLeitura], -1⟩
    else if (fs.inodeTab dir).type ≠ .fsDir then some ⟨[.terminaLeitura], -1⟩
    else
      (fsReaddirLoop fs dir (min ((fs.inodeTab dir).size / 16) maxentries.toNat) 0 []).map
        fun _ => ⟨[.terminaLeitura], 0⟩

def caminhoRemove (fs : Fs) (nulo : Bool) (directorio : ℕ) (nomeFicheiro : CString) :
    Option Caminho :=
  if nulo ∨ itabSize ≤ directorio then some ⟨[], -1⟩
  else if badName nomeFicheiro then some ⟨[], -1⟩
  else apos .iniciaEscrita <|
    if !bmapIsSet fs.inodeBmap directorio then some ⟨[.terminaEscrita], -1⟩
    else if (fs.inodeTab directorio).type ≠ .fsDir then some ⟨[.terminaEscrita], -1⟩
    else
      (fsiDirSearch fs directorio nomeFicheiro.val).bind fun (fs, found) =>
        match found with
        | none => some ⟨[.terminaEscrita], -1⟩
        | some idFile =>
            let ifile := fs.inodeTab idFile
            if ifile.type = .fsDir ∧ ifile.size ≠ 0 then some ⟨[.terminaEscrita], -1⟩
            else
              match removerBlocos idFile (offsetToBlocks ifile.size) 0 fs with
              | (_, false) => some ⟨[.terminaEscrita], -1⟩
              | (fs, true) =>
                  (removerEntrada fs directorio nomeFicheiro.val).map fun (_, ok) =>
                    if !ok then ⟨[.terminaEscrita], -1⟩ else ⟨[.terminaEscrita], 0⟩

/-- The end of `fs_copy`, from the type check of the destination on. -/
def caminhoCopyInodes (fs : Fs) (idFileDestino : ℕ) : Caminho :=
  if (fs.inodeTab idFileDestino).type ≠ .fsFile then ⟨[.terminaEscrita], -1⟩
  else ⟨[.terminaEscrita], 0⟩

/-- The part of `fs_copy` that creates the destination; `fs_create` takes the lock for itself. -/
def caminhoCopyNova (fs : Fs) (dirDestino : ℕ) (nomeDestino : CString) : Option Caminho :=
  apos .terminaEscrita <|
    (caminhoCreate fs false dirDestino nomeDestino).bind fun criacao =>
      (if criacao.estado = -1 then some ⟨[.terminaEscrita], -1⟩
      else
        (fsCreate fs dirDestino nomeDestino).bind fun (fs, _) =>
          apos .iniciaEscrita <|
            (fsiDirSearch fs dirDestino nomeDestino.val).map fun (fs, found) =>
              match found with
              | none => ⟨[.terminaEscrita], -1⟩
              | some idFileDestino => caminhoCopyInodes fs idFileDestino).map
        fun r => ⟨criacao.chamadas ++ r.chamadas, r.estado⟩

def caminhoCopy (fs : Fs) (nulo : Bool) (dirOrigem : ℕ) (nomeOrigem : CString) (dirDestino : ℕ)
    (nomeDestino : CString) : Option Caminho :=
  if nulo ∨ itabSize ≤ dirOrigem then some ⟨[], -1⟩
  else if badName nomeOrigem then some ⟨[], -1⟩
  else apos .iniciaEscrita <|
    if !bmapIsSet fs.inodeBmap dirOrigem then some ⟨[.terminaEscrita], -1⟩
    else if (fs.inodeTab dirOrigem).type ≠ .fsDir then some ⟨[.terminaEscrita], -1⟩
    else
      (fsiDirSearch fs dirOrigem nomeOrigem.val).bind fun (fs, found) =>
        match found with
        | none => some ⟨[.terminaEscrita], -1⟩
        | some idFileOrigem =>
            if (fs.inodeTab idFileOrigem).type ≠ .fsFile then some ⟨[.terminaEscrita], -1⟩
            else if badName nomeDestino then some ⟨[.terminaEscrita], -1⟩
            else if !bmapIsSet fs.inodeBmap dirDestino then some ⟨[.terminaEscrita], -1⟩
            else if (fs.inodeTab dirDestino).type ≠ .fsDir then some ⟨[.terminaEscrita], -1⟩
            else
              (fsiDirSearch fs dirDestino nomeDestino.val).bind fun (fs, found) =>
                match found with
                | some idFileDestino => some (caminhoCopyInodes fs idFileDestino)
                | none => caminhoCopyNova fs dirDestino nomeDestino

def caminhoAppend (fs : Fs) (nulo : Bool) (dirOrigem : ℕ) (nomeOrigem : CString) (dirDestino : ℕ)
    (nomeDestino : CString) : Option Caminho :=
  if nulo ∨ itabSize ≤ dirOrigem then some ⟨[], -1⟩
  else if badName nomeOrigem then some ⟨[], -1⟩
  else apos .iniciaEscrita <|
    if !bmapIsSet fs.inodeBmap dirOrigem then some ⟨[.terminaEscrita], -1⟩
    else if (fs.inodeTab dirOrigem).type ≠ .fsDir then some ⟨[.terminaEscrita], -1⟩
    else
      (fsiDirSearch fs dirOrigem nomeOrigem.val).bind fun (fs, found) =>
        match found with
        | none => some ⟨[.terminaEscrita], -1⟩
        | some idFileOrigem =>
            if (fs.inodeTab idFileOrigem).type ≠ .fsFile then some ⟨[.terminaEscrita], -1⟩
            else if badName nomeDestino then some ⟨[.terminaEscrita], -1⟩
            else if !bmapIsSet fs.inodeBmap dirDestino then some ⟨[.terminaEscrita], -1⟩
            else if (fs.inodeTab dirDestino).type ≠ .fsDir then some ⟨[.terminaEscrita], -1⟩
            else
              (fsiDirSearch fs dirDestino nomeDestino.val).bind fun (fs, found) =>
                match found with
                | none => some ⟨[.terminaEscrita], -1⟩
                | some idFileDestino =>
                    if (fs.inodeTab idFileOrigem).type ≠ .fsFile then some ⟨[.terminaEscrita], -1⟩
                    else
                      let num := offsetToBlocks (fs.inodeTab idFileOrigem).size
                      let num2 := offsetToBlocks (fs.inodeTab idFileDestino).size
                      if inodeNumBlks - num < num2 then some ⟨[.terminaEscrita], -1⟩
                      else some ⟨[.terminaEscrita], 0⟩

/-- `emCurso` is `defrag_state == 1`. -/
def caminhoDefrag (fs : Fs) (emCurso : Bool) : Option Caminho :=
  if emCurso then some ⟨[], 0⟩
  else apos .iniciaEscrita <|
    if (List.range' 10 (numBlocosMax - 10)).any (fun i => bmapIsSet fs.blkBmap i) then
      some ⟨[.terminaEscrita], 1⟩
    else some ⟨[.terminaEscrita], -1⟩

def caminhoDiskUsage : Option Caminho := some ⟨[.iniciaLeitura, .terminaLeitura], 0⟩

/-! ## Operations -/

/-- An operation with its arguments. -/
inductive Operacao where
  | format
  | lookup (nulo : Bool) (file : CString)
  | read (nulo : Bool) (file offset count : ℕ)
  | write (nulo : Bool) (file offset count : ℕ) (buffer : ℕ → Byte) (lixo : Block)
  | create (nulo : Bool) (dir : ℕ) (file : CString)
  | mkdir (nulo : Bool) (dir : ℕ) (newdir : CString)
  | readdir (nulo : Bool) (dir : ℕ) (maxentries : ℤ)
  | remove (nulo : Bool) (directorio : ℕ) (nomeFicheiro : CString)
  | copy (nulo : Bool) (dirOrigem : ℕ) (nomeOrigem : CString) (dirDestino : ℕ)
      (nomeDestino : CString)
  | append (nulo : Bool) (dirOrigem : ℕ) (nomeOrigem : CString) (dirDestino : ℕ)
      (nomeDestino : CString)
  | defrag (emCurso : Bool)
  | diskUsage

namespace Operacao

/-- The path the operation takes. -/
def caminho (fs : Fs) : Operacao → Option Caminho
  | format => caminhoFormat
  | lookup nulo file => caminhoLookup fs nulo file
  | read nulo file offset count => caminhoRead fs nulo file offset count
  | write nulo file offset count buffer lixo => caminhoWrite fs nulo file offset count buffer lixo
  | create nulo dir file => caminhoCreate fs nulo dir file
  | mkdir nulo dir newdir => caminhoMkdir fs nulo dir newdir
  | readdir nulo dir maxentries => caminhoReaddir fs nulo dir maxentries
  | remove nulo directorio nomeFicheiro => caminhoRemove fs nulo directorio nomeFicheiro
  | copy nulo d₁ nome₁ d₂ nome₂ => caminhoCopy fs nulo d₁ nome₁ d₂ nome₂
  | append nulo d₁ nome₁ d₂ nome₂ => caminhoAppend fs nulo d₁ nome₁ d₂ nome₂
  | defrag emCurso => caminhoDefrag fs emCurso
  | diskUsage => caminhoDiskUsage

/-- The status of a call that answers through a pointer. -/
def estadoDe {α : Type} (r : Option α) : ℤ := if r.isSome then 0 else -1

/-- What the operation does to the file system, and its status. -/
def executar (fs : Fs) : Operacao → Option (Fs × ℤ)
  | format => some (fsFormat fs, 0)
  | lookup nulo file =>
      if nulo then some (fs, -1) else (fsLookup fs file).map fun r => (r.1, r.2.1)
  | read nulo file offset count =>
      if nulo then some (fs, -1)
      else (fsRead fs file offset count).map fun r => (r.1, estadoDe r.2)
  | write nulo file offset count buffer lixo =>
      if nulo then some (fs, -1) else fsWrite fs file offset count buffer lixo
  | create nulo dir file =>
      if nulo then some (fs, -1) else (fsCreate fs dir file).map fun r => (r.1, estadoDe r.2)
  | mkdir nulo dir newdir =>
      if nulo then some (fs, -1) else (fsMkdir fs dir newdir).map fun r => (r.1, estadoDe r.2)
  | readdir nulo dir maxentries =>
      if nulo then some (fs, -1)
      else (fsReaddir fs dir maxentries).map fun r => (r.1, estadoDe r.2)
  | remove nulo directorio nomeFicheiro =>
      if nulo then some (fs, -1)
      else (fsRemove fs directorio nomeFicheiro).map fun r => (r.1, estadoDe r.2)
  | copy nulo d₁ nome₁ d₂ nome₂ =>
      if nulo then some (fs, -1) else fsCopy fs d₁ nome₁ d₂ nome₂
  | append nulo d₁ nome₁ d₂ nome₂ =>
      if nulo then some (fs, -1)
      else (fsAppend fs d₁ nome₁ d₂ nome₂).map fun r => (r.1, estadoDe r.2)
  | defrag emCurso => if emCurso then some (fs, 0) else some (fsDefrag fs)
  | diskUsage => some (fs, 0)

theorem executar_mkdir (fs : Fs) (dir : ℕ) (newdir : CString) :
    executar fs (mkdir false dir newdir) =
      (fsMkdir fs dir newdir).map fun r => (r.1, estadoDe r.2) := rfl

end Operacao

/-! ## The status of a path -/

open Operacao

@[simp] theorem apos_estado (c : Chamada) (r : Option Caminho) :
    (apos c r).map Caminho.estado = r.map Caminho.estado := by
  cases r <;> rfl

theorem fsCriar_estado (tipo : FsItype) (fs : Fs) (dir : ℕ) (file : CString)
    (hargs : ¬ (itabSize ≤ dir ∨ badName file)) (hset : bmapIsSet fs.inodeBmap dir = true)
    (ht : (fs.inodeTab dir).type = .fsDir) :
    (caminhoEntrada fs dir file).map Caminho.estado =
      (fsCriar tipo fs dir file).map fun r => estadoDe r.2 := by
  have hnf : (fs.inodeTab dir).type ≠ .fsFile := by rw [ht]; decide
  obtain ⟨found, hfound⟩ := fsiDirSearch_of_not_file hnf file.val
  unfold fsCriar caminhoEntrada
  rw [if_neg hargs, hset, if_neg (by decide), if_neg (not_not.mpr ht), hfound]
  simp only [Option.bind_some]
  cases found with
  | some n => rfl
  | none =>
    simp only [Option.isSome_none, Bool.false_eq_true, if_false]
    cases fsiBmapFindFree fs.inodeBmap itabSize with
    | none => rfl
    | some finode =>
      simp only
      by_cases hz : (fs.inodeTab dir).size % blockSize = 0
      · cases hf : fs.findFreeBlk with
        | none => simp [hz, estadoDe]
        | some b =>
          simp [hz, Fs.lerBloco, ht, Fs.setBlock, Fs.setInode, Fs.setBlk, estadoDe]
      · simp [hz, Fs.lerBloco, ht, estadoDe]
theorem caminhoLookupLoop_estado (fs : Fs) (tokens : List (List Byte)) (dir : ℕ)
    (fileid : Option ℕ) : (caminhoLookupLoop fs dir tokens).map Caminho.estado =
      (fsLookupLoop fs dir fileid tokens).map fun r => r.2.1 := by
  induction tokens generalizing fs dir fileid with
  | nil => rfl
  | cons token tokens ih =>
      unfold caminhoLookupLoop fsLookupLoop
      split
      · rfl
      split
      · rfl
      cases fsiDirSearch fs dir token with
      | none => rfl
      | some r =>
          obtain ⟨fs', found⟩ := r
          cases found with
          | none => rfl
          | some fid => exact ih fs' fid (some fid)

theorem caminhoRead_estado (fs : Fs) (file offset count : ℕ) :
    (caminhoRead fs false file offset count).map Caminho.estado =
      (fsRead fs file offset count).map fun r => estadoDe r.2 := by
  unfold caminhoRead fsRead
  simp only [Bool.false_eq_true, false_or]
  split
  · rfl
  rw [apos_estado]
  split
  · rfl
  split
  · rfl
  split
  · rfl
  · simp only [Option.map_map]
    rfl

theorem caminhoReaddir_estado (fs : Fs) (dir : ℕ) (max : ℤ) :
    (caminhoReaddir fs false dir max).map Caminho.estado =
      (fsReaddir fs dir max).map fun r => estadoDe r.2 := by
  unfold caminhoReaddir fsReaddir
  simp only [Bool.false_eq_true, false_or]
  split
  · rfl
  rw [apos_estado]
  split
  · rfl
  split
  · rfl
  · simp only [Option.map_map]
    rfl

theorem caminhoWrite_estado (fs : Fs) (file offset count : ℕ) (buffer : ℕ → Byte) (lixo : Block) :
    (caminhoWrite fs false file offset count buffer lixo).map Caminho.estado =
      (fsWrite fs file offset count buffer lixo).map Prod.snd := by
  unfold caminhoWrite fsWrite
  simp only [Bool.false_eq_true, false_or]
  split
  · rfl
  rw [apos_estado]
  split
  · rfl
  split
  · rfl
  generalize (if (fs.inodeTab file).size < offset then (fs.inodeTab file).size else offset) = off
  split
  · rfl
  generalize reservarBlocos file _ _ fs = r
  obtain ⟨fs₁, ok⟩ := r
  cases ok with
  | false => rfl
  | true =>
      simp only [Option.map_bind]
      congr 1
      funext r
      simp only [Function.comp, Option.map_bind]
      congr 1
      funext r
      split <;> rfl

theorem caminhoRemove_estado (fs : Fs) (d : ℕ) (nome : CString) :
    (caminhoRemove fs false d nome).map Caminho.estado =
      (fsRemove fs d nome).map fun r => estadoDe r.2 := by
  unfold caminhoRemove fsRemove
  simp only [Bool.false_eq_true, false_or, ite_or]
  split
  · rfl
  split
  · rfl
  rw [apos_estado]
  split
  · rfl
  split
  · rfl
  cases fsiDirSearch fs d nome.val with
  | none => rfl
  | some r =>
      obtain ⟨fs', found⟩ := r
      cases found with
      | none => rfl
      | some n =>
          simp only [Option.bind_some]
          split
          · rfl
          generalize removerBlocos n _ 0 fs' = r
          obtain ⟨fs₁, ok⟩ := r
          cases ok with
          | false => rfl
          | true =>
              simp only
              cases removerEntrada fs₁ d nome.val with
              | none => rfl
              | some r =>
                  obtain ⟨fs₂, ok⟩ := r
                  cases ok <;> rfl

theorem caminhoAppend_estado (fs : Fs) (d₁ : ℕ) (nome₁ : CString) (d₂ : ℕ) (nome₂ : CString) :
    (caminhoAppend fs false d₁ nome₁ d₂ nome₂).map Caminho.estado =
      (fsAppend fs d₁ nome₁ d₂ nome₂).map fun r => estadoDe r.2 := by
  unfold caminhoAppend fsAppend
  by_cases hd : itabSize ≤ d₁
  · rw [if_pos (.inr hd), if_pos (.inl hd)]
    rfl
  by_cases hb : badName nome₁
  · rw [if_neg (by simp [hd]), if_pos hb, if_pos (.inr hb)]
    rfl
  rw [if_neg (by simp [hd]), if_neg hb, if_neg (show ¬ (itabSize ≤ d₁ ∨ badName nome₁) by
    simp [hd, hb]), apos_estado]
  by_cases hset₁ : (!bmapIsSet fs.inodeBmap d₁) = true
  · rw [if_pos hset₁, if_pos hset₁]
    rfl
  by_cases ht₁ : (fs.inodeTab d₁).type ≠ .fsDir
  · rw [if_neg hset₁, if_neg hset₁, if_pos ht₁, if_pos ht₁]
    rfl
  rw [if_neg hset₁, if_neg hset₁, if_neg ht₁, if_neg ht₁]
  cases fsiDirSearch fs d₁ nome₁.val with
  | none => rfl
  | some r =>
      obtain ⟨fs₁, found⟩ := r
      cases found with
      | none => rfl
      | some de =>
          rw [Option.bind_some, Option.bind_some]
          dsimp only
          by_cases htde : (fs₁.inodeTab de).type ≠ .fsFile
          · rw [if_pos htde, if_pos htde]
            rfl
          by_cases hb₂ : badName nome₂
          · rw [if_neg htde, if_neg htde, if_pos hb₂, if_pos hb₂]
            rfl
          by_cases hset₂ : (!bmapIsSet fs₁.inodeBmap d₂) = true
          · rw [if_neg htde, if_neg htde, if_neg hb₂, if_neg hb₂, if_pos hset₂, if_pos hset₂]
            rfl
          by_cases ht₂ : (fs₁.inodeTab d₂).type ≠ .fsDir
          · rw [if_neg htde, if_neg htde, if_neg hb₂, if_neg hb₂, if_neg hset₂, if_neg hset₂,
              if_pos ht₂, if_pos ht₂]
            rfl
          rw [if_neg htde, if_neg htde, if_neg hb₂, if_neg hb₂, if_neg hset₂, if_neg hset₂,
            if_neg ht₂, if_neg ht₂]
          cases fsiDirSearch fs₁ d₂ nome₂.val with
          | none => rfl
          | some r =>
              obtain ⟨fs₂, found⟩ := r
              cases found with
              | none => rfl
              | some para =>
                  rw [Option.bind_some, Option.bind_some]
                  dsimp only
                  split
                  · rfl
                  split <;> rfl

theorem caminhoLookup_estado (fs : Fs) (file : CString) :
    (caminhoLookup fs false file).map Caminho.estado = (fsLookup fs file).map fun r => r.2.1 := by
  unfold caminhoLookup fsLookup
  rw [if_neg (by decide)]
  split
  · rfl
  split
  · rfl
  · rw [apos_estado]
    exact caminhoLookupLoop_estado fs _ 1 none

/-- `fs_create` and `fs_mkdir`, whatever the return for a directory that is not in use calls. -/
theorem caminhoCriar_estado (tipo : FsItype) (fs : Fs) (dir : ℕ) (file : CString)
    (semUso : List Chamada) :
    (if false = true ∨ itabSize ≤ dir then some ⟨[], -1⟩
      else if badName file then some ⟨[], -1⟩
      else apos .iniciaEscrita <|
        if !bmapIsSet fs.inodeBmap dir then some ⟨semUso, -1⟩
        else if (fs.inodeTab dir).type ≠ .fsDir then some ⟨[.terminaEscrita], -1⟩
        else caminhoEntrada fs dir file).map Caminho.estado =
      (fsCriar tipo fs dir file).map fun r => estadoDe r.2 := by
  by_cases hd : itabSize ≤ dir
  · rw [if_pos (.inr hd), fsCriar, if_pos (.inl hd)]
    rfl
  by_cases hb : badName file
  · rw [if_neg (by simp [hd]), if_pos hb, fsCriar, if_pos (.inr hb)]
    rfl
  have hargs : ¬ (itabSize ≤ dir ∨ badName file) := by simp [hd, hb]
  rw [if_neg (by simp [hd]), if_neg hb, apos_estado]
  by_cases hset : (!bmapIsSet fs.inodeBmap dir) = true
  · rw [if_pos hset, fsCriar, if_neg hargs, if_pos hset]
    rfl
  by_cases ht : (fs.inodeTab dir).type ≠ .fsDir
  · rw [if_neg hset, if_pos ht, fsCriar, if_neg hargs, if_neg hset, if_pos ht]
    rfl
  rw [if_neg hset, if_neg ht]
  exact fsCriar_estado tipo fs dir file hargs (by simpa using hset) (not_not.mp ht)

theorem caminhoCreate_estado (fs : Fs) (dir : ℕ) (file : CString) :
    (caminhoCreate fs false dir file).map Caminho.estado =
      (fsCreate fs dir file).map fun r => estadoDe r.2 :=
  caminhoCriar_estado .fsFile fs dir file [.terminaEscrita]

theorem caminhoMkdir_estado (fs : Fs) (dir : ℕ) (newdir : CString) :
    (caminhoMkdir fs false dir newdir).map Caminho.estado =
      (fsMkdir fs dir newdir).map fun r => estadoDe r.2 :=
  caminhoCriar_estado .fsDir fs dir newdir []

theorem caminhoCopyInodes_estado (fs : Fs) (de para : ℕ) :
    (caminhoCopyInodes fs para).estado = (fsCopyInodes fs de para).2 := by
  unfold caminhoCopyInodes fsCopyInodes
  split <;> rfl

theorem caminhoCopyNova_estado (fs : Fs) (de d₂ : ℕ) (nome₂ : CString) :
    (caminhoCopyNova fs d₂ nome₂).map Caminho.estado =
      ((fsCreate fs d₂ nome₂).bind fun (fs, created) =>
        match created with
        | none => some (fs, -1)
        | some _ =>
            (fsiDirSearch fs d₂ nome₂.val).bind fun (fs, found) =>
              match found with
              | none => some (fs, -1)
              | some para => some (fsCopyInodes fs de para)).map Prod.snd := by
  have hc := caminhoCreate_estado fs d₂ nome₂
  unfold caminhoCopyNova
  rw [apos_estado]
  cases hcam : caminhoCreate fs false d₂ nome₂ with
  | none =>
      cases hcreate : fsCreate fs d₂ nome₂ with
      | none => rfl
      | some r => simp [hcam, hcreate] at hc
  | some criacao =>
      cases hcreate : fsCreate fs d₂ nome₂ with
      | none => simp [hcam, hcreate] at hc
      | some r =>
          obtain ⟨fs₁, created⟩ := r
          have hest : criacao.estado = estadoDe created := by simpa [hcam, hcreate] using hc
          cases created with
          | none =>
              have hest' : criacao.estado = -1 := hest
              simp [hest']
          | some n =>
              have hest' : criacao.estado ≠ -1 := by
                rw [hest]
                show (0 : ℤ) ≠ -1
                decide
              rw [Option.bind_some, Option.bind_some, if_neg hest', Option.bind_some]
              dsimp only
              cases fsiDirSearch fs₁ d₂ nome₂.val with
              | none => rfl
              | some r =>
                  obtain ⟨fs₂, found⟩ := r
                  cases found with
                  | none => rfl
                  | some para =>
                      exact congrArg some (caminhoCopyInodes_estado fs₂ de para)

theorem caminhoCopy_estado (fs : Fs) (d₁ : ℕ) (nome₁ : CString) (d₂ : ℕ) (nome₂ : CString) :
    (caminhoCopy fs false d₁ nome₁ d₂ nome₂).map Caminho.estado =
      (fsCopy fs d₁ nome₁ d₂ nome₂).map Prod.snd := by
  unfold caminhoCopy fsCopy
  by_cases hd : itabSize ≤ d₁
  · rw [if_pos (.inr hd), if_pos (.inl hd)]
    rfl
  by_cases hb : badName nome₁
  · rw [if_neg (by simp [hd]), if_pos hb, if_pos (.inr hb)]
    rfl
  rw [if_neg (by simp [hd]), if_neg hb, if_neg (show ¬ (itabSize ≤ d₁ ∨ badName nome₁) by
    simp [hd, hb]), apos_estado]
  by_cases hset₁ : (!bmapIsSet fs.inodeBmap d₁) = true
  · rw [if_pos hset₁, if_pos hset₁]
    rfl
  by_cases ht₁ : (fs.inodeTab d₁).type ≠ .fsDir
  · rw [if_neg hset₁, if_neg hset₁, if_pos ht₁, if_pos ht₁]
    rfl
  rw [if_neg hset₁, if_neg hset₁, if_neg ht₁, if_neg ht₁]
  cases fsiDirSearch fs d₁ nome₁.val with
  | none => rfl
  | some r =>
      obtain ⟨fs₁, found⟩ := r
      cases found with
      | none => rfl
      | some de =>
          rw [Option.bind_some, Option.bind_some]
          dsimp only
          by_cases htde : (fs₁.inodeTab de).type ≠ .fsFile
          · rw [if_pos htde, if_pos htde]
            rfl
          by_cases hb₂ : badName nome₂
          · rw [if_neg htde, if_neg htde, if_pos hb₂, if_pos hb₂]
            rfl
          by_cases hset₂ : (!bmapIsSet fs₁.inodeBmap d₂) = true
          · rw [if_neg htde, if_neg htde, if_neg hb₂, if_neg hb₂, if_pos hset₂, if_pos hset₂]
            rfl
          by_cases ht₂ : (fs₁.inodeTab d₂).type ≠ .fsDir
          · rw [if_neg htde, if_neg htde, if_neg hb₂, if_neg hb₂, if_neg hset₂, if_neg hset₂,
              if_pos ht₂, if_pos ht₂]
            rfl
          rw [if_neg htde, if_neg htde, if_neg hb₂, if_neg hb₂, if_neg hset₂, if_neg hset₂,
            if_neg ht₂, if_neg ht₂]
          cases fsiDirSearch fs₁ d₂ nome₂.val with
          | none => rfl
          | some r =>
              obtain ⟨fs₂, found⟩ := r
              rw [Option.bind_some, Option.bind_some]
              dsimp only
              cases found with
              | some para => exact congrArg some (caminhoCopyInodes_estado fs₂ de para)
              | none => exact caminhoCopyNova_estado fs₂ de d₂ nome₂

theorem caminhoDefrag_estado (fs : Fs) :
    (caminhoDefrag fs false).map Caminho.estado = some (fsDefrag fs).2 := by
  unfold caminhoDefrag fsDefrag
  rw [if_neg (by decide), apos_estado]
  split <;> rfl

/-- The status of a path is that of the operation. -/
theorem Operacao.caminho_estado (fs : Fs) (op : Operacao) :
    (op.caminho fs).map Caminho.estado = (op.executar fs).map Prod.snd := by
  cases op with
  | format => rfl
  | diskUsage => rfl
  | defrag emCurso =>
      cases emCurso with
      | true => rfl
      | false => exact caminhoDefrag_estado fs
  | lookup nulo file =>
      cases nulo with
      | true => rfl
      | false => simpa [executar, caminho, Function.comp_def] using caminhoLookup_estado fs file
  | read nulo file offset count =>
      cases nulo with
      | true => rfl
      | false =>
          simpa [executar, caminho, Function.comp_def] using caminhoRead_estado fs file offset count
  | write nulo file offset count buffer lixo =>
      cases nulo with
      | true => rfl
      | false => exact caminhoWrite_estado fs file offset count buffer lixo
  | create nulo dir file =>
      cases nulo with
      | true => rfl
      | false => simpa [executar, caminho, Function.comp_def] using caminhoCreate_estado fs dir file
  | mkdir nulo dir newdir =>
      cases nulo with
      | true => rfl
      | false =>
          simpa [executar, caminho, Function.comp_def] using caminhoMkdir_estado fs dir newdir
  | readdir nulo dir maxentries =>
      cases nulo with
      | true => rfl
      | false =>
          simpa [executar, caminho, Function.comp_def] using caminhoReaddir_estado fs dir maxentries
  | remove nulo directorio nomeFicheiro =>
      cases nulo with
      | true => rfl
      | false =>
          simpa [executar, caminho, Function.comp_def] using
            caminhoRemove_estado fs directorio nomeFicheiro
  | copy nulo d₁ nome₁ d₂ nome₂ =>
      cases nulo with
      | true => rfl
      | false => exact caminhoCopy_estado fs d₁ nome₁ d₂ nome₂
  | append nulo d₁ nome₁ d₂ nome₂ =>
      cases nulo with
      | true => rfl
      | false =>
          simpa [executar, caminho, Function.comp_def] using
            caminhoAppend_estado fs d₁ nome₁ d₂ nome₂
end ThreadScheduler.SnfsServer
