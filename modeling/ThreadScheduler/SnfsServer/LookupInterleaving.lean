import Mathlib.Data.List.TakeWhile
import ThreadScheduler.SnfsServer.CallCases
import ThreadScheduler.SnfsServer.Lookup
import ThreadScheduler.SnfsServer.RemoveName

/-!
# Lookups side by side

`fs_lookup` cuts its path with `strtok`, whose cursor is one for the whole process: it is set before
the monitor of the readers is entered, and moved on inside the walk. A call gives way at
`iniciaLeitura` and at each directory block that it reads.
-/
namespace ThreadScheduler.SnfsServer

/-! ## One token -/

/-- `strtok` on a string: its first token, and where the cursor stands afterwards. -/
def strtokUm (line : List Byte) : Option (List Byte) × List Byte :=
  match line.dropWhile (· == barra) with
  | [] => (none, [])
  | c :: cs => (some ((c :: cs).takeWhile (· != barra)), ((c :: cs).dropWhile (· != barra)).tail)

theorem strtok_append_barra (token line : List Byte) (ht : barra ∉ token) :
    strtok (token ++ barra :: line) =
      if token = [] then strtok line else token :: strtok line := by
  rw [strtok, List.splitOn_append_cons_self, List.splitOn_eq_singleton ht, List.singleton_append]
  split
  · rename_i h
    rw [List.filter_cons_of_neg (by simpa using h), strtok]
  · rename_i h
    rw [List.filter_cons_of_pos (by simpa using h), strtok]

theorem strtok_dropWhile (line : List Byte) :
    strtok (line.dropWhile (· == barra)) = strtok line := by
  induction line with
  | nil => rfl
  | cons c line ih =>
      by_cases hc : c = barra
      · subst hc
        rw [List.dropWhile_cons_of_pos (by simp), ih]
        exact (strtok_append_barra [] line List.not_mem_nil).symm
      · rw [List.dropWhile_cons_of_neg (by simpa using hc)]

/-- The tokens of a string, one after another. -/
theorem strtok_eq (line : List Byte) : strtok line =
    match strtokUm line with
    | (none, _) => []
    | (some token, resto) => token :: strtok resto := by
  rw [strtokUm, ← strtok_dropWhile line]
  cases hd : line.dropWhile (· == barra) with
  | nil => rfl
  | cons c cs =>
      have hc : c ≠ barra := by
        have := List.head?_dropWhile_not (· == barra) line
        rw [hd] at this
        simpa using this
      have htoken : barra ∉ (c :: cs).takeWhile (· != barra) := by
        intro h
        simpa using List.mem_takeWhile_imp h
      have hne : (c :: cs).takeWhile (· != barra) ≠ [] := by
        rw [List.takeWhile_cons_of_pos (by simpa using hc)]
        exact List.cons_ne_nil _ _
      dsimp only
      conv_lhs => rw [← List.takeWhile_append_dropWhile (p := (· != barra)) (l := c :: cs)]
      cases hr : (c :: cs).dropWhile (· != barra) with
      | nil =>
          rw [List.append_nil, strtok, List.splitOn_eq_singleton htoken,
            List.filter_cons_of_pos (by simpa using hne)]
          rfl
      | cons b resto =>
          have hb : b = barra := by
            have := List.head?_dropWhile_not (· != barra) (c :: cs)
            rw [hr] at this
            simpa using this
          rw [hb, strtok_append_barra _ _ htoken, if_neg hne]
          rfl

theorem strtok_strtokUm (line : List Byte) :
    (strtokUm line).1 = (strtok line).head? ∧ strtok (strtokUm line).2 = (strtok line).drop 1 := by
  rw [strtok_eq line]
  rcases h : strtokUm line with ⟨token, resto⟩
  cases token with
  | none =>
      rw [strtokUm] at h
      split at h
      · rw [← (Prod.mk.inj h).2]
        exact ⟨rfl, rfl⟩
      · exact absurd (Prod.mk.inj h).1 (Option.some_ne_none _)
  | some token => exact ⟨rfl, rfl⟩

/-! ## The calls -/

/-- Where a call of `fs_lookup` is: at its start, at `iniciaLeitura` with the first token, at the
read of block `iblock` of a directory with `num` entries left, or at its end. The `i` of the source
counts the tokens. -/
inductive FaseLookup where
  | inicio
  | leitura (token : Option (List Byte))
  | bloco (i dir : ℕ) (token : List Byte) (num iblock : ℕ) (fileid : Option ℕ)
  | fim (status : ℤ) (fileid : Option ℕ)
deriving DecidableEq

/-- The calls, who is in the monitor of the readers, and the cursor of `strtok`: the call in whose
`line` it stands, and the string from there on. -/
structure Procuras (ι : Type*) where
  dono : Option ι
  resto : List Byte
  leitor : Option ι
  fase : ι → FaseLookup

/-- The loop of `fs_lookup` from its test to the first block of the directory. -/
def entrar (fs : Fs) (i dir : ℕ) (fileid : Option ℕ) : Option (List Byte) → FaseLookup
  | none => .fim 1 fileid
  | some token =>
      let i := i + 1
      let dir := if i = 1 then 1 else dir
      if !bmapIsSet fs.inodeBmap dir then .fim (-1) fileid
      else if (fs.inodeTab dir).type ≠ .fsDir then .fim (-1) fileid
      else if (fs.inodeTab dir).size / 16 = 0 then .fim 0 fileid
      else .bloco i dir token ((fs.inodeTab dir).size / 16) 0 fileid

namespace Procuras

variable {ι : Type*} [DecidableEq ι]

/-- No call has started. -/
def inicial (resto : List Byte) : Procuras ι := ⟨none, resto, none, fun _ => .inicio⟩

/-- The call `c` in the monitor goes on to `fase`. At its end it leaves the monitor, and its `line`
holds what comes to lie there (`lixo`). -/
def avancar (lixo : List Byte) (s : Procuras ι) (c : ι) (fase : FaseLookup) : Procuras ι :=
  match fase with
  | .fim status fileid =>
      { s with
        leitor := none
        resto := if s.dono = some c then lixo else s.resto
        fase := Function.update s.fase c (.fim status fileid) }
  | fase => { s with leitor := some c, fase := Function.update s.fase c fase }

/-- The call `c` runs to its next switch. -/
def passo (fs : Fs) (lixo : List Byte) (caminhos : ι → CString) (s : Procuras ι) (c : ι) :
    Option (Procuras ι × Unit) :=
  match s.fase c with
  | .inicio =>
      if (caminhos c).val.head? ≠ some barra then
        some ({ s with fase := Function.update s.fase c (.fim (-1) none) }, ())
      else if maxPathNameSize ≤ (caminhos c).val.length then none
      else
        let r := strtokUm (caminhos c).val
        some ({ s with
          dono := some c
          resto := r.2
          fase := Function.update s.fase c (.leitura r.1) }, ())
  | .leitura token =>
      if s.leitor.isSome then none
      else some (s.avancar lixo c (entrar fs 0 0 none token), ())
  | .bloco i dir token num iblock fileid =>
      match procurarNaPagina (fs.readDisk ((fs.inodeTab dir).blocks iblock)) token 0
          (min num dirPageEntries) with
      | some fid =>
          let r := strtokUm s.resto
          some ({ s with resto := r.2 }.avancar lixo c (entrar fs i fid (some fid) r.1), ())
      | none =>
          if num - dirPageEntries = 0 then some (s.avancar lixo c (.fim 0 fileid), ())
          else some (s.avancar lixo c
            (.bloco i dir token (num - dirPageEntries) (iblock + 1) fileid), ())
  | .fim _ _ => none

/-- Where the call moves the cursor on, it finds it in its own path, or both that path and the
string under the cursor have no name left. -/
def CursorSeu (fs : Fs) (caminhos : ι → CString) (s : Procuras ι) (c : ι) : Prop :=
  match s.fase c with
  | .bloco i dir token num iblock _ => ∀ fid,
      procurarNaPagina (fs.readDisk ((fs.inodeTab dir).blocks iblock)) token 0
        (min num dirPageEntries) = some fid →
      s.dono = some c ∨ strtok s.resto = [] ∧ (strtok (caminhos c).val).length ≤ i
  | _ => True

instance (fs : Fs) (caminhos : ι → CString) (s : Procuras ι) (c : ι) :
    Decidable (s.CursorSeu fs caminhos c) := by
  unfold CursorSeu
  cases s.fase c with
  | bloco i dir token num iblock fileid =>
      exact inferInstanceAs (Decidable (∀ fid ∈ procurarNaPagina
        (fs.readDisk ((fs.inodeTab dir).blocks iblock)) token 0 (min num dirPageEntries), _))
  | _ => infer_instance

end Procuras

/-! ## What a call still has to do -/

namespace FaseLookup

/-- The call ends as `fs_lookup` does alone, if the tokens that it gets are those of its path. -/
def Certa (fs : Fs) (file : CString) : FaseLookup → Prop
  | inicio => True
  | leitura token => file.val.head? = some barra ∧ file.val.length < maxPathNameSize ∧
      token = (strtok file.val).head?
  | bloco i dir token num iblock fileid => i ≠ 0 ∧ fs.DirUsado dir ∧ num ≠ 0 ∧
      ((fsiDirSearchLoop fs dir token num iblock).bind fun (fs, found) =>
        match found with
        | none => some (fs, 0, fileid)
        | some fid => fsLookupLoop fs fid (some fid) ((strtok file.val).drop i)) =
      fsLookup fs file
  | fim status fileid => fsLookup fs file = some (fs, status, fileid)

/-- The names under the cursor are those that the call has not taken yet. -/
def Resta (file : CString) (resto : List Byte) : FaseLookup → Prop
  | leitura _ => strtok resto = (strtok file.val).drop 1
  | bloco i _ _ _ _ _ => strtok resto = (strtok file.val).drop i
  | _ => True

theorem Resta.congr {file : CString} {resto resto' : List Byte} {fase : FaseLookup}
    (h : fase.Resta file resto) (hr : strtok resto' = strtok resto) : fase.Resta file resto' := by
  cases fase with
  | leitura token => exact hr.trans h
  | bloco i dir token num iblock fileid => exact hr.trans h
  | inicio => trivial
  | fim status fileid => trivial

end FaseLookup

section Entrar

variable {fs : Fs} {file : CString} {i dir : ℕ} {fileid : Option ℕ}

theorem entrar_certa {token : Option (List Byte)}
    (ht : token = ((strtok file.val).drop i).head?)
    (hl : fsLookupLoop fs (if i = 0 then 1 else dir) fileid ((strtok file.val).drop i) =
      fsLookup fs file) : (entrar fs i dir fileid token).Certa fs file := by
  cases hd : (strtok file.val).drop i with
  | nil =>
      rw [hd] at ht hl
      rw [ht]
      exact hl.symm
  | cons t ts =>
      have hts : (strtok file.val).drop (i + 1) = ts := by
        rw [← List.drop_drop, hd]
        rfl
      rw [hd] at ht hl
      rw [ht, List.head?_cons, entrar]
      have hdir : (if i + 1 = 1 then 1 else dir) = if i = 0 then 1 else dir :=
        if_congr Nat.succ_inj rfl rfl
      simp only [hdir]
      generalize (if i = 0 then 1 else dir) = d at hl
      rw [fsLookupLoop] at hl
      split
      · rename_i hset
        rw [if_pos hset] at hl
        exact hl.symm
      rename_i hset
      rw [if_neg hset] at hl
      split
      · rename_i htype
        rw [if_pos htype] at hl
        exact hl.symm
      rename_i htype
      rw [if_neg htype] at hl
      split
      · rename_i hsize
        rw [fsiDirSearch, hsize, fsiDirSearchLoop, if_pos rfl, Option.bind_some] at hl
        exact hl.symm
      · rename_i hsize
        refine ⟨Nat.succ_ne_zero i, ⟨by simpa [Fs.alocado] using hset, not_not.mp htype⟩, hsize, ?_⟩
        rw [hts]
        exact hl

theorem entrar_resta {token : Option (List Byte)} {resto : List Byte}
    (h : strtok resto = (strtok file.val).drop (i + 1)) :
    (entrar fs i dir fileid token).Resta file resto := by
  unfold entrar
  split
  · trivial
  · dsimp only
    split_ifs
    all_goals first | exact trivial | exact h

end Entrar

namespace Procuras

variable {ι : Type*} [DecidableEq ι] {fs : Fs} {lixo : List Byte} {caminhos : ι → CString}
  {s s' : Procuras ι} {c : ι}

/-- Every call is on the way to what it answers alone. -/
structure Certo (fs : Fs) (caminhos : ι → CString) (s : Procuras ι) : Prop where
  fases : ∀ c, (s.fase c).Certa fs (caminhos c)
  cursor : ∀ c, s.dono = some c → (s.fase c).Resta (caminhos c) s.resto

omit [DecidableEq ι] in
theorem inicial_certo (resto : List Byte) : (inicial resto).Certo fs caminhos :=
  ⟨fun _ => trivial, fun _ hd => nomatch hd⟩

/-- One call moves, and the cursor stays good for the others. -/
theorem Certo.mudar {fase : FaseLookup} (h : s.Certo fs caminhos)
    (hfase : s'.fase = Function.update s.fase c fase) (hcerta : fase.Certa fs (caminhos c))
    (hresta : s'.dono = some c → fase.Resta (caminhos c) s'.resto)
    (hr : ∀ d, d ≠ c → s'.dono = some d → (s.fase d).Resta (caminhos d) s'.resto) :
    s'.Certo fs caminhos := by
  refine ⟨fun d => ?_, fun d hdono => ?_⟩
  · rw [hfase]
    by_cases hd : d = c
    · subst hd
      rw [Function.update_self]
      exact hcerta
    · rw [Function.update_of_ne hd]
      exact h.fases d
  · rw [hfase]
    by_cases hd : d = c
    · subst hd
      rw [Function.update_self]
      exact hresta hdono
    · rw [Function.update_of_ne hd]
      exact hr d hd hdono

theorem Certo.avancar {fase : FaseLookup} (h : s.Certo fs caminhos) {resto : List Byte}
    (hcerta : fase.Certa fs (caminhos c))
    (hresta : s.dono = some c → fase.Resta (caminhos c) resto)
    (hr : ∀ d, d ≠ c → s.dono = some d → strtok resto = strtok s.resto) :
    ({ s with resto := resto }.avancar lixo c fase).Certo fs caminhos := by
  have houtra : ∀ d, d ≠ c → s.dono = some d → (s.fase d).Resta (caminhos d) resto :=
    fun d hd hdono => (h.cursor d hdono).congr (hr d hd hdono)
  cases fase with
  | fim status fileid =>
      refine h.mudar rfl hcerta (fun _ => trivial) fun d hd hdono => ?_
      have hdono : s.dono = some d := hdono
      have hne : s.dono ≠ some c := fun h => hd (Option.some.inj (hdono.symm.trans h))
      simp only [Procuras.avancar, hne, if_false]
      exact houtra d hd hdono
  | inicio => exact h.mudar rfl hcerta hresta houtra
  | leitura token => exact h.mudar rfl hcerta hresta houtra
  | bloco i dir token num iblock fileid => exact h.mudar rfl hcerta hresta houtra

/-- A step of a call that finds the cursor where it belongs. -/
theorem Certo.passo {u : Unit} (h : s.Certo fs caminhos) (hc : s.CursorSeu fs caminhos c)
    (hs : s.passo fs lixo caminhos c = some (s', u)) : s'.Certo fs caminhos := by
  have hcerta := h.fases c
  rw [Procuras.passo] at hs
  split at hs
  · split at hs
    · rename_i hhead
      obtain ⟨rfl, -⟩ := Prod.mk.inj (Option.some.inj hs)
      refine h.mudar rfl ?_ (fun _ => trivial) fun d _ hdono => h.cursor d hdono
      rw [FaseLookup.Certa, fsLookup, if_pos hhead]
    rename_i hhead
    split at hs
    · cases hs
    rename_i hlen
    obtain ⟨rfl, -⟩ := Prod.mk.inj (Option.some.inj hs)
    obtain ⟨htoken, hresto⟩ := strtok_strtokUm (caminhos c).val
    refine h.mudar rfl ⟨not_not.mp hhead, Nat.not_le.mp hlen, htoken⟩ (fun _ => hresto)
      fun d hd hdono => ?_
    exact absurd (Option.some.inj hdono).symm hd
  · rename_i token hfase
    split at hs
    · cases hs
    obtain ⟨rfl, -⟩ := Prod.mk.inj (Option.some.inj hs)
    rw [hfase] at hcerta
    obtain ⟨hhead, hlen, htoken⟩ := hcerta
    refine h.avancar (entrar_certa htoken ?_) (fun hdono => entrar_resta ?_) fun _ _ _ => rfl
    · rw [if_pos rfl, fsLookup, if_neg (not_not.mpr hhead), if_neg (Nat.not_le.mpr hlen)]
      rfl
    · have := h.cursor c hdono
      rw [hfase] at this
      exact this
  · rename_i i dir token num iblock fileid hfase
    rw [hfase] at hcerta
    obtain ⟨hi, hdir, hnum, hloop⟩ := hcerta
    have ht : (fs.inodeTab dir).type = .fsDir := hdir.2
    rw [fsiDirSearchLoop, if_neg hnum, ht] at hloop
    simp only [Fs.lerBloco, reduceCtorEq, if_false, Option.bind_some] at hloop
    split at hs
    · -- the name is found, and the cursor moves on
      rename_i fid hfound
      obtain ⟨rfl, -⟩ := Prod.mk.inj (Option.some.inj hs)
      rw [hfound, Option.bind_some] at hloop
      rw [CursorSeu, hfase] at hc
      have hresto : strtok s.resto = (strtok (caminhos c).val).drop i := by
        rcases hc fid hfound with hdono | ⟨hnil, hlen⟩
        · have := h.cursor c hdono
          rw [hfase] at this
          exact this
        · rw [hnil, List.drop_eq_nil_of_le hlen]
      obtain ⟨htoken, hnovo⟩ := strtok_strtokUm s.resto
      rw [hresto] at htoken hnovo
      refine h.avancar (entrar_certa htoken ?_) (fun _ => entrar_resta ?_) fun d hd hdono => ?_
      · rw [if_neg hi]
        exact hloop
      · rw [hnovo, List.drop_drop]
      · rcases hc fid hfound with hdono' | ⟨hnil, -⟩
        · exact absurd (Option.some.inj (hdono.symm.trans hdono')) hd
        · rw [hnovo, ← hresto, hnil]
          rfl
    · rename_i hfound
      rw [hfound] at hloop
      simp only at hloop
      split at hs
      · rename_i hfim
        obtain ⟨rfl, -⟩ := Prod.mk.inj (Option.some.inj hs)
        rw [hfim, fsiDirSearchLoop, if_pos rfl, Option.bind_some] at hloop
        exact h.avancar hloop.symm (fun _ => trivial) fun _ _ _ => rfl
      · rename_i hmais
        obtain ⟨rfl, -⟩ := Prod.mk.inj (Option.some.inj hs)
        refine h.avancar ⟨hi, hdir, hmais, hloop⟩ (fun hdono => ?_) fun _ _ _ => rfl
        have := h.cursor c hdono
        rw [hfase] at this
        exact this
  · cases hs

end Procuras

/-! ## Two calls in the root -/

section Exemplo

/-- The paths `/a/b` and `/a`. -/
def caminhosAB : Bool → CString
  | true => ⟨[47, 97, 47, 98], by decide⟩
  | false => ⟨[47, 97], by decide⟩

variable {fs : Fs}

/-- The first block of the root has the entry of `a`. -/
theorem DoisFicheiros.pagina (hd : DoisFicheiros fs) :
    procurarNaPagina (fs.readDisk ((fs.inodeTab 1).blocks 0)) [97] 0 (min 2 dirPageEntries) =
      some 2 := by
  have hsize : (fs.inodeTab 1).size = 32 := hd.raiz.2
  have ht : (fs.inodeTab 1).type = .fsDir := hd.raiz.1
  have hsearch : fsiDirSearch fs 1 nomeA.val = some (fs, some 2) := by
    rw [hd.exacto.consistent.fsiDirSearch_eq hd.raiz.1 nomeA.property, Fs.procura, hd.entradas]
    rfl
  rw [fsiDirSearch, hsize, fsiDirSearchLoop, if_neg (by decide), ht] at hsearch
  simp only [Fs.lerBloco, reduceCtorEq, if_false, Option.bind_some] at hsearch
  split at hsearch
  · rename_i fid hfound
    obtain rfl := Option.some.inj (Prod.mk.inj (Option.some.inj hsearch)).2
    exact hfound
  · rw [fsiDirSearchLoop, if_pos (by decide)] at hsearch
    cases hsearch

theorem DoisFicheiros.entrar_raiz (hd : DoisFicheiros fs) :
    entrar fs 0 0 none (some [97]) = .bloco 1 1 [97] 2 0 none := by
  have hset : bmapIsSet fs.inodeBmap 1 = true := hd.exacto.consistent.inodes.root.1
  have ht : (fs.inodeTab 1).type = .fsDir := hd.raiz.1
  have hsize : (fs.inodeTab 1).size = 32 := hd.raiz.2
  simp [entrar, hset, ht, hsize]

theorem DoisFicheiros.procura_ab (hd : DoisFicheiros fs) (lixo : List Byte) :
    ∃ s us, Runs.run (Procuras.passo fs lixo caminhosAB) (Procuras.inicial [])
        [true, true, false, true] = some (s, us) ∧ s.fase true = .fim 1 (some 2) := by
  let s₁ : Procuras Bool :=
    ⟨some true, [98], none, Function.update (fun _ => .inicio) true (.leitura (some [97]))⟩
  let s₂ : Procuras Bool := s₁.avancar lixo true (.bloco 1 1 [97] 2 0 none)
  let s₃ : Procuras Bool :=
    ⟨some false, [], some true, Function.update s₂.fase false (.leitura (some [97]))⟩
  have h₁ : Procuras.passo fs lixo caminhosAB (Procuras.inicial []) true = some (s₁, ()) := by
    have hab : strtokUm (caminhosAB true).val = (some [97], [98]) := by decide
    rw [Procuras.passo]
    simp only [Procuras.inicial]
    rw [if_neg (by decide), if_neg (by decide), hab]
  have h₂ : Procuras.passo fs lixo caminhosAB s₁ true = some (s₂, ()) := by
    have hf : s₁.fase true = .leitura (some [97]) := rfl
    rw [Procuras.passo, hf]
    simp only [hd.entrar_raiz]
    rfl
  have h₃ : Procuras.passo fs lixo caminhosAB s₂ false = some (s₃, ()) := by
    have hf : s₂.fase false = .inicio := rfl
    have ha : strtokUm (caminhosAB false).val = (some [97], []) := by decide
    rw [Procuras.passo, hf]
    simp only
    rw [if_neg (by decide), if_neg (by decide), ha]
    rfl
  have h₄ : Procuras.passo fs lixo caminhosAB s₃ true =
      some (s₃.avancar lixo true (.fim 1 (some 2)), ()) := by
    have hf : s₃.fase true = .bloco 1 1 [97] 2 0 none := rfl
    rw [Procuras.passo, hf]
    simp only [hd.pagina]
    rfl
  refine ⟨s₃.avancar lixo true (.fim 1 (some 2)), [(), (), (), ()], ?_, rfl⟩
  simp only [Runs.run, h₁, h₂, h₃, h₄, Option.bind_some, Option.map_some]

theorem DoisFicheiros.fsLookup_ab (hd : DoisFicheiros fs) :
    fsLookup fs (caminhosAB true) = some (fs, -1, some 2) := by
  have hset : bmapIsSet fs.inodeBmap 1 = true := hd.exacto.consistent.inodes.root.1
  have ht : (fs.inodeTab 1).type = .fsDir := hd.raiz.1
  have hfile : (fs.inodeTab 2).type = .fsFile := hd.ficheiro.1
  have hset₂ : bmapIsSet fs.inodeBmap 2 = true :=
    hd.exacto.consistent.alocado_of_type (by rw [hd.ficheiro.1]; decide : fs.typeAt 2 ≠ _)
  have hsearch : fsiDirSearch fs 1 [97] = some (fs, some 2) := by
    have := hd.exacto.consistent.fsiDirSearch_eq hd.raiz.1 nomeA.property
    rw [Fs.procura, hd.entradas] at this
    exact this
  have htokens : strtok (caminhosAB true).val = [[97], [98]] := by decide
  rw [fsLookup, if_neg (by decide), if_neg (by decide), htokens]
  simp only [fsLookupLoop, hset, ht, hsearch, hset₂, hfile, Bool.not_true, Bool.false_eq_true,
    if_false, ne_eq, not_true_eq_false, reduceCtorEq, not_false_eq_true, if_true,
    Option.bind_some]

/-- The second call cuts its path while the first one reads the root, and the first one finds `a`
for `/a/b`; alone it answers -1. -/
theorem procura_com_cursor_alheio :
    ∃ fs rs s us, Runs.run FsOp.exec (fsFormat (fsNew Fs.discoServidor fun _ => 7))
        [.create 1 nomeA, .create 1 nomeB] = some (fs, rs) ∧
      Runs.run (Procuras.passo fs [] caminhosAB) (Procuras.inicial [])
        [true, true, false, true] = some (s, us) ∧ s.fase true = .fim 1 (some 2) ∧
      fsLookup fs (caminhosAB true) = some (fs, -1, some 2) := by
  obtain ⟨fs, hrun, hd⟩ := dois_ficheiros fun _ => 7
  obtain ⟨s, us, hs, hfim⟩ := hd.procura_ab []
  exact ⟨fs, _, s, us, hrun, hs, hfim, hd.fsLookup_ab⟩

end Exemplo

/-! ## All calls -/

/-- A call whose cursor was never taken from it answers what `fs_lookup` answers alone. -/
theorem procuras_independentes {ι : Type*} [DecidableEq ι] (fs : Fs) (lixo : List Byte)
    (caminhos : ι → CString) {resto : List Byte} {cs : List ι} {s : Procuras ι} {us : List Unit}
    {c : ι} {status : ℤ} {fileid : Option ℕ}
    (hp : Runs.Permitted (Procuras.passo fs lixo caminhos) (Procuras.CursorSeu fs caminhos)
      (Procuras.inicial resto) cs)
    (h : Runs.run (Procuras.passo fs lixo caminhos) (Procuras.inicial resto) cs = some (s, us))
    (hc : s.fase c = .fim status fileid) :
    fsLookup fs (caminhos c) = some (fs, status, fileid) := by
  have hcerto : s.Certo fs caminhos :=
    Runs.run_invariant (I := fun s => s.Certo fs caminhos)
      (fun _ _ _ _ hI hP hs => hI.passo hP hs) (Procuras.inicial_certo resto) hp h
  have := hcerto.fases c
  rw [hc] at this
  exact this

/-- The paths `/a/b` and `/c`. -/
def caminhosABC : Bool → CString
  | true => ⟨[47, 97, 47, 98], by decide⟩
  | false => ⟨[47, 99], by decide⟩

set_option maxRecDepth 100000 in
/-- The call for `/c` cuts its path first and reads the root last, when the call for `/a/b` has
walked both its names: each finds its file. -/
theorem procuras_independentes_exemplo :
    ∃ fs rs s us, Runs.run FsOp.exec (fsFormat (fsNew Fs.discoServidor fun _ => 7))
        [.mkdir 1 nomeA, .create 2 nomeB, .create 1 nomeC] = some (fs, rs) ∧
      Runs.run (Procuras.passo fs [] caminhosABC) (Procuras.inicial [])
        [false, true, true, true, true, false, false] = some (s, us) ∧
      fsLookup fs (caminhosABC true) = some (fs, 1, some 3) ∧
      fsLookup fs (caminhosABC false) = some (fs, 1, some 4) := by
  obtain ⟨fs, rs, hrun, hp, hprocura⟩ : ∃ fs rs,
      Runs.run FsOp.exec (fsFormat (fsNew Fs.discoServidor fun _ => 7))
        [.mkdir 1 nomeA, .create 2 nomeB, .create 1 nomeC] = some (fs, rs) ∧
      Runs.Permitted (Procuras.passo fs [] caminhosABC) (Procuras.CursorSeu fs caminhosABC)
        (Procuras.inicial []) [false, true, true, true, true, false, false] ∧
      (Runs.run (Procuras.passo fs [] caminhosABC) (Procuras.inicial [])
        [false, true, true, true, true, false, false]).any (fun r => decide
          (r.1.fase true = .fim 1 (some 3) ∧ r.1.fase false = .fim 1 (some 4))) = true := by
    rw [Fs.fsFormat_eq_formatado]
    exact Runs.exists_run_of_any (by decide +kernel)
  obtain ⟨s, us, hs, htrue, hfalse⟩ := Runs.exists_run_of_any
    (Q := fun s : Procuras Bool => s.fase true = .fim 1 (some 3) ∧ s.fase false = .fim 1 (some 4))
    hprocura
  exact ⟨fs, rs, s, us, hrun, hs, procuras_independentes fs [] caminhosABC hp hs htrue,
    procuras_independentes fs [] caminhosABC hp hs hfalse⟩

end ThreadScheduler.SnfsServer
