import ThreadScheduler.Lib.CBuffers
import ThreadScheduler.SnfsLib.Paths

/-!
# Splitting a path

Every operation on a path cuts it into the directory and the name in it, with a loop written out
each time: the last token ends in `newfilename`, and its length says where the directory ends.
`my_append` copies the tokens without their terminator.
-/
namespace ThreadScheduler.SnfsLib
open SnfsServer CBuffers

/-- The buffers after the loop, and the count of the tokens. -/
structure Corte where
  i : ℕ
  newfilename : List Byte
  newdirname : List Byte

/-- The loop: each token is copied over the one before. -/
def tokens (copiar : List Byte → List Byte → Option (List Byte)) (i : ℕ)
    (newfilename : List Byte) : List (List Byte) → Option (ℕ × List Byte)
  | [] => some (i, newfilename)
  | token :: resto =>
      (copiar newfilename token).bind fun newfilename => tokens copiar (i + 1) newfilename resto

/-- The code from `memset` to the end of the `else`. -/
def cortar (copiar : List Byte → List Byte → Option (List Byte))
    (terminar : List Byte → Option (List Byte)) (name : CString) : Option Corte := do
  let newfilename := List.replicate maxFileNameSize 0#8
  let newdirname := List.replicate maxPathNameSize 0#8
  let fulldirname ← strcpy 0#8 (List.replicate maxPathNameSize 0#8) name.val
  let caminho ← contents 0#8 fulldirname
  let (i, newfilename) ← tokens copiar 0 newfilename (strtok caminho)
  if 1 < i then
    let nome ← contents 0#8 newfilename
    let newdirname ← strncpy 0#8 newdirname name.val (sizeSub name.val.length (nome.length + 1))
    let newdirname ← terminar newdirname
    some ⟨i, newfilename, newdirname⟩
  else
    let newfilename ← strncpy 0#8 newfilename name.val.tail (sizeSub name.val.length 1)
    let newfilename ← terminar newfilename
    let newdirname ← strcpy 0#8 newdirname name.val
    some ⟨i, newfilename, newdirname⟩

/-- The directory of an operation: handle 1, or the one that `snfs_lookup` finds. -/
inductive Pai where
  | raiz
  | procurado (newdirname : List Byte)
  deriving DecidableEq

/-- The directory and the name that an operation goes on with. -/
def Corte.par (c : Corte) : Option (Pai × List Byte) := do
  let nome ← contents 0#8 c.newfilename
  if c.i = 1 then some (.raiz, nome)
  else
    let dirname ← contents 0#8 c.newdirname
    some (.procurado dirname, nome)

/-- `strcpy(newfilename,token)`. -/
def copiarToken (newfilename token : List Byte) : Option (List Byte) :=
  strcpy 0#8 newfilename token

/-- `strncpy(filename,token,strlen(token))`. -/
def copiarSemFim (filename token : List Byte) : Option (List Byte) :=
  strncpy 0#8 filename token token.length

def myOpenCorte (name : CString) : Option Corte := cortar copiarToken (terminate 0#8) name

def myMkdirCorte (dirname : CString) : Option Corte := cortar copiarToken (terminate 0#8) dirname

def myRemoveCorte (name : CString) : Option Corte := cortar copiarToken (terminate 0#8) name

def myCopyOrigemCorte (nameOrigem : CString) : Option Corte :=
  cortar copiarToken (terminate 0#8) nameOrigem

def myCopyDestinoCorte (nameDestino : CString) : Option Corte :=
  cortar copiarToken (terminate 0#8) nameDestino

def myAppendOrigemCorte (nameOrigem : CString) : Option Corte :=
  cortar copiarSemFim some nameOrigem

def myAppendDestinoCorte (nameDestino : CString) : Option Corte :=
  cortar copiarSemFim some nameDestino

/-- The paths that are split, by operation. -/
inductive Operacao where
  | open
  | mkdir
  | remove
  | copyOrigem
  | copyDestino
  | appendOrigem
  | appendDestino
  deriving DecidableEq

def Operacao.corte : Operacao → CString → Option Corte
  | .open => myOpenCorte
  | .mkdir => myMkdirCorte
  | .remove => myRemoveCorte
  | .copyOrigem => myCopyOrigemCorte
  | .copyDestino => myCopyDestinoCorte
  | .appendOrigem => myAppendOrigemCorte
  | .appendDestino => myAppendDestinoCorte

/-- What an operation takes the path for. -/
def Operacao.par (op : Operacao) (name : CString) : Option (Pai × List Byte) :=
  (op.corte name).bind Corte.par

/-- The path, as a string. -/
def trajeto (cs : List Componente) : CString :=
  ⟨caminhoDe cs, zero_notMem_caminho (cs.map Subtype.val)⟩

/-- The directory and the name of `/c1/../ck`. -/
def parDe (cs : List Componente) (hne : cs ≠ []) : Pai × List Byte :=
  (if cs.dropLast = [] then .raiz else .procurado (caminhoDe cs.dropLast),
    (cs.getLast hne).val.val)

/-! ## The loop -/

theorem tokens_copiarToken {toks : List (List Byte)} {i : ℕ} {buf s : List Byte}
    (hbuf : Holds 0#8 buf s) (hzero : ∀ t ∈ toks, 0#8 ∉ t)
    (hlt : ∀ t ∈ toks, t.length < buf.length) :
    ∃ buf', tokens copiarToken i buf toks = some (i + toks.length, buf') ∧
      Holds 0#8 buf' (toks.getLastD s) := by
  induction toks generalizing i buf s with
  | nil => exact ⟨buf, rfl, hbuf⟩
  | cons t toks ih =>
      obtain ⟨buf₁, hcopia, hlen, hbuf₁⟩ :=
        strcpy_holds (hzero t List.mem_cons_self) (hlt t List.mem_cons_self)
      obtain ⟨buf', htok, hbuf'⟩ := ih (i := i + 1) hbuf₁
        (fun x hx => hzero x (List.mem_cons_of_mem t hx))
        (fun x hx => hlen ▸ hlt x (List.mem_cons_of_mem t hx))
      refine ⟨buf', ?_, ?_⟩
      · rw [tokens, copiarToken, hcopia, Option.bind_some, htok, List.length_cons, Nat.add_assoc,
          Nat.add_comm 1]
      · rwa [List.getLastD_cons]

/-- A token over a longer one leaves the end of the longer one. -/
def sobrepor (s t : List Byte) : List Byte := t ++ s.drop t.length

theorem length_sobrepor (s t : List Byte) : (sobrepor s t).length = max t.length s.length := by
  rw [sobrepor, List.length_append, List.length_drop]
  omega

theorem sobrepor_eq_self {s t : List Byte} : sobrepor s t = t ↔ s.length ≤ t.length := by
  rw [sobrepor, List.append_right_eq_self, List.drop_eq_nil_iff]

theorem length_foldl_sobrepor {toks : List (List Byte)} {s : List Byte} {n : ℕ} :
    (toks.foldl sobrepor s).length ≤ n ↔ s.length ≤ n ∧ ∀ t ∈ toks, t.length ≤ n := by
  induction toks generalizing s with
  | nil => simp
  | cons t toks ih =>
      rw [List.foldl_cons, ih, length_sobrepor, max_le_iff, List.forall_mem_cons]
      tauto

theorem zero_notMem_foldl_sobrepor {toks : List (List Byte)} {s : List Byte} (hs : 0#8 ∉ s)
    (h : ∀ t ∈ toks, 0#8 ∉ t) : 0#8 ∉ toks.foldl sobrepor s := by
  induction toks generalizing s with
  | nil => exact hs
  | cons t toks ih =>
      rw [List.foldl_cons]
      refine ih ?_ fun x hx => h x (List.mem_cons_of_mem t hx)
      rw [sobrepor, List.mem_append, not_or]
      exact ⟨h t List.mem_cons_self, fun hmem => hs (List.mem_of_mem_drop hmem)⟩

theorem tokens_copiarSemFim {toks : List (List Byte)} {i n : ℕ} {s : List Byte}
    (hs : s.length ≤ n) (h : ∀ t ∈ toks, t.length ≤ n) :
    tokens copiarSemFim i (filled 0#8 n s) toks =
      some (i + toks.length, filled 0#8 n (toks.foldl sobrepor s)) := by
  induction toks generalizing i s with
  | nil => rfl
  | cons t toks ih =>
      have ht := h t List.mem_cons_self
      have hsob : (sobrepor s t).length ≤ n := by
        rw [length_sobrepor]
        exact max_le ht hs
      rw [tokens, copiarSemFim, strncpy_filled hs ht, Option.bind_some]
      refine (ih hsob fun x hx => h x (List.mem_cons_of_mem t hx)).trans ?_
      rw [List.length_cons, Nat.add_assoc, Nat.add_comm 1]
      rfl

/-! ## After the loop -/

theorem strtok_trajeto (cs : List Componente) :
    strtok (trajeto cs).val = cs.map fun c => c.val.val := by
  have hvazio : ∀ nome ∈ cs.map Subtype.val, nome.val ≠ [] := by
    intro nome hnome
    obtain ⟨c, -, rfl⟩ := List.mem_map.mp hnome
    exact c.property.naoVazio
  refine (strtok_caminho (semBarra_componentes cs) hvazio).trans ?_
  rw [List.map_map]
  rfl

section Cortar

variable {copiar : List Byte → List Byte → Option (List Byte)}
  {terminar : List Byte → Option (List Byte)} {name : CString} {buf s : List Byte}

/-- Up to one name: all of the path but its slash is the name, and the path is the directory. -/
theorem cortar_poucos (terminar : List Byte → Option (List Byte))
    (hlen : name.val.length < maxPathNameSize)
    (htok : tokens copiar 0 (List.replicate maxFileNameSize 0#8) (strtok name.val) =
      some ((strtok name.val).length, buf)) (hi : ¬ 1 < (strtok name.val).length) :
    ∃ full, Holds 0#8 full name.val ∧ cortar copiar terminar name =
      (strncpy 0#8 buf name.val.tail (sizeSub name.val.length 1)).bind fun newfilename =>
        (terminar newfilename).bind fun newfilename =>
          some ⟨(strtok name.val).length, newfilename, full⟩ := by
  have hcabe : name.val.length < (List.replicate maxPathNameSize 0#8).length := by
    rwa [List.length_replicate]
  obtain ⟨full, hfull, -, hcheio⟩ := strcpy_holds name.property hcabe
  refine ⟨full, hcheio, ?_⟩
  rw [cortar, hfull]
  simp only [Option.bind_eq_bind, Option.bind_some, hcheio.contents_eq, htok, if_neg hi]

/-- The directory of two names or more: the path up to where its last name should start. -/
theorem cortar_varios (hlen : name.val.length < maxPathNameSize)
    (htok : tokens copiar 0 (List.replicate maxFileNameSize 0#8) (strtok name.val) =
      some ((strtok name.val).length, buf)) (hi : 1 < (strtok name.val).length)
    (hbuf : Holds 0#8 buf s) (hterm : ∀ buf s, Holds 0#8 buf s → terminar buf = some buf)
    (hs : s.length < name.val.length) :
    ∃ newdirname,
      Holds 0#8 newdirname (name.val.take (name.val.length - (s.length + 1))) ∧
      cortar copiar terminar name = some ⟨(strtok name.val).length, buf, newdirname⟩ := by
  have hzero := name.property
  have hblank : List.replicate maxPathNameSize 0#8 = filled 0#8 maxPathNameSize [] :=
    filled_nil.symm
  have hcabe : name.val.length < (List.replicate maxPathNameSize 0#8).length := by
    rwa [List.length_replicate]
  obtain ⟨full, hfull, -, hcheio⟩ := strcpy_holds hzero hcabe
  have hk : sizeSub name.val.length (s.length + 1) = name.val.length - (s.length + 1) :=
    sizeSub_eq hs (hlen.trans (by decide))
  have hdir : Holds 0#8
      (filled 0#8 maxPathNameSize (name.val.take (name.val.length - (s.length + 1))))
      (name.val.take (name.val.length - (s.length + 1))) := by
    refine holds_filled (fun h => hzero (List.mem_of_mem_take h)) ?_
    rw [List.length_take]
    omega
  refine ⟨_, hdir, ?_⟩
  rw [cortar, hfull]
  simp only [Option.bind_eq_bind, Option.bind_some, hcheio.contents_eq, htok, if_pos hi,
    hbuf.contents_eq]
  rw [hk, hblank, strncpy_blank (by omega) (by omega), Option.bind_some, hterm _ _ hdir,
    Option.bind_some]

end Cortar

/-- What an operation takes the path for, once the last name is in its buffer. -/
theorem cortar_par {copiar : List Byte → List Byte → Option (List Byte)}
    {terminar : List Byte → Option (List Byte)} {cs : List Componente}
    (hlen : (trajeto cs).val.length < maxPathNameSize) {buf s : List Byte}
    (htok : tokens copiar 0 (List.replicate maxFileNameSize 0#8) (cs.map fun c => c.val.val) =
      some (cs.length, buf))
    (hbuf : Holds 0#8 buf s) (hterm : ∀ buf s, Holds 0#8 buf s → terminar buf = some buf)
    (hs : s.length < (trajeto cs).val.length) (hum : ∀ c, cs = [c] → s = c.val.val) :
    (cortar copiar terminar (trajeto cs)).bind Corte.par =
      some (if cs.length = 1 then .raiz else .procurado
        ((trajeto cs).val.take ((trajeto cs).val.length - (s.length + 1))), s) := by
  have htoks := strtok_trajeto cs
  have hn : (strtok (trajeto cs).val).length = cs.length := by rw [htoks, List.length_map]
  have htok' : tokens copiar 0 (List.replicate maxFileNameSize 0#8) (strtok (trajeto cs).val) =
      some ((strtok (trajeto cs).val).length, buf) := by rw [hn, htoks, htok]
  by_cases hi : 1 < cs.length
  · obtain ⟨newdirname, hdir, hcorte⟩ :=
      cortar_varios hlen htok' (hn.symm ▸ hi) hbuf hterm hs
    rw [hcorte, Option.bind_some, Corte.par, hbuf.contents_eq, hn]
    simp only [Option.bind_eq_bind, Option.bind_some, hdir.contents_eq, (Nat.ne_of_lt hi).symm,
      if_false]
  · obtain ⟨full, -, hcorte⟩ := cortar_poucos terminar hlen htok' (hn.symm ▸ hi)
    cases cs with
    | nil => exact absurd hs (Nat.not_lt_zero _)
    | cons c cs =>
        obtain rfl : cs = [] := by
          rw [List.length_cons] at hi
          exact List.eq_nil_of_length_eq_zero (by omega)
        have htail : (trajeto [c]).val.tail = s := by
          rw [hum c rfl]
          exact List.append_nil _
        have hk : sizeSub (trajeto [c]).val.length 1 = s.length := by
          rw [sizeSub_eq (Nat.one_le_of_lt hs) (hlen.trans (by decide)), ← htail,
            List.length_tail]
        rw [hcorte, htail, hk, hbuf.strncpy_self, Option.bind_some, hterm buf s hbuf,
          Option.bind_some, Option.bind_some, Corte.par, hbuf.contents_eq, hn]
        rfl

theorem trajeto_concat (inicio : List Componente) (ultimo : Componente) :
    (trajeto (inicio ++ [ultimo])).val = (trajeto inicio).val ++ barra :: ultimo.val.val := by
  simp [trajeto, caminhoDe, caminho]

theorem length_lt_caminho {nomes : List CString} {nome : CString} (h : nome ∈ nomes) :
    nome.val.length < (caminho nomes).length := by
  obtain ⟨antes, depois, rfl⟩ := List.append_of_mem h
  simp only [caminho, List.flatMap_append, List.flatMap_cons, List.length_append,
    List.length_cons]
  omega

theorem length_lt_trajeto {cs : List Componente} {c : Componente} (hc : c ∈ cs) :
    c.val.val.length < (trajeto cs).val.length :=
  length_lt_caminho (List.mem_map_of_mem hc)

/-- With the last name in its buffer, the split is right. -/
theorem cortar_certo {copiar : List Byte → List Byte → Option (List Byte)}
    {terminar : List Byte → Option (List Byte)} {cs : List Componente} (hne : cs ≠ [])
    (hlen : (trajeto cs).val.length < maxPathNameSize) {buf : List Byte}
    (htok : tokens copiar 0 (List.replicate maxFileNameSize 0#8) (cs.map fun c => c.val.val) =
      some (cs.length, buf))
    (hbuf : Holds 0#8 buf (cs.getLast hne).val.val)
    (hterm : ∀ buf s, Holds 0#8 buf s → terminar buf = some buf) :
    (cortar copiar terminar (trajeto cs)).bind Corte.par = some (parDe cs hne) := by
  obtain ⟨inicio, ultimo, rfl⟩ := (List.eq_nil_or_concat' cs).resolve_left hne
  rw [List.getLast_concat] at hbuf
  rw [cortar_par hlen htok hbuf hterm (length_lt_trajeto (by simp)) ?_]
  · rw [parDe, List.getLast_concat, List.dropLast_concat, trajeto_concat]
    have hum : (inicio ++ [ultimo]).length = 1 ↔ inicio = [] := by simp
    have hk : ((trajeto inicio).val ++ barra :: ultimo.val.val).length -
        (ultimo.val.val.length + 1) = (trajeto inicio).val.length := by
      simp
    simp only [hum, hk, List.take_left]
    rfl
  · intro c hc
    obtain ⟨-, hultimo⟩ := List.append_inj' (show inicio ++ [ultimo] = [] ++ [c] from hc) rfl
    rw [List.cons.injEq] at hultimo
    rw [hultimo.1]

theorem zero_notMem_nomes (cs : List Componente) :
    ∀ t ∈ cs.map fun c => c.val.val, 0#8 ∉ t := by
  intro t ht
  obtain ⟨c, -, rfl⟩ := List.mem_map.mp ht
  exact c.val.property

/-- With `strcpy`, the buffer holds the last token. -/
theorem tokens_strtok {name : CString}
    (hcurto : ∀ t ∈ strtok name.val, t.length < maxFileNameSize) :
    ∃ buf, tokens copiarToken 0 (List.replicate maxFileNameSize 0#8) (strtok name.val) =
        some ((strtok name.val).length, buf) ∧
      Holds 0#8 buf ((strtok name.val).getLastD []) := by
  have hblank : Holds 0#8 (List.replicate maxFileNameSize 0#8) [] :=
    ⟨List.not_mem_nil, List.replicate (maxFileNameSize - 1) 0#8, rfl⟩
  obtain ⟨buf, htok, hbuf⟩ := tokens_copiarToken (i := 0) hblank
    (fun t ht => zero_notMem_strtok name ht) fun t ht => by
      rw [List.length_replicate]
      exact hcurto t ht
  rw [Nat.zero_add] at htok
  exact ⟨buf, htok, hbuf⟩

theorem strcpy_certo {cs : List Componente} (hne : cs ≠ [])
    (hlen : (trajeto cs).val.length < maxPathNameSize) :
    (cortar copiarToken (terminate 0#8) (trajeto cs)).bind Corte.par = some (parDe cs hne) := by
  have hcurto : ∀ t ∈ strtok (trajeto cs).val, t.length < maxFileNameSize := by
    rw [strtok_trajeto, List.forall_mem_map]
    exact fun c _ => c.property.curto
  obtain ⟨buf, htok, hbuf⟩ := tokens_strtok hcurto
  rw [strtok_trajeto, List.length_map] at htok
  refine cortar_certo hne hlen htok ?_ fun _ _ h => h.terminate_eq
  have hlast : (cs.map fun c => c.val.val).getLastD [] = (cs.getLast hne).val.val := by
    rw [List.getLastD_eq_getLast?, List.getLast?_map, List.getLast?_eq_some_getLast hne]
    rfl
  rwa [strtok_trajeto, hlast] at hbuf

/-- Without a terminator, the buffer holds the last token if no token before it was longer. -/
theorem semFim_certo_sse {cs : List Componente} (hne : cs ≠ [])
    (hlen : (trajeto cs).val.length < maxPathNameSize) :
    (cortar copiarSemFim some (trajeto cs)).bind Corte.par = some (parDe cs hne) ↔
      ∀ c ∈ cs.dropLast, c.val.val.length ≤ (cs.getLast hne).val.val.length := by
  have hcurto : ∀ t ∈ cs.map fun c => c.val.val, t.length ≤ maxFileNameSize - 1 := by
    intro t ht
    obtain ⟨c, -, rfl⟩ := List.mem_map.mp ht
    exact Nat.le_pred_of_lt c.property.curto
  have htok := tokens_copiarSemFim (i := 0) (s := []) (Nat.zero_le maxFileNameSize)
    fun t ht => (hcurto t ht).trans (Nat.sub_le _ _)
  rw [filled_nil, List.length_map, Nat.zero_add] at htok
  have hs : ((cs.map fun c => c.val.val).foldl sobrepor []).length ≤ maxFileNameSize - 1 :=
    length_foldl_sobrepor.mpr ⟨Nat.zero_le _, hcurto⟩
  have hbuf := holds_filled (n := maxFileNameSize)
    (zero_notMem_foldl_sobrepor List.not_mem_nil (zero_notMem_nomes cs))
    (Nat.lt_of_le_of_lt hs (by decide))
  obtain ⟨inicio, ultimo, rfl⟩ := (List.eq_nil_or_concat' cs).resolve_left hne
  -- only a longer token before the last one shows behind it
  have hfold : (((inicio ++ [ultimo]).map fun c => c.val.val).foldl sobrepor []) =
      sobrepor ((inicio.map fun c => c.val.val).foldl sobrepor []) ultimo.val.val := by
    rw [List.map_append, List.foldl_append]
    rfl
  have hcond : ((inicio ++ [ultimo]).map fun c => c.val.val).foldl sobrepor [] = ultimo.val.val ↔
      ∀ c ∈ inicio, c.val.val.length ≤ ultimo.val.val.length := by
    rw [hfold, sobrepor_eq_self, length_foldl_sobrepor, List.forall_mem_map]
    exact and_iff_right (Nat.zero_le _)
  have hlt : (((inicio ++ [ultimo]).map fun c => c.val.val).foldl sobrepor []).length <
      (trajeto (inicio ++ [ultimo])).val.length := by
    have hpos := length_lt_trajeto (show ultimo ∈ inicio ++ [ultimo] by simp)
    refine Nat.lt_of_le_pred (Nat.zero_lt_of_lt hpos) ?_
    rw [length_foldl_sobrepor, List.forall_mem_map]
    exact ⟨Nat.zero_le _, fun c hc => Nat.le_pred_of_lt (length_lt_trajeto hc)⟩
  have hum : ∀ c, inicio ++ [ultimo] = [c] →
      ((inicio ++ [ultimo]).map fun c => c.val.val).foldl sobrepor [] = c.val.val := by
    intro c hc
    rw [hc]
    exact sobrepor_eq_self.mpr (Nat.zero_le _)
  rw [List.getLast_concat, List.dropLast_concat, ← hcond]
  constructor
  · intro h
    rw [cortar_par hlen htok hbuf (fun _ _ _ => rfl) hlt hum, Option.some_inj, parDe,
      Prod.mk.injEq, List.getLast_concat] at h
    exact h.2
  · intro h
    rw [h] at htok hbuf
    exact cortar_certo hne hlen htok (by rwa [List.getLast_concat]) fun _ _ _ => rfl

/-! ## All operations -/

/-- All operations split a path into its directory and its last name just when no name is longer
than the last one. -/
theorem operacoes_mesmoPar (cs : List Componente) (hne : cs ≠ [])
    (hlen : (trajeto cs).val.length < maxPathNameSize) :
    (∀ op : Operacao, op.par (trajeto cs) = some (parDe cs hne)) ↔
      ∀ c ∈ cs.dropLast, c.val.val.length ≤ (cs.getLast hne).val.val.length := by
  have hcpy := strcpy_certo hne hlen
  rw [← semFim_certo_sse hne hlen]
  constructor
  · intro h
    exact h .appendOrigem
  · intro h op
    cases op with
    | «open» => exact hcpy
    | mkdir => exact hcpy
    | remove => exact hcpy
    | copyOrigem => exact hcpy
    | copyDestino => exact hcpy
    | appendOrigem => exact h
    | appendDestino => exact h

/-- The path "/a/b". -/
theorem operacoes_mesmoPar_ab :
    let a : Componente := ⟨⟨[97#8], by decide⟩, by decide, by decide, by decide, by decide⟩
    let b : Componente := ⟨⟨[98#8], by decide⟩, by decide, by decide, by decide, by decide⟩
    (trajeto [a, b]).val.length < maxPathNameSize ∧
      ((∀ op : Operacao, op.par (trajeto [a, b]) =
          some (parDe [a, b] (List.cons_ne_nil a [b]))) ↔
        ∀ c ∈ [a, b].dropLast,
          c.val.val.length ≤ ([a, b].getLast (List.cons_ne_nil a [b])).val.val.length) :=
  ⟨by decide, operacoes_mesmoPar _ (List.cons_ne_nil _ _) (by decide)⟩

/-- On "/ab/c", `my_open` goes on with "c" and `my_append` with "cb". -/
theorem operacoes_mesmoPar_abc :
    let ab : Componente :=
      ⟨⟨[97#8, 98#8], by decide⟩, by decide, by decide, by decide, by decide⟩
    let c : Componente := ⟨⟨[99#8], by decide⟩, by decide, by decide, by decide, by decide⟩
    (trajeto [ab, c]).val.length < maxPathNameSize ∧
      Operacao.par .open (trajeto [ab, c]) = some (.procurado [47#8, 97#8, 98#8], [99#8]) ∧
      Operacao.par .appendOrigem (trajeto [ab, c]) =
        some (.procurado [47#8, 97#8], [99#8, 98#8]) := by
  refine ⟨by decide, ?_, ?_⟩
  · decide +kernel
  · decide +kernel

end ThreadScheduler.SnfsLib
