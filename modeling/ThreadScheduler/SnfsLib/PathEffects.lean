import ThreadScheduler.SnfsLib.OpenSizes
import ThreadScheduler.SnfsLib.PathCalls
import ThreadScheduler.SnfsServer.NameTree

/-!
# Calls on paths and the files they name

A caller of the library knows paths and handles, and no i-nodes with their entries. What each call
on paths does is told here on what the paths lead to, and a call that fails says why.
-/
namespace ThreadScheduler.SnfsServer

namespace Vista

variable {m m' : Vista} {p : List (List Byte)}

/-- There is a directory at the path. -/
def Pasta (m : Vista) (p : List (List Byte)) : Prop := ∃ n, m.no p = some n ∧ m.conteudo n = none

/-- There is a file with this content at the path. -/
def Ficheiro (m : Vista) (p : List (List Byte)) (s : List Byte) : Prop :=
  ∃ n, m.no p = some n ∧ m.conteudo n = some s

/-- Something can be made at the path: it is free, its directory is there, and an i-node is left. -/
structure Livre (m : Vista) (p : List (List Byte)) : Prop where
  livre : m.no p = none
  pasta : m.Pasta p.dropLast
  inode : ∃ n, 2 ≤ n ∧ n < itabSize ∧ ∀ q, m.no q ≠ some n

/-- A directory, or a file with the content, is made at the path. -/
def Cria (m : Vista) (p : List (List Byte)) (n : ℕ) (s : Option (List Byte)) (m' : Vista) : Prop :=
  m.no p = none ∧ m.Pasta p.dropLast ∧ (∀ q, m.no q ≠ some n) ∧
    m' = ⟨Function.update m.no p (some n), Function.update m.conteudo n s⟩

/-- The file at the first path is copied to the second one, over a file or to a new one. -/
def Copia (m : Vista) (p q : List (List Byte)) (m' : Vista) : Prop :=
  ∃ s, m.Ficheiro p s ∧
    ((∃ n, m.no q = some n ∧ (m.conteudo n).isSome ∧
        m' = ⟨m.no, Function.update m.conteudo n (some s)⟩) ∨
      ∃ n, m.Cria q n (some s) m')

/-- What is at the path goes, and nothing is below it. -/
def Apaga (m : Vista) (p : List (List Byte)) (m' : Vista) : Prop :=
  ∃ n, m.no p = some n ∧ (∀ y, m.no (p ++ [y]) = none) ∧
    m' = ⟨Function.update m.no p none, Function.update m.conteudo n none⟩

/-- What was there before stays. -/
theorem Cria.mantem {n : ℕ} {s : Option (List Byte)} (h : m.Cria p n s m') {q : List (List Byte)}
    {x : ℕ} (hq : m.no q = some x) : m'.no q = some x ∧ m'.conteudo x = m.conteudo x := by
  obtain ⟨hlivre, -, hfresco, rfl⟩ := h
  have hqp : q ≠ p := by
    rintro rfl
    rw [hlivre] at hq
    cases hq
  have hxn : x ≠ n := by
    rintro rfl
    exact hfresco q hq
  exact ⟨(Function.update_of_ne hqp _ _).trans hq, Function.update_of_ne hxn _ _⟩

theorem Cria.novo {n : ℕ} {s : Option (List Byte)} (h : m.Cria p n s m') :
    m'.no p = some n ∧ m'.conteudo n = s := by
  obtain ⟨-, -, -, rfl⟩ := h
  exact ⟨Function.update_self _ _ _, Function.update_self _ _ _⟩

end Vista

namespace Fs

variable {fs : Fs} {d : ℕ} {p : List (List Byte)}

/-- A directory of the view is one of the file system. -/
theorem EmArvore.pasta_iff (h : fs.EmArvore) (hp : fs.no p = some d) :
    fs.vista.Pasta p ↔ fs.typeAt d = .fsDir := by
  rw [(h.typeAt_no hp).2]
  constructor
  · rintro ⟨n, hn, hm⟩
    obtain rfl := Option.some.inj (hp.symm.trans hn)
    exact hm
  · exact fun hm => ⟨d, hp, hm⟩

/-- The i-nodes are all in use, and each has a path. -/
theorem EmArvore.not_livre (h : fs.EmArvore) (hall : ∀ n < itabSize, fs.alocado n = true) :
    ¬ fs.vista.Livre p := by
  rintro ⟨-, -, n, hge, hlt, hno⟩
  obtain ⟨q, hq⟩ := h.alcancado n (by omega) (hall n hlt)
  exact hno q hq

/-- A call that creates a name makes what is asked for at its path, if anything can be made. -/
theorem EmArvore.fsCriar_vista (h : fs.EmArvore) (tipo : FsItype) (htipo : tipo ≠ .unset)
    (hp : fs.no p = some d) {nome : CString} (hnome : ¬ badName nome) :
    (∃ fs' n, fsCriar tipo fs d nome = some (fs', some n) ∧ fs'.EmArvore ∧
      fs.vista.Cria (p ++ [nome.val]) n (if tipo = .fsFile then some [] else none) fs'.vista) ∨
      fsCriar tipo fs d nome = some (fs, none) ∧ ¬ fs.vista.Livre (p ++ [nome.val]) := by
  rcases fsCriar_spec h.exacto.consistent tipo htipo d nome with ⟨hr, hrec⟩ | ⟨fs', n, hr, hc⟩
  · refine .inr ⟨hr, fun hl => ?_⟩
    have hpasta := hl.pasta
    rw [List.dropLast_concat, h.pasta_iff hp] at hpasta
    obtain hbad | hdir | hha | hall := hrec
    · exact hnome hbad
    · exact hdir hpasta
    · have hno : fs.no (p ++ [nome.val]) = none := hl.livre
      rw [no_concat hp, resolve_of_dir hpasta] at hno
      rw [hno] at hha
      cases hha
    · exact h.not_livre hall hl
  · obtain ⟨hno, hfresco, hvista⟩ := h.vista_criado hc hp
    refine .inl ⟨fs', n, hr, h.criado hc, hno, ?_, hfresco, hvista⟩
    rw [List.dropLast_concat]
    exact (h.pasta_iff hp).mpr hc.dir

/-- A copy between i-nodes that have their names, of which one at most is a directory. -/
theorem EmArvore.fsCopy_vista (h : fs.EmArvore) {d₁ d₂ de para : ℕ} {nome₁ nome₂ : CString}
    (hde : fs.resolve d₁ nome₁.val = some de) (hpara : fs.resolve d₂ nome₂.val = some para)
    (hpart : de = para → fs.typeAt de = .fsFile → fs.Partilha de de) :
    (∃ fs' s, fsCopy fs d₁ nome₁ d₂ nome₂ = some (fs', 0) ∧ fs'.EmArvore ∧
      fs.modelo de = some s ∧ (fs.modelo para).isSome ∧
      fs'.vista = ⟨fs.no, Function.update fs.modelo para (some s)⟩) ∨
      fsCopy fs d₁ nome₁ d₂ nome₂ = some (fs, -1) ∧
        (fs.modelo de = none ∨ fs.modelo para = none) := by
  have hcons := h.exacto.consistent
  have hpart' : ∀ n, fs.resolve d₁ nome₁.val = some n → fs.resolve d₂ nome₂.val = some n →
      fs.typeAt n = .fsFile → fs.Partilha n n := by
    intro n h₁ h₂ ht
    obtain rfl := Option.some.inj (hde.symm.trans h₁)
    exact hpart (Option.some.inj (h₂.symm.trans hpara)) ht
  rcases h.exacto.fsCopy_spec d₁ nome₁ d₂ nome₂ hpart' with
    hr | ⟨fs₁, fs', de', para', hr, hres, htde, hdest, hcop⟩
  · refine .inr ⟨hr, ?_⟩
    by_cases ht : fs.typeAt de = .fsFile
    · right
      refine modelo_of_not_file fun htp => ?_
      have hst : (fsCopyInodes fs de para).2 = 0 := by
        have htp' : (fs.inodeTab para).type = .fsFile := htp
        rw [fsCopyInodes, if_neg (not_not.mpr htp')]
      rw [fsCopy_of_resolve hcons hde ht hpara] at hr
      rw [Option.some.inj hr] at hst
      cases hst
    · exact .inl (modelo_of_not_file ht)
  · obtain rfl := Option.some.inj (hde.symm.trans hres)
    cases hdest with
    | criado hc =>
        obtain ⟨ht, -⟩ := resolve_eq_some hpara
        rw [resolve_of_dir ht, hc.nova] at hpara
        cases hpara
    | achado hr' he =>
        subst he
        obtain rfl := Option.some.inj (hpara.symm.trans hr')
        obtain ⟨hex, hm⟩ := h.exacto.copiado hcop
        obtain ⟨h', hno⟩ := h.mesmosNomes hex (hcop.mesmosNomes hcons)
        refine .inl ⟨fs', _, hr, h', modelo_of_file hcons htde, ?_, ?_⟩
        · rw [modelo_of_file hcons hcop.destino]
          rfl
        · rw [vista, hno, hm, modelo_of_file hcons htde]

end Fs

/-- A handle that is the number of an i-node. -/
theorem toInodeid_of_lt {n : ℕ} (h : n < itabSize) : toInodeid n = n := by
  unfold itabSize at h
  exact Nat.mod_eq_of_lt (by omega)

theorem terminar_of_curto {nome : CString} (h : nome.val.length < maxFileNameSize) :
    terminar nome = nome :=
  Subtype.ext (List.take_of_length_le (Nat.le_pred_of_lt h))

end ThreadScheduler.SnfsServer

namespace ThreadScheduler.SnfsLib
open SnfsServer CBuffers

/-- The names of a path. -/
def nomes (cs : List Componente) : List (List Byte) := cs.map fun c => c.val.val

theorem nomes_injective : Function.Injective nomes :=
  List.map_injective_iff.mpr (Subtype.val_injective.comp Subtype.val_injective)

theorem nomes_eq {cs : List Componente} (hne : cs ≠ []) :
    nomes cs = nomes cs.dropLast ++ [(cs.getLast hne).val.val] := by
  conv_lhs => rw [← List.dropLast_append_getLast hne]
  simp [nomes]

theorem not_badName (c : Componente) : ¬ badName c.val := by
  have hcurto := c.property.curto
  have hpos := List.length_pos_of_ne_nil c.property.naoVazio
  unfold maxFileNameSize at hcurto
  rintro (h | h)
  · omega
  · simp only [fsMaxFnameSz] at h
    omega

section Caminhos

variable {fs fs' : Fs} {cs cs' : List Componente}

/-! ## Lookups -/

/-- The lookup of a path finds what it leads to. -/
theorem snfsLookup_trajeto (h : fs.EmArvore) (hne : cs ≠ [])
    (hlen : (trajeto cs).val.length < maxPathNameSize) (lixo : ℕ) :
    snfsLookup fs (trajeto cs) lixo = some (fs, (fs.no (nomes cs)).getD 0,
      (fs.no (nomes cs)).map fs.sizeAt) := by
  have hcons := h.exacto.consistent
  have hvazio : ∀ nome ∈ cs.map Subtype.val, nome.val ≠ [] := by
    intro nome hnome
    obtain ⟨c, -, rfl⟩ := List.mem_map.mp hnome
    exact c.property.naoVazio
  obtain ⟨fileid, hr, hf⟩ := (h.ligado.responde hcons).caminhos (cs.map Subtype.val)
    (by simpa using hne) (semBarra_componentes cs) hvazio hlen
  have hnomes : (cs.map Subtype.val).map Subtype.val = nomes cs := by
    rw [List.map_map]
    rfl
  rw [hnomes] at hr hf
  have hr : fsLookup fs (trajeto cs) =
    some (fs, (fs.espaco.seguir 1 (nomes cs)).estado, fileid) := hr
  rw [snfsLookup, if_neg (Nat.not_le.mpr hlen), SnfsServer.snfsLookup, hr, Option.bind_some]
  dsimp only
  cases hno : fs.no (nomes cs) with
  | none =>
      rw [if_neg]
      · rfl
      · cases hs : fs.espaco.seguir 1 (nomes cs) with
        | chega n =>
            have hn : fs.no (nomes cs) = some n := (Fs.seguir_eq_chega_iff 1 _).mp hs
            rw [hno] at hn
            cases hn
        | falta => decide
        | ficheiro => decide
  | some n =>
      have hs : fs.espaco.seguir 1 (nomes cs) = .chega n := (Fs.seguir_eq_chega_iff 1 _).mpr hno
      obtain ⟨attrs, hattrs⟩ := hcons.fsGetAttrs_of_type (h.typeAt_no hno).1
      rw [hf n hs, hs, Alcance.estado, if_pos rfl, Option.getD_some, hattrs]
      exact congrArg (fun size => some (fs, n, some size)) (Fs.fsGetAttrs_size hattrs)

theorem length_trajeto_dropLast (hlen : (trajeto cs).val.length < maxPathNameSize) :
    (trajeto cs.dropLast).val.length < maxPathNameSize := by
  obtain rfl | ⟨inicio, ultimo, rfl⟩ := List.eq_nil_or_concat' cs
  · exact hlen
  · rw [trajeto_concat, List.length_append] at hlen
    rw [List.dropLast_concat]
    omega

/-- A path that is cut right gives its last name and the handle of its directory. -/
theorem dir_certo (h : fs.EmArvore) (hne : cs ≠ [])
    (hlen : (trajeto cs).val.length < maxPathNameSize) {corte : Option Corte}
    (hpar : corte.bind Corte.par = some (parDe cs hne)) :
    ∃ x, corte = some x ∧ cadeia x.newfilename = some (cs.getLast hne).val ∧
      (x.i = 1 ∧ cs.dropLast = [] ∨ x.i ≠ 1 ∧ cs.dropLast ≠ [] ∧
        cadeia x.newdirname = some (trajeto cs.dropLast)) ∧
      ∀ lixo, x.dir fs lixo = some (fs, fs.no (nomes cs.dropLast)) := by
  obtain ⟨x, rfl, hx⟩ := Option.bind_eq_some_iff.mp hpar
  obtain ⟨nome, hnome, hx⟩ := Option.bind_eq_some_iff.mp hx
  have hcadeia : ∀ {buf : List Byte} {s : CString}, contents 0#8 buf = some s.val →
      cadeia buf = some s := by
    intro buf s hs
    obtain ⟨y, hy, hval⟩ := Option.map_eq_some_iff.mp (cadeia_eq hs)
    rw [hy, Subtype.ext hval]
  have hpai : x.i = 1 ∧ cs.dropLast = [] ∨ x.i ≠ 1 ∧ cs.dropLast ≠ [] ∧
      cadeia x.newdirname = some (trajeto cs.dropLast) := by
    by_cases hi : x.i = 1
    · rw [if_pos hi] at hx
      refine .inl ⟨hi, ?_⟩
      by_contra hno
      have hpai := (Prod.mk.inj (Option.some.inj hx)).1
      rw [if_neg hno] at hpai
      cases hpai
    · rw [if_neg hi] at hx
      obtain ⟨dirname, hdir, hx⟩ := Option.bind_eq_some_iff.mp hx
      have hpai := (Prod.mk.inj (Option.some.inj hx)).1
      have hnil : cs.dropLast ≠ [] := by
        intro hno
        rw [if_pos hno] at hpai
        cases hpai
      rw [if_neg hnil] at hpai
      obtain rfl := Pai.procurado.inj hpai
      exact .inr ⟨hi, hnil, hcadeia hdir⟩
  refine ⟨x, rfl, ?_, hpai, fun lixo => ?_⟩
  · refine hcadeia (hnome.trans ?_)
    split at hx
    · exact congrArg some (Prod.mk.inj (Option.some.inj hx)).2
    · obtain ⟨dirname, -, hx⟩ := Option.bind_eq_some_iff.mp hx
      exact congrArg some (Prod.mk.inj (Option.some.inj hx)).2
  · rw [Corte.dir]
    obtain ⟨hi, hnil⟩ | ⟨hi, hnil, hnew⟩ := hpai
    · rw [if_pos hi, hnil]
      rfl
    · rw [if_neg hi, hnew, Option.bind_some,
        snfsLookup_trajeto h hnil (length_trajeto_dropLast hlen)]
      cases fs.no (nomes cs.dropLast) <;> rfl

theorem myparse_trajeto (hne : cs ≠ []) (hlen : (trajeto cs).val.length < maxPathNameSize) :
    myparse (trajeto cs) = some 0 := by
  obtain ⟨inicio, ultimo, rfl⟩ := (List.eq_nil_or_concat' cs).resolve_left hne
  have hcam : (trajeto (inicio ++ [ultimo])).val =
      caminho (inicio.map Subtype.val ++ [ultimo.val]) := by
    simp [trajeto, caminhoDe]
  have hbarra : ∀ nome ∈ inicio.map Subtype.val ++ [ultimo.val], barra ∉ nome.val := by
    have := semBarra_componentes (inicio ++ [ultimo])
    simpa using this
  refine (myparse_caminho hlen hbarra hcam).mpr ⟨fun nome hnome => ?_, .inr ultimo.property⟩
  obtain ⟨c, -, rfl⟩ := List.mem_map.mp hnome
  exact c.property

theorem nomes_dropLast (cs : List Componente) : (nomes cs).dropLast = nomes cs.dropLast :=
  List.map_dropLast.symm

/-- Nothing is made where there is no directory. -/
theorem not_livre_of_pai (hd : fs.no (nomes cs.dropLast) = none) :
    ¬ fs.vista.Livre (nomes cs) := by
  intro hl
  obtain ⟨n, hn, -⟩ := hl.pasta
  rw [nomes_dropLast] at hn
  have hn : fs.no (nomes cs.dropLast) = some n := hn
  rw [hd] at hn
  cases hn

/-- What is at a path is an entry of its directory. -/
theorem existe_pai (hne : cs ≠ []) {n : ℕ} (hno : fs.no (nomes cs) = some n) :
    ∃ d, fs.no (nomes cs.dropLast) = some d ∧
      fs.resolve d (cs.getLast hne).val.val = some n := by
  rw [nomes_eq hne, Fs.no, PathTree.follow_concat] at hno
  exact Option.bind_eq_some_iff.mp hno

/-! ## One call -/

/-- The server makes a file at the path, if anything can be made there. -/
theorem snfsCreate_vista (h : fs.EmArvore) (hne : cs ≠ []) {d : ℕ}
    (hd : fs.no (nomes cs.dropLast) = some d) :
    (∃ fs' n, snfsCreate fs d (cs.getLast hne).val = some (fs', some n) ∧ fs'.EmArvore ∧
      fs.vista.Cria (nomes cs) n (some []) fs'.vista) ∨
      snfsCreate fs d (cs.getLast hne).val = some (fs, none) ∧ ¬ fs.vista.Livre (nomes cs) := by
  have hcurto := (cs.getLast hne).property.curto
  have hlt := h.exacto.consistent.lt_of_alocado (h.alocado_no hd).2
  rw [nomes_eq hne, snfsCreate, if_neg (Nat.not_le.mpr hcurto), SnfsServer.snfsCreate, fsCreate,
    toInodeid_of_lt hlt, terminar_of_curto hcurto]
  rcases h.fsCriar_vista .fsFile (by decide) hd (not_badName _) with
    ⟨fs', n, hr, h', hcria⟩ | ⟨hr, hlivre⟩
  · exact .inl ⟨fs', n, by rw [hr]; rfl, h', hcria⟩
  · exact .inr ⟨by rw [hr]; rfl, hlivre⟩

/-- `my_mkdir` makes a directory at the path, if anything can be made there. -/
theorem myMkdir_vista (h : fs.EmArvore) (hne : cs ≠ [])
    (hlen : (trajeto cs).val.length < maxPathNameSize) (c : Cliente) (lixo : ℕ → ℕ) :
    ∃ fs' r, myMkdir c fs (trajeto cs) lixo = some (fs', r) ∧ fs'.EmArvore ∧
      (r = 0 ∧ (∃ n, fs.vista.Cria (nomes cs) n none fs'.vista) ∨
        r = -1 ∧ fs' = fs ∧ (c.libInitted = true → ¬ fs.vista.Livre (nomes cs))) := by
  cases hlib : c.libInitted with
  | false => exact ⟨fs, -1, by simp [myMkdir, hlib], h, .inr ⟨rfl, rfl, fun he => nomatch he⟩⟩
  | true =>
      obtain ⟨corte, hcorte, hnome, -, hdir⟩ := dir_certo h hne hlen (strcpy_certo hne hlen)
      have hcorte' : myMkdirCorte (trajeto cs) = some corte := hcorte
      rw [myMkdir, hlib, if_neg (by simp), myparse_trajeto hne hlen, Option.bind_some,
        if_neg (by simp), snfsLookup_trajeto h hne hlen, Option.bind_some]
      dsimp only
      cases hno : fs.no (nomes cs) with
      | some n =>
          refine ⟨fs, -1, rfl, h, .inr ⟨rfl, rfl, fun _ hl => ?_⟩⟩
          have hlivre : fs.no (nomes cs) = none := hl.livre
          rw [hno] at hlivre
          cases hlivre
      | none =>
          rw [Option.map_none, Option.isSome_none, if_neg (by simp), hcorte', Option.bind_some,
            hdir, Option.bind_some]
          cases hd : fs.no (nomes cs.dropLast) with
          | none =>
              exact ⟨fs, -1, rfl, h, .inr ⟨rfl, rfl, fun _ => not_livre_of_pai hd⟩⟩
          | some d =>
              dsimp only
              have hcurto := (cs.getLast hne).property.curto
              have hlt := h.exacto.consistent.lt_of_alocado (h.alocado_no hd).2
              rw [hnome, Option.bind_some, snfsMkdir, if_neg (Nat.not_le.mpr hcurto),
                SnfsServer.snfsMkdir, fsMkdir, toInodeid_of_lt hlt, terminar_of_curto hcurto,
                nomes_eq hne]
              rcases h.fsCriar_vista .fsDir (by decide) hd (not_badName _) with
                ⟨fs', n, hr, h', hcria⟩ | ⟨hr, hlivre⟩
              · exact ⟨fs', 0, by rw [hr]; rfl, h', .inl ⟨rfl, n, hcria⟩⟩
              · exact ⟨fs, -1, by rw [hr]; rfl, h, .inr ⟨rfl, rfl, fun _ => hlivre⟩⟩

/-- `my_remove` takes away what is at the path, but for a directory with something in it, and but
for an entry that is not the last one of its directory. -/
theorem myRemove_vista (h : fs.EmArvore) (hne : cs ≠ [])
    (hlen : (trajeto cs).val.length < maxPathNameSize)
    (hultimo : ∀ d, fs.no (nomes cs.dropLast) = some d →
      fs.RemoverRecusado d (cs.getLast hne).val ∨
        (fs.entradas d).getLast?.map Prod.fst = some (cs.getLast hne).val.val)
    (c : Cliente) (lixo : ℕ → ℕ) :
    ∃ fs' r, myRemove c fs (trajeto cs) lixo = some (fs', r) ∧ fs'.EmArvore ∧
      (r = 1 ∧ fs.vista.Apaga (nomes cs) fs'.vista ∨
        r = 0 ∧ fs' = fs ∧ (c.libInitted = true → fs.no (nomes cs) = none ∨
          fs.vista.Pasta (nomes cs) ∧ ∃ y, (fs.no (nomes cs ++ [y])).isSome)) := by
  cases hlib : c.libInitted with
  | false => exact ⟨fs, 0, by simp [myRemove, hlib], h, .inr ⟨rfl, rfl, fun he => nomatch he⟩⟩
  | true =>
      obtain ⟨corte, hcorte, hnome, -, hdir⟩ := dir_certo h hne hlen (strcpy_certo hne hlen)
      have hcorte' : myRemoveCorte (trajeto cs) = some corte := hcorte
      rw [myRemove, hlib, if_neg (by simp), myparse_trajeto hne hlen, Option.bind_some,
        if_neg (by simp), snfsLookup_trajeto h hne hlen, Option.bind_some]
      dsimp only
      cases hno : fs.no (nomes cs) with
      | none => exact ⟨fs, 0, rfl, h, .inr ⟨rfl, rfl, fun _ => .inl rfl⟩⟩
      | some n =>
          obtain ⟨d, hd, hres⟩ := existe_pai hne hno
          obtain ⟨ht, -⟩ := Fs.resolve_eq_some hres
          have hcurto := (cs.getLast hne).property.curto
          have hlt := h.exacto.consistent.lt_of_alocado (h.alocado_no hd).2
          rw [Option.map_some, Option.isNone_some, if_neg (by simp), hcorte', Option.bind_some,
            hdir, Option.bind_some, hd]
          dsimp only
          rw [hnome, Option.bind_some, snfsRemove, if_neg (Nat.not_le.mpr hcurto),
            SnfsServer.snfsRemove, toInodeid_of_lt hlt, terminar_of_curto hcurto]
          rcases Fs.fsRemove_spec h.exacto.consistent d (cs.getLast hne).val with
            ⟨hr, hrec⟩ | ⟨fs', m, hr, hrem⟩
          · refine ⟨fs, 0, by rw [hr]; rfl, h, .inr ⟨rfl, rfl, fun _ => .inr ?_⟩⟩
            rw [Fs.resolve_of_dir ht] at hres
            obtain hbad | hdir' | hfalta | ⟨m, hm, htm, hsize⟩ := hrec
            · exact absurd hbad (not_badName _)
            · exact absurd ht hdir'
            · rw [hres] at hfalta
              cases hfalta
            · obtain rfl := Option.some.inj (hres.symm.trans hm)
              refine ⟨(h.pasta_iff hno).mpr htm, ?_⟩
              -- a size that is not 0 is that of an entry
              have hal := (h.exacto.consistent.dirs n htm).align
              have hlen' : 0 < (fs.entradas n).length := by
                rw [Fs.length_entradas]
                omega
              have hmem := List.getElem_mem hlen'
              exact ⟨_, (Fs.mem_nomes_iff hno htm _).mp (List.mem_map_of_mem hmem)⟩
          · have hlast := (hultimo d hd).resolve_left
              (hrem.not_recusado h.exacto.consistent)
            obtain ⟨hn, hvazio, hvista⟩ := h.vista_removido hrem hlast hd
            refine ⟨fs', 1, by rw [hr]; rfl, h.removido hrem hlast, .inl ⟨rfl, m, ?_⟩⟩
            rw [nomes_eq hne]
            exact ⟨hn, hvazio, hvista⟩

/-- `my_open` gives the handle of what is at the path, and makes a file there if it is asked to. -/
theorem myOpen_vista (h : fs.EmArvore) (hne : cs ≠ [])
    (hlen : (trajeto cs).val.length < maxPathNameSize) (c : Cliente) (flags : ℤ)
    (lixo lixo' : ℕ) :
    ∃ c' fs' r, myOpen c fs (trajeto cs) flags lixo lixo' = some (c', fs', r) ∧ fs'.EmArvore ∧
      ((∃ n : ℕ, r = n ∧ fs.no (nomes cs) = some n ∧ fs' = fs) ∨
        (∃ n : ℕ, r = n ∧ flags = oCreate ∧ fs.vista.Cria (nomes cs) n (some []) fs'.vista) ∨
        r = -1 ∧ fs' = fs ∧ (c.libInitted = true → c.openFiles < maxOpenFiles →
          fs.no (nomes cs) = none ∧ (flags = oCreate → ¬ fs.vista.Livre (nomes cs)))) := by
  cases hlib : c.libInitted with
  | false =>
      exact ⟨c, fs, -1, by simp [myOpen, hlib], h, .inr (.inr ⟨rfl, rfl, fun he => nomatch he⟩)⟩
  | true =>
      by_cases hmax : maxOpenFiles ≤ c.openFiles
      · refine ⟨c, fs, -1, ?_, h, .inr (.inr ⟨rfl, rfl, fun _ hlt => ?_⟩)⟩
        · rw [myOpen, hlib, if_neg (by simp), if_pos hmax]
        · exact absurd hmax (not_le.mpr hlt)
      obtain ⟨corte, hcorte, hnome, hpai, -⟩ := dir_certo h hne hlen (strcpy_certo hne hlen)
      have hcorte' : myOpenCorte (trajeto cs) = some corte := hcorte
      rw [myOpen, hlib, if_neg (by simp), if_neg hmax, myparse_trajeto hne hlen,
        Option.bind_some, if_neg (by simp), hcorte', Option.bind_some,
        snfsLookup_trajeto h hne hlen, Option.bind_some]
      dsimp only
      cases hno : fs.no (nomes cs) with
      | some n => exact ⟨_, fs, n, rfl, h, .inl ⟨n, rfl, rfl, rfl⟩⟩
      | none =>
          -- the lookup of the directory, and the handle it leaves
          obtain ⟨newdirname, procura, x, hnew, hl, hx⟩ : ∃ newdirname procura x,
              cadeia corte.newdirname = some newdirname ∧
              snfsLookup fs newdirname lixo' = some (fs, x, procura) ∧
              (if corte.i = 1 then 1 else x) = (fs.no (nomes cs.dropLast)).getD 0 := by
            obtain ⟨hi, hnil⟩ | ⟨hi, hnil, hnew⟩ := hpai
            · have hum : (strtok (trajeto cs).val).length = 1 := by
                rw [strtok_trajeto, List.length_map, ← List.length_pos_iff_ne_nil] at *
                rw [← List.length_eq_zero_iff, List.length_dropLast] at hnil
                omega
              have hhold := (myOpenCorte_aceite (myparse_trajeto hne hlen) hcorte').2.1 hum
              refine ⟨trajeto cs, _, _, cadeia_of_holds hhold, snfsLookup_trajeto h hne hlen _, ?_⟩
              rw [if_pos hi, hnil]
              rfl
            · refine ⟨trajeto cs.dropLast, _, _, hnew,
                snfsLookup_trajeto h hnil (length_trajeto_dropLast hlen) _, ?_⟩
              rw [if_neg hi]
          rw [Option.map_none]
          dsimp only
          rw [hnew, Option.bind_some, hl, Option.bind_some]
          dsimp only
          by_cases hflags : flags = oCreate
          · have hcurto := (cs.getLast hne).property.curto
            rw [if_pos hflags, hnome, Option.bind_some, hx]
            cases hd : fs.no (nomes cs.dropLast) with
            | none =>
                have hzero : fsCriar .fsFile fs 0 (cs.getLast hne).val = some (fs, none) := by
                  rcases Fs.fsCriar_spec h.exacto.consistent .fsFile (by decide) 0
                    (cs.getLast hne).val with ⟨hr, -⟩ | ⟨fs', n, -, hc⟩
                  · exact hr
                  · have ht := hc.dir
                    rw [h.exacto.consistent.inodes.zero.2.1] at ht
                    cases ht
                refine ⟨c, fs, -1, ?_, h, .inr (.inr ⟨rfl, rfl, fun _ _ => ⟨rfl, fun _ =>
                  not_livre_of_pai hd⟩⟩)⟩
                rw [Option.getD_none, snfsCreate, if_neg (Nat.not_le.mpr hcurto),
                  SnfsServer.snfsCreate, fsCreate, toInodeid_of_lt (by decide),
                  terminar_of_curto hcurto, hzero]
                rfl
            | some d =>
                rw [Option.getD_some]
                rcases snfsCreate_vista h hne hd with ⟨fs', n, hr, h', hcria⟩ | ⟨hr, hlivre⟩
                · exact ⟨_, fs', n, by rw [hr]; rfl, h', .inr (.inl ⟨n, rfl, hflags, hcria⟩)⟩
                · exact ⟨c, fs, -1, by rw [hr]; rfl, h, .inr (.inr ⟨rfl, rfl, fun _ _ =>
                    ⟨rfl, fun _ => hlivre⟩⟩)⟩
          · exact ⟨c, fs, -1, by rw [if_neg hflags], h, .inr (.inr ⟨rfl, rfl, fun _ _ =>
              ⟨rfl, fun he => absurd he hflags⟩⟩)⟩

/-- A copy that the server is asked for between two paths that are there. -/
theorem snfsCopy_vista (h : fs.EmArvore) (hne : cs ≠ []) (hne' : cs' ≠ []) {d d' de para : ℕ}
    (hd : fs.no (nomes cs.dropLast) = some d) (hd' : fs.no (nomes cs'.dropLast) = some d')
    (hde : fs.no (nomes cs) = some de) (hpara : fs.no (nomes cs') = some para)
    (hpart : de = para → fs.typeAt de = .fsFile → fs.Partilha de de) (lixo : ℕ) :
    (∃ fs' s, snfsCopy fs d (cs.getLast hne).val d' (cs'.getLast hne').val lixo =
        some (fs', true) ∧ fs'.EmArvore ∧ fs.modelo de = some s ∧ (fs.modelo para).isSome ∧
      fs'.vista = ⟨fs.no, Function.update fs.modelo para (some s)⟩) ∨
      snfsCopy fs d (cs.getLast hne).val d' (cs'.getLast hne').val lixo = some (fs, false) ∧
        (fs.modelo de = none ∨ fs.modelo para = none) := by
  have hcurto := (cs.getLast hne).property.curto
  have hcurto' := (cs'.getLast hne').property.curto
  have hlt := h.exacto.consistent.lt_of_alocado (h.alocado_no hd).2
  have hlt' := h.exacto.consistent.lt_of_alocado (h.alocado_no hd').2
  rw [nomes_eq hne, Fs.no_concat hd] at hde
  rw [nomes_eq hne', Fs.no_concat hd'] at hpara
  rw [snfsCopy, if_neg (by omega), SnfsServer.snfsCopy, toInodeid_of_lt hlt, toInodeid_of_lt hlt',
    terminar_of_curto hcurto, terminar_of_curto hcurto']
  rcases h.fsCopy_vista hde hpara hpart with ⟨fs', s, hr, h', hs, hp, hv⟩ | ⟨hr, hrec⟩
  · exact .inl ⟨fs', s, by rw [hr]; rfl, h', hs, hp, hv⟩
  · exact .inr ⟨by rw [hr]; rfl, hrec⟩

/-- `my_copy` copies a file to a file or to a new one. What is copied to a new name may turn out to
be a directory, and then an empty file is left there. -/
theorem myCopy_vista (h : fs.EmArvore) (hne : cs ≠ []) (hne' : cs' ≠ [])
    (hlen : (trajeto cs).val.length < maxPathNameSize)
    (hlen' : (trajeto cs').val.length < maxPathNameSize)
    (hpart : cs = cs' → ∀ n, fs.no (nomes cs) = some n → fs.typeAt n = .fsFile →
      fs.Partilha n n)
    (c : Cliente) (lixo : ℕ → ℕ) :
    ∃ fs' r, myCopy c fs (trajeto cs) (trajeto cs') lixo = some (fs', r) ∧ fs'.EmArvore ∧
      (r = 1 ∧ fs.vista.Copia (nomes cs) (nomes cs') fs'.vista ∨
        r = 0 ∧ fs.vista.Pasta (nomes cs) ∧ (∃ n, fs.vista.Cria (nomes cs') n (some []) fs'.vista) ∨
        r = 0 ∧ fs' = fs ∧ (c.libInitted = true → fs.no (nomes cs) = none ∨
          ¬ fs.vista.Livre (nomes cs') ∧
            (fs.vista.Pasta (nomes cs) ∨ ∀ s, ¬ fs.vista.Ficheiro (nomes cs') s))) := by
  cases hlib : c.libInitted with
  | false =>
      exact ⟨fs, 0, by simp [myCopy, hlib], h, .inr (.inr ⟨rfl, rfl, fun he => nomatch he⟩)⟩
  | true =>
      obtain ⟨corte, hcorte, hnome, -, hdir⟩ := dir_certo h hne hlen (strcpy_certo hne hlen)
      obtain ⟨corte', hcorte', hnome', -, hdir'⟩ := dir_certo h hne' hlen' (strcpy_certo hne' hlen')
      have hcorte : myCopyOrigemCorte (trajeto cs) = some corte := hcorte
      have hcorte' : myCopyDestinoCorte (trajeto cs') = some corte' := hcorte'
      have hmal : malformados (trajeto cs) (trajeto cs') = some false := by
        rw [malformados, myparse_trajeto hne hlen, Option.bind_some, if_neg (by simp)]
      rw [myCopy, hlib, if_neg (by simp), hmal, Option.bind_some, if_neg (by simp),
        snfsLookup_trajeto h hne hlen, Option.bind_some]
      dsimp only
      cases hde : fs.no (nomes cs) with
      | none => exact ⟨fs, 0, rfl, h, .inr (.inr ⟨rfl, rfl, fun _ => .inl rfl⟩)⟩
      | some de =>
          obtain ⟨d, hd, -⟩ := existe_pai hne hde
          rw [Option.map_some, Option.isNone_some, if_neg (by simp), hcorte, Option.bind_some,
            hdir, hd, Option.bind_some]
          dsimp only
          rw [hcorte', Option.bind_some, hdir', Option.bind_some]
          cases hd' : fs.no (nomes cs'.dropLast) with
          | none =>
              refine ⟨fs, 0, rfl, h, .inr (.inr ⟨rfl, rfl, fun _ => .inr ⟨not_livre_of_pai hd',
                .inr ?_⟩⟩)⟩
              rintro s ⟨n, hn, -⟩
              obtain ⟨d', hd₂, -⟩ := existe_pai hne' (show fs.no _ = _ from hn)
              rw [hd'] at hd₂
              cases hd₂
          | some d' =>
              dsimp only
              rw [snfsLookup_trajeto h hne' hlen', Option.bind_some]
              dsimp only
              rw [hnome, Option.bind_some, hnome', Option.bind_some]
              cases hpara : fs.no (nomes cs') with
              | some para =>
                  rw [Option.map_some, Option.isSome_some, if_pos rfl, Option.bind_some]
                  dsimp only
                  rw [if_pos rfl]
                  have hpart' : de = para → fs.typeAt de = .fsFile → fs.Partilha de de := by
                    rintro rfl
                    exact hpart (nomes_injective (h.rooted.follow_inj hde hpara)) de hde
                  rcases snfsCopy_vista h hne hne' hd hd' hde hpara hpart' (lixo 4) with
                    ⟨fs', s, hr, h', hs, hp, hv⟩ | ⟨hr, hrec⟩
                  · exact ⟨fs', 1, by rw [hr]; rfl, h', .inl ⟨rfl, s, ⟨de, hde, hs⟩,
                      .inl ⟨para, hpara, hp, hv⟩⟩⟩
                  · refine ⟨fs, 0, by rw [hr]; rfl, h, .inr (.inr ⟨rfl, rfl, fun _ => .inr
                      ⟨fun hl => ?_, ?_⟩⟩)⟩
                    · have hlivre : fs.no (nomes cs') = none := hl.livre
                      rw [hpara] at hlivre
                      cases hlivre
                    · refine hrec.imp (fun hm => ⟨de, hde, hm⟩) ?_
                      rintro hm s ⟨n, hn, hs⟩
                      obtain rfl := Option.some.inj (hpara.symm.trans hn)
                      have hs : fs.modelo para = some s := hs
                      rw [hm] at hs
                      cases hs
              | none =>
                  rw [Option.map_none, Option.isSome_none, if_neg (by simp)]
                  rcases snfsCreate_vista h hne' hd' with ⟨fs₁, n, hr, h₁, hcria⟩ | ⟨hr, hlivre⟩
                  · have hde₁ := hcria.mantem hde
                    have hn₁ := hcria.novo
                    have hsep : de ≠ n := by
                      rintro rfl
                      exact hcria.2.2.1 _ hde
                    rcases snfsCopy_vista h₁ hne hne' (hcria.mantem hd).1 (hcria.mantem hd').1
                      hde₁.1 hn₁.1 (fun he => absurd he hsep) (lixo 4) with
                      ⟨fs', s, hr', h', hs, -, hv⟩ | ⟨hr', hrec⟩
                    · refine ⟨fs', 1, ?_, h', .inl ⟨rfl, s, ⟨de, hde, ?_⟩, .inr ⟨n, hcria.1,
                        hcria.2.1, hcria.2.2.1, ?_⟩⟩⟩
                      · rw [hr, Option.map_some, Option.bind_some]
                        dsimp only
                        rw [Option.isSome_some, if_pos rfl, hr']
                        rfl
                      · exact hde₁.2.symm.trans hs
                      · have hv₁ := hcria.2.2.2
                        rw [hv, show fs₁.no = _ from congrArg Vista.no hv₁,
                          show fs₁.modelo = _ from congrArg Vista.conteudo hv₁,
                          Function.update_idem]
                    · refine ⟨fs₁, 0, ?_, h₁, .inr (.inl ⟨rfl, ⟨de, hde, ?_⟩, n, hcria⟩)⟩
                      · rw [hr, Option.map_some, Option.bind_some]
                        dsimp only
                        rw [Option.isSome_some, if_pos rfl, hr']
                        rfl
                      · rcases hrec with hm | hm
                        · exact hde₁.2.symm.trans hm
                        · have hm' := hn₁.2.symm.trans hm
                          cases hm'
                  · refine ⟨fs, 0, by rw [hr]; rfl, h, .inr (.inr ⟨rfl, rfl, fun _ => .inr
                      ⟨hlivre, .inr ?_⟩⟩)⟩
                    rintro s ⟨n, hn, -⟩
                    have hn : fs.no (nomes cs') = some n := hn
                    rw [hpara] at hn
                    cases hn

end Caminhos

end ThreadScheduler.SnfsLib
