import ThreadScheduler.Lib.PathTree
import ThreadScheduler.SnfsServer.CreateRemove
import ThreadScheduler.SnfsServer.Requests

/-!
# The tree of names

The directories are a tree from i-node 1 on. Every i-node in use has one path, and each call
changes what one path leads to and one content at most.
-/
namespace ThreadScheduler.SnfsServer

/-- A file system as its callers see it: where the paths lead, and what the files hold. An i-node
that a path leads to and that is no file is a directory. -/
structure Vista where
  no : List (List Byte) → Option ℕ
  conteudo : Modelo

namespace Vista

/-- The root alone. -/
def inicial : Vista := ⟨fun p => if p = [] then some 1 else none, Modelo.vazio⟩

/-- The path of `nome` in the directory leads to `n`. -/
def ligar (no : List (List Byte) → Option ℕ) (dir : ℕ) (nome : List Byte) (n : Option ℕ) :
    List (List Byte) → Option ℕ :=
  fun p => if p.getLast? = some nome ∧ no p.dropLast = some dir then n else no p

/-- What a call does to the paths. -/
def caminhos (no : List (List Byte) → Option ℕ) : FsOp → Resposta → List (List Byte) → Option ℕ
  | .create dir file, .inode (some n) => ligar no dir file.val (some n)
  | .mkdir dir newdir, .inode (some n) => ligar no dir newdir.val (some n)
  | .copy _ _ dirDestino nomeDestino, .copia 0 _ (some para) =>
      ligar no dirDestino nomeDestino.val (some para)
  | .remove directorio nomeFicheiro, .inode (some _) =>
      ligar no directorio nomeFicheiro.val none
  | _, _ => no

/-- What a call does. -/
def passo (m : Vista) (op : FsOp) (r : Resposta) : Vista :=
  ⟨caminhos m.no op r, m.conteudo.passo op r⟩

theorem ligar_concat {no : List (List Byte) → Option ℕ} {dir : ℕ} {nome : List Byte}
    {n : Option ℕ} {p : List (List Byte)} (hp : no p = some dir)
    (hunico : ∀ q, no q = some dir → q = p) (q : List (List Byte)) :
    ligar no dir nome n q = if q = p ++ [nome] then n else no q := by
  have hiff : q.getLast? = some nome ∧ no q.dropLast = some dir ↔ q = p ++ [nome] := by
    constructor
    · rintro ⟨hlast, hq⟩
      rw [← hunico _ hq, List.dropLast_append_getLast? nome hlast]
    · rintro rfl
      simp [hp]
  exact if_congr hiff rfl rfl

end Vista

namespace Fs

variable {fs fs' : Fs} {tipo : FsItype} {d n : ℕ} {nome : List Byte}

/-! ## One step of a path -/

theorem resolve_eq_some {x j : ℕ} {y : List Byte} (h : fs.resolve x y = some j) :
    fs.typeAt x = .fsDir ∧ (y, j) ∈ fs.entradas x := by
  by_cases ht : fs.typeAt x = .fsDir
  · rw [resolve_of_dir ht] at h
    exact ⟨ht, mem_of_procura h⟩
  · rw [resolve, if_neg ht] at h
    cases h

theorem Ligado.rooted (hl : fs.Ligado) (h : fs.Consistent) : PathTree.Rooted fs.resolve 1 := by
  refine ⟨fun x y hxy => ?_, fun x x' y y' j hxy hxy' => ?_⟩
  · obtain ⟨ht, hmem⟩ := resolve_eq_some hxy
    obtain ⟨-, -, hge, -⟩ := (h.dirs x ht).entries _ hmem
    exact absurd (show 2 ≤ 1 from hge) (by decide)
  · obtain ⟨ht, hmem⟩ := resolve_eq_some hxy
    obtain ⟨ht', hmem'⟩ := resolve_eq_some hxy'
    obtain ⟨rfl, he⟩ := hl.unico x x' _ _ ht ht' hmem hmem' rfl
    exact ⟨rfl, (Prod.mk.inj he).1⟩

theorem resolve_of_not_dir (ht : fs.typeAt n ≠ .fsDir) (y : List Byte) : fs.resolve n y = none :=
  if_neg ht

/-- No name is found in an i-node without entries. -/
theorem resolve_of_vazio (hs : fs.typeAt n = .fsDir → fs.sizeAt n = 0) (y : List Byte) :
    fs.resolve n y = none := by
  by_cases ht : fs.typeAt n = .fsDir
  · have hz : fs.entradas n = [] := by
      rw [Fs.entradas, hs ht]
      rfl
    rw [resolve_of_dir ht, procura, hz]
    rfl
  · exact resolve_of_not_dir ht y

theorem Ligado.resolve_ne (hl : fs.Ligado) (hn : fs.alocado n = false) (x : ℕ) (y : List Byte) :
    fs.resolve x y ≠ some n := by
  intro hxy
  obtain ⟨ht, hmem⟩ := resolve_eq_some hxy
  have hal := hl.alocado x _ ht hmem
  rw [hn] at hal
  cases hal

theorem Criado.resolve (h : fs.Consistent) (hc : Criado tipo fs fs' d nome n) (x : ℕ)
    (y : List Byte) :
    fs'.resolve x y = if x = d ∧ y = nome then some n else fs.resolve x y := by
  have hdn : d ≠ n := hc.ne_of_alocado (h.alocado_of_type (by simp [hc.dir]))
  have hnone : (fs.entradas d).find? (fun e => e.1 = nome) = none :=
    Option.map_eq_none_iff.mp hc.nova
  by_cases hxn : x = n
  · subst hxn
    have ht : fs.typeAt x ≠ .fsDir := by
      rw [(h.inodes.livre x hc.livre).1]
      decide
    rw [if_neg fun he => hdn he.1.symm, resolve_of_not_dir ht,
      resolve_of_vazio fun _ => (hc.size x).trans (if_pos rfl)]
  · have ht : fs'.typeAt x = fs.typeAt x := by rw [hc.type, if_neg hxn]
    rw [Fs.resolve, Fs.resolve, ht]
    by_cases hxd : x = d
    · subst hxd
      rw [if_pos hc.dir, if_pos hc.dir, procura, procura, hc.entradas, List.find?_append]
      by_cases hy : y = nome
      · subst hy
        simp [hnone]
      · have hne : nome ≠ y := fun he => hy he.symm
        simp [hy, hne]
    · rw [procura_congr (hc.outras x hxd hxn)]
      exact (if_neg fun he => hxd he.1).symm

theorem Removido.resolve (h : fs.Consistent) (hr : Removido fs fs' d nome n)
    (hlast : (fs.entradas d).getLast?.map Prod.fst = some nome) (x : ℕ) (y : List Byte) :
    fs'.resolve x y = if x = d ∧ y = nome then none else fs.resolve x y := by
  have hdn : d ≠ n := hr.ne.symm
  by_cases hxn : x = n
  · subst hxn
    have ht : fs'.typeAt x ≠ .fsDir := by
      rw [hr.type, if_pos rfl]
      decide
    rw [resolve_of_not_dir ht, if_neg fun he => hdn he.1.symm, resolve_of_vazio hr.vazio]
  · have ht : fs'.typeAt x = fs.typeAt x := by rw [hr.type, if_neg hxn]
    rw [Fs.resolve, Fs.resolve, ht]
    by_cases hxd : x = d
    · subst hxd
      obtain ⟨e, he, hnome⟩ := Option.map_eq_some_iff.mp hlast
      have hsplit : fs.entradas x = (fs.entradas x).dropLast ++ [e] :=
        (List.dropLast_append_getLast? e he).symm
      have hnodup := (h.dirs x hr.dir).nodup
      rw [hsplit, List.map_append, List.nodup_append] at hnodup
      rw [if_pos hr.dir, if_pos hr.dir, procura, procura, hr.entradas]
      by_cases hy : y = nome
      · -- the name is not among the entries before the last one
        have hnone : (fs.entradas x).dropLast.find? (fun a => a.1 = y) = none := by
          refine List.find?_eq_none.mpr fun a ha => ?_
          have hne := hnodup.2.2 a.1 (List.mem_map_of_mem ha) e.1 (by simp)
          simpa [hy, ← hnome] using hne
        rw [hnone, if_pos ⟨rfl, hy⟩]
        rfl
      · have hne : ¬ e.1 = y := fun he' => hy (he'.symm.trans hnome)
        rw [if_neg fun he' => hy he'.2]
        conv_rhs => rw [hsplit, List.find?_append]
        simp [hne]
    · rw [procura_congr (hr.outras x hxd hxn)]
      exact (if_neg fun he => hxd he.1).symm

theorem MesmosNomes.resolve (hm : MesmosNomes fs fs') : fs'.resolve = fs.resolve := by
  funext x y
  rw [← espaco_procura, ← espaco_procura, hm.espaco]

/-! ## The paths -/

/-- The i-node a path from the root leads to. -/
def no (fs : Fs) (p : List (List Byte)) : Option ℕ := PathTree.follow fs.resolve 1 p

/-- Two ways to walk along a path. -/
theorem seguir_eq_chega_iff (d : ℕ) (p : List (List Byte)) :
    fs.espaco.seguir d p = .chega n ↔ PathTree.follow fs.resolve d p = some n := by
  induction p generalizing d with
  | nil => simp [Espaco.seguir, PathTree.follow]
  | cons nome p ih =>
      rw [Espaco.seguir, PathTree.follow]
      by_cases ht : fs.typeAt d = .fsDir
      · rw [espaco_of_dir ht, espaco_procura]
        cases fs.resolve d nome with
        | none => simp
        | some x => exact ih x
      · rw [espaco_of_not_dir ht, resolve_of_not_dir ht]
        simp

theorem no_concat {p : List (List Byte)} (hp : fs.no p = some d) (y : List Byte) :
    fs.no (p ++ [y]) = fs.resolve d y := by
  rw [no, PathTree.follow_concat, show PathTree.follow fs.resolve 1 p = some d from hp,
    Option.bind_some]

/-- An entry is a child of the path of its directory. -/
theorem mem_nomes_iff {p : List (List Byte)} (hp : fs.no p = some d) (ht : fs.typeAt d = .fsDir)
    (y : List Byte) : y ∈ (fs.entradas d).map Prod.fst ↔ (fs.no (p ++ [y])).isSome := by
  rw [no_concat hp, resolve_of_dir ht, procura, Option.isSome_map, List.find?_isSome,
    List.mem_map]
  simp

/-- What the callers see. -/
def vista (fs : Fs) : Vista := ⟨fs.no, fs.modelo⟩

/-- The states in which the directories are a tree that all i-nodes in use are in. -/
structure EmArvore (fs : Fs) : Prop where
  exacto : fs.Exacto
  ligado : fs.Ligado
  alcancado : ∀ n, n ≠ 0 → fs.alocado n = true → ∃ p, fs.no p = some n

namespace EmArvore

theorem rooted (h : fs.EmArvore) : PathTree.Rooted fs.resolve 1 :=
  h.ligado.rooted h.exacto.consistent

/-- A directory has one path. -/
theorem existe_no (h : fs.EmArvore) (ht : fs.typeAt d = .fsDir) :
    ∃ p, fs.no p = some d ∧ ∀ q, fs.no q = some d → q = p := by
  have hd0 : d ≠ 0 := by
    rintro rfl
    rw [h.exacto.consistent.inodes.zero.2.1] at ht
    cases ht
  obtain ⟨p, hp⟩ := h.alcancado d hd0 (h.exacto.consistent.alocado_of_type (by simp [ht]))
  exact ⟨p, hp, fun q hq => h.rooted.follow_inj hq hp⟩

theorem no_criado (h : fs.EmArvore) (hc : Criado tipo fs fs' d nome n) :
    fs'.no = Vista.ligar fs.no d nome (some n) := by
  have hcons := h.exacto.consistent
  obtain ⟨p, hp, hunico⟩ := h.existe_no hc.dir
  have hn1 : n ≠ 1 := by
    have := hc.range.1
    omega
  have hnew : fs.resolve d nome = none := by rw [resolve_of_dir hc.dir, hc.nova]
  have hfolha : ∀ y, fs.resolve n y = none :=
    resolve_of_not_dir (by rw [(hcons.inodes.livre n hc.livre).1]; decide)
  funext q
  rw [Vista.ligar_concat hp hunico]
  exact h.rooted.follow_insert hn1 (h.ligado.resolve_ne hc.livre) hfolha hnew (hc.resolve hcons)
    hp q

theorem no_removido (h : fs.EmArvore) (hr : Removido fs fs' d nome n)
    (hlast : (fs.entradas d).getLast?.map Prod.fst = some nome) :
    fs'.no = Vista.ligar fs.no d nome none := by
  obtain ⟨p, hp, hunico⟩ := h.existe_no hr.dir
  have hk : fs.resolve d nome = some n := by rw [resolve_of_dir hr.dir, hr.achado]
  funext q
  rw [Vista.ligar_concat hp hunico]
  exact h.rooted.follow_erase (resolve_of_vazio hr.vazio) hk
    (hr.resolve h.exacto.consistent hlast) hp q

theorem criado (h : fs.EmArvore) (hc : Criado tipo fs fs' d nome n) : fs'.EmArvore := by
  refine ⟨(h.exacto.criado hc).1, h.ligado.criado hc, fun j hj hal => ?_⟩
  obtain ⟨p, hp, hunico⟩ := h.existe_no hc.dir
  rw [h.no_criado hc]
  by_cases hjn : j = n
  · exact ⟨p ++ [nome], by rw [Vista.ligar_concat hp hunico, if_pos rfl, hjn]⟩
  · rw [hc.alocado, decide_eq_false hjn, Bool.false_or] at hal
    obtain ⟨q, hq⟩ := h.alcancado j hj hal
    refine ⟨q, ?_⟩
    rw [Vista.ligar_concat hp hunico, if_neg, hq]
    -- the new path led nowhere
    rintro rfl
    rw [no, PathTree.follow_concat] at hq
    obtain ⟨x, hx, hxj⟩ := Option.bind_eq_some_iff.mp hq
    obtain rfl := Option.some.inj (hp.symm.trans hx)
    rw [resolve_of_dir hc.dir, hc.nova] at hxj
    cases hxj

theorem removido (h : fs.EmArvore) (hr : Removido fs fs' d nome n)
    (hlast : (fs.entradas d).getLast?.map Prod.fst = some nome) : fs'.EmArvore := by
  refine ⟨(h.exacto.removido hr).1, h.ligado.removido h.exacto.consistent hr hlast,
    fun j hj hal => ?_⟩
  obtain ⟨p, hp, hunico⟩ := h.existe_no hr.dir
  rw [hr.alocado, Bool.and_eq_true, Bool.not_eq_true', decide_eq_false_iff_not] at hal
  obtain ⟨q, hq⟩ := h.alcancado j hj hal.2
  refine ⟨q, ?_⟩
  rw [h.no_removido hr hlast, Vista.ligar_concat hp hunico, if_neg, hq]
  -- the path of the i-node that is freed led to no other one
  rintro rfl
  rw [no, PathTree.follow_concat] at hq
  obtain ⟨x, hx, hxj⟩ := Option.bind_eq_some_iff.mp hq
  obtain rfl := Option.some.inj (hp.symm.trans hx)
  rw [resolve_of_dir hr.dir, hr.achado] at hxj
  exact hal.1 (Option.some.inj hxj).symm

theorem mesmosNomes (h : fs.EmArvore) (hex : fs'.Exacto) (hm : MesmosNomes fs fs') :
    fs'.EmArvore ∧ fs'.no = fs.no := by
  have hno : fs'.no = fs.no := by
    funext p
    rw [no, no, hm.resolve]
  refine ⟨⟨hex, h.ligado.mesmosNomes hm, fun j hj hal => ?_⟩, hno⟩
  rw [hno]
  refine h.alcancado j hj ?_
  rwa [alocado, ← hm.inodeBmap]

/-- What a path leads to is in use. -/
theorem alocado_no (h : fs.EmArvore) {p : List (List Byte)} (hp : fs.no p = some n) :
    n ≠ 0 ∧ fs.alocado n = true := by
  obtain rfl | ⟨q, nome, rfl⟩ := List.eq_nil_or_concat' p
  · obtain rfl := Option.some.inj hp
    exact ⟨Nat.one_ne_zero, h.exacto.consistent.inodes.root.1⟩
  · rw [no, PathTree.follow_concat] at hp
    obtain ⟨x, -, hx⟩ := Option.bind_eq_some_iff.mp hp
    obtain ⟨ht, hmem⟩ := resolve_eq_some hx
    obtain ⟨-, -, hge, -⟩ := (h.exacto.consistent.dirs x ht).entries _ hmem
    have hge : 2 ≤ n := hge
    exact ⟨by omega, h.ligado.alocado x _ ht hmem⟩

/-- What a path leads to is a directory, or else a file. -/
theorem typeAt_no (h : fs.EmArvore) {p : List (List Byte)} (hp : fs.no p = some n) :
    fs.typeAt n ≠ .unset ∧ (fs.typeAt n = .fsDir ↔ fs.modelo n = none) := by
  obtain ⟨hn, hal⟩ := h.alocado_no hp
  have htyped := h.exacto.consistent.inodes.typed n hn hal
  refine ⟨htyped, fun ht => modelo_of_not_file (by simp [ht]), fun hm => ?_⟩
  cases ht : fs.typeAt n with
  | fsDir => rfl
  | fsFile =>
      rw [modelo_of_file h.exacto.consistent ht] at hm
      cases hm
  | unset => exact absurd ht htyped

theorem vista_criado (h : fs.EmArvore) (hc : Criado tipo fs fs' d nome n) {p : List (List Byte)}
    (hp : fs.no p = some d) :
    fs.no (p ++ [nome]) = none ∧ (∀ q, fs.no q ≠ some n) ∧
      fs'.vista = ⟨Function.update fs.no (p ++ [nome]) (some n),
        Function.update fs.modelo n (if tipo = .fsFile then some [] else none)⟩ := by
  have hunico : ∀ q, fs.no q = some d → q = p := fun q hq => h.rooted.follow_inj hq hp
  refine ⟨?_, fun q hq => ?_, ?_⟩
  · rw [no_concat hp, resolve_of_dir hc.dir, hc.nova]
  · have hal := (h.alocado_no hq).2
    rw [hc.livre] at hal
    cases hal
  · have hmod : fs'.modelo =
        Function.update fs.modelo n (if tipo = .fsFile then some [] else none) := by
      rw [(h.exacto.criado hc).2]
      split
      · rfl
      · have ht : fs.typeAt n ≠ .fsFile := by
          rw [(h.exacto.consistent.inodes.livre n hc.livre).1]
          decide
        rw [← modelo_of_not_file ht, Function.update_eq_self]
    rw [vista, hmod, h.no_criado hc]
    congr 1
    funext q
    rw [Vista.ligar_concat hp hunico, Function.update_apply]

theorem vista_removido (h : fs.EmArvore) (hr : Removido fs fs' d nome n)
    (hlast : (fs.entradas d).getLast?.map Prod.fst = some nome) {p : List (List Byte)}
    (hp : fs.no p = some d) :
    fs.no (p ++ [nome]) = some n ∧ (∀ y, fs.no (p ++ [nome] ++ [y]) = none) ∧
      fs'.vista = ⟨Function.update fs.no (p ++ [nome]) none,
        Function.update fs.modelo n none⟩ := by
  have hunico : ∀ q, fs.no q = some d → q = p := fun q hq => h.rooted.follow_inj hq hp
  have hn : fs.no (p ++ [nome]) = some n := by
    rw [no_concat hp, resolve_of_dir hr.dir, hr.achado]
  refine ⟨hn, fun y => ?_, ?_⟩
  · rw [no_concat hn, resolve_of_vazio hr.vazio]
  · rw [vista, (h.exacto.removido hr).2, h.no_removido hr hlast]
    congr 1
    funext q
    rw [Vista.ligar_concat hp hunico, Function.update_apply]

/-- A path that is there already. -/
theorem ligar_achado (h : fs.EmArvore) (hr : fs.resolve d nome = some n) :
    Vista.ligar fs.no d nome (some n) = fs.no := by
  obtain ⟨p, hp, hunico⟩ := h.existe_no (resolve_eq_some hr).1
  funext q
  rw [Vista.ligar_concat hp hunico]
  split
  · rename_i hq
    rw [hq, no_concat hp, hr]
  · rfl

/-- The destination of a copy has its path, and nothing else has changed. -/
theorem destinoDe {fs₁ : Fs} {de para : ℕ} (h : fs.EmArvore) (hde : fs.typeAt de = .fsFile)
    (hd : DestinoDe fs fs₁ d nome para) :
    fs₁.EmArvore ∧ fs₁.no = Vista.ligar fs.no d nome (some para) ∧
      Function.update fs₁.modelo para (fs₁.modelo de) =
        Function.update fs.modelo para (fs.modelo de) := by
  cases hd with
  | achado hr he =>
      subst he
      exact ⟨h, (h.ligar_achado hr).symm, rfl⟩
  | criado hc =>
      have hne : de ≠ para :=
        hc.ne_of_alocado (h.exacto.consistent.alocado_of_type (by simp [hde]))
      refine ⟨h.criado hc, h.no_criado hc, ?_⟩
      rw [(h.exacto.criado hc).2, if_pos rfl, Function.update_of_ne hne, Function.update_idem]

end EmArvore

end Fs

/-! ## Runs -/

/-- The calls after which the names are a tree as before: a file that is copied onto itself shares
its blocks, and a file that is removed is the last entry of its directory. -/
def FsOp.EmOrdem (fs : Fs) : FsOp → Prop
  | copy d₁ nome₁ d₂ nome₂ => ∀ n, fs.resolve d₁ nome₁.val = some n →
      fs.resolve d₂ nome₂.val = some n → fs.typeAt n = .fsFile → fs.Partilha n n
  | remove d nome => fs.RemoverRecusado d nome ∨
      (fs.entradas d).getLast?.map Prod.fst = some nome.val
  | append _ _ _ _ => False
  | defrag => False
  | _ => True

instance FsOp.decidableEmOrdem (fs : Fs) : ∀ op : FsOp, Decidable (op.EmOrdem fs)
  | copy d₁ nome₁ d₂ nome₂ =>
      inferInstanceAs (Decidable (∀ n ∈ fs.resolve d₁ nome₁.val,
        fs.resolve d₂ nome₂.val = some n → fs.typeAt n = .fsFile → fs.Partilha n n))
  | remove d nome =>
      inferInstanceAs (Decidable (fs.RemoverRecusado d nome ∨
        (fs.entradas d).getLast?.map Prod.fst = some nome.val))
  | append _ _ _ _ | defrag => isFalse id
  | create _ _ | mkdir _ _ | write _ _ _ _ _ | read _ _ _ | actualizar _ => isTrue trivial

namespace Fs

/-- A call does to the paths and the files what their view says. -/
theorem EmArvore.exec {fs : Fs} (h : fs.EmArvore) {op : FsOp} (hop : op.EmOrdem fs) :
    ∃ fs' r, op.exec fs = some (fs', r) ∧ fs'.EmArvore ∧ fs'.vista = fs.vista.passo op r := by
  have hcons := h.exacto.consistent
  cases op with
  | create dir file =>
      rcases fsCriar_spec hcons .fsFile (by decide) dir file with ⟨hr, -⟩ | ⟨fs', n, hr, hc⟩
      · exact ⟨fs, .inode none, by simp [FsOp.exec, fsCreate, hr], h, rfl⟩
      · refine ⟨fs', .inode (some n), by simp [FsOp.exec, fsCreate, hr], h.criado hc, ?_⟩
        rw [vista, h.no_criado hc, (h.exacto.criado hc).2]
        rfl
  | mkdir dir newdir =>
      rcases fsCriar_spec hcons .fsDir (by decide) dir newdir with ⟨hr, -⟩ | ⟨fs', n, hr, hc⟩
      · exact ⟨fs, .inode none, by simp [FsOp.exec, fsMkdir, hr], h, rfl⟩
      · refine ⟨fs', .inode (some n), by simp [FsOp.exec, fsMkdir, hr], h.criado hc, ?_⟩
        rw [vista, h.no_criado hc, (h.exacto.criado hc).2]
        rfl
  | write file offset count buffer lixo =>
      rcases fsWrite_spec hcons file offset count buffer lixo with ⟨hr, -⟩ | ⟨fs', hr, hw⟩
      · exact ⟨fs, .estado (-1), by simp [FsOp.exec, hr], h, rfl⟩
      · obtain ⟨hex, hm⟩ := h.exacto.escrito hw
        obtain ⟨h', hno⟩ := h.mesmosNomes hex (hw.mesmosNomes hcons)
        refine ⟨fs', .estado 0, by simp [FsOp.exec, hr], h', ?_⟩
        rw [vista, hno, hm]
        rfl
  | read file offset count =>
      obtain ⟨fs', r, hr, hex, hm⟩ := h.exacto.fsRead_nomes file offset count
      obtain ⟨h', hno⟩ := h.mesmosNomes hex hm
      obtain ⟨fs'', hr', -, hmod⟩ := h.exacto.fsRead_eq file offset count
      obtain ⟨rfl, -⟩ := Prod.mk.inj (Option.some.inj (hr.symm.trans hr'))
      refine ⟨fs', .lido r, by simp [FsOp.exec, hr], h', ?_⟩
      rw [vista, hno, hmod]
      rfl
  | copy d₁ nome₁ d₂ nome₂ =>
      rcases h.exacto.fsCopy_spec d₁ nome₁ d₂ nome₂ hop with
        hr | ⟨fs₁, fs', de, para, hr, hres, htde, hdest, hcop⟩
      · exact ⟨fs, .copia (-1) (fs.resolve d₁ nome₁.val) (fs.resolve d₂ nome₂.val),
          by simp [FsOp.exec, hr], h, rfl⟩
      · obtain ⟨-, hpara, hkeep, -⟩ := h.exacto.destinoDe hdest
        obtain ⟨h₁, hno₁, hmod₁⟩ := h.destinoDe htde hdest
        obtain ⟨hex, hm⟩ := h₁.exacto.copiado hcop
        obtain ⟨h', hno⟩ := h₁.mesmosNomes hex (hcop.mesmosNomes h₁.exacto.consistent)
        have hde' := hkeep d₁ nome₁.val de hres
        refine ⟨fs', .copia 0 (some de) (some para), ?_, h', ?_⟩
        · simp only [FsOp.exec, hr, Option.map_some, hcop.resolve h₁.exacto.consistent, hde',
            hpara]
        · rw [vista, hno, hno₁, hm, hmod₁]
          rfl
  | remove d nome =>
      rcases fsRemove_spec hcons d nome with ⟨hr, -⟩ | ⟨fs', n, hr, hrem⟩
      · exact ⟨fs, .inode none, by simp [FsOp.exec, hr], h, rfl⟩
      · have hlast := hop.resolve_left (hrem.not_recusado hcons)
        refine ⟨fs', .inode (some n), by simp [FsOp.exec, hr], h.removido hrem hlast, ?_⟩
        rw [vista, h.no_removido hrem hlast, (h.exacto.removido hrem).2]
        rfl
  | append _ _ _ _ => exact absurd hop id
  | defrag => exact absurd hop id
  | actualizar intervalo =>
      have hs := actualizarCache_settled hcons.acc.coherent intervalo
      have hc : (actualizarCache fs.cache intervalo).conteudo = fs.cache.conteudo :=
        funext hs.conteudo
      have hacc := hcons.acc.withCache (hs.coherent hcons.acc.coherent) hs.numBlocks
        fun b hv => .inl (hs.valid hv)
      obtain ⟨hex, hmod⟩ := h.exacto.withCache hc (hcons.withCache hacc hc)
      obtain ⟨h', hno⟩ := h.mesmosNomes hex (mesmosNomes_withCache hc)
      refine ⟨_, _, rfl, h', ?_⟩
      rw [vista, hno, hmod]
      rfl

theorem inicial_no (pilha : ℕ → ℤ) : (inicial pilha).no = Vista.inicial.no := by
  have hnome : ∀ x y, (inicial pilha).resolve x y = none := by
    intro x y
    rw [Fs.resolve, procura, inicial_entradas]
    split <;> rfl
  funext p
  cases p with
  | nil => rfl
  | cons nome p =>
      rw [no, PathTree.follow, hnome]
      rfl

theorem inicial_emArvore (pilha : ℕ → ℤ) : (inicial pilha).EmArvore := by
  refine ⟨inicial_exacto pilha, inicial_ligado pilha, fun n hn hal => ⟨[], ?_⟩⟩
  obtain ⟨-, -, -, -, -, -, hali, -, -⟩ := inicial_spec pilha
  rw [hali] at hal
  have hlt : n < 2 := of_decide_eq_true hal
  obtain rfl : n = 1 := by omega
  rfl

end Fs

/-- After any run of calls in order on the formatted disk, the paths lead where the calls that
were answered have put them, the files hold what these have written, and every i-node in use is at
the end of one path. -/
theorem vista_after_run (pilha : ℕ → ℤ) (ops : List FsOp)
    (hops : Runs.Permitted FsOp.exec FsOp.EmOrdem (fsFormat (fsNew Fs.discoServidor pilha)) ops) :
    ∃ fs rs, Runs.run FsOp.exec (fsFormat (fsNew Fs.discoServidor pilha)) ops = some (fs, rs) ∧
      fs.vista = Runs.replay Vista.passo Vista.inicial ops rs ∧
      ∀ n, n ≠ 0 → fs.alocado n = true →
        ∃ p, fs.no p = some n ∧ ∀ q, fs.no q = some n → q = p := by
  have hini := Fs.inicial_emArvore pilha
  obtain ⟨fs, rs, hr, h⟩ := Runs.run_total (I := Fs.EmArvore) (fun s a h ha => by
    obtain ⟨s', o, hs, h', -⟩ := h.exec ha
    exact ⟨s', o, hs, h'⟩) hini hops
  refine ⟨fs, rs, hr, ?_, fun n hn hal => ?_⟩
  · have hvista := Runs.run_refines (I := Fs.EmArvore) Vista.passo Fs.vista
      (fun s a s' o h ha hs => by
        obtain ⟨s₁, r₁, hr₁, h₁, hv⟩ := h.exec ha
        obtain ⟨rfl, rfl⟩ := Prod.mk.inj (Option.some.inj (hr₁.symm.trans hs))
        exact ⟨h₁, hv⟩) hini hops hr
    have hvazia : (Fs.inicial pilha).vista = Vista.inicial :=
      congrArg₂ Vista.mk (Fs.inicial_no pilha) (Fs.inicial_modelo pilha)
    rw [hvazia] at hvista
    exact hvista
  · obtain ⟨p, hp⟩ := h.alcancado n hn hal
    exact ⟨p, hp, fun q hq => h.rooted.follow_inj hq hp⟩

/-- A file of two blocks in a directory, and a copy in the root that has the same blocks. -/
def chamadasPartilhadas : List FsOp :=
  [.mkdir 1 nomeA, .create 2 nomeB, .write 3 0 600 (fun _ => 1) nullBlock, .copy 2 nomeB 1 nomeC]

set_option maxRecDepth 100000 in
theorem vista_after_run_copia :
    ∃ fs rs, Runs.run FsOp.exec (fsFormat (fsNew Fs.discoServidor fun _ => 7))
        chamadasPartilhadas = some (fs, rs) ∧
      fs.vista = Runs.replay Vista.passo Vista.inicial chamadasPartilhadas rs ∧
      ∀ n, n ≠ 0 → fs.alocado n = true →
        ∃ p, fs.no p = some n ∧ ∀ q, fs.no q = some n → q = p :=
  vista_after_run (fun _ => 7) _ (by rw [Fs.fsFormat_eq_formatado]; decide +kernel)

end ThreadScheduler.SnfsServer
