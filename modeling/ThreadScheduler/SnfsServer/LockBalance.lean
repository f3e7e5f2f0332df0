import ThreadScheduler.SnfsServer.LockPaths
import ThreadScheduler.SnfsServer.Format

/-!
# Giving back the lock

On every path but two the calls of the lock come in pairs. `fs_mkdir` keeps the lock when its
directory is not in use, and `fs_copy` gives it back twice when `fs_create` fails.
-/
namespace ThreadScheduler.SnfsServer

open Sincronizacao (Emparelhadas)
open Caminho (apos)

/-! ## Paths with one call left -/

/-- The path, if it returns, makes one more call of the lock. -/
def Termina (c : Chamada) (r : Option Caminho) : Prop := ∀ p, r = some p → p.chamadas = [c]

/-- The calls of the path, if it returns, come in pairs. -/
def Pares (r : Option Caminho) : Prop := ∀ p, r = some p → Emparelhadas p.chamadas

section Termina

variable {c : Chamada} {a b : Option Caminho}

theorem Termina.ret (c : Chamada) (estado : ℤ) : Termina c (some ⟨[c], estado⟩) := by
  intro p hp
  rw [← Option.some.inj hp]

theorem Termina.ite {P : Prop} [Decidable P] (ha : Termina c a) (hb : Termina c b) :
    Termina c (if P then a else b) := by
  split
  · exact ha
  · exact hb

theorem Termina.bind {α : Type} {o : Option α} {f : α → Option Caminho}
    (hf : ∀ x, Termina c (f x)) : Termina c (o.bind f) := by
  intro p hp
  obtain ⟨x, -, hx⟩ := Option.bind_eq_some_iff.mp hp
  exact hf x p hx

theorem Termina.map {α : Type} {o : Option α} {f : α → Caminho}
    (hf : ∀ x, (f x).chamadas = [c]) : Termina c (o.map f) := by
  intro p hp
  obtain ⟨x, -, rfl⟩ := Option.map_eq_some_iff.mp hp
  exact hf x

theorem Pares.ret (estado : ℤ) : Pares (some ⟨[], estado⟩) := by
  intro p hp
  rw [← Option.some.inj hp]
  exact .nil

theorem Pares.ite {P : Prop} [Decidable P] (ha : Pares a) (hb : Pares b) :
    Pares (if P then a else b) := by
  split
  · exact ha
  · exact hb

theorem Pares.none : Pares none := fun _ hp => nomatch hp

theorem Pares.leitura (ha : Termina .terminaLeitura a) : Pares (apos .iniciaLeitura a) := by
  intro p hp
  obtain ⟨q, hq, rfl⟩ := Option.map_eq_some_iff.mp hp
  rw [ha q hq]
  exact .leitura .nil

theorem Pares.escrita (ha : Termina .terminaEscrita a) : Pares (apos .iniciaEscrita a) := by
  intro p hp
  obtain ⟨q, hq, rfl⟩ := Option.map_eq_some_iff.mp hp
  rw [ha q hq]
  exact .escrita .nil

end Termina

/-! ## The operations -/

theorem caminhoLookupLoop_termina (fs : Fs) (dir : ℕ) (tokens : List (List Byte)) :
    Termina .terminaLeitura (caminhoLookupLoop fs dir tokens) := by
  induction tokens generalizing fs dir with
  | nil => exact .ret _ _
  | cons token tokens ih =>
      refine .ite (.ret _ _) (.ite (.ret _ _) (.bind fun r => ?_))
      obtain ⟨fs', found⟩ := r
      cases found with
      | none => exact .ret _ _
      | some fid => exact ih fs' fid

theorem caminhoLookup_pares (fs : Fs) (nulo : Bool) (file : CString) :
    Pares (caminhoLookup fs nulo file) :=
  .ite (.ret _) (.ite (.ret _) (.ite .none (.leitura (caminhoLookupLoop_termina fs 1 _))))

theorem caminhoRead_pares (fs : Fs) (nulo : Bool) (file offset count : ℕ) :
    Pares (caminhoRead fs nulo file offset count) :=
  .ite (.ret _) (.leitura (.ite (.ret _ _) (.ite (.ret _ _) (.ite (.ret _ _) (.map fun _ => rfl)))))

theorem caminhoReaddir_pares (fs : Fs) (nulo : Bool) (dir : ℕ) (maxentries : ℤ) :
    Pares (caminhoReaddir fs nulo dir maxentries) :=
  .ite (.ret _) (.leitura (.ite (.ret _ _) (.ite (.ret _ _) (.map fun _ => rfl))))

theorem caminhoWrite_pares (fs : Fs) (nulo : Bool) (file offset count : ℕ) (buffer : ℕ → Byte)
    (lixo : Block) : Pares (caminhoWrite fs nulo file offset count buffer lixo) := by
  refine .ite (.ret _) (.escrita (.ite (.ret _ _) (.ite (.ret _ _) (.ite (.ret _ _) ?_))))
  generalize reservarBlocos file _ _ fs = r
  obtain ⟨fs₁, ok⟩ := r
  cases ok with
  | false => exact .ret _ _
  | true =>
      refine .bind fun _ => .bind fun r => .ite (fun p hp => nomatch hp) (.ret _ _)

theorem caminhoEntrada_termina (fs : Fs) (dir : ℕ) (file : CString) :
    Termina .terminaEscrita (caminhoEntrada fs dir file) := by
  refine .bind fun r => .ite (.ret _ _) ?_
  cases fsiBmapFindFree r.1.inodeBmap itabSize with
  | none => exact .ret _ _
  | some n => exact .ite (.ret _ _) (.ret _ _)

theorem caminhoCreate_pares (fs : Fs) (nulo : Bool) (dir : ℕ) (file : CString) :
    Pares (caminhoCreate fs nulo dir file) :=
  .ite (.ret _) (.ite (.ret _) (.escrita (.ite (.ret _ _) (.ite (.ret _ _)
    (caminhoEntrada_termina fs dir file)))))

theorem caminhoRemove_pares (fs : Fs) (nulo : Bool) (d : ℕ) (nome : CString) :
    Pares (caminhoRemove fs nulo d nome) := by
  refine .ite (.ret _) (.ite (.ret _) (.escrita (.ite (.ret _ _) (.ite (.ret _ _)
    (.bind fun r => ?_)))))
  obtain ⟨fs₁, found⟩ := r
  cases found with
  | none => exact .ret _ _
  | some n =>
      refine .ite (.ret _ _) ?_
      generalize removerBlocos n _ 0 fs₁ = r
      obtain ⟨fs₂, ok⟩ := r
      cases ok with
      | false => exact .ret _ _
      | true => exact .map fun r => by dsimp only; split <;> rfl

theorem caminhoAppend_pares (fs : Fs) (nulo : Bool) (d₁ : ℕ) (nome₁ : CString) (d₂ : ℕ)
    (nome₂ : CString) : Pares (caminhoAppend fs nulo d₁ nome₁ d₂ nome₂) := by
  refine .ite (.ret _) (.ite (.ret _) (.escrita (.ite (.ret _ _) (.ite (.ret _ _)
    (.bind fun r => ?_)))))
  obtain ⟨fs₁, found⟩ := r
  cases found with
  | none => exact .ret _ _
  | some de =>
      refine .ite (.ret _ _) (.ite (.ret _ _) (.ite (.ret _ _) (.ite (.ret _ _)
        (.bind fun r => ?_))))
      obtain ⟨fs₂, found⟩ := r
      cases found with
      | none => exact .ret _ _
      | some para => exact .ite (.ret _ _) (.ite (.ret _ _) (.ret _ _))

theorem caminhoDefrag_pares (fs : Fs) (emCurso : Bool) : Pares (caminhoDefrag fs emCurso) :=
  .ite (.ret _) (.escrita (.ite (.ret _ _) (.ret _ _)))

/-! ## The two paths that differ -/

/-- `fs_create` finds what it needs, but for the name. -/
def PodeCriar (fs : Fs) (dir : ℕ) : Prop :=
  dir < itabSize ∧ fsiBmapFindFree fs.inodeBmap itabSize ≠ none ∧
    ((fs.inodeTab dir).size % blockSize = 0 → fs.findFreeBlk ≠ none)

/-- The arguments and the state with which `fs_copy` comes to create its destination. -/
structure CriaDestino (fs : Fs) (nulo : Bool) (d₁ : ℕ) (nome₁ : CString) (d₂ : ℕ)
    (nome₂ : CString) : Prop where
  nulo : nulo = false
  origem : d₁ < itabSize ∧ ¬ badName nome₁ ∧ bmapIsSet fs.inodeBmap d₁ = true ∧
    (fs.inodeTab d₁).type = .fsDir
  ficheiro : ∃ de, fsiDirSearch fs d₁ nome₁.val = some (fs, some de) ∧
    (fs.inodeTab de).type = .fsFile
  destino : ¬ badName nome₂ ∧ bmapIsSet fs.inodeBmap d₂ = true ∧ (fs.inodeTab d₂).type = .fsDir
  falta : fsiDirSearch fs d₂ nome₂.val = some (fs, none)

/-- When the operation gives back every lock it takes: the directory of `fs_mkdir` is in use, and
`fs_create` does not fail inside `fs_copy`. -/
def Operacao.Devolve (fs : Fs) : Operacao → Prop
  | mkdir nulo dir newdir =>
      nulo = false → dir < itabSize → ¬ badName newdir → bmapIsSet fs.inodeBmap dir = true
  | copy nulo d₁ nome₁ d₂ nome₂ => CriaDestino fs nulo d₁ nome₁ d₂ nome₂ → PodeCriar fs d₂
  | _ => True

/-- A path that leaves the lock taken, or gives it back once too often. -/
def Desemparelhadas (l : List Chamada) : Prop :=
  l = [.iniciaEscrita] ∨ ∃ l', Emparelhadas l' ∧ l = l' ++ [.terminaEscrita]

theorem caminhoMkdir_pares_iff {fs : Fs} {nulo : Bool} {dir : ℕ} {newdir : CString} {p : Caminho}
    (hp : caminhoMkdir fs nulo dir newdir = some p) :
    (Operacao.mkdir nulo dir newdir).Devolve fs ∧ Emparelhadas p.chamadas ∨
      ¬ (Operacao.mkdir nulo dir newdir).Devolve fs ∧ Desemparelhadas p.chamadas := by
  unfold caminhoMkdir at hp
  by_cases hargs : nulo = true ∨ itabSize ≤ dir
  · rw [if_pos hargs] at hp
    refine .inl ⟨fun hn hd => ?_, Pares.ret _ p hp⟩
    obtain hn' | hd' := hargs
    · rw [hn'] at hn
      cases hn
    · omega
  by_cases hb : badName newdir
  · rw [if_neg hargs, if_pos hb] at hp
    exact .inl ⟨fun _ _ hb' => absurd hb hb', Pares.ret _ p hp⟩
  rw [if_neg hargs, if_neg hb] at hp
  by_cases hset : bmapIsSet fs.inodeBmap dir = true
  · have hset' : (!bmapIsSet fs.inodeBmap dir) = false := by rw [hset]; rfl
    rw [hset', if_neg (by decide)] at hp
    have hpares : Pares (apos .iniciaEscrita (if (fs.inodeTab dir).type ≠ .fsDir then
        some ⟨[.terminaEscrita], -1⟩ else caminhoEntrada fs dir newdir)) :=
      .escrita (.ite (.ret _ _) (caminhoEntrada_termina fs dir newdir))
    exact .inl ⟨fun _ _ _ => hset, hpares p hp⟩
  · have hset' : (!bmapIsSet fs.inodeBmap dir) = true := by simpa using hset
    rw [if_pos hset'] at hp
    rw [not_or] at hargs
    refine .inr ⟨fun hdev => hset (hdev (by simpa using hargs.1) (by omega) hb), .inl ?_⟩
    rw [← Option.some.inj hp]

/-- The calls of `fs_copy` on the paths that create no destination. -/
theorem caminhoCopyInodes_chamadas (fs : Fs) (para : ℕ) :
    (caminhoCopyInodes fs para).chamadas = [.terminaEscrita] := by
  unfold caminhoCopyInodes
  split <;> rfl

/-- Inside `fs_copy` the call of `fs_create` fails when there is no i-node or no block. -/
theorem caminhoCreate_estado_iff {fs : Fs} {dir : ℕ} {file : CString} {p : Caminho}
    (hb : ¬ badName file) (hset : bmapIsSet fs.inodeBmap dir = true)
    (ht : (fs.inodeTab dir).type = .fsDir) (hs : fsiDirSearch fs dir file.val = some (fs, none))
    (hp : caminhoCreate fs false dir file = some p) : p.estado = -1 ↔ ¬ PodeCriar fs dir := by
  unfold caminhoCreate at hp
  by_cases hd : itabSize ≤ dir
  · rw [if_pos (.inr hd)] at hp
    rw [← Option.some.inj hp]
    exact iff_of_true rfl fun hpode => absurd hpode.1 (by omega)
  have hset' : (!bmapIsSet fs.inodeBmap dir) = false := by rw [hset]; rfl
  rw [if_neg (by simp [hd]), if_neg hb, hset', if_neg (by decide), if_neg (not_not.mpr ht)] at hp
  obtain ⟨q, hq, rfl⟩ := Option.map_eq_some_iff.mp hp
  unfold caminhoEntrada at hq
  rw [hs, Option.bind_some] at hq
  simp only [Option.isSome_none, Bool.false_eq_true, if_false] at hq
  cases hfree : fsiBmapFindFree fs.inodeBmap itabSize with
  | none =>
      rw [hfree] at hq
      rw [← Option.some.inj hq]
      exact iff_of_true rfl fun hpode => hpode.2.1 hfree
  | some n =>
      rw [hfree] at hq
      dsimp only at hq
      split at hq
      · rename_i hfull
        rw [← Option.some.inj hq]
        exact iff_of_true rfl fun hpode => hpode.2.2 hfull.1 hfull.2
      · rename_i hfull
        rw [← Option.some.inj hq]
        refine iff_of_false (by decide) (not_not.mpr ⟨by omega, by simp [hfree], fun hz hn => ?_⟩)
        exact hfull ⟨hz, hn⟩

theorem caminhoCopyNova_chamadas {fs : Fs} {d₂ : ℕ} {nome₂ : CString} {p : Caminho}
    (hb : ¬ badName nome₂) (hset : bmapIsSet fs.inodeBmap d₂ = true)
    (ht : (fs.inodeTab d₂).type = .fsDir) (hs : fsiDirSearch fs d₂ nome₂.val = some (fs, none))
    (hp : caminhoCopyNova fs d₂ nome₂ = some p) :
    PodeCriar fs d₂ ∧ Emparelhadas (.iniciaEscrita :: p.chamadas) ∨
      ¬ PodeCriar fs d₂ ∧ Desemparelhadas (.iniciaEscrita :: p.chamadas) := by
  obtain ⟨q, hq, rfl⟩ := Option.map_eq_some_iff.mp hp
  obtain ⟨criacao, hcriacao, hq⟩ := Option.bind_eq_some_iff.mp hq
  obtain ⟨r, hr, rfl⟩ := Option.map_eq_some_iff.mp hq
  have hiff := caminhoCreate_estado_iff hb hset ht hs hcriacao
  -- the first pair is that of the copy, the next those of the creation
  have hpares : Emparelhadas (.iniciaEscrita :: .terminaEscrita :: criacao.chamadas) :=
    .escrita (caminhoCreate_pares fs false d₂ nome₂ criacao hcriacao)
  split at hr
  · rename_i hest
    have hrc : r.chamadas = [.terminaEscrita] := by rw [← Option.some.inj hr]
    refine .inr ⟨hiff.mp hest, .inr ⟨_, hpares, ?_⟩⟩
    rw [hrc]
    rfl
  · rename_i hest
    obtain ⟨r', hr', hr⟩ := Option.bind_eq_some_iff.mp hr
    obtain ⟨x, hx, rfl⟩ := Option.map_eq_some_iff.mp hr
    have hxc : x.chamadas = [.terminaEscrita] := by
      obtain ⟨⟨fs₂, found⟩, -, rfl⟩ := Option.map_eq_some_iff.mp hx
      cases found with
      | none => rfl
      | some para => exact caminhoCopyInodes_chamadas fs₂ para
    refine .inl ⟨not_not.mp fun hpode => hest (hiff.mpr hpode), ?_⟩
    dsimp only
    rw [hxc]
    exact hpares.append (.escrita .nil)

theorem caminhoCopy_pares_iff {fs : Fs} {nulo : Bool} {d₁ : ℕ} {nome₁ : CString} {d₂ : ℕ}
    {nome₂ : CString} {p : Caminho} (hp : caminhoCopy fs nulo d₁ nome₁ d₂ nome₂ = some p) :
    (Operacao.copy nulo d₁ nome₁ d₂ nome₂).Devolve fs ∧ Emparelhadas p.chamadas ∨
      ¬ (Operacao.copy nulo d₁ nome₁ d₂ nome₂).Devolve fs ∧ Desemparelhadas p.chamadas := by
  -- a path that does not come to the creation
  have hfora : ∀ {r : Option Caminho}, ¬ CriaDestino fs nulo d₁ nome₁ d₂ nome₂ →
      Termina .terminaEscrita r → apos .iniciaEscrita r = some p →
      (Operacao.copy nulo d₁ nome₁ d₂ nome₂).Devolve fs ∧ Emparelhadas p.chamadas ∨
        ¬ (Operacao.copy nulo d₁ nome₁ d₂ nome₂).Devolve fs ∧ Desemparelhadas p.chamadas :=
    fun hno hr hp => .inl ⟨fun h => absurd h hno, Pares.escrita hr p hp⟩
  unfold caminhoCopy at hp
  by_cases hargs : nulo = true ∨ itabSize ≤ d₁
  · rw [if_pos hargs] at hp
    refine .inl ⟨fun h => ?_, Pares.ret _ p hp⟩
    obtain hn | hd := hargs
    · rw [h.nulo] at hn
      cases hn
    · exact absurd h.origem.1 (by omega)
  by_cases hb₁ : badName nome₁
  · rw [if_neg hargs, if_pos hb₁] at hp
    exact .inl ⟨fun h => absurd hb₁ h.origem.2.1, Pares.ret _ p hp⟩
  rw [if_neg hargs, if_neg hb₁] at hp
  rw [not_or] at hargs
  by_cases hset₁ : (!bmapIsSet fs.inodeBmap d₁) = true
  · rw [if_pos hset₁] at hp
    exact hfora (fun h => by simp [h.origem.2.2.1] at hset₁) (.ret _ _) hp
  by_cases ht₁ : (fs.inodeTab d₁).type ≠ .fsDir
  · rw [if_neg hset₁, if_pos ht₁] at hp
    exact hfora (fun h => ht₁ h.origem.2.2.2) (.ret _ _) hp
  rw [if_neg hset₁, if_neg ht₁] at hp
  have hnf₁ : (fs.inodeTab d₁).type ≠ .fsFile := by rw [not_not.mp ht₁]; decide
  obtain ⟨found₁, hs₁⟩ := fsiDirSearch_of_not_file hnf₁ nome₁.val
  rw [hs₁, Option.bind_some] at hp
  cases found₁ with
  | none =>
      refine hfora (fun h => ?_) (.ret _ _) hp
      obtain ⟨de, hde, -⟩ := h.ficheiro
      cases hs₁.symm.trans hde
  | some de =>
      -- the source of the copy is this i-node
      have hde : CriaDestino fs nulo d₁ nome₁ d₂ nome₂ → (fs.inodeTab de).type = .fsFile := by
        intro h
        obtain ⟨de', hde', ht⟩ := h.ficheiro
        cases hs₁.symm.trans hde'
        exact ht
      dsimp only at hp
      by_cases htde : (fs.inodeTab de).type ≠ .fsFile
      · rw [if_pos htde] at hp
        exact hfora (fun h => htde (hde h)) (.ret _ _) hp
      by_cases hb₂ : badName nome₂
      · rw [if_neg htde, if_pos hb₂] at hp
        exact hfora (fun h => h.destino.1 hb₂) (.ret _ _) hp
      by_cases hset₂ : (!bmapIsSet fs.inodeBmap d₂) = true
      · rw [if_neg htde, if_neg hb₂, if_pos hset₂] at hp
        exact hfora (fun h => by simp [h.destino.2.1] at hset₂) (.ret _ _) hp
      by_cases ht₂ : (fs.inodeTab d₂).type ≠ .fsDir
      · rw [if_neg htde, if_neg hb₂, if_neg hset₂, if_pos ht₂] at hp
        exact hfora (fun h => ht₂ h.destino.2.2) (.ret _ _) hp
      rw [if_neg htde, if_neg hb₂, if_neg hset₂, if_neg ht₂] at hp
      have hnf₂ : (fs.inodeTab d₂).type ≠ .fsFile := by rw [not_not.mp ht₂]; decide
      obtain ⟨found₂, hs₂⟩ := fsiDirSearch_of_not_file hnf₂ nome₂.val
      rw [hs₂, Option.bind_some] at hp
      cases found₂ with
      | some para =>
          refine hfora (fun h => ?_) (fun q hq => ?_) hp
          · cases hs₂.symm.trans h.falta
          · rw [← Option.some.inj hq]
            exact caminhoCopyInodes_chamadas fs para
      | none =>
          have hcria : CriaDestino fs nulo d₁ nome₁ d₂ nome₂ :=
            ⟨by simpa using hargs.1, ⟨by omega, hb₁, by simpa using hset₁, not_not.mp ht₁⟩,
              ⟨de, hs₁, not_not.mp htde⟩, ⟨hb₂, by simpa using hset₂, not_not.mp ht₂⟩, hs₂⟩
          obtain ⟨q, hq, rfl⟩ := Option.map_eq_some_iff.mp hp
          obtain ⟨hpode, hpares⟩ | ⟨hpode, hdes⟩ := caminhoCopyNova_chamadas hb₂
            (by simpa using hset₂) (not_not.mp ht₂) hs₂ hq
          · exact .inl ⟨fun _ => hpode, hpares⟩
          · exact .inr ⟨fun hdev => hpode (hdev hcria), hdes⟩

/-- Every path, by what its operation finds. -/
theorem Operacao.caminho_pares_iff {fs : Fs} {op : Operacao} {p : Caminho}
    (hp : op.caminho fs = some p) :
    op.Devolve fs ∧ Emparelhadas p.chamadas ∨ ¬ op.Devolve fs ∧ Desemparelhadas p.chamadas := by
  cases op with
  | format =>
      rw [← Option.some.inj hp]
      exact .inl ⟨trivial, .escrita .nil⟩
  | diskUsage =>
      rw [← Option.some.inj hp]
      exact .inl ⟨trivial, .leitura .nil⟩
  | lookup nulo file => exact .inl ⟨trivial, caminhoLookup_pares fs nulo file p hp⟩
  | read nulo file offset count =>
      exact .inl ⟨trivial, caminhoRead_pares fs nulo file offset count p hp⟩
  | write nulo file offset count buffer lixo =>
      exact .inl ⟨trivial, caminhoWrite_pares fs nulo file offset count buffer lixo p hp⟩
  | create nulo dir file => exact .inl ⟨trivial, caminhoCreate_pares fs nulo dir file p hp⟩
  | mkdir nulo dir newdir => exact caminhoMkdir_pares_iff hp
  | readdir nulo dir maxentries =>
      exact .inl ⟨trivial, caminhoReaddir_pares fs nulo dir maxentries p hp⟩
  | remove nulo directorio nomeFicheiro =>
      exact .inl ⟨trivial, caminhoRemove_pares fs nulo directorio nomeFicheiro p hp⟩
  | copy nulo d₁ nome₁ d₂ nome₂ => exact caminhoCopy_pares_iff hp
  | append nulo d₁ nome₁ d₂ nome₂ =>
      exact .inl ⟨trivial, caminhoAppend_pares fs nulo d₁ nome₁ d₂ nome₂ p hp⟩
  | defrag emCurso => exact .inl ⟨trivial, caminhoDefrag_pares fs emCurso p hp⟩

/-! ## One call -/

namespace Sincronizacao

/-- The call of thread `t` has left the counters as they were, and `t` owns no monitor. -/
structure Devolvido (t : ℕ) (s s' : Sincronizacao) : Prop where
  activos : s'.activos = s.activos
  wanna : s'.wanna = s.wanna
  monitores : ∀ d, (s'.mon d).thr ≠ some t

theorem Emparelhadas.devolvido {s s' : Sincronizacao} {t : ℕ} {troca : Bool} {l : List Chamada}
    (hl : Emparelhadas l) (hf : s.Fora t) (hr : Sincronizacao.correr t troca l s = some s') :
    Devolvido t s s' := by
  obtain ⟨hf', ha, hw⟩ := hl.correr hf hr
  exact ⟨ha, hw, fun d => SthreadLib.Monitor.thr_ne_of_lugares (hf' d)⟩

theorem not_devolvido {s s' : Sincronizacao} {t : ℕ} {troca : Bool} {l : List Chamada}
    (hl : Desemparelhadas l) (hf : s.Fora t) (hr : correr t troca l s = some s') :
    ¬ Devolvido t s s' := by
  intro hdev
  obtain rfl | ⟨l', hl', rfl⟩ := hl
  · obtain ⟨s₁, h₁, h⟩ := correr_cons hr
    obtain rfl := Option.some.inj h
    obtain ⟨-, ha, -⟩ := iniciaEscrita_spec hf h₁
    have := congrFun (ha.symm.trans hdev.activos) .escritor
    rw [Function.update_self] at this
    omega
  · obtain ⟨s₁, h₁, h⟩ := correr_append hr
    obtain ⟨-, ha, -⟩ := hl'.correr hf h₁
    obtain ⟨s₂, h₂, h⟩ := correr_cons h
    obtain rfl := Option.some.inj h
    have hesc := terminaEscrita_escritores h₂
    unfold escritores at hesc
    rw [hdev.activos, ha] at hesc
    omega

end Sincronizacao

/-! ## Runs -/

/-- A call of an operation by a thread; `troca` is as in `Monitor.exit`. -/
structure Execucao where
  thread : ℕ
  troca : Bool
  op : Operacao

/-- The call runs alone, on the file system and on its lock. -/
def Execucao.passo (s : Fs × Sincronizacao) (a : Execucao) :
    Option ((Fs × Sincronizacao) × ℤ) :=
  (a.op.executar s.1).bind fun r =>
    (a.op.caminho s.1).bind fun p =>
      (Sincronizacao.correr a.thread a.troca p.chamadas s.2).map fun s' => ((r.1, s'), r.2)

theorem Execucao.passo_eq_some {s s' : Fs × Sincronizacao} {a : Execucao} {estado : ℤ}
    (h : a.passo s = some (s', estado)) :
    ∃ p, a.op.caminho s.1 = some p ∧
      Sincronizacao.correr a.thread a.troca p.chamadas s.2 = some s'.2 := by
  obtain ⟨r, -, h⟩ := Option.bind_eq_some_iff.mp h
  obtain ⟨p, hp, h⟩ := Option.bind_eq_some_iff.mp h
  obtain ⟨s₁, hs₁, he⟩ := Option.map_eq_some_iff.mp h
  obtain ⟨rfl, -⟩ := Prod.mk.inj he
  exact ⟨p, hp, hs₁⟩

/-- On a free lock a call that gives it back returns, and the lock is free again. -/
theorem Execucao.passo_livre {fs : Fs} {a : Execucao} {r : Fs × ℤ} (hdev : a.op.Devolve fs)
    (hr : a.op.executar fs = some r) (turno : ℤ) (thread : ℕ → Posicao) :
    ∃ turno', a.passo (fs, Sincronizacao.livre turno thread) =
      some ((r.1, Sincronizacao.livre turno' thread), r.2) := by
  have hest := Operacao.caminho_estado fs a.op
  rw [hr] at hest
  obtain ⟨p, hp, -⟩ := Option.map_eq_some_iff.mp hest
  obtain ⟨-, hpares⟩ | ⟨hno, -⟩ := Operacao.caminho_pares_iff hp
  · obtain ⟨turno', hc⟩ := hpares.correr_livre a.thread a.troca turno thread
    exact ⟨turno', by simp [passo, hr, hp, hc]⟩
  · exact absurd hdev hno

/-- A thread outside the lock gets out of a call as it went in exactly when the operation gives
back what it takes. -/
theorem Execucao.devolvido_iff {s s' : Fs × Sincronizacao} {a : Execucao} {estado : ℤ}
    (hf : s.2.Fora a.thread) (h : a.passo s = some (s', estado)) :
    Sincronizacao.Devolvido a.thread s.2 s'.2 ↔ a.op.Devolve s.1 := by
  obtain ⟨p, hp, hr⟩ := passo_eq_some h
  obtain ⟨hdev, hpares⟩ | ⟨hdev, hdes⟩ := Operacao.caminho_pares_iff hp
  · exact iff_of_true (hpares.devolvido hf hr) hdev
  · exact iff_of_false (Sincronizacao.not_devolvido hdes hf hr) hdev

/-- In a run of calls that give the lock back, it is free after every call; and the next call to
return gives it back exactly when its condition holds. -/
theorem fs_devolve_o_lock (numBlocks : ℕ) (pilha : ℕ → ℤ) (turno : ℤ) (as : List Execucao)
    (has : Runs.Permitted Execucao.passo (fun s a => a.op.Devolve s.1)
      (fsFormat (fsNew numBlocks pilha), Sincronizacao.inicial turno) as)
    {s : Fs × Sincronizacao} {os : List ℤ}
    (hrun : Runs.run Execucao.passo
      (fsFormat (fsNew numBlocks pilha), Sincronizacao.inicial turno) as = some (s, os)) :
    (∃ turno', s.2 = Sincronizacao.livre turno' fun _ => .fora) ∧
      ∀ a s' estado, Execucao.passo s a = some (s', estado) →
        (Sincronizacao.Devolvido a.thread s.2 s'.2 ↔ a.op.Devolve s.1) := by
  have hlivre : ∃ turno', s.2 = Sincronizacao.livre turno' fun _ => .fora := by
    refine Runs.run_invariant (I := fun s : Fs × Sincronizacao =>
      ∃ turno', s.2 = Sincronizacao.livre turno' fun _ => .fora) ?_ ⟨turno, rfl⟩ has hrun
    rintro s a s' estado ⟨turno', hs⟩ hdev h
    obtain ⟨r, hr, -⟩ := Option.bind_eq_some_iff.mp h
    obtain ⟨turno'', h'⟩ := Execucao.passo_livre hdev hr turno' fun _ => .fora
    rw [← hs] at h'
    rw [← (Prod.mk.inj (Option.some.inj (h'.symm.trans h))).1]
    exact ⟨turno'', rfl⟩
  refine ⟨hlivre, fun a s' estado h => Execucao.devolvido_iff ?_ h⟩
  obtain ⟨turno', hs⟩ := hlivre
  rw [hs]
  exact Sincronizacao.livre_fora _ _ _

instance (fs : Fs) (dir : ℕ) : Decidable (PodeCriar fs dir) := by
  unfold PodeCriar
  infer_instance

/-- `Devolve`, where a copy can create in any case. -/
def Operacao.DevolveAvaliado (fs : Fs) : Operacao → Prop
  | mkdir nulo dir newdir =>
      nulo = false → dir < itabSize → ¬ badName newdir → bmapIsSet fs.inodeBmap dir = true
  | copy _ _ _ d₂ _ => PodeCriar fs d₂
  | _ => True

instance (fs : Fs) (op : Operacao) : Decidable (op.DevolveAvaliado fs) := by
  cases op <;> unfold Operacao.DevolveAvaliado <;> infer_instance

theorem Operacao.DevolveAvaliado.devolve {fs : Fs} {op : Operacao} (h : op.DevolveAvaliado fs) :
    op.Devolve fs := by
  cases op with
  | copy _ _ _ _ _ => exact fun _ => h
  | _ => exact h

/-- Two threads make a directory and a file in it, copy the file to a new name in the root, and
list that. -/
def execucoesComCopia : List Execucao :=
  [⟨0, false, .mkdir false 1 nomeA⟩, ⟨1, true, .create false 2 nomeB⟩,
    ⟨0, false, .copy false 2 nomeB 1 nomeC⟩, ⟨1, true, .readdir false 1 64⟩, ⟨0, true, .diskUsage⟩]

set_option maxRecDepth 100000 in
theorem fs_devolve_o_lock_copia :
    ∃ s os, Runs.run Execucao.passo
        (fsFormat (fsNew Fs.discoServidor fun _ => 7), Sincronizacao.inicial 0)
        execucoesComCopia = some (s, os) ∧
      (s.1.typeAt 2 = .fsDir ∧ s.1.entradas 1 = [(nomeA.val, 2), (nomeC.val, 4)]) ∧
      (∃ turno', s.2 = Sincronizacao.livre turno' fun _ => .fora) ∧
        ∀ a s' estado, Execucao.passo s a = some (s', estado) →
          (Sincronizacao.Devolvido a.thread s.2 s'.2 ↔ a.op.Devolve s.1) := by
  have has : Runs.Permitted Execucao.passo (fun s a => a.op.DevolveAvaliado s.1)
      (fsFormat (fsNew Fs.discoServidor fun _ => 7), Sincronizacao.inicial 0)
      execucoesComCopia := by
    rw [Fs.fsFormat_eq_formatado]
    decide +kernel
  obtain ⟨s, os, hrun, hfeito⟩ : ∃ s os, Runs.run Execucao.passo
        (fsFormat (fsNew Fs.discoServidor fun _ => 7), Sincronizacao.inicial 0)
        execucoesComCopia = some (s, os) ∧
      s.1.typeAt 2 = .fsDir ∧ s.1.entradas 1 = [(nomeA.val, 2), (nomeC.val, 4)] := by
    rw [Fs.fsFormat_eq_formatado]
    exact Runs.exists_run_of_any (by decide +kernel)
  exact ⟨s, os, hrun, hfeito, fs_devolve_o_lock Fs.discoServidor (fun _ => 7) 0 execucoesComCopia
    (has.mono fun _ _ h => h.devolve) hrun⟩

/-- `fs_mkdir` in a directory that does not exist answers -1 and keeps the lock. -/
theorem fs_mkdir_fica_com_o_lock :
    ∃ s', Execucao.passo (fsFormat (fsNew Fs.discoServidor fun _ => 7), Sincronizacao.inicial 0)
        ⟨0, false, .mkdir false 5 nomeA⟩ = some (s', -1) ∧
      ¬ Sincronizacao.Devolvido 0 (Sincronizacao.inicial 0) s'.2 ∧ s'.2.escritores = 1 ∧
      (s'.2.mon .escritor).thr = some 0 := by
  obtain ⟨-, -, -, -, -, -, hal, -, -⟩ := Fs.inicial_spec fun _ => 7
  have hset : bmapIsSet (Fs.inicial fun _ => 7).inodeBmap 5 = false := hal 5
  have hargs : ¬ (itabSize ≤ 5 ∨ badName nomeA) := by decide
  have hexec : (Operacao.mkdir false 5 nomeA).executar (Fs.inicial fun _ => 7) =
      some (Fs.inicial fun _ => 7, -1) := by
    rw [Operacao.executar_mkdir, fsMkdir, fsCriar, if_neg hargs, hset]
    rfl
  have hcam : (Operacao.mkdir false 5 nomeA).caminho (Fs.inicial fun _ => 7) =
      some ⟨[.iniciaEscrita], -1⟩ := by
    rw [Operacao.caminho, caminhoMkdir, if_neg (by decide), if_neg (by decide), hset]
    rfl
  have hcorrer : Sincronizacao.correr 0 false [.iniciaEscrita] (Sincronizacao.inicial 0) =
      some (Sincronizacao.tomado 0 .escritor 0 fun _ => .fora) := by
    have := Sincronizacao.livre_iniciaEscrita (t := 0) 0 fun _ => .fora
    show ((Sincronizacao.livre 0 fun _ => .fora).iniciaEscrita 0).bind _ = _
    rw [this]
    rfl
  refine ⟨(Fs.inicial fun _ => 7, Sincronizacao.tomado 0 .escritor 0 fun _ => .fora), ?_,
    fun hdev => ?_, rfl, rfl⟩
  · show Execucao.passo (Fs.inicial fun _ => 7, Sincronizacao.inicial 0) _ = _
    simp only [Execucao.passo, hexec, hcam, hcorrer, Option.bind_some, Option.map_some]
  · exact hdev.monitores .escritor rfl

end ThreadScheduler.SnfsServer
