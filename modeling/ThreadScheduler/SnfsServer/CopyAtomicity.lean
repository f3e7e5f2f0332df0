import ThreadScheduler.SnfsServer.KeptInodes
import ThreadScheduler.SnfsServer.Requests

/-!
# Copies and the calls in between

`fs_copy` gives the writer lock back to let `fs_create` make its destination, and takes it again
afterwards. In the two stretches without the lock other clients make calls, while the i-node of the
source is kept as it was found.
-/
namespace ThreadScheduler.SnfsServer

open Fs

/-- A call of another client. -/
inductive Alheia where
  | op (op : FsOp)
  | lookup (file : CString)
  | readdir (dir : ℕ) (maxentries : ℤ)
  | getAttrs (file : ℕ)

namespace Alheia

/-- What a call leaves, and what it answers if it is one of `FsOp`. -/
def exec (fs : Fs) : Alheia → Option (Fs × Option Resposta)
  | op o => (o.exec fs).map fun r => (r.1, some r.2)
  | lookup file => (fsLookup fs file).map fun r => (r.1, none)
  | readdir dir maxentries => (fsReaddir fs dir maxentries).map fun r => (r.1, none)
  | getAttrs file => (fsGetAttrs fs file).map fun _ => (fs, none)

/-- The call removes the i-node. -/
def Remove (i : ℕ) : Alheia → Option Resposta → Prop
  | op o, some r => o.Remove i r
  | _, _ => False

end Alheia

/-- Where a call of `fs_copy` is: in front of its first section, without the lock before or after
`fs_create`, and at its end, with -1 or 0. -/
inductive FaseCopia where
  | inicio
  | semDestino (de : ℕ)
  | criado (de : ℕ)
  | falhou
  | copiou (de para : ℕ)

def FaseCopia.resultado : FaseCopia → Option ℤ
  | falhou => some (-1)
  | copiou _ _ => some 0
  | _ => none

/-- The copy does not hold the lock, and is not over. -/
def FaseCopia.semTranca : FaseCopia → Bool
  | semDestino _ => true
  | criado _ => true
  | _ => false

/-- The copy takes its next section, or another client makes a call. -/
inductive Vez where
  | copia
  | outro (c : Alheia)

/-! ## The sections of a copy -/

/-- The end of `fs_copy`, with both i-nodes. -/
def copiaFinal (fs : Fs) (de para : ℕ) : Fs × FaseCopia :=
  ((fsCopyInodes fs de para).1,
    if (fsCopyInodes fs de para).2 = 0 then .copiou de para else .falhou)

section Copia

variable (d₁ : ℕ) (nome₁ : CString) (d₂ : ℕ) (nome₂ : CString)

/-- From the start to the first `terminaEscrita`. -/
def copiaInicio (fs : Fs) : Option (Fs × FaseCopia) :=
  if itabSize ≤ d₁ ∨ badName nome₁ then some (fs, .falhou)
  else if !bmapIsSet fs.inodeBmap d₁ then some (fs, .falhou)
  else if (fs.inodeTab d₁).type ≠ .fsDir then some (fs, .falhou)
  else
    (fsiDirSearch fs d₁ nome₁.val).bind fun (fs, found) =>
      match found with
      | none => some (fs, .falhou)
      | some de =>
          if (fs.inodeTab de).type ≠ .fsFile then some (fs, .falhou)
          else if badName nome₂ then some (fs, .falhou)
          else if !bmapIsSet fs.inodeBmap d₂ then some (fs, .falhou)
          else if (fs.inodeTab d₂).type ≠ .fsDir then some (fs, .falhou)
          else
            (fsiDirSearch fs d₂ nome₂.val).bind fun (fs, found) =>
              match found with
              | some para => some (copiaFinal fs de para)
              | none => some (fs, .semDestino de)

/-- The call of `fs_create`, which takes the lock for itself. -/
def copiaCria (de : ℕ) (fs : Fs) : Option (Fs × FaseCopia) :=
  (fsCreate fs d₂ nome₂).map fun (fs, created) =>
    match created with
    | none => (fs, .falhou)
    | some _ => (fs, .criado de)

/-- From the second `iniciaEscrita` on. -/
def copiaRetoma (de : ℕ) (fs : Fs) : Option (Fs × FaseCopia) :=
  (fsiDirSearch fs d₂ nome₂.val).map fun (fs, found) =>
    match found with
    | none => (fs, .falhou)
    | some para => copiaFinal fs de para

/-- One section of the copy, or a call between two of them. -/
def passo : Fs × FaseCopia → Vez → Option ((Fs × FaseCopia) × Unit)
  | (fs, .inicio), .copia => (copiaInicio d₁ nome₁ d₂ nome₂ fs).map fun s => (s, ())
  | (fs, .semDestino de), .copia => (copiaCria d₂ nome₂ de fs).map fun s => (s, ())
  | (fs, .criado de), .copia => (copiaRetoma d₂ nome₂ de fs).map fun s => (s, ())
  | (fs, fase), .outro c =>
      if fase.semTranca then (c.exec fs).map fun r => ((r.1, fase), ()) else none
  | _, _ => none

theorem passo_outro (fs : Fs) (fase : FaseCopia) (c : Alheia) :
    passo d₁ nome₁ d₂ nome₂ (fs, fase) (.outro c) =
      if fase.semTranca then (c.exec fs).map fun r => ((r.1, fase), ()) else none := by
  cases fase <;> rfl

/-- What the rest of the copy does if nothing comes in between. -/
def acabar : Fs × FaseCopia → Option (Fs × ℤ)
  | (fs, .inicio) => fsCopy fs d₁ nome₁ d₂ nome₂
  | (fs, .semDestino de) => (copiaCria d₂ nome₂ de fs).bind fun s =>
      match s with
      | (fs, .criado de) => (copiaRetoma d₂ nome₂ de fs).map fun s =>
          (s.1, s.2.resultado.getD (-1))
      | (fs, _) => some (fs, -1)
  | (fs, .criado de) => (copiaRetoma d₂ nome₂ de fs).map fun s => (s.1, s.2.resultado.getD (-1))
  | (fs, .falhou) => some (fs, -1)
  | (fs, .copiou _ _) => some (fs, 0)

end Copia

section Sozinha

variable {d₁ : ℕ} {nome₁ : CString} {d₂ : ℕ} {nome₂ : CString} {fs fs' : Fs}

theorem copiaFinal_eq (fs : Fs) (de para : ℕ) :
    ((copiaFinal fs de para).1, (copiaFinal fs de para).2.resultado.getD (-1)) =
      fsCopyInodes fs de para := by
  unfold copiaFinal fsCopyInodes
  split <;> rfl

theorem acabar_final (fs : Fs) (de para : ℕ) :
    acabar d₁ nome₁ d₂ nome₂ (copiaFinal fs de para) = some (fsCopyInodes fs de para) := by
  unfold copiaFinal fsCopyInodes
  split <;> rfl

theorem acabar_inicio {s : Fs × FaseCopia} (h : copiaInicio d₁ nome₁ d₂ nome₂ fs = some s) :
    acabar d₁ nome₁ d₂ nome₂ s = fsCopy fs d₁ nome₁ d₂ nome₂ := by
  rw [copiaInicio] at h
  rw [fsCopy]
  split at h
  · rename_i hc
    rw [if_pos hc, ← Option.some.inj h]
    rfl
  rename_i hc
  rw [if_neg hc]
  split at h
  · rename_i hc
    rw [if_pos hc, ← Option.some.inj h]
    rfl
  rename_i hc
  rw [if_neg hc]
  split at h
  · rename_i hc
    rw [if_pos hc, ← Option.some.inj h]
    rfl
  rename_i hc
  rw [if_neg hc]
  obtain ⟨⟨fs₁, found⟩, hs, h⟩ := Option.bind_eq_some_iff.mp h
  rw [hs, Option.bind_some]
  cases found with
  | none =>
      rw [← Option.some.inj h]
      rfl
  | some de =>
      simp only at h ⊢
      split at h
      · rename_i hc
        rw [if_pos hc, ← Option.some.inj h]
        rfl
      rename_i hc
      rw [if_neg hc]
      split at h
      · rename_i hc
        rw [if_pos hc, ← Option.some.inj h]
        rfl
      rename_i hc
      rw [if_neg hc]
      split at h
      · rename_i hc
        rw [if_pos hc, ← Option.some.inj h]
        rfl
      rename_i hc
      rw [if_neg hc]
      split at h
      · rename_i hc
        rw [if_pos hc, ← Option.some.inj h]
        rfl
      rename_i hc
      rw [if_neg hc]
      obtain ⟨⟨fs₂, found⟩, hs, h⟩ := Option.bind_eq_some_iff.mp h
      rw [hs, Option.bind_some]
      cases found with
      | some para =>
          rw [← Option.some.inj h]
          exact acabar_final fs₂ de para
      | none =>
          rw [← Option.some.inj h, acabar, copiaCria]
          cases fsCreate fs₂ d₂ nome₂ with
          | none => rfl
          | some r =>
              obtain ⟨fs₃, created⟩ := r
              cases created with
              | none => rfl
              | some n =>
                  simp only [Option.map_some, Option.bind_some, copiaRetoma]
                  cases fsiDirSearch fs₃ d₂ nome₂.val with
                  | none => rfl
                  | some r =>
                      obtain ⟨fs₄, found⟩ := r
                      cases found with
                      | none => rfl
                      | some para => exact congrArg some (copiaFinal_eq fs₄ de para)

/-- With no call in between, the sections are `fs_copy`. -/
theorem fsCopy_of_run {vs : List Vez} {fase : FaseCopia} {us : List Unit} {r : ℤ}
    (hvs : ∀ v ∈ vs, v = .copia)
    (h : Runs.run (passo d₁ nome₁ d₂ nome₂) (fs, .inicio) vs = some ((fs', fase), us))
    (hr : fase.resultado = some r) : fsCopy fs d₁ nome₁ d₂ nome₂ = some (fs', r) := by
  have hend : acabar d₁ nome₁ d₂ nome₂ (fs', fase) = fsCopy fs d₁ nome₁ d₂ nome₂ := by
    refine Runs.run_invariant (P := fun _ v => v = .copia)
      (I := fun s => acabar d₁ nome₁ d₂ nome₂ s = fsCopy fs d₁ nome₁ d₂ nome₂)
      (fun s v s' u hI hv hs => ?_) rfl (Runs.permitted_of_forall fun v hv _ => hvs v hv) h
    subst hv
    rw [← hI]
    obtain ⟨fs₀, fase₀⟩ := s
    cases fase₀ with
    | inicio =>
        obtain ⟨s₁, hs₁, hx⟩ := Option.map_eq_some_iff.mp hs
        obtain ⟨rfl, -⟩ := Prod.mk.inj hx
        exact acabar_inicio hs₁
    | semDestino de =>
        obtain ⟨s₁, hs₁, hx⟩ := Option.map_eq_some_iff.mp hs
        obtain ⟨rfl, -⟩ := Prod.mk.inj hx
        rw [acabar.eq_2, hs₁, Option.bind_some]
        obtain ⟨⟨fs₂, created⟩, -, rfl⟩ := Option.map_eq_some_iff.mp hs₁
        cases created <;> rfl
    | criado de =>
        obtain ⟨s₁, hs₁, hx⟩ := Option.map_eq_some_iff.mp hs
        obtain ⟨rfl, -⟩ := Prod.mk.inj hx
        rw [acabar.eq_3, hs₁, Option.map_some]
        obtain ⟨⟨fs₂, found⟩, -, rfl⟩ := Option.map_eq_some_iff.mp hs₁
        cases found with
        | none => rfl
        | some para =>
            exact (acabar_final fs₂ de para).trans (congrArg some (copiaFinal_eq fs₂ de para)).symm
    | falhou => cases hs
    | copiou de para => cases hs
  rw [← hend]
  cases fase with
  | falhou => exact congrArg (fun x => some (fs', x)) (Option.some.inj hr)
  | copiou de para => exact congrArg (fun x => some (fs', x)) (Option.some.inj hr)
  | inicio => cases hr
  | semDestino de => cases hr
  | criado de => cases hr

end Sozinha

/-! ## What the calls keep -/

section Mantem

variable {d₁ : ℕ} {nome₁ : CString} {d₂ : ℕ} {nome₂ : CString} {fs fs' : Fs} {i : ℕ}

theorem fsiDirSearchLoop_same {dir : ℕ} {file : List Byte} (num : ℕ) {iblock : ℕ}
    {found : Option ℕ} (h : fsiDirSearchLoop fs dir file num iblock = some (fs', found)) :
    SameInodes fs fs' := by
  induction num using Nat.strong_induction_on generalizing fs iblock with
  | _ num ih =>
      rw [fsiDirSearchLoop] at h
      split at h
      · rw [(Prod.mk.inj (Option.some.inj h)).1]
        exact SameInodes.refl fs'
      · rename_i hne
        obtain ⟨⟨fs₁, page⟩, hl, h⟩ := Option.bind_eq_some_iff.mp h
        simp only at h
        split at h
        · rw [← (Prod.mk.inj (Option.some.inj h)).1]
          exact lerBloco_same hl
        · exact (lerBloco_same hl).trans (ih _ (sub_page_lt hne) h)

theorem fsiDirSearch_same {dir : ℕ} {file : List Byte} {found : Option ℕ}
    (h : fsiDirSearch fs dir file = some (fs', found)) : SameInodes fs fs' :=
  fsiDirSearchLoop_same _ h

theorem fsLookupLoop_same {dir : ℕ} {fileid fileid' : Option ℕ} (tokens : List (List Byte))
    {status : ℤ} (h : fsLookupLoop fs dir fileid tokens = some (fs', status, fileid')) :
    SameInodes fs fs' := by
  induction tokens generalizing fs dir fileid with
  | nil =>
      rw [(Prod.mk.inj (Option.some.inj h)).1]
      exact SameInodes.refl fs'
  | cons token tokens ih =>
      rw [fsLookupLoop] at h
      split at h
      · rw [(Prod.mk.inj (Option.some.inj h)).1]
        exact SameInodes.refl fs'
      split at h
      · rw [(Prod.mk.inj (Option.some.inj h)).1]
        exact SameInodes.refl fs'
      obtain ⟨⟨fs₁, found⟩, hs, h⟩ := Option.bind_eq_some_iff.mp h
      refine (fsiDirSearch_same hs).trans ?_
      cases found with
      | none =>
          rw [(Prod.mk.inj (Option.some.inj h)).1]
          exact SameInodes.refl fs'
      | some fid => exact ih h

theorem fsLookup_same {file : CString} {r : ℤ × Option ℕ}
    (h : fsLookup fs file = some (fs', r)) : SameInodes fs fs' := by
  rw [fsLookup] at h
  split at h
  · rw [(Prod.mk.inj (Option.some.inj h)).1]
    exact SameInodes.refl fs'
  split at h
  · cases h
  · exact fsLookupLoop_same _ h

theorem fsReaddirLoop_same {dir : ℕ} (num : ℕ) {iblock : ℕ}
    {entries entries' : List (List Byte × FsItype)}
    (h : fsReaddirLoop fs dir num iblock entries = some (fs', entries')) : SameInodes fs fs' := by
  induction num using Nat.strong_induction_on generalizing fs iblock entries with
  | _ num ih =>
      rw [fsReaddirLoop] at h
      split at h
      · rw [(Prod.mk.inj (Option.some.inj h)).1]
        exact SameInodes.refl fs'
      · rename_i hne
        obtain ⟨⟨fs₁, page⟩, hl, h⟩ := Option.bind_eq_some_iff.mp h
        exact (lerBloco_same hl).trans (ih _ (sub_page_lt hne) h)

theorem fsReaddir_same {dir : ℕ} {maxentries : ℤ} {entries : Option (List (List Byte × FsItype))}
    (h : fsReaddir fs dir maxentries = some (fs', entries)) : SameInodes fs fs' := by
  rw [fsReaddir] at h
  split at h
  · rw [(Prod.mk.inj (Option.some.inj h)).1]
    exact SameInodes.refl fs'
  split at h
  · rw [(Prod.mk.inj (Option.some.inj h)).1]
    exact SameInodes.refl fs'
  split at h
  · rw [(Prod.mk.inj (Option.some.inj h)).1]
    exact SameInodes.refl fs'
  · obtain ⟨⟨fs₁, entries₁⟩, hl, hx⟩ := Option.map_eq_some_iff.mp h
    obtain ⟨rfl, -⟩ := Prod.mk.inj hx
    exact fsReaddirLoop_same _ hl

/-- A file in use stays in use, unless the call removes it. -/
theorem Alheia.exec_ficheiroUsado_iff {c : Alheia} {r : Option Resposta}
    (h : c.exec fs = some (fs', r)) (hi : fs.FicheiroUsado i) :
    fs'.FicheiroUsado i ↔ ¬c.Remove i r := by
  cases c with
  | op o =>
      obtain ⟨⟨fs₁, r₁⟩, ho, hx⟩ := Option.map_eq_some_iff.mp h
      obtain ⟨rfl, rfl⟩ := Prod.mk.inj hx
      exact exec_ficheiroUsado ho hi
  | lookup file =>
      obtain ⟨⟨fs₁, r₁⟩, ho, hx⟩ := Option.map_eq_some_iff.mp h
      obtain ⟨rfl, rfl⟩ := Prod.mk.inj hx
      exact iff_of_true ((fsLookup_same ho).ficheiroUsado_iff.mpr hi) id
  | readdir dir maxentries =>
      obtain ⟨⟨fs₁, r₁⟩, ho, hx⟩ := Option.map_eq_some_iff.mp h
      obtain ⟨rfl, rfl⟩ := Prod.mk.inj hx
      exact iff_of_true ((fsReaddir_same ho).ficheiroUsado_iff.mpr hi) id
  | getAttrs file =>
      obtain ⟨r₁, -, hx⟩ := Option.map_eq_some_iff.mp h
      obtain ⟨rfl, rfl⟩ := Prod.mk.inj hx
      exact iff_of_true hi id

theorem copiaInicio_casos {s : Fs × FaseCopia} (h : copiaInicio d₁ nome₁ d₂ nome₂ fs = some s) :
    s = (fs, .falhou) ∨ ∃ de, AdmiteNomes fs d₁ nome₁ d₂ nome₂ de ∧
      ((∃ para, s = copiaFinal fs de para) ∨ s = (fs, .semDestino de)) := by
  rw [copiaInicio] at h
  rcases nomes_casos (k := fun fs de found => match found with
      | some para => some (copiaFinal fs de para)
      | none => some (fs, .semDestino de)) h with ⟨hr, -⟩ | ⟨de, ha, h⟩
  · exact .inl hr
  refine .inr ⟨de, ha, ?_⟩
  cases hpara : fs.encontra d₂ nome₂.val with
  | some para =>
      rw [hpara] at h
      exact .inl ⟨para, (Option.some.inj h).symm⟩
  | none =>
      rw [hpara] at h
      exact .inr (Option.some.inj h).symm

/-- The sections of the copy remove no file. -/
theorem passo_copia_ficheiroUsado {s s' : Fs × FaseCopia} {u : Unit}
    (h : passo d₁ nome₁ d₂ nome₂ s .copia = some (s', u)) (hi : s.1.FicheiroUsado i) :
    s'.1.FicheiroUsado i := by
  have hfinal : ∀ fs de para, fs.FicheiroUsado i → (copiaFinal fs de para).1.FicheiroUsado i :=
    fun fs de para => (fsCopyInodes_ficheiroUsado fs de para).mpr
  obtain ⟨fs, fase⟩ := s
  cases fase with
  | inicio =>
      obtain ⟨s₁, hs₁, hx⟩ := Option.map_eq_some_iff.mp h
      obtain ⟨rfl, -⟩ := Prod.mk.inj hx
      rcases copiaInicio_casos hs₁ with rfl | ⟨de, -, ⟨para, rfl⟩ | rfl⟩
      · exact hi
      · exact hfinal fs de para hi
      · exact hi
  | semDestino de =>
      obtain ⟨s₁, hs₁, hx⟩ := Option.map_eq_some_iff.mp h
      obtain ⟨rfl, -⟩ := Prod.mk.inj hx
      obtain ⟨⟨fs₂, created⟩, hc, rfl⟩ := Option.map_eq_some_iff.mp hs₁
      have hi₂ := fsCriar_ficheiroUsado hc hi
      cases created <;> exact hi₂
  | criado de =>
      obtain ⟨s₁, hs₁, hx⟩ := Option.map_eq_some_iff.mp h
      obtain ⟨rfl, -⟩ := Prod.mk.inj hx
      obtain ⟨⟨fs₂, found⟩, hf, rfl⟩ := Option.map_eq_some_iff.mp hs₁
      have hi₂ := (fsiDirSearch_same hf).ficheiroUsado_iff.mpr hi
      cases found with
      | none => exact hi₂
      | some para => exact hfinal fs₂ de para hi₂
  | falhou => cases h
  | copiou de para => cases h

/-- What a copy answers 0 for: both i-nodes show the same bytes. -/
theorem fsCopyInodes_bytes {de para : ℕ} (h : (fsCopyInodes fs de para).2 = 0) :
    (fsCopyInodes fs de para).1.bytes para = (fsCopyInodes fs de para).1.bytes de := by
  by_cases hne : de = para
  · rw [hne]
  rw [fsCopyInodes] at h ⊢
  split at h
  · have h : (-1 : ℤ) = 0 := h
    exact absurd h (by decide)
  rename_i ht
  rw [if_neg ht]
  dsimp only
  generalize hfs₁ : libertarDestino fs para (offsetToBlocks (fs.inodeTab para).size) = fs₁
  have hsize₁ : (fs₁.inodeTab de).size = fs₁.sizeAt de := rfl
  rw [hsize₁]
  have hsame := copiarReferencias_same fs₁ de para 0 (offsetToBlocks (fs₁.sizeAt de))
  have hslot := copiarReferencias_slot fs₁ hne 0 (offsetToBlocks (fs₁.sizeAt de))
  generalize copiarReferencias fs₁ de para 0 (offsetToBlocks (fs₁.sizeAt de)) = fs₂ at *
  have hsize : ∀ j, (fs₂.setSize para (fs₁.sizeAt de)).sizeAt j =
      if j = para then fs₁.sizeAt de else fs₁.sizeAt j := by
    intro j
    rw [setSize_sizeAt, hsame.size]
  rw [bytes, bytes, hsize, hsize, if_pos rfl, if_neg hne]
  refine List.map_congr_left fun k hk => ?_
  have hk' := List.mem_range.mp hk
  have hq : k / blockSize < offsetToBlocks (fs₁.sizeAt de) := by
    rw [lt_offsetToBlocks]
    simp only [blockSize]
    omega
  rw [byteFicheiro, byteFicheiro, pagina, pagina, setSize_slot, setSize_slot, hslot, hslot,
    if_pos ⟨rfl, Nat.zero_le _, by omega⟩, if_neg (fun h => hne h.1)]
  rfl

end Mantem

/-! ## Atomicity -/

section Atomica

variable (d₁ : ℕ) (nome₁ : CString) (d₂ : ℕ) (nome₂ : CString)

/-- What a copy of the file `de` to `para` promises when it answers 0: the file is there all the
time, and at the end the destination has its bytes. -/
structure CopiaAtomica (fs fs' : Fs) (vs : List Vez) (de para : ℕ) : Prop where
  existe : ∀ ws, ws <+: vs → ∀ s us,
    Runs.run (passo d₁ nome₁ d₂ nome₂) (fs, .inicio) ws = some (s, us) → s.1.FicheiroUsado de
  igual : fs'.bytes para = fs'.bytes de

/-- The call made here does not remove the i-node. -/
def SemRemover (de : ℕ) (s : Fs × FaseCopia) : Vez → Prop
  | .copia => True
  | .outro c => s.2.semTranca = true → ∀ fs' r, c.exec s.1 = some (fs', r) → ¬c.Remove de r

variable {d₁ nome₁ d₂ nome₂} {fs fs' : Fs} {de : ℕ}

/-- What the copy knows of the i-node that it has found. -/
def Lembra (fs : Fs) (de : ℕ) : Fs × FaseCopia → Prop
  | (fs', .inicio) => fs' = fs
  | (_, .semDestino de') => de' = de
  | (_, .criado de') => de' = de
  | (_, .falhou) => True
  | (fs', .copiou de' para) => de' = de ∧ fs'.bytes para = fs'.bytes de

theorem copiaFinal_lembra (fs₀ fs : Fs) (de para : ℕ) : Lembra fs₀ de (copiaFinal fs de para) := by
  rw [copiaFinal]
  split
  · rename_i h
    exact ⟨rfl, fsCopyInodes_bytes h⟩
  · trivial

theorem Lembra.passo (hn : fs.encontra d₁ nome₁.val = some de) {s s' : Fs × FaseCopia} {v : Vez}
    {u : Unit} (h : Lembra fs de s) (hs : passo d₁ nome₁ d₂ nome₂ s v = some (s', u)) :
    Lembra fs de s' := by
  obtain ⟨fs₀, fase⟩ := s
  cases v with
  | outro c =>
      cases fase with
      | semDestino de' =>
          obtain ⟨r, -, hx⟩ := Option.map_eq_some_iff.mp hs
          obtain ⟨rfl, -⟩ := Prod.mk.inj hx
          exact h
      | criado de' =>
          obtain ⟨r, -, hx⟩ := Option.map_eq_some_iff.mp hs
          obtain ⟨rfl, -⟩ := Prod.mk.inj hx
          exact h
      | inicio => cases hs
      | falhou => cases hs
      | copiou de' para => cases hs
  | copia =>
      cases fase with
      | inicio =>
          obtain rfl : fs₀ = fs := h
          obtain ⟨s₁, hs₁, hx⟩ := Option.map_eq_some_iff.mp hs
          obtain ⟨rfl, -⟩ := Prod.mk.inj hx
          rcases copiaInicio_casos hs₁ with rfl | ⟨de', ha, hs₁⟩
          · trivial
          obtain rfl := Option.some.inj (ha.achado.symm.trans hn)
          rcases hs₁ with ⟨para, rfl⟩ | rfl
          · exact copiaFinal_lembra _ _ _ _
          · rfl
      | semDestino de' =>
          obtain ⟨s₁, hs₁, hx⟩ := Option.map_eq_some_iff.mp hs
          obtain ⟨rfl, -⟩ := Prod.mk.inj hx
          obtain ⟨⟨fs₂, created⟩, -, rfl⟩ := Option.map_eq_some_iff.mp hs₁
          cases created with
          | none => trivial
          | some n => exact h
      | criado de' =>
          obtain rfl : de' = de := h
          obtain ⟨s₁, hs₁, hx⟩ := Option.map_eq_some_iff.mp hs
          obtain ⟨rfl, -⟩ := Prod.mk.inj hx
          obtain ⟨⟨fs₂, found⟩, -, rfl⟩ := Option.map_eq_some_iff.mp hs₁
          cases found with
          | none => trivial
          | some para => exact copiaFinal_lembra _ _ _ _
      | falhou => cases hs
      | copiou de' para => cases hs

/-- The file is there after a step exactly if the call made does not remove it. -/
theorem semRemover_iff {s : Fs × FaseCopia} (v : Vez) (hi : s.1.FicheiroUsado de) :
    SemRemover de s v ↔ ∀ s' u, passo d₁ nome₁ d₂ nome₂ s v = some (s', u) →
      s'.1.FicheiroUsado de := by
  obtain ⟨fs, fase⟩ := s
  cases v with
  | copia => exact iff_of_true trivial fun s' u hs => passo_copia_ficheiroUsado hs hi
  | outro c =>
      rw [SemRemover, passo_outro]
      constructor
      · intro h s' u hs
        split at hs
        · rename_i hf
          obtain ⟨⟨fs₁, r⟩, hc, hx⟩ := Option.map_eq_some_iff.mp hs
          obtain ⟨rfl, -⟩ := Prod.mk.inj hx
          exact (Alheia.exec_ficheiroUsado_iff hc hi).mpr (h hf fs₁ r hc)
        · cases hs
      · intro h hf fs₁ r hc
        refine (Alheia.exec_ficheiroUsado_iff hc hi).mp (h (fs₁, fase) () ?_)
        rw [if_pos hf, hc]
        rfl

end Atomica

/-! ## A removal in between -/

section Exemplo

variable {fs : Fs}

theorem encontra_eq (h : fs.Consistent) {d : ℕ} (ht : fs.typeAt d = .fsDir) (nome : CString) :
    fs.encontra d nome.val = fs.procura d nome.val := by
  rw [encontra, h.fsiDirSearch_eq ht nome.property, Option.bind_some]

theorem copiaInicio_of_admite {d₁ d₂ de : ℕ} {nome₁ nome₂ : CString}
    (h : AdmiteNomes fs d₁ nome₁ d₂ nome₂ de) (hp : fs.encontra d₂ nome₂.val = none) :
    copiaInicio d₁ nome₁ d₂ nome₂ fs = some (fs, .semDestino de) := by
  have hset₁ : bmapIsSet fs.inodeBmap d₁ = true := h.origem.1
  have hset₂ : bmapIsSet fs.inodeBmap d₂ = true := h.destino.1
  have ht₁ : (fs.inodeTab d₁).type = .fsDir := h.origem.2
  have ht₂ : (fs.inodeTab d₂).type = .fsDir := h.destino.2
  have hf : (fs.inodeTab de).type = .fsFile := h.ficheiro
  rw [copiaInicio, if_neg (not_or.mpr ⟨Nat.not_le.mpr h.lt, h.origemOk⟩),
    h.origem.fsiDirSearch_eq, h.achado]
  simp only [hset₁, hset₂, ht₁, ht₂, hf, h.destinoOk, h.destino.fsiDirSearch_eq, hp, Bool.not_true,
    Bool.false_eq_true, if_false, ne_eq, not_true_eq_false, Option.bind_some]

/-- A copy of the file `a` to a new file `c` of the root, with a removal from the root before
`fs_create`. -/
def comRemocao (nome : CString) : List Vez :=
  [.copia, .outro (.op (.remove 1 nome))] ++ [.copia, .copia]

theorem DoisFicheiros.inicio (hd : DoisFicheiros fs) :
    copiaInicio 1 nomeA 1 nomeC fs = some (fs, .semDestino 2) := by
  have hroot := hd.raiz.1
  have husado : fs.DirUsado 1 := ⟨hd.exacto.consistent.inodes.root.1, hroot⟩
  have hprocura := encontra_eq hd.exacto.consistent hroot
  have hadm : AdmiteNomes fs 1 nomeA 1 nomeC 2 := by
    refine ⟨by decide, by decide, husado, ?_, hd.ficheiro.1, by decide, husado⟩
    rw [hprocura, Fs.procura, hd.entradas]
    rfl
  refine copiaInicio_of_admite hadm ?_
  rw [hprocura, Fs.procura, hd.entradas]
  rfl

theorem DoisFicheiros.copia (hd : DoisFicheiros fs) {nome : CString} {n : ℕ}
    (hname : ¬badName nome) (hp : fs.procura 1 nome.val = some n) (hn : fs.typeAt n = .fsFile) :
    ∃ fs₁ fs' para us, fsRemove fs 1 nome = some (fs₁, some n) ∧
      Runs.run (passo 1 nomeA 1 nomeC) (fs, .inicio) [.copia, .outro (.op (.remove 1 nome))] =
        some ((fs₁, .semDestino 2), [(), ()]) ∧
      Runs.run (passo 1 nomeA 1 nomeC) (fs, .inicio) (comRemocao nome) =
        some ((fs', .copiou 2 para), us) := by
  have hex := hd.exacto
  have hroot := hd.raiz.1
  -- the removal takes the last entry out
  obtain ⟨fs₁, hrem⟩ := hex.fsRemove_file nome n hname hroot hp hn
  rcases Fs.fsRemove_spec hex.consistent 1 nome with ⟨hr, -⟩ | ⟨fs₁', n', hr, hremov⟩
  · rw [hr] at hrem
    cases hrem
  obtain ⟨rfl, hn'⟩ := Prod.mk.inj (Option.some.inj (hr.symm.trans hrem))
  obtain rfl := Option.some.inj hn'
  have hent₁ : fs₁'.entradas 1 = [(nomeA.val, 2)] := by
    rw [hremov.entradas, hd.entradas]
    rfl
  have hne : (1 : ℕ) ≠ n' := by
    rintro rfl
    rw [hroot] at hn
    cases hn
  have hroot₁ : fs₁'.typeAt 1 = .fsDir := by rw [hremov.type, if_neg hne, hroot]
  -- the destination is created
  rcases Fs.fsCriar_spec hremov.consistent .fsFile (by decide) 1 nomeC with
    ⟨-, hrec⟩ | ⟨fs₂, m, hcre, hc⟩
  · rcases hrec with hb | hd | hp | hf
    · exact absurd hb (by decide)
    · exact absurd hroot₁ hd
    · rw [Fs.procura, hent₁] at hp
      cases hp
    · have hlt := hex.consistent.lt_of_alocado
        (hex.consistent.alocado_of_type (by rw [hn]; decide : fs.typeAt n' ≠ .unset))
      have := hf n' hlt
      rw [hremov.alocado, decide_eq_true rfl] at this
      cases this
  have hent₂ : fs₂.entradas 1 = [(nomeA.val, 2), (nomeC.val, m)] := by
    rw [hc.entradas, hent₁]
    rfl
  have hroot₂ : fs₂.typeAt 1 = .fsDir := by
    rw [hc.type, if_neg (by have := hc.range.1; omega), hroot₁]
  have hsearch : fsiDirSearch fs₂ 1 nomeC.val = some (fs₂, some m) := by
    rw [hc.consistent.fsiDirSearch_eq hroot₂ nomeC.property, Fs.procura, hent₂]
    rfl
  have hm : (fs₂.inodeTab m).type = .fsFile := (hc.type m).trans (if_pos rfl)
  have hfinal : copiaFinal fs₂ 2 m = ((fsCopyInodes fs₂ 2 m).1, .copiou 2 m) := by
    rw [copiaFinal, if_pos]
    rw [fsCopyInodes, if_neg (not_not.mpr hm)]
  have hcre : fsCreate fs₁' 1 nomeC = some (fs₂, some m) := hcre
  have hantes : Runs.run (passo 1 nomeA 1 nomeC) (fs, .inicio)
      [.copia, .outro (.op (.remove 1 nome))] = some ((fs₁', .semDestino 2), [(), ()]) := by
    simp only [Runs.run, passo, hd.inicio, FaseCopia.semTranca,
      Alheia.exec, FsOp.exec, hr, Option.map_some, Option.bind_some, if_true]
  have hdepois : Runs.run (passo 1 nomeA 1 nomeC) (fs₁', .semDestino 2) [.copia, .copia] =
      some (((fsCopyInodes fs₂ 2 m).1, .copiou 2 m), [(), ()]) := by
    simp only [Runs.run, passo, copiaCria, hcre, copiaRetoma, hsearch, hfinal, Option.map_some,
      Option.bind_some]
  exact ⟨fs₁', _, m, _, hr, hantes, Runs.run_append hantes hdepois⟩

theorem DoisFicheiros.usado (hd : DoisFicheiros fs) : fs.FicheiroUsado 2 := by
  have ha := hd.exacto.consistent.alocado_of_type (by rw [hd.ficheiro.1]; decide : fs.typeAt 2 ≠ _)
  exact ⟨by decide, ha, hd.ficheiro.1⟩

/-- The source is removed before `fs_create`, and the copy answers 0. -/
theorem copia_de_ficheiro_removido :
    ∃ fs rs fs₁ us₁ fs' para us, Runs.run FsOp.exec (fsFormat (fsNew Fs.discoServidor fun _ => 7))
        [.create 1 nomeA, .create 1 nomeB] = some (fs, rs) ∧
      (fs.encontra 1 nomeA.val = some 2 ∧ fs.FicheiroUsado 2) ∧
      Runs.run (passo 1 nomeA 1 nomeC) (fs, .inicio) [.copia, .outro (.op (.remove 1 nomeA))] =
        some ((fs₁, .semDestino 2), us₁) ∧ ¬fs₁.FicheiroUsado 2 ∧
      Runs.run (passo 1 nomeA 1 nomeC) (fs, .inicio) (comRemocao nomeA) =
        some ((fs', .copiou 2 para), us) ∧
      ¬CopiaAtomica 1 nomeA 1 nomeC fs fs' (comRemocao nomeA) 2 para := by
  obtain ⟨fs, hrun, hd⟩ := dois_ficheiros fun _ => 7
  have hfile := hd.usado
  have hp : fs.procura 1 nomeA.val = some 2 := by
    rw [Fs.procura, hd.entradas]
    rfl
  have hn : fs.encontra 1 nomeA.val = some 2 := by
    rw [encontra_eq hd.exacto.consistent hd.raiz.1, hp]
  obtain ⟨fs₁, fs', para, us, hrem, hantes, hcopia⟩ := hd.copia (by decide) hp hd.ficheiro.1
  have hfora : ¬fs₁.FicheiroUsado 2 := fun hf => (fsRemove_ficheiroUsado hrem hfile).mp hf rfl
  exact ⟨fs, _, fs₁, _, fs', para, us, hrun, ⟨hn, hfile⟩, hantes, hfora, hcopia,
    fun hatom => hfora (hatom.existe _ (List.prefix_append _ _) _ _ hantes)⟩

end Exemplo

/-! ## Every copy -/

section Todas

variable {d₁ : ℕ} {nome₁ : CString} {d₂ : ℕ} {nome₂ : CString} {fs fs' : Fs} {de : ℕ}

/-- A copy that answers 0 is atomic exactly if no call in between removes its source. -/
theorem copia_atomica_iff (hn : fs.encontra d₁ nome₁.val = some de) (hde : fs.FicheiroUsado de)
    {vs : List Vez} {de' para : ℕ} {us : List Unit}
    (h : Runs.run (passo d₁ nome₁ d₂ nome₂) (fs, .inicio) vs =
      some ((fs', .copiou de' para), us)) :
    CopiaAtomica d₁ nome₁ d₂ nome₂ fs fs' vs de para ↔
      Runs.Permitted (passo d₁ nome₁ d₂ nome₂) (SemRemover de) (fs, .inicio) vs := by
  have hinicio : Lembra fs de (fs, .inicio) := rfl
  have hlembra : Lembra fs de (fs', .copiou de' para) :=
    Runs.run_invariant (P := fun _ _ => True) (I := Lembra fs de)
      (fun s v s' u hI _ hs => hI.passo hn hs) hinicio
      (Runs.permitted_of_forall fun _ _ _ => trivial) h
  rw [Runs.permitted_iff_invariant (I := fun s => s.1.FicheiroUsado de)
    (fun s v _ hi => semRemover_iff v hi) hde]
  exact ⟨fun ha => ha.existe, fun he => ⟨he, hlembra.2⟩⟩

/-- Another file is removed in between. -/
theorem copia_atomica_exemplo : ∃ fs fs' para, CopiaAtomica 1 nomeA 1 nomeC fs fs'
    (comRemocao nomeB) 2 para := by
  obtain ⟨fs, -, hd⟩ := dois_ficheiros fun _ => 7
  have hn : fs.encontra 1 nomeA.val = some 2 := by
    rw [encontra_eq hd.exacto.consistent hd.raiz.1, Fs.procura, hd.entradas]
    rfl
  have hp : fs.procura 1 nomeB.val = some 3 := by
    rw [Fs.procura, hd.entradas]
    rfl
  obtain ⟨fs₁, fs', para, us, hrem, -, hcopia⟩ := hd.copia (by decide) hp hd.ficheiro.2
  refine ⟨fs, fs', para, (copia_atomica_iff hn hd.usado hcopia).mpr ?_⟩
  refine ⟨trivial, fun s₁ u hs₁ => ⟨fun _ fs₂ r hc => ?_, fun _ _ _ => ⟨trivial, fun _ _ _ =>
    ⟨trivial, fun _ _ _ => trivial⟩⟩⟩⟩
  rw [passo, hd.inicio] at hs₁
  obtain ⟨rfl, -⟩ := Prod.mk.inj (Option.some.inj hs₁)
  simp only [Alheia.exec, FsOp.exec, hrem, Option.map_some] at hc
  obtain ⟨-, rfl⟩ := Prod.mk.inj (Option.some.inj hc)
  exact (by decide : ¬(3 = 2))

end Todas

end ThreadScheduler.SnfsServer
