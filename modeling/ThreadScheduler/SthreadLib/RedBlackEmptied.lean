import ThreadScheduler.SthreadLib.RedBlackElements

/-!
# A tree that has been emptied

When the last node goes, `minimo` is set to its parent, the root sentinel. `RBMenorChave` then
reads the key of the sentinel, and `RBExtraiMininimo` takes the sentinel for a node and frees it.
A list of entries that remembers whether the tree has held a node says what each call answers.
-/
namespace ThreadScheduler.SthreadLib

open PointerTree RedBlack ArvoreRB

variable {α : Type*}

/-- A tree, and whether its root sentinel has been freed. -/
structure ArvoreUsada (α : Type*) where
  arvore : ArvoreRB α
  libertada : Bool

/-- A call of `RBArvoreVazia`, `RBMenorChave`, `RBExtraiMininimo` or `RBInserirNo`. -/
inductive UsoRB (α : Type*) where
  | arvoreVazia
  | menorChave
  | extraiMininimo
  | inserirNo (chave tid : ℤ) (elemento : α)

/-- What a call returns. -/
inductive RespostaRB (α : Type*) where
  | vazia (b : Bool)
  | chave (k : ℤ)
  | elem (e : Option α)
  | nada
  deriving DecidableEq

def arvoreNova : ArvoreUsada α := ⟨rbNovaArvore, false⟩

/-- One call. All but `RBMenorChave` read the root sentinel, `none` if it has been freed. -/
def ArvoreUsada.responder (u : ArvoreUsada α) : UsoRB α → Option (ArvoreUsada α × RespostaRB α)
  | .menorChave => some (u, .chave (rbMenorChave u.arvore))
  | .arvoreVazia => if u.libertada then none else some (u, .vazia (rbArvoreVazia u.arvore))
  | .extraiMininimo =>
      if u.libertada then none
      else
        let r := rbExtraiMininimo u.arvore
        some (⟨r.1, u.arvore.minimo = some raiz⟩, .elem r.2)
  | .inserirNo chave tid elemento =>
      if u.libertada then none
      else some (⟨rbInserirNo u.arvore chave tid elemento, false⟩, .nada)

def UsoRB.Insere : UsoRB α → Prop
  | .inserirNo _ _ _ => True
  | _ => False

/-- The key inserted, if any, is not negative. -/
def UsoRB.NaoNegativo : UsoRB α → Prop
  | .inserirNo chave _ _ => 0 ≤ chave
  | _ => True

instance (c : UsoRB α) : Decidable c.Insere :=
  match c with
  | .inserirNo _ _ _ => isTrue trivial
  | .arvoreVazia | .menorChave | .extraiMininimo => isFalse id

/-- The calls `g` are answered as by a new tree, and leave a tree that can be used. -/
def ComoNova (u : ArvoreUsada α) (g : List (UsoRB α)) : Prop :=
  ∃ u' v os, Runs.run ArvoreUsada.responder u g = some (u', os) ∧
    Runs.run ArvoreUsada.responder arvoreNova g = some (v, os) ∧ u'.libertada = false

/-- No call extracts from an empty tree that has held a node. The tree has `n` nodes at first. -/
def SemExtracaoVazia : ℕ → Bool → List (UsoRB α) → Prop
  | _, _, [] => True
  | n, _, .inserirNo _ _ _ :: cs => SemExtracaoVazia (n + 1) true cs
  | n, usada, .extraiMininimo :: cs => (n = 0 → usada = false) ∧ SemExtracaoVazia (n - 1) usada cs
  | n, usada, .arvoreVazia :: cs => SemExtracaoVazia n usada cs
  | n, usada, .menorChave :: cs => SemExtracaoVazia n usada cs

/-- The least key is not asked for before the first insertion. -/
def SemMenorChave : List (UsoRB α) → Prop
  | [] => True
  | .inserirNo _ _ _ :: _ => True
  | .menorChave :: _ => False
  | .extraiMininimo :: cs => SemMenorChave cs
  | .arvoreVazia :: cs => SemMenorChave cs

/-! ## The entries of a tree -/

/-- The keys and elements of a tree in order, and whether it has held a node. -/
structure ModeloRB (α : Type*) where
  entradas : List (ℤ × α)
  usada : Bool

/-- What a tree answers; `none` where it frees its sentinel. -/
def ModeloRB.responder (m : ModeloRB α) : UsoRB α → Option (ModeloRB α × RespostaRB α)
  | .arvoreVazia => some (m, .vazia m.entradas.isEmpty)
  | .menorChave =>
      match m.entradas with
      | [] => some (m, .chave (if m.usada then -1 else 0))
      | x :: _ => some (m, .chave x.1)
  | .extraiMininimo =>
      match m.entradas with
      | [] => if m.usada then none else some (m, .elem none)
      | x :: xs => some (⟨xs, m.usada⟩, .elem (some x.2))
  | .inserirNo chave _ elemento =>
      some (⟨m.entradas.takeWhile (fun x => x.1 ≤ chave) ++
        (chave, elemento) :: m.entradas.dropWhile (fun x => x.1 ≤ chave), true⟩, .nada)

/-- The tree holds the entries of the model. -/
structure Usa (u : ArvoreUsada α) (m : ModeloRB α) : Prop where
  saco : SacoRB u.arvore
  fila : ∃ f, Representa u.arvore f ∧ f.entradas.map (fun x => (x.chave, x.elem)) = m.entradas
  minimo : m.entradas = [] → u.arvore.minimo = if m.usada then some raiz else none
  usada : m.entradas ≠ [] → m.usada = true
  inteira : u.libertada = false

theorem usa_nova : Usa (arvoreNova : ArvoreUsada α) ⟨[], false⟩ :=
  ⟨.nova, ⟨_, representa_nova, rfl⟩, fun _ => rfl, fun h => absurd rfl h, rfl⟩

/-- `minimo` is not `NULL` after its node has gone. -/
theorem Arvore.remover_minimo {a : ArvoreRB α} {t : Shape ℕ} (h : Arvore a t) {z : ℕ}
    (hz : z ∈ t.toList) (hm : a.minimo = some z) : (rbRemoverNo a z).minimo ≠ none := by
  obtain ⟨b, t', hrem, heq⟩ := h.remover_no hz
  rw [heq, actualizarMinimo, hrem.minimo, if_pos hm]
  split <;> simp

namespace Usa

variable {u : ArvoreUsada α} {m : ModeloRB α}

theorem vazia_eq (h : Usa u m) : rbArvoreVazia u.arvore = m.entradas.isEmpty := by
  obtain ⟨f, hf, he⟩ := h.fila
  rw [Bool.eq_iff_iff, hf.fila.vazia_iff, List.isEmpty_iff, ← he, List.map_eq_nil_iff,
    List.map_eq_nil_iff]

theorem menorChave_of_nil (h : Usa u m) (hn : m.entradas = []) :
    rbMenorChave u.arvore = if m.usada then -1 else 0 := by
  obtain ⟨t, ht, -⟩ := h.saco
  rw [rbMenorChave, h.minimo hn]
  cases m.usada with
  | false => rfl
  | true => exact ht.chave_raiz

theorem menorChave_of_cons (h : Usa u m) {x : ℤ × α} {xs : List (ℤ × α)}
    (hx : m.entradas = x :: xs) : rbMenorChave u.arvore = x.1 := by
  obtain ⟨f, hf, he⟩ := h.fila
  rw [hx, List.map_eq_cons_iff] at he
  obtain ⟨y, ys, hy, rfl, -⟩ := he
  have hl : f.entradas.map Entrada.no = y.no :: ys.map Entrada.no := by rw [hy, List.map_cons]
  rw [hf.fila.menorChave hl]
  exact (hf.campos y (by simp [hy])).1

theorem inserir (h : Usa u m) {k : ℤ} (hk : 0 ≤ k) (tid : ℤ) (e : α) :
    Usa ⟨rbInserirNo u.arvore k tid e, false⟩
      ⟨m.entradas.takeWhile (fun x => x.1 ≤ k) ++ (k, e) ::
        m.entradas.dropWhile (fun x => x.1 ≤ k), true⟩ := by
  obtain ⟨f, hf, he⟩ := h.fila
  refine ⟨(h.saco.inserir k tid e).1, ⟨_, hf.inserir hk tid e, ?_⟩, fun hn => ?_, fun _ => rfl, rfl⟩
  · rw [FilaEstavel.inserir, ← he, List.takeWhile_map, List.dropWhile_map, List.map_append,
      List.map_cons]
    rfl
  · exact absurd (List.append_eq_nil_iff.mp hn).2 (List.cons_ne_nil _ _)

/-- The first entry goes. The last one leaves `minimo` at the sentinel. -/
theorem extrair (h : Usa u m) {x : ℤ × α} {xs : List (ℤ × α)} (hx : m.entradas = x :: xs) :
    (rbExtraiMininimo u.arvore).2 = some x.2 ∧ u.arvore.minimo ≠ some raiz ∧
      Usa ⟨(rbExtraiMininimo u.arvore).1, false⟩ ⟨xs, m.usada⟩ := by
  have husada := h.usada (by rw [hx]; exact List.cons_ne_nil _ _)
  obtain ⟨f, hf, he⟩ := h.fila
  rw [hx, List.map_eq_cons_iff] at he
  obtain ⟨y, ys, hy, rfl, hys⟩ := he
  obtain ⟨hres, hf'⟩ := hf.extrair hy
  have hl : f.entradas.map Entrada.no = y.no :: ys.map Entrada.no := by rw [hy, List.map_cons]
  have hmin := hf.fila.minimo hl
  obtain ⟨t, ht, -, -, htl⟩ := hf.fila
  have hmem : y.no ∈ t.toList := by rw [htl, hl]; exact List.mem_cons_self
  have hex : rbExtraiMininimo u.arvore = ((rbExtraiMininimo u.arvore).1, some y.elem) := by
    rw [← hres]
  refine ⟨hres, ?_, (h.saco.extrair hex).1, ⟨_, hf', hys⟩, fun hn => ?_, fun _ => husada, rfl⟩
  · rw [hmin]
    exact fun he => ht.ne_raiz hmem (Option.some.inj he)
  · have hset : Arvore (u.arvore.setElem y.no none) t :=
      ⟨ht.focus, ⟨ht.sentinelas.nil, ht.sentinelas.raiz⟩, ht.balanced, ht.alocado, ht.reservado,
        ht.chave_raiz⟩
    have hne := hset.remover_minimo hmem hmin
    obtain ⟨t', -, -, hcerto, hnil⟩ := hf'.fila
    simp only at hn
    rw [show ys = [] by rw [← List.map_eq_nil_iff, hys, hn]] at hnil
    have hfst : (rbExtraiMininimo u.arvore).1 = rbRemoverNo (u.arvore.setElem y.no none) y.no := by
      rw [rbExtraiMininimo, hmin]
    rw [hfst] at hcerto ⊢
    rcases hcerto with hc | ⟨-, hc⟩
    · rw [hnil] at hc
      exact absurd hc hne
    · simpa [husada] using hc

/-- A tree answers as its entries say. From an empty tree that has held a node it extracts `NULL`,
and its sentinel is gone. -/
theorem responder (h : Usa u m) {c : UsoRB α} (hc : c.NaoNegativo) :
    (∃ u' m' o, u.responder c = some (u', o) ∧ m.responder c = some (m', o) ∧ Usa u' m') ∨
      m.responder c = none ∧ ∃ u', u.responder c = some (u', .elem none) ∧ u'.libertada = true := by
  have hlib := h.inteira
  cases c with
  | arvoreVazia =>
      refine .inl ⟨u, m, .vazia m.entradas.isEmpty, ?_, rfl, h⟩
      simp [ArvoreUsada.responder, hlib, h.vazia_eq]
  | menorChave =>
      cases hx : m.entradas with
      | nil =>
          refine .inl ⟨u, m, .chave (if m.usada then -1 else 0), ?_, ?_, h⟩
          · rw [ArvoreUsada.responder, h.menorChave_of_nil hx]
          · simp [ModeloRB.responder, hx]
      | cons x xs =>
          refine .inl ⟨u, m, .chave x.1, ?_, ?_, h⟩
          · rw [ArvoreUsada.responder, h.menorChave_of_cons hx]
          · simp [ModeloRB.responder, hx]
  | inserirNo k tid e =>
      refine .inl ⟨_, _, .nada, ?_, rfl, h.inserir hc tid e⟩
      simp [ArvoreUsada.responder, hlib]
  | extraiMininimo =>
      cases hx : m.entradas with
      | cons x xs =>
          obtain ⟨hres, hmin, hu⟩ := h.extrair hx
          refine .inl ⟨_, _, .elem (some x.2), ?_, ?_, hu⟩
          · simp [ArvoreUsada.responder, hlib, hres, hmin]
          · simp [ModeloRB.responder, hx]
      | nil =>
          have hmin := h.minimo hx
          cases hus : m.usada with
          | false =>
              rw [hus] at hmin
              have hex : rbExtraiMininimo u.arvore = (u.arvore, none) := by
                simp [rbExtraiMininimo, hmin]
              refine .inl ⟨u, m, .elem none, ?_, ?_, h⟩
              · obtain ⟨a, l⟩ := u
                obtain rfl : l = false := hlib
                simp_all [ArvoreUsada.responder]
              · simp [ModeloRB.responder, hx, hus]
          | true =>
              rw [hus] at hmin
              obtain ⟨t, ht, -, helem⟩ := h.saco
              have hnone : u.arvore.elem raiz = none := by
                rw [← Option.not_isSome_iff_eq_none, helem]
                exact fun hr => ht.ne_raiz hr rfl
              refine .inr ⟨by simp [ModeloRB.responder, hx, hus],
                ⟨(rbExtraiMininimo u.arvore).1, true⟩, ?_, rfl⟩
              simp [ArvoreUsada.responder, hlib, rbExtraiMininimo, hmin, hnone]

end Usa

/-! ## Runs -/

/-- A sentinel that has been freed stays so. -/
theorem run_libertada {u u' : ArvoreUsada α} {cs : List (UsoRB α)} {os : List (RespostaRB α)}
    (hu : u.libertada = true) (hr : Runs.run ArvoreUsada.responder u cs = some (u', os)) :
    u'.libertada = true := by
  refine Runs.run_invariant (I := fun u => u.libertada = true) (P := fun _ _ => True)
    (fun u c v o hu _ he => ?_) hu (Runs.permitted_of_forall fun _ _ _ => trivial) hr
  cases c with
  | menorChave =>
      obtain ⟨rfl, -⟩ := Prod.mk.inj (Option.some.inj he)
      exact hu
  | arvoreVazia => simp [ArvoreUsada.responder, hu] at he
  | extraiMininimo => simp [ArvoreUsada.responder, hu] at he
  | inserirNo k tid e => simp [ArvoreUsada.responder, hu] at he

/-- A tree answers a run as its entries say, and where these stop it frees its sentinel. -/
theorem Usa.run {u : ArvoreUsada α} {m : ModeloRB α} (h : Usa u m) {cs : List (UsoRB α)}
    (hc : ∀ c ∈ cs, c.NaoNegativo) :
    (∃ u' m' os, Runs.run ArvoreUsada.responder u cs = some (u', os) ∧
        Runs.run ModeloRB.responder m cs = some (m', os) ∧ Usa u' m') ∨
      Runs.run ModeloRB.responder m cs = none ∧
        ∀ u' os, Runs.run ArvoreUsada.responder u cs = some (u', os) → u'.libertada = true := by
  induction cs generalizing u m with
  | nil => exact .inl ⟨u, m, [], rfl, rfl, h⟩
  | cons c cs ih =>
      obtain ⟨hc, hcs⟩ := List.forall_mem_cons.mp hc
      rcases h.responder hc with ⟨u₁, m₁, o, hu, hm, h₁⟩ | ⟨hm, u₁, hu, hlib⟩
      · rcases ih h₁ hcs with ⟨u', m', os, hru, hrm, h'⟩ | ⟨hrm, hall⟩
        · exact .inl ⟨u', m', o :: os, by simp [Runs.run, hu, hru], by simp [Runs.run, hm, hrm], h'⟩
        · refine .inr ⟨by simp [Runs.run, hm, hrm], fun u' os hr => ?_⟩
          obtain ⟨s', o', os', hs, hr', -⟩ := Runs.run_cons_eq_some hr
          obtain ⟨rfl, -⟩ := Prod.mk.inj (Option.some.inj (hu.symm.trans hs))
          exact hall u' os' hr'
      · refine .inr ⟨by simp [Runs.run, hm], fun u' os hr => ?_⟩
        obtain ⟨s', o', os', hs, hr', -⟩ := Runs.run_cons_eq_some hr
        obtain ⟨rfl, -⟩ := Prod.mk.inj (Option.some.inj (hu.symm.trans hs))
        exact run_libertada hlib hr'

/-- A run can go on as long as it extracts nothing from an empty tree that has held a node. -/
theorem ModeloRB.run_isSome_iff (m : ModeloRB α) (cs : List (UsoRB α)) :
    (∃ m' os, Runs.run ModeloRB.responder m cs = some (m', os)) ↔
      SemExtracaoVazia m.entradas.length m.usada cs := by
  induction cs generalizing m with
  | nil => exact iff_of_true ⟨m, [], rfl⟩ trivial
  | cons c cs ih =>
      have hstep : ∀ m' o, m.responder c = some (m', o) →
          ((∃ m'' os, Runs.run ModeloRB.responder m (c :: cs) = some (m'', os)) ↔
            SemExtracaoVazia m'.entradas.length m'.usada cs) := by
        intro m' o hm
        rw [← ih m']
        constructor
        · rintro ⟨m'', os, hr⟩
          obtain ⟨s', o', os', hs, hr', -⟩ := Runs.run_cons_eq_some hr
          obtain ⟨rfl, -⟩ := Prod.mk.inj (Option.some.inj (hm.symm.trans hs))
          exact ⟨m'', os', hr'⟩
        · rintro ⟨m'', os, hr⟩
          exact ⟨m'', o :: os, by simp [Runs.run, hm, hr]⟩
      cases c with
      | arvoreVazia => exact hstep m _ rfl
      | menorChave =>
          obtain ⟨o, ho⟩ : ∃ o, m.responder .menorChave = some (m, o) := by
            rw [ModeloRB.responder]
            split <;> exact ⟨_, rfl⟩
          exact hstep m o ho
      | inserirNo k tid e =>
          refine (hstep _ _ rfl).trans ?_
          have hlen : (m.entradas.takeWhile (fun x => x.1 ≤ k) ++ (k, e) ::
              m.entradas.dropWhile (fun x => x.1 ≤ k)).length = m.entradas.length + 1 := by
            have := congrArg List.length
              (List.takeWhile_append_dropWhile (p := fun x : ℤ × α => x.1 ≤ k) (l := m.entradas))
            simp only [List.length_append, List.length_cons] at this ⊢
            omega
          rw [hlen]
          rfl
      | extraiMininimo =>
          cases hx : m.entradas with
          | nil =>
              cases hus : m.usada with
              | false =>
                  refine (hstep m (.elem none) (by simp [ModeloRB.responder, hx, hus])).trans ?_
                  simp [SemExtracaoVazia, hx, hus]
              | true =>
                  refine iff_of_false ?_ (fun h => Bool.noConfusion (h.1 rfl))
                  rintro ⟨m'', os, hr⟩
                  obtain ⟨s', o', os', hs, -⟩ := Runs.run_cons_eq_some hr
                  simp [ModeloRB.responder, hx, hus] at hs
          | cons x xs =>
              refine (hstep ⟨xs, m.usada⟩ (.elem (some x.2))
                (by simp [ModeloRB.responder, hx])).trans ?_
              simp [SemExtracaoVazia]

/-- What a tree that has held a node permits, a new one permits. -/
theorem SemExtracaoVazia.nova {n : ℕ} {usada : Bool} {cs : List (UsoRB α)}
    (h : SemExtracaoVazia n usada cs) : SemExtracaoVazia n false cs := by
  induction cs generalizing n with
  | nil => trivial
  | cons c cs ih =>
      cases c with
      | inserirNo k tid e => exact h
      | extraiMininimo => exact ⟨fun _ => rfl, ih h.2⟩
      | arvoreVazia => exact ih h
      | menorChave => exact ih h

/-- From then on an empty tree answers as a new one exactly when its least key is not asked for
before it holds a node again. -/
theorem ModeloRB.run_eq_iff {g : List (UsoRB α)} {m₁ : ModeloRB α} {os : List (RespostaRB α)}
    (hr : Runs.run ModeloRB.responder ⟨[], true⟩ g = some (m₁, os)) :
    (∃ m₂, Runs.run ModeloRB.responder ⟨[], false⟩ g = some (m₂, os)) ↔ SemMenorChave g := by
  induction g generalizing os with
  | nil =>
      obtain ⟨-, rfl⟩ := Prod.mk.inj (Option.some.inj hr)
      exact iff_of_true ⟨_, rfl⟩ trivial
  | cons c g ih =>
      obtain ⟨m, o, os, hs, hr', rfl⟩ := Runs.run_cons_eq_some hr
      cases c with
      | arvoreVazia =>
          obtain ⟨rfl, rfl⟩ := Prod.mk.inj (Option.some.inj hs)
          rw [SemMenorChave, ← ih hr']
          constructor
          · rintro ⟨m₂, h₂⟩
            obtain ⟨s', o', os', hs', hr₂, he⟩ := Runs.run_cons_eq_some h₂
            obtain ⟨rfl, -⟩ := Prod.mk.inj (Option.some.inj hs')
            exact ⟨m₂, (List.cons.inj he).2 ▸ hr₂⟩
          · rintro ⟨m₂, h₂⟩
            exact ⟨m₂, by simp [Runs.run, ModeloRB.responder, h₂]⟩
      | menorChave =>
          obtain ⟨rfl, rfl⟩ := Prod.mk.inj (Option.some.inj hs)
          refine iff_of_false ?_ id
          rintro ⟨m₂, h₂⟩
          obtain ⟨s', o', os', hs', -, he⟩ := Runs.run_cons_eq_some h₂
          obtain ⟨-, rfl⟩ := Prod.mk.inj (Option.some.inj hs')
          simp at he
      | extraiMininimo => simp [ModeloRB.responder] at hs
      | inserirNo k tid e =>
          obtain ⟨rfl, rfl⟩ := Prod.mk.inj (Option.some.inj hs)
          refine iff_of_true ⟨m₁, ?_⟩ trivial
          exact hr

/-- The calls `h` and `g` never extract from an empty tree that has held a node, and if `h` inserts
a node then `g` does not ask for the least key before it inserts one. -/
def Segura (h g : List (UsoRB α)) : Prop :=
  SemExtracaoVazia 0 false (h ++ g) ∧ ((∃ c ∈ h, c.Insere) → SemMenorChave g)

/-- Calls that insert nothing into a tree without entries. -/
theorem ModeloRB.run_usada {h : List (UsoRB α)} {m m' : ModeloRB α} {os : List (RespostaRB α)}
    (hr : Runs.run ModeloRB.responder m h = some (m', os)) :
    m'.usada = true ↔ m.usada = true ∨ ∃ c ∈ h, c.Insere := by
  induction h generalizing m os with
  | nil =>
      obtain ⟨rfl, -⟩ := Prod.mk.inj (Option.some.inj hr)
      simp
  | cons c h ih =>
      obtain ⟨m₁, o, os', hs, hr', -⟩ := Runs.run_cons_eq_some hr
      simp only [ih hr', List.exists_mem_cons_iff]
      have hone : m₁.usada = true ↔ m.usada = true ∨ c.Insere := by
        cases c with
        | inserirNo k tid e =>
            obtain ⟨rfl, -⟩ := Prod.mk.inj (Option.some.inj hs)
            simp [UsoRB.Insere]
        | arvoreVazia =>
            obtain ⟨rfl, -⟩ := Prod.mk.inj (Option.some.inj hs)
            simp [UsoRB.Insere]
        | menorChave =>
            rw [ModeloRB.responder] at hs
            split at hs <;>
            · obtain ⟨rfl, -⟩ := Prod.mk.inj (Option.some.inj hs)
              simp [UsoRB.Insere]
        | extraiMininimo =>
            rw [ModeloRB.responder] at hs
            split at hs
            · split at hs
              · cases hs
              · obtain ⟨rfl, -⟩ := Prod.mk.inj (Option.some.inj hs)
                simp [UsoRB.Insere]
            · obtain ⟨rfl, -⟩ := Prod.mk.inj (Option.some.inj hs)
              simp [UsoRB.Insere]
      rw [hone, or_assoc]

/-- A tree that the calls `h` leave empty answers the calls `g` as a new one, and can be used after
them, exactly when they never extract from an empty tree that has held a node, and the least key
is not asked for while the one tree has held a node and the other one has not. -/
theorem comoNova_iff (h g : List (UsoRB α)) (hk : ∀ c ∈ h ++ g, c.NaoNegativo)
    (u : ArvoreUsada α) (rs : List (RespostaRB α))
    (hr : Runs.run ArvoreUsada.responder arvoreNova h = some (u, rs))
    (hv : rbArvoreVazia u.arvore = true) : ComoNova u g ↔ Segura h g := by
  have hkh : ∀ c ∈ h, c.NaoNegativo := fun c hc => hk c (List.mem_append_left _ hc)
  have hkg : ∀ c ∈ g, c.NaoNegativo := fun c hc => hk c (List.mem_append_right _ hc)
  have hall : (∃ m' os, Runs.run ModeloRB.responder ⟨[], false⟩ (h ++ g) = some (m', os)) ↔
      SemExtracaoVazia 0 false (h ++ g) := ModeloRB.run_isSome_iff ⟨[], false⟩ (h ++ g)
  rw [Segura, ← hall]
  rcases usa_nova.run hkh with ⟨u', m, os, hru, hrm, hu⟩ | ⟨hrm, hlib⟩
  · obtain ⟨rfl, rfl⟩ := Prod.mk.inj (Option.some.inj (hr.symm.trans hru))
    have hnil : m.entradas = [] := by
      rw [← List.isEmpty_iff, ← hu.vazia_eq, hv]
    have husada := ModeloRB.run_usada hrm
    simp only [Bool.false_eq_true, false_or] at husada
    have happ : (∃ m' os, Runs.run ModeloRB.responder ⟨[], false⟩ (h ++ g) = some (m', os)) ↔
        ∃ m' os, Runs.run ModeloRB.responder m g = some (m', os) := by
      constructor
      · rintro ⟨m', os', hrun⟩
        obtain ⟨m₁, os₁, os₂, h₁, h₂, -⟩ := Runs.run_append_eq_some hrun
        obtain ⟨rfl, -⟩ := Prod.mk.inj (Option.some.inj (hrm.symm.trans h₁))
        exact ⟨m', os₂, h₂⟩
      · rintro ⟨m', os', hrun⟩
        exact ⟨m', _, Runs.run_append hrm hrun⟩
    rw [happ, ← husada]
    rcases hu.run hkg with ⟨u₁, m₁, os₁, hru₁, hrm₁, hu₁⟩ | ⟨hnone, hlib⟩
    · -- the tree can be used after `g`, and so can a new one
      obtain ⟨v, m₂, os₂, hrv, hrm₂⟩ : ∃ v m₂ os₂,
          Runs.run ArvoreUsada.responder arvoreNova g = some (v, os₂) ∧
            Runs.run ModeloRB.responder ⟨[], false⟩ g = some (m₂, os₂) := by
        rcases usa_nova.run hkg with ⟨v, m₂, os₂, hrv, hrm₂, -⟩ | ⟨hnone, -⟩
        · exact ⟨v, m₂, os₂, hrv, hrm₂⟩
        · have hsem := (ModeloRB.run_isSome_iff m g).mp ⟨m₁, os₁, hrm₁⟩
          rw [hnil] at hsem
          obtain ⟨m₂, os₂, hrm₂⟩ := (ModeloRB.run_isSome_iff ⟨[], false⟩ g).mpr hsem.nova
          rw [hnone] at hrm₂
          cases hrm₂
      have hequal : ComoNova u g ↔ os₁ = os₂ := by
        constructor
        · rintro ⟨u₂, v₂, os, hru₂, hrv₂, -⟩
          obtain ⟨-, rfl⟩ := Prod.mk.inj (Option.some.inj (hru₁.symm.trans hru₂))
          exact (Prod.mk.inj (Option.some.inj (hrv₂.symm.trans hrv))).2
        · rintro rfl
          exact ⟨u₁, v, os₁, hru₁, hrv, hu₁.inteira⟩
      rw [hequal, and_iff_right ⟨m₁, os₁, hrm₁⟩]
      obtain ⟨es, usada⟩ := m
      obtain rfl : es = [] := hnil
      cases usada with
      | false =>
          obtain ⟨-, rfl⟩ := Prod.mk.inj (Option.some.inj (hrm₁.symm.trans hrm₂))
          exact iff_of_true rfl fun he => nomatch he
      | true =>
          rw [← ModeloRB.run_eq_iff hrm₁]
          constructor
          · rintro rfl -
            exact ⟨m₂, hrm₂⟩
          · intro hm
            obtain ⟨m₃, hrm₃⟩ := hm rfl
            exact (Prod.mk.inj (Option.some.inj (hrm₃.symm.trans hrm₂))).2
    · refine iff_of_false ?_ ?_
      · rintro ⟨u₂, v, os₂, hru₂, -, hfim⟩
        rw [hlib u₂ os₂ hru₂] at hfim
        cases hfim
      · rintro ⟨⟨m', os', hrun⟩, -⟩
        rw [hnone] at hrun
        cases hrun
  · -- `h` has freed the sentinel
    refine iff_of_false ?_ ?_
    · rintro ⟨u₂, v, os₂, hru₂, -, hfim⟩
      rw [run_libertada (hlib u rs hr) hru₂] at hfim
      cases hfim
    · rintro ⟨⟨m', os', hrun⟩, -⟩
      obtain ⟨m₁, os₁, os₂, h₁, -⟩ := Runs.run_append_eq_some hrun
      rw [hrm] at h₁
      cases h₁

/-- A node is inserted and extracted; another one is inserted, seen and extracted. -/
theorem comoNova_iff_exemplo :
    ∃ u rs, Runs.run ArvoreUsada.responder arvoreNova
        [.inserirNo 5 1 10, .extraiMininimo] = some (u, rs) ∧
      (ComoNova u [.inserirNo 3 2 20, .menorChave, .extraiMininimo] ↔
        Segura [.inserirNo 5 1 10, .extraiMininimo]
          [.inserirNo 3 2 20, .menorChave, .extraiMininimo]) :=
  ⟨_, _, rfl, comoNova_iff [.inserirNo 5 1 10, .extraiMininimo]
    [.inserirNo 3 2 20, .menorChave, .extraiMininimo] (by simp [UsoRB.NaoNegativo]) _ _ rfl
    (by decide)⟩

/-- The least key of an emptied tree is -1, that of a new tree 0. -/
theorem esvaziada_nao_e_nova :
    ∃ (u : ArvoreUsada ℕ) (rs : List (RespostaRB ℕ)),
      Runs.run ArvoreUsada.responder arvoreNova [.inserirNo 5 1 10, .extraiMininimo] =
        some (u, rs) ∧ rbArvoreVazia u.arvore = true ∧ ¬ComoNova u [.menorChave] := by
  refine ⟨_, _, rfl, by decide, ?_⟩
  rintro ⟨u', v, os, hu, hv, -⟩
  have hu' : os = [.chave (-1)] := (congrArg Prod.snd (Option.some.inj hu)).symm
  have hv' : os = [.chave 0] := (congrArg Prod.snd (Option.some.inj hv)).symm
  rw [hu'] at hv'
  simp at hv'

end ThreadScheduler.SthreadLib
