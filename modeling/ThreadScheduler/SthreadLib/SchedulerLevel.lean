import ThreadScheduler.SthreadLib.SchedulerSpread

/-!
# The `vruntime` of a new thread

A new thread gets the least key of the executable tree, and the active thread is not in that
tree. As long as the tree holds a thread, the new one starts between two others. A tree that has
never held one gives 0, and a tree that has been emptied the key of its sentinel, -1.
-/
namespace ThreadScheduler.SthreadLib

open ArvoreRB Escalonador

variable {s : Escalonador}

/-- The thread that a `create` makes starts between two executable threads. -/
def Nivelada (s : Escalonador) (priority : ℤ) : Prop :=
  ∀ s' t, sthreadUserCreate s priority = .segue s' (.criou t) →
    (∃ u ∈ executaveis s, (s.thread u).vruntime ≤ (s'.thread t).vruntime) ∧
      ∃ u ∈ executaveis s, (s'.thread t).vruntime ≤ (s.thread u).vruntime

/-- The executable tree holds a thread, or it has never held one and the active thread is at 0. -/
def TemReferencia (s : Escalonador) : Prop :=
  rbArvoreVazia s.exeThr = false ∨
    s.exeThr.minimo = none ∧ (s.thread s.activeThr).vruntime = 0

/-- The threads of a run start between two others. -/
def CriaNivelada (s : Escalonador) : Chamada → Prop
  | .create priority => Nivelada s priority
  | _ => True

/-- Threads are created where there is a `vruntime` to start from. -/
def CriaComReferencia (s : Escalonador) : Chamada → Prop
  | .create _ => TemReferencia s
  | _ => True

/-- The new thread starts at the least key of the tree. -/
theorem nivelada_iff_menorChave (s : Escalonador) (priority : ℤ) : Nivelada s priority ↔
    (∃ u ∈ executaveis s, (s.thread u).vruntime ≤ rbMenorChave s.exeThr) ∧
      ∃ u ∈ executaveis s, rbMenorChave s.exeThr ≤ (s.thread u).vruntime := by
  have hnew : ∀ s' t, sthreadUserCreate s priority = .segue s' (.criou t) →
      (s'.thread t).vruntime = rbMenorChave s.exeThr := by
    intro s' t he
    obtain ⟨rfl, ht⟩ := Resultado.segue.inj he
    obtain rfl := Resposta.criou.inj ht
    simp [Escalonador.rbInserir, Escalonador.parar]
  constructor
  · intro h
    have := h _ _ rfl
    rwa [hnew _ _ rfl] at this
  · intro h s' t he
    rwa [hnew s' t he]

theorem TemReferencia.nuncaEsvaziada (h : TemReferencia s) : NuncaEsvaziada s.exeThr := by
  intro hv
  rcases h with hn | ⟨hm, -⟩
  · rw [hn] at hv
    cases hv
  · exact hm

/-- The least key of a tree that holds a thread is the `vruntime` of one of its threads. -/
theorem Justo.exists_menorChave {a : ArvoreRB ℕ} {th : ℕ → Sthread} (h : Justo a th)
    (hs : SacoRB a) (hn : rbArvoreVazia a = false) :
    ∃ u ∈ elementos a, rbMenorChave a = (th u).vruntime := by
  obtain ⟨l, hl, -⟩ := h.fila
  cases l with
  | nil =>
      rw [hl.vazia_iff.mpr rfl] at hn
      cases hn
  | cons p l =>
      have hp : (a.elem p).isSome := by
        rw [hs.isSome_iff, hl.emOrdem_eq]
        exact List.mem_cons_self
      obtain ⟨u, hu⟩ := Option.isSome_iff_exists.mp hp
      exact ⟨u, h.mem_elementos hu, by rw [hl.menorChave rfl, (h.no p u hu).1]⟩

/-- Where the tree holds no thread, the active one is the only executable thread. -/
theorem executaveis_vazia (hs : SacoRB s.exeThr) (hv : rbArvoreVazia s.exeThr = true) :
    executaveis s = [s.activeThr] := by
  rw [executaveis, hs.vazia_iff.mp hv]

theorem nivelada_iff (h : Arrumado Justo s [s.activeThr]) (priority : ℤ) :
    Nivelada s priority ↔ TemReferencia s := by
  rw [nivelada_iff_menorChave, TemReferencia]
  cases hv : rbArvoreVazia s.exeThr with
  | false =>
      obtain ⟨u, hu, he⟩ := h.guarda.exists_menorChave h.exe hv
      have hexe : u ∈ executaveis s := List.mem_cons_of_mem _ hu
      exact iff_of_true ⟨⟨u, hexe, Int.le_of_eq he.symm⟩, u, hexe, Int.le_of_eq he⟩ (.inl rfl)
  | true =>
      have hpos := (h.guarda.contas s.activeThr).1
      obtain ⟨l, hl, -⟩ := h.guarda.fila
      obtain rfl := hl.vazia_iff.mp hv
      obtain ⟨t, ht, -, hmin, hnil⟩ := hl
      simp only [executaveis_vazia h.exe hv, List.mem_singleton, exists_eq_left, Bool.true_eq_false,
        false_or]
      rcases hmin with hm | ⟨-, hm⟩
      · -- the tree is as new
        rw [hnil] at hm
        have hzero : rbMenorChave s.exeThr = 0 := by rw [rbMenorChave, hm]; rfl
        rw [hzero, hm]
        constructor
        · rintro ⟨hle, -⟩
          exact ⟨rfl, by omega⟩
        · rintro ⟨-, he⟩
          omega
      · -- the tree has been emptied, and the key is that of the sentinel
        have hneg : rbMenorChave s.exeThr = -1 := by rw [rbMenorChave, hm]; exact ht.chave_raiz
        rw [hneg, hm]
        refine iff_of_false (fun hle => ?_) (fun he => ?_)
        · omega
        · cases he.1

/-- Where there is a `vruntime` to start from, the tree has not been emptied. -/
theorem criaSobreArvore_of_referencia {c : Chamada} (h : CriaComReferencia s c) :
    CriaSobreArvore s c := by
  cases c with
  | create p => exact h.nuncaEsvaziada
  | _ => trivial

/-- In a state of such a run, a call creates its thread between two others exactly when there is a
`vruntime` to start from. -/
theorem criaNivelada_iff (h : Arrumado Justo s [s.activeThr]) (c : Chamada) :
    CriaNivelada s c ↔ CriaComReferencia s c := by
  cases c with
  | create p => exact nivelada_iff h p
  | _ => exact Iff.rfl

/-- In the runs in which no thread gets into two places: all new threads start between two others
exactly when each of them is created while the executable tree holds a thread, or before it has
held one and with the active thread at 0. -/
theorem criacoes_niveladas_iff (cs : List Chamada) :
    Runs.Permitted passo (fun s c => (Valida s c ∧ Limpa s c) ∧ CriaNivelada s c)
        sthreadUserInit cs ↔
      Runs.Permitted passo (fun s c => (Valida s c ∧ Limpa s c) ∧ CriaComReferencia s c)
        sthreadUserInit cs := by
  have hinit : Arrumado Justo sthreadUserInit [sthreadUserInit.activeThr] :=
    sthreadUserInit_arrumado Justo.nova
  constructor
  · refine Runs.Permitted.of_invariant (I := fun s => Arrumado Justo s [s.activeThr])
      (fun s c hI hp => ⟨hp.1, (criaNivelada_iff hI c).mp hp.2⟩) (fun s c s' r hI hp he => ?_) hinit
    have href := (criaNivelada_iff hI c).mp hp.2
    exact (passo_justo hI ⟨hp.1.1, hp.1.2, criaSobreArvore_of_referencia href⟩ he).arrumado
  · refine Runs.Permitted.of_invariant (I := fun s => Arrumado Justo s [s.activeThr])
      (fun s c hI hp => ⟨hp.1, (criaNivelada_iff hI c).mpr hp.2⟩) (fun s c s' r hI hp he => ?_)
      hinit
    exact (passo_justo hI ⟨hp.1.1, hp.1.2, criaSobreArvore_of_referencia hp.2⟩ he).arrumado

/-- The main thread waits for thread 2, which has the processor to itself and creates thread 3
at -1, below its own 0. -/
theorem criacao_desnivelada :
    ∃ s os, Runs.Permitted passo Valida sthreadUserInit ([.create 1, .join 2] ++ [.create 1]) ∧
      Runs.run passo sthreadUserInit [.create 1, .join 2] = some (s, os) ∧ ¬Nivelada s 1 := by
  obtain ⟨s, os, hrun, hkey, hexe, hzero⟩ : ∃ s os,
      Runs.run passo sthreadUserInit [.create 1, .join 2] = some (s, os) ∧
      rbMenorChave s.exeThr = -1 ∧ executaveis s = [2] ∧ (s.thread 2).vruntime = 0 :=
    Runs.exists_run_of_any (by decide)
  refine ⟨s, os, by decide, hrun, fun hn => ?_⟩
  rw [nivelada_iff_menorChave, hkey, hexe] at hn
  obtain ⟨⟨u, hu, hle⟩, -⟩ := hn
  obtain rfl := List.mem_singleton.mp hu
  omega

end ThreadScheduler.SthreadLib
