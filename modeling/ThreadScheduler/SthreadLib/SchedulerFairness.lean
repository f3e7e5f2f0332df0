import ThreadScheduler.SthreadLib.SchedulerRuns

/-!
# The choice of the next thread

While no key is negative the executable tree is ordered by `vruntime`, and by insertion among
equals. A thread created when the last node has left the tree gets the key of the root sentinel,
which is negative.
-/
namespace ThreadScheduler.SthreadLib

open ArvoreRB Escalonador

/-- The order of the nodes. They are numbered as they are inserted. -/
def Antes (a : ArvoreRB ℕ) (p q : ℕ) : Prop :=
  a.chave p ≤ a.chave q ∧ (a.chave p = a.chave q → p < q)

/-- The tree is keyed by `vruntime`, and no charge is negative. -/
structure Justo (a : ArvoreRB ℕ) (th : ℕ → Sthread) : Prop where
  fila : ∃ l, FilaRB a l ∧ l.Pairwise (Antes a) ∧ ∀ p t, a.elem p = some t → p ∈ l
  no : ∀ p t, a.elem p = some t → a.chave p = (th t).vruntime ∧ a.tid p = t
  contas : ∀ t, 0 ≤ (th t).vruntime ∧ (th t).Positiva

/-- The tree holds a thread or has never held one. -/
def NuncaEsvaziada (a : ArvoreRB ℕ) : Prop := rbArvoreVazia a = true → a.minimo = none

instance (a : ArvoreRB ℕ) : Decidable (NuncaEsvaziada a) := by
  unfold NuncaEsvaziada
  infer_instance

namespace Justo

variable {a : ArvoreRB ℕ} {th : ℕ → Sthread} {t : ℕ}

theorem nova : Justo (rbNovaArvore : ArvoreRB ℕ) fun _ => novaSthread :=
  ⟨⟨[], .nova, .nil, fun _ _ he => (nomatch he)⟩, fun _ _ he => (nomatch he),
    fun _ => ⟨Int.le_refl 0, Int.le_refl 0, Int.one_nonneg, Int.le_refl 0⟩⟩

theorem mem_elementos (h : Justo a th) {p : ℕ} (he : a.elem p = some t) : t ∈ elementos a := by
  obtain ⟨l, hl, -, hmem⟩ := h.fila
  rw [elementos, hl.emOrdem_eq, List.mem_filterMap]
  exact ⟨p, hmem p t he, he⟩

theorem menorChave_nonneg (h : Justo a th) (hn : NuncaEsvaziada a) : 0 ≤ rbMenorChave a := by
  obtain ⟨l, hl, -⟩ := h.fila
  cases l with
  | nil =>
      have hzero : rbMenorChave a = 0 := by rw [rbMenorChave, hn (hl.vazia_iff.mpr rfl)]
      exact Int.le_of_eq hzero.symm
  | cons p l =>
      rw [hl.menorChave rfl]
      exact hl.naoNegativa List.mem_cons_self

/-- A thread that is not in the tree changes. -/
theorem mudar (h : Justo a th) (ht : t ∉ elementos a) {x : Sthread} (hv : 0 ≤ x.vruntime)
    (hx : x.Positiva) : Justo a (Function.update th t x) := by
  refine ⟨h.fila, fun p u he => ?_, fun u => ?_⟩
  · rw [Function.update_of_ne]
    · exact h.no p u he
    · rintro rfl
      exact ht (h.mem_elementos he)
  · rw [Function.update_apply]
    split
    · exact ⟨hv, hx⟩
    · exact h.contas u

theorem inserir (h : Justo a th) : Justo (rbInserirNo a (th t).vruntime t t) th := by
  obtain ⟨l, hl, hord, hmem⟩ := h.fila
  obtain ⟨l₁, l₂, rfl, hl', hle, hgt, hkey, helem, htid, -⟩ :=
    hl.inserir (h.contas t).1 (t : ℤ) t
  have hne : ∀ p ∈ l₁ ++ l₂, p ≠ a.prox := fun p hp => Nat.ne_of_lt (hl.alocado hp)
  have hkeep : ∀ p ∈ l₁ ++ l₂, (rbInserirNo a (th t).vruntime t t).chave p = a.chave p := by
    intro p hp
    rw [hkey, Function.update_of_ne (hne p hp)]
  have hnew : (rbInserirNo a (th t).vruntime t t).chave a.prox = (th t).vruntime := by
    rw [hkey, Function.update_self]
  refine ⟨⟨_, hl', ?_, fun p u he => ?_⟩, fun p u he => ?_, h.contas⟩
  · have hold : (l₁ ++ l₂).Pairwise (Antes (rbInserirNo a (th t).vruntime t t)) := by
      refine hord.imp_of_mem fun hp hq hpq => ?_
      rwa [Antes, hkeep _ hp, hkeep _ hq]
    rw [List.pairwise_append] at hold ⊢
    refine ⟨hold.1, List.pairwise_cons.mpr ⟨fun q hq => ?_, hold.2.1⟩, fun p hp q hq => ?_⟩
    · rw [Antes, hnew, hkeep q (List.mem_append_right _ hq)]
      have := hgt q hq
      exact ⟨by omega, fun he => by omega⟩
    · rcases List.mem_cons.mp hq with rfl | hq
      · rw [Antes, hnew, hkeep p (List.mem_append_left _ hp)]
        exact ⟨hle p hp, fun _ => hl.alocado (List.mem_append_left _ hp)⟩
      · exact hold.2.2 p hp q hq
  · rw [helem, Function.update_apply] at he
    rw [List.mem_append, List.mem_cons]
    split at he
    · exact .inr (.inl ‹_›)
    · exact (List.mem_append.mp (hmem p u he)).imp_right .inr
  · rw [helem, Function.update_apply] at he
    rw [hkey, htid]
    split at he
    · rename_i hp
      obtain rfl := Option.some.inj he
      rw [hp, Function.update_self, Function.update_self]
      exact ⟨rfl, rfl⟩
    · rename_i hp
      rw [Function.update_of_ne hp, Function.update_of_ne hp]
      exact h.no p u he

/-- The first node leaves the tree. -/
theorem extrair (h : Justo a th) {a' : ArvoreRB ℕ} (he : rbExtraiMininimo a = (a', some t)) :
    Justo a' th ∧ ∃ p, a.minimo = some p ∧ a.elem p = some t ∧ a'.chave = a.chave ∧
      a'.tid = a.tid ∧ ∀ q u, a'.elem q = some u → Antes a p q ∧ a.elem q = some u := by
  obtain ⟨l, hl, hord, hmem⟩ := h.fila
  obtain ⟨p, hp, htp⟩ : ∃ p, a.minimo = some p ∧ a.elem p = some t := by
    rw [rbExtraiMininimo] at he
    split at he
    · cases he
    · exact ⟨_, ‹_›, (Prod.mk.inj he).2⟩
  cases l with
  | nil => exact absurd (hmem p t htp) List.not_mem_nil
  | cons q l =>
      obtain rfl : q = p := Option.some.inj ((hl.minimo rfl).symm.trans hp)
      obtain ⟨-, hl', hkey, helem, htid, -⟩ := hl.extrair rfl
      rw [he] at hl' hkey helem htid
      have hout : ∀ r u, a'.elem r = some u → r ≠ q ∧ a.elem r = some u := by
        intro r u hr
        rw [helem, Function.update_apply] at hr
        split at hr
        · cases hr
        · exact ⟨‹_›, hr⟩
      have hin : ∀ r u, a'.elem r = some u → r ∈ l := by
        intro r u hr
        obtain ⟨hne, hr⟩ := hout r u hr
        exact (List.mem_cons.mp (hmem r u hr)).resolve_left hne
      obtain ⟨hfirst, hrest⟩ := List.pairwise_cons.mp hord
      refine ⟨⟨⟨l, hl', ?_, hin⟩, fun r u hr => ?_, h.contas⟩,
        q, hp, htp, hkey, htid, fun r u hr => ⟨hfirst r (hin r u hr), (hout r u hr).2⟩⟩
      · refine hrest.imp fun hpq => ?_
        rwa [Antes, hkey]
      · rw [hkey, htid]
        exact h.no r u (hout r u hr).2

end Justo

theorem guarda_justo : Guarda Justo NuncaEsvaziada where
  contas h hth := by
    refine ⟨h.fila, fun p t he => ?_, fun t => ?_⟩
    · rw [(hth t).1]
      exact h.no p t he
    · rw [(hth t).1]
      exact ⟨(h.contas t).1, (hth t).2 (h.contas t).2⟩
  cobrar {a th t} h ht := by
    obtain ⟨hv, hnice, hprio, hticks⟩ := h.contas t
    refine h.mudar ht ?_ ⟨hnice, hprio, Int.le_refl 0⟩
    have := Int.mul_nonneg (Int.add_nonneg hnice hprio) hticks
    simp only [Sthread.cobrada]
    omega
  inserir h := h.inserir
  extrair h he := (h.extrair he).1
  criar h ht hn hp := h.mudar ht (h.menorChave_nonneg hn) ⟨Int.le_refl 0, hp, Int.le_refl 0⟩

/-- The calls of a thread that uses no monitor. -/
def SemMonitores : Chamada → Prop
  | .monitorInit => False
  | .monitorEnter _ => False
  | .monitorExit _ => False
  | .monitorWait _ => False
  | .monitorSignal _ => False
  | .monitorSignalall _ => False
  | _ => True

instance (c : Chamada) : Decidable (SemMonitores c) :=
  match c with
  | .monitorInit | .monitorEnter _ | .monitorExit _ | .monitorWait _ | .monitorSignal _
  | .monitorSignalall _ => inferInstanceAs (Decidable False)
  | .create _ | .exit _ | .dispatcher | .yield | .join _ | .sleep _ | .nice _ | .mutexInit
  | .mutexLock _ | .mutexUnlock _ | .resume => inferInstanceAs (Decidable True)

/-- Threads are created while the executable tree holds a thread, or before it has held one. -/
def CriaSobreArvore (s : Escalonador) : Chamada → Prop
  | .create _ => NuncaEsvaziada s.exeThr
  | _ => True

instance (s : Escalonador) (c : Chamada) : Decidable (CriaSobreArvore s c) :=
  match c with
  | .create _ => inferInstanceAs (Decidable (NuncaEsvaziada s.exeThr))
  | .exit _ | .dispatcher | .yield | .join _ | .sleep _ | .nice _ | .mutexInit | .mutexLock _
  | .mutexUnlock _ | .monitorInit | .monitorEnter _ | .monitorExit _ | .monitorWait _
  | .monitorSignal _ | .monitorSignalall _ | .resume => inferInstanceAs (Decidable True)

theorem SemMonitores.limpa {c : Chamada} (h : SemMonitores c) (s : Escalonador) : Limpa s c := by
  cases c <;> first | exact trivial | exact absurd h id

/-- The calls keep the executable tree ordered as long as no thread is created over an emptied
tree. -/
theorem passo_justo {s s' : Escalonador} {c : Chamada} {r : Resposta}
    (h : Arrumado Justo s [s.activeThr]) (hp : Valida s c ∧ Limpa s c ∧ CriaSobreArvore s c)
    (he : passo s c = some (s', r)) : Chega Justo s' r := by
  refine passo_chega guarda_justo h hp.1 hp.2.1 (fun p hcr => ?_) he
  subst hcr
  exact hp.2.2

theorem run_justo {s : Escalonador} {cs : List Chamada} {os : List Resposta}
    (hP : Runs.Permitted passo (fun s c => Valida s c ∧ Limpa s c ∧ CriaSobreArvore s c)
      sthreadUserInit cs)
    (hr : Runs.run passo sthreadUserInit cs = some (s, os)) : Arrumado Justo s [s.activeThr] :=
  Runs.run_invariant (I := fun s => Arrumado Justo s [s.activeThr])
    (fun _ _ _ _ hI hp he => (passo_justo hI hp he).arrumado)
    (sthreadUserInit_arrumado Justo.nova) hP hr

/-- The active thread comes first among it and the threads of the executable tree. -/
theorem comutar_justo {s s' : Escalonador} {no : Option ℕ} (h : Justo s.exeThr s.thread)
    (he : s.comutar = .segue s' (.trocou no)) :
    ∃ p, no = some p ∧ s'.exeThr.tid p = s'.activeThr ∧
      ∀ q t, s'.exeThr.elem q = some t →
        (s'.thread s'.activeThr).vruntime ≤ (s'.thread t).vruntime ∧
        ((s'.thread s'.activeThr).vruntime = (s'.thread t).vruntime → p < q) := by
  rw [comutar] at he
  split at he
  · rename_i exe t hx
    obtain ⟨rfl, hno⟩ := Resultado.segue.inj he
    obtain ⟨-, p, hp, htp, -, htid, hrest⟩ := h.extrair hx
    obtain ⟨hkp, htp⟩ := h.no p t htp
    refine ⟨p, ?_, ?_, fun q u hq => ?_⟩
    · rw [← hp]
      exact (Resposta.trocou.inj hno).symm
    · simp only
      rw [htid, htp]
    · obtain ⟨hant, hq⟩ := hrest q u hq
      rw [Antes, hkp, (h.no q u hq).1] at hant
      exact hant
  · cases he

/-- Every thread that is taken from the executable tree has the least `vruntime` there, and has
been inserted first among equals. -/
theorem escolha_justa (cs : List Chamada) (c : Chamada) (s s' : Escalonador)
    (os : List Resposta) (no : Option ℕ)
    (hP : Runs.Permitted passo
      (fun s c => Valida s c ∧ SemMonitores c ∧ CriaSobreArvore s c) sthreadUserInit (cs ++ [c]))
    (hr : Runs.run passo sthreadUserInit cs = some (s, os))
    (hc : passo s c = some (s', .trocou no)) :
    ∃ p, no = some p ∧ s'.exeThr.tid p = s'.activeThr ∧
      ∀ q t, s'.exeThr.elem q = some t →
        (s'.thread s'.activeThr).vruntime ≤ (s'.thread t).vruntime ∧
        ((s'.thread s'.activeThr).vruntime = (s'.thread t).vruntime → p < q) := by
  -- only a wait in a monitor can be unclean
  have hP' : Runs.Permitted passo (fun s c => Valida s c ∧ Limpa s c ∧ CriaSobreArvore s c)
      sthreadUserInit (cs ++ [c]) := hP.mono fun s c hp => ⟨hp.1, hp.2.1.limpa s, hp.2.2⟩
  obtain ⟨hPs, hPc⟩ := Runs.permitted_of_append hP'
  obtain ⟨s₁, h₁, hcom⟩ := (passo_justo (run_justo hPs hr) (hPc s os hr).1 hc).escolha no rfl
  exact comutar_justo h₁.guarda hcom

/-- Three threads of `vruntime` 0: the main thread is inserted last. -/
theorem escolha_justa_exemplo :
    ∃ s s' os no, Runs.run passo sthreadUserInit [.create 1, .create 1] = some (s, os) ∧
      passo s .yield = some (s', .trocou no) ∧
      ∃ p, no = some p ∧ s'.exeThr.tid p = s'.activeThr ∧
        ∀ q t, s'.exeThr.elem q = some t →
          (s'.thread s'.activeThr).vruntime ≤ (s'.thread t).vruntime ∧
          ((s'.thread s'.activeThr).vruntime = (s'.thread t).vruntime → p < q) :=
  ⟨_, _, _, _, rfl, rfl,
    escolha_justa [.create 1, .create 1] .yield _ _ _ _ (by decide) rfl rfl⟩

/-- Thread 2 sleeps and the main thread, which has emptied the tree, creates thread 3: its
`vruntime` is -1, and a yield of the main thread chooses the main thread, at 0. -/
theorem escolha_injusta :
    ∃ s os s' no, Runs.Permitted passo (fun s c => Valida s c ∧ SemMonitores c) sthreadUserInit
        ([.create 1, .yield, .sleep 50000, .create 1] ++ [.yield]) ∧
      Runs.run passo sthreadUserInit [.create 1, .yield, .sleep 50000, .create 1] = some (s, os) ∧
      passo s .yield = some (s', .trocou no) ∧ s'.exeThr.elem 4 = some 3 ∧
      (s'.thread 3).vruntime < (s'.thread s'.activeThr).vruntime := by
  have hrun : ((Runs.run passo sthreadUserInit
      [.create 1, .yield, .sleep 50000, .create 1]).bind fun x => (passo x.1 .yield).map fun y =>
        (y.2, (y.1.thread y.1.activeThr).vruntime, y.1.exeThr.elem 4, (y.1.thread 3).vruntime)) =
      some (.trocou (some 5), 0, some 3, -1) := by decide
  obtain ⟨x, hx, hy⟩ := Option.bind_eq_some_iff.mp hrun
  obtain ⟨y, hy, he⟩ := Option.map_eq_some_iff.mp hy
  simp only [Prod.mk.injEq] at he
  obtain ⟨hr, hact, helem, hnew⟩ := he
  exact ⟨x.1, x.2, y.1, some 5, by decide, hx, by rw [hy, ← hr], helem, by omega⟩

end ThreadScheduler.SthreadLib
