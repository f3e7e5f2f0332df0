import ThreadScheduler.SthreadLib.SchedulerFairness

/-!
# How far apart the virtual runtimes get

A thread is charged for at most five ticks at a time, and only while its `vruntime` is the least of
all executable threads: at a tick that does not preempt it, or where it goes on in the dispatcher
when it has just been chosen.
-/
namespace ThreadScheduler.SthreadLib

open ArvoreRB Escalonador

variable {s s' : Escalonador} {r : Resposta}

/-- The threads that can run. -/
def executaveis (s : Escalonador) : List ℕ := s.activeThr :: elementos s.exeThr

/-- Five ticks at the weight 20. -/
def maxDesvio : ℤ := minDelay * 20

/-- The fields that a charge depends on. -/
structure Pesado (s : Escalonador) : Prop where
  pesos : ∀ t, (s.thread t).nice ≤ 10 ∧ (s.thread t).priority ≤ 10
  pulsos : ∀ t, s.ponto t = .livre ∧ (s.thread t).timesRunned < minDelay ∨
    s.ponto t = .noDespacho .livre ∧ (s.thread t).timesRunned ≤ minDelay
  ninguemDorme : s.sleepThr = rbNovaArvore

/-- No two executable threads are further apart than one charge. -/
def Perto (s : Escalonador) : Prop :=
  ∀ t ∈ executaveis s, ∀ u ∈ executaveis s,
    (s.thread t).vruntime - (s.thread u).vruntime ≤ maxDesvio

/-- No executable thread is before the active one. -/
def Primeira (s : Escalonador) : Prop :=
  ∀ u ∈ elementos s.exeThr, (s.thread s.activeThr).vruntime ≤ (s.thread u).vruntime

/-- The invariant. A thread that goes on in the dispatcher has just been chosen. -/
structure Equilibrio (s : Escalonador) : Prop where
  arrumado : Arrumado Justo s [s.activeThr]
  pesado : Pesado s
  perto : Perto s
  primeira : s.ponto s.activeThr ≠ .livre → Primeira s

theorem exists_no {a : ArvoreRB ℕ} {u : ℕ} (hu : u ∈ elementos a) : ∃ q, a.elem q = some u := by
  obtain ⟨q, -, hq⟩ := List.mem_filterMap.mp hu
  exact ⟨q, hq⟩

/-- The least key is at most every `vruntime`. -/
theorem Justo.menorChave_le {a : ArvoreRB ℕ} {th : ℕ → Sthread} (h : Justo a th) {u : ℕ}
    (hu : u ∈ elementos a) : rbMenorChave a ≤ (th u).vruntime := by
  obtain ⟨l, hl, hord, hmem⟩ := h.fila
  obtain ⟨q, hq⟩ := exists_no hu
  have hql := hmem q u hq
  rw [← (h.no q u hq).1]
  cases l with
  | nil => exact absurd hql List.not_mem_nil
  | cons p l =>
      rw [hl.menorChave rfl]
      rcases List.mem_cons.mp hql with rfl | hql
      · exact Int.le_refl _
      · exact ((List.pairwise_cons.mp hord).1 q hql).1

/-! ## The calls -/

/-- A yield chooses the least `vruntime` and changes none. -/
theorem sthreadUserYield_equilibrio (h : Arrumado Justo s [s.activeThr]) (hp : Pesado s)
    (hperto : Perto s) (he : sthreadUserYield s = .segue s' r) : Equilibrio s' := by
  have hins := h.rbInserir guarda_justo
  have harr := (sthreadUserYield_chega guarda_justo h he).arrumado
  obtain ⟨-, hperm⟩ := h.exe.inserir (s.thread s.activeThr).vruntime s.activeThr s.activeThr
  rw [sthreadUserYield, comutar] at he
  split at he
  · rename_i exe t hx
    obtain ⟨rfl, -⟩ := Resultado.segue.inj he
    obtain ⟨-, hperm'⟩ := hins.exe.extrair hx
    have hsame : (t :: elementos exe).Perm (executaveis s) := hperm'.symm.trans hperm
    obtain ⟨-, p, -, htp, -, -, hrest⟩ := hins.guarda.extrair hx
    refine ⟨harr, ⟨hp.pesos, hp.pulsos, hp.ninguemDorme⟩, fun u hu v hv => ?_, fun _ u hu => ?_⟩
    · exact hperto u (hsame.mem_iff.mp hu) v (hsame.mem_iff.mp hv)
    · obtain ⟨q, hq⟩ := exists_no hu
      obtain ⟨hant, hq⟩ := hrest q u hq
      have hkp := (hins.guarda.no p t htp).1
      have hkq := (hins.guarda.no q u hq).1
      have := hant.1
      rw [hkp, hkq] at this
      exact this
  · cases he

/-- The end of the dispatcher charges the active thread if it has run for five ticks. -/
theorem fimDispatcher_equilibrio (h : Arrumado Justo s [s.activeThr])
    (hpesos : ∀ t, (s.thread t).nice ≤ 10 ∧ (s.thread t).priority ≤ 10)
    (hpulsos : ∀ t, t ≠ s.activeThr → s.ponto t = .livre ∧ (s.thread t).timesRunned < minDelay ∨
      s.ponto t = .noDespacho .livre ∧ (s.thread t).timesRunned ≤ minDelay)
    (hpulso : (s.thread s.activeThr).timesRunned ≤ minDelay)
    (hdorme : s.sleepThr = rbNovaArvore) (hperto : Perto s) (hprimeira : Primeira s) :
    Equilibrio ((fimDispatcher s).parar s.activeThr .livre) := by
  have harr := (h.fimDispatcher guarda_justo).parar s.activeThr .livre trivial
  rw [fimDispatcher] at harr ⊢
  have hponto : ∀ t, t ≠ s.activeThr →
      Function.update s.ponto s.activeThr .livre t = s.ponto t := fun t ht =>
    Function.update_of_ne ht ..
  have hself : Function.update s.ponto s.activeThr Ponto.livre s.activeThr = .livre :=
    Function.update_self ..
  simp only at harr ⊢
  split
  · rename_i hlt
    rw [if_pos hlt] at harr
    refine ⟨harr, ⟨hpesos, fun t => ?_, hdorme⟩, hperto, fun hne => absurd hself hne⟩
    by_cases ht : t = s.activeThr
    · subst ht
      exact .inl ⟨hself, hlt⟩
    · show Function.update s.ponto s.activeThr .livre t = _ ∧ _ ∨
        Function.update s.ponto s.activeThr .livre t = _ ∧ _
      rw [hponto t ht]
      exact hpulsos t ht
  · rename_i hlt
    rw [if_neg hlt] at harr
    obtain ⟨-, hnice, hprio, -⟩ := h.guarda.contas s.activeThr
    have hticks : (s.thread s.activeThr).timesRunned = 5 := by
      simp only [minDelay] at hlt hpulso
      omega
    have hpeso := hpesos s.activeThr
    have hfora : ∀ u ∈ elementos s.exeThr, u ≠ s.activeThr := by
      rintro u hu rfl
      exact h.notMem_exe hu
    -- the others keep their `vruntime`, and that of the active thread grows by at most 100
    have hv : ∀ u, ((((({ s with clock := s.clock + 1 } : Escalonador).mudar s.activeThr
        Sthread.cobrada).parar s.activeThr .livre).thread u).vruntime =
        if u = s.activeThr then (s.thread u).vruntime +
          ((s.thread u).nice + (s.thread u).priority) * 5 else (s.thread u).vruntime) := by
      intro u
      simp only [Escalonador.parar, Escalonador.mudar, Function.update_apply]
      split
      · rename_i hu
        rw [hu, Sthread.cobrada, hticks]
      · rfl
    refine ⟨harr, ⟨fun t => ?_, fun t => ?_, hdorme⟩, fun t ht u hu => ?_,
      fun hne => absurd hself hne⟩
    · simp only [Escalonador.parar, Escalonador.mudar, Function.update_apply]
      split
      · rename_i ht
        rw [← ht]
        exact hpesos t
      · exact hpesos t
    · by_cases ht : t = s.activeThr
      · subst ht
        refine .inl ⟨hself, ?_⟩
        simp [Escalonador.parar, Escalonador.mudar, minDelay]
      · simp only [Escalonador.parar, Escalonador.mudar, Function.update_of_ne ht]
        exact hpulsos t ht
    · have ht : t ∈ executaveis s := ht
      have hu : u ∈ executaveis s := hu
      have htu := hperto t ht u hu
      refine Int.le_trans (Int.le_of_eq (congrArg₂ _ (hv t) (hv u))) ?_
      simp only [maxDesvio, minDelay] at htu ⊢
      split
      · rename_i hta
        subst hta
        split
        · rename_i hua
          rw [hua]
          omega
        · rename_i hua
          have := hprimeira u ((List.mem_cons.mp hu).resolve_left hua)
          omega
      · split
        · rename_i hua
          rw [hua] at htu ⊢
          omega
        · exact htu

theorem acordarProcessos_ninguem (hs : s.sleepThr = rbNovaArvore) :
    acordarProcessos s.sleepThr.prox s (s.sleepThr.esq raiz) = some s := by
  rw [hs]
  rfl

theorem sthreadUserDispatcher_equilibrio (h : Equilibrio s) (hlivre : s.ponto s.activeThr = .livre)
    (he : sthreadUserDispatcher s = .segue s' r) : Equilibrio s' := by
  obtain ⟨s₁, hs₁, hcases⟩ := sthreadUserDispatcher_cases s
  -- the state after the accounting
  have hact : s₁.activeThr = s.activeThr := by
    rw [hs₁.1]
    rfl
  have hexe : s₁.exeThr = s.exeThr := by
    rw [hs₁.1]
    rfl
  have hponto : s₁.ponto = s.ponto := by
    rw [hs₁.1]
    rfl
  have hsleep : s₁.sleepThr = rbNovaArvore := by
    rw [hs₁.1]
    exact h.pesado.ninguemDorme
  have hpulso : ∀ t, (s.pulsar.thread t).vruntime = (s.thread t).vruntime ∧
      (s.pulsar.thread t).nice = (s.thread t).nice ∧
      (s.pulsar.thread t).priority = (s.thread t).priority ∧
      (s.pulsar.thread t).timesRunned =
        (s.thread t).timesRunned + if t = s.activeThr then 1 else 0 := by
    intro t
    simp only [pulsar, Escalonador.mudar, Function.update_apply]
    split
    · rename_i ht
      subst ht
      exact ⟨rfl, rfl, rfl, rfl⟩
    · exact ⟨rfl, rfl, rfl, (Int.add_zero _).symm⟩
  have hcampos : ∀ t, (s₁.thread t).vruntime = (s.thread t).vruntime ∧
      (s₁.thread t).nice = (s.thread t).nice ∧ (s₁.thread t).priority = (s.thread t).priority ∧
      (s₁.thread t).timesRunned =
        (s.thread t).timesRunned + if t = s.activeThr then 1 else 0 := by
    intro t
    rw [hs₁.2 t]
    exact hpulso t
  have harr : Arrumado Justo s₁ [s₁.activeThr] := by
    have hp : Arrumado Justo s.pulsar [s.activeThr] := by
      refine h.arrumado.mudar guarda_justo ⟨rfl, fun hth => ⟨hth.1, hth.2.1, ?_⟩⟩
      have := hth.2.2
      simp only
      omega
    rw [hact]
    exact hp.soTempos guarda_justo hs₁
  have hpesos : ∀ t, (s₁.thread t).nice ≤ 10 ∧ (s₁.thread t).priority ≤ 10 := by
    intro t
    rw [(hcampos t).2.1, (hcampos t).2.2.1]
    exact h.pesado.pesos t
  have hpulsos : ∀ t, t ≠ s₁.activeThr →
      s₁.ponto t = .livre ∧ (s₁.thread t).timesRunned < minDelay ∨
      s₁.ponto t = .noDespacho .livre ∧ (s₁.thread t).timesRunned ≤ minDelay := by
    intro t ht
    rw [hact] at ht
    rw [hponto, (hcampos t).2.2.2, if_neg ht, Int.add_zero]
    exact h.pesado.pulsos t
  have hticks : (s₁.thread s₁.activeThr).timesRunned ≤ minDelay := by
    rw [hact, (hcampos _).2.2.2, if_pos rfl]
    rcases h.pesado.pulsos s.activeThr with hp | hp
    · omega
    · rw [hlivre] at hp
      exact Ponto.noConfusion hp.1
  have hperto : Perto s₁ := by
    intro t ht u hu
    rw [(hcampos t).1, (hcampos u).1]
    rw [executaveis, hact, hexe] at ht hu
    exact h.perto t ht u hu
  rw [acordarProcessos_ninguem hsleep] at hcases
  obtain ⟨hno, -⟩ | ⟨s₂, hs₂, hfim⟩ := hcases
  · cases hno
  · obtain rfl := Option.some.inj hs₂
    obtain ⟨-, hy⟩ | ⟨hk, hy⟩ := hfim
    · rw [hy] at he
      have hpar := harr.parar s₁.activeThr (.noDespacho (s₁.ponto s₁.activeThr))
        (harr.calmo s₁.activeThr)
      refine sthreadUserYield_equilibrio hpar ⟨hpesos, fun t => ?_, hsleep⟩ hperto he
      simp only [Escalonador.parar, Function.update_apply]
      split
      · rename_i ht
        rw [ht, hponto, hact, hlivre]
        rw [hact] at hticks
        exact .inr ⟨rfl, hticks⟩
      · rename_i ht
        exact hpulsos t ht
    · rw [hy] at he
      obtain ⟨rfl, -⟩ := Resultado.segue.inj he
      -- the active thread has been compared to the least key
      have hprimeira : Primeira s₁ := by
        intro u hu
        have hle := harr.guarda.menorChave_le hu
        obtain ⟨-, hnice, hprio, hn⟩ := harr.guarda.contas s₁.activeThr
        have hcob := Int.mul_nonneg (Int.add_nonneg hnice hprio) hn
        rw [porCobrar] at hk
        omega
      have hfim := fimDispatcher_equilibrio harr hpesos hpulsos hticks hsleep hperto hprimeira
      have hsame : (fimDispatcher s₁).parar s₁.activeThr .livre = fimDispatcher s₁ := by
        have hl : (fimDispatcher s₁).ponto s₁.activeThr = .livre := by
          have : (fimDispatcher s₁).ponto = s₁.ponto := by
            rw [fimDispatcher]
            simp only
            split <;> rfl
          rw [this, hponto, hact, hlivre]
        rw [Escalonador.parar, ← hl, Function.update_eq_self]
      rw [hsame] at hfim
      exact hfim

theorem sthreadNice_equilibrio (h : Equilibrio s) {nice : ℤ}
    (he : sthreadNice s nice = .segue s' r) :
    Equilibrio s' := by
  have harr := (sthreadNice_chega guarda_justo h.arrumado he).arrumado
  obtain ⟨rfl, -⟩ := Resultado.segue.inj he
  have hv : ∀ f : Sthread → Sthread, (∀ th, (f th).vruntime = th.vruntime) → ∀ t,
      ((s.mudar s.activeThr f).thread t).vruntime = (s.thread t).vruntime := by
    intro f hf t
    simp only [Escalonador.mudar, Function.update_apply]
    split
    · rename_i ht
      rw [ht, hf]
    · rfl
  refine ⟨harr, ⟨fun t => ?_, fun t => ?_, h.pesado.ninguemDorme⟩, fun t ht u hu => ?_,
    fun hne u hu => ?_⟩
  · simp only [Escalonador.mudar, Function.update_apply]
    split
    · refine ⟨?_, (h.pesado.pesos s.activeThr).2⟩
      simp only
      split
      · decide
      · split <;> omega
    · exact h.pesado.pesos t
  · simp only [Escalonador.mudar, Function.update_apply]
    split
    · rename_i ht
      subst ht
      exact h.pesado.pulsos s.activeThr
    · exact h.pesado.pulsos t
  · have := h.perto t ht u hu
    refine Int.le_trans (Int.le_of_eq (congrArg₂ _ (hv _ ?_ t) (hv _ ?_ u))) this <;>
      exact fun _ => rfl
  · have := h.primeira hne u hu
    refine Int.le_trans (Int.le_of_eq (hv _ ?_ _))
      (Int.le_trans this (Int.le_of_eq (hv _ ?_ u).symm)) <;> exact fun _ => rfl

/-- A tick, a yield, a change of weight, or the rest of a dispatcher. -/
def SoTempo : Chamada → Prop
  | .dispatcher => True
  | .yield => True
  | .nice _ => True
  | .resume => True
  | _ => False

instance (c : Chamada) : Decidable (SoTempo c) :=
  match c with
  | .dispatcher | .yield | .nice _ | .resume => inferInstanceAs (Decidable True)
  | .create _ | .exit _ | .join _ | .sleep _ | .mutexInit | .mutexLock _ | .mutexUnlock _
  | .monitorInit | .monitorEnter _ | .monitorExit _ | .monitorWait _ | .monitorSignal _
  | .monitorSignalall _ => inferInstanceAs (Decidable False)

theorem Equilibrio.passo (h : Equilibrio s) {c : Chamada} (hc : SoTempo c)
    (he : passo s c = some (s', r)) : Equilibrio s' := by
  obtain ⟨hp, he⟩ | ⟨mon, hp, -⟩ | ⟨-, he⟩ | he := executa_cases (passo_eq_some.mp he)
  · cases c with
    | dispatcher => exact sthreadUserDispatcher_equilibrio h hp he
    | yield => exact sthreadUserYield_equilibrio h.arrumado h.pesado h.perto he
    | nice nice => exact sthreadNice_equilibrio h he
    | resume => cases he
    | _ => exact absurd hc id
  · rcases h.pesado.pulsos s.activeThr with hl | hl <;> rw [hp] at hl <;> cases hl.1
  · rcases h.pesado.pulsos s.activeThr with ⟨hl, -⟩ | ⟨hl, hn⟩
    · rw [hl] at he
      cases he
    · rw [hl] at he
      obtain ⟨rfl, -⟩ := Resultado.segue.inj he
      refine fimDispatcher_equilibrio h.arrumado h.pesado.pesos (fun t _ => h.pesado.pulsos t) hn
        h.pesado.ninguemDorme h.perto (h.primeira ?_)
      rw [hl]
      exact Ponto.noConfusion
  · cases he

/-! ## Before the first tick -/

/-- All threads are as new. -/
structure Novas (s : Escalonador) : Prop where
  arrumado : Arrumado Justo s [s.activeThr]
  ponto : ∀ t, s.ponto t = .livre
  thread : ∀ t, (s.thread t).vruntime = 0 ∧ (s.thread t).timesRunned = 0 ∧
    (s.thread t).nice ≤ 10 ∧ (s.thread t).priority ≤ 10
  ninguemDorme : s.sleepThr = rbNovaArvore
  cheia : NuncaEsvaziada s.exeThr

theorem Novas.equilibrio (h : Novas s) : Equilibrio s := by
  refine ⟨h.arrumado, ⟨fun t => (h.thread t).2.2, fun t => .inl ⟨h.ponto t, ?_⟩, h.ninguemDorme⟩,
    fun t _ u _ => ?_, fun hne => absurd (h.ponto _) hne⟩
  · rw [(h.thread t).2.1]
    decide
  · rw [(h.thread t).1, (h.thread u).1]
    decide

theorem Novas.create (h : Novas s) {p : ℤ} (he : passo s (.create p) = some (s', r)) :
    Novas s' := by
  have harr := (passo_chega guarda_justo h.arrumado (c := .create p) trivial trivial
    (fun _ _ => h.cheia) he).arrumado
  have hchama : sthreadUserCreate s p = .segue s' r := by
    have hex := passo_eq_some.mp he
    unfold executa at hex
    rw [h.ponto] at hex
    exact hex
  obtain ⟨rfl, -⟩ := Resultado.segue.inj hchama
  have hmenor : rbMenorChave s.exeThr = 0 := by
    have hge := h.arrumado.guarda.menorChave_nonneg h.cheia
    by_cases hv : rbArvoreVazia s.exeThr = true
    · rw [rbMenorChave, h.cheia hv]
    · have hne : elementos s.exeThr ≠ [] := fun he => hv (h.arrumado.exe.vazia_iff.mpr he)
      obtain ⟨u, hu⟩ := List.exists_mem_of_ne_nil _ hne
      have hle := h.arrumado.guarda.menorChave_le hu
      rw [(h.thread u).1] at hle
      omega
  refine ⟨harr, fun t => ?_, fun t => ?_, h.ninguemDorme, fun hv => ?_⟩
  · simp only [Escalonador.rbInserir, Escalonador.parar, Function.update_apply]
    split
    · rfl
    · exact h.ponto t
  · simp only [Escalonador.rbInserir, Escalonador.parar, Function.update_apply]
    split
    · refine ⟨hmenor, rfl, show (0 : ℤ) ≤ 10 by decide, ?_⟩
      simp only
      split
      · decide
      · split <;> omega
    · exact h.thread t
  · exact absurd (harr.exe.vazia_iff.mp hv) (h.arrumado.exe.inserir_cheia _ _ _)

theorem sthreadUserInit_novas : Novas sthreadUserInit :=
  ⟨sthreadUserInit_arrumado Justo.nova, fun _ => rfl,
    fun _ => ⟨rfl, rfl, show (0 : ℤ) ≤ 10 by decide, show (1 : ℤ) ≤ 10 by decide⟩, rfl,
    fun _ => rfl⟩

/-! ## Runs -/

/-- The main thread creates threads, and then only time passes: the executable threads are at most
one charge apart. -/
theorem desvio_limitado (ps : List ℤ) (cs : List Chamada) (hcs : ∀ c ∈ cs, SoTempo c)
    (s : Escalonador) (os : List Resposta)
    (hr : Runs.run passo sthreadUserInit (ps.map .create ++ cs) = some (s, os)) :
    ∀ t ∈ executaveis s, ∀ u ∈ executaveis s,
      (s.thread t).vruntime - (s.thread u).vruntime ≤ 100 := by
  obtain ⟨s₀, os₀, os₁, h₀, h₁, -⟩ := Runs.run_append_eq_some hr
  have hnovas : Novas s₀ := by
    refine Runs.run_invariant (I := Novas) (P := fun _ c => ∃ p, c = .create p)
      (fun s c s' o hI hp he => ?_) sthreadUserInit_novas
      (Runs.permitted_of_forall fun c hc s => ?_)
      h₀
    · obtain ⟨p, rfl⟩ := hp
      exact hI.create he
    · obtain ⟨p, -, rfl⟩ := List.mem_map.mp hc
      exact ⟨p, rfl⟩
  have hfim : Equilibrio s :=
    Runs.run_invariant (I := Equilibrio) (P := fun _ c => SoTempo c)
      (fun _ _ _ _ hI hp he => hI.passo hp he) hnovas.equilibrio
      (Runs.permitted_of_forall fun c hc _ => hcs c hc) h₁
  exact hfim.perto

/-- Two threads, each preempted by its first tick. -/
theorem desvio_limitado_exemplo :
    ∃ s os, Runs.run passo sthreadUserInit ([10].map .create ++
        [.nice 10, .dispatcher, .nice 10, .dispatcher, .resume]) = some (s, os) ∧
      ∀ t ∈ executaveis s, ∀ u ∈ executaveis s,
        (s.thread t).vruntime - (s.thread u).vruntime ≤ 100 :=
  ⟨_, _, rfl, desvio_limitado [10]
    [.nice 10, .dispatcher, .nice 10, .dispatcher, .resume] (by decide) _ _ rfl⟩

end ThreadScheduler.SthreadLib
