import ThreadScheduler.SthreadLib.SchedulerSteps

/-!
# The places in every run

Every step keeps the places, as long as the unlock of a `monitor_wait` ends at once and does not
switch to the next owner. Where it switches, the thread goes to the executable tree while it is in
the queue of the monitor.
-/
namespace ThreadScheduler.SthreadLib

open ArvoreRB Escalonador

variable {J : ArvoreRB ℕ → (ℕ → Sthread) → Prop} {podeCriar : ArvoreRB ℕ → Prop}
  {s s' : Escalonador} {r : Resposta}

/-- What a call asks for in order that no thread is in two places. -/
def Limpa (s : Escalonador) : Chamada → Prop
  | .monitorWait mon => EsperaLimpa s mon
  | _ => True

instance (s : Escalonador) (mon : ℕ) : Decidable (EsperaLimpa s mon) := by
  unfold EsperaLimpa
  infer_instance

instance (s : Escalonador) (c : Chamada) : Decidable (Limpa s c) :=
  match c with
  | .monitorWait mon => inferInstanceAs (Decidable (EsperaLimpa s mon))
  | .create _ | .exit _ | .dispatcher | .yield | .join _ | .sleep _ | .nice _ | .mutexInit
  | .mutexLock _ | .mutexUnlock _ | .monitorInit | .monitorEnter _ | .monitorExit _
  | .monitorSignal _ | .monitorSignalall _ | .resume => inferInstanceAs (Decidable True)

instance (s : Escalonador) (c : Chamada) : Decidable (Valida s c) :=
  match c with
  | .join thread => inferInstanceAs (Decidable (0 < thread ∧ thread < s.tidGen))
  | .mutexLock m | .mutexUnlock m => inferInstanceAs (Decidable (m < s.mutexIdGen))
  | .monitorEnter mon | .monitorExit mon | .monitorWait mon | .monitorSignal mon
  | .monitorSignalall mon => inferInstanceAs (Decidable (mon < s.monitorIdGen))
  | .create _ | .exit _ | .dispatcher | .yield | .sleep _ | .nice _ | .mutexInit | .monitorInit
  | .resume => inferInstanceAs (Decidable True)

theorem chamar_chega (hJ : Guarda J podeCriar) (h : Arrumado J s [s.activeThr]) {c : Chamada}
    (hv : Valida s c) (hl : Limpa s c) (hc : ∀ p, c = .create p → podeCriar s.exeThr)
    (he : chamar s c = .segue s' r) : Chega J s' r := by
  cases c with
  | create p => exact sthreadUserCreate_chega hJ h (hc p rfl) he
  | exit ret => exact sthreadUserExit_chega hJ h he
  | dispatcher => exact sthreadUserDispatcher_chega hJ h he
  | yield => exact sthreadUserYield_chega hJ h he
  | join t => exact sthreadUserJoin_chega hJ h he
  | sleep time => exact sthreadUserSleep_chega hJ h he
  | nice nice => exact sthreadNice_chega hJ h he
  | mutexInit =>
      obtain ⟨rfl, rfl⟩ := Resultado.segue.inj he
      exact .fica (h.novoMutex (-1)) (fun no => Resposta.noConfusion)
  | mutexLock m => exact sthreadUserMutexLock_chega hJ h hv he
  | mutexUnlock m =>
      exact sthreadUserMutexUnlock_chega hJ h hv (show (Ponto.emUnlock m).calmo from trivial) he
  | monitorInit => exact sthreadUserMonitorInit_chega h he
  | monitorEnter mon => exact sthreadUserMutexLock_chega hJ h (h.monitores mon hv) he
  | monitorExit mon =>
      exact sthreadUserMutexUnlock_chega hJ h (h.monitores mon hv)
        (show (Ponto.emUnlock (s.monitor mon).mutex).calmo from trivial) he
  | monitorWait mon => exact sthreadUserMonitorWait_chega hJ h hv hl he
  | monitorSignal mon => exact sthreadUserMonitorSignal_chega h hv he
  | monitorSignalall mon => exact sthreadUserMonitorSignalall_chega h hv he
  | resume => cases he

theorem retomar_chega (hJ : Guarda J podeCriar) (h : Arrumado J s [s.activeThr]) {p : Ponto}
    (hp : p.calmo) (he : retomar s p = .segue s' r) : Chega J s' r := by
  cases p with
  | livre => cases he
  | noDespacho antes =>
      obtain ⟨rfl, rfl⟩ := Resultado.segue.inj he
      have hact : (fimDispatcher s).activeThr = s.activeThr := by
        rw [fimDispatcher]
        split <;> rfl
      refine .fica ?_ (fun no => Resposta.noConfusion)
      exact (h.fimDispatcher hJ).parar s.activeThr antes hp
  | emJoin alvo =>
      obtain ⟨rfl, rfl⟩ := Resultado.segue.inj he
      exact .fica (h.parar s.activeThr .livre trivial) (fun no => Resposta.noConfusion)
  | emLock m =>
      obtain ⟨rfl, rfl⟩ := Resultado.segue.inj he
      exact .fica (h.parar s.activeThr .livre trivial) (fun no => Resposta.noConfusion)
  | emUnlock m =>
      obtain ⟨rfl, rfl⟩ := Resultado.segue.inj he
      have hflag := h.mudarTrinco m (fun lock => { lock with l := false }) rfl
      exact .fica (hflag.parar s.activeThr .livre trivial) (fun no => Resposta.noConfusion)
  | girando mon => exact absurd hp id
  | emWaitUnlock mon => exact absurd hp id
  | emWait mon =>
      obtain ⟨rfl, rfl⟩ := Resultado.segue.inj he
      exact .fica (h.parar s.activeThr .livre trivial) (fun no => Resposta.noConfusion)
  | terminada => cases he

/-- A thread calls out of its own code, or is interrupted in the spin, or goes on. -/
theorem executa_cases {c : Chamada} {res : Resultado} (he : executa s c = res) :
    s.ponto s.activeThr = .livre ∧ chamar s c = res ∨
      (∃ mon, s.ponto s.activeThr = .girando mon ∧ c = .dispatcher ∧
        sthreadUserDispatcher s = res) ∨
      c = .resume ∧ retomar s (s.ponto s.activeThr) = res ∨ res = .impossivel := by
  unfold executa at he
  split at he
  · exact .inl ⟨‹_›, he⟩
  · exact .inr (.inl ⟨_, ‹_›, rfl, he⟩)
  · exact .inr (.inr (.inl ⟨rfl, he⟩))
  · exact .inr (.inr (.inr he.symm))

theorem passo_eq_some {c : Chamada} : passo s c = some (s', r) ↔ executa s c = .segue s' r := by
  unfold passo
  split
  · rename_i hex
    rw [hex]
    simp
  · rename_i hex
    exact iff_of_false (fun he => nomatch he) (hex s' r)

theorem passo_chega (hJ : Guarda J podeCriar) (h : Arrumado J s [s.activeThr]) {c : Chamada}
    (hv : Valida s c) (hl : Limpa s c) (hc : ∀ p, c = .create p → podeCriar s.exeThr)
    (he : passo s c = some (s', r)) : Chega J s' r := by
  have hcalmo := h.calmo s.activeThr
  obtain ⟨-, he⟩ | ⟨mon, hp, -⟩ | ⟨-, he⟩ | he := executa_cases (passo_eq_some.mp he)
  · exact chamar_chega hJ h hv hl hc he
  · rw [hp] at hcalmo
    exact absurd hcalmo id
  · exact retomar_chega hJ h hcalmo he
  · cases he

theorem sthreadUserInit_arrumado (hJ : J rbNovaArvore fun _ => novaSthread) :
    Arrumado J sthreadUserInit [1] := by
  have hvazia : elementos (rbNovaArvore : ArvoreRB ℕ) = [] := SacoRB.nova.vazia_iff.mp rfl
  refine ⟨.nova, .nova, hJ, fun t => ?_, fun mon h => absurd h (Nat.not_lt_zero mon),
    fun _ => trivial⟩
  simp only [count_fora, sthreadUserInit, hvazia, emFilas, List.range_zero, List.flatMap_nil,
    List.count_nil, Nat.add_zero, List.count_singleton, beq_iff_eq]
  exact if_congr (by omega) rfl rfl

/-- Nothing is known of the executable tree. -/
theorem guarda_trivial : Guarda (fun _ _ => True) (fun _ => True) :=
  ⟨fun _ _ => trivial, fun _ _ => trivial, fun _ => trivial, fun _ _ => trivial,
    fun _ _ _ _ => trivial⟩

theorem run_arrumado {cs : List Chamada} {os : List Resposta}
    (hP : Runs.Permitted passo (fun s c => Valida s c ∧ Limpa s c) sthreadUserInit cs)
    (hr : Runs.run passo sthreadUserInit cs = some (s, os)) :
    Arrumado (fun _ _ => True) s [s.activeThr] :=
  Runs.run_invariant (I := fun s => Arrumado (fun _ _ => True) s [s.activeThr])
    (fun _ _ _ _ hI hp he =>
      (passo_chega guarda_trivial hI hp.1 hp.2 (fun _ _ => trivial) he).arrumado)
    (sthreadUserInit_arrumado trivial) hP hr

/-- Every thread is in one place, and one that waits in a monitor is not runnable. -/
theorem lugares_unicos (cs : List Chamada) (s : Escalonador) (os : List Resposta)
    (hP : Runs.Permitted passo (fun s c => Valida s c ∧ Limpa s c) sthreadUserInit cs)
    (hr : Runs.run passo sthreadUserInit cs = some (s, os)) :
    (∀ t, 0 < t → t < s.tidGen → (lugares s).count t = 1) ∧
      ∀ mon < s.monitorIdGen, ∀ t ∈ (s.monitor mon).queue,
        t ≠ s.activeThr ∧ t ∉ elementos s.exeThr := by
  have h := run_arrumado hP hr
  have hlugares : ∀ t, (lugares s).count t = [s.activeThr].count t + (fora s).count t := by
    intro t
    rw [lugares, List.count_cons, List.count_cons, List.count_nil]
    omega
  refine ⟨fun t hpos hlt => ?_, fun mon hmon t ht => ?_⟩
  · rw [hlugares, h.conta, if_pos ⟨hpos, hlt⟩]
  · have hle := h.count_le t
    have hfila : 0 < (emFilas s.monitorIdGen fun mon => (s.monitor mon).queue).count t :=
      List.count_pos_iff.mpr (mem_emFilas.mpr ⟨mon, hmon, ht⟩)
    rw [count_fora] at hle
    refine ⟨?_, fun hm => ?_⟩
    · rintro rfl
      rw [List.count_cons_self] at hle
      omega
    · have := List.count_pos_iff.mpr hm
      omega

/-- The main thread waits in a monitor, and thread 2 runs. -/
theorem lugares_unicos_exemplo :
    ∃ s os, Runs.run passo sthreadUserInit
        [.monitorInit, .create 1, .monitorEnter 0, .monitorWait 0] = some (s, os) ∧
      (∀ t, 0 < t → t < s.tidGen → (lugares s).count t = 1) ∧
      ∀ mon < s.monitorIdGen, ∀ t ∈ (s.monitor mon).queue,
        t ≠ s.activeThr ∧ t ∉ elementos s.exeThr :=
  ⟨_, _, rfl, lugares_unicos [.monitorInit, .create 1, .monitorEnter 0, .monitorWait 0] _ _
    (by decide) rfl⟩

/-- Thread 2 waits for the mutex when the main thread, which has run for a tick, waits in the
monitor: the unlock switches to thread 2, with the main thread in the executable tree too. -/
theorem lugares_duplicados :
    ∃ s os, Runs.Permitted passo Valida sthreadUserInit [.monitorInit, .create 1, .monitorEnter 0,
        .yield, .monitorEnter 0, .dispatcher, .resume, .monitorWait 0] ∧
      Runs.run passo sthreadUserInit [.monitorInit, .create 1, .monitorEnter 0, .yield,
        .monitorEnter 0, .dispatcher, .resume, .monitorWait 0] = some (s, os) ∧
      1 < s.tidGen ∧ (lugares s).count 1 = 2 := by
  obtain ⟨s, os, hrun, hs⟩ : ∃ s os,
      Runs.run passo sthreadUserInit [.monitorInit, .create 1, .monitorEnter 0, .yield,
        .monitorEnter 0, .dispatcher, .resume, .monitorWait 0] = some (s, os) ∧
      1 < s.tidGen ∧ (lugares s).count 1 = 2 :=
    Runs.exists_run_of_any (by decide)
  exact ⟨s, os, by decide, hrun, hs⟩

end ThreadScheduler.SthreadLib
