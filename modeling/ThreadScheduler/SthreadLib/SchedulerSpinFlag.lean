import ThreadScheduler.SthreadLib.SchedulerMutex

/-!
# The spin flag

`mutex_lock` clears the flag before it switches, `mutex_unlock` after: where the unlock switches to
the next owner, the flag stays set until the thread that unlocks is active again.
-/
namespace ThreadScheduler.SthreadLib

open ArvoreRB Escalonador

variable {s s' : Escalonador} {r : Resposta}

/-- An unlock by the active thread leaves the next owner to the executable tree. -/
def SemEntrega (s : Escalonador) (m : ℕ) : Prop :=
  (s.mutex m).thr = some s.activeThr → ∀ t ∈ (s.mutex m).queue.head?,
    (s.thread s.activeThr).vruntime + s.porCobrar ≤ (s.thread t).vruntime

instance (s : Escalonador) (m : ℕ) : Decidable (SemEntrega s m) := by
  unfold SemEntrega
  infer_instance

/-- The calls that unlock a mutex do not switch to its next owner. -/
def Solta (s : Escalonador) : Chamada → Prop
  | .mutexUnlock m => SemEntrega s m
  | .monitorExit mon => SemEntrega s (s.monitor mon).mutex
  | .monitorWait mon => SemEntrega s (s.monitor mon).mutex
  | _ => True

instance (s : Escalonador) (c : Chamada) : Decidable (Solta s c) :=
  match c with
  | .mutexUnlock m => inferInstanceAs (Decidable (SemEntrega s m))
  | .monitorExit mon | .monitorWait mon =>
      inferInstanceAs (Decidable (SemEntrega s (s.monitor mon).mutex))
  | .create _ | .exit _ | .dispatcher | .yield | .join _ | .sleep _ | .nice _ | .mutexInit
  | .mutexLock _ | .monitorInit | .monitorEnter _ | .monitorSignal _ | .monitorSignalall _
  | .resume => inferInstanceAs (Decidable True)

theorem sthreadUserDispatcher_not_gira (he : sthreadUserDispatcher s = .segue s' r) :
    r ≠ .gira := by
  obtain ⟨s₁, -, ⟨-, hf⟩ | ⟨s₂, -, ⟨-, hy⟩ | ⟨-, hy⟩⟩⟩ := sthreadUserDispatcher_cases s
  · rw [hf] at he
    cases he
  · rw [hy] at he
    obtain ⟨-, no, rfl⟩ := comutar_campos he
    exact Resposta.noConfusion
  · rw [hy] at he
    obtain ⟨-, rfl⟩ := Resultado.segue.inj he
    exact Resposta.noConfusion

/-- No flag is set, and no thread is in the unlock of a wait. -/
structure Aberta (s : Escalonador) : Prop where
  l : ∀ m, (s.mutex m).l = false
  calmo : ∀ t, (s.ponto t).calmo

namespace Aberta

theorem outro (h : Aberta s) (hl : ∀ m, (s'.mutex m).l = (s.mutex m).l)
    (hponto : s'.ponto = s.ponto) : Aberta s' :=
  ⟨fun m => (hl m).trans (h.l m), fun t => (congrFun hponto t).symm ▸ h.calmo t⟩

theorem parar (h : Aberta s) (hl : ∀ m, (s'.mutex m).l = (s.mutex m).l) {t : ℕ} {p : Ponto}
    (hp : p.calmo) (hponto : s'.ponto = Function.update s.ponto t p) : Aberta s' := by
  refine ⟨fun m => (hl m).trans (h.l m), fun u => ?_⟩
  rw [hponto, Function.update_apply]
  split
  · exact hp
  · exact h.calmo u

theorem comutar {s₁ : Escalonador} (he : s₁.comutar = .segue s' r) (h : Aberta s₁) :
    Aberta s' := by
  rw [(comutar_campos he).1]
  exact ⟨h.l, h.calmo⟩

/-- A mutex changes, its flag does not. -/
theorem l_update {m : ℕ} {x : SthreadMutex} (hmutex : s'.mutex = Function.update s.mutex m x)
    (hx : x.l = (s.mutex m).l) (k : ℕ) : (s'.mutex k).l = (s.mutex k).l := by
  rw [hmutex, Function.update_apply]
  split
  · rename_i hk
    rw [hx, hk]
  · rfl

/-- The flags after an unlock, and the answers that it gives. -/
theorem mutexUnlock (h : Aberta s) {m : ℕ} {depois : Ponto} (hd : SemEntrega s m)
    (he : sthreadUserMutexUnlock s m depois = .segue s' r) :
    Aberta s' ∧ r = .nada ∧ s'.activeThr = s.activeThr := by
  revert he
  refine sthreadUserMutexUnlock_elim (P := fun res => res = .segue s' r →
    Aberta s' ∧ r = .nada ∧ s'.activeThr = s.activeThr) s m depois ?_ ?_ ?_ ?_ ?_
  · intro _ he
    obtain ⟨rfl, rfl⟩ := Resultado.segue.inj he
    exact ⟨h, rfl, rfl⟩
  · intro _ hl
    exact absurd (h.l m) (by rw [hl]; exact Bool.noConfusion)
  · intro _ _ _ he
    obtain ⟨rfl, rfl⟩ := Resultado.segue.inj he
    exact ⟨h.outro (l_update rfl rfl) rfl, rfl, rfl⟩
  · intro t fila hthr _ hq hlt
    have hle := hd hthr t (by rw [hq]; rfl)
    omega
  · intro t fila _ _ _ _ he
    obtain ⟨rfl, rfl⟩ := Resultado.segue.inj he
    exact ⟨h.outro (l_update rfl rfl) rfl, rfl, rfl⟩

/-- An unlock that switches sets the flag. -/
theorem mutexUnlock_entrega (h : Aberta s) {m : ℕ} {depois : Ponto} (hd : ¬SemEntrega s m)
    (he : sthreadUserMutexUnlock s m depois = .segue s' r) :
    (s'.mutex m).l = true ∧ ∃ t, r = .entregou t := by
  rw [SemEntrega] at hd
  push Not at hd
  obtain ⟨hthr, t, ht, hlt⟩ := hd
  revert he
  refine sthreadUserMutexUnlock_elim (P := fun res => res = .segue s' r →
    (s'.mutex m).l = true ∧ ∃ t, r = .entregou t) s m depois ?_ ?_ ?_ ?_ ?_
  · intro hne
    exact absurd hthr hne
  · intro _ hl
    exact absurd (h.l m) (by rw [hl]; exact Bool.noConfusion)
  · intro _ _ hq
    rw [hq] at ht
    cases ht
  · intro u fila _ _ _ _ he
    obtain ⟨rfl, rfl⟩ := Resultado.segue.inj he
    refine ⟨?_, u, rfl⟩
    simp [Escalonador.mudarMutex, Escalonador.parar, Escalonador.rbInserir, Escalonador.mudar]
  · intro u fila _ _ hq hle
    rw [hq] at ht
    obtain rfl := Option.some.inj ht
    omega

/-! ## The calls -/

theorem exit (h : Aberta s) {ret : ℕ} (he : sthreadUserExit s ret = .segue s' r) : Aberta s' := by
  obtain ⟨s₁, hcom, -, -, -, ⟨-, hmutex⟩, hponto, -⟩ := sthreadUserExit_cases he
  exact .comutar hcom (h.parar (fun m => by rw [hmutex]) (p := .terminada) trivial hponto)

theorem dispatcher (h : Aberta s) (he : sthreadUserDispatcher s = .segue s' r) : Aberta s' := by
  refine ⟨fun m => ?_, fun t => ?_⟩
  · rw [(sthreadUserDispatcher_deixa (m := m) he).mutex]
    exact h.l m
  · obtain hp | hp := (sthreadUserDispatcher_deixa (m := 0) he).ponto
    · rw [hp]
      exact h.calmo t
    · rw [hp, Function.update_apply]
      split
      · exact h.calmo s.activeThr
      · exact h.calmo t

theorem join (h : Aberta s) {t : ℕ} (he : sthreadUserJoin s t = .segue s' r) :
    Aberta s' ∧ r ≠ .gira := by
  rw [sthreadUserJoin] at he
  split at he
  · obtain ⟨rfl, rfl⟩ := Resultado.segue.inj he
    exact ⟨⟨h.l, h.calmo⟩, Resposta.noConfusion⟩
  · simp only at he
    split at he
    · obtain ⟨-, no, rfl⟩ := comutar_campos he
      exact ⟨.comutar he (h.parar (fun _ => rfl) (p := .emJoin t) trivial rfl),
        Resposta.noConfusion⟩
    · obtain ⟨rfl, rfl⟩ := Resultado.segue.inj he
      exact ⟨h, Resposta.noConfusion⟩

theorem sleep (h : Aberta s) {time : ℤ} (he : sthreadUserSleep s time = .segue s' r) :
    Aberta s' ∧ r ≠ .gira := by
  rw [sthreadUserSleep] at he
  simp only at he
  split at he
  · obtain ⟨rfl, rfl⟩ := Resultado.segue.inj he
    exact ⟨h, Resposta.noConfusion⟩
  · split at he
    · cases he
    · obtain ⟨-, no, rfl⟩ := comutar_campos he
      exact ⟨.comutar he ⟨h.l, h.calmo⟩, Resposta.noConfusion⟩

theorem novoMutex (h : Aberta s) (idMonitor : ℤ) : Aberta (novoMutex s idMonitor) := by
  refine ⟨fun m => ?_, h.calmo⟩
  simp only [SthreadLib.novoMutex, Function.update_apply]
  split
  · rfl
  · exact h.l m

theorem mutexLock (h : Aberta s) {m : ℕ} (he : sthreadUserMutexLock s m = .segue s' r) :
    Aberta s' ∧ r ≠ .gira := by
  rw [sthreadUserMutexLock, if_neg (by rw [h.l m]; exact Bool.false_ne_true)] at he
  split at he
  · obtain ⟨rfl, rfl⟩ := Resultado.segue.inj he
    exact ⟨h.outro (l_update rfl rfl) rfl, Resposta.noConfusion⟩
  · obtain ⟨-, no, rfl⟩ := comutar_campos he
    refine ⟨.comutar he (h.parar ?_ (p := .emLock m) trivial rfl), Resposta.noConfusion⟩
    exact l_update rfl rfl

theorem monitorWait (h : Aberta s) {mon : ℕ} (hd : SemEntrega s (s.monitor mon).mutex)
    (he : sthreadUserMonitorWait s mon = .segue s' r) : Aberta s' ∧ r ≠ .gira := by
  rw [sthreadUserMonitorWait] at he
  split at he
  · obtain ⟨rfl, rfl⟩ := Resultado.segue.inj he
    exact ⟨h, Resposta.noConfusion⟩
  · let s₁ := s.mudarMonitor mon fun x => { x with queue := x.queue ++ [s.activeThr] }
    have hm : (s₁.monitor mon).mutex = (s.monitor mon).mutex := by
      simp [s₁, Escalonador.mudarMonitor]
    have h₁ : Aberta s₁ := ⟨h.l, h.calmo⟩
    rw [show sairEEsperar _ mon = sairEEsperar s₁ mon from rfl, sairEEsperar, hm] at he
    rcases hres : sthreadUserMutexUnlock s₁ (s.monitor mon).mutex (.emWaitUnlock mon) with
      ⟨s₂, r₂⟩ | _ | _ | _ | _
    · obtain ⟨h₂, rfl, -⟩ := h₁.mutexUnlock hd hres
      rw [hres] at he
      obtain ⟨-, no, rfl⟩ := comutar_campos he
      exact ⟨.comutar he (h₂.parar (fun _ => rfl) (p := .emWait mon) trivial rfl),
        Resposta.noConfusion⟩
    all_goals
      rw [hres] at he
      cases he

theorem monitorSignal (h : Aberta s) {mon : ℕ}
    (he : sthreadUserMonitorSignal s mon = .segue s' r) : Aberta s' ∧ r ≠ .gira := by
  rw [sthreadUserMonitorSignal] at he
  simp only at he
  split at he
  · obtain ⟨rfl, rfl⟩ := Resultado.segue.inj he
    exact ⟨h, Resposta.noConfusion⟩
  · rw [if_neg (by rw [h.l]; exact Bool.false_ne_true)] at he
    split at he
    · obtain ⟨rfl, rfl⟩ := Resultado.segue.inj he
      exact ⟨h, Resposta.noConfusion⟩
    · obtain ⟨rfl, rfl⟩ := Resultado.segue.inj he
      exact ⟨h.outro (l_update rfl rfl) rfl, Resposta.noConfusion⟩

theorem monitorSignalall (h : Aberta s) {mon : ℕ}
    (he : sthreadUserMonitorSignalall s mon = .segue s' r) : Aberta s' ∧ r ≠ .gira := by
  rw [sthreadUserMonitorSignalall] at he
  simp only at he
  split at he
  · obtain ⟨rfl, rfl⟩ := Resultado.segue.inj he
    exact ⟨h, Resposta.noConfusion⟩
  · rw [if_neg (by rw [h.l]; exact Bool.false_ne_true)] at he
    obtain ⟨rfl, rfl⟩ := Resultado.segue.inj he
    exact ⟨h.outro (l_update rfl rfl) rfl, Resposta.noConfusion⟩

theorem chamar (h : Aberta s) {c : Chamada} (hd : Solta s c) (he : chamar s c = .segue s' r) :
    Aberta s' ∧ r ≠ .gira := by
  cases c with
  | create p =>
      obtain ⟨rfl, rfl⟩ := Resultado.segue.inj he
      exact ⟨h.parar (fun _ => rfl) (p := .livre) trivial rfl, Resposta.noConfusion⟩
  | exit ret =>
      obtain ⟨s₁, hcom, -⟩ := sthreadUserExit_cases he
      obtain ⟨-, no, rfl⟩ := comutar_campos hcom
      exact ⟨h.exit he, Resposta.noConfusion⟩
  | dispatcher => exact ⟨h.dispatcher he, sthreadUserDispatcher_not_gira he⟩
  | yield =>
      obtain ⟨-, no, rfl⟩ := comutar_campos he
      exact ⟨.comutar he ⟨h.l, h.calmo⟩, Resposta.noConfusion⟩
  | join t => exact h.join he
  | sleep time => exact h.sleep he
  | nice nice =>
      obtain ⟨rfl, rfl⟩ := Resultado.segue.inj he
      exact ⟨⟨h.l, h.calmo⟩, Resposta.noConfusion⟩
  | mutexInit =>
      obtain ⟨rfl, rfl⟩ := Resultado.segue.inj he
      exact ⟨h.novoMutex (-1), Resposta.noConfusion⟩
  | mutexLock m => exact h.mutexLock he
  | mutexUnlock m =>
      have he : sthreadUserMutexUnlock s m (.emUnlock m) = .segue s' r := he
      obtain ⟨h', rfl, -⟩ := h.mutexUnlock hd he
      exact ⟨h', Resposta.noConfusion⟩
  | monitorInit =>
      obtain ⟨rfl, rfl⟩ := Resultado.segue.inj he
      have hmutex := h.novoMutex s.monitorIdGen
      exact ⟨⟨hmutex.l, hmutex.calmo⟩, Resposta.noConfusion⟩
  | monitorEnter mon => exact h.mutexLock he
  | monitorExit mon =>
      have he : sthreadUserMutexUnlock s (s.monitor mon).mutex (.emUnlock (s.monitor mon).mutex) =
          .segue s' r := he
      obtain ⟨h', rfl, -⟩ := h.mutexUnlock hd he
      exact ⟨h', Resposta.noConfusion⟩
  | monitorWait mon => exact h.monitorWait hd he
  | monitorSignal mon => exact h.monitorSignal he
  | monitorSignalall mon => exact h.monitorSignalall he
  | resume => cases he

theorem retomar (h : Aberta s) {p : Ponto} (hp : p.calmo) (he : retomar s p = .segue s' r) :
    Aberta s' ∧ r ≠ .gira := by
  cases p with
  | livre => cases he
  | noDespacho antes =>
      obtain ⟨rfl, rfl⟩ := Resultado.segue.inj he
      obtain ⟨hmutex, -, -, hponto⟩ := fimDispatcher_campos s
      refine ⟨h.parar (fun m => ?_) (t := s.activeThr) (p := antes) hp ?_, Resposta.noConfusion⟩
      · exact congrArg SthreadMutex.l (congrFun hmutex m)
      · simp only [Escalonador.parar, hponto]
  | emJoin alvo =>
      obtain ⟨rfl, rfl⟩ := Resultado.segue.inj he
      exact ⟨h.parar (fun _ => rfl) (p := .livre) trivial rfl, Resposta.noConfusion⟩
  | emLock m =>
      obtain ⟨rfl, rfl⟩ := Resultado.segue.inj he
      exact ⟨h.parar (fun _ => rfl) (p := .livre) trivial rfl, Resposta.noConfusion⟩
  | emUnlock m =>
      obtain ⟨rfl, rfl⟩ := Resultado.segue.inj he
      refine ⟨h.parar ?_ (p := .livre) trivial rfl, Resposta.noConfusion⟩
      exact l_update rfl (h.l m).symm
  | girando mon => exact absurd hp id
  | emWaitUnlock mon => exact absurd hp id
  | emWait mon =>
      obtain ⟨rfl, rfl⟩ := Resultado.segue.inj he
      exact ⟨h.parar (fun _ => rfl) (p := .livre) trivial rfl, Resposta.noConfusion⟩
  | terminada => cases he

theorem passo (h : Aberta s) {c : Chamada} (hd : Solta s c) (he : passo s c = some (s', r)) :
    Aberta s' ∧ r ≠ .gira := by
  obtain ⟨-, hc⟩ | ⟨mon, hp, -⟩ | ⟨-, hret⟩ | he := executa_cases (passo_eq_some.mp he)
  · exact h.chamar hd hc
  · have hcalmo := h.calmo s.activeThr
    rw [hp] at hcalmo
    exact absurd hcalmo id
  · exact h.retomar (h.calmo s.activeThr) hret
  · cases he

/-- A call that switches to the next owner leaves the flag of the mutex set. -/
theorem entrega (h : Aberta s) {c : Chamada} (hd : ¬Solta s c)
    (he : SthreadLib.passo s c = some (s', r)) : ∃ m, (s'.mutex m).l = true := by
  have hc : c ≠ .resume := by
    rintro rfl
    exact hd trivial
  obtain ⟨-, he⟩ | ⟨mon, -, rfl, -⟩ | ⟨hr, -⟩ | he := executa_cases (passo_eq_some.mp he)
  · cases c with
    | mutexUnlock m =>
        have he : sthreadUserMutexUnlock s m (.emUnlock m) = .segue s' r := he
        exact ⟨m, (h.mutexUnlock_entrega hd he).1⟩
    | monitorExit mon =>
        have he : sthreadUserMutexUnlock s (s.monitor mon).mutex
            (.emUnlock (s.monitor mon).mutex) = .segue s' r := he
        exact ⟨_, (h.mutexUnlock_entrega hd he).1⟩
    | monitorWait mon =>
        have hthr : (s.mutex (s.monitor mon).mutex).thr = some s.activeThr := by
          by_contra hne
          exact hd fun hthr => absurd hthr hne
        let s₁ := s.mudarMonitor mon fun x => { x with queue := x.queue ++ [s.activeThr] }
        have hm : (s₁.monitor mon).mutex = (s.monitor mon).mutex := by
          simp [s₁, Escalonador.mudarMonitor]
        have h₁ : Aberta s₁ := ⟨h.l, h.calmo⟩
        have he : sthreadUserMonitorWait s mon = .segue s' r := he
        rw [sthreadUserMonitorWait, if_neg (not_not.mpr hthr),
          show sairEEsperar _ mon = sairEEsperar s₁ mon from rfl, sairEEsperar, hm] at he
        rcases hres : sthreadUserMutexUnlock s₁ (s.monitor mon).mutex (.emWaitUnlock mon) with
          ⟨s₂, r₂⟩ | _ | _ | _ | _
        · obtain ⟨hl, t, rfl⟩ := h₁.mutexUnlock_entrega (m := (s.monitor mon).mutex) hd hres
          rw [hres] at he
          obtain ⟨rfl, -⟩ := Resultado.segue.inj he
          exact ⟨_, hl⟩
        all_goals
          rw [hres] at he
          cases he
    | _ => exact absurd trivial hd
  · exact absurd trivial hd
  · exact absurd hr hc
  · cases he

end Aberta

theorem sthreadUserInit_aberta : Aberta sthreadUserInit := ⟨fun _ => rfl, fun _ => trivial⟩

/-- In a run whose unlocks do not switch to the next owner no flag is set between two steps, and no
thread spins. The first unlock that switches leaves a flag set. -/
theorem sinais_livres (cs : List Chamada) (s : Escalonador) (os : List Resposta)
    (hP : Runs.Permitted passo Solta sthreadUserInit cs)
    (hr : Runs.run passo sthreadUserInit cs = some (s, os)) :
    (∀ m, (s.mutex m).l = false) ∧ ∀ c s' r, passo s c = some (s', r) →
      ((∀ m, (s'.mutex m).l = false) ↔ Solta s c) ∧ (Solta s c → r ≠ .gira) := by
  have h : Aberta s := Runs.run_invariant (fun _ _ _ _ hI hp he => (hI.passo hp he).1)
    sthreadUserInit_aberta hP hr
  refine ⟨h.l, fun c s' r he => ⟨⟨fun hl => ?_, fun hd => (h.passo hd he).1.l⟩, fun hd => ?_⟩⟩
  · by_contra hd
    obtain ⟨m, hm⟩ := h.entrega hd he
    rw [hl m] at hm
    cases hm
  · exact (h.passo hd he).2

/-- The main thread unlocks before it has run for a tick, and goes on. -/
theorem sinais_livres_exemplo :
    ∃ s os, Runs.run passo sthreadUserInit [.mutexInit, .mutexLock 0, .create 1, .yield,
        .mutexLock 0, .mutexUnlock 0] = some (s, os) ∧ ∀ m, (s.mutex m).l = false :=
  ⟨_, _, rfl, (sinais_livres [.mutexInit, .mutexLock 0, .create 1, .yield, .mutexLock 0,
    .mutexUnlock 0] _ _ (by decide) rfl).1⟩

/-- The main thread has run for a tick when it unlocks: thread 2 returns from its lock with the flag
set. -/
theorem sinal_preso :
    ∃ s os, Runs.Permitted passo Valida sthreadUserInit [.mutexInit, .mutexLock 0, .create 1,
        .yield, .mutexLock 0, .dispatcher, .resume, .mutexUnlock 0, .resume] ∧
      Runs.run passo sthreadUserInit [.mutexInit, .mutexLock 0, .create 1, .yield, .mutexLock 0,
        .dispatcher, .resume, .mutexUnlock 0, .resume] = some (s, os) ∧
      s.ponto s.activeThr = .livre ∧ 0 < s.mutexIdGen ∧ (s.mutex 0).l = true := by
  obtain ⟨s, os, hrun, hs⟩ : ∃ s os,
      Runs.run passo sthreadUserInit [.mutexInit, .mutexLock 0, .create 1, .yield, .mutexLock 0,
        .dispatcher, .resume, .mutexUnlock 0, .resume] = some (s, os) ∧
      s.ponto s.activeThr = .livre ∧ 0 < s.mutexIdGen ∧ (s.mutex 0).l = true :=
    Runs.exists_run_of_any (by decide)
  exact ⟨s, os, by decide, hrun, hs⟩

end ThreadScheduler.SthreadLib
