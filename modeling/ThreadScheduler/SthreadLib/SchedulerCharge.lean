import ThreadScheduler.SthreadLib.SchedulerMutex

/-!
# The charge for CPU time

Ticks are counted by the dispatcher alone and charged in two places: at the end of the dispatcher
and where an unlock switches to the next owner. Every other call leaves the accounts of all
threads, and no thread stops in a dispatcher that it has not called.
-/
namespace ThreadScheduler.SthreadLib

open ArvoreRB Escalonador

variable {s s' : Escalonador} {r : Resposta}

/-- What the charge for CPU time reads and writes. -/
structure Conta where
  vruntime : ℤ
  exectime : ℤ
  priority : ℤ
  nice : ℤ
  timesRunned : ℤ
  deriving DecidableEq

def Sthread.conta (th : Sthread) : Conta :=
  ⟨th.vruntime, th.exectime, th.priority, th.nice, th.timesRunned⟩

/-- One more tick. -/
def Conta.pulsada (c : Conta) : Conta :=
  { c with exectime := c.exectime + 1, timesRunned := c.timesRunned + 1 }

/-- The ticks not charged yet become `vruntime`. -/
def Conta.cobrada (c : Conta) : Conta :=
  { c with vruntime := c.vruntime + (c.nice + c.priority) * c.timesRunned, timesRunned := 0 }

/-- The account at the end of the dispatcher. -/
def Conta.fechada (c : Conta) : Conta := if c.timesRunned < minDelay then c else c.cobrada

@[simp] theorem Sthread.conta_cobrada (th : Sthread) : th.cobrada.conta = th.conta.cobrada := rfl

theorem SoEsperas.conta {th th' : Sthread} (h : SoEsperas th th') : th'.conta = th.conta := by
  rw [h]
  rfl

/-- In a dispatcher that has switched to another thread. -/
def Ponto.suspenso : Ponto → Bool
  | .noDespacho _ => true
  | _ => false

/-- A step without a tick. The active thread may be charged, and does not stop in a dispatcher. -/
structure SemPulso (s s' : Escalonador) : Prop where
  clock : s'.clock = s.clock
  tidGen : s'.tidGen = s.tidGen
  conta : ∀ t, (s'.thread t).conta = (s.thread t).conta ∨
    t = s.activeThr ∧ (s'.thread t).conta = (s.thread t).conta.cobrada
  ponto : ∀ t, s'.ponto t = s.ponto t ∨ t = s.activeThr ∧ (s'.ponto t).suspenso = false

namespace SemPulso

/-- No account changes. -/
theorem contas (hclock : s'.clock = s.clock) (htid : s'.tidGen = s.tidGen)
    (hconta : ∀ t, (s'.thread t).conta = (s.thread t).conta)
    (hponto : ∀ t, s'.ponto t = s.ponto t ∨ t = s.activeThr ∧ (s'.ponto t).suspenso = false) :
    SemPulso s s' :=
  ⟨hclock, htid, fun t => .inl (hconta t), hponto⟩

/-- No thread changes, and none stops. -/
theorem outro (hclock : s'.clock = s.clock) (htid : s'.tidGen = s.tidGen)
    (hthread : s'.thread = s.thread) (hponto : s'.ponto = s.ponto) : SemPulso s s' :=
  .contas hclock htid (fun t => by rw [hthread]) fun t => .inl (congrFun hponto t)

/-- The active thread stops at a point that is not in the dispatcher. -/
theorem ponto_update {p : Ponto} (hp : p.suspenso = false) (t : ℕ) :
    Function.update s.ponto s.activeThr p t = s.ponto t ∨
      t = s.activeThr ∧ (Function.update s.ponto s.activeThr p t).suspenso = false := by
  by_cases ht : t = s.activeThr
  · subst ht
    rw [Function.update_self]
    exact .inr ⟨rfl, hp⟩
  · exact .inl (Function.update_of_ne ht ..)

/-- One thread changes, its account does not. -/
theorem um {t : ℕ} {x : Sthread} (hclock : s'.clock = s.clock) (htid : s'.tidGen = s.tidGen)
    (hthread : s'.thread = Function.update s.thread t x) (hx : x.conta = (s.thread t).conta)
    (hponto : ∀ t, s'.ponto t = s.ponto t ∨ t = s.activeThr ∧ (s'.ponto t).suspenso = false) :
    SemPulso s s' := by
  refine .contas hclock htid (fun u => ?_) hponto
  rw [hthread, Function.update_apply]
  split
  · rename_i he
    rw [he]
    exact hx
  · rfl

theorem comutar {s₁ : Escalonador} (he : s₁.comutar = .segue s' r) (h : SemPulso s s₁) :
    SemPulso s s' := by
  rw [(comutar_campos he).1]
  exact ⟨h.clock, h.tidGen, h.conta, h.ponto⟩

end SemPulso

/-! ## The calls -/

theorem sthreadUserExit_semPulso {ret : ℕ} (he : sthreadUserExit s ret = .segue s' r) :
    SemPulso s s' := by
  obtain ⟨s₁, hcom, -, -, htid, ⟨hclock, -⟩, hponto, hth⟩ := sthreadUserExit_cases he
  refine .comutar hcom (.contas hclock htid (fun t => ?_) fun t => ?_)
  · rw [hth]
    split <;> rfl
  · rw [hponto]
    exact SemPulso.ponto_update rfl t

theorem sthreadUserYield_semPulso (he : sthreadUserYield s = .segue s' r) : SemPulso s s' :=
  .comutar he (.outro rfl rfl rfl rfl)

theorem sthreadUserJoin_semPulso {t : ℕ} (he : sthreadUserJoin s t = .segue s' r) :
    SemPulso s s' := by
  rw [sthreadUserJoin] at he
  split at he
  · obtain ⟨rfl, -⟩ := Resultado.segue.inj he
    exact .outro rfl rfl rfl rfl
  · simp only at he
    split at he
    · exact .comutar he (.um rfl rfl rfl rfl (SemPulso.ponto_update rfl))
    · obtain ⟨rfl, -⟩ := Resultado.segue.inj he
      exact .outro rfl rfl rfl rfl

theorem sthreadUserSleep_semPulso {time : ℤ} (he : sthreadUserSleep s time = .segue s' r) :
    SemPulso s s' := by
  rw [sthreadUserSleep] at he
  simp only at he
  split at he
  · obtain ⟨rfl, -⟩ := Resultado.segue.inj he
    exact .outro rfl rfl rfl rfl
  · split at he
    · cases he
    · exact .comutar he (.um rfl rfl rfl rfl fun _ => .inl rfl)

theorem sthreadUserMutexLock_semPulso {m : ℕ} (he : sthreadUserMutexLock s m = .segue s' r) :
    SemPulso s s' := by
  rw [sthreadUserMutexLock] at he
  split at he
  · obtain ⟨rfl, -⟩ := Resultado.segue.inj he
    exact .outro rfl rfl rfl rfl
  · split at he
    · obtain ⟨rfl, -⟩ := Resultado.segue.inj he
      exact .outro rfl rfl rfl rfl
    · exact .comutar he (.contas rfl rfl (fun _ => rfl) (SemPulso.ponto_update rfl))

theorem sthreadUserMutexUnlock_semPulso {m : ℕ} {depois : Ponto} (hd : depois.suspenso = false)
    (he : sthreadUserMutexUnlock s m depois = .segue s' r) :
    SemPulso s s' ∧ (s'.activeThr = s.activeThr ∨ ∃ t, r = .entregou t) := by
  revert he
  refine sthreadUserMutexUnlock_elim (P := fun res => res = .segue s' r →
    SemPulso s s' ∧ (s'.activeThr = s.activeThr ∨ ∃ t, r = .entregou t)) s m depois
    ?_ ?_ ?_ ?_ ?_
  · intro _ he
    obtain ⟨rfl, -⟩ := Resultado.segue.inj he
    exact ⟨.outro rfl rfl rfl rfl, .inl rfl⟩
  · intro _ _ he
    obtain ⟨rfl, -⟩ := Resultado.segue.inj he
    exact ⟨.outro rfl rfl rfl rfl, .inl rfl⟩
  · intro _ _ _ he
    obtain ⟨rfl, -⟩ := Resultado.segue.inj he
    exact ⟨.outro rfl rfl rfl rfl, .inl rfl⟩
  · intro t fila _ _ _ _ he
    obtain ⟨rfl, rfl⟩ := Resultado.segue.inj he
    refine ⟨⟨rfl, rfl, fun u => ?_, SemPulso.ponto_update hd⟩, .inr ⟨t, rfl⟩⟩
    show (Function.update s.thread s.activeThr (s.thread s.activeThr).cobrada u).conta = _ ∨
      u = s.activeThr ∧
        (Function.update s.thread s.activeThr (s.thread s.activeThr).cobrada u).conta = _
    by_cases hu : u = s.activeThr
    · subst hu
      rw [Function.update_self]
      exact .inr ⟨rfl, rfl⟩
    · rw [Function.update_of_ne hu]
      exact .inl rfl
  · intro t fila _ _ _ _ he
    obtain ⟨rfl, -⟩ := Resultado.segue.inj he
    exact ⟨.outro rfl rfl rfl rfl, .inl rfl⟩

/-- The first half of `monitor_wait` may charge the active thread, the second leaves it. -/
theorem sairEEsperar_semPulso {mon : ℕ} (he : sairEEsperar s mon = .segue s' r) :
    SemPulso s s' := by
  rw [sairEEsperar] at he
  rcases hres : sthreadUserMutexUnlock s (s.monitor mon).mutex (.emWaitUnlock mon) with
    ⟨s₁, r₁⟩ | _ | _ | _ | _
  · obtain ⟨h, hact⟩ := sthreadUserMutexUnlock_semPulso rfl hres
    -- the thread that waits stops, unless the unlock has switched to another one
    have hparar : ∀ p : Ponto, p.suspenso = false → s₁.activeThr = s.activeThr →
        SemPulso s (s₁.parar s₁.activeThr p) := by
      intro p hp hact
      refine ⟨h.clock, h.tidGen, h.conta, fun t => ?_⟩
      rw [hact]
      simp only [Escalonador.parar, Function.update_apply]
      split
      · rename_i ht
        exact .inr ⟨ht, hp⟩
      · exact h.ponto t
    have hfica : (∀ t, r₁ ≠ .entregou t) → s₁.activeThr = s.activeThr := by
      intro hne
      refine hact.resolve_right ?_
      rintro ⟨t, ht⟩
      exact hne t ht
    rw [hres] at he
    cases r₁ with
    | gira =>
        obtain ⟨rfl, -⟩ := Resultado.segue.inj he
        exact hparar _ rfl (hfica fun _ => Resposta.noConfusion)
    | entregou t =>
        obtain ⟨rfl, -⟩ := Resultado.segue.inj he
        exact h
    | nada => exact .comutar he (hparar _ rfl (hfica fun _ => Resposta.noConfusion))
    | criou t => exact .comutar he (hparar _ rfl (hfica fun _ => Resposta.noConfusion))
    | trocou no => exact .comutar he (hparar _ rfl (hfica fun _ => Resposta.noConfusion))
    | juntou c a v =>
        exact .comutar he (hparar _ rfl (hfica fun _ => Resposta.noConfusion))
  all_goals
    rw [hres] at he
    cases he

theorem sthreadUserMonitorWait_semPulso {mon : ℕ}
    (he : sthreadUserMonitorWait s mon = .segue s' r) : SemPulso s s' := by
  rw [sthreadUserMonitorWait] at he
  split at he
  · obtain ⟨rfl, -⟩ := Resultado.segue.inj he
    exact .outro rfl rfl rfl rfl
  · have h := sairEEsperar_semPulso he
    exact ⟨h.clock, h.tidGen, h.conta, h.ponto⟩

theorem sthreadUserMonitorSignal_semPulso {mon : ℕ}
    (he : sthreadUserMonitorSignal s mon = .segue s' r) : SemPulso s s' := by
  rw [sthreadUserMonitorSignal] at he
  simp only at he
  split at he
  · obtain ⟨rfl, -⟩ := Resultado.segue.inj he
    exact .outro rfl rfl rfl rfl
  · split at he
    · obtain ⟨rfl, -⟩ := Resultado.segue.inj he
      exact .outro rfl rfl rfl rfl
    · split at he <;> obtain ⟨rfl, -⟩ := Resultado.segue.inj he <;>
        exact .outro rfl rfl rfl rfl

theorem sthreadUserMonitorSignalall_semPulso {mon : ℕ}
    (he : sthreadUserMonitorSignalall s mon = .segue s' r) : SemPulso s s' := by
  rw [sthreadUserMonitorSignalall] at he
  simp only at he
  split at he
  · obtain ⟨rfl, -⟩ := Resultado.segue.inj he
    exact .outro rfl rfl rfl rfl
  · split at he <;> obtain ⟨rfl, -⟩ := Resultado.segue.inj he <;>
      exact .outro rfl rfl rfl rfl

/-- The steps that count ticks, or change or create an account. -/
def Chamada.conta : Chamada → Bool
  | .create _ => true
  | .dispatcher => true
  | .nice _ => true
  | _ => false

/-- What is left of a call outside the dispatcher. -/
theorem retomar_semPulso {p : Ponto} (hp : p.suspenso = false)
    (he : retomar s p = .segue s' r) : SemPulso s s' := by
  cases p with
  | livre => cases he
  | noDespacho antes => cases hp
  | emJoin alvo =>
      obtain ⟨rfl, -⟩ := Resultado.segue.inj he
      exact .contas rfl rfl (fun _ => rfl) (SemPulso.ponto_update rfl)
  | emLock m =>
      obtain ⟨rfl, -⟩ := Resultado.segue.inj he
      exact .contas rfl rfl (fun _ => rfl) (SemPulso.ponto_update rfl)
  | emUnlock m =>
      obtain ⟨rfl, -⟩ := Resultado.segue.inj he
      exact .contas rfl rfl (fun _ => rfl) (SemPulso.ponto_update rfl)
  | girando mon => exact sairEEsperar_semPulso he
  | emWaitUnlock mon =>
      exact .comutar he (.contas rfl rfl (fun _ => rfl) (SemPulso.ponto_update rfl))
  | emWait mon =>
      obtain ⟨rfl, -⟩ := Resultado.segue.inj he
      exact .contas rfl rfl (fun _ => rfl) (SemPulso.ponto_update rfl)
  | terminada => cases he

theorem chamar_semPulso {c : Chamada} (hc : c.conta = false) (he : chamar s c = .segue s' r) :
    SemPulso s s' := by
  cases c with
  | create p => cases hc
  | exit ret => exact sthreadUserExit_semPulso he
  | dispatcher => cases hc
  | yield => exact sthreadUserYield_semPulso he
  | join t => exact sthreadUserJoin_semPulso he
  | sleep time => exact sthreadUserSleep_semPulso he
  | nice nice => cases hc
  | mutexInit =>
      obtain ⟨rfl, -⟩ := Resultado.segue.inj he
      exact .outro rfl rfl rfl rfl
  | mutexLock m => exact sthreadUserMutexLock_semPulso he
  | mutexUnlock m => exact (sthreadUserMutexUnlock_semPulso rfl he).1
  | monitorInit =>
      obtain ⟨rfl, -⟩ := Resultado.segue.inj he
      exact .outro rfl rfl rfl rfl
  | monitorEnter mon => exact sthreadUserMutexLock_semPulso he
  | monitorExit mon => exact (sthreadUserMutexUnlock_semPulso rfl he).1
  | monitorWait mon => exact sthreadUserMonitorWait_semPulso he
  | monitorSignal mon => exact sthreadUserMonitorSignal_semPulso he
  | monitorSignalall mon => exact sthreadUserMonitorSignalall_semPulso he
  | resume => cases he

/-! ## A step and its tick -/

theorem pulsar_conta (s : Escalonador) (t : ℕ) : (s.pulsar.thread t).conta =
    if t = s.activeThr then (s.thread t).conta.pulsada else (s.thread t).conta := by
  simp only [Escalonador.pulsar, Escalonador.mudar, Function.update_apply]
  split
  · rename_i ht
    rw [ht]
    rfl
  · rfl

theorem fimDispatcher_conta (s : Escalonador) (t : ℕ) : ((fimDispatcher s).thread t).conta =
    if t = s.activeThr then (s.thread t).conta.fechada else (s.thread t).conta := by
  have hfim : (s.thread s.activeThr).conta.fechada =
      if (s.thread s.activeThr).timesRunned < minDelay then (s.thread s.activeThr).conta
      else (s.thread s.activeThr).cobrada.conta := rfl
  rw [fimDispatcher]
  simp only
  by_cases ht : t = s.activeThr
  · subst ht
    rw [if_pos rfl, hfim]
    split
    · rfl
    · simp [Escalonador.mudar, Sthread.cobrada]
  · rw [if_neg ht]
    split
    · rfl
    · simp [Escalonador.mudar, ht]

theorem fimDispatcher_clock (s : Escalonador) : (fimDispatcher s).clock = s.clock + 1 := by
  rw [fimDispatcher]
  simp only
  split <;> rfl

/-- A tick is counted for the active thread. It either stops in the dispatcher or reaches its
end. -/
theorem sthreadUserDispatcher_conta (he : sthreadUserDispatcher s = .segue s' r) :
    s'.tidGen = s.tidGen ∧
      (s'.clock = s.clock ∧
        s'.ponto = Function.update s.ponto s.activeThr (.noDespacho (s.ponto s.activeThr)) ∧
        (∀ t, (s'.thread t).conta = (s.pulsar.thread t).conta) ∨
      s'.clock = s.clock + 1 ∧ s'.ponto = s.ponto ∧
        ∀ t, (s'.thread t).conta = if t = s.activeThr then (s.pulsar.thread t).conta.fechada
          else (s.pulsar.thread t).conta) := by
  obtain ⟨s₁, hs₁, ⟨-, hf⟩ | ⟨s₂, hac, hfim⟩⟩ := sthreadUserDispatcher_cases s
  · rw [hf] at he
    cases he
  · have h₁ : (s₁.activeThr = s.activeThr ∧ s₁.tidGen = s.tidGen ∧ s₁.clock = s.clock ∧
        s₁.ponto = s.ponto) ∧ ∀ t, (s₁.thread t).conta = (s.pulsar.thread t).conta := by
      refine ⟨?_, fun t => (hs₁.2 t).conta⟩
      rw [hs₁.1]
      exact ⟨rfl, rfl, rfl, rfl⟩
    obtain ⟨⟨hact, htid, hclock, hponto⟩, hconta⟩ := acordarProcessos_invariant
      (P := fun x => (x.activeThr = s.activeThr ∧ x.tidGen = s.tidGen ∧ x.clock = s.clock ∧
        x.ponto = s.ponto) ∧ ∀ t, (x.thread t).conta = (s.pulsar.thread t).conta)
      (fun a b z ha hb => by
        obtain ⟨t, -, ⟨-, rfl⟩ | ⟨-, rfl⟩⟩ := acordarNo_cases hb
        all_goals
          refine ⟨ha.1, fun u => ?_⟩
          rw [← ha.2 u]
          simp only [Escalonador.rbInserir, Escalonador.mudar, Function.update_apply]
          split
          · rename_i hu
            rw [hu]
            rfl
          · rfl) h₁ hac
    obtain ⟨-, hy⟩ | ⟨-, hy⟩ := hfim
    · rw [hy, sthreadUserYield] at he
      rw [(comutar_campos he).1]
      refine ⟨htid, .inl ⟨hclock, ?_, hconta⟩⟩
      simp only [Escalonador.rbInserir, Escalonador.parar, hact, hponto]
    · rw [hy] at he
      obtain ⟨rfl, -⟩ := Resultado.segue.inj he
      obtain ⟨-, -, ht, hp⟩ := fimDispatcher_campos s₂
      refine ⟨ht.trans htid, .inr ⟨?_, hp.trans hponto, fun t => ?_⟩⟩
      · rw [fimDispatcher_clock, hclock]
      · rw [fimDispatcher_conta, hact, hconta]

/-- A step creates a thread, changes a `nice`, counts a tick, ends a dispatcher, or leaves the
ticks. -/
theorem passo_pulso {c : Chamada} (he : passo s c = some (s', r)) :
    (s.ponto s.activeThr).suspenso = false ∧
        ((∃ p, c = .create p ∧ sthreadUserCreate s p = .segue s' r) ∨
          (∃ n, c = .nice n ∧ sthreadNice s n = .segue s' r) ∨
          (c = .dispatcher ∧ sthreadUserDispatcher s = .segue s' r) ∨
          (c.conta = false ∧ SemPulso s s')) ∨
      ∃ antes, s.ponto s.activeThr = .noDespacho antes ∧ c = .resume ∧ r = .nada ∧
        s' = (fimDispatcher s).parar s.activeThr antes := by
  obtain ⟨hp, he⟩ | ⟨mon, hp, rfl, hd⟩ | ⟨rfl, hret⟩ | he := executa_cases (passo_eq_some.mp he)
  · have hs : (s.ponto s.activeThr).suspenso = false := by
      rw [hp]
      rfl
    refine .inl ⟨hs, ?_⟩
    cases hc : c.conta with
    | false => exact .inr (.inr (.inr ⟨rfl, chamar_semPulso hc he⟩))
    | true =>
        cases c with
        | create p => exact .inl ⟨p, rfl, he⟩
        | nice n => exact .inr (.inl ⟨n, rfl, he⟩)
        | dispatcher => exact .inr (.inr (.inl ⟨rfl, he⟩))
        | _ => cases hc
  · refine .inl ⟨?_, .inr (.inr (.inl ⟨rfl, hd⟩))⟩
    rw [hp]
    rfl
  · cases hp : (s.ponto s.activeThr).suspenso with
    | false => exact .inl ⟨rfl, .inr (.inr (.inr ⟨rfl, retomar_semPulso hp hret⟩))⟩
    | true =>
        cases hq : s.ponto s.activeThr with
        | noDespacho antes =>
            rw [hq] at hret
            obtain ⟨rfl, rfl⟩ := Resultado.segue.inj hret
            exact .inr ⟨antes, rfl, rfl, rfl, rfl⟩
        | _ =>
            rw [hq] at hp
            cases hp
  · cases he

/-! ## Every tick is charged once -/

theorem minDelay_pos : 0 < minDelay := by decide

/-- The ticks that a thread has run are charged, or counted in `timesRunned`. -/
def Conta.Paga (v₀ : ℤ) (c : Conta) : Prop :=
  c.vruntime + (c.nice + c.priority) * c.timesRunned = v₀ + (c.nice + c.priority) * c.exectime

theorem Conta.Paga.cobrada {v₀ : ℤ} {c : Conta} (h : c.Paga v₀) : c.cobrada.Paga v₀ := by
  rw [Conta.Paga] at h
  simp only [Conta.Paga, Conta.cobrada, Int.mul_zero, Int.add_zero]
  exact h

theorem Conta.Paga.pulsada {v₀ : ℤ} {c : Conta} (h : c.Paga v₀) : c.pulsada.Paga v₀ := by
  rw [Conta.Paga] at h
  simp only [Conta.Paga, Conta.pulsada, Int.mul_add, Int.mul_one]
  omega

theorem Conta.Paga.fechada {v₀ : ℤ} {c : Conta} (h : c.Paga v₀) : c.fechada.Paga v₀ := by
  rw [Conta.fechada]
  split
  · exact h
  · exact h.cobrada

/-- The `vruntime` with which each thread was created: 0 for the main thread, and what
`RBMenorChave` gave for the others. -/
def nascimento (v₀ : ℕ → ℤ) (x : Escalonador × Chamada × Resposta) : ℕ → ℤ :=
  match x.2 with
  | (.create _, .criou t) => Function.update v₀ t (rbMenorChave x.1.exeThr)
  | _ => v₀

/-- The accounts between two steps. The fifth tick is charged before the thread goes on. -/
structure EmDia (v₀ : ℕ → ℤ) (s : Escalonador) : Prop where
  paga : ∀ t, (s.thread t).conta.nice = 0 → (s.thread t).conta.Paga (v₀ t)
  pouco : ∀ t, (s.thread t).conta.timesRunned ≤ minDelay
  aberta : ∀ t, (s.ponto t).suspenso = false → (s.thread t).conta.timesRunned < minDelay

namespace EmDia

variable {v₀ : ℕ → ℤ}

theorem create (h : EmDia v₀ s) {p : ℤ} (he : sthreadUserCreate s p = .segue s' r) :
    EmDia (nascimento v₀ (s, .create p, r)) s' := by
  obtain ⟨rfl, rfl⟩ := Resultado.segue.inj he
  have hself : ∀ {β : Type} (f : ℕ → β) (x : β), Function.update f s.tidGen x s.tidGen = x :=
    fun f x => Function.update_self ..
  refine ⟨fun t hn => ?_, fun t => ?_, fun t ht => ?_⟩
  all_goals
    simp only [Escalonador.rbInserir, Escalonador.parar, nascimento] at *
    by_cases hu : t = s.tidGen
  · subst hu
    rw [hself, hself]
    simp [Conta.Paga, Sthread.conta, novaSthread]
  · rw [Function.update_of_ne hu] at hn ⊢
    rw [Function.update_of_ne hu]
    exact h.paga t hn
  · subst hu
    rw [hself]
    exact Int.le_of_lt minDelay_pos
  · rw [Function.update_of_ne hu]
    exact h.pouco t
  · subst hu
    rw [hself]
    exact minDelay_pos
  · rw [Function.update_of_ne hu] at ht ⊢
    exact h.aberta t ht

theorem nice (h : EmDia v₀ s) {n : ℤ} (he : sthreadNice s n = .segue s' r) : EmDia v₀ s' := by
  obtain ⟨rfl, -⟩ := Resultado.segue.inj he
  have htick : ∀ t, ((s.mudar s.activeThr fun th =>
      { th with nice := if n > 10 then 10 else if n < 1 then 1 else n }).thread t).conta.timesRunned =
        (s.thread t).conta.timesRunned := by
    intro t
    simp only [Escalonador.mudar, Function.update_apply]
    split
    · rename_i ht
      rw [ht]
      rfl
    · rfl
  refine ⟨fun t hn => ?_, fun t => ?_, fun t ht => ?_⟩
  · simp only [Escalonador.mudar, Function.update_apply] at hn ⊢
    split at hn
    · -- `nice` is at least 1 once it has been set
      simp only [Sthread.conta] at hn
      split at hn
      · omega
      · split at hn <;> omega
    · rename_i ht
      rw [if_neg ht]
      exact h.paga t hn
  · rw [htick]
    exact h.pouco t
  · rw [htick]
    exact h.aberta t ht

theorem fechada_lt (c : Conta) : c.fechada.timesRunned < minDelay := by
  rw [Conta.fechada]
  split
  · assumption
  · exact minDelay_pos

/-- The end of a dispatcher, in a state with the accounts of `s` but for the active thread. -/
theorem fecha {x : ℕ → Conta} (hpaga : ∀ t, (x t).nice = 0 → (x t).Paga (v₀ t))
    (hpouco : ∀ t, (x t).timesRunned ≤ minDelay)
    (haberta : ∀ t, t ≠ s.activeThr → (s.ponto t).suspenso = false →
      (x t).timesRunned < minDelay)
    (hconta : ∀ t, (s'.thread t).conta = if t = s.activeThr then (x t).fechada else x t)
    (hponto : ∀ t, t ≠ s.activeThr → s'.ponto t = s.ponto t) : EmDia v₀ s' := by
  have hnice : ∀ c : Conta, c.fechada.nice = c.nice := by
    intro c
    rw [Conta.fechada]
    split <;> rfl
  refine ⟨fun t hn => ?_, fun t => ?_, fun t ht => ?_⟩
  · rw [hconta] at hn ⊢
    split at hn
    · rename_i hact
      rw [if_pos hact]
      rw [hnice] at hn
      exact (hpaga t hn).fechada
    · rename_i hact
      rw [if_neg hact]
      exact hpaga t hn
  · rw [hconta]
    split
    · exact Int.le_of_lt (fechada_lt (x t))
    · exact hpouco t
  · rw [hconta]
    split
    · exact fechada_lt (x t)
    · rename_i hact
      rw [hponto t hact] at ht
      exact haberta t hact ht

theorem semPulso (h : EmDia v₀ s) (hp : (s.ponto s.activeThr).suspenso = false)
    (hs : SemPulso s s') : EmDia v₀ s' := by
  have hticks : ∀ t, (s'.thread t).conta.timesRunned = (s.thread t).conta.timesRunned ∨
      (s'.thread t).conta.timesRunned = 0 := by
    intro t
    rcases hs.conta t with he | ⟨-, he⟩
    · rw [he]
      exact .inl rfl
    · rw [he]
      exact .inr rfl
  refine ⟨fun t hn => ?_, fun t => ?_, fun t ht => ?_⟩
  · rcases hs.conta t with he | ⟨-, he⟩
    · rw [he] at hn ⊢
      exact h.paga t hn
    · rw [he] at hn ⊢
      exact (h.paga t hn).cobrada
  · rcases hticks t with he | he
    · rw [he]
      exact h.pouco t
    · rw [he]
      exact Int.le_of_lt minDelay_pos
  · rcases hticks t with he | he
    · rw [he]
      refine h.aberta t ?_
      rcases hs.ponto t with hpt | ⟨rfl, -⟩
      · rwa [hpt] at ht
      · exact hp
    · rw [he]
      exact minDelay_pos

theorem dispatcher (h : EmDia v₀ s) (hp : (s.ponto s.activeThr).suspenso = false)
    (he : sthreadUserDispatcher s = .segue s' r) : EmDia v₀ s' := by
  have hpaga : ∀ t, (s.pulsar.thread t).conta.nice = 0 → (s.pulsar.thread t).conta.Paga (v₀ t) := by
    intro t hn
    rw [pulsar_conta] at hn ⊢
    split at hn
    · rename_i ht
      rw [if_pos ht]
      exact (h.paga t hn).pulsada
    · rename_i ht
      rw [if_neg ht]
      exact h.paga t hn
  have hpouco : ∀ t, (s.pulsar.thread t).conta.timesRunned ≤ minDelay := by
    intro t
    rw [pulsar_conta]
    split
    · rename_i ht
      have hlt := h.aberta t (ht ▸ hp)
      exact Int.add_one_le_iff.mpr hlt
    · exact h.pouco t
  have haberta : ∀ t, t ≠ s.activeThr → (s.ponto t).suspenso = false →
      (s.pulsar.thread t).conta.timesRunned < minDelay := by
    intro t ht hpt
    rw [pulsar_conta, if_neg ht]
    exact h.aberta t hpt
  obtain ⟨-, ⟨-, hponto, hconta⟩ | ⟨-, hponto, hconta⟩⟩ := sthreadUserDispatcher_conta he
  · refine ⟨fun t hn => ?_, fun t => ?_, fun t ht => ?_⟩
    · rw [hconta] at hn ⊢
      exact hpaga t hn
    · rw [hconta]
      exact hpouco t
    · rw [hconta]
      rw [hponto] at ht
      by_cases hact : t = s.activeThr
      · rw [hact, Function.update_self] at ht
        cases ht
      · rw [Function.update_of_ne hact] at ht
        exact haberta t hact ht
  · exact fecha hpaga hpouco haberta hconta fun t _ => congrFun hponto t

/-- One step of a run. -/
theorem passo (h : EmDia v₀ s) {c : Chamada} (he : passo s c = some (s', r)) :
    EmDia (nascimento v₀ (s, c, r)) s' := by
  have houtra : (∀ p, c ≠ .create p) → nascimento v₀ (s, c, r) = v₀ := by
    intro hc
    cases c with
    | create p => exact absurd rfl (hc p)
    | _ => rfl
  obtain ⟨hp, ⟨p, rfl, hc⟩ | ⟨n, rfl, hc⟩ | ⟨rfl, hc⟩ | ⟨hc, hs⟩⟩ | ⟨antes, hp, rfl, rfl, rfl⟩ :=
    passo_pulso he
  · exact h.create hc
  · rw [houtra fun _ => Chamada.noConfusion]
    exact h.nice hc
  · rw [houtra fun _ => Chamada.noConfusion]
    exact h.dispatcher hp hc
  · rw [houtra]
    · exact h.semPulso hp hs
    · rintro p rfl
      cases hc
  · refine fecha (s := s) h.paga h.pouco (fun t _ => h.aberta t) (fun t => ?_) fun t ht => ?_
    · exact fimDispatcher_conta s t
    · rw [Escalonador.parar]
      simp only [Function.update_of_ne ht]
      exact congrFun (fimDispatcher_campos s).2.2.2 t

end EmDia

theorem sthreadUserInit_emDia : EmDia (fun _ => 0) sthreadUserInit :=
  ⟨fun _ _ => rfl, fun _ => Int.le_of_lt minDelay_pos, fun _ _ => minDelay_pos⟩

/-- Each tick is charged once, to a thread that has not called `nice`: its `nice` is 0 until then
and positive afterwards. No more than five ticks wait to be charged. -/
theorem pulsos_cobrados (cs : List Chamada) (s : Escalonador) (os : List Resposta)
    (hr : Runs.run passo sthreadUserInit cs = some (s, os)) (t : ℕ) :
    ((s.thread t).nice = 0 →
      (s.thread t).vruntime + ((s.thread t).nice + (s.thread t).priority) *
          (s.thread t).timesRunned =
        (Runs.steps passo sthreadUserInit cs).foldl nascimento (fun _ => 0) t +
          ((s.thread t).nice + (s.thread t).priority) * (s.thread t).exectime) ∧
      (s.thread t).timesRunned ≤ 5 := by
  have h := Runs.run_history (P := fun _ _ => True) (J := EmDia)
    (fun _ _ _ _ _ hJ _ he => hJ.passo he) sthreadUserInit_emDia
    (Runs.permitted_of_forall fun _ _ _ => trivial) hr
  exact ⟨h.paga t, h.pouco t⟩

def segundoPulso : List Chamada := [.create 3, .dispatcher, .dispatcher]

/-- Thread 2 is created, takes the CPU at the first tick and counts the second one. -/
theorem pulsos_cobrados_exemplo :
    ∃ s os, Runs.run passo sthreadUserInit segundoPulso = some (s, os) ∧
      (s.thread 2).vruntime + ((s.thread 2).nice + (s.thread 2).priority) *
          (s.thread 2).timesRunned =
        (Runs.steps passo sthreadUserInit segundoPulso).foldl nascimento (fun _ => 0) 2 +
          ((s.thread 2).nice + (s.thread 2).priority) * (s.thread 2).exectime ∧
      (s.thread 2).timesRunned ≤ 5 :=
  ⟨_, _, rfl, (pulsos_cobrados segundoPulso _ _ rfl 2).1 rfl,
    (pulsos_cobrados segundoPulso _ _ rfl 2).2⟩

end ThreadScheduler.SthreadLib
