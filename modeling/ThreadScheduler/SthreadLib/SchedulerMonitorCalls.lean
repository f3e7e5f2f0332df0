import ThreadScheduler.SthreadLib.SchedulerMutex

/-!
# What the calls do to mutexes and monitors

One theorem for each call that is about a mutex or a monitor, with what becomes of its owner and
of its queues. `OutroTrinco` is what the other calls keep.
-/
namespace ThreadScheduler.SthreadLib

open ArvoreRB Escalonador

variable {s s' : Escalonador} {r : Resposta} {m mon : ℕ}

/-- A call that is not about mutex `m`, with its thread at `p` if it is suspended. -/
structure OutroTrinco (m : ℕ) (p : Ponto) (s s' : Escalonador) : Prop where
  thr : (s'.mutex m).thr = (s.mutex m).thr
  queue : (s'.mutex m).queue = (s.mutex m).queue
  monitor : ∀ mon, (s'.monitor mon).mutex = (s.monitor mon).mutex ∧
    ((s.monitor mon).mutex = m → (s'.monitor mon).queue = (s.monitor mon).queue)
  gens : s'.mutexIdGen = s.mutexIdGen ∧ s'.monitorIdGen = s.monitorIdGen
  tid : s'.tidGen = s.tidGen
  ponto : s'.ponto = s.ponto ∨ s'.ponto = Function.update s.ponto s.activeThr p

/-- The mutexes and the monitors stay as they are. -/
theorem OutroTrinco.intacta {p : Ponto} (hm : s'.mutex = s.mutex) (hmon : s'.monitor = s.monitor)
    (hgens : s'.mutexIdGen = s.mutexIdGen ∧ s'.monitorIdGen = s.monitorIdGen)
    (htid : s'.tidGen = s.tidGen)
    (hponto : s'.ponto = s.ponto ∨ s'.ponto = Function.update s.ponto s.activeThr p) :
    OutroTrinco m p s s' := by
  refine ⟨?_, ?_, fun mon => ⟨?_, fun _ => ?_⟩, hgens, htid, hponto⟩
  · rw [hm]
  · rw [hm]
  · rw [hmon]
  · rw [hmon]

/-- A mutex other than `m` changes. -/
theorem OutroTrinco.mudarMutex {p : Ponto} {k : ℕ} (hk : m ≠ k) {x : SthreadMutex}
    (hm : s'.mutex = Function.update s.mutex k x) (hmon : s'.monitor = s.monitor)
    (hgens : s'.mutexIdGen = s.mutexIdGen ∧ s'.monitorIdGen = s.monitorIdGen)
    (htid : s'.tidGen = s.tidGen)
    (hponto : s'.ponto = s.ponto ∨ s'.ponto = Function.update s.ponto s.activeThr p) :
    OutroTrinco m p s s' := by
  have hsame : s'.mutex m = s.mutex m := by rw [hm, Function.update_of_ne hk]
  refine ⟨?_, ?_, fun mon => ⟨?_, fun _ => ?_⟩, hgens, htid, hponto⟩
  · rw [hsame]
  · rw [hsame]
  · rw [hmon]
  · rw [hmon]

theorem OutroTrinco.comutar {p : Ponto} {s₁ : Escalonador} (he : s₁.comutar = .segue s' r)
    (h : OutroTrinco m p s s₁) : OutroTrinco m p s s' := by
  rw [(comutar_campos he).1]
  exact ⟨h.thr, h.queue, h.monitor, h.gens, h.tid, h.ponto⟩

/-! ## What the calls do -/

/-- `mutex_lock` gives the free mutex to its caller, or puts it at the end of the queue. -/
theorem sthreadUserMutexLock_efeito (he : sthreadUserMutexLock s m = .segue s' r) :
    s' = s ∧ r = .gira ∨
    (s.mutex m).thr = none ∧ r = .nada ∧
      s' = s.mudarMutex m (fun lock => { lock with thr := some s.activeThr }) ∨
    (∃ u, (s.mutex m).thr = some u) ∧ (∃ no, r = .trocou no) ∧
      ((s.mudarMutex m fun lock => { lock with queue := lock.queue ++ [s.activeThr] }).parar
        s.activeThr (.emLock m)).comutar = .segue s' r := by
  rw [sthreadUserMutexLock] at he
  split at he
  · obtain ⟨rfl, rfl⟩ := Resultado.segue.inj he
    exact .inl ⟨rfl, rfl⟩
  · split at he
    · rename_i hthr
      obtain ⟨rfl, rfl⟩ := Resultado.segue.inj he
      exact .inr (.inl ⟨hthr, rfl, rfl⟩)
    · rename_i u hthr
      exact .inr (.inr ⟨⟨u, hthr⟩, (comutar_campos he).2, he⟩)

/-- What an unlock of the owner does, with the owner at `p` if it is suspended. -/
structure Larga (m : ℕ) (p : Ponto) (s s' : Escalonador) : Prop where
  dono : (s.mutex m).thr = some s.activeThr
  mutex : ∃ l, s'.mutex = Function.update s.mutex m
    { s.mutex m with thr := (s.mutex m).queue.head?, queue := (s.mutex m).queue.tail, l := l }
  monitor : s'.monitor = s.monitor
  gens : s'.mutexIdGen = s.mutexIdGen ∧ s'.monitorIdGen = s.monitorIdGen
  tid : s'.tidGen = s.tidGen
  ponto : s'.ponto = s.ponto ∨ s'.ponto = Function.update s.ponto s.activeThr p

/-- `mutex_unlock` gives the mutex to the first thread of the queue. -/
theorem sthreadUserMutexUnlock_efeito {p : Ponto}
    (he : sthreadUserMutexUnlock s m p = .segue s' r) :
    s' = s ∧ (r = .gira ∨ r = .nada ∧ (s.mutex m).thr ≠ some s.activeThr) ∨
      r ≠ .gira ∧ Larga m p s s' := by
  revert he
  refine sthreadUserMutexUnlock_elim (P := fun res => res = .segue s' r → _) s m p ?_ ?_ ?_ ?_ ?_
  · intro hne he
    obtain ⟨rfl, rfl⟩ := Resultado.segue.inj he
    exact .inl ⟨rfl, .inr ⟨rfl, hne⟩⟩
  · intro _ _ he
    obtain ⟨rfl, rfl⟩ := Resultado.segue.inj he
    exact .inl ⟨rfl, .inl rfl⟩
  · intro hdono hl hq he
    obtain ⟨rfl, rfl⟩ := Resultado.segue.inj he
    refine .inr ⟨Resposta.noConfusion, hdono, ⟨(s.mutex m).l, ?_⟩, rfl, ⟨rfl, rfl⟩, rfl, .inl rfl⟩
    simp [Escalonador.mudarMutex, hq]
  · intro t fila hdono hl hq _ he
    obtain ⟨rfl, rfl⟩ := Resultado.segue.inj he
    refine .inr ⟨Resposta.noConfusion, hdono, ⟨true, ?_⟩, rfl, ⟨rfl, rfl⟩, rfl, .inr rfl⟩
    simp [Escalonador.mudarMutex, Escalonador.parar, Escalonador.rbInserir, Escalonador.mudar, hq]
  · intro t fila hdono hl hq _ he
    obtain ⟨rfl, rfl⟩ := Resultado.segue.inj he
    refine .inr ⟨Resposta.noConfusion, hdono, ⟨(s.mutex m).l, ?_⟩, rfl, ⟨rfl, rfl⟩, rfl, .inl rfl⟩
    simp [Escalonador.mudarMutex, Escalonador.rbInserir, hq]

/-- `monitor_wait` puts the owner into the queue of the monitor and unlocks. -/
theorem sthreadUserMonitorWait_efeito (hw : EsperaLimpa s mon)
    (he : sthreadUserMonitorWait s mon = .segue s' r) :
    s' = s ∧ r = .nada ∧ (s.mutex (s.monitor mon).mutex).thr ≠ some s.activeThr ∨
      (∃ no, r = .trocou no) ∧ ∃ s₁,
        Larga (s.monitor mon).mutex .livre
          (s.mudarMonitor mon fun x => { x with queue := x.queue ++ [s.activeThr] }) s₁ ∧
        s₁.ponto = s.ponto ∧ (s₁.parar s.activeThr (.emWait mon)).comutar = .segue s' r := by
  rw [sthreadUserMonitorWait] at he
  split at he
  · rename_i hthr
    obtain ⟨rfl, rfl⟩ := Resultado.segue.inj he
    exact .inl ⟨rfl, rfl, hthr⟩
  · rename_i hthr
    obtain ⟨hl, hv⟩ := hw (not_not.mp hthr)
    let s₁ := s.mudarMonitor mon fun x => { x with queue := x.queue ++ [s.activeThr] }
    have hm₁ : (s₁.monitor mon).mutex = (s.monitor mon).mutex := by
      simp [s₁, Escalonador.mudarMonitor]
    rw [show sairEEsperar _ mon = sairEEsperar s₁ mon from rfl, sairEEsperar, hm₁] at he
    refine .inr ?_
    refine sthreadUserMutexUnlock_elim (P := fun res => sthreadUserMutexUnlock s₁
      (s.monitor mon).mutex (.emWaitUnlock mon) = res → _) s₁ (s.monitor mon).mutex
      (.emWaitUnlock mon) ?_ ?_ ?_ ?_ ?_ rfl
    · intro hne
      exact absurd (not_not.mp hthr) hne
    · intro _ hl'
      exact absurd (hl.symm.trans hl') Bool.false_ne_true
    · intro hdono _ hq hres
      rw [hres] at he
      refine ⟨(comutar_campos he).2,
        s₁.mudarMutex (s.monitor mon).mutex fun lock => { lock with thr := none },
        ⟨hdono, ⟨(s₁.mutex (s.monitor mon).mutex).l, ?_⟩, rfl, ⟨rfl, rfl⟩, rfl, .inl rfl⟩, rfl, he⟩
      have hq : (s.mutex (s.monitor mon).mutex).queue = [] := hq
      simp [s₁, Escalonador.mudarMutex, Escalonador.mudarMonitor, hq]
    · intro t fila _ _ hq hlt
      have hhead : t ∈ (s.mutex (s.monitor mon).mutex).queue.head? := by
        rw [show (s.mutex (s.monitor mon).mutex).queue = t :: fila from hq]
        rfl
      have hle : (s₁.thread s₁.activeThr).vruntime + s₁.porCobrar ≤ (s₁.thread t).vruntime :=
        hv t hhead
      omega
    · intro t fila hdono _ hq _ hres
      rw [hres] at he
      refine ⟨(comutar_campos he).2, (s₁.mudarMutex (s.monitor mon).mutex
          fun lock => { lock with thr := some t, queue := fila }).rbInserir t,
        ⟨hdono, ⟨(s₁.mutex (s.monitor mon).mutex).l, ?_⟩, rfl, ⟨rfl, rfl⟩, rfl, .inl rfl⟩, rfl, he⟩
      have hq : (s.mutex (s.monitor mon).mutex).queue = t :: fila := hq
      simp [s₁, Escalonador.mudarMutex, Escalonador.mudarMonitor, Escalonador.rbInserir, hq]

/-- `n` threads go from the queue of the monitor to that of its mutex. -/
structure Assina (mon n : ℕ) (s s' : Escalonador) : Prop where
  mutex : s'.mutex = Function.update s.mutex (s.monitor mon).mutex
    { s.mutex (s.monitor mon).mutex with
      queue := (s.mutex (s.monitor mon).mutex).queue ++ (s.monitor mon).queue.take n }
  monitor : s'.monitor = Function.update s.monitor mon
    { s.monitor mon with queue := (s.monitor mon).queue.drop n }
  gens : s'.mutexIdGen = s.mutexIdGen ∧ s'.monitorIdGen = s.monitorIdGen
  tid : s'.tidGen = s.tidGen
  ponto : s'.ponto = s.ponto

theorem sthreadUserMonitorSignal_efeito (he : sthreadUserMonitorSignal s mon = .segue s' r) :
    s' = s ∨ (s.mutex (s.monitor mon).mutex).thr = some s.activeThr ∧ Assina mon 1 s s' := by
  rw [sthreadUserMonitorSignal] at he
  simp only at he
  split at he
  · exact .inl (Resultado.segue.inj he).1.symm
  · rename_i hthr
    split at he
    · exact .inl (Resultado.segue.inj he).1.symm
    · split at he
      · exact .inl (Resultado.segue.inj he).1.symm
      · rename_i t fila hq
        obtain ⟨rfl, -⟩ := Resultado.segue.inj he
        refine .inr ⟨not_not.mp hthr, ?_, ?_, ⟨rfl, rfl⟩, rfl, rfl⟩
        · simp [Escalonador.mudarMutex, Escalonador.mudarMonitor, hq]
        · simp [Escalonador.mudarMutex, Escalonador.mudarMonitor, hq]

theorem sthreadUserMonitorSignalall_efeito
    (he : sthreadUserMonitorSignalall s mon = .segue s' r) :
    s' = s ∨ (s.mutex (s.monitor mon).mutex).thr = some s.activeThr ∧
      Assina mon (s.monitor mon).queue.length s s' := by
  rw [sthreadUserMonitorSignalall] at he
  simp only at he
  split at he
  · exact .inl (Resultado.segue.inj he).1.symm
  · rename_i hthr
    split at he
    · exact .inl (Resultado.segue.inj he).1.symm
    · obtain ⟨rfl, -⟩ := Resultado.segue.inj he
      refine .inr ⟨not_not.mp hthr, ?_, ?_, ⟨rfl, rfl⟩, rfl, rfl⟩
      · simp [Escalonador.mudarMutex, Escalonador.mudarMonitor]
      · simp [Escalonador.mudarMutex, Escalonador.mudarMonitor]

/-- The calls that are not about mutexes leave them. -/
theorem sthreadUserExit_outroTrinco {ret : ℕ} (he : sthreadUserExit s ret = .segue s' r) :
    OutroTrinco m .terminada s s' := by
  obtain ⟨exe, th, hr, -⟩ := foldl_passoExit ret s.joinThr s [] true
  rw [sthreadUserExit, hr] at he
  simp only at he
  cases hz : (true && s.joinThr.all fun t => decide ((s.thread t).joinTid ≠ s.activeThr)) with
  | false =>
      rw [hz] at he
      simp only [Bool.false_eq_true, if_false] at he
      split at he
      · cases he
      · exact .comutar he (.intacta rfl rfl ⟨rfl, rfl⟩ rfl (.inr rfl))
  | true =>
      rw [hz] at he
      simp only [if_true] at he
      split at he
      · cases he
      · exact .comutar he (.intacta rfl rfl ⟨rfl, rfl⟩ rfl (.inr rfl))

theorem sthreadUserDispatcher_outroTrinco (he : sthreadUserDispatcher s = .segue s' r) :
    OutroTrinco m (.noDespacho (s.ponto s.activeThr)) s s' := by
  obtain ⟨s₁, hs₁, ⟨-, hf⟩ | ⟨s₂, hac, hfim⟩⟩ := sthreadUserDispatcher_cases s
  · rw [hf] at he
    cases he
  · have h₁ : (s₁.mutex = s.mutex ∧ s₁.monitor = s.monitor) ∧ (s₁.mutexIdGen = s.mutexIdGen ∧
        s₁.monitorIdGen = s.monitorIdGen) ∧ s₁.tidGen = s.tidGen ∧ s₁.ponto = s.ponto ∧
        s₁.activeThr = s.activeThr := by
      rw [hs₁.1]
      exact ⟨⟨rfl, rfl⟩, ⟨rfl, rfl⟩, rfl, rfl, rfl⟩
    obtain ⟨⟨hmutex, hmon⟩, hgens, htid, hponto, hact⟩ :
        (s₂.mutex = s.mutex ∧ s₂.monitor = s.monitor) ∧ (s₂.mutexIdGen = s.mutexIdGen ∧
        s₂.monitorIdGen = s.monitorIdGen) ∧ s₂.tidGen = s.tidGen ∧ s₂.ponto = s.ponto ∧
        s₂.activeThr = s.activeThr := by
      refine acordarProcessos_invariant (P := fun x => (x.mutex = s.mutex ∧
        x.monitor = s.monitor) ∧ (x.mutexIdGen = s.mutexIdGen ∧
        x.monitorIdGen = s.monitorIdGen) ∧ x.tidGen = s.tidGen ∧ x.ponto = s.ponto ∧
        x.activeThr = s.activeThr) (fun a b z ha hb => ?_) h₁ hac
      obtain ⟨t, -, ⟨-, rfl⟩ | ⟨-, rfl⟩⟩ := acordarNo_cases hb <;> exact ha
    obtain ⟨-, hy⟩ | ⟨-, hy⟩ := hfim
    · rw [hy, hponto, hact] at he
      exact .comutar he (.intacta hmutex hmon hgens htid (.inr (by
        simp only [Escalonador.rbInserir, Escalonador.parar, hponto])))
    · rw [hy] at he
      obtain ⟨rfl, rfl⟩ := Resultado.segue.inj he
      rw [fimDispatcher]
      simp only
      split <;> exact .intacta hmutex hmon hgens htid (.inl hponto)

theorem sthreadUserJoin_outroTrinco {t : ℕ} (he : sthreadUserJoin s t = .segue s' r) :
    OutroTrinco m (.emJoin t) s s' := by
  rw [sthreadUserJoin] at he
  split at he
  · obtain ⟨rfl, rfl⟩ := Resultado.segue.inj he
    exact .intacta rfl rfl ⟨rfl, rfl⟩ rfl (.inl rfl)
  · simp only at he
    split at he
    · exact .comutar he (.intacta rfl rfl ⟨rfl, rfl⟩ rfl (.inr rfl))
    · obtain ⟨rfl, rfl⟩ := Resultado.segue.inj he
      exact .intacta rfl rfl ⟨rfl, rfl⟩ rfl (.inl rfl)

theorem sthreadUserSleep_outroTrinco {time : ℤ} {p : Ponto}
    (he : sthreadUserSleep s time = .segue s' r) : OutroTrinco m p s s' := by
  rw [sthreadUserSleep] at he
  simp only at he
  split at he
  · obtain ⟨rfl, rfl⟩ := Resultado.segue.inj he
    exact .intacta rfl rfl ⟨rfl, rfl⟩ rfl (.inl rfl)
  · split at he
    · cases he
    · exact .comutar he (.intacta rfl rfl ⟨rfl, rfl⟩ rfl (.inl rfl))

end ThreadScheduler.SthreadLib
