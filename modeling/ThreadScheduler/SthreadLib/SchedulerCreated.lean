import ThreadScheduler.SthreadLib.SchedulerRuns

/-!
# What has been created

In every run, whatever the calls: the trees are trees, the threads in the trees, the lists and the
queues have been created, and the lists of mutexes and monitors hold each of them once.
-/
namespace ThreadScheduler.SthreadLib

open ArvoreRB Escalonador

variable {s s' : Escalonador} {r : Resposta}

/-- The threads in the trees, the lists and the queues have been created, and the lists of mutexes
and monitors are complete. -/
structure Povoado (s : Escalonador) : Prop where
  exe : SacoRB s.exeThr
  sleep : SacoRB s.sleepThr
  ativa : s.activeThr < s.tidGen
  executaveis : ∀ t ∈ elementos s.exeThr, t < s.tidGen
  adormecidas : ∀ t ∈ elementos s.sleepThr, t < s.tidGen
  juncoes : ∀ t ∈ s.joinThr, t < s.tidGen
  filas : ∀ m, ∀ t ∈ (s.mutex m).queue, t < s.tidGen
  esperas : ∀ mon, ∀ t ∈ (s.monitor mon).queue, t < s.tidGen
  mutexes : s.mutexList = List.range s.mutexIdGen
  monitores : s.monitorList = List.range s.monitorIdGen

namespace Povoado

variable {t : ℕ}

theorem outro (h : Povoado s) (hexe : s'.exeThr = s.exeThr) (hsleep : s'.sleepThr = s.sleepThr)
    (hact : s'.activeThr = s.activeThr) (hjoin : s'.joinThr = s.joinThr)
    (htid : s'.tidGen = s.tidGen) (hmutex : ∀ m, (s'.mutex m).queue = (s.mutex m).queue)
    (hmonitor : s'.monitor = s.monitor)
    (hlistas : s'.mutexList = s.mutexList ∧ s'.mutexIdGen = s.mutexIdGen)
    (hlistas' : s'.monitorList = s.monitorList ∧ s'.monitorIdGen = s.monitorIdGen) :
    Povoado s' := by
  refine ⟨?_, ?_, ?_, ?_, ?_, ?_, fun m => ?_, ?_, ?_, ?_⟩
  · rw [hexe]
    exact h.exe
  · rw [hsleep]
    exact h.sleep
  · rw [hact, htid]
    exact h.ativa
  · rw [hexe, htid]
    exact h.executaveis
  · rw [hsleep, htid]
    exact h.adormecidas
  · rw [hjoin, htid]
    exact h.juncoes
  · rw [hmutex, htid]
    exact h.filas m
  · rw [hmonitor, htid]
    exact h.esperas
  · rw [hlistas.1, hlistas.2]
    exact h.mutexes
  · rw [hlistas'.1, hlistas'.2]
    exact h.monitores

theorem rbInserir (h : Povoado s) (ht : t < s.tidGen) : Povoado (s.rbInserir t) := by
  obtain ⟨hexe, hperm⟩ := h.exe.inserir (s.thread t).vruntime t t
  refine ⟨hexe, h.sleep, h.ativa, fun u hu => ?_, h.adormecidas, h.juncoes, h.filas,
    h.esperas, h.mutexes, h.monitores⟩
  rcases List.mem_cons.mp (hperm.mem_iff.mp hu) with rfl | hu
  · exact ht
  · exact h.executaveis u hu

theorem comutar (h : Povoado s) (he : s.comutar = .segue s' r) : Povoado s' := by
  rw [Escalonador.comutar] at he
  split at he
  · rename_i exe t hext
    obtain ⟨rfl, -⟩ := Resultado.segue.inj he
    obtain ⟨hexe, hperm⟩ := h.exe.extrair hext
    refine ⟨hexe, h.sleep, ?_, fun u hu => ?_, h.adormecidas, h.juncoes,
      h.filas, h.esperas, h.mutexes, h.monitores⟩
    · exact h.executaveis t (hperm.mem_iff.mpr List.mem_cons_self)
    · exact h.executaveis u (hperm.mem_iff.mpr (List.mem_cons_of_mem t hu))
  · cases he

theorem juntar (h : Povoado s) :
    Povoado { s with joinThr := s.joinThr ++ [s.activeThr] } := by
  refine ⟨h.exe, h.sleep, h.ativa, h.executaveis, h.adormecidas, fun t ht => ?_, h.filas,
    h.esperas, h.mutexes, h.monitores⟩
  rcases List.mem_append.mp ht with ht | ht
  · exact h.juncoes t ht
  · rw [List.mem_singleton.mp ht]
    exact h.ativa

theorem adormecer (h : Povoado s) (k : ℤ) :
    Povoado { s with sleepThr := rbInserirNo s.sleepThr k s.activeThr s.activeThr } := by
  obtain ⟨hsleep, hperm⟩ := h.sleep.inserir k s.activeThr s.activeThr
  refine ⟨h.exe, hsleep, h.ativa, h.executaveis, fun t ht => ?_, h.juncoes, h.filas,
    h.esperas, h.mutexes, h.monitores⟩
  rcases List.mem_cons.mp (hperm.mem_iff.mp ht) with rfl | ht
  · exact h.ativa
  · exact h.adormecidas t ht

theorem acordarNo {z : ℕ} (h : Povoado s) (he : SthreadLib.acordarNo s z = some s') :
    Povoado s' := by
  obtain ⟨t, hz, ⟨-, rfl⟩ | ⟨-, rfl⟩⟩ := acordarNo_cases he
  · obtain ⟨hsleep, hperm⟩ := h.sleep.remover hz
    refine Povoado.rbInserir ?_ (h.adormecidas t (hperm.mem_iff.mpr List.mem_cons_self))
    refine ⟨h.exe, hsleep, h.ativa, h.executaveis, fun u hu => ?_, h.juncoes,
      h.filas, h.esperas, h.mutexes, h.monitores⟩
    exact h.adormecidas u (hperm.mem_iff.mpr (List.mem_cons_of_mem t hu))
  · exact h.outro rfl rfl rfl rfl rfl (fun _ => rfl) rfl ⟨rfl, rfl⟩ ⟨rfl, rfl⟩

theorem mudarMutex (h : Povoado s) (m : ℕ) (f : SthreadMutex → SthreadMutex)
    (hf : ∀ t ∈ (f (s.mutex m)).queue, t < s.tidGen) : Povoado (s.mudarMutex m f) := by
  refine ⟨h.exe, h.sleep, h.ativa, h.executaveis, h.adormecidas, h.juncoes, fun k t ht => ?_,
    h.esperas, h.mutexes, h.monitores⟩
  simp only [Escalonador.mudarMutex, Function.update_apply] at ht ⊢
  split at ht
  · exact hf t ht
  · exact h.filas k t ht

theorem mudarMonitor (h : Povoado s) (mon : ℕ) (f : SthreadMon → SthreadMon)
    (hf : ∀ t ∈ (f (s.monitor mon)).queue, t < s.tidGen) : Povoado (s.mudarMonitor mon f) := by
  refine ⟨h.exe, h.sleep, h.ativa, h.executaveis, h.adormecidas, h.juncoes, h.filas,
    fun k t ht => ?_, h.mutexes, h.monitores⟩
  simp only [Escalonador.mudarMonitor, Function.update_apply] at ht ⊢
  split at ht
  · exact hf t ht
  · exact h.esperas k t ht

theorem ativar (h : Povoado s) (ht : t < s.tidGen) : Povoado { s with activeThr := t } :=
  ⟨h.exe, h.sleep, ht, h.executaveis, h.adormecidas, h.juncoes, h.filas,
    h.esperas, h.mutexes, h.monitores⟩

theorem novoMutex (h : Povoado s) (idMonitor : ℤ) : Povoado (novoMutex s idMonitor) := by
  refine ⟨h.exe, h.sleep, h.ativa, h.executaveis, h.adormecidas, h.juncoes, fun k t ht => ?_,
    h.esperas, ?_, h.monitores⟩
  · simp only [SthreadLib.novoMutex, Function.update_apply] at ht ⊢
    split at ht
    · exact absurd ht List.not_mem_nil
    · exact h.filas k t ht
  · show s.mutexList ++ [s.mutexIdGen] = List.range (s.mutexIdGen + 1)
    rw [h.mutexes, List.range_succ]

theorem mesmos (h : Povoado s) {th : ℕ → Sthread} {p : ℕ → Ponto} {z d : List ℕ} {k : ℕ} :
    Povoado { s with thread := th, ponto := p, zombieThr := z, deadThr := d, clock := k } :=
  h.outro rfl rfl rfl rfl rfl (fun _ => rfl) rfl ⟨rfl, rfl⟩ ⟨rfl, rfl⟩

/-! ## The calls -/

theorem create (h : Povoado s) {p : ℤ} (he : sthreadUserCreate s p = .segue s' r) :
    Povoado s' := by
  obtain ⟨rfl, -⟩ := Resultado.segue.inj he
  refine Povoado.rbInserir ?_ (Nat.lt_succ_self s.tidGen)
  exact ⟨h.exe, h.sleep, Nat.lt_succ_of_lt h.ativa,
    fun t ht => Nat.lt_succ_of_lt (h.executaveis t ht),
    fun t ht => Nat.lt_succ_of_lt (h.adormecidas t ht),
    fun t ht => Nat.lt_succ_of_lt (h.juncoes t ht),
    fun m t ht => Nat.lt_succ_of_lt (h.filas m t ht),
    fun mon t ht => Nat.lt_succ_of_lt (h.esperas mon t ht), h.mutexes, h.monitores⟩

/-- The joiners go to the executable tree or to the new list. -/
theorem foldl_passoExit {ret : ℕ} {rem tmp tmp' : List ℕ} {z z' : Bool} (h : Povoado s)
    (hrem : ∀ t ∈ rem, t < s.tidGen) (htmp : ∀ t ∈ tmp, t < s.tidGen)
    (he : rem.foldl (passoExit ret) (s, tmp, z) = (s', tmp', z')) :
    Povoado { s' with joinThr := tmp' } := by
  induction rem generalizing s tmp z with
  | nil =>
      simp only [List.foldl_nil, Prod.mk.injEq] at he
      obtain ⟨rfl, rfl, -⟩ := he
      exact ⟨h.exe, h.sleep, h.ativa, h.executaveis, h.adormecidas, htmp, h.filas,
        h.esperas, h.mutexes, h.monitores⟩
  | cons t rem ih =>
      rw [List.foldl_cons] at he
      have ht := hrem t List.mem_cons_self
      have hrem' : ∀ u ∈ rem, u < s.tidGen := fun u hu => hrem u (List.mem_cons_of_mem t hu)
      by_cases hj : (s.thread t).joinTid = s.activeThr
      · rw [show passoExit ret (s, tmp, z) t =
          ((s.mudar t fun th => { th with joinRet := ret }).rbInserir t, tmp, false) from
            if_pos hj] at he
        have hmudar : Povoado (s.mudar t fun th => { th with joinRet := ret }) := h.mesmos
        exact ih (hmudar.rbInserir ht) hrem' htmp he
      · rw [show passoExit ret (s, tmp, z) t = (s, tmp ++ [t], z) from if_neg hj] at he
        refine ih h hrem' (fun u hu => ?_) he
        rcases List.mem_append.mp hu with hu | hu
        · exact htmp u hu
        · rw [List.mem_singleton.mp hu]
          exact ht

theorem exit (h : Povoado s) {ret : ℕ} (he : sthreadUserExit s ret = .segue s' r) :
    Povoado s' := by
  rw [sthreadUserExit] at he
  rcases hr : s.joinThr.foldl (passoExit ret) (s, [], true) with ⟨s₁, tmp, z⟩
  have hfold := h.foldl_passoExit h.juncoes (fun t ht => absurd ht List.not_mem_nil) hr
  rw [hr] at he
  cases z with
  | false =>
      simp only [Bool.false_eq_true, if_false] at he
      split at he
      · cases he
      · exact (Povoado.mesmos hfold).comutar he
  | true =>
      simp only [if_true] at he
      split at he
      · cases he
      · exact (Povoado.mesmos hfold).comutar he

theorem yield (h : Povoado s) (he : sthreadUserYield s = .segue s' r) : Povoado s' :=
  (h.rbInserir h.ativa).comutar he

theorem fimDispatcher (h : Povoado s) : Povoado (fimDispatcher s) := by
  rw [SthreadLib.fimDispatcher]
  simp only
  split <;> exact h.mesmos

theorem dispatcher (h : Povoado s) (he : sthreadUserDispatcher s = .segue s' r) : Povoado s' := by
  obtain ⟨s₁, hs₁, ⟨-, hf⟩ | ⟨s₂, hac, hfim⟩⟩ := sthreadUserDispatcher_cases s
  · rw [hf] at he
    cases he
  · have h₁ : Povoado s₁ := by
      rw [hs₁.1]
      exact h.mesmos
    have h₂ := acordarProcessos_invariant (P := Povoado) (fun _ _ _ ha hb => ha.acordarNo hb) h₁ hac
    obtain ⟨-, hy⟩ | ⟨-, hy⟩ := hfim
    · rw [hy] at he
      have hparar : Povoado (s₂.parar s₂.activeThr (.noDespacho (s₂.ponto s₂.activeThr))) :=
        h₂.mesmos
      exact hparar.yield he
    · rw [hy] at he
      obtain ⟨rfl, -⟩ := Resultado.segue.inj he
      exact h₂.fimDispatcher

theorem join (h : Povoado s) (he : sthreadUserJoin s t = .segue s' r) : Povoado s' := by
  rw [sthreadUserJoin] at he
  split at he
  · obtain ⟨rfl, -⟩ := Resultado.segue.inj he
    exact h.mesmos
  · simp only at he
    split at he
    · exact Povoado.comutar (Povoado.mesmos h.juntar) he
    · obtain ⟨rfl, -⟩ := Resultado.segue.inj he
      exact h

theorem dormir (h : Povoado s) {time : ℤ} (he : sthreadUserSleep s time = .segue s' r) :
    Povoado s' := by
  rw [sthreadUserSleep] at he
  simp only at he
  split at he
  · obtain ⟨rfl, -⟩ := Resultado.segue.inj he
    exact h
  · split at he
    · cases he
    · exact Povoado.comutar (Povoado.mesmos (h.adormecer _)) he

theorem mutexLock (h : Povoado s) {m : ℕ} (he : sthreadUserMutexLock s m = .segue s' r) :
    Povoado s' := by
  rw [sthreadUserMutexLock] at he
  split at he
  · obtain ⟨rfl, -⟩ := Resultado.segue.inj he
    exact h
  · split at he
    · obtain ⟨rfl, -⟩ := Resultado.segue.inj he
      exact h.mudarMutex m _ (h.filas m)
    · refine Povoado.comutar (Povoado.mesmos (h.mudarMutex m _ fun t ht => ?_)) he
      rcases List.mem_append.mp ht with ht | ht
      · exact h.filas m t ht
      · rw [List.mem_singleton.mp ht]
        exact h.ativa

theorem mutexUnlock (h : Povoado s) {m : ℕ} {depois : Ponto}
    (he : sthreadUserMutexUnlock s m depois = .segue s' r) : Povoado s' := by
  revert he
  refine sthreadUserMutexUnlock_elim (P := fun res => res = .segue s' r → Povoado s') s m depois
    ?_ ?_ ?_ ?_ ?_
  · intro _ he
    obtain ⟨rfl, -⟩ := Resultado.segue.inj he
    exact h
  · intro _ _ he
    obtain ⟨rfl, -⟩ := Resultado.segue.inj he
    exact h
  · intro _ _ _ he
    obtain ⟨rfl, -⟩ := Resultado.segue.inj he
    exact h.mudarMutex m _ (h.filas m)
  · intro t fila _ _ hq _ he
    obtain ⟨rfl, -⟩ := Resultado.segue.inj he
    have hfila := h.filas m
    rw [hq] at hfila
    have hdepois := h.mudarMutex m (fun lock => { lock with thr := some t, queue := fila })
      fun u hu => hfila u (List.mem_cons_of_mem t hu)
    have hcobrar : Povoado ((s.mudarMutex m fun lock =>
      { lock with thr := some t, queue := fila }).mudar s.activeThr Sthread.cobrada) :=
      hdepois.mesmos
    have hparar : Povoado ((((s.mudarMutex m fun lock =>
      { lock with thr := some t, queue := fila }).mudar s.activeThr Sthread.cobrada).rbInserir
        s.activeThr).parar s.activeThr depois) := (hcobrar.rbInserir h.ativa).mesmos
    exact (hparar.mudarMutex m _ (hparar.filas m)).ativar (hfila t List.mem_cons_self)
  · intro t fila _ _ hq _ he
    obtain ⟨rfl, -⟩ := Resultado.segue.inj he
    have hfila := h.filas m
    rw [hq] at hfila
    exact (h.mudarMutex m _ fun u hu => hfila u (List.mem_cons_of_mem t hu)).rbInserir
      (hfila t List.mem_cons_self)

theorem sair (h : Povoado s) {mon : ℕ} (he : sairEEsperar s mon = .segue s' r) : Povoado s' := by
  rw [sairEEsperar] at he
  rcases hres : sthreadUserMutexUnlock s (s.monitor mon).mutex (.emWaitUnlock mon) with
    ⟨s₁, r₁⟩ | _ | _ | _ | _
  · have h₁ := h.mutexUnlock hres
    rw [hres] at he
    cases r₁ with
    | gira =>
        obtain ⟨rfl, -⟩ := Resultado.segue.inj he
        exact h₁.mesmos
    | entregou t =>
        obtain ⟨rfl, -⟩ := Resultado.segue.inj he
        exact h₁
    | _ => exact (Povoado.mesmos h₁).comutar he
  all_goals
    rw [hres] at he
    cases he

theorem monitorWait (h : Povoado s) {mon : ℕ} (he : sthreadUserMonitorWait s mon = .segue s' r) :
    Povoado s' := by
  rw [sthreadUserMonitorWait] at he
  split at he
  · obtain ⟨rfl, -⟩ := Resultado.segue.inj he
    exact h
  · refine Povoado.sair (h.mudarMonitor mon _ fun t ht => ?_) he
    rcases List.mem_append.mp ht with ht | ht
    · exact h.esperas mon t ht
    · rw [List.mem_singleton.mp ht]
      exact h.ativa

theorem monitorSignal (h : Povoado s) {mon : ℕ}
    (he : sthreadUserMonitorSignal s mon = .segue s' r) : Povoado s' := by
  rw [sthreadUserMonitorSignal] at he
  simp only at he
  split at he
  · obtain ⟨rfl, -⟩ := Resultado.segue.inj he
    exact h
  · split at he
    · obtain ⟨rfl, -⟩ := Resultado.segue.inj he
      exact h
    · split at he
      · obtain ⟨rfl, -⟩ := Resultado.segue.inj he
        exact h
      · rename_i t fila hq
        obtain ⟨rfl, -⟩ := Resultado.segue.inj he
        have hespera := h.esperas mon
        rw [hq] at hespera
        have hmon := h.mudarMonitor mon (fun x => { x with queue := fila })
          fun u hu => hespera u (List.mem_cons_of_mem t hu)
        refine hmon.mudarMutex _ _ fun u hu => ?_
        rcases List.mem_append.mp hu with hu | hu
        · exact h.filas _ u hu
        · rw [List.mem_singleton.mp hu]
          exact hespera t List.mem_cons_self

theorem monitorSignalall (h : Povoado s) {mon : ℕ}
    (he : sthreadUserMonitorSignalall s mon = .segue s' r) : Povoado s' := by
  rw [sthreadUserMonitorSignalall] at he
  simp only at he
  split at he
  · obtain ⟨rfl, -⟩ := Resultado.segue.inj he
    exact h
  · split at he
    · obtain ⟨rfl, -⟩ := Resultado.segue.inj he
      exact h
    · obtain ⟨rfl, -⟩ := Resultado.segue.inj he
      have hmon := h.mudarMonitor mon (fun x => { x with queue := [] })
        fun u hu => absurd hu List.not_mem_nil
      refine hmon.mudarMutex _ _ fun u hu => ?_
      rcases List.mem_append.mp hu with hu | hu
      · exact h.filas _ u hu
      · exact h.esperas mon u hu

theorem monitorInit (h : Povoado s) (he : sthreadUserMonitorInit s = .segue s' r) :
    Povoado s' := by
  obtain ⟨rfl, -⟩ := Resultado.segue.inj he
  have hmutex := h.novoMutex s.monitorIdGen
  refine ⟨hmutex.exe, hmutex.sleep, hmutex.ativa, hmutex.executaveis, hmutex.adormecidas,
    hmutex.juncoes, hmutex.filas, fun k t ht => ?_, hmutex.mutexes, ?_⟩
  · simp only [Function.update_apply] at ht
    split at ht
    · exact absurd ht List.not_mem_nil
    · exact h.esperas k t ht
  · show s.monitorList ++ [s.monitorIdGen] = List.range (s.monitorIdGen + 1)
    rw [h.monitores, List.range_succ]

theorem chamar (h : Povoado s) {c : Chamada} (he : chamar s c = .segue s' r) : Povoado s' := by
  cases c with
  | create p => exact h.create he
  | exit ret => exact h.exit he
  | dispatcher => exact h.dispatcher he
  | yield => exact h.yield he
  | join t => exact h.join he
  | sleep time => exact h.dormir he
  | nice nice =>
      obtain ⟨rfl, -⟩ := Resultado.segue.inj he
      exact h.mesmos
  | mutexInit =>
      obtain ⟨rfl, -⟩ := Resultado.segue.inj he
      exact h.novoMutex (-1)
  | mutexLock m => exact h.mutexLock he
  | mutexUnlock m => exact h.mutexUnlock he
  | monitorInit => exact h.monitorInit he
  | monitorEnter mon => exact h.mutexLock he
  | monitorExit mon => exact h.mutexUnlock he
  | monitorWait mon => exact h.monitorWait he
  | monitorSignal mon => exact h.monitorSignal he
  | monitorSignalall mon => exact h.monitorSignalall he
  | resume => cases he

theorem retomar (h : Povoado s) {p : Ponto} (he : retomar s p = .segue s' r) : Povoado s' := by
  cases p with
  | livre => cases he
  | noDespacho antes =>
      obtain ⟨rfl, -⟩ := Resultado.segue.inj he
      exact h.fimDispatcher.mesmos
  | emJoin alvo =>
      obtain ⟨rfl, -⟩ := Resultado.segue.inj he
      exact h.mesmos
  | emLock m =>
      obtain ⟨rfl, -⟩ := Resultado.segue.inj he
      exact h.mesmos
  | emUnlock m =>
      obtain ⟨rfl, -⟩ := Resultado.segue.inj he
      exact (h.mudarMutex m _ (h.filas m)).mesmos
  | girando mon => exact h.sair he
  | emWaitUnlock mon => exact (Povoado.mesmos (h.mudarMutex _ _ (h.filas _))).comutar he
  | emWait mon =>
      obtain ⟨rfl, -⟩ := Resultado.segue.inj he
      exact h.mesmos
  | terminada => cases he

theorem passo (h : Povoado s) {c : Chamada} (he : passo s c = some (s', r)) : Povoado s' := by
  obtain ⟨-, he⟩ | ⟨mon, -, -, he⟩ | ⟨-, he⟩ | he := executa_cases (passo_eq_some.mp he)
  · exact h.chamar he
  · exact h.dispatcher he
  · exact h.retomar he
  · cases he

end Povoado

theorem sthreadUserInit_povoado : Povoado sthreadUserInit := by
  have hvazia : ∀ t, t ∉ elementos (rbNovaArvore : ArvoreRB ℕ) := by
    intro t ht
    rw [SacoRB.nova.vazia_iff.mp rfl] at ht
    exact List.not_mem_nil ht
  exact ⟨.nova, .nova, Nat.one_lt_two, fun t ht => absurd ht (hvazia t),
    fun t ht => absurd ht (hvazia t), fun t ht => absurd ht List.not_mem_nil,
    fun m t ht => absurd ht List.not_mem_nil, fun mon t ht => absurd ht List.not_mem_nil,
    rfl, rfl⟩

theorem run_povoado {cs : List Chamada} {os : List Resposta}
    (hr : Runs.run passo sthreadUserInit cs = some (s, os)) : Povoado s :=
  Runs.run_invariant (P := fun _ _ => True) (fun _ _ _ _ hI _ he => hI.passo he)
    sthreadUserInit_povoado (Runs.permitted_of_forall fun _ _ _ => trivial) hr

end ThreadScheduler.SthreadLib
