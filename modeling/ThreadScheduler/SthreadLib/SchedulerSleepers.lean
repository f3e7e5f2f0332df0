import ThreadScheduler.SthreadLib.SchedulerAbsent
import ThreadScheduler.SthreadLib.SchedulerClock

/-!
# No thread wakes early

A thread in the sleep tree leaves it in one way, at a tick whose `Clock` has come to its
`wake_time`. No other call touches the tree or the wake time of a thread that is in it, so a thread
that has called `sleep` is not active again before its ticks have passed.
-/
namespace ThreadScheduler.SthreadLib

open ArvoreRB Escalonador

variable {s s' s'' : Escalonador} {r : Resposta}

/-- The call leaves the sleep tree and the wake times of the threads there are. -/
structure MesmoSono (s s' : Escalonador) : Prop where
  sleep : s'.sleepThr = s.sleepThr
  wake : ∀ t < s.tidGen, (s'.thread t).wakeTime = (s.thread t).wakeTime

namespace MesmoSono

theorem outro (hsleep : s'.sleepThr = s.sleepThr) (hthread : s'.thread = s.thread) :
    MesmoSono s s' :=
  ⟨hsleep, fun _ _ => by rw [hthread]⟩

/-- One thread changes as well. -/
theorem um {t : ℕ} {x : Sthread} (hsleep : s'.sleepThr = s.sleepThr)
    (hthread : s'.thread = Function.update s.thread t x)
    (hx : t < s.tidGen → x.wakeTime = (s.thread t).wakeTime) : MesmoSono s s' := by
  refine ⟨hsleep, fun u hu => ?_⟩
  rw [hthread, Function.update_apply]
  split
  · rename_i he
    rw [hx (he ▸ hu), he]
  · rfl

theorem comutar {s₁ : Escalonador} (he : s₁.comutar = .segue s' r) (h : MesmoSono s s₁) :
    MesmoSono s s' := by
  rw [(comutar_campos he).1]
  exact ⟨h.sleep, h.wake⟩

theorem fimDispatcher (s : Escalonador) : MesmoSono s (fimDispatcher s) := by
  rw [SthreadLib.fimDispatcher]
  simp only
  split
  · exact .outro rfl rfl
  · exact .um rfl rfl fun _ => rfl

end MesmoSono

/-! ## The calls that leave the sleepers alone -/

theorem sthreadUserExit_mesmoSono {ret : ℕ} (he : sthreadUserExit s ret = .segue s' r) :
    MesmoSono s s' := by
  obtain ⟨exe, th, hfold, hth⟩ := foldl_passoExit ret s.joinThr s [] true
  have hwake : ∀ t, (th t).wakeTime = (s.thread t).wakeTime := by
    intro t
    rw [hth]
    split <;> rfl
  rw [sthreadUserExit, hfold] at he
  simp only at he
  split at he
  · split at he
    · cases he
    · exact .comutar he ⟨rfl, fun t _ => hwake t⟩
  · split at he
    · cases he
    · exact .comutar he ⟨rfl, fun t _ => hwake t⟩

theorem sthreadUserJoin_mesmoSono {t : ℕ} (he : sthreadUserJoin s t = .segue s' r) :
    MesmoSono s s' := by
  by_cases ht : t ∈ s.zombieThr
  · rw [sthreadUserJoin, if_pos ht] at he
    obtain ⟨rfl, -⟩ := Resultado.segue.inj he
    exact .outro rfl rfl
  · rw [sthreadUserJoin_of_notMem ht] at he
    exact .comutar he (.um rfl rfl fun _ => rfl)

theorem sthreadUserMutexLock_mesmoSono {m : ℕ} (he : sthreadUserMutexLock s m = .segue s' r) :
    MesmoSono s s' := by
  rw [sthreadUserMutexLock] at he
  split at he
  · obtain ⟨rfl, -⟩ := Resultado.segue.inj he
    exact .outro rfl rfl
  · split at he
    · obtain ⟨rfl, -⟩ := Resultado.segue.inj he
      exact .outro rfl rfl
    · exact .comutar he (.outro rfl rfl)

theorem sthreadUserMutexUnlock_mesmoSono {m : ℕ} {depois : Ponto}
    (he : sthreadUserMutexUnlock s m depois = .segue s' r) : MesmoSono s s' := by
  revert he
  refine sthreadUserMutexUnlock_elim (P := fun res => res = .segue s' r → MesmoSono s s') s m
    depois ?_ ?_ ?_ ?_ ?_
  · intro _ he
    obtain ⟨rfl, -⟩ := Resultado.segue.inj he
    exact .outro rfl rfl
  · intro _ _ he
    obtain ⟨rfl, -⟩ := Resultado.segue.inj he
    exact .outro rfl rfl
  · intro _ _ _ he
    obtain ⟨rfl, -⟩ := Resultado.segue.inj he
    exact .outro rfl rfl
  · intro u fila _ _ _ _ he
    obtain ⟨rfl, -⟩ := Resultado.segue.inj he
    exact .um rfl rfl fun _ => rfl
  · intro u fila _ _ _ _ he
    obtain ⟨rfl, -⟩ := Resultado.segue.inj he
    exact .outro rfl rfl

theorem sairEEsperar_mesmoSono {mon : ℕ} (he : sairEEsperar s mon = .segue s' r) :
    MesmoSono s s' := by
  rw [sairEEsperar] at he
  rcases hres : sthreadUserMutexUnlock s (s.monitor mon).mutex (.emWaitUnlock mon) with
    ⟨s₁, r₁⟩ | _ | _ | _ | _
  · have h := sthreadUserMutexUnlock_mesmoSono hres
    rw [hres] at he
    cases r₁ with
    | gira =>
        obtain ⟨rfl, -⟩ := Resultado.segue.inj he
        exact ⟨h.sleep, h.wake⟩
    | entregou t =>
        obtain ⟨rfl, -⟩ := Resultado.segue.inj he
        exact h
    | nada => exact .comutar he ⟨h.sleep, h.wake⟩
    | criou t => exact .comutar he ⟨h.sleep, h.wake⟩
    | trocou no => exact .comutar he ⟨h.sleep, h.wake⟩
    | juntou c a v => exact .comutar he ⟨h.sleep, h.wake⟩
  all_goals
    rw [hres] at he
    cases he

theorem sthreadUserMonitorWait_mesmoSono {mon : ℕ}
    (he : sthreadUserMonitorWait s mon = .segue s' r) : MesmoSono s s' := by
  rw [sthreadUserMonitorWait] at he
  split at he
  · obtain ⟨rfl, -⟩ := Resultado.segue.inj he
    exact .outro rfl rfl
  · have h := sairEEsperar_mesmoSono he
    exact ⟨h.sleep, h.wake⟩

theorem sthreadUserMonitorSignal_mesmoSono {mon : ℕ}
    (he : sthreadUserMonitorSignal s mon = .segue s' r) : MesmoSono s s' := by
  rw [sthreadUserMonitorSignal] at he
  simp only at he
  split at he
  · obtain ⟨rfl, -⟩ := Resultado.segue.inj he
    exact .outro rfl rfl
  · split at he
    · obtain ⟨rfl, -⟩ := Resultado.segue.inj he
      exact .outro rfl rfl
    · split at he <;> obtain ⟨rfl, -⟩ := Resultado.segue.inj he <;> exact .outro rfl rfl

theorem sthreadUserMonitorSignalall_mesmoSono {mon : ℕ}
    (he : sthreadUserMonitorSignalall s mon = .segue s' r) : MesmoSono s s' := by
  rw [sthreadUserMonitorSignalall] at he
  simp only at he
  split at he
  · obtain ⟨rfl, -⟩ := Resultado.segue.inj he
    exact .outro rfl rfl
  · split at he <;> obtain ⟨rfl, -⟩ := Resultado.segue.inj he <;> exact .outro rfl rfl

theorem retomar_mesmoSono {p : Ponto} (he : retomar s p = .segue s' r) : MesmoSono s s' := by
  cases p with
  | livre => cases he
  | noDespacho antes =>
      obtain ⟨rfl, -⟩ := Resultado.segue.inj he
      have h := MesmoSono.fimDispatcher s
      exact ⟨h.sleep, h.wake⟩
  | emJoin alvo =>
      obtain ⟨rfl, -⟩ := Resultado.segue.inj he
      exact .outro rfl rfl
  | emLock m =>
      obtain ⟨rfl, -⟩ := Resultado.segue.inj he
      exact .outro rfl rfl
  | emUnlock m =>
      obtain ⟨rfl, -⟩ := Resultado.segue.inj he
      exact .outro rfl rfl
  | girando mon => exact sairEEsperar_mesmoSono he
  | emWaitUnlock mon => exact .comutar he (.outro rfl rfl)
  | emWait mon =>
      obtain ⟨rfl, -⟩ := Resultado.segue.inj he
      exact .outro rfl rfl
  | terminada => cases he

theorem chamar_mesmoSono {c : Chamada} (hsleep : ∀ time, c ≠ .sleep time)
    (hdisp : c ≠ .dispatcher) (he : chamar s c = .segue s' r) : MesmoSono s s' := by
  cases c with
  | create p =>
      obtain ⟨rfl, -⟩ := Resultado.segue.inj he
      exact .um rfl rfl fun hlt => absurd hlt (Nat.lt_irrefl _)
  | exit ret => exact sthreadUserExit_mesmoSono he
  | dispatcher => exact absurd rfl hdisp
  | yield => exact .comutar he (.outro rfl rfl)
  | join t => exact sthreadUserJoin_mesmoSono he
  | sleep time => exact absurd rfl (hsleep time)
  | nice n =>
      obtain ⟨rfl, -⟩ := Resultado.segue.inj he
      exact .um rfl rfl fun _ => rfl
  | mutexInit =>
      obtain ⟨rfl, -⟩ := Resultado.segue.inj he
      exact .outro rfl rfl
  | mutexLock m => exact sthreadUserMutexLock_mesmoSono he
  | mutexUnlock m => exact sthreadUserMutexUnlock_mesmoSono he
  | monitorInit =>
      obtain ⟨rfl, -⟩ := Resultado.segue.inj he
      exact .outro rfl rfl
  | monitorEnter mon => exact sthreadUserMutexLock_mesmoSono he
  | monitorExit mon => exact sthreadUserMutexUnlock_mesmoSono he
  | monitorWait mon => exact sthreadUserMonitorWait_mesmoSono he
  | monitorSignal mon => exact sthreadUserMonitorSignal_mesmoSono he
  | monitorSignalall mon => exact sthreadUserMonitorSignalall_mesmoSono he
  | resume => cases he

/-! ## The clock and the sleeper -/

theorem passo_clock_le {c : Chamada} (he : passo s c = some (s', r)) : s.clock ≤ s'.clock := by
  obtain ⟨-, ⟨p, -, hc⟩ | ⟨n, -, hc⟩ | ⟨-, hc⟩ | ⟨-, hs⟩⟩ | ⟨antes, -, -, -, rfl⟩ := passo_pulso he
  · obtain ⟨rfl, -⟩ := Resultado.segue.inj hc
    exact Nat.le_refl _
  · obtain ⟨rfl, -⟩ := Resultado.segue.inj hc
    exact Nat.le_refl _
  · obtain ⟨-, ⟨hclock, -⟩ | ⟨hclock, -⟩⟩ := sthreadUserDispatcher_conta hc <;> omega
  · rw [hs.clock]
  · exact Nat.le_of_succ_le (fimDispatcher_clock s).ge

/-- Thread `t` sleeps until `w`, or `w` has come. -/
def Dorme (t : ℕ) (w : ℤ) (s : Escalonador) : Prop :=
  w ≤ s.clock ∨ t ∈ elementos s.sleepThr ∧ (s.thread t).wakeTime = w

namespace Dorme

variable {t : ℕ} {w : ℤ}

theorem mesmoSono (h : Dorme t w s) (hs : Povoado s) (hclock : s.clock ≤ s'.clock)
    (hm : MesmoSono s s') : Dorme t w s' := by
  rcases h with hw | ⟨hmem, hw⟩
  · exact .inl (by omega)
  · refine .inr ⟨hm.sleep ▸ hmem, ?_⟩
    rw [hm.wake t (hs.adormecidas t hmem), hw]

theorem soTempos (h : Dorme t w s) (hs : SoTempos s s') : Dorme t w s' := by
  rw [Dorme, hs.1]
  refine h.imp id fun hd => ⟨hd.1, ?_⟩
  show (s'.thread t).wakeTime = w
  rw [hs.2 t]
  exact hd.2

/-- A thread that leaves the tree is due. -/
theorem acordarNo (h : Dorme t w s) (hs : Povoado s) {z : ℕ}
    (he : SthreadLib.acordarNo s z = some s') : Dorme t w s' := by
  obtain ⟨u, hz, ⟨⟨-, hdue⟩, rfl⟩ | ⟨-, rfl⟩⟩ := acordarNo_cases he
  · rcases h with hw | ⟨hmem, hw⟩
    · exact .inl hw
    · by_cases hu : t = u
      · subst hu
        rw [hw] at hdue
        exact .inl hdue
      · obtain ⟨-, hperm⟩ := hs.sleep.remover hz
        refine .inr ⟨(List.mem_cons.mp (hperm.mem_iff.mp hmem)).resolve_left hu, ?_⟩
        simp only [Escalonador.rbInserir, Escalonador.mudar, Function.update_of_ne hu]
        exact hw
  · exact h.soTempos (.mudar u rfl)

/-- A tick wakes nobody too early. -/
theorem dispatcher (h : Dorme t w s) (hs : Povoado s)
    (he : sthreadUserDispatcher s = .segue s' r) : Dorme t w s' := by
  obtain ⟨s₁, hs₁, ⟨-, hf⟩ | ⟨s₂, hac, hfim⟩⟩ := sthreadUserDispatcher_cases s
  · rw [hf] at he
    cases he
  · have hpulso : MesmoSono s s.pulsar := .um rfl rfl fun _ => rfl
    have hd₁ : Dorme t w s.pulsar := h.mesmoSono hs (Nat.le_refl _) hpulso
    have hp₁ : Povoado s₁ := by
      rw [hs₁.1]
      exact hs.mesmos
    obtain ⟨hp₂, h₂⟩ := acordarProcessos_invariant (P := fun s => Povoado s ∧ Dorme t w s)
      (fun a b z ha hb => ⟨ha.1.acordarNo hb, ha.2.acordarNo ha.1 hb⟩) ⟨hp₁, hd₁.soTempos hs₁⟩ hac
    obtain ⟨-, hy⟩ | ⟨-, hy⟩ := hfim
    · rw [hy] at he
      obtain ⟨he, -⟩ := comutar_campos he
      rw [he]
      exact h₂
    · rw [hy] at he
      obtain ⟨rfl, -⟩ := Resultado.segue.inj he
      refine h₂.mesmoSono hp₂ ?_ (.fimDispatcher s₂)
      rw [fimDispatcher_clock]
      exact Nat.le_succ _

/-- Another thread goes to sleep. -/
theorem dormir (h : Dorme t w s) (hs : Povoado s) (hact : s.activeThr ∉ elementos s.sleepThr)
    {time : ℤ} (he : sthreadUserSleep s time = .segue s' r) : Dorme t w s' := by
  rw [sthreadUserSleep] at he
  simp only at he
  split at he
  · obtain ⟨rfl, -⟩ := Resultado.segue.inj he
    exact h
  · split at he
    · cases he
    · rw [Dorme, (comutar_campos he).1]
      rcases h with hfim | ⟨hmem, hw⟩
      · exact .inl hfim
      · have hne : t ≠ s.activeThr := fun hta => hact (hta ▸ hmem)
        refine .inr ⟨(hs.sleep.inserir _ _ _).2.mem_iff.mpr (List.mem_cons_of_mem _ hmem), ?_⟩
        simp only [Escalonador.mudar, Function.update_of_ne hne]
        exact hw

end Dorme

/-- The caller of `sleep` sleeps for the ticks it has asked for. -/
theorem sthreadUserSleep_dorme (hs : Povoado s) {time : ℤ}
    (he : sthreadUserSleep s time = .segue s' r) :
    Dorme s.activeThr (s.clock + time.tdiv clockTick) s' := by
  rw [sthreadUserSleep] at he
  simp only at he
  split at he
  · rename_i hzero
    obtain ⟨rfl, -⟩ := Resultado.segue.inj he
    exact .inl (by omega)
  · split at he
    · cases he
    · rw [Dorme, (comutar_campos he).1]
      refine .inr ⟨(hs.sleep.inserir _ _ _).2.mem_iff.mpr List.mem_cons_self, ?_⟩
      simp only [Escalonador.mudar, Function.update_self]

/-- A sleeper, in a state in which every thread is in one place. -/
structure Descansa (t : ℕ) (w : ℤ) (s : Escalonador) : Prop where
  arrumado : Arrumado (fun _ _ => True) s [s.activeThr]
  povoado : Povoado s
  dorme : Dorme t w s

theorem Arrumado.notMem_sleep {J : ArvoreRB ℕ → (ℕ → Sthread) → Prop}
    (h : Arrumado J s [s.activeThr]) {t : ℕ} (ht : t ∈ elementos s.sleepThr) :
    t ≠ s.activeThr ∧ t ∉ elementos s.exeThr := by
  have hle := h.count_le t
  have hpos := List.count_pos_iff.mpr ht
  rw [count_fora] at hle
  refine ⟨?_, fun hm => ?_⟩
  · rintro rfl
    rw [List.count_cons_self] at hle
    omega
  · have := List.count_pos_iff.mpr hm
    omega

theorem Descansa.passo {t : ℕ} {w : ℤ} (h : Descansa t w s) {c : Chamada} (hv : Valida s c)
    (hl : Limpa s c) (he : passo s c = some (s', r)) : Descansa t w s' := by
  refine ⟨(passo_chega guarda_trivial h.arrumado hv hl (fun _ _ => trivial) he).arrumado,
    h.povoado.passo he, ?_⟩
  have hclock := passo_clock_le he
  obtain ⟨-, he⟩ | ⟨mon, -, -, he⟩ | ⟨-, he⟩ | he := executa_cases (passo_eq_some.mp he)
  · by_cases hsleep : ∃ time, c = .sleep time
    · obtain ⟨time, rfl⟩ := hsleep
      exact h.dorme.dormir h.povoado (fun hm => (h.arrumado.notMem_sleep hm).1 rfl) he
    · by_cases hdisp : c = .dispatcher
      · subst hdisp
        exact h.dorme.dispatcher h.povoado he
      · have hm := chamar_mesmoSono (fun time hc => hsleep ⟨time, hc⟩) hdisp he
        exact h.dorme.mesmoSono h.povoado hclock hm
  · exact h.dorme.dispatcher h.povoado he
  · exact h.dorme.mesmoSono h.povoado hclock (retomar_mesmoSono he)
  · cases he

/-- A thread that calls `sleep` is neither active nor executable before the clock has gone on by
the ticks it has asked for, whatever the threads call in the meantime. -/
theorem sono_respeitado (cs₁ cs₂ : List Chamada) (time : ℤ) (s₁ s₂ s₃ : Escalonador)
    (os₁ os₂ : List Resposta) (r : Resposta)
    (hP : Runs.Permitted passo (fun s c => Valida s c ∧ Limpa s c) sthreadUserInit
      (cs₁ ++ .sleep time :: cs₂))
    (h₁ : Runs.run passo sthreadUserInit cs₁ = some (s₁, os₁))
    (hs : passo s₁ (.sleep time) = some (s₂, r)) (h₂ : Runs.run passo s₂ cs₂ = some (s₃, os₂)) :
    s₁.clock + time.tdiv clockTick ≤ (s₃.clock : ℤ) ∨
      s₁.activeThr ∈ elementos s₃.sleepThr ∧ s₁.activeThr ≠ s₃.activeThr ∧
        s₁.activeThr ∉ elementos s₃.exeThr := by
  obtain ⟨hP₁, hP'⟩ := Runs.permitted_of_append hP
  obtain ⟨⟨hv, hl⟩, hP₂⟩ := hP' s₁ os₁ h₁
  have harr := run_arrumado hP₁ h₁
  have hpov := run_povoado h₁
  have hdorme : Dorme s₁.activeThr (s₁.clock + time.tdiv clockTick) s₂ := by
    obtain ⟨-, he⟩ | ⟨mon, -, he, -⟩ | ⟨he, -⟩ | he := executa_cases (passo_eq_some.mp hs)
    · exact sthreadUserSleep_dorme hpov he
    all_goals cases he
  have h₀ : Descansa s₁.activeThr (s₁.clock + time.tdiv clockTick) s₂ :=
    ⟨(passo_chega guarda_trivial harr hv hl (fun _ _ => trivial) hs).arrumado, hpov.passo hs,
      hdorme⟩
  have h₃ := Runs.run_invariant (I := Descansa s₁.activeThr (s₁.clock + time.tdiv clockTick))
    (fun _ _ _ _ hI hp he => hI.passo hp.1 hp.2 he) h₀ (hP₂ s₂ r hs) h₂
  exact h₃.dorme.imp id fun hd => ⟨hd.1, h₃.arrumado.notMem_sleep hd.1⟩

/-- Two threads use a monitor, in which one waits for the other, and then the clock goes on. -/
def monitorEUmPulso : List Chamada :=
  [.monitorEnter 0, .monitorWait 0, .monitorEnter 0, .monitorSignal 0, .monitorExit 0, .dispatcher,
    .resume, .monitorExit 0, .dispatcher, .resume]

/-- The main thread sleeps for two ticks, of which one has passed. -/
theorem sono_respeitado_um_pulso :
    ∃ s₁ s₂ s₃ os₁ r os₂,
      Runs.run passo sthreadUserInit [.monitorInit, .create 1, .create 1] = some (s₁, os₁) ∧
      passo s₁ (.sleep 20000) = some (s₂, r) ∧
      Runs.run passo s₂ monitorEUmPulso = some (s₃, os₂) ∧ s₃.clock = s₁.clock + 1 ∧
      (s₁.clock + (20000 : ℤ).tdiv clockTick ≤ (s₃.clock : ℤ) ∨
        s₁.activeThr ∈ elementos s₃.sleepThr ∧ s₁.activeThr ≠ s₃.activeThr ∧
          s₁.activeThr ∉ elementos s₃.exeThr) := by
  have hP : Runs.Permitted passo (fun s c => Valida s c ∧ Limpa s c) sthreadUserInit
      ([.monitorInit, .create 1, .create 1] ++ .sleep 20000 :: monitorEUmPulso) := by
    decide +kernel
  obtain ⟨s₁, os₁, h₁, hpulso⟩ : ∃ s₁ os₁,
      Runs.run passo sthreadUserInit [.monitorInit, .create 1, .create 1] = some (s₁, os₁) ∧
      ((passo s₁ (.sleep 20000)).bind fun r => Runs.run passo r.1 monitorEUmPulso).map
        (fun r => r.1.clock) = some (s₁.clock + 1) :=
    Runs.exists_run_of_any (by decide +kernel)
  obtain ⟨⟨s₃, os₂⟩, hpulso, hclock⟩ := Option.map_eq_some_iff.mp hpulso
  obtain ⟨⟨s₂, r⟩, hs, h₂⟩ := Option.bind_eq_some_iff.mp hpulso
  exact ⟨s₁, s₂, s₃, os₁, r, os₂, h₁, hs, h₂, hclock,
    sono_respeitado _ _ 20000 s₁ s₂ s₃ os₁ os₂ r hP h₁ hs h₂⟩

end ThreadScheduler.SthreadLib
