import ThreadScheduler.SthreadLib.SchedulerSteps

/-!
# A monitor without the scheduler

What the calls of a monitor do to its flag, its owner and its two queues, and whether the caller
goes on. Which thread runs next is left open, and so is whether an unlock switches to the next
owner, which depends on the virtual runtimes. The calls of the scheduler act in this way.
-/
namespace ThreadScheduler.SthreadLib

open ArvoreRB Escalonador

/-- A monitor: its mutex, and in `espera` the queue of the monitor itself. -/
structure Monitor where
  l : Bool
  thr : Option ℕ
  queue : List ℕ
  espera : List ℕ
  deriving DecidableEq

/-- What becomes of the caller. -/
inductive Efeito where
  /-- The call returns. -/
  | volta
  /-- The spin flag is set. -/
  | gira
  /-- The caller waits until it is executable, inside its unlock. -/
  | cede
  /-- The caller waits until it owns the mutex. -/
  | bloqueia
  deriving DecidableEq

namespace Monitor

variable (M : Monitor) (t : ℕ)

/-- `sthread_user_monitor_enter`. -/
def enter : Monitor × Efeito :=
  if M.l then (M, .gira)
  else
    match M.thr with
    | none => ({ M with thr := some t }, .volta)
    | some _ => ({ M with queue := M.queue ++ [t] }, .bloqueia)

/-- `sthread_user_monitor_exit`; `troca` says whether the virtual runtimes make it switch. -/
def exit (troca : Bool) : Monitor × Efeito :=
  if M.thr ≠ some t then (M, .volta)
  else if M.l then (M, .gira)
  else
    match M.queue with
    | [] => ({ M with thr := none }, .volta)
    | u :: fila =>
        if troca then ({ M with thr := some u, queue := fila, l := true }, .cede)
        else ({ M with thr := some u, queue := fila }, .volta)

/-- The rest of `sthread_user_monitor_wait`, for a thread in the queue of the monitor. -/
def sairEEsperar (troca : Bool) : Monitor × Efeito :=
  match M.exit t troca with
  | (M, .gira) => (M, .gira)
  | (M, .cede) => (M, .cede)
  | (M, _) => (M, .bloqueia)

/-- `sthread_user_monitor_wait`. -/
def wait (troca : Bool) : Monitor × Efeito :=
  if M.thr ≠ some t then (M, .volta)
  else ({ M with espera := M.espera ++ [t] } : Monitor).sairEEsperar t troca

/-- `sthread_user_monitor_signal`. -/
def signal : Monitor × Efeito :=
  if M.thr ≠ some t then (M, .volta)
  else if M.l then (M, .gira)
  else
    match M.espera with
    | [] => (M, .volta)
    | u :: fila => ({ M with espera := fila, queue := M.queue ++ [u] }, .volta)

/-- `sthread_user_monitor_signalall`. -/
def signalall : Monitor × Efeito :=
  if M.thr ≠ some t then (M, .volta)
  else if M.l then (M, .gira)
  else ({ M with espera := [], queue := M.queue ++ M.espera }, .volta)

/-- How often thread `t` stands in the queues or owns the mutex. -/
def lugares : ℕ :=
  M.espera.count t + M.queue.count t + if M.thr = some t then 1 else 0

variable {M t}

theorem enter_espera : (M.enter t).1.espera = M.espera := by
  unfold enter
  split
  · rfl
  · split <;> rfl

theorem exit_espera (troca : Bool) : (M.exit t troca).1.espera = M.espera := by
  unfold exit
  split
  · rfl
  · split
    · rfl
    · split
      · rfl
      · split <;> rfl

theorem sairEEsperar_espera (troca : Bool) : (M.sairEEsperar t troca).1.espera = M.espera := by
  have := exit_espera (M := M) (t := t) troca
  unfold sairEEsperar
  split <;> simp_all

/-- A signal of a thread outside the monitor is ignored. -/
theorem signal_alheio (h : M.thr ≠ some t) : M.signal t = (M, .volta) := by
  rw [signal, if_pos h]

theorem signalall_alheio (h : M.thr ≠ some t) : M.signalall t = (M, .volta) := by
  rw [signalall, if_pos h]

theorem espera_signal (h : (M.signal t).1.espera ≠ []) : M.espera ≠ [] := by
  rintro he
  apply h
  unfold signal
  split
  · exact he
  · split
    · exact he
    · rw [he]
      exact he

theorem espera_signalall (h : (M.signalall t).1.espera ≠ []) : M.espera ≠ [] := by
  rintro he
  apply h
  unfold signalall
  split
  · exact he
  · split
    · exact he
    · rfl

theorem exit_gira {troca : Bool} (h : (M.exit t troca).2 = .gira) : (M.exit t troca).1 = M := by
  revert h
  unfold exit
  split_ifs with hthr hl
  · exact fun _ => rfl
  · exact fun _ => rfl
  all_goals
    split
    · exact fun h => nomatch h
    · exact fun h => nomatch h

/-- The place that an unlock of the owner leaves. -/
theorem exit_lugares {troca : Bool} (hthr : M.thr = some t) (hgira : (M.exit t troca).2 ≠ .gira)
    (u : ℕ) : (M.exit t troca).1.lugares u + (if u = t then 1 else 0) = M.lugares u := by
  have hput : (if M.thr = some u then 1 else 0) = if u = t then 1 else 0 := by
    simp [hthr, eq_comm]
  unfold lugares
  rw [hput]
  unfold exit at hgira ⊢
  rw [if_neg (not_not.mpr hthr)] at hgira ⊢
  by_cases hl : M.l = true
  · rw [if_pos hl] at hgira
    exact absurd rfl hgira
  · rw [if_neg hl]
    split
    · rename_i hq
      simp [hq]
    · rename_i v fila hq
      have hv : (v :: fila).count u = fila.count u + if v = u then 1 else 0 := by
        simp [List.count_cons]
      cases troca <;> simp [hq, hv] <;> omega

/-- A signal moves threads from one queue to the other. -/
theorem signal_lugares (u : ℕ) : (M.signal t).1.lugares u = M.lugares u := by
  unfold signal
  split_ifs
  · rfl
  · rfl
  · split
    · rfl
    · rename_i v fila hq
      simp only [lugares, hq, List.count_append, List.count_cons, List.count_nil]
      omega

theorem signal_thr : (M.signal t).1.thr = M.thr := by
  unfold signal
  split_ifs
  · rfl
  · rfl
  · split <;> rfl

theorem signalall_lugares (u : ℕ) : (M.signalall t).1.lugares u = M.lugares u := by
  unfold signalall
  split_ifs
  · rfl
  · rfl
  · simp only [lugares, List.count_append, List.count_nil]
    omega

theorem signalall_thr : (M.signalall t).1.thr = M.thr := by
  unfold signalall
  split_ifs <;> rfl

/-- A thread with no place does not own the mutex. -/
theorem thr_ne_of_lugares (h : M.lugares t = 0) : M.thr ≠ some t := by
  intro hthr
  rw [lugares, if_pos hthr] at h
  omega

end Monitor

/-- The answer to each effect of a call. -/
def Efeito.escolhe {α : Type*} (volta gira cede bloqueia : α) : Efeito → α
  | .volta => volta
  | .gira => gira
  | .cede => cede
  | .bloqueia => bloqueia

/-! ## Threads that call in turn -/

/-- Where a thread stands to a monitor. -/
inductive Fase where
  | fora
  | dono
  /-- In a wait, at an unlock that finds the spin flag set. -/
  | girando
  /-- In a call that has not given it the mutex yet. -/
  | bloqueada
  deriving DecidableEq

def Fase.lugares : Fase → ℕ
  | .fora => 0
  | .dono => 1
  | .girando => 2
  | .bloqueada => 1

/-- Every thread stands in the monitor as its phase says. -/
structure Disciplina (M : Monitor) (fase : ℕ → Fase) : Prop where
  lugares : ∀ t, M.lugares t = (fase t).lugares
  dono : ∀ t, fase t = .dono ∨ fase t = .girando → M.thr = some t

namespace Disciplina

variable {M : Monitor} {fase : ℕ → Fase} {t : ℕ}

theorem unico (h : Disciplina M fase) {u : ℕ} (ht : fase t = .dono ∨ fase t = .girando)
    (hu : fase u = .dono ∨ fase u = .girando) : t = u :=
  Option.some.inj ((h.dono t ht).symm.trans (h.dono u hu))

theorem mem_espera (h : Disciplina M fase) (ht : t ∈ M.espera) :
    fase t = .girando ∨ fase t = .bloqueada := by
  have hl := h.lugares t
  have hcount : 0 < M.espera.count t := List.count_pos_iff.mpr ht
  unfold Monitor.lugares at hl
  cases hf : fase t with
  | fora =>
      rw [hf, Fase.lugares] at hl
      omega
  | dono =>
      rw [hf, Fase.lugares, if_pos (h.dono t (.inl hf))] at hl
      omega
  | girando => exact .inl rfl
  | bloqueada => exact .inr rfl

/-- Thread `t` alone changes its phase and its places. -/
theorem mudar (h : Disciplina M fase) {M' : Monitor} {p : Fase}
    (hthr : ∀ u, u ≠ t → M.thr = some u → M'.thr = some u)
    (hdono : p = .dono ∨ p = .girando → M'.thr = some t)
    (hl : ∀ u, M'.lugares u + (if u = t then (fase t).lugares else 0) =
      M.lugares u + if u = t then p.lugares else 0) :
    Disciplina M' (Function.update fase t p) := by
  refine ⟨fun u => ?_, fun u hu => ?_⟩
  · have hu := hl u
    have hold := h.lugares u
    by_cases he : u = t
    · subst he
      rw [if_pos rfl, if_pos rfl] at hu
      rw [Function.update_self]
      omega
    · rw [if_neg he, if_neg he] at hu
      rw [Function.update_of_ne he]
      omega
  · by_cases he : u = t
    · subst he
      rw [Function.update_self] at hu
      exact hdono hu
    · rw [Function.update_of_ne he] at hu
      exact hthr u he (h.dono u hu)

/-- A blocked thread that owns the mutex now. -/
theorem acordar (h : Disciplina M fase) (hf : fase t = .bloqueada) (hthr : M.thr = some t) :
    Disciplina M (Function.update fase t .dono) := by
  apply h.mudar (fun u _ hu => hu) fun _ => hthr
  intro u
  rw [hf]
  rfl

theorem enter (h : Disciplina M fase) (hf : fase t = .fora) :
    Disciplina (M.enter t).1 (Function.update fase t
      ((M.enter t).2.escolhe .dono .fora .bloqueada .bloqueada)) := by
  unfold Monitor.enter
  split
  · exact h.mudar (fun u _ hu => hu) (by simp [Efeito.escolhe]) (by simp [hf, Efeito.escolhe])
  · split
    · rename_i hthr
      apply h.mudar (fun u _ hu => absurd hu (by simp [hthr])) fun _ => rfl
      intro u
      by_cases hu : u = t
      · simp [Monitor.lugares, hthr, hf, hu, Efeito.escolhe, Fase.lugares]
      · simp [Monitor.lugares, hthr, hu, Ne.symm hu]
    · rename_i v hthr
      apply h.mudar (fun u _ hu => hthr ▸ hu) (by simp [Efeito.escolhe])
      intro u
      by_cases hu : u = t
      · simp [Monitor.lugares, hthr, hf, hu, Efeito.escolhe, Fase.lugares]
        omega
      · simp [Monitor.lugares, hthr, hu, Ne.symm hu]

/-- Thread `t` has left the monitor, or waits in it no more than before. -/
theorem sair (h : Disciplina M fase) {p : Fase} (hf : fase t = .dono ∨ fase t = .girando)
    (hp : p ≠ .dono ∧ p ≠ .girando) (hl : (fase t).lugares = p.lugares + 1) {troca : Bool}
    (hgira : (M.exit t troca).2 ≠ .gira) :
    Disciplina (M.exit t troca).1 (Function.update fase t p) := by
  have hthr := h.dono t hf
  apply h.mudar
  · intro u hu hM
    exact absurd (Option.some.inj (hM.symm.trans hthr)) hu
  · rintro (he | he)
    · exact absurd he hp.1
    · exact absurd he hp.2
  · intro u
    have hu := Monitor.exit_lugares hthr hgira u
    by_cases he : u = t
    · subst he
      rw [if_pos rfl] at hu
      rw [if_pos rfl, if_pos rfl, hl]
      omega
    · rw [if_neg he] at hu
      rw [if_neg he, if_neg he]
      exact hu

theorem exit (h : Disciplina M fase) (hf : fase t = .dono) (troca : Bool) :
    Disciplina (M.exit t troca).1 (Function.update fase t
      ((M.exit t troca).2.escolhe .fora .dono .fora .fora)) := by
  have hthr := h.dono t (.inl hf)
  by_cases hgira : (M.exit t troca).2 = .gira
  · rw [Monitor.exit_gira hgira, hgira]
    rw [show Efeito.gira.escolhe Fase.fora .dono .fora .fora = fase t from hf.symm,
      Function.update_eq_self]
    exact h
  · have hp : (M.exit t troca).2.escolhe Fase.fora .dono .fora .fora = .fora := by
      cases he : (M.exit t troca).2 with
      | gira => exact absurd he hgira
      | volta => rfl
      | cede => rfl
      | bloqueia => rfl
    rw [hp]
    exact h.sair (.inl hf) (by simp) (by rw [hf]; rfl) hgira

theorem sairEEsperar (h : Disciplina M fase) (hf : fase t = .girando) (troca : Bool) :
    Disciplina (M.sairEEsperar t troca).1 (Function.update fase t
      ((M.sairEEsperar t troca).2.escolhe .dono .girando .bloqueada .bloqueada)) := by
  have hbloqueada : (M.exit t troca).2 ≠ .gira →
      Disciplina (M.exit t troca).1 (Function.update fase t .bloqueada) :=
    h.sair (.inr hf) (by simp) (by rw [hf]; rfl)
  unfold Monitor.sairEEsperar
  cases he : M.exit t troca with
  | mk M' e =>
      rw [he] at hbloqueada
      cases e with
      | gira =>
          have hM : M' = M := by
            have hgira : (M.exit t troca).1 = M := Monitor.exit_gira (by rw [he])
            rwa [he] at hgira
          subst hM
          rw [show Efeito.gira.escolhe Fase.dono .girando .bloqueada .bloqueada = fase t from
            hf.symm, Function.update_eq_self]
          exact h
      | volta => exact hbloqueada (by simp)
      | cede => exact hbloqueada (by simp)
      | bloqueia => exact hbloqueada (by simp)

theorem wait (h : Disciplina M fase) (hf : fase t = .dono) (troca : Bool) :
    Disciplina (M.wait t troca).1 (Function.update fase t
      ((M.wait t troca).2.escolhe .dono .girando .bloqueada .bloqueada)) := by
  have hthr := h.dono t (.inl hf)
  -- the thread is in both the mutex and the queue until its unlock is done
  have hfila : Disciplina { M with espera := M.espera ++ [t] }
      (Function.update fase t .girando) := by
    refine h.mudar (fun u _ hu => hu) (fun _ => hthr) fun u => ?_
    by_cases hu : u = t
    · simp [Monitor.lugares, hu, hf, Fase.lugares]
      omega
    · simp [Monitor.lugares, hu, Ne.symm hu]
  have := hfila.sairEEsperar (t := t) (Function.update_self t Fase.girando fase) troca
  unfold Monitor.wait
  rw [if_neg (not_not.mpr hthr)]
  rwa [Function.update_idem] at this

theorem signal (h : Disciplina M fase) (t : ℕ) : Disciplina (M.signal t).1 fase :=
  ⟨fun u => (Monitor.signal_lugares u).trans (h.lugares u),
    fun u hu => Monitor.signal_thr.trans (h.dono u hu)⟩

theorem signalall (h : Disciplina M fase) (t : ℕ) : Disciplina (M.signalall t).1 fase :=
  ⟨fun u => (Monitor.signalall_lugares u).trans (h.lugares u),
    fun u hu => Monitor.signalall_thr.trans (h.dono u hu)⟩

end Disciplina

/-! ## The calls of the scheduler -/

variable {s s' : Escalonador} {r : Resposta} {mon : ℕ}

/-- The monitor as it stands in the scheduler. -/
def Escalonador.visto (s : Escalonador) (mon : ℕ) : Monitor where
  l := (s.mutex (s.monitor mon).mutex).l
  thr := (s.mutex (s.monitor mon).mutex).thr
  queue := (s.mutex (s.monitor mon).mutex).queue
  espera := (s.monitor mon).queue

/-- What the answer of a call says of the caller. -/
def Resposta.efeito : Resposta → Efeito
  | .gira => .gira
  | .entregou _ => .cede
  | .trocou _ => .bloqueia
  | _ => .volta

theorem comutar_visto (mon : ℕ) (he : s.comutar = .segue s' r) :
    s'.visto mon = s.visto mon ∧ r.efeito = .bloqueia := by
  rw [comutar] at he
  split at he
  · obtain ⟨rfl, rfl⟩ := Resultado.segue.inj he
    exact ⟨rfl, rfl⟩
  · cases he

theorem visto_mudarMutex (s : Escalonador) (mon : ℕ) (f : SthreadMutex → SthreadMutex) :
    (s.mudarMutex (s.monitor mon).mutex f).visto mon =
      ⟨(f (s.mutex (s.monitor mon).mutex)).l, (f (s.mutex (s.monitor mon).mutex)).thr,
        (f (s.mutex (s.monitor mon).mutex)).queue, (s.monitor mon).queue⟩ := by
  simp [visto, mudarMutex]

theorem sthreadUserMonitorEnter_visto (he : sthreadUserMonitorEnter s mon = .segue s' r) :
    (s.visto mon).enter s.activeThr = (s'.visto mon, r.efeito) := by
  rw [sthreadUserMonitorEnter, sthreadUserMutexLock] at he
  rw [Monitor.enter]
  split at he
  · rename_i hl
    obtain ⟨rfl, rfl⟩ := Resultado.segue.inj he
    rw [if_pos (show (s.visto mon).l = true from hl)]
    rfl
  · rename_i hl
    rw [if_neg (show ¬(s.visto mon).l = true from hl)]
    split at he
    · rename_i hthr
      obtain ⟨rfl, rfl⟩ := Resultado.segue.inj he
      rw [show (s.visto mon).thr = none from hthr, visto_mudarMutex]
      rfl
    · rename_i u hthr
      obtain ⟨hv, hr⟩ := comutar_visto mon he
      rw [show (s.visto mon).thr = some u from hthr, hv, hr]
      refine Prod.ext ?_ rfl
      simp [visto, mudarMutex, Escalonador.parar, hthr]

theorem sthreadUserMutexUnlock_visto {p : Ponto}
    (he : sthreadUserMutexUnlock s (s.monitor mon).mutex p = .segue s' r) :
    ∃ troca, (s.visto mon).exit s.activeThr troca = (s'.visto mon, r.efeito) := by
  revert he
  refine sthreadUserMutexUnlock_elim (P := fun res => res = .segue s' r → _) s
    (s.monitor mon).mutex p ?_ ?_ ?_ ?_ ?_
  · intro hthr he
    obtain ⟨rfl, rfl⟩ := Resultado.segue.inj he
    refine ⟨false, ?_⟩
    rw [Monitor.exit, if_pos (show (s.visto mon).thr ≠ some s.activeThr from hthr)]
    rfl
  · intro hthr hl he
    obtain ⟨rfl, rfl⟩ := Resultado.segue.inj he
    refine ⟨false, ?_⟩
    rw [Monitor.exit, if_neg (not_not.mpr (show (s.visto mon).thr = some s.activeThr from hthr)),
      if_pos (show (s.visto mon).l = true from hl)]
    rfl
  · intro hthr hl hq he
    obtain ⟨rfl, rfl⟩ := Resultado.segue.inj he
    refine ⟨false, ?_⟩
    have hl : ¬(s.visto mon).l = true := ne_true_of_eq_false hl
    rw [Monitor.exit, if_neg (not_not.mpr (show (s.visto mon).thr = some s.activeThr from hthr)),
      if_neg hl, show (s.visto mon).queue = [] from hq, visto_mudarMutex]
    simp [visto, hq, Resposta.efeito]
  · intro u fila hthr hl hq _ he
    obtain ⟨rfl, rfl⟩ := Resultado.segue.inj he
    refine ⟨true, ?_⟩
    have hl : ¬(s.visto mon).l = true := ne_true_of_eq_false hl
    rw [Monitor.exit, if_neg (not_not.mpr (show (s.visto mon).thr = some s.activeThr from hthr)),
      if_neg hl, show (s.visto mon).queue = u :: fila from hq]
    refine Prod.ext ?_ rfl
    simp [visto, mudarMutex, Escalonador.parar, Escalonador.rbInserir, Escalonador.mudar]
  · intro u fila hthr hl hq _ he
    obtain ⟨rfl, rfl⟩ := Resultado.segue.inj he
    refine ⟨false, ?_⟩
    have hl : ¬(s.visto mon).l = true := ne_true_of_eq_false hl
    rw [Monitor.exit, if_neg (not_not.mpr (show (s.visto mon).thr = some s.activeThr from hthr)),
      if_neg hl, show (s.visto mon).queue = u :: fila from hq]
    refine Prod.ext ?_ rfl
    simp [visto, mudarMutex, Escalonador.rbInserir]

theorem sthreadUserMonitorExit_visto (he : sthreadUserMonitorExit s mon = .segue s' r) :
    ∃ troca, (s.visto mon).exit s.activeThr troca = (s'.visto mon, r.efeito) :=
  sthreadUserMutexUnlock_visto he

theorem sairEEsperar_visto (he : sairEEsperar s mon = .segue s' r) :
    ∃ troca, (s.visto mon).sairEEsperar s.activeThr troca = (s'.visto mon, r.efeito) := by
  rw [sairEEsperar] at he
  split at he
  · rename_i s₁ hu
    obtain ⟨troca, ht⟩ := sthreadUserMutexUnlock_visto hu
    obtain ⟨rfl, rfl⟩ := Resultado.segue.inj he
    refine ⟨troca, ?_⟩
    rw [Monitor.sairEEsperar, ht]
    rfl
  · rename_i s₁ t hu
    obtain ⟨troca, ht⟩ := sthreadUserMutexUnlock_visto hu
    obtain ⟨rfl, rfl⟩ := Resultado.segue.inj he
    refine ⟨troca, ?_⟩
    rw [Monitor.sairEEsperar, ht]
    rfl
  · rename_i s₁ r₁ hgira hentregou hu
    obtain ⟨troca, ht⟩ := sthreadUserMutexUnlock_visto hu
    obtain ⟨hv, hr⟩ := comutar_visto mon he
    refine ⟨troca, ?_⟩
    rw [Monitor.sairEEsperar, ht, hv, hr]
    cases r₁ with
    | gira => exact (hgira rfl).elim
    | entregou t => exact (hentregou t rfl).elim
    | trocou no => rfl
    | nada => rfl
    | criou t => rfl
    | juntou codigo alvo valor => rfl
  · rename_i hsegue
    exact (hsegue _ _ he).elim

theorem sthreadUserMonitorWait_visto (he : sthreadUserMonitorWait s mon = .segue s' r) :
    ∃ troca, (s.visto mon).wait s.activeThr troca = (s'.visto mon, r.efeito) := by
  rw [sthreadUserMonitorWait] at he
  split at he
  · rename_i hthr
    obtain ⟨rfl, rfl⟩ := Resultado.segue.inj he
    refine ⟨false, ?_⟩
    rw [Monitor.wait, if_pos (show (s.visto mon).thr ≠ some s.activeThr from hthr)]
    rfl
  · rename_i hthr
    obtain ⟨troca, ht⟩ := sairEEsperar_visto he
    refine ⟨troca, ?_⟩
    rw [Monitor.wait, if_neg (show ¬(s.visto mon).thr ≠ some s.activeThr from hthr), ← ht]
    simp [visto, mudarMonitor]

theorem sthreadUserMonitorSignal_visto (he : sthreadUserMonitorSignal s mon = .segue s' r) :
    (s.visto mon).signal s.activeThr = (s'.visto mon, r.efeito) := by
  rw [sthreadUserMonitorSignal] at he
  rw [Monitor.signal]
  split at he
  · rename_i hthr
    obtain ⟨rfl, rfl⟩ := Resultado.segue.inj he
    rw [if_pos (show (s.visto mon).thr ≠ some s.activeThr from hthr)]
    rfl
  · rename_i hthr
    rw [if_neg (show ¬(s.visto mon).thr ≠ some s.activeThr from hthr)]
    split at he
    · rename_i hl
      obtain ⟨rfl, rfl⟩ := Resultado.segue.inj he
      rw [if_pos (show (s.visto mon).l = true from hl)]
      rfl
    · rename_i hl
      rw [if_neg (show ¬(s.visto mon).l = true from hl)]
      split at he
      · rename_i hq
        obtain ⟨rfl, rfl⟩ := Resultado.segue.inj he
        rw [show (s.visto mon).espera = [] from hq]
        rfl
      · rename_i t fila hq
        obtain ⟨rfl, rfl⟩ := Resultado.segue.inj he
        rw [show (s.visto mon).espera = t :: fila from hq]
        refine Prod.ext ?_ rfl
        simp [visto, mudarMonitor, mudarMutex]

theorem sthreadUserMonitorSignalall_visto (he : sthreadUserMonitorSignalall s mon = .segue s' r) :
    (s.visto mon).signalall s.activeThr = (s'.visto mon, r.efeito) := by
  rw [sthreadUserMonitorSignalall] at he
  rw [Monitor.signalall]
  split at he
  · rename_i hthr
    obtain ⟨rfl, rfl⟩ := Resultado.segue.inj he
    rw [if_pos (show (s.visto mon).thr ≠ some s.activeThr from hthr)]
    rfl
  · rename_i hthr
    rw [if_neg (show ¬(s.visto mon).thr ≠ some s.activeThr from hthr)]
    split at he
    · rename_i hl
      obtain ⟨rfl, rfl⟩ := Resultado.segue.inj he
      rw [if_pos (show (s.visto mon).l = true from hl)]
      rfl
    · rename_i hl
      rw [if_neg (show ¬(s.visto mon).l = true from hl)]
      obtain ⟨rfl, rfl⟩ := Resultado.segue.inj he
      refine Prod.ext ?_ rfl
      simp [visto, mudarMonitor, mudarMutex]

/-- The thread that has handed the mutex over takes the spin flag away and returns from its
unlock, or waits in the monitor. -/
theorem retomar_visto {p : Ponto}
    (hp : p = .emUnlock (s.monitor mon).mutex ∨ p = .emWaitUnlock mon)
    (he : retomar s p = .segue s' r) : s'.visto mon = { s.visto mon with l := false } := by
  obtain rfl | rfl := hp
  · obtain ⟨rfl, rfl⟩ := Resultado.segue.inj he
    simp [visto, mudarMutex, Escalonador.parar]
  · obtain ⟨hv, -⟩ := comutar_visto mon he
    rw [hv]
    simp [visto, mudarMutex, Escalonador.parar]

end ThreadScheduler.SthreadLib
