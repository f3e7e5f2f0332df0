import ThreadScheduler.SthreadLib.SchedulerMonitorCalls

/-!
# Monitors

Who is inside a monitor is told by the steps of the run, and so is who is suspended in one of its
calls. A thread inside owns the mutex, and the threads suspended are those of the two queues and
an owner that has not gone on yet, whatever other calls the threads make.
-/
namespace ThreadScheduler.SthreadLib

open ArvoreRB Escalonador

variable {s s' : Escalonador} {r : Resposta} {m mon : ℕ} {h : List ℕ}

/-- The mutex that a step is about. -/
def trincoDe (s : Escalonador) : Chamada → Option ℕ
  | .mutexLock m => some m
  | .mutexUnlock m => some m
  | .monitorEnter mon => some (s.monitor mon).mutex
  | .monitorExit mon => some (s.monitor mon).mutex
  | .monitorWait mon => some (s.monitor mon).mutex
  | .resume =>
      match s.ponto s.activeThr with
      | .emLock m => some m
      | .emWait mon => some (s.monitor mon).mutex
      | _ => none
  | _ => none

/-- A thread comes in when its `mutex_lock`, `monitor_enter` or `monitor_wait` returns. -/
def entra : Chamada → Resposta → Bool
  | .mutexLock _, .nada => true
  | .monitorEnter _, .nada => true
  | .resume, _ => true
  | _, _ => false

/-- A thread goes out with `mutex_unlock`, `monitor_exit` and `monitor_wait`. -/
def sai : Chamada → Resposta → Bool
  | .mutexUnlock _, r => r ≠ .gira
  | .monitorExit _, r => r ≠ .gira
  | .monitorWait _, r => r ≠ .gira ∧ r ≠ .nada
  | _, _ => false

/-- The threads inside mutex `m`, after one more step. -/
def anotarDentro (m : ℕ) (h : List ℕ) (x : Escalonador × Chamada × Resposta) : List ℕ :=
  if trincoDe x.1 x.2.1 = some m then
    if entra x.2.1 x.2.2 then h ++ [x.1.activeThr]
    else if sai x.2.1 x.2.2 then h.erase x.1.activeThr
    else h
  else h

/-- Thread `t` is suspended in a lock of mutex `m` or in a wait of its monitor. -/
def Aguarda (s : Escalonador) (m t : ℕ) : Prop :=
  s.ponto t = .emLock m ∨ ∃ mon, s.ponto t = .emWait mon ∧ (s.monitor mon).mutex = m

/-- Thread `t` is in the queue of the monitor of mutex `m`. -/
def NoMonitor (s : Escalonador) (m t : ℕ) : Prop :=
  ∃ mon < s.monitorIdGen, (s.monitor mon).mutex = m ∧ t ∈ (s.monitor mon).queue

/-- Only the owner is inside, and the threads suspended are in the queues or own the mutex. -/
structure Exclusao (m : ℕ) (h : List ℕ) (s : Escalonador) : Prop where
  arrumado : Arrumado (fun _ _ => True) s [s.activeThr]
  dentro : h = [] ∨ ∃ t, h = [t] ∧ (s.mutex m).thr = some t
  semDono : (s.mutex m).thr = none → (s.mutex m).queue = []
  espera : ∀ t, Aguarda s m t ↔
    (t ∈ (s.mutex m).queue ∨ NoMonitor s m t) ∨ (s.mutex m).thr = some t ∧ t ∉ h
  volta : ∀ t antes, s.ponto t = .noDespacho antes → antes = .livre
  nova : ∀ t, s.tidGen ≤ t → s.ponto t = .livre
  lugar : ∀ t mon, s.ponto t = .emWait mon → mon < s.monitorIdGen
  futuro : s.mutexIdGen ≤ m → (s.mutex m).thr = none

namespace Exclusao

/-- A thread that is suspended for good or is active is in no queue. -/
theorem ativaFora (hE : Exclusao m h s) :
    s.activeThr ∉ (s.mutex m).queue ∧ ¬NoMonitor s m s.activeThr := by
  have hle := hE.arrumado.count_le s.activeThr
  rw [count_fora, List.count_cons_self] at hle
  refine ⟨fun hm => ?_, ?_⟩
  · by_cases hgen : m < s.mutexIdGen
    · have hpos : 0 < (emFilas s.mutexIdGen fun m => (s.mutex m).queue).count s.activeThr :=
        List.count_pos_iff.mpr (mem_emFilas.mpr ⟨m, hgen, hm⟩)
      omega
    · rw [hE.semDono (hE.futuro (Nat.le_of_not_lt hgen))] at hm
      exact List.not_mem_nil hm
  · rintro ⟨mon, hmon, -, hm⟩
    have hpos : 0 < (emFilas s.monitorIdGen fun mon => (s.monitor mon).queue).count s.activeThr :=
      List.count_pos_iff.mpr (mem_emFilas.mpr ⟨mon, hmon, hm⟩)
    omega

/-- The thread that goes on in its own code is not suspended. -/
theorem naoAguarda (hp : s.ponto s.activeThr = .livre) : ¬Aguarda s m s.activeThr := by
  rintro (hx | ⟨mon, hx, -⟩)
  · rw [hp] at hx
    cases hx
  · rw [hp] at hx
    cases hx

/-- A call that is not about the mutex. -/
theorem alheia (hE : Exclusao m h s) (harr : Arrumado (fun _ _ => True) s' [s'.activeThr])
    {p : Ponto} (hlivre : ¬Aguarda s m s.activeThr) (hlock : p ≠ .emLock m)
    (hwait : ∀ mon, p = .emWait mon → mon < s.monitorIdGen ∧ (s.monitor mon).mutex ≠ m)
    (hv : ∀ antes, p = .noDespacho antes → antes = .livre) (hd : OutroTrinco m p s s') :
    Exclusao m h s' := by
  have hcriada := hE.arrumado.criada.2
  have hponto : ∀ t, s'.ponto t = s.ponto t ∨ t = s.activeThr ∧ s'.ponto t = p := by
    intro t
    rcases hd.ponto with he | he
    · exact .inl (congrFun he t)
    · rw [he, Function.update_apply]
      split
      · rename_i ht
        exact .inr ⟨ht, rfl⟩
      · exact .inl rfl
  have haguarda : ∀ t, Aguarda s' m t ↔ Aguarda s m t := by
    intro t
    rcases hponto t with he | ⟨rfl, he⟩
    · simp only [Aguarda, he, (hd.monitor _).1]
    · refine iff_of_false ?_ hlivre
      rintro (hx | ⟨mon, hx, hm⟩)
      · exact hlock (he.symm.trans hx)
      · rw [(hd.monitor mon).1] at hm
        exact (hwait mon (he.symm.trans hx)).2 hm
  have hmonitor : ∀ t, NoMonitor s' m t ↔ NoMonitor s m t := by
    intro t
    refine exists_congr fun mon => ?_
    rw [hd.gens.2, (hd.monitor mon).1]
    refine and_congr_right fun _ => and_congr_right fun hm => ?_
    rw [(hd.monitor mon).2 hm]
  refine ⟨harr, ?_, ?_, fun t => ?_, fun t antes ht => ?_, fun t ht => ?_, fun t mon ht => ?_,
    fun hm => ?_⟩
  · rw [hd.thr]
    exact hE.dentro
  · rw [hd.thr, hd.queue]
    exact hE.semDono
  · rw [haguarda, hmonitor, hd.thr, hd.queue]
    exact hE.espera t
  · rcases hponto t with he | ⟨-, he⟩
    · exact hE.volta t antes (he.symm.trans ht)
    · exact hv antes (he.symm.trans ht)
  · rw [hd.tid] at ht
    rcases hponto t with he | ⟨rfl, -⟩
    · rw [he]
      exact hE.nova t ht
    · omega
  · rw [hd.gens.2]
    rcases hponto t with he | ⟨-, he⟩
    · exact hE.lugar t mon (he.symm.trans ht)
    · exact (hwait mon (he.symm.trans ht)).1
  · rw [hd.thr]
    exact hE.futuro (hd.gens.1 ▸ hm)

/-- Threads, mutexes and monitors are created. -/
theorem crescer (hE : Exclusao m h s) (harr : Arrumado (fun _ _ => True) s' [s'.activeThr])
    (hmutex : (s'.mutex m).thr = (s.mutex m).thr ∧ (s'.mutex m).queue = (s.mutex m).queue)
    (hmon : ∀ mon < s.monitorIdGen, s'.monitor mon = s.monitor mon)
    (hnovo : ∀ mon, s.monitorIdGen ≤ mon → mon < s'.monitorIdGen → (s'.monitor mon).queue = [])
    (hgens : s.mutexIdGen ≤ s'.mutexIdGen ∧ s.monitorIdGen ≤ s'.monitorIdGen)
    (htid : s.tidGen ≤ s'.tidGen) (hponto : s'.ponto = s.ponto) : Exclusao m h s' := by
  obtain ⟨hthr, hqueue⟩ := hmutex
  have haguarda : ∀ t, Aguarda s' m t ↔ Aguarda s m t := by
    intro t
    rw [Aguarda, Aguarda, hponto]
    refine or_congr Iff.rfl (exists_congr fun mon => and_congr_right fun hp => ?_)
    rw [hmon mon (hE.lugar t mon hp)]
  have hmonitor : ∀ t, NoMonitor s' m t ↔ NoMonitor s m t := by
    intro t
    constructor
    · rintro ⟨mon, hlt, hm, ht⟩
      by_cases hold : mon < s.monitorIdGen
      · rw [hmon mon hold] at hm ht
        exact ⟨mon, hold, hm, ht⟩
      · rw [hnovo mon (Nat.le_of_not_lt hold) hlt] at ht
        exact absurd ht List.not_mem_nil
    · rintro ⟨mon, hlt, hm, ht⟩
      rw [← hmon mon hlt] at hm ht
      exact ⟨mon, Nat.lt_of_lt_of_le hlt hgens.2, hm, ht⟩
  refine ⟨harr, ?_, ?_, fun t => ?_, fun t antes ht => ?_, fun t ht => ?_, fun t mon ht => ?_,
    fun hm => ?_⟩
  · rw [hthr]
    exact hE.dentro
  · rw [hthr, hqueue]
    exact hE.semDono
  · rw [haguarda, hmonitor, hthr, hqueue]
    exact hE.espera t
  · exact hE.volta t antes (hponto ▸ ht)
  · rw [hponto]
    exact hE.nova t (Nat.le_trans htid ht)
  · exact Nat.lt_of_lt_of_le (hE.lugar t mon (hponto ▸ ht)) hgens.2
  · rw [hthr]
    exact hE.futuro (Nat.le_trans hgens.1 hm)

/-- A free mutex has no one inside. -/
theorem dentro_vazio (hE : Exclusao m h s) (hthr : (s.mutex m).thr = none) : h = [] := by
  refine hE.dentro.resolve_right ?_
  rintro ⟨t, -, ht⟩
  rw [hthr] at ht
  cases ht

theorem lock (hE : Exclusao m h s) (hp : s.ponto s.activeThr = .livre)
    (harr : Arrumado (fun _ _ => True) s' [s'.activeThr]) (hm : m < s.mutexIdGen)
    (he : sthreadUserMutexLock s m = .segue s' r) :
    Exclusao m (if r = .nada then h ++ [s.activeThr] else h) s' := by
  obtain ⟨rfl, rfl⟩ | ⟨hthr, rfl, rfl⟩ | ⟨⟨u, hu⟩, ⟨no, rfl⟩, hcom⟩ :=
    sthreadUserMutexLock_efeito he
  · rw [if_neg Resposta.noConfusion]
    exact hE
  · have hself : ((s.mudarMutex m fun lock => { lock with thr := some s.activeThr }).mutex m) =
        { s.mutex m with thr := some s.activeThr } := Function.update_self ..
    rw [if_pos rfl, hE.dentro_vazio hthr, List.nil_append]
    refine ⟨harr, .inr ⟨s.activeThr, rfl, ?_⟩, fun hn => ?_, fun t => ?_, hE.volta, hE.nova,
      hE.lugar, fun hge => ?_⟩
    · rw [hself]
    · rw [hself] at hn
      cases hn
    · refine (hE.espera t).trans ?_
      rw [hself, hthr]
      refine or_congr Iff.rfl (iff_of_false ?_ ?_)
      · rintro ⟨hn, -⟩
        cases hn
      · rintro ⟨ht, hno⟩
        exact hno (List.mem_singleton.mpr (Option.some.inj ht).symm)
    · have hge : s.mutexIdGen ≤ m := hge
      omega
  · have hcampos := (comutar_campos hcom).1
    have hmutex : s'.mutex m =
        { s.mutex m with queue := (s.mutex m).queue ++ [s.activeThr] } := by
      rw [hcampos]
      exact Function.update_self ..
    have hponto : s'.ponto = Function.update s.ponto s.activeThr (.emLock m) := by
      rw [hcampos]
      rfl
    have hmonitor : s'.monitor = s.monitor ∧ s'.monitorIdGen = s.monitorIdGen := by
      rw [hcampos]
      exact ⟨rfl, rfl⟩
    have hgens : s'.mutexIdGen = s.mutexIdGen ∧ s'.tidGen = s.tidGen := by
      rw [hcampos]
      exact ⟨rfl, rfl⟩
    have hoff : ∀ t, t ≠ s.activeThr → s'.ponto t = s.ponto t := by
      intro t ht
      rw [hponto, Function.update_of_ne ht]
    have hon : s'.ponto s.activeThr = .emLock m := by rw [hponto, Function.update_self]
    have hno : ∀ t, NoMonitor s' m t ↔ NoMonitor s m t := by
      intro t
      rw [NoMonitor, NoMonitor, hmonitor.1, hmonitor.2]
    have hvida := hE.arrumado.criada.2
    rw [if_neg Resposta.noConfusion]
    refine ⟨harr, ?_, fun hn => ?_, fun t => ?_, fun t antes ht => ?_, fun t ht => ?_,
      fun t mon ht => ?_, fun hge => ?_⟩
    · rw [hmutex]
      exact hE.dentro
    · rw [hmutex] at hn
      exact absurd (hu.symm.trans hn) (Option.some_ne_none u)
    · rw [hmutex, hno]
      by_cases ht : t = s.activeThr
      · subst ht
        exact iff_of_true (.inl hon) (.inl (.inl (by simp)))
      · rw [show Aguarda s' m t ↔ Aguarda s m t by rw [Aguarda, Aguarda, hoff t ht, hmonitor.1],
          hE.espera t, List.mem_append, List.mem_singleton, or_iff_left ht]
    · by_cases hta : t = s.activeThr
      · rw [hta, hon] at ht
        cases ht
      · exact hE.volta t antes (hoff t hta ▸ ht)
    · rw [hgens.2] at ht
      rw [hoff t (by omega)]
      exact hE.nova t ht
    · rw [hmonitor.2]
      by_cases hta : t = s.activeThr
      · rw [hta, hon] at ht
        cases ht
      · exact hE.lugar t mon (hoff t hta ▸ ht)
    · rw [hgens.1] at hge
      omega

/-- The owner goes out, and the first thread of the queue owns the mutex. -/
theorem sair (hE : Exclusao m h s) (harr : Arrumado (fun _ _ => True) s' [s'.activeThr])
    (hdono : (s.mutex m).thr = some s.activeThr)
    (hmutex : (s'.mutex m).thr = (s.mutex m).queue.head? ∧
      (s'.mutex m).queue = (s.mutex m).queue.tail)
    (hgens : s'.mutexIdGen = s.mutexIdGen ∧ s'.monitorIdGen = s.monitorIdGen)
    (htid : s'.tidGen = s.tidGen)
    (hponto : ∀ t, s'.ponto t = s.ponto t ∨ t = s.activeThr ∧
      (∀ antes, s'.ponto t ≠ .noDespacho antes) ∧
      ∀ mon, s'.ponto t = .emWait mon → mon < s.monitorIdGen)
    (haguarda : ∀ t, t ≠ s.activeThr → (Aguarda s' m t ↔ Aguarda s m t))
    (hmonitor : ∀ t, t ≠ s.activeThr → (NoMonitor s' m t ↔ NoMonitor s m t))
    (hativa : Aguarda s' m s.activeThr ↔ NoMonitor s' m s.activeThr) :
    Exclusao m (h.erase s.activeThr) s' := by
  obtain ⟨hthr, hqueue⟩ := hmutex
  have hcriada := hE.arrumado.criada.2
  have hfora := hE.ativaFora.1
  have hvazio : h.erase s.activeThr = [] := by
    rcases hE.dentro with rfl | ⟨t, rfl, ht⟩
    · rfl
    · obtain rfl := Option.some.inj (ht.symm.trans hdono)
      simp
  have hfila : ∀ t, t ∈ (s.mutex m).queue ↔
      t ∈ (s.mutex m).queue.tail ∨ (s.mutex m).queue.head? = some t := by
    intro t
    cases (s.mutex m).queue with
    | nil => simp
    | cons u fila => simp [or_comm, eq_comm]
  rw [hvazio]
  refine ⟨harr, .inl rfl, fun hn => ?_, fun t => ?_, fun t antes ht => ?_, fun t ht => ?_,
    fun t mon ht => ?_, fun hm => ?_⟩
  · rw [hthr, List.head?_eq_none_iff] at hn
    rw [hqueue, hn]
    rfl
  · rw [hthr, hqueue]
    by_cases ht : t = s.activeThr
    · subst ht
      rw [hfila, not_or] at hfora
      rw [hativa]
      simp [hfora.1, hfora.2]
    · rw [haguarda t ht, hE.espera t, hmonitor t ht, hfila t, hdono]
      have hne : s.activeThr ≠ t := fun he => ht he.symm
      simp only [Option.some.injEq, hne, false_and, or_false, List.not_mem_nil, not_false_eq_true,
        and_true]
      tauto
  · rcases hponto t with he | ⟨-, hnd, -⟩
    · exact hE.volta t antes (he ▸ ht)
    · exact absurd ht (hnd antes)
  · rw [htid] at ht
    rcases hponto t with he | ⟨rfl, -⟩
    · rw [he]
      exact hE.nova t ht
    · omega
  · rw [hgens.2]
    rcases hponto t with he | ⟨-, -, hw⟩
    · exact hE.lugar t mon (he ▸ ht)
    · exact hw mon ht
  · have hnone := hE.futuro (hgens.1 ▸ hm)
    rw [hdono] at hnone
    cases hnone

theorem unlock (hE : Exclusao m h s) (hp : s.ponto s.activeThr = .livre)
    (harr : Arrumado (fun _ _ => True) s' [s'.activeThr]) {k : ℕ}
    (he : sthreadUserMutexUnlock s m (.emUnlock k) = .segue s' r) :
    Exclusao m (if r ≠ .gira then h.erase s.activeThr else h) s' := by
  obtain ⟨rfl, rfl | ⟨rfl, hne⟩⟩ | ⟨hr, hlarga⟩ := sthreadUserMutexUnlock_efeito he
  · exact hE
  · have hfora : s'.activeThr ∉ h := by
      rcases hE.dentro with rfl | ⟨t, rfl, ht⟩
      · exact List.not_mem_nil
      · rintro hm
        rw [List.mem_singleton] at hm
        exact hne (hm ▸ ht)
    rw [List.erase_of_not_mem hfora, ite_self]
    exact hE
  · obtain ⟨l, hmutex⟩ := hlarga.mutex
    have hponto : ∀ t, s'.ponto t = s.ponto t ∨ t = s.activeThr ∧ s'.ponto t = .emUnlock k := by
      intro t
      rcases hlarga.ponto with hx | hx
      · exact .inl (congrFun hx t)
      · rw [hx, Function.update_apply]
        split
        · rename_i ht
          exact .inr ⟨ht, rfl⟩
        · exact .inl rfl
    have hno : ∀ t, NoMonitor s' m t ↔ NoMonitor s m t := by
      intro t
      rw [NoMonitor, NoMonitor, hlarga.monitor, hlarga.gens.2]
    rw [if_pos hr]
    refine hE.sair harr hlarga.dono ?_ hlarga.gens hlarga.tid (fun t => ?_) (fun t ht => ?_)
      (fun t _ => hno t) ?_
    · rw [hmutex, Function.update_self]
      exact ⟨rfl, rfl⟩
    · refine (hponto t).imp_right ?_
      rintro ⟨rfl, hx⟩
      rw [hx]
      exact ⟨rfl, fun _ => Ponto.noConfusion, fun _ hw => nomatch hw⟩
    · have hx := (hponto t).resolve_right fun hx => ht hx.1
      rw [Aguarda, Aguarda, hx, hlarga.monitor]
    · refine iff_of_false ?_ fun hn => hE.ativaFora.2 ((hno _).mp hn)
      have hx : s'.ponto s.activeThr = .livre ∨ s'.ponto s.activeThr = .emUnlock k :=
        (hponto _).imp (fun hx => hx.trans hp) And.right
      rintro (hw | ⟨mon, hw, -⟩) <;> rcases hx with hx | hx <;>
        · rw [hx] at hw
          cases hw

/-- An unlock of another mutex. -/
theorem unlockOutro (hE : Exclusao m h s) (hp : s.ponto s.activeThr = .livre)
    (harr : Arrumado (fun _ _ => True) s' [s'.activeThr]) {k : ℕ} (hk : m ≠ k)
    (he : sthreadUserMutexUnlock s k (.emUnlock k) = .segue s' r) : Exclusao m h s' := by
  obtain ⟨rfl, -⟩ | ⟨-, hlarga⟩ := sthreadUserMutexUnlock_efeito he
  · exact hE
  · obtain ⟨l, hmutex⟩ := hlarga.mutex
    exact hE.alheia harr (naoAguarda hp) (p := .emUnlock k) Ponto.noConfusion
      (fun _ hw => nomatch hw) (fun _ hw => nomatch hw)
      (.mudarMutex hk hmutex hlarga.monitor hlarga.gens hlarga.tid hlarga.ponto)

theorem lockOutro (hE : Exclusao m h s) (hp : s.ponto s.activeThr = .livre)
    (harr : Arrumado (fun _ _ => True) s' [s'.activeThr]) {k : ℕ} (hk : m ≠ k)
    (he : sthreadUserMutexLock s k = .segue s' r) : Exclusao m h s' := by
  have hframe : OutroTrinco m (.emLock k) s s' := by
    obtain ⟨rfl, -⟩ | ⟨-, -, rfl⟩ | ⟨-, -, hcom⟩ := sthreadUserMutexLock_efeito he
    · exact .intacta rfl rfl ⟨rfl, rfl⟩ rfl (.inl rfl)
    · exact .mudarMutex hk rfl rfl ⟨rfl, rfl⟩ rfl (.inl rfl)
    · exact .comutar hcom (.mudarMutex hk rfl rfl ⟨rfl, rfl⟩ rfl (.inr rfl))
  exact hE.alheia harr (naoAguarda hp) (fun hx => hk (Ponto.emLock.inj hx).symm)
    (fun _ hw => nomatch hw) (fun _ hw => nomatch hw) hframe

/-- A wait of the owner in its monitor. -/
theorem wait (hE : Exclusao m h s) (harr : Arrumado (fun _ _ => True) s' [s'.activeThr])
    (hp : s.ponto s.activeThr = .livre) (hmon : mon < s.monitorIdGen) (hw : EsperaLimpa s mon)
    (he : sthreadUserMonitorWait s mon = .segue s' r) :
    Exclusao m (if (s.monitor mon).mutex = m ∧ r ≠ .nada then h.erase s.activeThr else h) s' := by
  obtain ⟨rfl, rfl, -⟩ | ⟨⟨no, rfl⟩, s₁, hlarga, hponto₁, hcom⟩ :=
    sthreadUserMonitorWait_efeito hw he
  · rw [if_neg fun hx => hx.2 rfl]
    exact hE
  · obtain ⟨l, hmutex⟩ := hlarga.mutex
    have hcampos := (comutar_campos hcom).1
    have hmutex' : s'.mutex = s₁.mutex := by rw [hcampos]; rfl
    have hmonitor : s'.monitor = Function.update s.monitor mon
        { s.monitor mon with queue := (s.monitor mon).queue ++ [s.activeThr] } := by
      rw [hcampos]
      exact hlarga.monitor
    have hgens : s'.mutexIdGen = s.mutexIdGen ∧ s'.monitorIdGen = s.monitorIdGen := by
      rw [hcampos]
      exact hlarga.gens
    have htid : s'.tidGen = s.tidGen := by
      rw [hcampos]
      exact hlarga.tid
    have hponto : s'.ponto = Function.update s.ponto s.activeThr (.emWait mon) := by
      rw [hcampos, ← hponto₁]
      rfl
    have hpar : ∀ k, (s'.monitor k).mutex = (s.monitor k).mutex := by
      intro k
      rw [hmonitor, Function.update_apply]
      split
      · rename_i hk
        rw [hk]
      · rfl
    by_cases hm : (s.monitor mon).mutex = m
    · subst hm
      rw [if_pos ⟨rfl, Resposta.noConfusion⟩]
      refine hE.sair harr hlarga.dono ?_ hgens htid (fun t => ?_) (fun t ht => ?_)
        (fun t ht => ?_) ?_
      · rw [hmutex', hmutex, Function.update_self]
        exact ⟨rfl, rfl⟩
      · rw [hponto, Function.update_apply]
        split
        · rename_i ht
          exact .inr ⟨ht, fun _ => Ponto.noConfusion, fun k hk => Ponto.emWait.inj hk ▸ hmon⟩
        · exact .inl rfl
      · have hx : s'.ponto t = s.ponto t := by rw [hponto, Function.update_of_ne ht]
        simp only [Aguarda, hx, hpar]
      · refine exists_congr fun k => ?_
        rw [hgens.2, hpar]
        refine and_congr_right fun _ => and_congr_right fun _ => ?_
        rw [hmonitor, Function.update_apply]
        split
        · rename_i hk
          rw [List.mem_append, List.mem_singleton, or_iff_left ht, hk]
        · rfl
      · refine iff_of_true (.inr ⟨mon, ?_, hpar mon⟩) ⟨mon, hgens.2 ▸ hmon, hpar mon, ?_⟩
        · rw [hponto, Function.update_self]
        · rw [hmonitor, Function.update_self]
          simp
    · rw [if_neg fun hx => hm hx.1]
      refine hE.alheia harr (naoAguarda hp) (p := .emWait mon) Ponto.noConfusion
        (fun k hk => Ponto.emWait.inj hk ▸ ⟨hmon, hm⟩) (fun _ hx => nomatch hx)
        ⟨?_, ?_, fun k => ⟨hpar k, fun hk => ?_⟩, hgens, htid, .inr hponto⟩
      · rw [hmutex', hmutex, Function.update_of_ne fun hx => hm hx.symm]
        rfl
      · rw [hmutex', hmutex, Function.update_of_ne fun hx => hm hx.symm]
        rfl
      · have hne : k ≠ mon := by
          rintro rfl
          exact hm hk
        rw [hmonitor, Function.update_of_ne hne]

/-- A signal of the owner. -/
theorem signal (hE : Exclusao m h s) (harr : Arrumado (fun _ _ => True) s' [s'.activeThr])
    (hp : s.ponto s.activeThr = .livre) (hmon : mon < s.monitorIdGen) {n : ℕ}
    (hdono : (s.mutex (s.monitor mon).mutex).thr = some s.activeThr) (ha : Assina mon n s s') :
    Exclusao m h s' := by
  have hpar : ∀ k, (s'.monitor k).mutex = (s.monitor k).mutex := by
    intro k
    rw [ha.monitor, Function.update_apply]
    split
    · rename_i hk
      rw [hk]
    · rfl
  by_cases hm : (s.monitor mon).mutex = m
  · subst hm
    have hmutex : s'.mutex (s.monitor mon).mutex = { s.mutex (s.monitor mon).mutex with
        queue := (s.mutex (s.monitor mon).mutex).queue ++ (s.monitor mon).queue.take n } := by
      rw [ha.mutex, Function.update_self]
    have hcorta : ∀ t, t ∈ (s.monitor mon).queue ↔
        t ∈ (s.monitor mon).queue.take n ∨ t ∈ (s.monitor mon).queue.drop n := by
      intro t
      rw [← List.mem_append, List.take_append_drop]
    -- the threads that wait are the same, in one queue or the other
    have hfilas : ∀ t, t ∈ (s'.mutex (s.monitor mon).mutex).queue ∨
        NoMonitor s' (s.monitor mon).mutex t ↔
        t ∈ (s.mutex (s.monitor mon).mutex).queue ∨ NoMonitor s (s.monitor mon).mutex t := by
      intro t
      have hdrop : (s'.monitor mon).queue = (s.monitor mon).queue.drop n := by
        rw [ha.monitor, Function.update_self]
      rw [hmutex]
      constructor
      · rintro (ht | ⟨k, hk, hkm, ht⟩)
        · rcases List.mem_append.mp ht with ht | ht
          · exact .inl ht
          · exact .inr ⟨mon, hmon, rfl, (hcorta t).mpr (.inl ht)⟩
        · rw [ha.gens.2] at hk
          rw [hpar] at hkm
          by_cases hkn : k = mon
          · subst hkn
            rw [hdrop] at ht
            exact .inr ⟨k, hk, rfl, (hcorta t).mpr (.inr ht)⟩
          · rw [ha.monitor, Function.update_of_ne hkn] at ht
            exact .inr ⟨k, hk, hkm, ht⟩
      · rintro (ht | ⟨k, hk, hkm, ht⟩)
        · exact .inl (List.mem_append_left _ ht)
        · by_cases hkn : k = mon
          · subst hkn
            rcases (hcorta t).mp ht with ht | ht
            · exact .inl (List.mem_append_right _ ht)
            · exact .inr ⟨k, ha.gens.2 ▸ hk, hpar k, hdrop ▸ ht⟩
          · refine .inr ⟨k, ha.gens.2 ▸ hk, (hpar k).trans hkm, ?_⟩
            rw [ha.monitor, Function.update_of_ne hkn]
            exact ht
    refine ⟨harr, ?_, fun hn => ?_, fun t => ?_, ?_, ?_, ?_, fun hge => ?_⟩
    · rw [hmutex]
      exact hE.dentro
    · rw [hmutex] at hn
      exact absurd (hdono.symm.trans hn) (Option.some_ne_none _)
    · rw [hfilas, hmutex]
      refine Iff.trans ?_ (hE.espera t)
      simp only [Aguarda, ha.ponto, hpar]
    · rw [ha.ponto]
      exact hE.volta
    · rw [ha.ponto, ha.tid]
      exact hE.nova
    · rw [ha.ponto, ha.gens.2]
      exact hE.lugar
    · rw [ha.gens.1] at hge
      exact absurd (hdono.symm.trans (hE.futuro hge)) (Option.some_ne_none _)
  · have hne : m ≠ (s.monitor mon).mutex := fun hx => hm hx.symm
    refine hE.alheia harr (naoAguarda hp) (p := .livre) Ponto.noConfusion
      (fun _ hx => nomatch hx) (fun _ hx => nomatch hx)
      ⟨?_, ?_, fun k => ⟨hpar k, fun hk => ?_⟩, ha.gens, ha.tid, .inl ha.ponto⟩
    · rw [ha.mutex, Function.update_of_ne hne]
    · rw [ha.mutex, Function.update_of_ne hne]
    · have hkn : k ≠ mon := by
        rintro rfl
        exact hm hk
      rw [ha.monitor, Function.update_of_ne hkn]

/-- A thread that waited for the mutex owns it when it goes on. -/
theorem dono_of_aguarda (hE : Exclusao m h s) (ha : Aguarda s m s.activeThr) :
    (s.mutex m).thr = some s.activeThr ∧ h = [] := by
  obtain ⟨hthr, hno⟩ := ((hE.espera _).mp ha).resolve_left fun hx => hx.elim hE.ativaFora.1
    hE.ativaFora.2
  refine ⟨hthr, hE.dentro.resolve_right ?_⟩
  rintro ⟨t, rfl, ht⟩
  obtain rfl := Option.some.inj (hthr.symm.trans ht)
  exact hno (List.mem_singleton.mpr rfl)

/-- The call of a thread that waited returns. -/
theorem voltar (hE : Exclusao m h s) (ha : Aguarda s m s.activeThr)
    (harr : Arrumado (fun _ _ => True) (s.parar s.activeThr .livre) [s.activeThr]) :
    Exclusao m (h ++ [s.activeThr]) (s.parar s.activeThr .livre) := by
  obtain ⟨hthr, rfl⟩ := hE.dono_of_aguarda ha
  have hoff : ∀ t, t ≠ s.activeThr → (s.parar s.activeThr .livre).ponto t = s.ponto t :=
    fun t ht => Function.update_of_ne ht ..
  have hon : (s.parar s.activeThr .livre).ponto s.activeThr = .livre := Function.update_self ..
  have hmut : (s.parar s.activeThr .livre).mutex = s.mutex := rfl
  have hmon : (s.parar s.activeThr .livre).monitor = s.monitor := rfl
  have hno : ∀ t, NoMonitor (s.parar s.activeThr .livre) m t ↔ NoMonitor s m t := fun _ => Iff.rfl
  rw [List.nil_append]
  refine ⟨harr, .inr ⟨s.activeThr, rfl, hthr⟩, hE.semDono, fun t => ?_, fun t antes ht => ?_,
    fun t ht => ?_, fun t mon ht => ?_, hE.futuro⟩
  · rw [hno, hmut]
    by_cases ht : t = s.activeThr
    · subst ht
      refine iff_of_false ?_ ?_
      · rintro (hx | ⟨mon, hx, -⟩) <;>
          · rw [hon] at hx
            cases hx
      · rintro ((hx | hx) | ⟨-, hx⟩)
        · exact hE.ativaFora.1 hx
        · exact hE.ativaFora.2 hx
        · exact hx (List.mem_singleton.mpr rfl)
    · rw [show Aguarda (s.parar s.activeThr .livre) m t ↔ Aguarda s m t by
        rw [Aguarda, Aguarda, hoff t ht, hmon], hE.espera t, hthr]
      refine or_congr Iff.rfl (iff_of_false ?_ ?_) <;> rintro ⟨he, -⟩ <;>
        exact ht (Option.some.inj he).symm
  · by_cases hta : t = s.activeThr
    · rw [hta, hon] at ht
      cases ht
    · exact hE.volta t antes (hoff t hta ▸ ht)
  · by_cases hta : t = s.activeThr
    · rw [hta, hon]
    · rw [hoff t hta]
      exact hE.nova t ht
  · by_cases hta : t = s.activeThr
    · rw [hta, hon] at ht
      cases ht
    · exact hE.lugar t mon (hoff t hta ▸ ht)

theorem resume (hE : Exclusao m h s) (harr : Arrumado (fun _ _ => True) s' [s'.activeThr])
    (he : retomar s (s.ponto s.activeThr) = .segue s' r) :
    Exclusao m (if trincoDe s .resume = some m then h ++ [s.activeThr] else h) s' := by
  have hcalmo := hE.arrumado.calmo s.activeThr
  -- the other points lead back to the code of the thread
  have hlivre : ¬Aguarda s m s.activeThr → OutroTrinco m .livre s s' → Exclusao m h s' :=
    fun hne hd => hE.alheia harr hne (p := .livre) Ponto.noConfusion (fun _ hx => nomatch hx)
      (fun _ hx => nomatch hx) hd
  have hfora : (∀ k, s.ponto s.activeThr ≠ .emLock k) → (∀ k, s.ponto s.activeThr ≠ .emWait k) →
      ¬Aguarda s m s.activeThr := by
    rintro hl hw (hx | ⟨k, hx, -⟩)
    · exact hl m hx
    · exact hw k hx
  cases hp : s.ponto s.activeThr with
  | livre =>
      rw [hp] at he
      cases he
  | terminada =>
      rw [hp] at he
      cases he
  | girando mon =>
      rw [hp] at hcalmo
      exact absurd hcalmo id
  | emWaitUnlock mon =>
      rw [hp] at hcalmo
      exact absurd hcalmo id
  | noDespacho antes =>
      obtain rfl := hE.volta _ antes hp
      rw [hp] at he
      obtain ⟨rfl, rfl⟩ := Resultado.segue.inj he
      rw [trincoDe, hp, if_neg (by simp)]
      refine hlivre (hfora (by simp [hp]) (by simp [hp])) ?_
      rw [fimDispatcher]
      simp only
      split <;> exact .intacta rfl rfl ⟨rfl, rfl⟩ rfl (.inr rfl)
  | emJoin alvo =>
      rw [hp] at he
      obtain ⟨rfl, rfl⟩ := Resultado.segue.inj he
      rw [trincoDe, hp, if_neg (by simp)]
      exact hlivre (hfora (by simp [hp]) (by simp [hp]))
        (.intacta rfl rfl ⟨rfl, rfl⟩ rfl (.inr rfl))
  | emUnlock k =>
      rw [hp] at he
      obtain ⟨rfl, rfl⟩ := Resultado.segue.inj he
      rw [trincoDe, hp, if_neg (by simp)]
      refine hlivre (hfora (by simp [hp]) (by simp [hp]))
        ⟨?_, ?_, fun _ => ⟨rfl, fun _ => rfl⟩, ⟨rfl, rfl⟩, rfl, .inr rfl⟩
      · by_cases hk : m = k
        · subst hk
          simp [Escalonador.parar, Escalonador.mudarMutex]
        · simp [Escalonador.parar, Escalonador.mudarMutex, hk]
      · by_cases hk : m = k
        · subst hk
          simp [Escalonador.parar, Escalonador.mudarMutex]
        · simp [Escalonador.parar, Escalonador.mudarMutex, hk]
  | emLock k =>
      rw [hp] at he
      obtain ⟨rfl, rfl⟩ := Resultado.segue.inj he
      rw [trincoDe, hp]
      by_cases hk : k = m
      · subst hk
        rw [if_pos rfl]
        exact hE.voltar (.inl hp) harr
      · rw [if_neg fun hx => hk (Option.some.inj hx)]
        refine hlivre ?_ (.intacta rfl rfl ⟨rfl, rfl⟩ rfl (.inr rfl))
        rintro (hx | ⟨mon, hx, -⟩)
        · exact hk (Ponto.emLock.inj (hp.symm.trans hx))
        · rw [hp] at hx
          cases hx
  | emWait mon =>
      rw [hp] at he
      obtain ⟨rfl, rfl⟩ := Resultado.segue.inj he
      rw [trincoDe, hp]
      by_cases hk : (s.monitor mon).mutex = m
      · rw [if_pos (congrArg some hk)]
        exact hE.voltar (.inr ⟨mon, hp, hk⟩) harr
      · rw [if_neg fun hx => hk (Option.some.inj hx)]
        refine hlivre ?_ (.intacta rfl rfl ⟨rfl, rfl⟩ rfl (.inr rfl))
        rintro (hx | ⟨k, hx, hkm⟩)
        · rw [hp] at hx
          cases hx
        · obtain rfl := Ponto.emWait.inj (hp.symm.trans hx)
          exact hk hkm

theorem mutexInit (hE : Exclusao m h s) {i : ℤ}
    (harr : Arrumado (fun _ _ => True) (novoMutex s i) [s.activeThr]) :
    Exclusao m h (novoMutex s i) := by
  refine hE.crescer harr ?_ (fun _ _ => rfl) (fun mon h₁ h₂ => absurd h₁ (Nat.not_le_of_lt h₂))
    ⟨Nat.le_succ _, Nat.le_refl _⟩ (Nat.le_refl _) rfl
  by_cases hm : m = s.mutexIdGen
  · have hthr := hE.futuro (Nat.le_of_eq hm.symm)
    have hself : (novoMutex s i).mutex m = ⟨false, none, [], i⟩ := by
      rw [hm]
      exact Function.update_self ..
    rw [hself, hthr, hE.semDono hthr]
    exact ⟨rfl, rfl⟩
  · have hself : (novoMutex s i).mutex m = s.mutex m := Function.update_of_ne hm ..
    rw [hself]
    exact ⟨rfl, rfl⟩

theorem monitorInit (hE : Exclusao m h s)
    (harr : Arrumado (fun _ _ => True) s' [s'.activeThr])
    (he : sthreadUserMonitorInit s = .segue s' r) : Exclusao m h s' := by
  obtain ⟨rfl, -⟩ := Resultado.segue.inj he
  have hmutex := (hE.mutexInit (hE.arrumado.novoMutex s.monitorIdGen))
  refine hE.crescer harr ?_ (fun mon hmon => ?_) (fun mon h₁ h₂ => ?_)
    ⟨Nat.le_succ _, Nat.le_succ _⟩ (Nat.le_refl _) rfl
  · by_cases hm : m = s.mutexIdGen
    · have hthr := hE.futuro (Nat.le_of_eq hm.symm)
      subst hm
      rw [hthr, hE.semDono hthr]
      simp [novoMutex]
    · simp [novoMutex, hm]
  · exact Function.update_of_ne (Nat.ne_of_lt hmon) ..
  · have h₂ : mon < s.monitorIdGen + 1 := h₂
    obtain rfl : mon = s.monitorIdGen := by omega
    simp [novoMutex]

/-- One step. -/
theorem passo (hE : Exclusao m h s) {c : Chamada} (hc : Valida s c ∧ Limpa s c)
    (hs : passo s c = some (s', r)) : Exclusao m (anotarDentro m h (s, c, r)) s' := by
  have harr :=
    (passo_chega guarda_trivial hE.arrumado hc.1 hc.2 (fun _ _ => trivial) hs).arrumado
  have hfora : trincoDe s c ≠ some m → anotarDentro m h (s, c, r) = h := fun hne => if_neg hne
  obtain ⟨hp, he⟩ | ⟨mon, hp, -⟩ | ⟨rfl, he⟩ | he := executa_cases (passo_eq_some.mp hs)
  · have hne := naoAguarda (m := m) hp
    have halheia : ∀ p : Ponto, (∀ k, p ≠ .emLock k) → (∀ k, p ≠ .emWait k) →
        (∀ antes, p = .noDespacho antes → antes = .livre) → OutroTrinco m p s s' →
        Exclusao m h s' :=
      fun p hl hw hv hd => hE.alheia harr hne (hl m) (fun k hk => absurd hk (hw k)) hv hd
    cases c with
    | create p =>
        obtain ⟨rfl, -⟩ := Resultado.segue.inj he
        rw [hfora (by simp [trincoDe])]
        refine hE.crescer harr ⟨rfl, rfl⟩ (fun _ _ => rfl)
          (fun mon h₁ h₂ => absurd h₁ (Nat.not_le_of_lt h₂)) ⟨Nat.le_refl _, Nat.le_refl _⟩
          (Nat.le_succ _) ?_
        show Function.update s.ponto s.tidGen .livre = s.ponto
        rw [← hE.nova s.tidGen (Nat.le_refl _)]
        exact Function.update_eq_self s.tidGen s.ponto
    | exit ret =>
        rw [hfora (by simp [trincoDe])]
        exact halheia .terminada (by simp) (by simp) (by simp) (sthreadUserExit_outroTrinco he)
    | dispatcher =>
        rw [hfora (by simp [trincoDe])]
        refine halheia _ (by simp) (by simp) (fun antes hx => ?_)
          (sthreadUserDispatcher_outroTrinco he)
        exact (Ponto.noDespacho.inj hx).symm.trans hp
    | yield =>
        rw [hfora (by simp [trincoDe])]
        exact halheia .livre (by simp) (by simp) (by simp)
          (.comutar he (.intacta rfl rfl ⟨rfl, rfl⟩ rfl (.inl rfl)))
    | join t =>
        rw [hfora (by simp [trincoDe])]
        exact halheia (.emJoin t) (by simp) (by simp) (by simp) (sthreadUserJoin_outroTrinco he)
    | sleep time =>
        rw [hfora (by simp [trincoDe])]
        exact halheia .livre (by simp) (by simp) (by simp) (sthreadUserSleep_outroTrinco he)
    | nice n =>
        obtain ⟨rfl, -⟩ := Resultado.segue.inj he
        rw [hfora (by simp [trincoDe])]
        exact halheia .livre (by simp) (by simp) (by simp)
          (.intacta rfl rfl ⟨rfl, rfl⟩ rfl (.inl rfl))
    | mutexInit =>
        obtain ⟨rfl, -⟩ := Resultado.segue.inj he
        rw [hfora (by simp [trincoDe])]
        exact hE.mutexInit harr
    | monitorInit =>
        rw [hfora (by simp [trincoDe])]
        exact hE.monitorInit harr he
    | mutexLock k =>
        by_cases hk : m = k
        · subst hk
          have hnota : anotarDentro m h (s, .mutexLock m, r) =
              if r = .nada then h ++ [s.activeThr] else h := by
            cases r <;> simp [anotarDentro, trincoDe, entra, sai]
          rw [hnota]
          exact hE.lock hp harr hc.1 he
        · rw [hfora fun hx => hk (Option.some.inj hx).symm]
          exact hE.lockOutro hp harr hk he
    | mutexUnlock k =>
        by_cases hk : m = k
        · subst hk
          have hnota : anotarDentro m h (s, .mutexUnlock m, r) =
              if r ≠ .gira then h.erase s.activeThr else h := by
            simp [anotarDentro, trincoDe, entra, sai]
          rw [hnota]
          exact hE.unlock hp harr he
        · rw [hfora fun hx => hk (Option.some.inj hx).symm]
          exact hE.unlockOutro hp harr hk he
    | monitorEnter mon =>
        by_cases hk : m = (s.monitor mon).mutex
        · subst hk
          have hnota : anotarDentro (s.monitor mon).mutex h (s, .monitorEnter mon, r) =
              if r = .nada then h ++ [s.activeThr] else h := by
            cases r <;> simp [anotarDentro, trincoDe, entra, sai]
          rw [hnota]
          exact hE.lock hp harr (hE.arrumado.monitores mon hc.1) he
        · rw [hfora fun hx => hk (Option.some.inj hx).symm]
          exact hE.lockOutro hp harr hk he
    | monitorExit mon =>
        by_cases hk : m = (s.monitor mon).mutex
        · subst hk
          have hnota : anotarDentro (s.monitor mon).mutex h (s, .monitorExit mon, r) =
              if r ≠ .gira then h.erase s.activeThr else h := by
            simp [anotarDentro, trincoDe, entra, sai]
          rw [hnota]
          exact hE.unlock hp harr he
        · rw [hfora fun hx => hk (Option.some.inj hx).symm]
          exact hE.unlockOutro hp harr hk he
    | monitorWait mon =>
        have hgira : r ≠ .gira := by
          obtain ⟨-, rfl, -⟩ | ⟨⟨no, rfl⟩, -⟩ := sthreadUserMonitorWait_efeito hc.2 he <;>
            exact Resposta.noConfusion
        have hnota : anotarDentro m h (s, .monitorWait mon, r) =
            if (s.monitor mon).mutex = m ∧ r ≠ .nada then h.erase s.activeThr else h := by
          by_cases hk : (s.monitor mon).mutex = m <;>
            simp [anotarDentro, trincoDe, entra, sai, hk, hgira]
        rw [hnota]
        exact hE.wait harr hp hc.1 hc.2 he
    | monitorSignal mon =>
        rw [hfora (by simp [trincoDe])]
        obtain rfl | ⟨hdono, ha⟩ := sthreadUserMonitorSignal_efeito he
        · exact hE
        · exact hE.signal harr hp hc.1 hdono ha
    | monitorSignalall mon =>
        rw [hfora (by simp [trincoDe])]
        obtain rfl | ⟨hdono, ha⟩ := sthreadUserMonitorSignalall_efeito he
        · exact hE
        · exact hE.signal harr hp hc.1 hdono ha
    | resume => cases he
  · have hcalmo := hE.arrumado.calmo s.activeThr
    rw [hp] at hcalmo
    exact absurd hcalmo id
  · exact hE.resume harr he
  · cases he

end Exclusao

theorem sthreadUserInit_exclusao (m : ℕ) : Exclusao m [] sthreadUserInit := by
  refine ⟨sthreadUserInit_arrumado trivial, .inl rfl, fun _ => rfl, fun t => iff_of_false ?_ ?_,
    fun _ _ hx => ?_, fun _ _ => rfl, fun _ _ hx => ?_, fun _ => rfl⟩
  · rintro (hx | ⟨mon, hx, -⟩) <;> cases hx
  · rintro ((hx | ⟨mon, hmon, -⟩) | ⟨hx, -⟩)
    · exact List.not_mem_nil hx
    · exact Nat.not_lt_zero mon hmon
    · cases hx
  · cases hx
  · cases hx

/-- Only the owner is inside a mutex or a monitor; the threads suspended in its calls are those of
its queues, and an owner that has not gone on yet; and a wait returns to the owner. -/
theorem monitor_exclusivo (cs : List Chamada) (s : Escalonador) (os : List Resposta) (m : ℕ)
    (hP : Runs.Permitted passo (fun s c => Valida s c ∧ Limpa s c) sthreadUserInit cs)
    (hr : Runs.run passo sthreadUserInit cs = some (s, os)) :
    let h := (Runs.steps passo sthreadUserInit cs).foldl (anotarDentro m) []
    (h = [] ∨ ∃ t, h = [t] ∧ (s.mutex m).thr = some t) ∧
      (∀ t, Aguarda s m t ↔
        (t ∈ (s.mutex m).queue ∨ NoMonitor s m t) ∨ (s.mutex m).thr = some t ∧ t ∉ h) ∧
      ((s.mutex m).thr = none → (s.mutex m).queue = []) ∧
      (Aguarda s m s.activeThr → (s.mutex m).thr = some s.activeThr ∧ h = []) := by
  have hE := Runs.run_history (J := Exclusao m)
    (fun h _ a _ o hE hp hs => show Exclusao m (anotarDentro m h (_, a, o)) _ from hE.passo hp hs)
    (sthreadUserInit_exclusao m) hP hr
  exact ⟨hE.dentro, hE.espera, hE.semDono, hE.dono_of_aguarda⟩

/-- The main thread waits in the monitor, thread 2 comes in, signals and goes out, and the main
thread is inside again. -/
def monitorPassado : List Chamada :=
  [.monitorInit, .create 1, .monitorEnter 0, .monitorWait 0, .monitorEnter 0, .monitorSignal 0,
    .monitorExit 0, .yield, .resume]

theorem monitor_exclusivo_exemplo :
    ∃ s os, Runs.run passo sthreadUserInit monitorPassado = some (s, os) ∧
      let h := (Runs.steps passo sthreadUserInit monitorPassado).foldl (anotarDentro 0) []
      (h = [] ∨ ∃ t, h = [t] ∧ (s.mutex 0).thr = some t) ∧
        (∀ t, Aguarda s 0 t ↔
          (t ∈ (s.mutex 0).queue ∨ NoMonitor s 0 t) ∨ (s.mutex 0).thr = some t ∧ t ∉ h) ∧
        ((s.mutex 0).thr = none → (s.mutex 0).queue = []) ∧
        (Aguarda s 0 s.activeThr → (s.mutex 0).thr = some s.activeThr ∧ h = []) :=
  ⟨_, _, rfl, monitor_exclusivo monitorPassado _ _ 0 (by decide) rfl⟩

example : (Runs.steps passo sthreadUserInit monitorPassado).foldl (anotarDentro 0) [] = [1] := by
  decide

end ThreadScheduler.SthreadLib
