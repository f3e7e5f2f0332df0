import ThreadScheduler.SthreadLib.SchedulerFairness

/-!
# Who runs after a call that blocks

The next thread comes out of the executable tree. When that tree is empty `exit` and `sleep` end
the process, and the other calls read the context of `NULL`; sleeping threads do not count.
-/
namespace ThreadScheduler.SthreadLib

open ArvoreRB Escalonador

variable {s s' : Escalonador} {r : Resposta}

/-- The call may hand the processor to another thread. -/
def CedeCpu : Chamada → Prop
  | .exit _ => True
  | .sleep _ => True
  | .join _ => True
  | .mutexLock _ => True
  | .monitorEnter _ => True
  | .monitorWait _ => True
  | _ => False

instance (c : Chamada) : Decidable (CedeCpu c) :=
  match c with
  | .exit _ | .sleep _ | .join _ | .mutexLock _ | .monitorEnter _ | .monitorWait _ =>
      inferInstanceAs (Decidable True)
  | .create _ | .dispatcher | .yield | .nice _ | .mutexInit | .mutexUnlock _ | .monitorInit
  | .monitorExit _ | .monitorSignal _ | .monitorSignalall _ | .resume =>
      inferInstanceAs (Decidable False)

/-- The mutex has an owner, and its spin flag is clear. -/
def Ocupado (s : Escalonador) (m : ℕ) : Prop := (s.mutex m).l = false ∧ (s.mutex m).thr ≠ none

/-- The call does not return before a switch. -/
def Bloqueia (s : Escalonador) : Chamada → Prop
  | .exit _ => True
  | .sleep time => time.tdiv clockTick ≠ 0
  | .join thread => thread ∉ s.zombieThr
  | .mutexLock m => Ocupado s m
  | .monitorEnter mon => Ocupado s (s.monitor mon).mutex
  | .monitorWait mon => (s.mutex (s.monitor mon).mutex).thr = some s.activeThr
  | _ => False

/-- Another thread is executable, or becomes executable in the call. -/
def HaOutra (s : Escalonador) (c : Chamada) : Prop :=
  elementos s.exeThr ≠ [] ∨
    match c with
    | .exit _ => ∃ t ∈ s.joinThr, (s.thread t).joinTid = s.activeThr
    | .monitorWait mon => (s.mutex (s.monitor mon).mutex).queue ≠ []
    | _ => False

/-- The thread has been created and has not ended. -/
def Viva (s : Escalonador) (t : ℕ) : Prop :=
  0 < t ∧ t < s.tidGen ∧ t ∉ s.zombieThr ∧ t ∉ s.deadThr

instance (s : Escalonador) (t : ℕ) : Decidable (Viva s t) := by
  unfold Viva
  infer_instance

theorem Arrumado.viva {J : ArvoreRB ℕ → (ℕ → Sthread) → Prop} {t : ℕ} {l : List ℕ}
    (h : Arrumado J s (t :: l)) : Viva s t := by
  have hle := h.count_le t
  rw [count_fora, List.count_cons_self] at hle
  obtain ⟨hpos, hlt⟩ := h.criada
  refine ⟨hpos, hlt, fun hm => ?_, fun hm => ?_⟩
  · have := List.count_pos_iff.mpr hm
    omega
  · have := List.count_pos_iff.mpr hm
    omega

/-- `RBExtraiMininimo` gives a thread as long as there is one. -/
theorem Justo.extrai_iff {a : ArvoreRB ℕ} {th : ℕ → Sthread} (h : Justo a th) (hs : SacoRB a) :
    (∃ a' t, rbExtraiMininimo a = (a', some t)) ↔ elementos a ≠ [] := by
  constructor
  · rintro ⟨a', t, he⟩ hnil
    have hperm := (hs.extrair he).2
    rw [hnil] at hperm
    exact List.cons_ne_nil t _ hperm.nil_eq.symm
  · intro hne
    obtain ⟨l, hl, -⟩ := h.fila
    cases l with
    | nil => exact absurd (hs.vazia_iff.mp (hl.vazia_iff.mpr rfl)) hne
    | cons p l =>
        have hsome : (a.elem p).isSome := by
          rw [hs.isSome_iff, hl.emOrdem_eq]
          exact List.mem_cons_self
        obtain ⟨t, ht⟩ := Option.isSome_iff_exists.mp hsome
        refine ⟨_, t, Prod.ext rfl ?_⟩
        rw [(hl.extrair rfl).1, ht]

theorem comutar_iff {th : ℕ → Sthread} (h : Justo s.exeThr th) (hs : SacoRB s.exeThr) :
    (∃ s' r, s.comutar = .segue s' r) ↔ elementos s.exeThr ≠ [] := by
  rw [← h.extrai_iff hs, comutar]
  constructor
  · rintro ⟨s', r, he⟩
    split at he
    · exact ⟨_, _, ‹_›⟩
    · cases he
  · rintro ⟨a', t, he⟩
    rw [he]
    exact ⟨_, _, rfl⟩

/-! ## The calls -/

theorem not_segue (codigo : ℤ) : ¬∃ s' r, Resultado.termina codigo = .segue s' r := by
  rintro ⟨_, _, he⟩
  cases he

theorem sthreadUserExit_iff (h : Arrumado Justo s [s.activeThr]) (ret : ℕ) :
    (∃ s' r, sthreadUserExit s ret = .segue s' r) ↔
      elementos s.exeThr ≠ [] ∨ ∃ t ∈ s.joinThr, (s.thread t).joinTid = s.activeThr := by
  have hjoin : Arrumado Justo { s with joinThr := [] } (s.joinThr ++ [s.activeThr]) := by
    refine h.mover rfl h.sleep rfl rfl h.monitores h.calmo fun u => ?_
    simp only [count_fora, List.count_append, List.count_nil]
    omega
  obtain ⟨exe, th, hr, -⟩ := foldl_passoExit ret s.joinThr s [] true
  have hfold := hjoin.foldl_passoExit guarda_justo hr
  -- the tree and the join list hold together what they held before
  have hconta : ∀ u, (elementos exe).count u +
      (s.joinThr.filter fun t => (s.thread t).joinTid ≠ s.activeThr).count u =
      (elementos s.exeThr).count u + s.joinThr.count u := by
    intro u
    have hu := (hfold.conta u).trans (h.conta u).symm
    rw [count_fora, count_fora] at hu
    simp only [List.nil_append] at hu
    omega
  have hexe : elementos exe = [] ↔ elementos s.exeThr = [] ∧
      ∀ t ∈ s.joinThr, (s.thread t).joinTid ≠ s.activeThr := by
    constructor
    · intro hnil
      have hle : ∀ u, (elementos s.exeThr).count u = 0 ∧ s.joinThr.count u =
          (s.joinThr.filter fun t => (s.thread t).joinTid ≠ s.activeThr).count u := by
        intro u
        have hu := hconta u
        have hsub := (List.filter_sublist (l := s.joinThr)
          (p := fun t => (s.thread t).joinTid ≠ s.activeThr)).count_le u
        rw [hnil, List.count_nil] at hu
        omega
      refine ⟨List.eq_nil_iff_forall_not_mem.mpr fun u => List.count_eq_zero.mp (hle u).1,
        fun t ht => ?_⟩
      have hpos := List.count_pos_iff.mpr ht
      rw [(hle t).2] at hpos
      simpa using (List.mem_filter.mp (List.count_pos_iff.mp hpos)).2
    · rintro ⟨hnil, hall⟩
      refine List.eq_nil_iff_forall_not_mem.mpr fun u => List.count_eq_zero.mp ?_
      have hu := hconta u
      rw [List.filter_eq_self.mpr (by simpa using hall), hnil, List.count_nil] at hu
      omega
  have hiff : elementos exe ≠ [] ↔
      elementos s.exeThr ≠ [] ∨ ∃ t ∈ s.joinThr, (s.thread t).joinTid = s.activeThr := by
    rw [ne_eq, hexe, not_and_or]
    push Not
    rfl
  have hguarda : Justo exe th := hfold.guarda
  have hsaco : SacoRB exe := hfold.exe
  rw [← hiff, sthreadUserExit, hr]
  simp only
  cases hz : (true && s.joinThr.all fun t => decide ((s.thread t).joinTid ≠ s.activeThr)) with
  | false =>
      simp only [Bool.false_eq_true, if_false]
      split
      · rename_i hv
        exact iff_of_false (not_segue _) fun hne => hne (hsaco.vazia_iff.mp hv)
      · exact comutar_iff (s := Escalonador.parar _ s.activeThr .terminada) hguarda hsaco
  | true =>
      simp only [if_true]
      split
      · rename_i hv
        exact iff_of_false (not_segue _) fun hne => hne (hsaco.vazia_iff.mp hv)
      · exact comutar_iff (s := Escalonador.parar _ s.activeThr .terminada) hguarda hsaco

theorem sthreadUserSleep_iff (h : Arrumado Justo s [s.activeThr]) (time : ℤ) :
    (∃ s' r, sthreadUserSleep s time = .segue s' r) ↔
      (time.tdiv clockTick ≠ 0 → elementos s.exeThr ≠ []) := by
  rw [sthreadUserSleep]
  simp only
  split
  · rename_i hz
    exact iff_of_true ⟨_, _, rfl⟩ fun hne => absurd hz hne
  · rename_i hz
    rw [imp_iff_right hz]
    split
    · rename_i hv
      exact iff_of_false (not_segue _) fun hne => hne (h.exe.vazia_iff.mp hv)
    · exact comutar_iff (s := Escalonador.mk ..) h.guarda h.exe

theorem sthreadUserJoin_iff (h : Arrumado Justo s [s.activeThr]) (t : ℕ) :
    (∃ s' r, sthreadUserJoin s t = .segue s' r) ↔
      (t ∉ s.zombieThr → elementos s.exeThr ≠ []) := by
  rw [sthreadUserJoin]
  split
  · rename_i hz
    exact iff_of_true ⟨_, _, rfl⟩ fun hne => absurd hz hne
  · rename_i hz
    rw [imp_iff_right hz]
    simp only [Bool.or_true, Bool.true_or, if_true]
    exact comutar_iff (s := Escalonador.parar _ s.activeThr (.emJoin t)) h.guarda h.exe

theorem sthreadUserMutexLock_iff (h : Arrumado Justo s [s.activeThr]) (m : ℕ) :
    (∃ s' r, sthreadUserMutexLock s m = .segue s' r) ↔
      (Ocupado s m → elementos s.exeThr ≠ []) := by
  rw [sthreadUserMutexLock]
  split
  · rename_i hl
    refine iff_of_true ⟨_, _, rfl⟩ fun ho => ?_
    rw [ho.1] at hl
    exact absurd hl Bool.false_ne_true
  · rename_i hl
    split
    · rename_i hthr
      exact iff_of_true ⟨_, _, rfl⟩ fun ho => absurd hthr ho.2
    · rename_i u hthr
      have ho : Ocupado s m := ⟨Bool.not_eq_true _ ▸ hl, by rw [hthr]; exact Option.some_ne_none u⟩
      rw [imp_iff_right ho]
      exact comutar_iff (s := Escalonador.parar _ s.activeThr (.emLock m)) h.guarda h.exe

theorem sthreadUserMonitorWait_iff (h : Arrumado Justo s [s.activeThr]) {mon : ℕ}
    (hw : EsperaLimpa s mon) :
    (∃ s' r, sthreadUserMonitorWait s mon = .segue s' r) ↔
      ((s.mutex (s.monitor mon).mutex).thr = some s.activeThr →
        elementos s.exeThr ≠ [] ∨ (s.mutex (s.monitor mon).mutex).queue ≠ []) := by
  rw [sthreadUserMonitorWait]
  split
  · rename_i hthr
    exact iff_of_true ⟨_, _, rfl⟩ fun he => absurd he hthr
  · rename_i hthr
    obtain ⟨hl, hv⟩ := hw (not_not.mp hthr)
    rw [imp_iff_right (not_not.mp hthr)]
    let s₁ := s.mudarMonitor mon fun x => { x with queue := x.queue ++ [s.activeThr] }
    have hm₁ : (s₁.monitor mon).mutex = (s.monitor mon).mutex := by
      simp [s₁, Escalonador.mudarMonitor]
    rw [show sairEEsperar _ mon = sairEEsperar s₁ mon from rfl, sairEEsperar, hm₁]
    refine sthreadUserMutexUnlock_elim (P := fun res => sthreadUserMutexUnlock s₁
      (s.monitor mon).mutex (.emWaitUnlock mon) = res → _) s₁ (s.monitor mon).mutex
      (.emWaitUnlock mon) ?_ ?_ ?_ ?_ ?_ rfl
    · intro hne
      exact absurd (not_not.mp hthr) hne
    · intro _ hl'
      exact absurd (hl.symm.trans hl') Bool.false_ne_true
    · intro _ _ hq hres
      rw [hres, or_iff_left fun hne => hne hq]
      exact comutar_iff (s := Escalonador.parar _ s.activeThr (.emWait mon)) h.guarda h.exe
    · intro t fila _ _ hq hlt
      have hhead : t ∈ (s.mutex (s.monitor mon).mutex).queue.head? := by
        rw [show (s.mutex (s.monitor mon).mutex).queue = t :: fila from hq]
        rfl
      have hle : (s₁.thread s₁.activeThr).vruntime + s₁.porCobrar ≤ (s₁.thread t).vruntime :=
        hv t hhead
      omega
    · intro t fila _ _ hq _ hres
      have hq : (s.mutex (s.monitor mon).mutex).queue = t :: fila := hq
      have hne : (s.mutex (s.monitor mon).mutex).queue ≠ [] := by
        rw [hq]
        exact List.cons_ne_nil t fila
      let s₂ := ((s₁.mudarMutex (s.monitor mon).mutex
        fun lock => { lock with thr := some t, queue := fila }).rbInserir t).parar s.activeThr
          (.emWait mon)
      have hguarda : Justo s₂.exeThr s.thread := h.guarda.inserir
      have hsaco : SacoRB s₂.exeThr := (h.exe.inserir _ _ _).1
      rw [hres]
      exact iff_of_true ((comutar_iff hguarda hsaco).mpr (h.exe.inserir_cheia _ _ _)) (.inr hne)

theorem chamar_iff (h : Arrumado Justo s [s.activeThr]) {c : Chamada} (hl : Limpa s c)
    (hc : CedeCpu c) : (∃ s' r, chamar s c = .segue s' r) ↔ (Bloqueia s c → HaOutra s c) := by
  cases c with
  | exit ret =>
      refine (sthreadUserExit_iff h ret).trans ?_
      simp only [Bloqueia, HaOutra, true_imp_iff]
  | sleep time =>
      refine (sthreadUserSleep_iff h time).trans ?_
      simp only [Bloqueia, HaOutra, or_false]
  | join t =>
      refine (sthreadUserJoin_iff h t).trans ?_
      simp only [Bloqueia, HaOutra, or_false]
  | mutexLock m =>
      refine (sthreadUserMutexLock_iff h m).trans ?_
      simp only [Bloqueia, HaOutra, or_false]
  | monitorEnter mon =>
      refine (sthreadUserMutexLock_iff h (s.monitor mon).mutex).trans ?_
      simp only [Bloqueia, HaOutra, or_false]
  | monitorWait mon => exact sthreadUserMonitorWait_iff h hl
  | _ => exact absurd hc id

/-- In every run, a call that gives the processor up hands it to a live thread exactly when
another thread is executable. -/
theorem cpu_entregue (cs : List Chamada) (c : Chamada) (s : Escalonador) (os : List Resposta)
    (hP : Runs.Permitted passo (fun s c => Valida s c ∧ Limpa s c ∧ CriaSobreArvore s c)
      sthreadUserInit (cs ++ [c]))
    (hr : Runs.run passo sthreadUserInit cs = some (s, os))
    (hlivre : s.ponto s.activeThr = .livre) (hc : CedeCpu c) :
    (∃ s' r, executa s c = .segue s' r ∧ Viva s' s'.activeThr) ↔
      (Bloqueia s c → HaOutra s c) := by
  obtain ⟨hPs, hPc⟩ := Runs.permitted_of_append hP
  have hI := run_justo hPs hr
  have hp := (hPc s os hr).1
  have hchamar : executa s c = chamar s c := by
    unfold executa
    rw [hlivre]
  rw [← chamar_iff hI hp.2.1 hc, ← hchamar]
  constructor
  · rintro ⟨s', r, he, -⟩
    exact ⟨s', r, he⟩
  · rintro ⟨s', r, he⟩
    exact ⟨s', r, he, (passo_justo hI hp (passo_eq_some.mpr he)).arrumado.viva⟩

/-- The main thread sleeps, and thread 2 is executable. -/
theorem cpu_entregue_exemplo :
    ∃ s os, Runs.run passo sthreadUserInit [.create 1] = some (s, os) ∧
      ((∃ s' r, executa s (.sleep 50000) = .segue s' r ∧ Viva s' s'.activeThr) ↔
        (Bloqueia s (.sleep 50000) → HaOutra s (.sleep 50000))) :=
  ⟨_, _, rfl, cpu_entregue [.create 1] (.sleep 50000) _ _ (by decide) rfl rfl trivial⟩

/-- Thread 2 sleeps, and the main thread joins it: `active_thr` is `NULL`. -/
theorem cpu_perdida :
    ∃ s os, Runs.Permitted passo Valida sthreadUserInit
        ([.create 1, .yield, .sleep 50000] ++ [.join 2]) ∧
      Runs.run passo sthreadUserInit [.create 1, .yield, .sleep 50000] = some (s, os) ∧
      (s.ponto s.activeThr = .livre ∧ s.activeThr = 1 ∧ Viva s 2 ∧ 2 ∈ elementos s.sleepThr) ∧
      ¬∃ s' r, executa s (.join 2) = .segue s' r := by
  obtain ⟨s, os, hrun, hs, hno⟩ : ∃ s os,
      Runs.run passo sthreadUserInit [.create 1, .yield, .sleep 50000] = some (s, os) ∧
      (s.ponto s.activeThr = .livre ∧ s.activeThr = 1 ∧ Viva s 2 ∧ 2 ∈ elementos s.sleepThr) ∧
      (passo s (.join 2)).isNone = true :=
    Runs.exists_run_of_any (by decide)
  refine ⟨s, os, by decide, hrun, hs, ?_⟩
  rintro ⟨s', r, he⟩
  rw [passo_eq_some.mpr he] at hno
  cases hno

end ThreadScheduler.SthreadLib
