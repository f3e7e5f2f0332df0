import ThreadScheduler.SthreadLib.Scheduler

/-!
# What a tick does

The accounting of a tick changes the waiting and sleeping times and nothing else. The walk of the
sleep tree is a series of `acordarNo`.
-/
namespace ThreadScheduler.SthreadLib

open ArvoreRB Escalonador

variable {s s' : Escalonador}

/-- Two threads up to `waittime` and `sleeptime`. -/
def SoEsperas (th th' : Sthread) : Prop :=
  th' = { th with waittime := th'.waittime, sleeptime := th'.sleeptime }

theorem SoEsperas.trans {a b c : Sthread} (h : SoEsperas a b) (h' : SoEsperas b c) :
    SoEsperas a c := by
  rw [SoEsperas] at h h' ⊢
  rw [h', h]

/-- Only waiting and sleeping times change. -/
def SoTempos (s s' : Escalonador) : Prop :=
  s' = { s with thread := s'.thread } ∧ ∀ t, SoEsperas (s.thread t) (s'.thread t)

namespace SoTempos

theorem refl (s : Escalonador) : SoTempos s s := ⟨rfl, fun _ => rfl⟩

theorem trans {s'' : Escalonador} (h : SoTempos s s') (h' : SoTempos s' s'') :
    SoTempos s s'' := by
  refine ⟨?_, fun t => (h.2 t).trans (h'.2 t)⟩
  rw [h'.1, h.1]

theorem mudar (t : ℕ) {f : Sthread → Sthread} (hf : SoEsperas (s.thread t) (f (s.thread t))) :
    SoTempos s (s.mudar t f) := by
  refine ⟨rfl, fun u => ?_⟩
  simp only [Escalonador.mudar, Function.update_apply]
  split
  · rename_i he
    rw [he]
    exact hf
  · rfl

theorem foldl {β : Type*} {f : Escalonador → β → Escalonador} (hf : ∀ s b, SoTempos s (f s b))
    (bs : List β) (s : Escalonador) : SoTempos s (bs.foldl f s) := by
  induction bs generalizing s with
  | nil => exact refl s
  | cons b bs ih => exact (hf s b).trans (ih (f s b))

end SoTempos

theorem actualizarWaittime_soTempos (a : ArvoreRB ℕ) (n : ℕ) (s : Escalonador) (h : ℕ) :
    SoTempos s (actualizarWaittime a n s h) := by
  induction n generalizing s h with
  | zero => exact .refl s
  | succ n ih =>
      rw [actualizarWaittime]
      split
      · exact .refl s
      · refine (ih s (a.esq h)).trans (SoTempos.trans ?_ (ih _ (a.dir h)))
        cases a.elem h with
        | none => exact .refl _
        | some t => exact .mudar t rfl

theorem actualizarSleepTimeLista_soTempos (s : Escalonador) (lista : List ℕ) :
    SoTempos s (actualizarSleepTimeLista s lista) :=
  .foldl (fun _ t => .mudar t (f := fun th => { th with sleeptime := th.sleeptime + 1 }) rfl)
    lista s

theorem actualizarMutex_soTempos (s : Escalonador) : SoTempos s (actualizarMutex s) := by
  refine .foldl (fun s m => ?_) s.mutexList s
  refine .trans ?_ (actualizarSleepTimeLista_soTempos _ _)
  cases (s.mutex m).thr with
  | none => exact .refl s
  | some t => exact .mudar t rfl

theorem actualizarMonitores_soTempos (s : Escalonador) : SoTempos s (actualizarMonitores s) :=
  .foldl (fun s _ => actualizarSleepTimeLista_soTempos s _) s.monitorList s

/-- The active thread has run for one more tick. -/
def Escalonador.pulsar (s : Escalonador) : Escalonador :=
  s.mudar s.activeThr fun th =>
    { th with timesRunned := th.timesRunned + 1, exectime := th.exectime + 1 }

/-- The dispatcher counts the tick, wakes threads and yields or not. -/
theorem sthreadUserDispatcher_cases (s : Escalonador) :
    ∃ s₁, SoTempos s.pulsar s₁ ∧
      (acordarProcessos s₁.sleepThr.prox s₁ (s₁.sleepThr.esq raiz) = none ∧
        sthreadUserDispatcher s = .falha ∨
      ∃ s₂, acordarProcessos s₁.sleepThr.prox s₁ (s₁.sleepThr.esq raiz) = some s₂ ∧
        ((s₂.thread s₂.activeThr).vruntime + s₂.porCobrar ≥ rbMenorChave s₂.exeThr ∧
          sthreadUserDispatcher s =
            sthreadUserYield (s₂.parar s₂.activeThr (.noDespacho (s₂.ponto s₂.activeThr))) ∨
        (s₂.thread s₂.activeThr).vruntime + s₂.porCobrar < rbMenorChave s₂.exeThr ∧
          sthreadUserDispatcher s = .segue (fimDispatcher s₂) .nada)) := by
  let s₀ := actualizarWaittime s.exeThr s.exeThr.prox s.pulsar (s.exeThr.esq raiz)
  let s₁ := actualizarMonitores (actualizarMutex (actualizarJoinTime s₀))
  refine ⟨s₁, ?_, ?_⟩
  · have hwait : SoTempos s.pulsar s₀ := actualizarWaittime_soTempos _ _ _ _
    have hjoin := actualizarSleepTimeLista_soTempos s₀ s₀.joinThr
    refine hwait.trans (hjoin.trans ?_)
    exact (actualizarMutex_soTempos _).trans (actualizarMonitores_soTempos _)
  · generalize hr : sthreadUserDispatcher s = r
    rw [sthreadUserDispatcher] at hr
    split at hr
    · rename_i hac
      exact .inl ⟨hac, hr.symm⟩
    · rename_i s₂ hac
      refine .inr ⟨s₂, hac, ?_⟩
      split at hr
      · rename_i hk
        exact .inl ⟨hk, hr.symm⟩
      · rename_i hk
        exact .inr ⟨by omega, hr.symm⟩

/-- What one node of the sleep tree keeps, the walk keeps. -/
theorem acordarProcessos_invariant {P : Escalonador → Prop}
    (hno : ∀ s s' h, P s → acordarNo s h = some s' → P s') {n h : ℕ} (hs : P s)
    (he : acordarProcessos n s h = some s') : P s' := by
  induction n generalizing s h s' with
  | zero =>
      rw [acordarProcessos] at he
      split at he
      · obtain rfl := Option.some.inj he
        exact hs
      · cases he
  | succ n ih =>
      rw [acordarProcessos] at he
      split at he
      · obtain rfl := Option.some.inj he
        exact hs
      · obtain ⟨s₁, h₁, he⟩ := Option.bind_eq_some_iff.mp he
        obtain ⟨s₂, h₂, he⟩ := Option.bind_eq_some_iff.mp he
        exact ih (hno s₁ s₂ h (ih hs h₁) h₂) he

/-- A thread that wakes goes to the executable tree, another one sleeps on. -/
theorem acordarNo_cases {h : ℕ} (he : acordarNo s h = some s') :
    ∃ t, s.sleepThr.elem h = some t ∧
      ((0 ≤ (s.thread t).wakeTime ∧ (s.thread t).wakeTime ≤ s.clock) ∧
        s' = (({ s with sleepThr := rbRemoverNo (s.sleepThr.setElem h none) h }).mudar t
          fun th => { th with wakeTime := 0 }).rbInserir t ∨
      ¬(0 ≤ (s.thread t).wakeTime ∧ (s.thread t).wakeTime ≤ s.clock) ∧
        s' = s.mudar t fun th => { th with sleeptime := th.sleeptime + 1 }) := by
  rw [acordarNo] at he
  split at he
  · cases he
  · rename_i t ht
    refine ⟨t, ht, ?_⟩
    split at he
    · rename_i hw
      exact .inl ⟨hw, (Option.some.inj he).symm⟩
    · rename_i hw
      exact .inr ⟨hw, (Option.some.inj he).symm⟩

/-- The joiners of the active thread leave the join list. -/
theorem foldl_passoExit (ret : ℕ) (rem : List ℕ) (s : Escalonador) (tmp : List ℕ) (z : Bool) :
    ∃ exe th, rem.foldl (passoExit ret) (s, tmp, z) =
      ({ s with exeThr := exe, thread := th },
        tmp ++ rem.filter (fun t => (s.thread t).joinTid ≠ s.activeThr),
        z && rem.all fun t => (s.thread t).joinTid ≠ s.activeThr) ∧
      ∀ t, th t = if t ∈ rem ∧ (s.thread t).joinTid = s.activeThr
        then { s.thread t with joinRet := ret } else s.thread t := by
  induction rem generalizing s tmp z with
  | nil => exact ⟨s.exeThr, s.thread, by simp, fun t => by simp⟩
  | cons u rem ih =>
      by_cases hu : (s.thread u).joinTid = s.activeThr
      · let s₁ := (s.mudar u fun th => { th with joinRet := ret }).rbInserir u
        have htid : ∀ t, (s₁.thread t).joinTid = (s.thread t).joinTid := by
          intro t
          simp only [s₁, Escalonador.rbInserir, Escalonador.mudar, Function.update_apply]
          split
          · rename_i he
            rw [he]
          · rfl
        obtain ⟨exe, th, hfold, hth⟩ := ih s₁ tmp false
        have hstep : passoExit ret (s, tmp, z) u = (s₁, tmp, false) := if_pos hu
        refine ⟨exe, th, ?_, fun t => ?_⟩
        · rw [List.foldl_cons, hstep, hfold]
          simp only [htid]
          simp [s₁, Escalonador.rbInserir, Escalonador.mudar, hu]
        · rw [hth, htid]
          have hact : s₁.activeThr = s.activeThr := rfl
          rw [hact]
          by_cases htu : t = u
          · subst htu
            simp [s₁, Escalonador.rbInserir, Escalonador.mudar, hu]
          · simp [s₁, Escalonador.rbInserir, Escalonador.mudar, htu]
      · obtain ⟨exe, th, hfold, hth⟩ := ih s (tmp ++ [u]) z
        have hstep : passoExit ret (s, tmp, z) u = (s, tmp ++ [u], z) := if_neg hu
        refine ⟨exe, th, ?_, fun t => ?_⟩
        · rw [List.foldl_cons, hstep, hfold]
          simp [hu]
        · rw [hth]
          by_cases htu : t = u
          · subst htu
            simp [hu]
          · simp [htu]

/-- After an exit its thread is a zombie or dead, and its joiners have the value. -/
theorem sthreadUserExit_cases {ret : ℕ} {r : Resposta}
    (he : sthreadUserExit s ret = .segue s' r) :
    ∃ s₁ : Escalonador, s₁.comutar = .segue s' r ∧
      (s₁.joinThr = s.joinThr.filter fun t => (s.thread t).joinTid ≠ s.activeThr) ∧
      (∀ t ∈ s₁.zombieThr, t ∈ s.zombieThr ∨ t = s.activeThr) ∧ s₁.tidGen = s.tidGen ∧
      (s₁.clock = s.clock ∧ s₁.mutex = s.mutex) ∧
        s₁.ponto = Function.update s.ponto s.activeThr .terminada ∧
      ∀ t, s₁.thread t = if t ∈ s.joinThr ∧ (s.thread t).joinTid = s.activeThr
        then { s.thread t with joinRet := ret } else s.thread t := by
  obtain ⟨exe, th, hr, hth⟩ := foldl_passoExit ret s.joinThr s [] true
  rw [sthreadUserExit, hr] at he
  simp only at he
  cases hz : (true && s.joinThr.all fun t => decide ((s.thread t).joinTid ≠ s.activeThr)) with
  | false =>
      rw [hz] at he
      simp only [Bool.false_eq_true, if_false] at he
      split at he
      · cases he
      · exact ⟨_, he, rfl, fun t ht => .inl ht, rfl, ⟨rfl, rfl⟩, rfl, hth⟩
  | true =>
      rw [hz] at he
      simp only [if_true] at he
      split at he
      · cases he
      · refine ⟨_, he, rfl, fun t ht => ?_, rfl, ⟨rfl, rfl⟩, rfl, hth⟩
        exact (List.mem_append.mp ht).imp_right List.mem_singleton.mp

end ThreadScheduler.SthreadLib
