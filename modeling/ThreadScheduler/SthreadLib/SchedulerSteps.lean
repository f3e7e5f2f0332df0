import ThreadScheduler.SthreadLib.SchedulerPlaces
import ThreadScheduler.SthreadLib.SchedulerTicks

/-!
# Every call keeps the places

One theorem for each call. A call that blocks ends in `comutar`, from a state in which no thread is
active; `Chega` remembers that state.
-/
namespace ThreadScheduler.SthreadLib

open ArvoreRB Escalonador

variable {J : ArvoreRB ℕ → (ℕ → Sthread) → Prop} {podeCriar : ArvoreRB ℕ → Prop}
  {s s' : Escalonador} {r : Resposta}

/-- The state after a call. A thread of the executable tree has been chosen in a state in which
all others are there as well. -/
structure Chega (J : ArvoreRB ℕ → (ℕ → Sthread) → Prop) (s' : Escalonador) (r : Resposta) :
    Prop where
  arrumado : Arrumado J s' [s'.activeThr]
  escolha : ∀ no, r = .trocou no → ∃ s, Arrumado J s [] ∧ s.comutar = .segue s' r

theorem Chega.fica (h : Arrumado J s' [s'.activeThr]) (hr : ∀ no, r ≠ .trocou no) : Chega J s' r :=
  ⟨h, fun no he => absurd he (hr no)⟩

theorem Chega.troca (hJ : Guarda J podeCriar) (h : Arrumado J s [])
    (hc : s.comutar = .segue s' r) : Chega J s' r :=
  ⟨h.comutar hJ hc, fun _ _ => ⟨s, h, hc⟩⟩

namespace Arrumado

variable {l : List ℕ} {t : ℕ}

/-- The threads of `l` have been created. -/
theorem criada (h : Arrumado J s (t :: l)) : 0 < t ∧ t < s.tidGen := by
  have ht := h.conta t
  rw [List.count_cons_self] at ht
  split at ht
  · assumption
  · omega

theorem criar (hJ : Guarda J podeCriar) (h : Arrumado J s (t :: l)) (hc : podeCriar s.exeThr)
    {p : ℤ} (hp : 0 ≤ p) :
    Arrumado J { s with
      tidGen := s.tidGen + 1
      thread := Function.update s.thread s.tidGen
        { novaSthread with vruntime := rbMenorChave s.exeThr, priority := p } }
      (s.tidGen :: t :: l) := by
  have hpos := h.criada
  have hnew : (fora s).count s.tidGen = 0 := by
    have hc := h.conta s.tidGen
    rw [if_neg (by omega)] at hc
    omega
  have hnot : s.tidGen ∉ elementos s.exeThr := by
    intro hm
    have := List.count_pos_iff.mpr hm
    rw [count_fora] at hnew
    omega
  refine ⟨h.exe, h.sleep, hJ.criar h.guarda hnot hc hp, fun u => ?_, h.monitores, h.calmo⟩
  have hu := h.conta u
  have hfora : (fora { s with
      tidGen := s.tidGen + 1
      thread := Function.update s.thread s.tidGen
        { novaSthread with vruntime := rbMenorChave s.exeThr, priority := p } }).count u =
      (fora s).count u := rfl
  rw [hfora, List.count_cons]
  by_cases hut : u = s.tidGen
  · subst hut
    simp only [BEq.rfl, if_true]
    rw [if_neg (by omega)] at hu
    rw [if_pos (by omega)]
    omega
  · have hne : (s.tidGen == u) = false := by simpa using fun he => hut he.symm
    rw [hne, if_neg Bool.false_ne_true, Nat.add_zero, hu]
    show (if 0 < u ∧ u < s.tidGen then 1 else 0) = if 0 < u ∧ u < s.tidGen + 1 then 1 else 0
    exact if_congr (by omega) rfl rfl

theorem soTempos (hJ : Guarda J podeCriar) (h : Arrumado J s l) (hs : SoTempos s s') :
    Arrumado J s' l := by
  rw [hs.1]
  refine h.contas hJ fun t => ?_
  rw [hs.2 t]
  exact ⟨rfl, id⟩

theorem acordarNo (hJ : Guarda J podeCriar) {z : ℕ} (h : Arrumado J s l)
    (he : SthreadLib.acordarNo s z = some s') : Arrumado J s' l := by
  obtain ⟨t, ht, ⟨-, rfl⟩ | ⟨-, rfl⟩⟩ := acordarNo_cases he
  · exact ((h.acordar ht).mudar hJ ⟨rfl, id⟩).rbInserir hJ
  · exact h.mudar hJ ⟨rfl, id⟩

theorem fimDispatcher (hJ : Guarda J podeCriar) (h : Arrumado J s [s.activeThr]) :
    Arrumado J (fimDispatcher s) [(fimDispatcher s).activeThr] := by
  rw [SthreadLib.fimDispatcher]
  split
  · exact h.relogio
  · exact (h.relogio.cobrar hJ)

/-- The joiners of the active thread are in the executable tree, the others in the list. -/
theorem foldl_passoExit (hJ : Guarda J podeCriar) {ret : ℕ} {rem tmp tmp' : List ℕ} {z z' : Bool}
    (h : Arrumado J { s with joinThr := tmp } (rem ++ l))
    (he : rem.foldl (passoExit ret) (s, tmp, z) = (s', tmp', z')) :
    Arrumado J { s' with joinThr := tmp' } l := by
  induction rem generalizing s tmp z with
  | nil =>
      simp only [List.foldl_nil, Prod.mk.injEq] at he
      obtain ⟨rfl, rfl, -⟩ := he
      exact h
  | cons t rem ih =>
      rw [List.foldl_cons] at he
      by_cases ht : (s.thread t).joinTid = s.activeThr
      · rw [show passoExit ret (s, tmp, z) t =
          ((s.mudar t fun th => { th with joinRet := ret }).rbInserir t, tmp, false) from
            if_pos ht] at he
        have hmudar := h.mudar hJ (t := t) (f := fun th => { th with joinRet := ret }) ⟨rfl, id⟩
        exact ih (hmudar.rbInserir hJ) he
      · rw [show passoExit ret (s, tmp, z) t = (s, tmp ++ [t], z) from if_neg ht] at he
        have hj : Arrumado J { s with joinThr := tmp ++ [t] } (rem ++ l) := h.juntar
        exact ih hj he

end Arrumado

/-! ## Creation and scheduling -/

theorem sthreadUserCreate_chega (hJ : Guarda J podeCriar) (h : Arrumado J s [s.activeThr])
    (hc : podeCriar s.exeThr) {p : ℤ} (he : sthreadUserCreate s p = .segue s' r) :
    Chega J s' r := by
  obtain ⟨rfl, rfl⟩ := Resultado.segue.inj he
  have hp : (0 : ℤ) ≤ if p > 10 then 10 else if p < 1 then 1 else p := by
    split
    · decide
    · split <;> omega
  exact .fica (((h.criar hJ hc hp).parar s.tidGen .livre trivial).rbInserir hJ)
    (fun no => Resposta.noConfusion)

theorem sthreadUserExit_chega (hJ : Guarda J podeCriar) (h : Arrumado J s [s.activeThr])
    {ret : ℕ} (he : sthreadUserExit s ret = .segue s' r) : Chega J s' r := by
  have hjoin : Arrumado J { s with joinThr := [] } (s.joinThr ++ [s.activeThr]) := by
    refine h.mover rfl h.sleep rfl rfl h.monitores h.calmo fun u => ?_
    simp only [count_fora, List.count_append, List.count_nil]
    omega
  rw [sthreadUserExit] at he
  rcases hr : s.joinThr.foldl (passoExit ret) (s, [], true) with ⟨s₁, tmp, z⟩
  have hfold := hjoin.foldl_passoExit hJ hr
  have hact : s₁.activeThr = s.activeThr := by
    obtain ⟨exe, th, hr', -⟩ := foldl_passoExit ret s.joinThr s [] true
    rw [hr] at hr'
    rw [(Prod.mk.inj hr').1]
  rw [hr] at he
  simp only [hact] at he
  cases z with
  | false =>
      simp only [Bool.false_eq_true, if_false] at he
      split at he
      · cases he
      · exact .troca hJ (hfold.morrer.parar _ .terminada trivial) he
  | true =>
      simp only [if_true] at he
      split at he
      · cases he
      · exact .troca hJ (hfold.zombie.parar _ .terminada trivial) he

theorem sthreadUserYield_chega (hJ : Guarda J podeCriar) (h : Arrumado J s [s.activeThr])
    (he : sthreadUserYield s = .segue s' r) : Chega J s' r :=
  .troca hJ (h.rbInserir hJ) he

theorem sthreadUserDispatcher_chega (hJ : Guarda J podeCriar) (h : Arrumado J s [s.activeThr])
    (he : sthreadUserDispatcher s = .segue s' r) : Chega J s' r := by
  have hpulso : Arrumado J s.pulsar [s.activeThr] := by
    refine h.mudar hJ ⟨rfl, fun hth => ⟨hth.1, hth.2.1, ?_⟩⟩
    have := hth.2.2
    simp only
    omega
  obtain ⟨s₁, hs₁, ⟨-, hf⟩ | ⟨s₂, hac, hfim⟩⟩ := sthreadUserDispatcher_cases s
  · rw [hf] at he
    cases he
  · have h₁ : Arrumado J s₁ [s.activeThr] := hpulso.soTempos hJ hs₁
    have hact : s₁.activeThr = s.activeThr := by
      rw [hs₁.1]
      rfl
    have h₂ : Arrumado J s₂ [s₂.activeThr] := by
      rw [← hact] at h₁
      refine acordarProcessos_invariant (P := fun s => Arrumado J s [s.activeThr])
        (fun a b z ha hb => ?_) h₁ hac
      have hab : b.activeThr = a.activeThr := by
        obtain ⟨t, -, ⟨-, rfl⟩ | ⟨-, rfl⟩⟩ := acordarNo_cases hb <;> rfl
      rw [hab]
      exact ha.acordarNo hJ hb
    obtain ⟨-, hy⟩ | ⟨-, hy⟩ := hfim
    · rw [hy] at he
      exact sthreadUserYield_chega hJ (h₂.parar _ (.noDespacho (s₂.ponto s₂.activeThr))
        (h₂.calmo _)) he
    · rw [hy] at he
      obtain ⟨rfl, rfl⟩ := Resultado.segue.inj he
      exact .fica (h₂.fimDispatcher hJ) (fun no => Resposta.noConfusion)

/-! ## Join and sleep -/

theorem sthreadUserJoin_chega (hJ : Guarda J podeCriar) (h : Arrumado J s [s.activeThr])
    {t : ℕ} (he : sthreadUserJoin s t = .segue s' r) : Chega J s' r := by
  rw [sthreadUserJoin] at he
  split at he
  · obtain ⟨rfl, rfl⟩ := Resultado.segue.inj he
    refine .fica (h.mover rfl h.sleep rfl rfl h.monitores h.calmo fun u => ?_)
      (fun no => Resposta.noConfusion)
    have hpart := (List.filter_append_perm (fun z => decide (z = t)) s.zombieThr).count_eq u
    simp only [count_fora, List.count_append, decide_not] at hpart ⊢
    omega
  · simp only at he
    split at he
    · exact .troca hJ (((h.mudar hJ ⟨rfl, id⟩).juntar).parar _ (.emJoin t) trivial) he
    · obtain ⟨rfl, rfl⟩ := Resultado.segue.inj he
      exact .fica h (fun no => Resposta.noConfusion)

theorem sthreadUserSleep_chega (hJ : Guarda J podeCriar) (h : Arrumado J s [s.activeThr])
    {time : ℤ} (he : sthreadUserSleep s time = .segue s' r) : Chega J s' r := by
  rw [sthreadUserSleep] at he
  simp only at he
  split at he
  · obtain ⟨rfl, rfl⟩ := Resultado.segue.inj he
    exact .fica h (fun no => Resposta.noConfusion)
  · split at he
    · cases he
    · exact .troca hJ ((h.mudar hJ ⟨rfl, id⟩).adormecer _ _) he

theorem sthreadNice_chega (hJ : Guarda J podeCriar) (h : Arrumado J s [s.activeThr])
    {nice : ℤ} (he : sthreadNice s nice = .segue s' r) : Chega J s' r := by
  obtain ⟨rfl, rfl⟩ := Resultado.segue.inj he
  refine .fica (h.mudar hJ ⟨rfl, fun hth => ⟨?_, hth.2⟩⟩) (fun no => Resposta.noConfusion)
  simp only
  split
  · decide
  · split <;> omega

/-! ## Mutexes -/

theorem Arrumado.novoMutex {l : List ℕ} (h : Arrumado J s l) (idMonitor : ℤ) :
    Arrumado J (SthreadLib.novoMutex s idMonitor) l := by
  have hfilas : emFilas s.mutexIdGen (fun m => ((SthreadLib.novoMutex s idMonitor).mutex m).queue) =
      emFilas s.mutexIdGen fun m => (s.mutex m).queue := by
    refine emFilas_congr fun m hm => ?_
    simp only [SthreadLib.novoMutex, Function.update_of_ne (Nat.ne_of_lt hm)]
  refine h.mover rfl h.sleep rfl rfl (fun mon hmon => ?_) h.calmo fun u => ?_
  · exact Nat.lt_succ_of_lt (h.monitores mon hmon)
  · have hid : (SthreadLib.novoMutex s idMonitor).mutexIdGen = s.mutexIdGen + 1 := rfl
    rw [count_fora, count_fora, hid, emFilas_succ, hfilas]
    simp [SthreadLib.novoMutex]

theorem sthreadUserMutexLock_chega (hJ : Guarda J podeCriar) (h : Arrumado J s [s.activeThr])
    {m : ℕ} (hm : m < s.mutexIdGen) (he : sthreadUserMutexLock s m = .segue s' r) :
    Chega J s' r := by
  rw [sthreadUserMutexLock] at he
  split at he
  · obtain ⟨rfl, rfl⟩ := Resultado.segue.inj he
    exact .fica h (fun no => Resposta.noConfusion)
  · split at he
    · obtain ⟨rfl, rfl⟩ := Resultado.segue.inj he
      exact .fica (h.mudarTrinco m _ rfl) (fun no => Resposta.noConfusion)
    · refine .troca hJ (Arrumado.parar ?_ s.activeThr (.emLock m) trivial) he
      refine h.mudarMutex hm _ fun u => ?_
      simp only [List.count_append, List.count_nil]
      omega

/-- What an unlock does: nothing for a thread that is not the owner, a wait for the spin flag, or
the mutex is free or goes to the first thread of its queue. -/
theorem sthreadUserMutexUnlock_elim {P : Resultado → Prop} (s : Escalonador) (m : ℕ)
    (depois : Ponto) (alheio : (s.mutex m).thr ≠ some s.activeThr → P (.segue s .nada))
    (gira : (s.mutex m).thr = some s.activeThr → (s.mutex m).l = true → P (.segue s .gira))
    (livre : (s.mutex m).thr = some s.activeThr → (s.mutex m).l = false →
      (s.mutex m).queue = [] →
      P (.segue (s.mudarMutex m fun lock => { lock with thr := none }) .nada))
    (entrega : ∀ t fila, (s.mutex m).thr = some s.activeThr → (s.mutex m).l = false →
      (s.mutex m).queue = t :: fila →
      (s.thread t).vruntime < (s.thread s.activeThr).vruntime + s.porCobrar →
      P (.segue { (((((s.mudarMutex m fun lock => { lock with thr := some t, queue := fila }).mudar
        s.activeThr Sthread.cobrada).rbInserir s.activeThr).parar s.activeThr depois).mudarMutex m
          fun lock => { lock with l := true }) with activeThr := t } (.entregou t)))
    (insere : ∀ t fila, (s.mutex m).thr = some s.activeThr → (s.mutex m).l = false →
      (s.mutex m).queue = t :: fila →
      (s.thread s.activeThr).vruntime + s.porCobrar ≤ (s.thread t).vruntime →
      P (.segue ((s.mudarMutex m fun lock => { lock with thr := some t, queue := fila }).rbInserir
        t) .nada)) :
    P (sthreadUserMutexUnlock s m depois) := by
  rw [sthreadUserMutexUnlock]
  split
  · rename_i hthr
    exact alheio hthr
  · rename_i hthr
    have howner : (s.mutex m).thr = some s.activeThr := not_not.mp hthr
    split
    · rename_i hl
      exact gira howner hl
    · rename_i hl
      have hl : (s.mutex m).l = false := Bool.not_eq_true _ ▸ hl
      split
      · rename_i hq
        exact livre howner hl hq
      · rename_i t fila hq
        simp only
        split
        · rename_i hv
          exact entrega t fila howner hl hq hv
        · rename_i hv
          exact insere t fila howner hl hq (Int.not_lt.mp hv)

theorem sthreadUserMutexUnlock_chega (hJ : Guarda J podeCriar) (h : Arrumado J s [s.activeThr])
    {m : ℕ} (hm : m < s.mutexIdGen) {depois : Ponto} (hd : depois.calmo)
    (he : sthreadUserMutexUnlock s m depois = .segue s' r) : Chega J s' r := by
  revert he
  refine sthreadUserMutexUnlock_elim (P := fun res => res = .segue s' r → Chega J s' r) s m depois
    ?_ ?_ ?_ ?_ ?_
  · intro _ he
    obtain ⟨rfl, rfl⟩ := Resultado.segue.inj he
    exact .fica h (fun no => Resposta.noConfusion)
  · intro _ _ he
    obtain ⟨rfl, rfl⟩ := Resultado.segue.inj he
    exact .fica h (fun no => Resposta.noConfusion)
  · intro _ _ _ he
    obtain ⟨rfl, rfl⟩ := Resultado.segue.inj he
    exact .fica (h.mudarTrinco m _ rfl) (fun no => Resposta.noConfusion)
  · intro t fila _ _ hq _ he
    obtain ⟨rfl, rfl⟩ := Resultado.segue.inj he
    have hfila : Arrumado J (s.mudarMutex m fun lock => { lock with thr := some t, queue := fila })
        [s.activeThr, t] := by
      refine h.mudarMutex hm _ fun u => ?_
      simp only [hq, List.count_cons, List.count_nil]
      omega
    have hins := ((hfila.cobrar hJ).rbInserir hJ).parar s.activeThr depois hd
    have hflag := hins.mudarTrinco m (fun lock => { lock with l := true }) rfl
    exact .fica (hflag.mover rfl hflag.sleep rfl rfl hflag.monitores hflag.calmo fun u => rfl)
      (fun no => Resposta.noConfusion)
  · intro t fila _ _ hq _ he
    obtain ⟨rfl, rfl⟩ := Resultado.segue.inj he
    have hfila : Arrumado J (s.mudarMutex m fun lock => { lock with thr := some t, queue := fila })
        [t, s.activeThr] := by
      refine h.mudarMutex hm _ fun u => ?_
      simp only [hq, List.count_cons, List.count_nil]
      omega
    exact .fica (hfila.rbInserir hJ) (fun no => Resposta.noConfusion)

/-! ## Monitors -/

theorem sthreadUserMonitorInit_chega (h : Arrumado J s [s.activeThr])
    (he : sthreadUserMonitorInit s = .segue s' r) : Chega J s' r := by
  obtain ⟨rfl, rfl⟩ := Resultado.segue.inj he
  have hmutex := h.novoMutex s.monitorIdGen
  have hfilas : ∀ x : SthreadMon, emFilas s.monitorIdGen
      (fun mon => (Function.update s.monitor s.monitorIdGen x mon).queue) =
      emFilas s.monitorIdGen fun mon => (s.monitor mon).queue := by
    intro x
    refine emFilas_congr fun mon hmon => ?_
    rw [Function.update_of_ne (Nat.ne_of_lt hmon)]
  refine .fica (hmutex.mover rfl h.sleep rfl rfl (fun mon hmon => ?_) h.calmo fun u => ?_)
    (fun no => Resposta.noConfusion)
  · simp only [Function.update_apply]
    split
    · exact Nat.lt_succ_self s.mutexIdGen
    · rename_i hne
      have hlt : mon < s.monitorIdGen + 1 := hmon
      exact hmutex.monitores mon (by simp only [SthreadLib.novoMutex]; omega)
  · simp only [count_fora, SthreadLib.novoMutex, emFilas_succ, hfilas]
    simp

/-- In `monitor_wait`, the unlock ends at once and does not switch to the next owner. -/
def EsperaLimpa (s : Escalonador) (mon : ℕ) : Prop :=
  (s.mutex (s.monitor mon).mutex).thr = some s.activeThr →
    (s.mutex (s.monitor mon).mutex).l = false ∧
    ∀ t ∈ (s.mutex (s.monitor mon).mutex).queue.head?,
      (s.thread s.activeThr).vruntime + s.porCobrar ≤ (s.thread t).vruntime

theorem sthreadUserMonitorWait_chega (hJ : Guarda J podeCriar) (h : Arrumado J s [s.activeThr])
    {mon : ℕ} (hmon : mon < s.monitorIdGen) (hw : EsperaLimpa s mon)
    (he : sthreadUserMonitorWait s mon = .segue s' r) : Chega J s' r := by
  rw [sthreadUserMonitorWait] at he
  split at he
  · obtain ⟨rfl, rfl⟩ := Resultado.segue.inj he
    exact .fica h (fun no => Resposta.noConfusion)
  · rename_i hthr
    obtain ⟨hl, hv⟩ := hw (not_not.mp hthr)
    let s₁ := s.mudarMonitor mon fun x => { x with queue := x.queue ++ [s.activeThr] }
    have hm₁ : (s₁.monitor mon).mutex = (s.monitor mon).mutex := by
      simp [s₁, Escalonador.mudarMonitor]
    have h₁ : Arrumado J s₁ [] := by
      refine h.mudarMonitor hmon _ rfl fun u => ?_
      simp only [List.count_append, List.count_nil]
      omega
    have hm : (s.monitor mon).mutex < s.mutexIdGen := h.monitores mon hmon
    rw [show sairEEsperar _ mon = sairEEsperar s₁ mon from rfl, sairEEsperar, hm₁] at he
    refine sthreadUserMutexUnlock_elim (P := fun res => sthreadUserMutexUnlock s₁
      (s.monitor mon).mutex (.emWaitUnlock mon) = res → Chega J s' r) s₁ (s.monitor mon).mutex
      (.emWaitUnlock mon) ?_ ?_ ?_ ?_ ?_ rfl
    · intro hne
      exact absurd (not_not.mp hthr) hne
    · intro _ hl'
      exact absurd (hl.symm.trans hl') Bool.false_ne_true
    · intro _ _ _ hres
      rw [hres] at he
      have hfree := h₁.mudarTrinco (s.monitor mon).mutex (fun lock => { lock with thr := none }) rfl
      exact .troca hJ (hfree.parar _ (.emWait mon) trivial) he
    · intro t fila _ _ hq hlt
      have hhead : t ∈ (s.mutex (s.monitor mon).mutex).queue.head? := by
        rw [show (s.mutex (s.monitor mon).mutex).queue = t :: fila from hq]
        rfl
      have hle : (s₁.thread s₁.activeThr).vruntime + s₁.porCobrar ≤ (s₁.thread t).vruntime :=
        hv t hhead
      omega
    · intro t fila _ _ hq _ hres
      rw [hres] at he
      have hfila : Arrumado J (s₁.mudarMutex (s.monitor mon).mutex
          fun lock => { lock with thr := some t, queue := fila }) [t] := by
        refine h₁.mudarMutex hm _ fun u => ?_
        simp only [hq, List.count_cons, List.count_nil]
        omega
      exact .troca hJ ((hfila.rbInserir hJ).parar _ (.emWait mon) trivial) he

theorem sthreadUserMonitorSignal_chega (h : Arrumado J s [s.activeThr]) {mon : ℕ}
    (hmon : mon < s.monitorIdGen) (he : sthreadUserMonitorSignal s mon = .segue s' r) :
    Chega J s' r := by
  have hm := h.monitores mon hmon
  rw [sthreadUserMonitorSignal] at he
  simp only at he
  split at he
  · obtain ⟨rfl, rfl⟩ := Resultado.segue.inj he
    exact .fica h (fun no => Resposta.noConfusion)
  · split at he
    · obtain ⟨rfl, rfl⟩ := Resultado.segue.inj he
      exact .fica h (fun no => Resposta.noConfusion)
    · split at he
      · obtain ⟨rfl, rfl⟩ := Resultado.segue.inj he
        exact .fica h (fun no => Resposta.noConfusion)
      · rename_i t fila hq
        obtain ⟨rfl, rfl⟩ := Resultado.segue.inj he
        have hout : Arrumado J (s.mudarMonitor mon fun x => { x with queue := fila })
            [t, s.activeThr] := by
          refine h.mudarMonitor hmon _ rfl fun u => ?_
          simp only [hq, List.count_cons, List.count_nil]
          omega
        refine .fica (hout.mudarMutex hm _ fun u => ?_) (fun no => Resposta.noConfusion)
        simp only [List.count_append, List.count_cons, List.count_nil, Escalonador.mudarMutex,
          Escalonador.mudarMonitor]
        omega

theorem sthreadUserMonitorSignalall_chega (h : Arrumado J s [s.activeThr]) {mon : ℕ}
    (hmon : mon < s.monitorIdGen) (he : sthreadUserMonitorSignalall s mon = .segue s' r) :
    Chega J s' r := by
  have hm := h.monitores mon hmon
  rw [sthreadUserMonitorSignalall] at he
  simp only at he
  split at he
  · obtain ⟨rfl, rfl⟩ := Resultado.segue.inj he
    exact .fica h (fun no => Resposta.noConfusion)
  · split at he
    · obtain ⟨rfl, rfl⟩ := Resultado.segue.inj he
      exact .fica h (fun no => Resposta.noConfusion)
    · obtain ⟨rfl, rfl⟩ := Resultado.segue.inj he
      have hout : Arrumado J (s.mudarMonitor mon fun x => { x with queue := [] })
          ((s.monitor mon).queue ++ [s.activeThr]) := by
        refine h.mudarMonitor hmon _ rfl fun u => ?_
        simp only [List.count_append, List.count_nil]
        omega
      refine .fica (hout.mudarMutex hm _ fun u => ?_) (fun no => Resposta.noConfusion)
      simp only [List.count_append, Escalonador.mudarMutex, Escalonador.mudarMonitor]
      omega

end ThreadScheduler.SthreadLib
