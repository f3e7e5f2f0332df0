import ThreadScheduler.SthreadLib.SchedulerRuns

/-!
# What a join delivers

`exit` stores its value in the thread that waits, and `join` reads the field of the thread that
has ended. A thread that has ended stays so, and its `join_ret` is what it was when it ended.
-/
namespace ThreadScheduler.SthreadLib

open ArvoreRB Escalonador

variable {s s' s'' : Escalonador} {r : Resposta} {t : ℕ}

/-! ## Calls that are not about joins -/

/-- The joins and the points of the threads stay. -/
structure Mesma (s s' : Escalonador) : Prop where
  joinThr : s'.joinThr = s.joinThr
  zombieThr : s'.zombieThr = s.zombieThr
  tidGen : s'.tidGen = s.tidGen
  ponto : s'.ponto = s.ponto
  joinTid : ∀ t, (s'.thread t).joinTid = (s.thread t).joinTid
  joinRet : ∀ t, (s'.thread t).joinRet = (s.thread t).joinRet

namespace Mesma

theorem refl (s : Escalonador) : Mesma s s := ⟨rfl, rfl, rfl, rfl, fun _ => rfl, fun _ => rfl⟩

theorem trans (h : Mesma s s') (h' : Mesma s' s'') : Mesma s s'' :=
  ⟨h'.joinThr.trans h.joinThr, h'.zombieThr.trans h.zombieThr, h'.tidGen.trans h.tidGen,
    h'.ponto.trans h.ponto, fun t => (h'.joinTid t).trans (h.joinTid t),
    fun t => (h'.joinRet t).trans (h.joinRet t)⟩

theorem contas {th : ℕ → Sthread} (hjoinTid : ∀ t, (th t).joinTid = (s.thread t).joinTid)
    (hjoinRet : ∀ t, (th t).joinRet = (s.thread t).joinRet) : Mesma s { s with thread := th } :=
  ⟨rfl, rfl, rfl, rfl, hjoinTid, hjoinRet⟩

theorem soTempos (h : SoTempos s s') : Mesma s s' := by
  rw [h.1]
  refine .contas (fun t => ?_) fun t => ?_
  · rw [h.2 t]
  · rw [h.2 t]

/-- The change of a mutex or a monitor, or a thread that becomes executable. -/
theorem outro (hjoinThr : s'.joinThr = s.joinThr) (hzombie : s'.zombieThr = s.zombieThr)
    (htid : s'.tidGen = s.tidGen) (hponto : s'.ponto = s.ponto) (hthread : s'.thread = s.thread) :
    Mesma s s' :=
  ⟨hjoinThr, hzombie, htid, hponto, fun _ => by rw [hthread], fun _ => by rw [hthread]⟩

/-- One thread changes as well. -/
theorem um {x : Sthread} (hthread : s'.thread = Function.update s.thread t x)
    (hjoinTid : x.joinTid = (s.thread t).joinTid) (hjoinRet : x.joinRet = (s.thread t).joinRet)
    (hjoinThr : s'.joinThr = s.joinThr) (hzombie : s'.zombieThr = s.zombieThr)
    (htid : s'.tidGen = s.tidGen) (hponto : s'.ponto = s.ponto) : Mesma s s' := by
  refine ⟨hjoinThr, hzombie, htid, hponto, fun u => ?_, fun u => ?_⟩
  · rw [hthread, Function.update_apply]
    split
    · rename_i he
      rw [hjoinTid, he]
    · rfl
  · rw [hthread, Function.update_apply]
    split
    · rename_i he
      rw [hjoinRet, he]
    · rfl

theorem comutar (he : s.comutar = .segue s' r) : Mesma s s' := by
  rw [Escalonador.comutar] at he
  split at he
  · obtain ⟨rfl, -⟩ := Resultado.segue.inj he
    exact .outro rfl rfl rfl rfl rfl
  · cases he

theorem fimDispatcher : Mesma s (fimDispatcher s) := by
  rw [SthreadLib.fimDispatcher]
  split
  · exact .outro rfl rfl rfl rfl rfl
  · exact .um rfl rfl rfl rfl rfl rfl rfl

theorem acordarNo {z : ℕ} (he : acordarNo s z = some s') : Mesma s s' := by
  obtain ⟨t, -, ⟨-, rfl⟩ | ⟨-, rfl⟩⟩ := acordarNo_cases he
  · exact .um rfl rfl rfl rfl rfl rfl rfl
  · exact .um rfl rfl rfl rfl rfl rfl rfl

end Mesma

/-- Not in a join and not at the end. -/
def Ponto.sossegado : Ponto → Prop
  | .emJoin _ => False
  | .terminada => False
  | .noDespacho antes => antes = .livre
  | _ => True

/-- Not the return of a join. -/
def Resposta.semJuncao : Resposta → Prop
  | .juntou _ _ _ => False
  | _ => True

/-- The call is not about joins: of the points, only that of the active thread changes. -/
structure Alheia (s s' : Escalonador) (r : Resposta) : Prop where
  resposta : r.semJuncao
  estado : Mesma s s' ∨ ∃ p : Ponto, p.sossegado ∧ Mesma (s.parar s.activeThr p) s'

namespace Alheia

theorem fica (h : Mesma s s') (hr : r.semJuncao) : Alheia s s' r := ⟨hr, .inl h⟩

theorem parar {p : Ponto} (hp : p.sossegado) (h : Mesma (s.parar s.activeThr p) s')
    (hr : r.semJuncao) : Alheia s s' r :=
  ⟨hr, .inr ⟨p, hp, h⟩⟩

theorem comutar_semJuncao (he : s.comutar = .segue s' r) : r.semJuncao := by
  rw [Escalonador.comutar] at he
  split at he
  · obtain ⟨-, rfl⟩ := Resultado.segue.inj he
    trivial
  · cases he

theorem troca (he : s'.comutar = .segue s'' r) (h : Mesma s s') : Alheia s s'' r :=
  .fica (h.trans (.comutar he)) (comutar_semJuncao he)

theorem pararTroca {p : Ponto} (hp : p.sossegado) (he : s'.comutar = .segue s'' r)
    (h : Mesma (s.parar s.activeThr p) s') : Alheia s s'' r :=
  .parar hp (h.trans (.comutar he)) (comutar_semJuncao he)

end Alheia

theorem sthreadUserYield_alheia (he : sthreadUserYield s = .segue s' r) : Alheia s s' r :=
  .troca he (.outro rfl rfl rfl rfl rfl)

theorem sthreadUserDispatcher_alheia (hp : s.ponto s.activeThr = .livre)
    (he : sthreadUserDispatcher s = .segue s' r) : Alheia s s' r := by
  obtain ⟨s₁, hs₁, ⟨-, hf⟩ | ⟨s₂, hac, hfim⟩⟩ := sthreadUserDispatcher_cases s
  · rw [hf] at he
    cases he
  · have h₁ : Mesma s s₁ ∧ s₁.activeThr = s.activeThr := by
      have hpulso : Mesma s s.pulsar := .um rfl rfl rfl rfl rfl rfl rfl
      refine ⟨hpulso.trans (.soTempos hs₁), ?_⟩
      rw [hs₁.1]
      rfl
    have h₂ : Mesma s s₂ ∧ s₂.activeThr = s.activeThr := by
      refine acordarProcessos_invariant (P := fun x => Mesma s x ∧ x.activeThr = s.activeThr)
        (fun a b z ha hb => ⟨ha.1.trans (.acordarNo hb), ?_⟩) h₁ hac
      obtain ⟨t, -, ⟨-, rfl⟩ | ⟨-, rfl⟩⟩ := acordarNo_cases hb <;> exact ha.2
    obtain ⟨h, hact⟩ := h₂
    obtain ⟨-, hy⟩ | ⟨-, hy⟩ := hfim
    · have hlivre : s₂.ponto s₂.activeThr = .livre := by rw [hact, h.ponto, hp]
      rw [hy, hlivre, hact] at he
      refine .pararTroca (p := .noDespacho .livre) rfl he ?_
      exact ⟨h.joinThr, h.zombieThr, h.tidGen, by
        simp only [Escalonador.rbInserir, Escalonador.parar, h.ponto], h.joinTid, h.joinRet⟩
    · rw [hy] at he
      obtain ⟨rfl, rfl⟩ := Resultado.segue.inj he
      exact .fica (h.trans .fimDispatcher) trivial

theorem sthreadUserSleep_alheia {time : ℤ} (he : sthreadUserSleep s time = .segue s' r) :
    Alheia s s' r := by
  rw [sthreadUserSleep] at he
  simp only at he
  split at he
  · obtain ⟨rfl, rfl⟩ := Resultado.segue.inj he
    exact .fica (.refl s) trivial
  · split at he
    · cases he
    · exact .troca he (.um rfl rfl rfl rfl rfl rfl rfl)

theorem sthreadUserMutexLock_alheia {m : ℕ} (he : sthreadUserMutexLock s m = .segue s' r) :
    Alheia s s' r := by
  rw [sthreadUserMutexLock] at he
  split at he
  · obtain ⟨rfl, rfl⟩ := Resultado.segue.inj he
    exact .fica (.refl s) trivial
  · split at he
    · obtain ⟨rfl, rfl⟩ := Resultado.segue.inj he
      exact .fica (.outro rfl rfl rfl rfl rfl) trivial
    · exact .pararTroca (p := .emLock m) trivial he (.outro rfl rfl rfl rfl rfl)

theorem sthreadUserMutexUnlock_alheia {m : ℕ} {depois : Ponto} (hd : depois.sossegado)
    (he : sthreadUserMutexUnlock s m depois = .segue s' r) : Alheia s s' r := by
  revert he
  refine sthreadUserMutexUnlock_elim (P := fun res => res = .segue s' r → Alheia s s' r) s m depois
    ?_ ?_ ?_ ?_ ?_
  · intro _ he
    obtain ⟨rfl, rfl⟩ := Resultado.segue.inj he
    exact .fica (.refl s) trivial
  · intro _ _ he
    obtain ⟨rfl, rfl⟩ := Resultado.segue.inj he
    exact .fica (.refl s) trivial
  · intro _ _ _ he
    obtain ⟨rfl, rfl⟩ := Resultado.segue.inj he
    exact .fica (.outro rfl rfl rfl rfl rfl) trivial
  · intro u fila _ _ _ _ he
    obtain ⟨rfl, rfl⟩ := Resultado.segue.inj he
    exact .parar hd (.um rfl rfl rfl rfl rfl rfl rfl) trivial
  · intro u fila _ _ _ _ he
    obtain ⟨rfl, rfl⟩ := Resultado.segue.inj he
    exact .fica (.outro rfl rfl rfl rfl rfl) trivial

theorem sthreadUserMonitorWait_alheia {mon : ℕ} (he : sthreadUserMonitorWait s mon = .segue s' r) :
    Alheia s s' r := by
  rw [sthreadUserMonitorWait] at he
  split at he
  · obtain ⟨rfl, rfl⟩ := Resultado.segue.inj he
    exact .fica (.refl s) trivial
  · let s₁ := s.mudarMonitor mon fun x => { x with queue := x.queue ++ [s.activeThr] }
    rw [show sairEEsperar _ mon = sairEEsperar s₁ mon from rfl, sairEEsperar] at he
    refine sthreadUserMutexUnlock_elim (P := fun res => sthreadUserMutexUnlock s₁
      (s₁.monitor mon).mutex (.emWaitUnlock mon) = res → Alheia s s' r) s₁ (s₁.monitor mon).mutex
      (.emWaitUnlock mon) ?_ ?_ ?_ ?_ ?_ rfl
    · intro _ hres
      rw [hres] at he
      exact .pararTroca (p := .emWait mon) trivial he (.outro rfl rfl rfl rfl rfl)
    · intro _ _ hres
      rw [hres] at he
      obtain ⟨rfl, rfl⟩ := Resultado.segue.inj he
      exact .parar (p := .girando mon) trivial (.outro rfl rfl rfl rfl rfl) trivial
    · intro _ _ _ hres
      rw [hres] at he
      exact .pararTroca (p := .emWait mon) trivial he (.outro rfl rfl rfl rfl rfl)
    · intro u fila _ _ _ _ hres
      rw [hres] at he
      obtain ⟨rfl, rfl⟩ := Resultado.segue.inj he
      exact .parar (p := .emWaitUnlock mon) trivial (.um rfl rfl rfl rfl rfl rfl rfl) trivial
    · intro u fila _ _ _ _ hres
      rw [hres] at he
      exact .pararTroca (p := .emWait mon) trivial he (.outro rfl rfl rfl rfl rfl)

theorem sthreadUserMonitorSignal_alheia {mon : ℕ}
    (he : sthreadUserMonitorSignal s mon = .segue s' r) : Alheia s s' r := by
  rw [sthreadUserMonitorSignal] at he
  simp only at he
  split at he
  · obtain ⟨rfl, rfl⟩ := Resultado.segue.inj he
    exact .fica (.refl s) trivial
  · split at he
    · obtain ⟨rfl, rfl⟩ := Resultado.segue.inj he
      exact .fica (.refl s) trivial
    · split at he <;> obtain ⟨rfl, rfl⟩ := Resultado.segue.inj he <;>
        exact .fica (.outro rfl rfl rfl rfl rfl) trivial

theorem sthreadUserMonitorSignalall_alheia {mon : ℕ}
    (he : sthreadUserMonitorSignalall s mon = .segue s' r) : Alheia s s' r := by
  rw [sthreadUserMonitorSignalall] at he
  simp only at he
  split at he
  · obtain ⟨rfl, rfl⟩ := Resultado.segue.inj he
    exact .fica (.refl s) trivial
  · split at he <;> obtain ⟨rfl, rfl⟩ := Resultado.segue.inj he <;>
      exact .fica (.outro rfl rfl rfl rfl rfl) trivial

/-! ## The invariant -/

/-- A thread of the join list is in its `join`, and the target of any other `join` has ended. -/
structure Juncoes (s : Escalonador) : Prop where
  espera : ∀ t ∈ s.joinThr, s.ponto t = .emJoin (s.thread t).joinTid
  acabou : ∀ t alvo, s.ponto t = .emJoin alvo → t ∉ s.joinThr → s.ponto alvo = .terminada
  fim : ∀ t ∈ s.zombieThr, s.ponto t = .terminada
  volta : ∀ t antes, s.ponto t = .noDespacho antes → antes = .livre
  nova : ∀ t, s.tidGen ≤ t → s.ponto t = .livre

/-- What a call does to the joins: threads that have ended stay as they are, and only their
values are delivered. -/
structure PassoJuncoes (s : Escalonador) (c : Chamada) (s' : Escalonador) (r : Resposta) :
    Prop where
  juncoes : Juncoes s'
  acabadas : ∀ t, s.ponto t = .terminada →
    s'.ponto t = .terminada ∧ (s'.thread t).joinRet = (s.thread t).joinRet
  saida : ∀ v, c = .exit v → s'.ponto s.activeThr = .terminada ∧
    (s'.thread s.activeThr).joinRet = (s.thread s.activeThr).joinRet
  juntou : ∀ t v, r = .juntou 0 t v → s.ponto t = .terminada ∧ v = (s.thread t).joinRet

namespace Juncoes

theorem mesma (hm : Mesma s s') (h : Juncoes s) : Juncoes s' := by
  refine ⟨fun t ht => ?_, fun t alvo => ?_, fun t ht => ?_, fun t antes => ?_, fun t ht => ?_⟩
  · rw [hm.joinThr] at ht
    rw [hm.ponto, hm.joinTid]
    exact h.espera t ht
  · rw [hm.ponto, hm.joinThr]
    exact h.acabou t alvo
  · rw [hm.zombieThr] at ht
    rw [hm.ponto]
    exact h.fim t ht
  · rw [hm.ponto]
    exact h.volta t antes
  · rw [hm.tidGen] at ht
    rw [hm.ponto]
    exact h.nova t ht

/-- A thread that is not in the join list and has not ended goes to another point. -/
theorem parar (h : Juncoes s) (hjoin : t ∉ s.joinThr) (hfim : s.ponto t ≠ .terminada)
    (ht : t < s.tidGen) {p : Ponto} (hp : p.sossegado) : Juncoes (s.parar t p) := by
  have hne : ∀ u, u ≠ t → (s.parar t p).ponto u = s.ponto u := fun u hu =>
    Function.update_of_ne hu ..
  have hself : (s.parar t p).ponto t = p := Function.update_self ..
  refine ⟨fun u hu => ?_, fun u alvo hu hnot => ?_, fun u hu => ?_, fun u antes hu => ?_,
    fun u hu => ?_⟩
  · rw [hne u fun he => hjoin (he ▸ hu)]
    exact h.espera u hu
  · by_cases hut : u = t
    · rw [hut, hself] at hu
      rw [hu] at hp
      exact absurd hp id
    · rw [hne u hut] at hu
      have halvo := h.acabou u alvo hu hnot
      rw [hne alvo fun he => hfim (he ▸ halvo)]
      exact halvo
  · rw [hne u fun he => hfim (he ▸ h.fim u hu)]
    exact h.fim u hu
  · by_cases hut : u = t
    · rw [hut, hself] at hu
      rw [hu] at hp
      exact hp
    · rw [hne u hut] at hu
      exact h.volta u antes hu
  · have hlt : s.tidGen ≤ u := hu
    rw [hne u (by omega)]
    exact h.nova u hlt

theorem alheia {c : Chamada} (h : Juncoes s) (hjoin : s.activeThr ∉ s.joinThr)
    (hfim : s.ponto s.activeThr ≠ .terminada) (ht : s.activeThr < s.tidGen)
    (hc : ∀ v, c ≠ .exit v) (ha : Alheia s s' r) : PassoJuncoes s c s' r := by
  have hr : ∀ t v, r = .juntou 0 t v → s.ponto t = .terminada ∧ v = (s.thread t).joinRet := by
    intro t v he
    have := ha.resposta
    rw [he] at this
    exact absurd this id
  obtain hm | ⟨p, hp, hm⟩ := ha.estado
  · refine ⟨mesma hm h, fun t ht => ⟨?_, hm.joinRet t⟩, fun v he => absurd he (hc v), hr⟩
    rw [hm.ponto, ht]
  · refine ⟨mesma hm (h.parar hjoin hfim ht hp), fun t ht => ⟨?_, hm.joinRet t⟩,
      fun v he => absurd he (hc v), hr⟩
    rw [hm.ponto, ← ht]
    refine Function.update_of_ne ?_ ..
    rintro rfl
    exact hfim ht

/-! ## The calls that are about joins -/

theorem ativaFora (h : Juncoes s) (hp : s.ponto s.activeThr = .livre) :
    s.activeThr ∉ s.joinThr := by
  intro hm
  have := (h.espera _ hm).symm.trans hp
  cases this

theorem create (h : Juncoes s) {p : ℤ} (he : sthreadUserCreate s p = .segue s' r) :
    PassoJuncoes s (.create p) s' r := by
  obtain ⟨rfl, rfl⟩ := Resultado.segue.inj he
  have hnova := h.nova s.tidGen (Nat.le_refl _)
  have hpar : ∀ x : Ponto, x = .livre → Function.update s.ponto s.tidGen x = s.ponto := by
    rintro x rfl
    rw [← hnova]
    exact Function.update_eq_self s.tidGen s.ponto
  have hponto : ∀ t, Function.update s.ponto s.tidGen .livre t = s.ponto t := fun t => by
    rw [hpar _ rfl]
  have hthread : ∀ t x, s.ponto t ≠ .livre →
      Function.update s.thread s.tidGen x t = s.thread t := by
    intro t x ht
    refine Function.update_of_ne ?_ ..
    rintro rfl
    exact ht hnova
  refine ⟨⟨fun t ht => ?_, fun t alvo ht hnot => ?_, fun t ht => ?_, fun t antes ht => ?_,
    fun t ht => ?_⟩, fun t ht => ⟨(hponto t).trans ht, ?_⟩, fun _ => Chamada.noConfusion,
    fun t v hv => (nomatch hv)⟩
  · have hold := h.espera t ht
    refine (hponto t).trans ?_
    simp only [Escalonador.rbInserir, Escalonador.parar]
    rw [hthread t _ (by rw [hold]; exact Ponto.noConfusion)]
    exact hold
  · exact (hponto alvo).trans (h.acabou t alvo ((hponto t).symm.trans ht) hnot)
  · exact (hponto t).trans (h.fim t ht)
  · exact h.volta t antes ((hponto t).symm.trans ht)
  · have ht : s.tidGen + 1 ≤ t := ht
    exact (hponto t).trans (h.nova t (by omega))
  · simp only [Escalonador.rbInserir, Escalonador.parar]
    rw [hthread t _ (by rw [ht]; exact Ponto.noConfusion)]

theorem exit (h : Juncoes s) (hp : s.ponto s.activeThr = .livre) {ret : ℕ}
    (hvida : s.activeThr < s.tidGen) (he : sthreadUserExit s ret = .segue s' r) :
    PassoJuncoes s (.exit ret) s' r := by
  obtain ⟨s₁, hcom, hjoin, hzombie, htid, -, hponto, hth⟩ := sthreadUserExit_cases he
  have hfora := h.ativaFora hp
  have hmesma := Mesma.comutar hcom
  have hself : s₁.ponto s.activeThr = .terminada := by
    rw [hponto]
    exact Function.update_self ..
  have hne : ∀ t, t ≠ s.activeThr → s₁.ponto t = s.ponto t := by
    intro t ht
    rw [hponto]
    exact Function.update_of_ne ht ..
  have hterm : ∀ t, s.ponto t = .terminada → s₁.ponto t = .terminada := by
    intro t ht
    rw [hponto, Function.update_apply]
    split
    · rfl
    · exact ht
  have hret : ∀ t, t ∉ s.joinThr → (s₁.thread t).joinRet = (s.thread t).joinRet := by
    intro t ht
    rw [hth, if_neg fun hm => ht hm.1]
  refine ⟨mesma hmesma ⟨fun t ht => ?_, fun t alvo ht hnot => ?_, fun t ht => ?_,
    fun t antes ht => ?_, fun t ht => ?_⟩, fun t ht => ⟨?_, ?_⟩, fun v _ => ⟨?_, ?_⟩,
    fun t v hv => ?_⟩
  · rw [hjoin, List.mem_filter] at ht
    rw [hne t fun he => hfora (he ▸ ht.1), hth, if_neg fun hm => by simp [hm.2] at ht]
    exact h.espera t ht.1
  · have hta : t ≠ s.activeThr := by
      rintro rfl
      rw [hself] at ht
      cases ht
    rw [hne t hta] at ht
    by_cases hm : t ∈ s.joinThr
    · have hjt : (s.thread t).joinTid = s.activeThr := by
        by_contra hno
        refine hnot ?_
        rw [hjoin, List.mem_filter]
        exact ⟨hm, decide_eq_true hno⟩
      have halvo : alvo = s.activeThr := by
        have := ht.symm.trans (h.espera t hm)
        rw [← hjt]
        exact Ponto.emJoin.inj this
      rw [halvo]
      exact hself
    · exact hterm alvo (h.acabou t alvo ht hm)
  · rcases hzombie t ht with ht | rfl
    · exact hterm t (h.fim t ht)
    · exact hself
  · have hta : t ≠ s.activeThr := by
      rintro rfl
      rw [hself] at ht
      cases ht
    rw [hne t hta] at ht
    exact h.volta t antes ht
  · rw [htid] at ht
    rw [hne t (by omega)]
    exact h.nova t ht
  · rw [hmesma.ponto]
    exact hterm t ht
  · rw [hmesma.joinRet]
    refine hret t fun hm => ?_
    have := (h.espera t hm).symm.trans ht
    cases this
  · rw [hmesma.ponto]
    exact hself
  · rw [hmesma.joinRet]
    exact hret _ hfora
  · have := Alheia.comutar_semJuncao hcom
    rw [hv] at this
    exact absurd this id

theorem join (h : Juncoes s) (hp : s.ponto s.activeThr = .livre) {u : ℕ}
    (hvida : s.activeThr < s.tidGen) (he : sthreadUserJoin s u = .segue s' r) :
    PassoJuncoes s (.join u) s' r := by
  rw [sthreadUserJoin] at he
  split at he
  · rename_i hz
    obtain ⟨rfl, rfl⟩ := Resultado.segue.inj he
    refine ⟨⟨h.espera, h.acabou, fun t ht => h.fim t (List.mem_of_mem_filter ht), h.volta, h.nova⟩,
      fun t ht => ⟨ht, rfl⟩, fun _ => Chamada.noConfusion, fun t v hv => ?_⟩
    obtain ⟨-, rfl, rfl⟩ := Resposta.juntou.inj hv
    exact ⟨h.fim u hz, rfl⟩
  · simp only [Bool.or_true, Bool.true_or, if_true] at he
    have hmesma := Mesma.comutar he
    have hne : ∀ t, t ≠ s.activeThr →
        Function.update s.ponto s.activeThr (.emJoin u) t = s.ponto t := fun t ht =>
      Function.update_of_ne ht ..
    have hterm : ∀ t, s.ponto t = .terminada →
        Function.update s.ponto s.activeThr (.emJoin u) t = .terminada := by
      intro t ht
      rw [hne t]
      · exact ht
      · rintro rfl
        rw [hp] at ht
        cases ht
    refine ⟨mesma hmesma ⟨fun t ht => ?_, fun t alvo ht hnot => ?_,
      fun t ht => hterm t (h.fim t ht), fun t antes ht => ?_, fun t ht => ?_⟩,
      fun t ht => ⟨?_, ?_⟩, fun _ => Chamada.noConfusion, fun t v hv => ?_⟩
    · rcases List.mem_append.mp ht with ht | ht
      · have hta : t ≠ s.activeThr := fun he => h.ativaFora hp (he ▸ ht)
        simp only [Escalonador.parar, Escalonador.mudar, Function.update_of_ne hta]
        exact h.espera t ht
      · obtain rfl := List.mem_singleton.mp ht
        simp [Escalonador.parar, Escalonador.mudar]
    · have hta : t ≠ s.activeThr := by
        rintro rfl
        exact hnot (List.mem_append_right _ (List.mem_singleton.mpr rfl))
      exact hterm alvo (h.acabou t alvo ((hne t hta).symm.trans ht) fun hm =>
        hnot (List.mem_append_left _ hm))
    · have hta : t ≠ s.activeThr := by
        rintro rfl
        have hself : Function.update s.ponto s.activeThr (.emJoin u) s.activeThr = .emJoin u :=
          Function.update_self ..
        have := hself.symm.trans ht
        cases this
      exact h.volta t antes ((hne t hta).symm.trans ht)
    · have ht : s.tidGen ≤ t := ht
      exact (hne t (by omega)).trans (h.nova t ht)
    · rw [hmesma.ponto]
      exact hterm t ht
    · rw [hmesma.joinRet]
      simp only [Escalonador.parar, Escalonador.mudar, Function.update_apply]
      split
      · rename_i hta
        rw [hta]
      · rfl
    · have := Alheia.comutar_semJuncao he
      rw [hv] at this
      exact absurd this id

theorem chamar (h : Juncoes s) (hp : s.ponto s.activeThr = .livre)
    (hvida : s.activeThr < s.tidGen) {c : Chamada} (he : chamar s c = .segue s' r) :
    PassoJuncoes s c s' r := by
  have hfim : s.ponto s.activeThr ≠ .terminada := by
    rw [hp]
    exact Ponto.noConfusion
  have halheia : (∀ v, c ≠ .exit v) → Alheia s s' r → PassoJuncoes s c s' r :=
    fun hc ha => h.alheia (h.ativaFora hp) hfim hvida hc ha
  cases c with
  | create p => exact h.create he
  | exit ret => exact h.exit hp hvida he
  | join u => exact h.join hp hvida he
  | dispatcher => exact halheia (fun _ => Chamada.noConfusion) (sthreadUserDispatcher_alheia hp he)
  | yield => exact halheia (fun _ => Chamada.noConfusion) (sthreadUserYield_alheia he)
  | sleep time => exact halheia (fun _ => Chamada.noConfusion) (sthreadUserSleep_alheia he)
  | nice nice =>
      obtain ⟨rfl, rfl⟩ := Resultado.segue.inj he
      exact halheia (fun _ => Chamada.noConfusion) (.fica (.um rfl rfl rfl rfl rfl rfl rfl) trivial)
  | mutexInit =>
      obtain ⟨rfl, rfl⟩ := Resultado.segue.inj he
      exact halheia (fun _ => Chamada.noConfusion) (.fica (.outro rfl rfl rfl rfl rfl) trivial)
  | monitorInit =>
      obtain ⟨rfl, rfl⟩ := Resultado.segue.inj he
      exact halheia (fun _ => Chamada.noConfusion) (.fica (.outro rfl rfl rfl rfl rfl) trivial)
  | mutexLock m => exact halheia (fun _ => Chamada.noConfusion) (sthreadUserMutexLock_alheia he)
  | monitorEnter mon =>
      exact halheia (fun _ => Chamada.noConfusion) (sthreadUserMutexLock_alheia he)
  | mutexUnlock m =>
      exact halheia (fun _ => Chamada.noConfusion)
        (sthreadUserMutexUnlock_alheia (show (Ponto.emUnlock m).sossegado from trivial) he)
  | monitorExit mon =>
      exact halheia (fun _ => Chamada.noConfusion)
        (sthreadUserMutexUnlock_alheia
          (show (Ponto.emUnlock (s.monitor mon).mutex).sossegado from trivial) he)
  | monitorWait mon =>
      exact halheia (fun _ => Chamada.noConfusion) (sthreadUserMonitorWait_alheia he)
  | monitorSignal mon =>
      exact halheia (fun _ => Chamada.noConfusion) (sthreadUserMonitorSignal_alheia he)
  | monitorSignalall mon =>
      exact halheia (fun _ => Chamada.noConfusion) (sthreadUserMonitorSignalall_alheia he)
  | resume => cases he

theorem retomar {J : ArvoreRB ℕ → (ℕ → Sthread) → Prop} (h : Juncoes s)
    (ha : Arrumado J s [s.activeThr]) (he : retomar s (s.ponto s.activeThr) = .segue s' r) :
    PassoJuncoes s .resume s' r := by
  have hcalmo := ha.calmo s.activeThr
  have hvida := ha.criada.2
  have hjoin : s.activeThr ∉ s.joinThr := by
    intro hm
    have hle := ha.count_le s.activeThr
    have := List.count_pos_iff.mpr hm
    rw [count_fora, List.count_cons_self] at hle
    omega
  have halheia : s.ponto s.activeThr ≠ .terminada → Alheia s s' r → PassoJuncoes s .resume s' r :=
    fun hfim hx => h.alheia hjoin hfim hvida (fun _ => Chamada.noConfusion) hx
  cases hp : s.ponto s.activeThr with
  | livre =>
      rw [hp] at he
      cases he
  | terminada =>
      rw [hp] at he
      cases he
  | noDespacho antes =>
      obtain rfl := h.volta _ antes hp
      rw [hp] at he
      obtain ⟨rfl, rfl⟩ := Resultado.segue.inj he
      refine halheia (by rw [hp]; exact Ponto.noConfusion) (.parar (p := .livre) trivial ?_ trivial)
      have hm : Mesma s (fimDispatcher s) := .fimDispatcher
      exact ⟨hm.joinThr, hm.zombieThr, hm.tidGen, by
        simp only [Escalonador.parar, hm.ponto], hm.joinTid, hm.joinRet⟩
  | emJoin alvo =>
      rw [hp] at he
      obtain ⟨rfl, rfl⟩ := Resultado.segue.inj he
      have halvo := h.acabou _ alvo hp hjoin
      have hfim : s.ponto s.activeThr ≠ .terminada := by
        rw [hp]
        exact Ponto.noConfusion
      refine ⟨h.parar hjoin hfim hvida (p := .livre) trivial, fun t ht => ⟨?_, rfl⟩,
        fun _ => Chamada.noConfusion, fun t v hv => ?_⟩
      · rw [← ht]
        refine Function.update_of_ne ?_ ..
        rintro rfl
        exact hfim ht
      · obtain ⟨-, rfl, rfl⟩ := Resposta.juntou.inj hv
        exact ⟨halvo, rfl⟩
  | emLock m =>
      rw [hp] at he
      obtain ⟨rfl, rfl⟩ := Resultado.segue.inj he
      exact halheia (by rw [hp]; exact Ponto.noConfusion)
        (.parar (p := .livre) trivial (.refl _) trivial)
  | emUnlock m =>
      rw [hp] at he
      obtain ⟨rfl, rfl⟩ := Resultado.segue.inj he
      exact halheia (by rw [hp]; exact Ponto.noConfusion)
        (.parar (p := .livre) trivial (.outro rfl rfl rfl rfl rfl) trivial)
  | girando mon =>
      rw [hp] at hcalmo
      exact absurd hcalmo id
  | emWaitUnlock mon =>
      rw [hp] at hcalmo
      exact absurd hcalmo id
  | emWait mon =>
      rw [hp] at he
      obtain ⟨rfl, rfl⟩ := Resultado.segue.inj he
      exact halheia (by rw [hp]; exact Ponto.noConfusion)
        (.parar (p := .livre) trivial (.refl _) trivial)

theorem passo {J : ArvoreRB ℕ → (ℕ → Sthread) → Prop} (h : Juncoes s)
    (ha : Arrumado J s [s.activeThr]) {c : Chamada} (hs : passo s c = some (s', r)) :
    PassoJuncoes s c s' r ∧ s.ponto s.activeThr ≠ .terminada := by
  obtain ⟨hp, he⟩ | ⟨mon, hp, -⟩ | ⟨rfl, he⟩ | he := executa_cases (passo_eq_some.mp hs)
  · refine ⟨h.chamar hp ha.criada.2 he, ?_⟩
    rw [hp]
    exact Ponto.noConfusion
  · have hcalmo := ha.calmo s.activeThr
    rw [hp] at hcalmo
    exact absurd hcalmo id
  · refine ⟨h.retomar ha he, fun hp => ?_⟩
    rw [hp] at he
    cases he
  · cases he

end Juncoes

theorem sthreadUserInit_juncoes : Juncoes sthreadUserInit :=
  ⟨fun _ ht => absurd ht List.not_mem_nil, fun _ _ ht => (nomatch ht),
    fun _ ht => absurd ht List.not_mem_nil, fun _ _ ht => (nomatch ht), fun _ _ => rfl⟩

/-! ## Runs -/

/-- The places and the joins. -/
def InvJuncoes (s : Escalonador) : Prop :=
  Arrumado (fun _ _ => True) s [s.activeThr] ∧ Juncoes s

theorem InvJuncoes.passo (h : InvJuncoes s) {c : Chamada} (hc : Valida s c ∧ Limpa s c)
    (he : passo s c = some (s', r)) : InvJuncoes s' ∧ PassoJuncoes s c s' r := by
  have hp := (h.2.passo h.1 he).1
  exact ⟨⟨(passo_chega guarda_trivial h.1 hc.1 hc.2 (fun _ _ => trivial) he).arrumado,
    hp.juncoes⟩, hp⟩

/-- The steps after a thread has ended: it is not active, and joins deliver its `join_ret`. -/
theorem steps_acabada {cs : List Chamada} (h : InvJuncoes s)
    (hP : Runs.Permitted passo (fun s c => Valida s c ∧ Limpa s c) s cs)
    (ht : s.ponto t = .terminada) {x : Escalonador × Chamada × Resposta}
    (hx : x ∈ Runs.steps passo s cs) :
    x.1.activeThr ≠ t ∧ ∀ v, x.2.2 = .juntou 0 t v → v = (s.thread t).joinRet := by
  induction cs generalizing s with
  | nil => exact absurd hx List.not_mem_nil
  | cons c cs ih =>
      obtain ⟨s', o, hs, hx⟩ := Runs.mem_steps_cons hx
      obtain ⟨h', hp⟩ := h.passo hP.1 hs
      rcases hx with rfl | hx
      · refine ⟨fun he => (h.2.passo h.1 hs).2 (he ▸ ht), fun v hv => ?_⟩
        exact (hp.juntou t v hv).2
      · obtain ⟨ht', hret⟩ := hp.acabadas t ht
        rw [← hret]
        exact ih h' (hP.2 s' o hs) ht' hx

/-- An exit and a join of the same thread, in any order. -/
theorem steps_saida_juncao {cs : List Chamada} (h : InvJuncoes s)
    (hP : Runs.Permitted passo (fun s c => Valida s c ∧ Limpa s c) s cs)
    {x y : Escalonador × Chamada × Resposta} (hx : x ∈ Runs.steps passo s cs)
    (hy : y ∈ Runs.steps passo s cs) {v w : ℕ} (hv : x.2.1 = .exit v)
    (hw : y.2.2 = .juntou 0 x.1.activeThr w) : w = (x.1.thread x.1.activeThr).joinRet := by
  induction cs generalizing s with
  | nil => exact absurd hx List.not_mem_nil
  | cons c cs ih =>
      obtain ⟨s', o, hs, hx⟩ := Runs.mem_steps_cons hx
      obtain ⟨s'', o', hs', hy⟩ := Runs.mem_steps_cons hy
      obtain ⟨rfl, rfl⟩ := Prod.mk.inj (Option.some.inj (hs.symm.trans hs'))
      obtain ⟨h', hp⟩ := h.passo hP.1 hs
      have hP' := hP.2 s' o hs
      rcases hx with rfl | hx
      · obtain ⟨hterm, hret⟩ := hp.saida v hv
        rcases hy with rfl | hy
        · exact (hp.juntou _ w hw).2
        · rw [← hret]
          exact (steps_acabada h' hP' hterm hy).2 w hw
      · rcases hy with rfl | hy
        · -- a join of a thread that ends later
          have hterm := (hp.juntou _ w hw).1
          exact absurd rfl (steps_acabada h' hP' (hp.acabadas _ hterm).1 hx).1
        · exact ih h' hP' hx hy

/-- A join delivers the value of the exit exactly when the thread that exits holds it in its own
`join_ret` already. -/
theorem juncao_entrega (cs : List Chamada)
    (hP : Runs.Permitted passo (fun s c => Valida s c ∧ Limpa s c) sthreadUserInit cs)
    (x y : Escalonador × Chamada × Resposta) (hx : x ∈ Runs.steps passo sthreadUserInit cs)
    (hy : y ∈ Runs.steps passo sthreadUserInit cs) (v w : ℕ) (hv : x.2.1 = .exit v)
    (hw : y.2.2 = .juntou 0 x.1.activeThr w) :
    w = v ↔ (x.1.thread x.1.activeThr).joinRet = v := by
  have hinv : InvJuncoes sthreadUserInit :=
    ⟨sthreadUserInit_arrumado trivial, sthreadUserInit_juncoes⟩
  rw [steps_saida_juncao hinv hP hx hy hv hw]

/-- The main thread joins thread 2, which exits with `NULL`. -/
def juncaoNula : List Chamada := [.create 1, .join 2, .exit 0, .resume]

theorem juncao_entrega_exemplo :
    ∃ x ∈ Runs.steps passo sthreadUserInit juncaoNula,
      ∃ y ∈ Runs.steps passo sthreadUserInit juncaoNula,
        x.2.1 = .exit 0 ∧ y.2.2 = .juntou 0 x.1.activeThr 0 ∧
          (0 = 0 ↔ (x.1.thread x.1.activeThr).joinRet = 0) := by
  have hP : Runs.Permitted passo (fun s c => Valida s c ∧ Limpa s c) sthreadUserInit
      juncaoNula := by decide
  exact ⟨_, .tail _ (.tail _ (.head _)), _, .tail _ (.tail _ (.tail _ (.head _))), rfl, rfl,
    juncao_entrega juncaoNula hP _ _ (.tail _ (.tail _ (.head _)))
      (.tail _ (.tail _ (.tail _ (.head _)))) 0 0 rfl rfl⟩

/-- Thread 2 exits with 7, and the main thread, which has waited for it, gets `NULL`. -/
theorem juncao_perde_valor :
    Runs.Permitted passo Valida sthreadUserInit [.create 1, .join 2, .exit 7, .resume] ∧
      ∃ x ∈ Runs.steps passo sthreadUserInit [.create 1, .join 2, .exit 7, .resume],
        ∃ y ∈ Runs.steps passo sthreadUserInit [.create 1, .join 2, .exit 7, .resume],
          x.1.activeThr = 2 ∧ x.2.1 = .exit 7 ∧ y.2.2 = .juntou 0 2 0 :=
  ⟨by decide, _, .tail _ (.tail _ (.head _)), _, .tail _ (.tail _ (.tail _ (.head _))), rfl, rfl,
    rfl⟩

end ThreadScheduler.SthreadLib
