import Mathlib.Algebra.BigOperators.Ring.Finset
import Mathlib.Algebra.Order.BigOperators.Group.Finset
import Mathlib.Order.Interval.Finset.Nat
import ThreadScheduler.SthreadLib.SchedulerCharge
import ThreadScheduler.SthreadLib.SchedulerSpread

/-!
# How long a thread waits for the CPU

A tick raises what the active thread has been charged and what it has not been charged with yet.
While a thread waits its `vruntime` stands still, and no other one may get further than one charge
from it, so only so many ticks can pass.
-/
namespace ThreadScheduler.SthreadLib

open ArvoreRB Escalonador

variable {s s' : Escalonador} {r : Resposta}

/-- The virtual time of a thread, with the ticks not charged yet. -/
def Conta.avanco (c : Conta) : ℤ := c.vruntime + c.timesRunned

/-- Every tick costs something. -/
structure Conta.Pesa (c : Conta) : Prop where
  nice : 0 ≤ c.nice
  priority : 1 ≤ c.priority
  timesRunned : 0 ≤ c.timesRunned

namespace Conta

variable {c : Conta}

theorem avanco_pulsada (c : Conta) : c.pulsada.avanco = c.avanco + 1 := by
  simp only [avanco, pulsada]
  omega

theorem Pesa.pulsada (h : c.Pesa) : c.pulsada.Pesa :=
  ⟨h.nice, h.priority, Int.add_nonneg h.timesRunned Int.one_nonneg⟩

theorem Pesa.cobrada (h : c.Pesa) : c.cobrada.Pesa := ⟨h.nice, h.priority, Int.le_refl 0⟩

theorem Pesa.avanco_cobrada (h : c.Pesa) : c.avanco ≤ c.cobrada.avanco := by
  have hpeso : 1 ≤ c.nice + c.priority := by
    have := h.nice
    have := h.priority
    omega
  have := Int.mul_le_mul_of_nonneg_right hpeso h.timesRunned
  simp only [avanco, Conta.cobrada]
  omega

theorem Pesa.fechada (h : c.Pesa) : c.fechada.Pesa := by
  rw [Conta.fechada]
  split
  · exact h
  · exact h.cobrada

theorem Pesa.avanco_fechada (h : c.Pesa) : c.avanco ≤ c.fechada.avanco := by
  rw [Conta.fechada]
  split
  · exact Int.le_refl _
  · exact h.avanco_cobrada

end Conta

/-- Nobody sleeps, is blocked or has ended. -/
structure SoExecutaveis (s : Escalonador) : Prop where
  sleep : s.sleepThr = rbNovaArvore
  listas : s.joinThr = [] ∧ s.zombieThr = [] ∧ s.deadThr = []
  trincos : s.mutexIdGen = 0 ∧ s.monitorIdGen = 0

/-- The lists and the trees of the others stay as they are. -/
def MesmoResto (s s' : Escalonador) : Prop :=
  s' = { s with
    exeThr := s'.exeThr
    activeThr := s'.activeThr
    clock := s'.clock
    thread := s'.thread
    ponto := s'.ponto }

theorem MesmoResto.trans {s'' : Escalonador} (h : MesmoResto s s') (h' : MesmoResto s' s'') :
    MesmoResto s s'' := by
  rw [MesmoResto] at h h' ⊢
  rw [h', h]

theorem MesmoResto.soExecutaveis (h : MesmoResto s s') (hs : SoExecutaveis s) :
    SoExecutaveis s' := by
  rw [h]
  exact ⟨hs.sleep, hs.listas, hs.trincos⟩

/-- Every thread is executable. -/
theorem SoExecutaveis.mem (hs : SoExecutaveis s) {J : ArvoreRB ℕ → (ℕ → Sthread) → Prop}
    (h : Arrumado J s [s.activeThr]) {t : ℕ} (hpos : 0 < t) (hlt : t < s.tidGen) :
    t ∈ executaveis s := by
  have hc := h.conta t
  have hvazia : elementos (rbNovaArvore : ArvoreRB ℕ) = [] := SacoRB.nova.vazia_iff.mp rfl
  obtain ⟨hjoin, hzombie, hdead⟩ := hs.listas
  obtain ⟨hmutex, hmon⟩ := hs.trincos
  rw [if_pos ⟨hpos, hlt⟩, count_fora, hs.sleep, hvazia, hjoin, hzombie, hdead, hmutex, hmon] at hc
  simp only [emFilas, List.range_zero, List.flatMap_nil, List.count_nil, Nat.add_zero] at hc
  refine List.count_pos_iff.mp ?_
  rw [executaveis, List.count_cons]
  rw [List.count_singleton] at hc
  omega

/-! ## One step -/

/-- The accounts after a step: only that of the active thread changes, and it does not go back. -/
structure Avanca (s : Escalonador) (c : Chamada) (s' : Escalonador) : Prop where
  pesa : ∀ t, (s'.thread t).conta.Pesa
  outras : ∀ t, t ≠ s.activeThr → (s'.thread t).conta = (s.thread t).conta
  activa : (s.thread s.activeThr).conta.avanco + (if c = .dispatcher then 1 else 0) ≤
    (s'.thread s.activeThr).conta.avanco

theorem Avanca.of_conta {c : Chamada} {x : Conta} (h : ∀ t, (s.thread t).conta.Pesa)
    (hconta : ∀ t, (s'.thread t).conta = if t = s.activeThr then x else (s.thread t).conta)
    (hx : x.Pesa) (hle : (s.thread s.activeThr).conta.avanco +
      (if c = .dispatcher then 1 else 0) ≤ x.avanco) : Avanca s c s' := by
  refine ⟨fun t => ?_, fun t ht => ?_, ?_⟩
  · rw [hconta]
    split
    · exact hx
    · exact h t
  · rw [hconta, if_neg ht]
  · rw [hconta, if_pos rfl]
    exact hle

theorem SemPulso.avanca {c : Chamada} (hc : c ≠ .dispatcher) (h : ∀ t, (s.thread t).conta.Pesa)
    (hs : SemPulso s s') : Avanca s c s' := by
  refine ⟨fun t => ?_, fun t ht => (hs.conta t).resolve_right fun hr => ht hr.1, ?_⟩
  · rcases hs.conta t with he | ⟨-, he⟩
    · rw [he]
      exact h t
    · rw [he]
      exact (h t).cobrada
  · rw [if_neg hc, Int.add_zero]
    rcases hs.conta s.activeThr with he | ⟨-, he⟩
    · rw [he]
    · rw [he]
      exact (h _).avanco_cobrada

theorem sthreadNice_avanca (h : ∀ t, (s.thread t).conta.Pesa) {n : ℤ}
    (he : sthreadNice s n = .segue s' r) : Avanca s (.nice n) s' := by
  obtain ⟨rfl, -⟩ := Resultado.segue.inj he
  refine .of_conta h (x := ((fun th : Sthread =>
    { th with nice := if n > 10 then 10 else if n < 1 then 1 else n }) (s.thread s.activeThr)).conta)
    (fun t => ?_) ⟨?_, (h _).priority, (h _).timesRunned⟩ ?_
  · simp only [Escalonador.mudar, Function.update_apply]
    split <;> rfl
  · simp only [Sthread.conta]
    split
    · decide
    · split <;> omega
  · rw [if_neg Chamada.noConfusion, Int.add_zero]
    exact Int.le_refl _

theorem sthreadUserDispatcher_avanca (h : ∀ t, (s.thread t).conta.Pesa)
    (he : sthreadUserDispatcher s = .segue s' r) : Avanca s .dispatcher s' := by
  have hpulso := (s.thread s.activeThr).conta.avanco_pulsada
  obtain ⟨-, ⟨-, -, hconta⟩ | ⟨-, -, hconta⟩⟩ := sthreadUserDispatcher_conta he
  · refine .of_conta h (x := (s.thread s.activeThr).conta.pulsada) (fun t => ?_) (h _).pulsada ?_
    · rw [hconta, pulsar_conta]
      split
      · rename_i ht
        rw [ht]
      · rfl
    · rw [if_pos rfl, hpulso]
  · refine .of_conta h (x := (s.thread s.activeThr).conta.pulsada.fechada) (fun t => ?_)
      (h _).pulsada.fechada ?_
    · rw [hconta, pulsar_conta]
      split
      · rename_i ht
        rw [ht]
      · rfl
    · rw [if_pos rfl, ← hpulso]
      exact (h _).pulsada.avanco_fechada

theorem passo_avanca (h : ∀ t, (s.thread t).conta.Pesa) {c : Chamada} (hc : SoTempo c)
    (he : passo s c = some (s', r)) : Avanca s c s' := by
  obtain ⟨-, ⟨p, rfl, -⟩ | ⟨n, rfl, hn⟩ | ⟨rfl, hd⟩ | ⟨hconta, hs⟩⟩ | ⟨antes, -, rfl, -, rfl⟩ :=
    passo_pulso he
  · exact absurd hc id
  · exact sthreadNice_avanca h hn
  · exact sthreadUserDispatcher_avanca h hd
  · refine hs.avanca ?_ h
    rintro rfl
    cases hconta
  · refine .of_conta h (x := (s.thread s.activeThr).conta.fechada) (fun t => ?_) (h _).fechada ?_
    · refine (fimDispatcher_conta s t).trans ?_
      split
      · rename_i ht
        rw [ht]
      · rfl
    · rw [if_neg Chamada.noConfusion, Int.add_zero]
      exact (h _).avanco_fechada

/-! ## Who can run -/

theorem fimDispatcher_resto (s : Escalonador) : MesmoResto s (fimDispatcher s) := by
  rw [MesmoResto, fimDispatcher]
  simp only
  split <;> rfl

theorem comutar_resto (he : s.comutar = .segue s' r) : MesmoResto s s' := by
  rw [(comutar_campos he).1]
  rfl

theorem sthreadUserYield_resto (he : sthreadUserYield s = .segue s' r) : MesmoResto s s' := by
  have h := comutar_resto (s := s.rbInserir s.activeThr) he
  exact h

theorem sthreadUserDispatcher_resto (hs : SoExecutaveis s)
    (he : sthreadUserDispatcher s = .segue s' r) : MesmoResto s s' := by
  obtain ⟨s₁, hs₁, hcases⟩ := sthreadUserDispatcher_cases s
  have h₁ : MesmoResto s s₁ := by
    rw [MesmoResto, hs₁.1]
    rfl
  rw [acordarProcessos_ninguem (h₁.soExecutaveis hs).sleep] at hcases
  obtain ⟨hno, -⟩ | ⟨s₂, hs₂, ⟨-, hy⟩ | ⟨-, hy⟩⟩ := hcases
  · cases hno
  · obtain rfl := Option.some.inj hs₂
    rw [hy] at he
    exact h₁.trans (sthreadUserYield_resto
      (s := s₁.parar s₁.activeThr (.noDespacho (s₁.ponto s₁.activeThr))) he)
  · obtain rfl := Option.some.inj hs₂
    rw [hy] at he
    obtain ⟨rfl, -⟩ := Resultado.segue.inj he
    exact h₁.trans (fimDispatcher_resto s₁)

theorem passo_resto (hs : SoExecutaveis s)
    (hp : s.ponto s.activeThr = .livre ∨ s.ponto s.activeThr = .noDespacho .livre) {c : Chamada}
    (hc : SoTempo c) (he : passo s c = some (s', r)) : MesmoResto s s' := by
  obtain ⟨-, he⟩ | ⟨mon, hg, -⟩ | ⟨-, he⟩ | he := executa_cases (passo_eq_some.mp he)
  · cases c with
    | dispatcher => exact sthreadUserDispatcher_resto hs he
    | yield => exact sthreadUserYield_resto he
    | nice n =>
        obtain ⟨rfl, -⟩ := Resultado.segue.inj he
        rfl
    | resume => cases he
    | _ => exact absurd hc id
  · rcases hp with hp | hp <;> rw [hg] at hp <;> cases hp
  · rcases hp with hp | hp <;> rw [hp] at he
    · cases he
    · obtain ⟨rfl, -⟩ := Resultado.segue.inj he
      exact (fimDispatcher_resto s).trans rfl
  · cases he

/-! ## Runs -/

/-- The invariant while only time passes. -/
structure Corrida (s : Escalonador) : Prop where
  equilibrio : Equilibrio s
  pesa : ∀ t, (s.thread t).conta.Pesa
  soExecutaveis : SoExecutaveis s

theorem Corrida.passo (h : Corrida s) {c : Chamada} (hc : SoTempo c)
    (he : passo s c = some (s', r)) : Corrida s' ∧ Avanca s c s' ∧ s'.tidGen = s.tidGen := by
  have hp := (h.equilibrio.pesado.pulsos s.activeThr).imp And.left And.left
  have hresto := passo_resto h.soExecutaveis hp hc he
  have hav := passo_avanca h.pesa hc he
  refine ⟨⟨h.equilibrio.passo hc he, hav.pesa, hresto.soExecutaveis h.soExecutaveis⟩, hav, ?_⟩
  rw [hresto]

/-- The virtual time that the threads other than `t` have used. -/
def outras (n t : ℕ) (s : Escalonador) : ℤ :=
  ∑ u ∈ (Finset.Ico 1 n).erase t, (s.thread u).conta.avanco

/-- Every tick that passes while `t` waits is used by another thread. -/
theorem Corrida.outras_le (h : Corrida s) {n t : ℕ} (hn : s.tidGen = n) (ht : s.activeThr ≠ t)
    {c : Chamada} (hc : SoTempo c) (he : SthreadLib.passo s c = some (s', r)) :
    outras n t s + (if c = .dispatcher then 1 else 0) ≤ outras n t s' := by
  obtain ⟨-, hav, -⟩ := h.passo hc he
  have hmem : s.activeThr ∈ (Finset.Ico 1 n).erase t := by
    have hcria := h.equilibrio.arrumado.conta s.activeThr
    rw [List.count_cons_self] at hcria
    have : 0 < s.activeThr ∧ s.activeThr < s.tidGen := by
      by_contra hno
      rw [if_neg hno] at hcria
      omega
    rw [Finset.mem_erase, Finset.mem_Ico]
    omega
  have hrest : ∑ u ∈ ((Finset.Ico 1 n).erase t).erase s.activeThr, (s'.thread u).conta.avanco =
      ∑ u ∈ ((Finset.Ico 1 n).erase t).erase s.activeThr, (s.thread u).conta.avanco := by
    refine Finset.sum_congr rfl fun u hu => ?_
    rw [hav.outras u (Finset.ne_of_mem_erase hu)]
  have hs := Finset.add_sum_erase _ (fun u => (s.thread u).conta.avanco) hmem
  have hs' := Finset.add_sum_erase _ (fun u => (s'.thread u).conta.avanco) hmem
  have hle := hav.activa
  rw [outras, outras, ← hs, ← hs', hrest]
  omega

/-- A thread that waits keeps its account. -/
theorem Corrida.conta_eq (h : Corrida s) {t : ℕ} {cs : List Chamada} {os : List Resposta}
    (hP : Runs.Permitted SthreadLib.passo (fun s c => SoTempo c ∧ s.activeThr ≠ t) s cs)
    (hr : Runs.run SthreadLib.passo s cs = some (s', os)) :
    Corrida s' ∧ s'.tidGen = s.tidGen ∧ (s'.thread t).conta = (s.thread t).conta :=
  Runs.run_invariant
    (I := fun x => Corrida x ∧ x.tidGen = s.tidGen ∧ (x.thread t).conta = (s.thread t).conta)
    (fun _ _ _ _ hI hp he => by
      obtain ⟨hC, hav, htid⟩ := hI.1.passo hp.1 he
      exact ⟨hC, htid.trans hI.2.1, (hav.outras t hp.2.symm).trans hI.2.2⟩) ⟨h, rfl, rfl⟩ hP hr

/-- While one thread waits, no other one uses more than two charges and five ticks. -/
theorem Corrida.avanco_le {s₀ : Escalonador} (h₀ : Corrida s₀) (h : Corrida s) {t u : ℕ}
    (hn : s.tidGen = s₀.tidGen) (ht : 0 < t ∧ t < s₀.tidGen) (hu : 0 < u ∧ u < s₀.tidGen)
    (hconta : (s.thread t).conta = (s₀.thread t).conta) :
    (s.thread u).conta.avanco ≤ (s₀.thread u).conta.avanco + 205 := by
  have hperto₀ := h₀.equilibrio.perto t (h₀.soExecutaveis.mem h₀.equilibrio.arrumado ht.1 ht.2)
    u (h₀.soExecutaveis.mem h₀.equilibrio.arrumado hu.1 hu.2)
  have hperto := h.equilibrio.perto u
    (h.soExecutaveis.mem h.equilibrio.arrumado hu.1 (hn ▸ hu.2)) t
    (h.soExecutaveis.mem h.equilibrio.arrumado ht.1 (hn ▸ ht.2))
  have hv : (s.thread t).vruntime = (s₀.thread t).vruntime := congrArg Conta.vruntime hconta
  have hpouco : (s.thread u).timesRunned ≤ 5 := by
    rcases h.equilibrio.pesado.pulsos u with ⟨-, hp⟩ | ⟨-, hp⟩ <;> simp only [minDelay] at hp <;>
      omega
  have hpesa := (h₀.pesa u).timesRunned
  simp only [Sthread.conta] at hpesa
  simp only [maxDesvio, minDelay] at hperto₀ hperto
  simp only [Conta.avanco, Sthread.conta]
  omega

theorem novas_create (hn : Novas s) (hpesa : ∀ t, (s.thread t).conta.Pesa)
    (hs : SoExecutaveis s) {p : ℤ} (he : passo s (.create p) = some (s', r)) :
    (∀ t, (s'.thread t).conta.Pesa) ∧ SoExecutaveis s' ∧ s'.tidGen = s.tidGen + 1 := by
  have hchama : sthreadUserCreate s p = .segue s' r := by
    have hex := passo_eq_some.mp he
    unfold executa at hex
    rw [hn.ponto] at hex
    exact hex
  obtain ⟨rfl, -⟩ := Resultado.segue.inj hchama
  refine ⟨fun t => ?_, ⟨hs.sleep, hs.listas, hs.trincos⟩, rfl⟩
  simp only [Escalonador.rbInserir, Escalonador.parar, Function.update_apply]
  split
  · refine ⟨show (0 : ℤ) ≤ 0 by decide, ?_, show (0 : ℤ) ≤ 0 by decide⟩
    simp only [Sthread.conta]
    split
    · decide
    · split <;> omega
  · exact hpesa t

/-- The state after `sthread_user_init` and some creations. -/
theorem corrida_novas {ps : List ℤ} {os : List Resposta}
    (hr : Runs.run passo sthreadUserInit (ps.map .create) = some (s, os)) :
    Corrida s ∧ s.tidGen = ps.length + 2 := by
  have hlen := Runs.run_length hr
  rw [List.length_map] at hlen
  obtain ⟨hnovas, hpesa, hs, hn⟩ : Novas s ∧ (∀ t, (s.thread t).conta.Pesa) ∧ SoExecutaveis s ∧
      s.tidGen = ([] ++ os).length + 2 := Runs.run_outputs
    (J := fun os x => Novas x ∧ (∀ t, (x.thread t).conta.Pesa) ∧ SoExecutaveis x ∧
      x.tidGen = os.length + 2)
    (P := fun _ c => ∃ p, c = .create p)
    (fun os s c s' o hI hp he => by
      obtain ⟨p, rfl⟩ := hp
      obtain ⟨hnovas, hpesa, hs, hn⟩ := hI
      obtain ⟨hpesa', hs', hn'⟩ := novas_create hnovas hpesa hs he
      refine ⟨hnovas.create he, hpesa', hs', ?_⟩
      rw [hn', hn, List.length_append, List.length_singleton])
    ⟨sthreadUserInit_novas, fun _ => ⟨Int.le_refl 0, Int.le_refl 1, Int.le_refl 0⟩,
      ⟨rfl, ⟨rfl, rfl, rfl⟩, rfl, rfl⟩, rfl⟩
    (Runs.permitted_of_forall fun c hc s => by
      obtain ⟨p, -, rfl⟩ := List.mem_map.mp hc
      exact ⟨p, rfl⟩) hr
  refine ⟨⟨hnovas.equilibrio, hpesa, hs⟩, ?_⟩
  rw [hn, List.nil_append, hlen]

/-- The main thread creates threads, and then only time passes: while a thread waits for the CPU,
no more ticks pass than 205 for each of the other threads. -/
theorem espera_limitada (ps : List ℤ) (cs₁ cs₂ : List Chamada) (hcs₁ : ∀ c ∈ cs₁, SoTempo c)
    (s s' : Escalonador) (os₁ os₂ : List Resposta)
    (hr₁ : Runs.run passo sthreadUserInit (ps.map .create ++ cs₁) = some (s, os₁))
    (hr₂ : Runs.run passo s cs₂ = some (s', os₂)) (t : ℕ) (ht : 0 < t ∧ t ≤ ps.length + 1)
    (hespera : Runs.Permitted passo (fun s c => SoTempo c ∧ s.activeThr ≠ t) s cs₂) :
    cs₂.count .dispatcher ≤ 205 * ps.length := by
  obtain ⟨s₀, os₀, os₀', h₀, h₁, -⟩ := Runs.run_append_eq_some hr₁
  obtain ⟨hC₀, hn₀⟩ := corrida_novas h₀
  obtain ⟨hC, hn⟩ : Corrida s ∧ s.tidGen = ps.length + 2 :=
    Runs.run_invariant (I := fun x => Corrida x ∧ x.tidGen = ps.length + 2)
      (P := fun _ c => SoTempo c) (fun _ _ _ _ hI hp he => by
        obtain ⟨hC, -, htid⟩ := hI.1.passo hp he
        exact ⟨hC, htid.trans hI.2⟩) ⟨hC₀, hn₀⟩
      (Runs.permitted_of_forall fun c hc _ => hcs₁ c hc) h₁
  obtain ⟨hC', htid, hconta⟩ := hC.conta_eq hespera hr₂
  have hcount := Runs.run_countP_le (p := (· == Chamada.dispatcher)) (φ := outras s.tidGen t)
    (I := fun x => Corrida x ∧ x.tidGen = s.tidGen)
    (fun x c x' o hI hp he => by
      obtain ⟨hx, -, htid⟩ := hI.1.passo hp.1 he
      refine ⟨⟨hx, htid.trans hI.2⟩, ?_⟩
      simpa using hI.1.outras_le hI.2 hp.2 hp.1 he) ⟨hC, rfl⟩ hespera hr₂
  -- each of the others has used at most 205
  have hsum : outras s.tidGen t s' ≤ outras s.tidGen t s + 205 * ps.length := by
    have hcard : ((Finset.Ico 1 s.tidGen).erase t).card = ps.length := by
      rw [Finset.card_erase_of_mem (Finset.mem_Ico.mpr (by omega)), Nat.card_Ico]
      omega
    have hle : outras s.tidGen t s' ≤
        ∑ u ∈ (Finset.Ico 1 s.tidGen).erase t, ((s.thread u).conta.avanco + 205) := by
      refine Finset.sum_le_sum fun u hu => ?_
      have hu := Finset.mem_Ico.mp (Finset.mem_of_mem_erase hu)
      exact hC.avanco_le hC' htid (by omega) (by omega) hconta
    rw [Finset.sum_add_distrib, Finset.sum_const, hcard, nsmul_eq_mul] at hle
    rw [outras, outras] at *
    omega
  rw [List.count]
  omega

/-- Thread 2 waits for one tick, which gives it the CPU. -/
theorem espera_limitada_um_pulso :
    ∃ s os s' os', Runs.run passo sthreadUserInit ([10].map .create ++ []) = some (s, os) ∧
      Runs.run passo s [.dispatcher] = some (s', os') ∧ s'.activeThr = 2 ∧
      [Chamada.dispatcher].count .dispatcher ≤ 205 * [(10 : ℤ)].length :=
  ⟨_, _, _, _, rfl, rfl, rfl, espera_limitada [10] [] [.dispatcher] (by decide) _ _ _ _ rfl rfl 2
    (by decide) (by decide)⟩

end ThreadScheduler.SthreadLib
