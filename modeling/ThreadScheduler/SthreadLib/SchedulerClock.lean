import Mathlib.Data.Finset.Card
import ThreadScheduler.SthreadLib.SchedulerCharge
import ThreadScheduler.SthreadLib.SchedulerCreated

/-!
# The clock

The dispatcher moves the clock after the point where it may switch to another thread, so that a
tick is missing from the clock as long as its thread is suspended there. A thread is suspended in
one dispatcher at most, which ends before the thread goes on.
-/
namespace ThreadScheduler.SthreadLib

open ArvoreRB Escalonador

variable {s s' : Escalonador} {r : Resposta}

/-- The threads that are suspended in a dispatcher. -/
def suspensas (n : ℕ) (ponto : ℕ → Ponto) : Finset ℕ :=
  (Finset.range n).filter fun t => (ponto t).suspenso

theorem mem_suspensas {n t : ℕ} {ponto : ℕ → Ponto} :
    t ∈ suspensas n ponto ↔ t < n ∧ (ponto t).suspenso = true := by
  rw [suspensas, Finset.mem_filter, Finset.mem_range]

/-- A thread stops in a dispatcher. -/
theorem card_suspensas_update {n a : ℕ} (ponto : ℕ → Ponto) {p : Ponto} (ha : a < n)
    (hlivre : (ponto a).suspenso = false) (hp : p.suspenso = true) :
    (suspensas n (Function.update ponto a p)).card = (suspensas n ponto).card + 1 := by
  have hins : suspensas n (Function.update ponto a p) = insert a (suspensas n ponto) := by
    ext t
    rw [Finset.mem_insert, mem_suspensas, mem_suspensas]
    by_cases ht : t = a
    · subst ht
      rw [Function.update_self]
      exact iff_of_true ⟨ha, hp⟩ (.inl rfl)
    · rw [Function.update_of_ne ht, or_iff_right ht]
  rw [hins, Finset.card_insert_of_notMem]
  intro hm
  rw [mem_suspensas, hlivre] at hm
  exact Bool.false_ne_true hm.2

/-- The dispatcher calls started up to a step. -/
def pulsos (n : ℕ) (x : Escalonador × Chamada × Resposta) : ℕ :=
  if x.2.1 = .dispatcher then n + 1 else n

/-- The clock is behind by the ticks whose threads are suspended. -/
structure Atrasado (n : ℕ) (s : Escalonador) : Prop where
  povoado : Povoado s
  nova : ∀ t, s.tidGen ≤ t → (s.ponto t).suspenso = false
  volta : ∀ t antes, s.ponto t = .noDespacho antes → antes.suspenso = false
  conta : s.clock + (suspensas s.tidGen s.ponto).card = n + 1

namespace Atrasado

variable {n : ℕ}

theorem create (h : Atrasado n s) (hs' : Povoado s') {p : ℤ}
    (he : sthreadUserCreate s p = .segue s' r) : Atrasado n s' := by
  obtain ⟨rfl, -⟩ := Resultado.segue.inj he
  have hponto : ∀ t, (Function.update s.ponto s.tidGen .livre t).suspenso =
      (s.ponto t).suspenso := by
    intro t
    rw [Function.update_apply]
    split
    · rename_i ht
      rw [ht, h.nova s.tidGen (Nat.le_refl _)]
      rfl
    · rfl
  refine ⟨hs', fun t ht => ?_, fun t antes ht => ?_, ?_⟩
  · exact (hponto t).trans (h.nova t (Nat.le_of_succ_le ht))
  · have ht : Function.update s.ponto s.tidGen .livre t = .noDespacho antes := ht
    rw [Function.update_apply] at ht
    split at ht
    · cases ht
    · exact h.volta t antes ht
  · have hcard : suspensas (s.tidGen + 1) (Function.update s.ponto s.tidGen .livre) =
        suspensas s.tidGen s.ponto := by
      ext t
      rw [mem_suspensas, mem_suspensas, hponto]
      refine ⟨fun ht => ⟨?_, ht.2⟩, fun ht => ⟨Nat.lt_succ_of_lt ht.1, ht.2⟩⟩
      by_contra hge
      rw [h.nova t (Nat.le_of_not_lt hge)] at ht
      exact Bool.false_ne_true ht.2
    exact (congrArg (s.clock + Finset.card ·) hcard).trans h.conta

theorem semPulso (h : Atrasado n s) (hs' : Povoado s')
    (hp : (s.ponto s.activeThr).suspenso = false) (hs : SemPulso s s') : Atrasado n s' := by
  have hponto : ∀ t, (s'.ponto t).suspenso = (s.ponto t).suspenso := by
    intro t
    rcases hs.ponto t with he | ⟨rfl, he⟩
    · rw [he]
    · rw [he, hp]
  refine ⟨hs', fun t ht => ?_, fun t antes ht => ?_, ?_⟩
  · rw [hponto]
    exact h.nova t (hs.tidGen ▸ ht)
  · rcases hs.ponto t with he | ⟨rfl, he⟩
    · exact h.volta t antes (he ▸ ht)
    · rw [ht] at he
      cases he
  · have hcard : suspensas s'.tidGen s'.ponto = suspensas s.tidGen s.ponto := by
      ext t
      rw [mem_suspensas, mem_suspensas, hponto, hs.tidGen]
    rw [hcard, hs.clock]
    exact h.conta

theorem dispatcher (h : Atrasado n s) (hs' : Povoado s')
    (hp : (s.ponto s.activeThr).suspenso = false)
    (he : sthreadUserDispatcher s = .segue s' r) : Atrasado (n + 1) s' := by
  obtain ⟨htid, ⟨hclock, hponto, -⟩ | ⟨hclock, hponto, -⟩⟩ := sthreadUserDispatcher_conta he
  · refine ⟨hs', fun t ht => ?_, fun t antes ht => ?_, ?_⟩
    · rw [htid] at ht
      have hact := h.povoado.ativa
      rw [hponto, Function.update_of_ne (by omega)]
      exact h.nova t ht
    · rw [hponto, Function.update_apply] at ht
      split at ht
      · rw [← Ponto.noDespacho.inj ht]
        exact hp
      · exact h.volta t antes ht
    · rw [hclock, htid, hponto, card_suspensas_update _ h.povoado.ativa hp rfl, ← h.conta]
      omega
  · refine ⟨hs', ?_, ?_, ?_⟩
    · rw [htid, hponto]
      exact h.nova
    · rw [hponto]
      exact h.volta
    · rw [hclock, htid, hponto, ← h.conta]
      omega

/-- A thread goes on at the end of its dispatcher. -/
theorem fim (h : Atrasado n s) {antes : Ponto} (hp : s.ponto s.activeThr = .noDespacho antes)
    (hs' : Povoado ((fimDispatcher s).parar s.activeThr antes)) :
    Atrasado n ((fimDispatcher s).parar s.activeThr antes) := by
  obtain ⟨-, -, htid, hponto⟩ := fimDispatcher_campos s
  have hantes := h.volta s.activeThr antes hp
  have hvolta : Function.update (Function.update s.ponto s.activeThr antes) s.activeThr
      (.noDespacho antes) = s.ponto := by
    rw [Function.update_idem, ← hp, Function.update_eq_self]
  have hcard := card_suspensas_update (Function.update s.ponto s.activeThr antes)
    (p := .noDespacho antes) h.povoado.ativa
    (by rw [Function.update_self]; exact hantes) rfl
  rw [hvolta] at hcard
  refine ⟨hs', fun t ht => ?_, fun t depois ht => ?_, ?_⟩
  · rw [Escalonador.parar, htid] at ht
    simp only [Escalonador.parar, hponto, Function.update_apply]
    split
    · exact hantes
    · exact h.nova t ht
  · simp only [Escalonador.parar, hponto, Function.update_apply] at ht
    split at ht
    · rw [ht] at hantes
      cases hantes
    · exact h.volta t depois ht
  · have hconta := h.conta
    simp only [Escalonador.parar, hponto, htid, fimDispatcher_clock]
    omega

/-- One step of a run. -/
theorem passo (h : Atrasado n s) {c : Chamada} (he : passo s c = some (s', r)) :
    Atrasado (pulsos n (s, c, r)) s' := by
  have hs' := h.povoado.passo he
  obtain ⟨hp, ⟨p, rfl, hc⟩ | ⟨k, rfl, hc⟩ | ⟨rfl, hc⟩ | ⟨hc, hs⟩⟩ | ⟨antes, hp, rfl, rfl, rfl⟩ :=
    passo_pulso he
  · exact h.create hs' hc
  · obtain ⟨rfl, -⟩ := Resultado.segue.inj hc
    exact ⟨hs', h.nova, h.volta, h.conta⟩
  · exact h.dispatcher hs' hp hc
  · rw [pulsos, if_neg]
    · exact h.semPulso hs' hp hs
    · rintro rfl
      cases hc
  · exact h.fim hp hs'

end Atrasado

theorem sthreadUserInit_atrasado : Atrasado 0 sthreadUserInit :=
  ⟨sthreadUserInit_povoado, fun _ _ => rfl, fun _ _ ht => Ponto.noConfusion ht, rfl⟩

theorem steps_dispatcher {cs : List Chamada} {os : List Resposta} {n : ℕ}
    (hr : Runs.run passo s cs = some (s', os)) :
    (Runs.steps passo s cs).foldl pulsos n = n + cs.count .dispatcher := by
  induction cs generalizing s os n with
  | nil => rfl
  | cons c cs ih =>
      obtain ⟨s₁, o, os', hs, hr', -⟩ := Runs.run_cons_eq_some hr
      rw [Runs.steps, hs, List.foldl_cons, ih hr', pulsos, List.count_cons]
      by_cases hc : c = .dispatcher
      · simp [hc]
        omega
      · simp [hc]

/-- The clock has counted all ticks when no thread is suspended in a dispatcher, and only then. -/
theorem relogio_certo_iff (cs : List Chamada) (s : Escalonador) (os : List Resposta)
    (hr : Runs.run passo sthreadUserInit cs = some (s, os)) :
    s.clock = 1 + cs.count .dispatcher ↔ ∀ t antes, s.ponto t ≠ .noDespacho antes := by
  have h := Runs.run_history (P := fun _ _ => True) (J := Atrasado)
    (fun _ _ _ _ _ hJ _ he => hJ.passo he) sthreadUserInit_atrasado
    (Runs.permitted_of_forall fun _ _ _ => trivial) hr
  rw [steps_dispatcher hr, Nat.zero_add] at h
  have hconta := h.conta
  constructor
  · intro hclock t antes ht
    have hvazio : suspensas s.tidGen s.ponto = ∅ := Finset.card_eq_zero.mp (by omega)
    have hlt : t < s.tidGen := by
      by_contra hge
      have hnova := h.nova t (Nat.le_of_not_lt hge)
      rw [ht] at hnova
      cases hnova
    have hm : t ∈ suspensas s.tidGen s.ponto := mem_suspensas.mpr ⟨hlt, by rw [ht]; rfl⟩
    rw [hvazio] at hm
    exact absurd hm (Finset.notMem_empty t)
  · intro hlivre
    have hvazio : suspensas s.tidGen s.ponto = ∅ := by
      refine Finset.eq_empty_of_forall_notMem fun t ht => ?_
      obtain ⟨-, hsusp⟩ := mem_suspensas.mp ht
      cases hp : s.ponto t with
      | noDespacho antes => exact hlivre t antes hp
      | _ =>
          rw [hp] at hsusp
          cases hsusp
    rw [hvazio, Finset.card_empty] at hconta
    omega

/-- Thread 2 yields, and the thread that was suspended at the first tick has gone on. -/
theorem relogio_certo_exemplo :
    ∃ s os, Runs.run passo sthreadUserInit [.create 1, .dispatcher, .yield, .resume] =
        some (s, os) ∧
      (s.clock = 1 + 1 ↔ ∀ t antes, s.ponto t ≠ .noDespacho antes) :=
  ⟨_, _, rfl, relogio_certo_iff [.create 1, .dispatcher, .yield, .resume] _ _ rfl⟩

/-- The first tick switches to the new thread 2, for which the second one starts while the clock
shows 1. -/
theorem relogio_atrasado :
    ∃ s os, Runs.run passo sthreadUserInit [.create 1, .dispatcher] = some (s, os) ∧
      (passo s .dispatcher).isSome = true ∧ s.clock = 1 ∧
      s.clock ≠ 1 + [Chamada.create 1, .dispatcher].count .dispatcher := by
  obtain ⟨s, os, hrun, hsome, hclock⟩ : ∃ s os,
      Runs.run passo sthreadUserInit [.create 1, .dispatcher] = some (s, os) ∧
      (passo s .dispatcher).isSome = true ∧ s.clock = 1 :=
    Runs.exists_run_of_any (by decide)
  exact ⟨s, os, hrun, hsome, hclock, by rw [hclock]; decide⟩

end ThreadScheduler.SthreadLib
