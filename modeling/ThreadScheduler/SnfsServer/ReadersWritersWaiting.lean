import ThreadScheduler.SnfsServer.ReadersWriters

/-!
# Readers and writers left waiting

The last reader signals the monitor of the writers, and a writer signals that of the readers, each
from outside it, where a signal is ignored. Who waits then is left to chance: another thread of
its own side may wake it, or none. While each wait has a thread of the other side that still has
its signal to make, and no such signal is made while one waits for it, nobody is left waiting.
-/
namespace ThreadScheduler.SnfsServer

open SthreadLib

/-- The side that the thread still has to wake. -/
def Posicao.acorda : Posicao → Option Lado
  | .verQuerem => some .escritor
  | .acordarTodos => some .escritor
  | .passarTurno => some .escritor
  | .dentro d => some d.outro
  | .verUltimo => some .escritor
  | .acordarEscritor => some .escritor
  | .turnoLeitura => some .leitor
  | .verLeitores => some .leitor
  | .acordarLeitores => some .leitor
  | _ => none

namespace Sincronizacao

open Counting Runs

variable {s s' : Sincronizacao} {t : ℕ}

/-- Nobody is active, every thread that entered has finished, no thread is in the queue of a
mutex, and yet one waits in a monitor. -/
def Abandona (s : Sincronizacao) : Prop :=
  s.escritores = 0 ∧ s.leitores = 0 ∧ (∀ t, (s.thread t).entrou = false) ∧
    (∀ d, (s.mon d).queue = []) ∧ ∃ d, (s.mon d).espera ≠ []

/-- A thread waits only while one of the other side still has to wake it, and a signal from
outside a monitor is made only while nobody waits in the monitor. -/
def SemPerda (s : Sincronizacao) : Accao → Prop
  | .inicia _ _ => True
  | .continua t _ =>
      match s.thread t with
      | .esperar d => ∃ u ∈ (s.mon d.outro).thr, (s.thread u).acorda = some d
      | .acordarEscritor => (s.mon .escritor).espera = []
      | .acordarLeitores => (s.mon .leitor).espera = []
      | _ => True

instance (s : Sincronizacao) (a : Accao) : Decidable (SemPerda s a) :=
  match a with
  | .inicia _ _ => inferInstanceAs (Decidable True)
  | .continua t _ => show Decidable (match s.thread t with
      | .esperar d => ∃ u ∈ (s.mon d.outro).thr, (s.thread u).acorda = some d
      | .acordarEscritor => (s.mon .escritor).espera = []
      | .acordarLeitores => (s.mon .leitor).espera = []
      | _ => True) from
    match s.thread t with
    | .esperar d =>
        inferInstanceAs (Decidable (∃ u ∈ (s.mon d.outro).thr, (s.thread u).acorda = some d))
    | .acordarEscritor => inferInstanceAs (Decidable ((s.mon .escritor).espera = []))
    | .acordarLeitores => inferInstanceAs (Decidable ((s.mon .leitor).espera = []))
    | .fora | .entrar _ | .testar _ | .naoQuerer _ | .contar _ | .verQuerem | .acordarTodos
    | .passarTurno | .dentro _ | .verUltimo | .turnoLeitura | .verLeitores | .acordarOutro
    | .sair _ | .emLock _ | .girando _ | .emWaitUnlock _ | .emWait _ | .emUnlock _ =>
        inferInstanceAs (Decidable True)

/-- Everyone who waits in a monitor has a thread that still has to wake it. -/
def Acompanhada (s : Sincronizacao) : Prop :=
  ∀ d, (s.mon d).espera ≠ [] → ∃ t, (s.thread t).acorda = some d

theorem espera_mudar {d e : Lado} {M : Monitor} (hM : M.espera ≠ [] → (s.mon e).espera ≠ [])
    (hd : (Function.update s.mon e M d).espera ≠ []) : (s.mon d).espera ≠ [] := by
  by_cases he : d = e
  · subst he
    rw [Function.update_self] at hd
    exact hM hd
  · rwa [Function.update_of_ne he] at hd

/-- A step adds to the queue of a monitor only as a wait. -/
theorem espera_of_continuar {troca : Bool} (hs : s.continuar t troca = some s') {d : Lado}
    (hd : (s'.mon d).espera ≠ []) : (s.mon d).espera ≠ [] ∨ s.thread t = .esperar d := by
  unfold continuar at hs
  cases hp : s.thread t with
  | fora => simp [hp] at hs
  | entrar e =>
      simp only [hp, Option.some.injEq] at hs
      subst hs
      exact .inl (espera_mudar (fun h => by rwa [Monitor.enter_espera] at h) hd)
  | testar e =>
      simp only [hp, Option.some.injEq] at hs
      subst hs
      exact .inl hd
  | esperar e =>
      simp only [hp, Option.some.injEq] at hs
      subst hs
      by_cases he : d = e
      · exact .inr (he ▸ rfl)
      · refine .inl ?_
        rwa [show (s.chamada t e _ _ _ _ _).mon d = s.mon d from Function.update_of_ne he _ s.mon]
          at hd
  | naoQuerer e =>
      simp only [hp, Option.some.injEq] at hs
      subst hs
      exact .inl hd
  | contar d =>
      cases d with
      | leitor =>
          simp only [hp, Option.some.injEq] at hs
          subst hs
          exact .inl hd
      | escritor =>
          simp only [hp, Option.some.injEq] at hs
          subst hs
          exact .inl hd
  | verQuerem =>
      simp only [hp, Option.some.injEq] at hs
      subst hs
      exact .inl hd
  | acordarTodos =>
      simp only [hp, Option.some.injEq] at hs
      subst hs
      exact .inl (espera_mudar Monitor.espera_signalall hd)
  | passarTurno =>
      simp only [hp, Option.some.injEq] at hs
      subst hs
      exact .inl hd
  | dentro d =>
      cases d with
      | leitor =>
          simp only [hp, Option.some.injEq] at hs
          subst hs
          exact .inl hd
      | escritor =>
          simp only [hp, Option.some.injEq] at hs
          subst hs
          exact .inl hd
  | verUltimo =>
      simp only [hp, Option.some.injEq] at hs
      subst hs
      exact .inl hd
  | acordarEscritor =>
      simp only [hp, Option.some.injEq] at hs
      subst hs
      exact .inl (espera_mudar Monitor.espera_signal hd)
  | turnoLeitura =>
      simp only [hp, Option.some.injEq] at hs
      subst hs
      exact .inl hd
  | verLeitores =>
      simp only [hp, Option.some.injEq] at hs
      subst hs
      exact .inl hd
  | acordarLeitores =>
      simp only [hp, Option.some.injEq] at hs
      subst hs
      exact .inl (espera_mudar Monitor.espera_signalall hd)
  | acordarOutro =>
      simp only [hp, Option.some.injEq] at hs
      subst hs
      exact .inl (espera_mudar Monitor.espera_signal hd)
  | sair e =>
      simp only [hp, Option.some.injEq] at hs
      subst hs
      exact .inl (espera_mudar (fun h => by rwa [Monitor.exit_espera] at h) hd)
  | emLock e =>
      simp only [hp, Option.ite_none_right_eq_some, Option.some.injEq] at hs
      obtain ⟨-, rfl⟩ := hs
      exact .inl hd
  | girando e =>
      simp only [hp, Option.some.injEq] at hs
      subst hs
      exact .inl (espera_mudar (fun h => by rwa [Monitor.sairEEsperar_espera] at h) hd)
  | emWaitUnlock e =>
      simp only [hp, Option.some.injEq] at hs
      subst hs
      exact .inl (espera_mudar (M := { s.mon e with l := false }) (fun h => h) hd)
  | emWait e =>
      simp only [hp, Option.ite_none_right_eq_some, Option.some.injEq] at hs
      obtain ⟨-, rfl⟩ := hs
      exact .inl hd
  | emUnlock e =>
      simp only [hp, Option.some.injEq] at hs
      subst hs
      exact .inl (espera_mudar (M := { s.mon e with l := false }) (fun h => h) hd)

/-- The four steps that end the time in which a thread has to wake a side. -/
theorem acorda_of_mem_seguintes {p : Posicao} {d : Lado} (hp : p.acorda = some d) :
    ∀ q ∈ p.seguintes, q.acorda = some d ∨
      d = .escritor ∧ (p = .verUltimo ∨ p = .acordarEscritor) ∧ q = .sair .leitor ∨
      d = .leitor ∧ (p = .verLeitores ∧ q = .acordarOutro ∨
        p = .acordarLeitores ∧ q = .sair .escritor) := by
  cases p with
  | dentro e => cases e <;> simp_all [Posicao.seguintes, Posicao.acorda, Lado.outro]
  | contar e => cases hp
  | _ => simp_all [Posicao.seguintes, Posicao.acorda, Lado.outro]

/-- The owner of the monitor of the readers, once it has taken itself out of `leitores`, is the
last reader. -/
theorem Contada.ultimo (h : Contada s) (hp : s.thread t = .verUltimo) : s.leitores = 0 := by
  apply (h.activos .leitor).eq_zero_iff.mpr
  intro u
  refine decide_eq_false fun hu => ?_
  have hfase : (s.thread u).fase .leitor = .dono := Posicao.fase_of_onde (onde_of_activo hu)
  have hdono : (s.thread t).fase .leitor = .dono := Posicao.fase_of_onde (by rw [hp]; rfl)
  have htu : t = u := (h.disciplina .leitor).unico (.inl hdono) (.inl hfase)
  rw [← htu, hp] at hu
  cases hu

/-- A thread in a call of the monitor that has not given it the mutex wants to be active. -/
theorem quer_of_fase {p : Posicao} {d : Lado} (h : p.fase d = .girando ∨ p.fase d = .bloqueada) :
    p.quer = some d := by
  have honde : p.onde = some (d, .girando) ∨ p.onde = some (d, .bloqueada) := by
    obtain h | h := h
    · exact .inl (Posicao.onde_of_fase h (by simp))
    · exact .inr (Posicao.onde_of_fase h (by simp))
  cases p <;> simp_all [Posicao.onde, Posicao.quer]

/-- A reader in the queue of its monitor is in `wanna_leitor`. -/
theorem Contada.wanna_ne_zero (h : Contada s) {d : Lado} (hd : (s.mon d).espera ≠ []) :
    s.wanna d ≠ 0 := by
  obtain ⟨u, hu⟩ := List.exists_mem_of_ne_nil _ hd
  apply (h.wanna d).ne_zero_iff.mpr
  refine ⟨u, decide_eq_true ?_⟩
  obtain hf | hf := (h.disciplina d).mem_espera hu
  · exact quer_of_fase (.inl hf)
  · exact quer_of_fase (.inr hf)

/-- The thread that leaves its last place for a wake-up leaves no one waiting. -/
theorem espera_eq_nil {troca : Bool} (hc : Contada s) (hP : SemPerda s (.continua t troca))
    (hs : s.continuar t troca = some s') {d : Lado} {q : Posicao} (hq : q ∈ (s.thread t).seguintes)
    (hthread : s'.thread = Function.update s.thread t q) (hu : (s.thread t).acorda = some d)
    (hqa : q.acorda ≠ some d) : (s.mon d).espera = [] := by
  have htq : s'.thread t = q := by rw [hthread, Function.update_self]
  obtain he | ⟨rfl, hp | hp, rfl⟩ | ⟨rfl, ⟨hp, rfl⟩ | ⟨hp, rfl⟩⟩ :=
    acorda_of_mem_seguintes hu q hq
  · exact absurd he hqa
  · simp only [continuar, hp, hc.ultimo hp, Option.some.injEq] at hs
    subst hs
    simp [ir] at htq
  · unfold SemPerda at hP
    simpa only [hp] using hP
  · by_contra hd
    have hw := hc.wanna_ne_zero hd
    simp only [continuar, hp, Option.some.injEq] at hs
    subst hs
    simp [ir, hw] at htq
  · unfold SemPerda at hP
    simpa only [hp] using hP

theorem Acompanhada.continuar (h : Acompanhada s) (hc : Contada s) {troca : Bool}
    (hP : SemPerda s (.continua t troca)) (hs : s.continuar t troca = some s') :
    Acompanhada s' := by
  obtain ⟨q, hq, hthread⟩ := continuar_seguintes hs
  intro d hd
  obtain hold | hp := espera_of_continuar hs hd
  · obtain ⟨u, hu⟩ := h d hold
    by_cases hut : u = t
    · subst hut
      refine ⟨u, ?_⟩
      rw [hthread, Function.update_self]
      by_contra hqa
      exact hold (espera_eq_nil hc hP hs hq hthread hu hqa)
    · exact ⟨u, by rw [hthread, Function.update_of_ne hut]; exact hu⟩
  · unfold SemPerda at hP
    simp only [hp] at hP
    obtain ⟨u, -, hu⟩ := hP
    have hut : u ≠ t := by
      rintro rfl
      rw [hp] at hu
      cases hu
    exact ⟨u, by rw [hthread, Function.update_of_ne hut]; exact hu⟩

theorem Acompanhada.passo (h : Acompanhada s) (hc : Contada s) {a : Accao} {o : Unit}
    (hP : SemPerda s a) (hs : s.passo a = some (s', o)) : Acompanhada s' := by
  cases a with
  | inicia t d =>
      simp only [Sincronizacao.passo, Option.ite_none_right_eq_some, Option.some.injEq,
        Prod.mk.injEq, and_true] at hs
      obtain ⟨hp, rfl⟩ := hs
      intro e he
      obtain ⟨u, hu⟩ := h e he
      have hut : u ≠ t := by
        rintro rfl
        rw [hp] at hu
        cases hu
      refine ⟨u, ?_⟩
      rw [show ((s.mudarWanna d 1).ir t (.entrar d)).thread u = s.thread u from
        Function.update_of_ne hut _ s.thread]
      exact hu
  | continua t troca =>
      obtain ⟨s₁, hs₁, he⟩ := Option.map_eq_some_iff.mp hs
      obtain ⟨rfl, -⟩ := Prod.mk.inj he
      exact h.continuar hc hP hs₁

/-- A thread that has to wake a side is active, or has entered and not finished. -/
theorem activo_of_acorda {p : Posicao} {d : Lado} (h : p.acorda = some d) :
    p.activo = some d.outro ∨ p.entrou = true := by
  cases p with
  | dentro e => exact .inr rfl
  | verQuerem | acordarTodos | passarTurno =>
      obtain rfl := Option.some.inj h
      exact .inl rfl
  | verUltimo | acordarEscritor | turnoLeitura | verLeitores | acordarLeitores => exact .inr rfl
  | _ => cases h

theorem Acompanhada.not_abandona (h : Acompanhada s) (hc : Contada s) : ¬Abandona s := by
  rintro ⟨hescritores, hleitores, hentrou, -, d, hd⟩
  obtain ⟨t, ht⟩ := h d hd
  obtain hact | he := activo_of_acorda ht
  · have hne := (hc.activos d.outro).ne_zero_iff.mpr ⟨t, decide_eq_true hact⟩
    cases d with
    | leitor => exact hne hescritores
    | escritor => exact hne hleitores
  · rw [hentrou t] at he
    cases he

/-- Nobody is left waiting in a run in which a thread waits only while one of the other side still
has to wake it, and no signal from outside a monitor is made while one waits in the monitor. -/
theorem ninguem_abandonado (turno : ℤ) {as : List Accao} {os : List Unit}
    (hP : Permitted passo SemPerda (inicial turno) as)
    (hr : run passo (inicial turno) as = some (s, os)) : ¬Abandona s := by
  have hinv : Contada s ∧ Acompanhada s := by
    refine run_invariant (I := fun s => Contada s ∧ Acompanhada s) (fun _ _ _ _ h hP hs => ?_)
      ⟨contada_inicial turno, fun _ hd => absurd rfl hd⟩ hP hr
    exact ⟨h.1.passo hs, h.2.passo h.1 hP hs⟩
  exact hinv.2.not_abandona hinv.1

/-- A writer waits for a reader. -/
def umaEspera : List Accao :=
  [.inicia 0 .leitor, .inicia 1 .escritor] ++ List.replicate 4 (.continua 0 false) ++
    List.replicate 3 (.continua 1 false)

theorem ninguem_abandonado_exemplo :
    ∃ s os, run passo (inicial 0) umaEspera = some (s, os) ∧
      (s.mon .escritor).espera = [1] ∧ ¬Abandona s := by
  have hr : run passo (inicial 0) umaEspera = some (_, _) := rfl
  exact ⟨_, _, hr, rfl, ninguem_abandonado 0 (by decide) hr⟩

/-- The reader ends its reading. -/
def leitorNaoAcorda : List Accao :=
  umaEspera ++ List.replicate 6 (.continua 0 false)

theorem escritor_abandonado :
    ∃ s os, run passo (inicial 0) leitorNaoAcorda = some (s, os) ∧ s.thread 0 = .fora ∧
      (s.mon .escritor).espera = [1] ∧ Abandona s := by
  refine ⟨_, _, rfl, rfl, rfl, rfl, rfl, fun t => ?_, fun d => ?_, .escritor, by decide⟩
  · match t with
    | 0 => rfl
    | 1 => rfl
    | t + 2 => rfl
  · cases d <;> rfl

end Sincronizacao

end ThreadScheduler.SnfsServer
