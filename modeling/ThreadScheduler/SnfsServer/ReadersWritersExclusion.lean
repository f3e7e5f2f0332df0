import ThreadScheduler.SnfsServer.ReadersWriters

/-!
# Readers and writers together

Each side tests the other's counter and counts itself later, under its own monitor alone. A reader
and a writer that both pass their tests before either has counted itself are in their sections
together. Nothing else lets them in together.
-/
namespace ThreadScheduler.SnfsServer

open SthreadLib

/-- The side whose test the thread has passed. -/
def Posicao.passou : Posicao → Option Lado
  | .naoQuerer d => some d
  | .contar d => some d
  | p => p.activo

namespace Sincronizacao

open Counting Runs

variable {s s' : Sincronizacao} {t : ℕ}

/-- No reader is active together with a writer, and no two writers are. -/
def Exclui (s : Sincronizacao) : Prop :=
  ¬(0 < s.escritores ∧ 0 < s.leitores) ∧ ¬1 < s.escritores

/-- A thread between its passed test and the count of itself, which has the monitor of `d`. -/
def PorContar (s : Sincronizacao) (d : Lado) (u : ℕ) : Prop :=
  s.thread u = .naoQuerer d ∨ s.thread u = .contar d

instance (s : Sincronizacao) (d : Lado) (u : ℕ) : Decidable (PorContar s d u) :=
  inferInstanceAs (Decidable (_ ∨ _))

/-- No thread passes its test while a thread of the other side is between its own and its count. -/
def SemCorrida (s : Sincronizacao) : Accao → Prop
  | .inicia _ _ => True
  | .continua t _ =>
      match s.thread t with
      | .testar d => s.temDeEsperar d = false → ∀ u ∈ (s.mon d.outro).thr, ¬PorContar s d.outro u
      | _ => True

instance (s : Sincronizacao) (a : Accao) : Decidable (SemCorrida s a) :=
  match a with
  | .inicia _ _ => inferInstanceAs (Decidable True)
  | .continua t _ => show Decidable (match s.thread t with
      | .testar d => s.temDeEsperar d = false → ∀ u ∈ (s.mon d.outro).thr, ¬PorContar s d.outro u
      | _ => True) from
    match s.thread t with
    | .testar d => inferInstanceAs (Decidable
        (s.temDeEsperar d = false → ∀ u ∈ (s.mon d.outro).thr, ¬PorContar s d.outro u))
    | .fora | .entrar _ | .esperar _ | .naoQuerer _ | .contar _ | .verQuerem | .acordarTodos
    | .passarTurno | .dentro _ | .verUltimo | .acordarEscritor | .turnoLeitura | .verLeitores
    | .acordarLeitores | .acordarOutro | .sair _ | .emLock _ | .girando _ | .emWaitUnlock _
    | .emWait _ | .emUnlock _ =>
        inferInstanceAs (Decidable True)

theorem passou_of_mem_seguintes {p : Posicao} : ∀ q ∈ p.seguintes,
    q.passou = p.passou ∨ q.passou = none ∨ ∃ d, p = .testar d ∧ q = .naoQuerer d := by
  cases p with
  | contar d => cases d <;> simp [Posicao.seguintes, Posicao.passou, Posicao.activo]
  | dentro d => cases d <;> simp [Posicao.seguintes, Posicao.passou, Posicao.activo]
  | _ => simp [Posicao.seguintes, Posicao.passou, Posicao.activo]

/-- A thread passes its test where the condition of the wait loop is false. -/
theorem temDeEsperar_of_continuar {d : Lado} {troca : Bool} (hp : s.thread t = .testar d)
    (hs : s.continuar t troca = some s') (ht : s'.thread t = .naoQuerer d) :
    s.temDeEsperar d = false := by
  simp only [continuar, hp, Option.some.injEq] at hs
  subst hs
  cases h : s.temDeEsperar d with
  | false => rfl
  | true => simp [ir, h] at ht

/-- No reader has passed its test together with a writer. -/
def Separada (s : Sincronizacao) : Prop :=
  ∀ d t u, (s.thread t).passou = some d → (s.thread u).passou ≠ some d.outro

theorem passou_of_activo {p : Posicao} {d : Lado} (h : p.activo = some d) :
    p.passou = some d := by
  cases p with
  | naoQuerer e => cases h
  | contar e => cases h
  | _ => exact h

/-- Past its test, a thread has not counted itself yet or is active. -/
theorem passou_cases {d : Lado} {u : ℕ} (h : (s.thread u).passou = some d) :
    PorContar s d u ∨ (s.thread u).activo = some d := by
  cases hp : s.thread u with
  | naoQuerer e =>
      rw [hp] at h
      obtain rfl : e = d := Option.some.inj h
      exact .inl (.inl hp)
  | contar e =>
      rw [hp] at h
      obtain rfl : e = d := Option.some.inj h
      exact .inl (.inr hp)
  | _ =>
      rw [hp] at h
      exact .inr h

theorem onde_of_porContar {d : Lado} {u : ℕ} (h : PorContar s d u) :
    (s.thread u).onde = some (d, .dono) := by
  obtain h | h := h <;> rw [h] <;> rfl

theorem Separada.continuar (h : Separada s) (hc : Contada s) {troca : Bool}
    (hP : SemCorrida s (.continua t troca)) (hs : s.continuar t troca = some s') :
    Separada s' := by
  obtain ⟨q, hq, hthread⟩ := continuar_seguintes hs
  -- a thread that passes its test finds no thread of the other side past its own
  have hlivre : ∀ d, s.thread t = .testar d → q = .naoQuerer d →
      ∀ u, (s.thread u).passou ≠ some d.outro := by
    rintro d hp rfl u hu
    have ht : s.temDeEsperar d = false :=
      temDeEsperar_of_continuar hp hs (by rw [hthread, Function.update_self])
    obtain hpor | hact := passou_cases hu
    · unfold SemCorrida at hP
      simp only [hp] at hP
      exact hP ht u (hc.dono (onde_of_porContar hpor)) hpor
    · have hpos := (hc.activos d.outro).pos_iff.mpr ⟨u, by simpa using hact⟩
      rw [activos_outro_of_temDeEsperar ht] at hpos
      exact absurd hpos (lt_irrefl 0)
  intro d u v hu hv
  rw [hthread] at hu hv
  have hne : u ≠ v := by
    rintro rfl
    rw [hu] at hv
    cases d <;> cases hv
  by_cases hut : u = t
  · subst hut
    rw [Function.update_self] at hu
    rw [Function.update_of_ne hne.symm] at hv
    obtain he | he | ⟨e, hp, rfl⟩ := passou_of_mem_seguintes q hq
    · exact h d u v (he ▸ hu) hv
    · rw [he] at hu
      cases hu
    · obtain rfl : e = d := Option.some.inj hu
      exact hlivre e hp rfl v hv
  · rw [Function.update_of_ne hut] at hu
    by_cases hvt : v = t
    · subst hvt
      rw [Function.update_self] at hv
      obtain he | he | ⟨e, hp, rfl⟩ := passou_of_mem_seguintes q hq
      · exact h d u v hu (he ▸ hv)
      · rw [he] at hv
        cases hv
      · obtain rfl : e = d.outro := Option.some.inj hv
        exact hlivre _ hp rfl u (by rw [outro_outro]; exact hu)
    · rw [Function.update_of_ne hvt] at hv
      exact h d u v hu hv

theorem Separada.passo (h : Separada s) (hc : Contada s) {a : Accao} {o : Unit}
    (hP : SemCorrida s a) (hs : s.passo a = some (s', o)) : Separada s' := by
  cases a with
  | inicia t d =>
      simp only [Sincronizacao.passo, Option.ite_none_right_eq_some, Option.some.injEq,
        Prod.mk.injEq, and_true] at hs
      obtain ⟨hp, rfl⟩ := hs
      have hpassou : ∀ u, ((((s.mudarWanna d 1).ir t (.entrar d)).thread) u).passou =
          (s.thread u).passou := by
        intro u
        by_cases hu : u = t
        · subst hu
          simp [ir, hp, Posicao.passou, Posicao.activo]
        · simp [ir, mudarWanna, hu]
      intro e u v hu hv
      rw [hpassou] at hu hv
      exact h e u v hu hv
  | continua t troca =>
      obtain ⟨s₁, hs₁, he⟩ := Option.map_eq_some_iff.mp hs
      obtain ⟨rfl, -⟩ := Prod.mk.inj he
      exact h.continuar hc hP hs₁

theorem Separada.exclui (h : Separada s) (hc : Contada s) : Exclui s := by
  refine ⟨fun hpos => ?_, not_lt.mpr (hc.activos_le_one .escritor)⟩
  obtain ⟨t, ht⟩ := (hc.activos .escritor).pos_iff.mp hpos.1
  obtain ⟨u, hu⟩ := (hc.activos .leitor).pos_iff.mp hpos.2
  exact h .escritor t u (passou_of_activo (of_decide_eq_true ht))
    (passou_of_activo (of_decide_eq_true hu))

/-- A thread past its test counts itself without another call. -/
theorem contar_corre {d : Lado} {u : ℕ} (h : PorContar s d u) :
    ∃ as s' os, run passo s as = some (s', os) ∧ (s'.thread u).activo = some d ∧
      ∀ v, v ≠ u → s'.thread v = s.thread v := by
  have hconta : ∀ s : Sincronizacao, s.thread u = .contar d →
      ∃ s', s.passo (.continua u false) = some (s', ()) ∧ (s'.thread u).activo = some d ∧
        ∀ v, v ≠ u → s'.thread v = s.thread v := by
    intro s hp
    cases d with
    | leitor =>
        refine ⟨(s.mudarActivos .leitor 1).ir u .verQuerem, ?_, ?_, fun v hv => ?_⟩
        · simp [passo, continuar, hp]
        · simp [ir, Posicao.activo]
        · simp [ir, mudarActivos, hv]
    | escritor =>
        refine ⟨(s.mudarActivos .escritor 1).ir u (.dentro .escritor), ?_, ?_, fun v hv => ?_⟩
        · simp [passo, continuar, hp]
        · simp [ir, Posicao.activo]
        · simp [ir, mudarActivos, hv]
  obtain hp | hp := h
  · obtain ⟨s', hs, hact, hother⟩ := hconta ((s.mudarWanna d (-1)).ir u (.contar d)) (by simp [ir])
    refine ⟨[.continua u false, .continua u false], s', [(), ()], ?_, hact, fun v hv => ?_⟩
    · have h₁ : s.passo (.continua u false) =
          some ((s.mudarWanna d (-1)).ir u (.contar d), ()) := by
        simp [passo, continuar, hp]
      simp [run, h₁, hs]
    · rw [hother v hv]
      simp [ir, mudarWanna, hv]
  · obtain ⟨s', hs, hact, hother⟩ := hconta s hp
    exact ⟨[.continua u false], s', [()], by simp [run, hs], hact, hother⟩

theorem contada_run {turno : ℤ} {as : List Accao} {os : List Unit}
    (hr : run passo (inicial turno) as = some (s, os)) : Contada s :=
  run_invariant (P := fun _ _ => True) (fun _ _ _ _ h _ hs => h.passo hs)
    (contada_inicial turno) (permitted_of_forall fun _ _ _ => trivial) hr

/-- Where the tests of the two sides run together, the two threads can be active together. -/
theorem corrida_corre (h : Contada s) {a : Accao} (ha : ¬SemCorrida s a) :
    ∃ as s' os, run passo s as = some (s', os) ∧ ¬Exclui s' := by
  cases a with
  | inicia t d => exact absurd trivial ha
  | continua t troca =>
      unfold SemCorrida at ha
      cases hp : s.thread t with
      | testar d =>
          simp only [hp, not_forall, not_not] at ha
          obtain ⟨ht, u, -, hu⟩ := ha
          have hut : u ≠ t := by
            rintro rfl
            obtain hu | hu := hu <;> rw [hp] at hu <;> cases hu
          have hs : s.passo (.continua t troca) = some (s.ir t (.naoQuerer d), ()) := by
            simp [passo, continuar, hp, ht]
          obtain ⟨as₁, s₁, os₁, hr₁, hact₁, hother₁⟩ :=
            contar_corre (s := s.ir t (.naoQuerer d)) (d := d) (u := t) (.inl (by simp [ir]))
          have hu₁ : s₁.thread u = s.thread u := by
            rw [hother₁ u hut]
            simp [ir, hut]
          obtain ⟨as₂, s₂, os₂, hr₂, hact₂, hother₂⟩ :=
            contar_corre (s := s₁) (d := d.outro) (u := u) (by
              unfold PorContar
              rw [hu₁]
              exact hu)
          have hrun : run passo s (.continua t troca :: (as₁ ++ as₂)) =
              some (s₂, () :: (os₁ ++ os₂)) := by
            simp [run, hs, run_append hr₁ hr₂]
          refine ⟨_, s₂, _, hrun, fun hex => hex.1 ?_⟩
          have hc : Contada s₂ :=
            run_invariant (P := fun _ _ => True) (fun _ _ _ _ h _ hs => h.passo hs) h
              (permitted_of_forall fun _ _ _ => trivial) hrun
          have htact : (s₂.thread t).activo = some d := by rw [hother₂ t hut.symm, hact₁]
          have hpos : ∀ e v, (s₂.thread v).activo = some e → 0 < s₂.activos e := fun e v hv =>
            (hc.activos e).pos_iff.mpr ⟨v, decide_eq_true hv⟩
          cases d with
          | leitor => exact ⟨hpos _ u hact₂, hpos _ t htact⟩
          | escritor => exact ⟨hpos _ t htact, hpos _ u hact₂⟩
      | _ => simp [hp] at ha

/-- Readers and writers exclude each other in every run in which no thread passes its test while
one of the other side is between its own and its count; from a state where one can, the two are
active together in some run. -/
theorem leitores_excluem_escritores (turno : ℤ) {as : List Accao} {os : List Unit}
    (hr : run passo (inicial turno) as = some (s, os)) :
    (Permitted passo SemCorrida (inicial turno) as → Exclui s) ∧
      ∀ a, ¬SemCorrida s a → ∃ as' s' os', run passo s as' = some (s', os') ∧ ¬Exclui s' := by
  refine ⟨fun hP => ?_, fun a ha => corrida_corre (contada_run hr) ha⟩
  have hinv : Contada s ∧ Separada s := by
    refine run_invariant (I := fun s => Contada s ∧ Separada s) (fun _ _ _ _ h hP hs => ?_)
      ⟨contada_inicial turno, fun _ _ _ h => nomatch h⟩ hP hr
    exact ⟨h.1.passo hs, h.2.passo h.1 hP hs⟩
  exact hinv.2.exclui hinv.1

/-- A reader enters and a writer waits for it. -/
def umDeCada : List Accao :=
  [.inicia 0 .leitor, .inicia 1 .escritor, .continua 0 false, .continua 0 false, .continua 0 false,
    .continua 0 false, .continua 1 false, .continua 1 false, .continua 1 false]

theorem leitores_excluem_escritores_exemplo :
    ∃ s os, run passo (inicial 0) umDeCada = some (s, os) ∧ s.leitores = 1 ∧
      (s.mon .escritor).espera = [1] ∧ Exclui s := by
  have hr : run passo (inicial 0) umDeCada = some (_, _) := rfl
  exact ⟨_, _, hr, rfl, rfl, (leitores_excluem_escritores 0 hr).1 (by decide)⟩

/-- A reader and a writer pass their tests, and then count themselves. -/
def corrida : List Accao :=
  [.inicia 0 .leitor, .inicia 1 .escritor, .continua 0 false, .continua 1 false, .continua 0 false,
    .continua 1 false, .continua 0 false, .continua 0 false, .continua 1 false, .continua 1 false]

theorem leitor_com_escritor :
    ∃ s os, run passo (inicial 0) corrida = some (s, os) ∧ s.escritores = 1 ∧ s.leitores = 1 ∧
      ¬Exclui s :=
  ⟨_, _, rfl, rfl, rfl, fun h => h.1 (by decide)⟩

end Sincronizacao

end ThreadScheduler.SnfsServer
