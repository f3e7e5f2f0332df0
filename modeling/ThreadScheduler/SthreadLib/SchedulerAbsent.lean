import ThreadScheduler.SthreadLib.SchedulerRuns
import ThreadScheduler.SthreadLib.SchedulerCreated

/-!
# Joining a thread that is gone

A zombie is joined at once. For every other thread `sthread_user_join` looks in the active slot,
the trees and the join list, and an empty statement after one of these searches makes it find the
thread wherever it is. Threads that wait in a queue are found by that, and so are dead ones.
-/
namespace ThreadScheduler.SthreadLib

open ArvoreRB Escalonador

variable {s : Escalonador} {t : ℕ}

/-- In the active slot, a tree, the join list or a queue. -/
def Presente (s : Escalonador) (t : ℕ) : Prop :=
  t = s.activeThr ∨ t ∈ elementos s.exeThr ∨ t ∈ elementos s.sleepThr ∨ t ∈ s.joinThr ∨
    (∃ m ∈ s.mutexList, t ∈ (s.mutex m).queue) ∨ ∃ mon ∈ s.monitorList, t ∈ (s.monitor mon).queue

/-- Neither a zombie nor anywhere else. -/
def Ausente (s : Escalonador) (t : ℕ) : Prop := t ∉ s.zombieThr ∧ ¬Presente s t

/-- The call has left the queues and the trees. -/
structure MesmasFilas (s s' : Escalonador) : Prop where
  ativa : s'.activeThr = s.activeThr
  exe : s'.exeThr = s.exeThr
  sleep : s'.sleepThr = s.sleepThr
  listas : s'.joinThr = s.joinThr ∧ s'.zombieThr = s.zombieThr ∧ s'.deadThr = s.deadThr
  mutexes : ∀ m, (s'.mutex m).queue = (s.mutex m).queue
  monitores : ∀ mon, (s'.monitor mon).queue = (s.monitor mon).queue

/-- The caller waits for `t`. -/
def aEsperaDe (s : Escalonador) (t : ℕ) : Escalonador :=
  ({ s.mudar s.activeThr (fun th => { th with joinTid := t }) with
    joinThr := s.joinThr ++ [s.activeThr] }).parar s.activeThr (.emJoin t)

/-- A join fails at once for a thread that is gone. For one that is not it puts its caller in the
join list and switches. -/
structure JuncaoCerta (s : Escalonador) (t : ℕ) : Prop where
  ausente : Ausente s t →
    ∃ (s' : Escalonador) (valor : ℕ), sthreadUserJoin s t = .segue s' (.juntou (-1) t valor) ∧
      MesmasFilas s s'
  presente : Presente s t → t ∉ s.zombieThr → sthreadUserJoin s t = (aEsperaDe s t).comutar

/-- The searches find every thread. -/
theorem sthreadUserJoin_of_notMem (h : t ∉ s.zombieThr) :
    sthreadUserJoin s t = (aEsperaDe s t).comutar := by
  rw [sthreadUserJoin, if_neg h]
  simp only [Bool.or_true, Bool.true_or, if_true]
  rfl

/-- The thread that a switch makes active has not failed to join. -/
theorem comutar_ne_juntou (s s' : Escalonador) (codigo : ℤ) (alvo valor : ℕ) :
    s.comutar ≠ .segue s' (.juntou codigo alvo valor) := by
  rw [comutar]
  split
  · intro he
    cases (Resultado.segue.inj he).2
  · intro he
    cases he

theorem Ausente.not_juncaoCerta (ha : Ausente s t) : ¬JuncaoCerta s t := by
  intro h
  obtain ⟨s', valor, he, -⟩ := h.ausente ha
  rw [sthreadUserJoin_of_notMem ha.1] at he
  exact comutar_ne_juntou _ _ _ _ _ he

theorem juncaoCerta_of_not_ausente (ha : ¬Ausente s t) : JuncaoCerta s t :=
  ⟨fun h => absurd h ha, fun _ hz => sthreadUserJoin_of_notMem hz⟩

/-- A join does what it should exactly when its target is a zombie or still somewhere. -/
theorem juncaoCerta_iff (s : Escalonador) (t : ℕ) : JuncaoCerta s t ↔ ¬Ausente s t :=
  ⟨fun h ha => ha.not_juncaoCerta h, juncaoCerta_of_not_ausente⟩

/-- Thread 2 ends and is joined, and then joined once more: the main thread waits for ever. -/
theorem juncao_espera_morta :
    ∃ s os, Runs.Permitted passo Valida sthreadUserInit [.create 1, .yield, .exit 0, .join 2] ∧
      Runs.run passo sthreadUserInit [.create 1, .yield, .exit 0, .join 2] = some (s, os) ∧
      (s.tidGen = 3 ∧ s.deadThr = [2]) ∧ Ausente s 2 ∧
      sthreadUserJoin s 2 = (aEsperaDe s 2).comutar ∧ ¬JuncaoCerta s 2 := by
  obtain ⟨s, os, hx, ⟨htid, hdead⟩, hact, hjoin, hzombie, hexe, hsleep, hmutex, hmonitor⟩ :
      ∃ s os, Runs.run passo sthreadUserInit [.create 1, .yield, .exit 0, .join 2] = some (s, os) ∧
        (s.tidGen = 3 ∧ s.deadThr = [2]) ∧ s.activeThr = 1 ∧ s.joinThr = [] ∧ s.zombieThr = [] ∧
        elementos s.exeThr = [] ∧ elementos s.sleepThr = [] ∧ s.mutexList = [] ∧
        s.monitorList = [] :=
    Runs.exists_run_of_any (by decide)
  have habsent : Ausente s 2 := by
    simp [Ausente, Presente, hact, hjoin, hzombie, hexe, hsleep, hmutex, hmonitor]
  exact ⟨s, os, by decide, hx, ⟨htid, hdead⟩, habsent, sthreadUserJoin_of_notMem habsent.1,
    habsent.not_juncaoCerta⟩

/-- In a state in which every thread is in one place, the threads that are gone are the dead. -/
theorem Arrumado.ausente_iff {J : ArvoreRB ℕ → (ℕ → Sthread) → Prop}
    (h : Arrumado J s [s.activeThr]) (hs : Povoado s) (ht : 0 < t ∧ t < s.tidGen) :
    Ausente s t ↔ t ∈ s.deadThr := by
  have hone := h.conta t
  rw [if_pos ht, count_fora, List.count_singleton] at hone
  have hmutex : (∃ m ∈ s.mutexList, t ∈ (s.mutex m).queue) ↔
      0 < (emFilas s.mutexIdGen fun m => (s.mutex m).queue).count t := by
    rw [List.count_pos_iff, mem_emFilas, hs.mutexes]
    simp only [List.mem_range]
  have hmonitor : (∃ mon ∈ s.monitorList, t ∈ (s.monitor mon).queue) ↔
      0 < (emFilas s.monitorIdGen fun mon => (s.monitor mon).queue).count t := by
    rw [List.count_pos_iff, mem_emFilas, hs.monitores]
    simp only [List.mem_range]
  rw [Ausente, Presente, hmutex, hmonitor]
  simp only [← List.count_pos_iff (a := t)]
  by_cases hact : t = s.activeThr
  · rw [if_pos (beq_iff_eq.mpr hact.symm)] at hone
    refine iff_of_false (fun ha => ha.2 (.inl hact)) ?_
    omega
  · rw [if_neg (fun he => hact (beq_iff_eq.mp he).symm)] at hone
    omega

/-- In the runs in which no thread gets into two places: a join does what it should exactly when
its target is not in the list of the dead. -/
theorem juncaoCerta_iff_notMem_dead (cs : List Chamada) (s : Escalonador) (os : List Resposta)
    (hP : Runs.Permitted passo (fun s c => Valida s c ∧ Limpa s c) sthreadUserInit cs)
    (hr : Runs.run passo sthreadUserInit cs = some (s, os)) (t : ℕ) (ht : 0 < t ∧ t < s.tidGen) :
    JuncaoCerta s t ↔ t ∉ s.deadThr := by
  rw [← (run_arrumado hP hr).ausente_iff (run_povoado hr) ht]
  exact ⟨fun h ha => ha.not_juncaoCerta h, juncaoCerta_of_not_ausente⟩

end ThreadScheduler.SthreadLib
