import ThreadScheduler.Lib.Counting
import ThreadScheduler.Lib.Runs
import ThreadScheduler.SthreadLib.Monitor

/-!
# The readers and writers of a file system

`iniciaLeitura`, `terminaLeitura`, `iniciaEscrita` and `terminaEscrita`, run by any number of
threads on one `fs_t`. A step is one evaluation of a condition, one assignment or one call of a
monitor, of one thread. `Posicao` is the statement that a thread comes to next, or the switch in
which it is suspended.
-/
namespace ThreadScheduler.SnfsServer

open SthreadLib

/-- The two sides, each with its monitor and its counters. -/
inductive Lado where
  | leitor
  | escritor
  deriving DecidableEq

def Lado.outro : Lado → Lado
  | .leitor => .escritor
  | .escritor => .leitor

/-- The statement that a thread comes to next. -/
inductive Posicao where
  | fora
  /-- `sthread_monitor_enter`. -/
  | entrar (d : Lado)
  /-- The condition of the wait loop. -/
  | testar (d : Lado)
  /-- `sthread_monitor_wait`. -/
  | esperar (d : Lado)
  /-- `wanna_leitor--` or `wanna_escritor--`. -/
  | naoQuerer (d : Lado)
  /-- `leitores++` or `escritores++`. -/
  | contar (d : Lado)
  /-- `if(fs->wanna_leitor != 0)` of `iniciaLeitura`. -/
  | verQuerem
  /-- `sthread_monitor_signalall(fs->monLeitores)` of `iniciaLeitura`. -/
  | acordarTodos
  /-- `fs->turno = ESCRITA`. -/
  | passarTurno
  /-- The section; `leitores--` or `escritores--`. -/
  | dentro (d : Lado)
  /-- `if(fs->leitores == 0)`. -/
  | verUltimo
  /-- `sthread_monitor_signal(fs->monEscritores)` of `terminaLeitura`. -/
  | acordarEscritor
  /-- `fs->turno = LEITURA`. -/
  | turnoLeitura
  /-- `if(fs->wanna_leitor != 0)` of `terminaEscrita`. -/
  | verLeitores
  /-- `sthread_monitor_signalall(fs->monLeitores)` of `terminaEscrita`. -/
  | acordarLeitores
  /-- `sthread_monitor_signal(fs->monEscritores)` of `terminaEscrita`. -/
  | acordarOutro
  /-- `sthread_monitor_exit`. -/
  | sair (d : Lado)
  /-- Blocked in `enter`. -/
  | emLock (d : Lado)
  /-- In the unlock of `wait`, which finds the spin flag set. -/
  | girando (d : Lado)
  /-- In the unlock of `wait`, after the switch to the next owner. -/
  | emWaitUnlock (d : Lado)
  /-- Blocked in `wait`. -/
  | emWait (d : Lado)
  /-- In `exit`, after the switch to the next owner. -/
  | emUnlock (d : Lado)
  deriving DecidableEq

def leitura : ℤ := 0

def escrita : ℤ := 1

/-- The fields of `fs_t` for the synchronisation, and the threads: `monLeitores` and
`monEscritores`, `leitores` and `escritores`, `wanna_leitor` and `wanna_escritor`, `turno`. -/
structure Sincronizacao where
  mon : Lado → Monitor
  activos : Lado → ℤ
  wanna : Lado → ℤ
  turno : ℤ
  thread : ℕ → Posicao

namespace Sincronizacao

variable (s : Sincronizacao) (t : ℕ)

def leitores : ℤ := s.activos .leitor

def escritores : ℤ := s.activos .escritor

/-- `fs_new`, which leaves `turno` as it is. -/
def inicial (turno : ℤ) : Sincronizacao where
  mon _ := ⟨false, none, [], []⟩
  activos _ := 0
  wanna _ := 0
  turno := turno
  thread _ := .fora

/-- Thread `t` goes on at `p`. -/
def ir (p : Posicao) : Sincronizacao :=
  { s with thread := Function.update s.thread t p }

def mudarWanna (d : Lado) (n : ℤ) : Sincronizacao :=
  { s with wanna := Function.update s.wanna d (s.wanna d + n) }

def mudarActivos (d : Lado) (n : ℤ) : Sincronizacao :=
  { s with activos := Function.update s.activos d (s.activos d + n) }

/-- A call of a monitor has this result; where `t` goes on depends on what becomes of it. -/
def chamada (d : Lado) (res : Monitor × Efeito) (volta gira cede bloqueia : Posicao) :
    Sincronizacao :=
  { s with mon := Function.update s.mon d res.1 }.ir t (res.2.escolhe volta gira cede bloqueia)

/-- The condition of the wait loop of each side. -/
def temDeEsperar : Lado → Bool
  | .leitor => s.escritores ≠ 0 || (s.turno ≠ leitura && 0 < s.wanna .escritor)
  | .escritor => s.escritores ≠ 0 || s.leitores ≠ 0

/-- The next statement of thread `t`, or the rest of the call in which it is suspended, when it is
executable: a blocked thread is when it owns the mutex. `troca` is as in `Monitor.exit`. -/
def continuar (troca : Bool) : Option Sincronizacao :=
  match s.thread t with
  | .fora => none
  | .entrar d =>
      some (s.chamada t d ((s.mon d).enter t) (.testar d) (.entrar d) (.emLock d) (.emLock d))
  | .testar d => some (s.ir t (if s.temDeEsperar d then .esperar d else .naoQuerer d))
  | .esperar d =>
      some (s.chamada t d ((s.mon d).wait t troca) (.testar d) (.girando d) (.emWaitUnlock d)
        (.emWait d))
  | .naoQuerer d => some ((s.mudarWanna d (-1)).ir t (.contar d))
  | .contar .leitor => some ((s.mudarActivos .leitor 1).ir t .verQuerem)
  | .contar .escritor => some ((s.mudarActivos .escritor 1).ir t (.dentro .escritor))
  | .verQuerem => some (s.ir t (if s.wanna .leitor ≠ 0 then .acordarTodos else .passarTurno))
  | .acordarTodos =>
      some (s.chamada t .leitor ((s.mon .leitor).signalall t) (.dentro .leitor) .acordarTodos
        .acordarTodos .acordarTodos)
  | .passarTurno => some ({ s with turno := escrita }.ir t (.dentro .leitor))
  | .dentro .leitor => some ((s.mudarActivos .leitor (-1)).ir t .verUltimo)
  | .dentro .escritor => some ((s.mudarActivos .escritor (-1)).ir t .turnoLeitura)
  | .verUltimo => some (s.ir t (if s.leitores = 0 then .acordarEscritor else .sair .leitor))
  | .acordarEscritor =>
      some (s.chamada t .escritor ((s.mon .escritor).signal t) (.sair .leitor) .acordarEscritor
        .acordarEscritor .acordarEscritor)
  | .turnoLeitura => some ({ s with turno := leitura }.ir t .verLeitores)
  | .verLeitores =>
      some (s.ir t (if s.wanna .leitor ≠ 0 then .acordarLeitores else .acordarOutro))
  | .acordarLeitores =>
      some (s.chamada t .leitor ((s.mon .leitor).signalall t) (.sair .escritor) .acordarLeitores
        .acordarLeitores .acordarLeitores)
  | .acordarOutro =>
      some (s.chamada t .escritor ((s.mon .escritor).signal t) (.sair .escritor) .acordarOutro
        .acordarOutro .acordarOutro)
  | .sair d =>
      some (s.chamada t d ((s.mon d).exit t troca) .fora (.sair d) (.emUnlock d) (.emUnlock d))
  | .emLock d => if (s.mon d).thr = some t then some (s.ir t (.testar d)) else none
  | .girando d =>
      some (s.chamada t d ((s.mon d).sairEEsperar t troca) (.testar d) (.girando d)
        (.emWaitUnlock d) (.emWait d))
  | .emWaitUnlock d =>
      some ({ s with mon := Function.update s.mon d { s.mon d with l := false } }.ir t (.emWait d))
  | .emWait d => if (s.mon d).thr = some t then some (s.ir t (.testar d)) else none
  | .emUnlock d =>
      some ({ s with mon := Function.update s.mon d { s.mon d with l := false } }.ir t .fora)

/-- A thread calls `iniciaLeitura` or `iniciaEscrita`, with `wanna_leitor++` or
`wanna_escritor++`, or goes on. -/
inductive Accao where
  | inicia (t : ℕ) (d : Lado)
  | continua (t : ℕ) (troca : Bool)
  deriving DecidableEq

def passo (s : Sincronizacao) : Accao → Option (Sincronizacao × Unit)
  | .inicia t d =>
      if s.thread t = .fora then some ((s.mudarWanna d 1).ir t (.entrar d), ()) else none
  | .continua t troca => (s.continuar t troca).map fun s' => (s', ())

end Sincronizacao

/-! ## What the positions mean -/

namespace Posicao

/-- The monitor that a thread at this position has to do with, and how it stands to it. -/
def onde : Posicao → Option (Lado × Fase)
  | .testar d => some (d, .dono)
  | .esperar d => some (d, .dono)
  | .naoQuerer d => some (d, .dono)
  | .contar d => some (d, .dono)
  | .verQuerem => some (.leitor, .dono)
  | .acordarTodos => some (.leitor, .dono)
  | .passarTurno => some (.leitor, .dono)
  | .dentro d => some (d, .dono)
  | .verUltimo => some (.leitor, .dono)
  | .acordarEscritor => some (.leitor, .dono)
  | .turnoLeitura => some (.escritor, .dono)
  | .verLeitores => some (.escritor, .dono)
  | .acordarLeitores => some (.escritor, .dono)
  | .acordarOutro => some (.escritor, .dono)
  | .sair d => some (d, .dono)
  | .girando d => some (d, .girando)
  | .emLock d => some (d, .bloqueada)
  | .emWaitUnlock d => some (d, .bloqueada)
  | .emWait d => some (d, .bloqueada)
  | _ => none

def fase (d : Lado) (p : Posicao) : Fase :=
  match p.onde with
  | some (e, f) => if e = d then f else .fora
  | none => .fora

/-- The side whose `wanna` counter counts a thread at this position. -/
def quer : Posicao → Option Lado
  | .entrar d => some d
  | .testar d => some d
  | .esperar d => some d
  | .naoQuerer d => some d
  | .emLock d => some d
  | .girando d => some d
  | .emWaitUnlock d => some d
  | .emWait d => some d
  | _ => none

/-- The side whose active threads, `leitores` or `escritores`, count a thread at this position. -/
def activo : Posicao → Option Lado
  | .verQuerem => some .leitor
  | .acordarTodos => some .leitor
  | .passarTurno => some .leitor
  | .dentro d => some d
  | _ => none

/-- The positions that a thread at this one can come to next. -/
def seguintes : Posicao → List Posicao
  | .fora => []
  | .entrar d => [.testar d, .entrar d, .emLock d]
  | .testar d => [.esperar d, .naoQuerer d]
  | .esperar d => [.testar d, .girando d, .emWaitUnlock d, .emWait d]
  | .naoQuerer d => [.contar d]
  | .contar .leitor => [.verQuerem]
  | .contar .escritor => [.dentro .escritor]
  | .verQuerem => [.acordarTodos, .passarTurno]
  | .acordarTodos => [.dentro .leitor, .acordarTodos]
  | .passarTurno => [.dentro .leitor]
  | .dentro .leitor => [.verUltimo]
  | .dentro .escritor => [.turnoLeitura]
  | .verUltimo => [.acordarEscritor, .sair .leitor]
  | .acordarEscritor => [.sair .leitor, .acordarEscritor]
  | .turnoLeitura => [.verLeitores]
  | .verLeitores => [.acordarLeitores, .acordarOutro]
  | .acordarLeitores => [.sair .escritor, .acordarLeitores]
  | .acordarOutro => [.sair .escritor, .acordarOutro]
  | .sair d => [.fora, .sair d, .emUnlock d]
  | .emLock d => [.testar d]
  | .girando d => [.testar d, .girando d, .emWaitUnlock d, .emWait d]
  | .emWaitUnlock d => [.emWait d]
  | .emWait d => [.testar d]
  | .emUnlock _ => [.fora]

variable {p : Posicao} {d e : Lado} {f : Fase}

theorem fase_of_onde (h : p.onde = some (d, f)) : p.fase d = f := by
  simp [fase, h]

theorem fase_of_onde_ne (h : p.onde = some (d, f)) (he : d ≠ e) : p.fase e = .fora := by
  simp [fase, h, he]

theorem fase_of_onde_none (h : p.onde = none) : p.fase d = .fora := by
  simp [fase, h]

theorem onde_of_fase (h : p.fase d = f) (hf : f ≠ .fora) : p.onde = some (d, f) := by
  unfold fase at h
  split at h
  · rename_i e f' he
    split at h
    · rename_i hed
      rw [he, hed, h]
    · exact absurd h.symm hf
  · exact absurd h.symm hf

@[simp] theorem fase_fora : Posicao.fora.fase d = .fora := rfl
@[simp] theorem fase_entrar : (entrar e).fase d = .fora := rfl
@[simp] theorem fase_emUnlock : (emUnlock e).fase d = .fora := rfl
@[simp] theorem fase_testar : (testar d).fase d = .dono := fase_of_onde rfl
@[simp] theorem fase_sair : (sair d).fase d = .dono := fase_of_onde rfl
@[simp] theorem fase_girando : (girando d).fase d = .girando := fase_of_onde rfl
@[simp] theorem fase_emLock : (emLock d).fase d = .bloqueada := fase_of_onde rfl
@[simp] theorem fase_emWaitUnlock : (emWaitUnlock d).fase d = .bloqueada := fase_of_onde rfl
@[simp] theorem fase_emWait : (emWait d).fase d = .bloqueada := fase_of_onde rfl

/-- The thread has returned from `iniciaLeitura` or `iniciaEscrita`, and not yet from
`terminaLeitura` or `terminaEscrita`. -/
def entrou : Posicao → Bool
  | .dentro _ => true
  | .verUltimo => true
  | .acordarEscritor => true
  | .turnoLeitura => true
  | .verLeitores => true
  | .acordarLeitores => true
  | .acordarOutro => true
  | .sair _ => true
  | .emUnlock _ => true
  | _ => false

end Posicao

namespace Sincronizacao

open Counting

variable {s s' : Sincronizacao} {t : ℕ}

theorem chamada_thread {d : Lado} {res : Monitor × Efeito} {volta gira cede bloqueia : Posicao}
    {l : List Posicao} (h : ∀ q ∈ [volta, gira, cede, bloqueia], q ∈ l) :
    ∃ q ∈ l,
      (s.chamada t d res volta gira cede bloqueia).thread = Function.update s.thread t q :=
  ⟨_, h _ (by cases res.2 <;> simp [Efeito.escolhe]), rfl⟩

/-- A step moves its own thread only, and to one of the next positions. -/
theorem continuar_seguintes {troca : Bool} (hs : s.continuar t troca = some s') :
    ∃ q ∈ (s.thread t).seguintes, s'.thread = Function.update s.thread t q := by
  unfold continuar at hs
  cases hp : s.thread t with
  | fora => simp [hp] at hs
  | entrar d =>
      simp only [hp, Option.some.injEq] at hs
      subst hs
      exact chamada_thread (by simp [Posicao.seguintes])
  | testar d =>
      simp only [hp, Option.some.injEq] at hs
      subst hs
      exact ⟨_, by split <;> simp [Posicao.seguintes], rfl⟩
  | esperar d =>
      simp only [hp, Option.some.injEq] at hs
      subst hs
      exact chamada_thread (by simp [Posicao.seguintes])
  | naoQuerer d =>
      simp only [hp, Option.some.injEq] at hs
      subst hs
      exact ⟨_, by simp [Posicao.seguintes], rfl⟩
  | contar d =>
      cases d with
      | leitor =>
          simp only [hp, Option.some.injEq] at hs
          subst hs
          exact ⟨_, by simp [Posicao.seguintes], rfl⟩
      | escritor =>
          simp only [hp, Option.some.injEq] at hs
          subst hs
          exact ⟨_, by simp [Posicao.seguintes], rfl⟩
  | verQuerem =>
      simp only [hp, Option.some.injEq] at hs
      subst hs
      exact ⟨_, by split <;> simp [Posicao.seguintes], rfl⟩
  | acordarTodos =>
      simp only [hp, Option.some.injEq] at hs
      subst hs
      exact chamada_thread (by simp [Posicao.seguintes])
  | passarTurno =>
      simp only [hp, Option.some.injEq] at hs
      subst hs
      exact ⟨_, by simp [Posicao.seguintes], rfl⟩
  | dentro d =>
      cases d with
      | leitor =>
          simp only [hp, Option.some.injEq] at hs
          subst hs
          exact ⟨_, by simp [Posicao.seguintes], rfl⟩
      | escritor =>
          simp only [hp, Option.some.injEq] at hs
          subst hs
          exact ⟨_, by simp [Posicao.seguintes], rfl⟩
  | verUltimo =>
      simp only [hp, Option.some.injEq] at hs
      subst hs
      exact ⟨_, by split <;> simp [Posicao.seguintes], rfl⟩
  | acordarEscritor =>
      simp only [hp, Option.some.injEq] at hs
      subst hs
      exact chamada_thread (by simp [Posicao.seguintes])
  | turnoLeitura =>
      simp only [hp, Option.some.injEq] at hs
      subst hs
      exact ⟨_, by simp [Posicao.seguintes], rfl⟩
  | verLeitores =>
      simp only [hp, Option.some.injEq] at hs
      subst hs
      exact ⟨_, by split <;> simp [Posicao.seguintes], rfl⟩
  | acordarLeitores =>
      simp only [hp, Option.some.injEq] at hs
      subst hs
      exact chamada_thread (by simp [Posicao.seguintes])
  | acordarOutro =>
      simp only [hp, Option.some.injEq] at hs
      subst hs
      exact chamada_thread (by simp [Posicao.seguintes])
  | sair d =>
      simp only [hp, Option.some.injEq] at hs
      subst hs
      exact chamada_thread (by simp [Posicao.seguintes])
  | emLock d =>
      simp only [hp, Option.ite_none_right_eq_some, Option.some.injEq] at hs
      obtain ⟨-, rfl⟩ := hs
      exact ⟨_, by simp [Posicao.seguintes], rfl⟩
  | girando d =>
      simp only [hp, Option.some.injEq] at hs
      subst hs
      exact chamada_thread (by simp [Posicao.seguintes])
  | emWaitUnlock d =>
      simp only [hp, Option.some.injEq] at hs
      subst hs
      exact ⟨_, by simp [Posicao.seguintes], rfl⟩
  | emWait d =>
      simp only [hp, Option.ite_none_right_eq_some, Option.some.injEq] at hs
      obtain ⟨-, rfl⟩ := hs
      exact ⟨_, by simp [Posicao.seguintes], rfl⟩
  | emUnlock d =>
      simp only [hp, Option.some.injEq] at hs
      subst hs
      exact ⟨_, by simp [Posicao.seguintes], rfl⟩

/-- The threads stand in the monitors as their positions say, and the counters count them. -/
structure Contada (s : Sincronizacao) : Prop where
  disciplina : ∀ d, Disciplina (s.mon d) fun t => (s.thread t).fase d
  activos : ∀ d, Counts (s.activos d) s.thread fun p => p.activo = some d
  wanna : ∀ d, Counts (s.wanna d) s.thread fun p => p.quer = some d

theorem contada_inicial (turno : ℤ) : Contada (inicial turno) where
  disciplina _ := ⟨fun _ => rfl, fun _ h => by obtain h | h := h <;> cases h⟩
  activos _ := counts_zero fun _ => rfl
  wanna _ := counts_zero fun _ => rfl

namespace Contada

/-- Thread `t` goes on at `q`: each field changes as the two positions say. -/
theorem mover (h : Contada s) {q : Posicao} (hthread : s'.thread = Function.update s.thread t q)
    (hdisc : ∀ d, Disciplina (s'.mon d)
      (Function.update (fun t => (s.thread t).fase d) t (q.fase d)))
    (hactivos : ∀ d, s'.activos d + (decide ((s.thread t).activo = some d)).toInt =
      s.activos d + (decide (q.activo = some d)).toInt)
    (hwanna : ∀ d, s'.wanna d + (decide ((s.thread t).quer = some d)).toInt =
      s.wanna d + (decide (q.quer = some d)).toInt) :
    Contada s' := by
  refine ⟨fun d => ?_, fun d => ?_, fun d => ?_⟩
  · have hfase : (fun u => (s'.thread u).fase d) =
        Function.update (fun t => (s.thread t).fase d) t (q.fase d) := by
      rw [hthread]
      exact Function.comp_update (Posicao.fase d) s.thread t q
    rw [hfase]
    exact hdisc d
  · rw [hthread]
    exact (h.activos d).update t q (hactivos d)
  · rw [hthread]
    exact (h.wanna d).update t q (hwanna d)

/-- The monitor of `d` changes, and the other one has nothing to do with the step. -/
theorem moverEm (h : Contada s) {q : Posicao} (d : Lado) {M : Monitor}
    (hthread : s'.thread = Function.update s.thread t q)
    (hmon : s'.mon = Function.update s.mon d M)
    (hdisc : Disciplina M (Function.update (fun t => (s.thread t).fase d) t (q.fase d)))
    (houtro : ∀ e, d ≠ e → q.fase e = (s.thread t).fase e)
    (hactivos : s'.activos = s.activos) (hactivo : q.activo = (s.thread t).activo)
    (hwanna : s'.wanna = s.wanna) (hquer : q.quer = (s.thread t).quer) :
    Contada s' := by
  refine h.mover hthread (fun e => ?_) (fun e => by rw [hactivos, hactivo]) fun e => by
    rw [hwanna, hquer]
  rw [hmon]
  by_cases he : d = e
  · subst he
    rw [Function.update_self]
    exact hdisc
  · rw [Function.update_of_ne (Ne.symm he), houtro e he,
      Function.update_eq_self t fun t => (s.thread t).fase e]
    exact h.disciplina e

/-- An assignment to a counter or to `turno`, between two positions alike to the monitors. -/
theorem ir (h : Contada s) {q : Posicao} (honde : q.onde = (s.thread t).onde)
    {activos wanna : Lado → ℤ}
    (hactivos : ∀ d, activos d + (decide ((s.thread t).activo = some d)).toInt =
      s.activos d + (decide (q.activo = some d)).toInt)
    (hwanna : ∀ d, wanna d + (decide ((s.thread t).quer = some d)).toInt =
      s.wanna d + (decide (q.quer = some d)).toInt) (turno : ℤ) :
    Contada ({ s with activos := activos, wanna := wanna, turno := turno }.ir t q) := by
  refine h.mover rfl (fun d => ?_) hactivos hwanna
  rw [show q.fase d = (s.thread t).fase d by unfold Posicao.fase; rw [honde],
    Function.update_eq_self t fun t => (s.thread t).fase d]
  exact h.disciplina d

/-- A step between two positions that are alike to the monitors and the counters. -/
theorem ir_igual (h : Contada s) {q : Posicao} (turno : ℤ) (honde : q.onde = (s.thread t).onde)
    (hactivo : q.activo = (s.thread t).activo) (hquer : q.quer = (s.thread t).quer) :
    Contada ({ s with turno := turno }.ir t q) :=
  h.ir honde (fun d => by rw [hactivo]) (fun d => by rw [hquer]) turno

/-- A counter is changed by one when `t` crosses the border of its places. -/
theorem conta_mais {n : Lado → ℤ} (d e : Lado) :
    Function.update n d (n d + 1) e + (decide (none = some e)).toInt =
      n e + (decide (some d = some e)).toInt := by
  by_cases he : e = d
  · subst he
    simp
  · simp [he, Ne.symm he]

theorem conta_menos {n : Lado → ℤ} (d e : Lado) :
    Function.update n d (n d + -1) e + (decide (some d = some e)).toInt =
      n e + (decide (none = some e)).toInt := by
  by_cases he : e = d
  · subst he
    simp
  · simp [he, Ne.symm he]

/-- The thread takes the spin flag away after its switch. -/
theorem limpar (h : Contada s) (d : Lado) {q : Posicao} (honde : q.onde = (s.thread t).onde)
    (hactivo : q.activo = (s.thread t).activo) (hquer : q.quer = (s.thread t).quer) :
    Contada ({ s with
      mon := Function.update s.mon d { s.mon d with l := false } }.ir t q) := by
  have hfase : ∀ e, q.fase e = (s.thread t).fase e := by
    intro e
    unfold Posicao.fase
    rw [honde]
  refine h.moverEm d rfl rfl ?_ (fun e _ => hfase e) rfl hactivo rfl hquer
  rw [hfase d, Function.update_eq_self t fun t => (s.thread t).fase d]
  exact ⟨(h.disciplina d).lugares, (h.disciplina d).dono⟩

/-- A blocked thread that owns the mutex now comes to the condition of the wait loop. -/
theorem acordar (h : Contada s) {d : Lado} (hthr : (s.mon d).thr = some t)
    (honde : (s.thread t).onde = some (d, .bloqueada)) (hactivo : none = (s.thread t).activo)
    (hquer : some d = (s.thread t).quer) : Contada (s.ir t (.testar d)) := by
  have hq : (Posicao.testar d).onde = some (d, .dono) := rfl
  refine h.moverEm d rfl (Function.update_eq_self d s.mon).symm ?_ (fun e he => ?_) rfl hactivo rfl
    hquer
  · rw [Posicao.fase_of_onde hq]
    exact (h.disciplina d).acordar (Posicao.fase_of_onde honde) hthr
  · rw [Posicao.fase_of_onde_ne hq he, Posicao.fase_of_onde_ne honde he]

/-- A call of the monitor of `d` by a thread that has to do with no other, and goes on in it, if
anywhere. -/
theorem chamada (h : Contada s) {d : Lado} {res : Monitor × Efeito}
    {volta gira cede bloqueia : Posicao}
    (hdisc : Disciplina res.1 (Function.update (fun t => (s.thread t).fase d) t
      (res.2.escolhe (volta.fase d) (gira.fase d) (cede.fase d) (bloqueia.fase d))))
    (hquatro : ∀ q ∈ [volta, gira, cede, bloqueia],
      (∀ e, d ≠ e → q.fase e = (s.thread t).fase e) ∧ q.activo = (s.thread t).activo ∧
        q.quer = (s.thread t).quer) :
    Contada (s.chamada t d res volta gira cede bloqueia) := by
  have hq := hquatro (res.2.escolhe volta gira cede bloqueia)
    (by cases res.2 <;> simp [Efeito.escolhe])
  refine h.moverEm d rfl rfl ?_ hq.1 rfl hq.2.1 rfl hq.2.2
  have : (res.2.escolhe volta gira cede bloqueia).fase d =
      res.2.escolhe (volta.fase d) (gira.fase d) (cede.fase d) (bloqueia.fase d) := by
    cases res.2 <;> rfl
  rw [this]
  exact hdisc

/-- A signal or a signal to all in either monitor, that changes where the thread is in its own
code alone. -/
theorem avisar (h : Contada s) {d : Lado} {res : Monitor × Efeito}
    {volta gira : Posicao} (hdisc : Disciplina res.1 fun t => (s.thread t).fase d)
    (hgira : s.thread t = gira) (honde : volta.onde = gira.onde)
    (hactivo : volta.activo = gira.activo) (hquer : volta.quer = gira.quer) :
    Contada (s.chamada t d res volta gira gira gira) := by
  have hfase : ∀ e, volta.fase e = gira.fase e := by
    intro e
    unfold Posicao.fase
    rw [honde]
  subst hgira
  refine h.chamada ?_ ?_
  · have : res.2.escolhe (volta.fase d) ((s.thread t).fase d) ((s.thread t).fase d)
        ((s.thread t).fase d) = (s.thread t).fase d := by
      cases res.2 <;> simp [Efeito.escolhe, hfase]
    rw [this, Function.update_eq_self t fun t => (s.thread t).fase d]
    exact hdisc
  · intro q hq
    obtain rfl | rfl : q = volta ∨ q = s.thread t := by simpa using hq
    · exact ⟨fun e _ => hfase e, hactivo, hquer⟩
    · exact ⟨fun _ _ => rfl, rfl, rfl⟩

/-- A call in which a thread enters the monitor, waits in it or leaves it. -/
theorem chamadaPropria (h : Contada s) {d : Lado} {res : Monitor × Efeito}
    {volta gira cede bloqueia : Posicao}
    (hdisc : Disciplina res.1 (Function.update (fun t => (s.thread t).fase d) t
      (res.2.escolhe (volta.fase d) (gira.fase d) (cede.fase d) (bloqueia.fase d))))
    (honde : ∀ q ∈ [volta, gira, cede, bloqueia, s.thread t], q.onde = none ∨
      ∃ f, q.onde = some (d, f))
    (hconta : ∀ q ∈ [volta, gira, cede, bloqueia], q.activo = (s.thread t).activo ∧
        q.quer = (s.thread t).quer) :
    Contada (s.chamada t d res volta gira cede bloqueia) := by
  have hfora : ∀ q ∈ [volta, gira, cede, bloqueia, s.thread t], ∀ e, d ≠ e → q.fase e = .fora := by
    intro q hq e he
    obtain hn | ⟨f, hf⟩ := honde q hq
    · exact Posicao.fase_of_onde_none hn
    · exact Posicao.fase_of_onde_ne hf he
  refine h.chamada hdisc fun q hq => ⟨fun e he => ?_, hconta q hq⟩
  rw [hfora q (by simp only [List.mem_cons] at hq ⊢; tauto) e he, hfora (s.thread t) (by simp) e he]

theorem continuar (h : Contada s) {troca : Bool} (hs : s.continuar t troca = some s') :
    Contada s' := by
  unfold Sincronizacao.continuar at hs
  cases hp : s.thread t with
  | fora => simp [hp] at hs
  | entrar d =>
      simp only [hp, Option.some.injEq] at hs
      subst hs
      refine h.chamadaPropria ?_ (by simp [hp, Posicao.onde])
        (by simp [hp, Posicao.activo, Posicao.quer])
      simpa only [Posicao.fase_testar, Posicao.fase_entrar, Posicao.fase_emLock] using
        (h.disciplina d).enter (Posicao.fase_of_onde_none (by rw [hp]; rfl))
  | testar d =>
      simp only [hp, Option.some.injEq] at hs
      subst hs
      split
      · exact h.ir_igual s.turno (by rw [hp]; rfl) (by rw [hp]; rfl) (by rw [hp]; rfl)
      · exact h.ir_igual s.turno (by rw [hp]; rfl) (by rw [hp]; rfl) (by rw [hp]; rfl)
  | esperar d =>
      simp only [hp, Option.some.injEq] at hs
      subst hs
      refine h.chamadaPropria ?_ (by simp [hp, Posicao.onde])
        (by simp [hp, Posicao.activo, Posicao.quer])
      simpa only [Posicao.fase_testar, Posicao.fase_girando, Posicao.fase_emWaitUnlock,
        Posicao.fase_emWait] using
        (h.disciplina d).wait (Posicao.fase_of_onde (by rw [hp]; rfl)) troca
  | naoQuerer d =>
      simp only [hp, Option.some.injEq] at hs
      subst hs
      refine h.ir (by rw [hp]; rfl) (by rw [hp]; exact fun _ => rfl) (fun e => ?_) s.turno
      rw [hp]
      exact conta_menos d e
  | contar d =>
      cases d with
      | leitor =>
          simp only [hp, Option.some.injEq] at hs
          subst hs
          refine h.ir (by rw [hp]; rfl) (fun e => ?_) (by rw [hp]; exact fun _ => rfl) s.turno
          rw [hp]
          exact conta_mais .leitor e
      | escritor =>
          simp only [hp, Option.some.injEq] at hs
          subst hs
          refine h.ir (by rw [hp]; rfl) (fun e => ?_) (by rw [hp]; exact fun _ => rfl) s.turno
          rw [hp]
          exact conta_mais .escritor e
  | verQuerem =>
      simp only [hp, Option.some.injEq] at hs
      subst hs
      split
      · exact h.ir_igual s.turno (by rw [hp]; rfl) (by rw [hp]; rfl) (by rw [hp]; rfl)
      · exact h.ir_igual s.turno (by rw [hp]; rfl) (by rw [hp]; rfl) (by rw [hp]; rfl)
  | acordarTodos =>
      simp only [hp, Option.some.injEq] at hs
      subst hs
      exact h.avisar ((h.disciplina .leitor).signalall t) hp rfl rfl rfl
  | passarTurno =>
      simp only [hp, Option.some.injEq] at hs
      subst hs
      exact h.ir_igual escrita (by rw [hp]; rfl) (by rw [hp]; rfl) (by rw [hp]; rfl)
  | dentro d =>
      cases d with
      | leitor =>
          simp only [hp, Option.some.injEq] at hs
          subst hs
          refine h.ir (by rw [hp]; rfl) (fun e => ?_) (by rw [hp]; exact fun _ => rfl) s.turno
          rw [hp]
          exact conta_menos .leitor e
      | escritor =>
          simp only [hp, Option.some.injEq] at hs
          subst hs
          refine h.ir (by rw [hp]; rfl) (fun e => ?_) (by rw [hp]; exact fun _ => rfl) s.turno
          rw [hp]
          exact conta_menos .escritor e
  | verUltimo =>
      simp only [hp, Option.some.injEq] at hs
      subst hs
      split
      · exact h.ir_igual s.turno (by rw [hp]; rfl) (by rw [hp]; rfl) (by rw [hp]; rfl)
      · exact h.ir_igual s.turno (by rw [hp]; rfl) (by rw [hp]; rfl) (by rw [hp]; rfl)
  | acordarEscritor =>
      simp only [hp, Option.some.injEq] at hs
      subst hs
      exact h.avisar ((h.disciplina .escritor).signal t) hp rfl rfl rfl
  | turnoLeitura =>
      simp only [hp, Option.some.injEq] at hs
      subst hs
      exact h.ir_igual leitura (by rw [hp]; rfl) (by rw [hp]; rfl) (by rw [hp]; rfl)
  | verLeitores =>
      simp only [hp, Option.some.injEq] at hs
      subst hs
      split
      · exact h.ir_igual s.turno (by rw [hp]; rfl) (by rw [hp]; rfl) (by rw [hp]; rfl)
      · exact h.ir_igual s.turno (by rw [hp]; rfl) (by rw [hp]; rfl) (by rw [hp]; rfl)
  | acordarLeitores =>
      simp only [hp, Option.some.injEq] at hs
      subst hs
      exact h.avisar ((h.disciplina .leitor).signalall t) hp rfl rfl rfl
  | acordarOutro =>
      simp only [hp, Option.some.injEq] at hs
      subst hs
      exact h.avisar ((h.disciplina .escritor).signal t) hp rfl rfl rfl
  | sair d =>
      simp only [hp, Option.some.injEq] at hs
      subst hs
      refine h.chamadaPropria ?_ (by simp [hp, Posicao.onde])
        (by simp [hp, Posicao.activo, Posicao.quer])
      simpa only [Posicao.fase_fora, Posicao.fase_sair, Posicao.fase_emUnlock] using
        (h.disciplina d).exit (Posicao.fase_of_onde (by rw [hp]; rfl)) troca
  | emLock d =>
      simp only [hp, Option.ite_none_right_eq_some, Option.some.injEq] at hs
      obtain ⟨hthr, rfl⟩ := hs
      exact h.acordar hthr (by rw [hp]; rfl) (by rw [hp]; rfl) (by rw [hp]; rfl)
  | girando d =>
      simp only [hp, Option.some.injEq] at hs
      subst hs
      refine h.chamadaPropria ?_ (by simp [hp, Posicao.onde])
        (by simp [hp, Posicao.activo, Posicao.quer])
      simpa only [Posicao.fase_testar, Posicao.fase_girando, Posicao.fase_emWaitUnlock,
        Posicao.fase_emWait] using
        (h.disciplina d).sairEEsperar (Posicao.fase_of_onde (by rw [hp]; rfl)) troca
  | emWaitUnlock d =>
      simp only [hp, Option.some.injEq] at hs
      subst hs
      exact h.limpar d (by rw [hp]; rfl) (by rw [hp]; rfl) (by rw [hp]; rfl)
  | emWait d =>
      simp only [hp, Option.ite_none_right_eq_some, Option.some.injEq] at hs
      obtain ⟨hthr, rfl⟩ := hs
      exact h.acordar hthr (by rw [hp]; rfl) (by rw [hp]; rfl) (by rw [hp]; rfl)
  | emUnlock d =>
      simp only [hp, Option.some.injEq] at hs
      subst hs
      exact h.limpar d (by rw [hp]; rfl) (by rw [hp]; rfl) (by rw [hp]; rfl)

/-- One step. -/
theorem passo (h : Contada s) {a : Accao} {o : Unit} (hs : s.passo a = some (s', o)) :
    Contada s' := by
  cases a with
  | inicia t d =>
      simp only [Sincronizacao.passo, Option.ite_none_right_eq_some, Option.some.injEq,
        Prod.mk.injEq, and_true] at hs
      obtain ⟨hp, rfl⟩ := hs
      refine h.ir (by rw [hp]; rfl) (by rw [hp]; exact fun _ => rfl) (fun e => ?_) s.turno
      rw [hp]
      exact conta_mais d e
  | continua t troca =>
      obtain ⟨s₁, hs₁, he⟩ := Option.map_eq_some_iff.mp hs
      obtain ⟨rfl, -⟩ := Prod.mk.inj he
      exact h.continuar hs₁

end Contada

theorem onde_of_activo {p : Posicao} {d : Lado} (h : p.activo = some d) :
    p.onde = some (d, .dono) := by
  cases p <;> simp_all [Posicao.activo, Posicao.onde]

theorem Contada.dono (h : Contada s) {d : Lado} {u : ℕ} (hu : (s.thread u).onde = some (d, .dono)) :
    (s.mon d).thr = some u :=
  (h.disciplina d).dono u (.inl (Posicao.fase_of_onde hu))

theorem Contada.activos_le_one (h : Contada s) (d : Lado) : s.activos d ≤ 1 := by
  apply (h.activos d).le_one
  intro t u ht hu
  have hfase : ∀ v, decide ((s.thread v).activo = some d) = true → (s.thread v).fase d = .dono :=
    fun v hv => Posicao.fase_of_onde (onde_of_activo (of_decide_eq_true hv))
  exact (h.disciplina d).unico (.inl (hfase t ht)) (.inl (hfase u hu))

/-- The test of each side reads the counter of the other. -/
theorem activos_outro_of_temDeEsperar {d : Lado} (h : s.temDeEsperar d = false) :
    s.activos d.outro = 0 := by
  cases d with
  | leitor => exact not_not.mp (of_decide_eq_false (Bool.or_eq_false_iff.mp h).1)
  | escritor => exact not_not.mp (of_decide_eq_false (Bool.or_eq_false_iff.mp h).2)

theorem outro_outro (d : Lado) : d.outro.outro = d := by
  cases d <;> rfl

end Sincronizacao

end ThreadScheduler.SnfsServer
