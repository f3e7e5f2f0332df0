import ThreadScheduler.Lib.Runs
import ThreadScheduler.SthreadLib.RedBlack

/-!
# The scheduler of user-level threads

`sthread_user.c`. A thread is known by its `tid`, in the place of the address of its structure,
which is never freed. Every call runs up to its context switch; what is left of it then is the
`Ponto` where the thread is suspended, and runs when the thread is active again.
-/
namespace ThreadScheduler.SthreadLib

open PointerTree RedBlack ArvoreRB

/-- `struct _sthread`. A `void*` is a number, with 0 for `NULL`. -/
structure Sthread where
  wakeTime : ℤ
  joinTid : ℕ
  joinRet : ℕ
  vruntime : ℤ
  exectime : ℤ
  priority : ℤ
  nice : ℤ
  timesRunned : ℤ
  waittime : ℤ
  sleeptime : ℤ
  deriving DecidableEq

/-- `struct _sthread_mutex`. -/
structure SthreadMutex where
  l : Bool
  thr : Option ℕ
  queue : List ℕ
  idMonitor : ℤ
  deriving DecidableEq

/-- `struct _sthread_mon`. -/
structure SthreadMon where
  mutex : ℕ
  queue : List ℕ
  deriving DecidableEq

/-- Where a thread is. -/
inductive Ponto where
  /-- In its own code, or where nothing is left of the call. -/
  | livre
  /-- In the `yield` of the dispatcher, which has interrupted it at another point. -/
  | noDespacho (antes : Ponto)
  /-- Blocked in `join`. -/
  | emJoin (alvo : ℕ)
  /-- Blocked in `mutex_lock`. -/
  | emLock (m : ℕ)
  /-- In `mutex_unlock`, after the switch to the next owner. -/
  | emUnlock (m : ℕ)
  /-- In the `mutex_unlock` of `monitor_wait`, which finds the spin flag set. -/
  | girando (mon : ℕ)
  /-- In the `mutex_unlock` of `monitor_wait`, after the switch to the next owner. -/
  | emWaitUnlock (mon : ℕ)
  /-- Blocked in `monitor_wait`. -/
  | emWait (mon : ℕ)
  /-- In `exit`. -/
  | terminada
  deriving DecidableEq

/-- The static variables, the threads, the mutexes and the monitors. -/
structure Escalonador where
  exeThr : ArvoreRB ℕ
  deadThr : List ℕ
  sleepThr : ArvoreRB ℕ
  joinThr : List ℕ
  zombieThr : List ℕ
  mutexList : List ℕ
  monitorList : List ℕ
  activeThr : ℕ
  tidGen : ℕ
  clock : ℕ
  mutexIdGen : ℕ
  monitorIdGen : ℕ
  thread : ℕ → Sthread
  ponto : ℕ → Ponto
  mutex : ℕ → SthreadMutex
  monitor : ℕ → SthreadMon

/-- What a call tells, up to its switch. -/
inductive Resposta where
  | nada
  /-- A thread has been created. -/
  | criou (t : ℕ)
  /-- The thread of a node of the executable tree is active now. -/
  | trocou (no : Option ℕ)
  /-- The thread that waited for the mutex is active now. -/
  | entregou (t : ℕ)
  /-- The spin flag is set. -/
  | gira
  /-- `join` returns, with what it stores. -/
  | juntou (codigo : ℤ) (alvo : ℕ) (valor : ℕ)
  deriving DecidableEq

/-- The end of a call: the program goes on, or the process ends, or `active_thr` is `NULL`, or a
field of `NULL` is read. No thread makes the call in the last case. -/
inductive Resultado where
  | segue (s : Escalonador) (r : Resposta)
  | termina (codigo : ℤ)
  | semThread
  | falha
  | impossivel

def minDelay : ℤ := 5

def clockTick : ℤ := 10000

namespace Escalonador

variable (s : Escalonador)

/-- A change of the fields of a thread. -/
def mudar (t : ℕ) (f : Sthread → Sthread) : Escalonador :=
  { s with thread := Function.update s.thread t (f (s.thread t)) }

/-- Where thread `t` goes on. -/
def parar (t : ℕ) (p : Ponto) : Escalonador :=
  { s with ponto := Function.update s.ponto t p }

def mudarMutex (m : ℕ) (f : SthreadMutex → SthreadMutex) : Escalonador :=
  { s with mutex := Function.update s.mutex m (f (s.mutex m)) }

def mudarMonitor (mon : ℕ) (f : SthreadMon → SthreadMon) : Escalonador :=
  { s with monitor := Function.update s.monitor mon (f (s.monitor mon)) }

/-- `RBInserir` on the executable tree. -/
def rbInserir (t : ℕ) : Escalonador :=
  { s with exeThr := rbInserirNo s.exeThr (s.thread t).vruntime t t }

/-- `active_thr = RBExtraiMininimo(exe_thr_arvore_rb)`, and the switch. -/
def comutar : Resultado :=
  match rbExtraiMininimo s.exeThr with
  | (exe, some t) => .segue { s with exeThr := exe, activeThr := t } (.trocou s.exeThr.minimo)
  | (_, none) => .semThread

/-- The CPU time that the active thread has used and not been charged with yet. -/
def porCobrar : ℤ :=
  let th := s.thread s.activeThr
  (th.nice + th.priority) * th.timesRunned

end Escalonador

open Escalonador

/-! ## Creation and scheduling -/

/-- A thread with nothing in its fields. -/
def novaSthread : Sthread where
  wakeTime := 0
  joinTid := 0
  joinRet := 0
  vruntime := 0
  exectime := 0
  priority := 1
  nice := 0
  timesRunned := 0
  waittime := 0
  sleeptime := 0

/-- `sthread_user_init`: the main thread has `tid` 1. -/
def sthreadUserInit : Escalonador where
  exeThr := rbNovaArvore
  deadThr := []
  sleepThr := rbNovaArvore
  joinThr := []
  zombieThr := []
  mutexList := []
  monitorList := []
  activeThr := 1
  tidGen := 2
  clock := 1
  mutexIdGen := 0
  monitorIdGen := 0
  thread _ := novaSthread
  ponto _ := .livre
  mutex _ := ⟨false, none, [], -1⟩
  monitor _ := ⟨0, []⟩

/-- `sthread_user_create`. -/
def sthreadUserCreate (s : Escalonador) (priority : ℤ) : Resultado :=
  let novo := s.tidGen
  let th := { novaSthread with
    vruntime := rbMenorChave s.exeThr
    priority := if priority > 10 then 10 else if priority < 1 then 1 else priority }
  let s := { s with tidGen := novo + 1, thread := Function.update s.thread novo th }
  .segue ((s.parar novo .livre).rbInserir novo) (.criou novo)

/-- One turn of the loop of `sthread_user_exit`, on the join list: the threads that wait for the
active one become executable, the others stay in the list. -/
def passoExit (ret : ℕ) (r : Escalonador × List ℕ × Bool) (t : ℕ) : Escalonador × List ℕ × Bool :=
  let (s, tmp, isZombie) := r
  if (s.thread t).joinTid = s.activeThr then
    ((s.mudar t fun th => { th with joinRet := ret }).rbInserir t, tmp, false)
  else (s, tmp ++ [t], isZombie)

/-- `sthread_user_exit`. -/
def sthreadUserExit (s : Escalonador) (ret : ℕ) : Resultado :=
  let (s, tmp, isZombie) := s.joinThr.foldl (passoExit ret) (s, [], true)
  let s := { s with joinThr := tmp }
  let s :=
    if isZombie then { s with zombieThr := s.zombieThr ++ [s.activeThr] }
    else { s with deadThr := s.deadThr ++ [s.activeThr] }
  if rbArvoreVazia s.exeThr then .termina 0
  else comutar (s.parar s.activeThr .terminada)

/-- `sthread_user_yield`. -/
def sthreadUserYield (s : Escalonador) : Resultado := comutar (s.rbInserir s.activeThr)

/-- `actualizarWaittime`, on the nodes in order. -/
def actualizarWaittime (a : ArvoreRB ℕ) : ℕ → Escalonador → ℕ → Escalonador
  | 0, s, _ => s
  | n + 1, s, h =>
      if h = nil then s
      else
        let s := actualizarWaittime a n s (a.esq h)
        let s :=
          match a.elem h with
          | some t => s.mudar t fun th => { th with waittime := th.waittime + 1 }
          | none => s
        actualizarWaittime a n s (a.dir h)

/-- `actualizarSleepTimeLista`. -/
def actualizarSleepTimeLista (s : Escalonador) (lista : List ℕ) : Escalonador :=
  lista.foldl (fun s t => s.mudar t fun th => { th with sleeptime := th.sleeptime + 1 }) s

/-- `actualizarJoinTime`. -/
def actualizarJoinTime (s : Escalonador) : Escalonador := actualizarSleepTimeLista s s.joinThr

/-- `actualizarMutex`, which counts the owner as well. -/
def actualizarMutex (s : Escalonador) : Escalonador :=
  s.mutexList.foldl (fun s m =>
    let s :=
      match (s.mutex m).thr with
      | some t => s.mudar t fun th => { th with sleeptime := th.sleeptime + 1 }
      | none => s
    actualizarSleepTimeLista s (s.mutex m).queue) s

/-- `actualizarMonitores`. -/
def actualizarMonitores (s : Escalonador) : Escalonador :=
  s.monitorList.foldl (fun s mon => actualizarSleepTimeLista s (s.monitor mon).queue) s

/-- The turn of `acordarProcessos` at node `h` of the sleep tree. A negative `wake_time` is
greater than any `Clock`, which is unsigned. -/
def acordarNo (s : Escalonador) (h : ℕ) : Option Escalonador :=
  match s.sleepThr.elem h with
  | none => none
  | some t =>
      if 0 ≤ (s.thread t).wakeTime ∧ (s.thread t).wakeTime ≤ s.clock then
        let s := (s.mudar t fun th => { th with wakeTime := 0 }).rbInserir t
        some { s with sleepThr := rbRemoverNo (s.sleepThr.setElem h none) h }
      else some (s.mudar t fun th => { th with sleeptime := th.sleeptime + 1 })

/-- `acordarProcessos`, on the nodes in order, while they leave the tree. A node that has been
freed keeps its fields. -/
def acordarProcessos : ℕ → Escalonador → ℕ → Option Escalonador
  | 0, s, h => if h = nil then some s else none
  | n + 1, s, h =>
      if h = nil then some s
      else do
        let s ← acordarProcessos n s (s.sleepThr.esq h)
        let s ← acordarNo s h
        acordarProcessos n s (s.sleepThr.dir h)

/-- The end of `sthread_user_dispatcher`, once its thread is active again. -/
def fimDispatcher (s : Escalonador) : Escalonador :=
  let s := { s with clock := s.clock + 1 }
  if (s.thread s.activeThr).timesRunned < minDelay then s
  else s.mudar s.activeThr fun th =>
    { th with
      vruntime := th.vruntime + (th.nice + th.priority) * th.timesRunned
      timesRunned := 0 }

/-- `sthread_user_dispatcher`. -/
def sthreadUserDispatcher (s : Escalonador) : Resultado :=
  let s := s.mudar s.activeThr fun th =>
    { th with timesRunned := th.timesRunned + 1, exectime := th.exectime + 1 }
  let s := actualizarWaittime s.exeThr s.exeThr.prox s (s.exeThr.esq raiz)
  let s := actualizarMonitores (actualizarMutex (actualizarJoinTime s))
  match acordarProcessos s.sleepThr.prox s (s.sleepThr.esq raiz) with
  | none => .falha
  | some s =>
      if (s.thread s.activeThr).vruntime + s.porCobrar ≥ rbMenorChave s.exeThr then
        sthreadUserYield (s.parar s.activeThr (.noDespacho (s.ponto s.activeThr)))
      else .segue (fimDispatcher s) .nada

/-! ## Join and sleep -/

/-- `sthread_user_join`. -/
def sthreadUserJoin (s : Escalonador) (thread : ℕ) : Resultado :=
  if thread ∈ s.zombieThr then
    .segue { s with
      zombieThr := s.zombieThr.filter (fun z => z ≠ thread)
      deadThr := s.deadThr ++ s.zombieThr.filter (fun z => z = thread) }
      (.juntou 0 thread (s.thread thread).joinRet)
  else
    let found := decide (s.activeThr = thread)
    let found := rbSearchTID s.exeThr thread || found
    -- an empty statement follows the search of the sleep tree
    let found := rbSearchTID s.sleepThr thread || true || found
    let found := decide (thread ∈ s.joinThr) || found
    if found then
      let s := s.mudar s.activeThr fun th => { th with joinTid := thread }
      let s := { s with joinThr := s.joinThr ++ [s.activeThr] }
      comutar (s.parar s.activeThr (.emJoin thread))
    else .segue s (.juntou (-1) thread 0)

/-- `sthread_user_sleep`. -/
def sthreadUserSleep (s : Escalonador) (time : ℤ) : Resultado :=
  let numTicks := time.tdiv clockTick
  if numTicks = 0 then .segue s .nada
  else
    let s := s.mudar s.activeThr fun th => { th with wakeTime := s.clock + numTicks }
    let s := { s with
      sleepThr := rbInserirNo s.sleepThr (s.thread s.activeThr).wakeTime s.activeThr s.activeThr }
    if rbArvoreVazia s.exeThr then .termina (-1) else comutar s

/-- `sthread_nice`. -/
def sthreadNice (s : Escalonador) (nice : ℤ) : Resultado :=
  .segue (s.mudar s.activeThr fun th =>
    { th with nice := if nice > 10 then 10 else if nice < 1 then 1 else nice }) .nada

/-! ## Mutexes -/

/-- `sthread_user_mutex_init`, for a monitor or for none. -/
def novoMutex (s : Escalonador) (idMonitor : ℤ) : Escalonador :=
  { s with
    mutex := Function.update s.mutex s.mutexIdGen ⟨false, none, [], idMonitor⟩
    mutexList := s.mutexList ++ [s.mutexIdGen]
    mutexIdGen := s.mutexIdGen + 1 }

def sthreadUserMutexInit (s : Escalonador) : Resultado := .segue (novoMutex s (-1)) .nada

/-- `sthread_user_mutex_lock`. -/
def sthreadUserMutexLock (s : Escalonador) (m : ℕ) : Resultado :=
  if (s.mutex m).l then .segue s .gira
  else
    match (s.mutex m).thr with
    | none => .segue (s.mudarMutex m fun lock => { lock with thr := some s.activeThr }) .nada
    | some _ =>
        let s := s.mudarMutex m fun lock => { lock with queue := lock.queue ++ [s.activeThr] }
        comutar (s.parar s.activeThr (.emLock m))

/-- `sthread_user_mutex_unlock`; a thread that switches goes on at `depois`. -/
def sthreadUserMutexUnlock (s : Escalonador) (m : ℕ) (depois : Ponto) : Resultado :=
  if (s.mutex m).thr ≠ some s.activeThr then .segue s .nada
  else if (s.mutex m).l then .segue s .gira
  else
    match (s.mutex m).queue with
    | [] => .segue (s.mudarMutex m fun lock => { lock with thr := none }) .nada
    | t :: fila =>
        let s := s.mudarMutex m fun lock => { lock with thr := some t, queue := fila }
        if (s.thread s.activeThr).vruntime + s.porCobrar > (s.thread t).vruntime then
          let s := s.mudar s.activeThr fun th =>
            { th with vruntime := th.vruntime + s.porCobrar, timesRunned := 0 }
          let s := (s.rbInserir s.activeThr).parar s.activeThr depois
          let s := s.mudarMutex m fun lock => { lock with l := true }
          .segue { s with activeThr := t } (.entregou t)
        else .segue (s.rbInserir t) .nada

/-! ## Monitors -/

/-- `sthread_user_monitor_init`. -/
def sthreadUserMonitorInit (s : Escalonador) : Resultado :=
  let mon := s.monitorIdGen
  let s := novoMutex { s with monitorIdGen := mon + 1 } mon
  .segue { s with
    monitor := Function.update s.monitor mon ⟨s.mutexIdGen - 1, []⟩
    monitorList := s.monitorList ++ [mon] } .nada

/-- `sthread_user_monitor_enter`. -/
def sthreadUserMonitorEnter (s : Escalonador) (mon : ℕ) : Resultado :=
  sthreadUserMutexLock s (s.monitor mon).mutex

/-- `sthread_user_monitor_exit`. -/
def sthreadUserMonitorExit (s : Escalonador) (mon : ℕ) : Resultado :=
  sthreadUserMutexUnlock s (s.monitor mon).mutex (.emUnlock (s.monitor mon).mutex)

/-- The rest of `sthread_user_monitor_wait`, for a thread in the queue of the monitor. -/
def sairEEsperar (s : Escalonador) (mon : ℕ) : Resultado :=
  match sthreadUserMutexUnlock s (s.monitor mon).mutex (.emWaitUnlock mon) with
  | .segue s .gira => .segue (s.parar s.activeThr (.girando mon)) .gira
  | .segue s (.entregou t) => .segue s (.entregou t)
  | .segue s _ => comutar (s.parar s.activeThr (.emWait mon))
  | r => r

/-- `sthread_user_monitor_wait`. -/
def sthreadUserMonitorWait (s : Escalonador) (mon : ℕ) : Resultado :=
  if (s.mutex (s.monitor mon).mutex).thr ≠ some s.activeThr then .segue s .nada
  else sairEEsperar (s.mudarMonitor mon fun x => { x with queue := x.queue ++ [s.activeThr] }) mon

/-- `sthread_user_monitor_signal`. -/
def sthreadUserMonitorSignal (s : Escalonador) (mon : ℕ) : Resultado :=
  let m := (s.monitor mon).mutex
  if (s.mutex m).thr ≠ some s.activeThr then .segue s .nada
  else if (s.mutex m).l then .segue s .gira
  else
    match (s.monitor mon).queue with
    | [] => .segue s .nada
    | t :: fila =>
        let s := s.mudarMonitor mon fun x => { x with queue := fila }
        .segue (s.mudarMutex m fun lock => { lock with queue := lock.queue ++ [t] }) .nada

/-- `sthread_user_monitor_signalall`. -/
def sthreadUserMonitorSignalall (s : Escalonador) (mon : ℕ) : Resultado :=
  let m := (s.monitor mon).mutex
  if (s.mutex m).thr ≠ some s.activeThr then .segue s .nada
  else if (s.mutex m).l then .segue s .gira
  else
    let fila := (s.monitor mon).queue
    let s := s.mudarMonitor mon fun x => { x with queue := [] }
    .segue (s.mudarMutex m fun lock => { lock with queue := lock.queue ++ fila }) .nada

/-! ## Steps -/

/-- A call of the active thread, or a tick, or `resume`, what is left of a call when its thread
is active again. -/
inductive Chamada where
  | create (priority : ℤ)
  | exit (ret : ℕ)
  | dispatcher
  | yield
  | join (thread : ℕ)
  | sleep (time : ℤ)
  | nice (nice : ℤ)
  | mutexInit
  | mutexLock (m : ℕ)
  | mutexUnlock (m : ℕ)
  | monitorInit
  | monitorEnter (mon : ℕ)
  | monitorExit (mon : ℕ)
  | monitorWait (mon : ℕ)
  | monitorSignal (mon : ℕ)
  | monitorSignalall (mon : ℕ)
  | resume
  deriving DecidableEq

/-- A call out of a thread's own code. -/
def chamar (s : Escalonador) : Chamada → Resultado
  | .create priority => sthreadUserCreate s priority
  | .exit ret => sthreadUserExit s ret
  | .dispatcher => sthreadUserDispatcher s
  | .yield => sthreadUserYield s
  | .join thread => sthreadUserJoin s thread
  | .sleep time => sthreadUserSleep s time
  | .nice nice => sthreadNice s nice
  | .mutexInit => sthreadUserMutexInit s
  | .mutexLock m => sthreadUserMutexLock s m
  | .mutexUnlock m => sthreadUserMutexUnlock s m (.emUnlock m)
  | .monitorInit => sthreadUserMonitorInit s
  | .monitorEnter mon => sthreadUserMonitorEnter s mon
  | .monitorExit mon => sthreadUserMonitorExit s mon
  | .monitorWait mon => sthreadUserMonitorWait s mon
  | .monitorSignal mon => sthreadUserMonitorSignal s mon
  | .monitorSignalall mon => sthreadUserMonitorSignalall s mon
  | .resume => .impossivel

/-- What is left of the call in which the active thread was suspended. -/
def retomar (s : Escalonador) : Ponto → Resultado
  | .noDespacho antes => .segue ((fimDispatcher s).parar s.activeThr antes) .nada
  | .emJoin alvo =>
      .segue (s.parar s.activeThr .livre) (.juntou 0 alvo (s.thread alvo).joinRet)
  | .emLock _ => .segue (s.parar s.activeThr .livre) .nada
  | .emUnlock m =>
      .segue ((s.mudarMutex m fun lock => { lock with l := false }).parar s.activeThr .livre) .nada
  | .girando mon => sairEEsperar s mon
  | .emWaitUnlock mon =>
      let s := s.mudarMutex (s.monitor mon).mutex fun lock => { lock with l := false }
      comutar (s.parar s.activeThr (.emWait mon))
  | .emWait _ => .segue (s.parar s.activeThr .livre) .nada
  | .livre => .impossivel
  | .terminada => .impossivel

/-- One step. A thread that spins can be interrupted too. -/
def executa (s : Escalonador) (c : Chamada) : Resultado :=
  match s.ponto s.activeThr, c with
  | .livre, c => chamar s c
  | .girando _, .dispatcher => sthreadUserDispatcher s
  | p, .resume => retomar s p
  | _, _ => .impossivel

/-- The steps after which the program goes on. -/
def passo (s : Escalonador) (c : Chamada) : Option (Escalonador × Resposta) :=
  match executa s c with
  | .segue s r => some (s, r)
  | _ => none

/-- The handles of a call are those of threads, mutexes and monitors that exist. -/
def Valida (s : Escalonador) : Chamada → Prop
  | .join thread => 0 < thread ∧ thread < s.tidGen
  | .mutexLock m => m < s.mutexIdGen
  | .mutexUnlock m => m < s.mutexIdGen
  | .monitorEnter mon => mon < s.monitorIdGen
  | .monitorExit mon => mon < s.monitorIdGen
  | .monitorWait mon => mon < s.monitorIdGen
  | .monitorSignal mon => mon < s.monitorIdGen
  | .monitorSignalall mon => mon < s.monitorIdGen
  | _ => True

end ThreadScheduler.SthreadLib
