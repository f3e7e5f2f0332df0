import ThreadScheduler.SthreadLib.Scheduler

/-!
# The lists of mutexes and monitors

`sthread_user_mutex_free` drains the list of mutexes into a new one, without the mutex that goes.
`sthread_user_monitor_free` means to do the same with the list of monitors, and draws from the list
of mutexes while the other one is not empty.
-/
namespace ThreadScheduler.SthreadLib

open Escalonador

variable {s : Escalonador}

/-- The loop of `sthread_user_mutex_free` over the list, into the new one. -/
def esvaziarMutexes (lock : ℕ) : List ℕ → List ℕ → List ℕ
  | [], tmp => tmp
  | mutextemp :: lista, tmp =>
      if lock = mutextemp then esvaziarMutexes lock lista tmp
      else esvaziarMutexes lock lista (tmp ++ [mutextemp])

/-- `sthread_user_mutex_free`. The threads that wait for the mutex, if any, are freed with it. -/
def sthreadUserMutexFree (s : Escalonador) (lock : ℕ) : Escalonador :=
  { s with mutexList := esvaziarMutexes lock s.mutexList [] }

/-- The loop of `sthread_user_monitor_free`: while there are monitors, a mutex is taken for one.
Its first field is `id_monitor`, in the place of `id`. `none` where the list of mutexes has ended
and the first element of an empty queue is read. -/
def esvaziarMonitores (s : Escalonador) (monId : ℕ) : List ℕ → List ℕ → Option (List ℕ × List ℕ)
  | mutexes, tmp =>
      if s.monitorList = [] then some (mutexes, tmp)
      else
        match mutexes with
        | [] => none
        | monitortemp :: mutexes =>
            if (monId : ℤ) = (s.mutex monitortemp).idMonitor then
              esvaziarMonitores s monId mutexes tmp
            else esvaziarMonitores s monId mutexes (tmp ++ [monitortemp])

/-- `sthread_user_monitor_free`. -/
def sthreadUserMonitorFree (s : Escalonador) (mon : ℕ) : Resultado :=
  let s := sthreadUserMutexFree s (s.monitor mon).mutex
  match esvaziarMonitores s mon s.mutexList [] with
  | none => .falha
  | some (mutexes, tmp) => .segue { s with mutexList := mutexes, monitorList := tmp } .nada

/-- A call that makes a mutex or a monitor, or frees one. -/
inductive PedidoRegisto where
  | mutexInit
  | monitorInit
  | mutexFree (lock : ℕ)
  | monitorFree (mon : ℕ)

def registar (s : Escalonador) (p : PedidoRegisto) : Option (Escalonador × Resposta) :=
  let r :=
    match p with
    | .mutexInit => sthreadUserMutexInit s
    | .monitorInit => sthreadUserMonitorInit s
    | .mutexFree lock => .segue (sthreadUserMutexFree s lock) .nada
    | .monitorFree mon => sthreadUserMonitorFree s mon
  match r with
  | .segue s r => some (s, r)
  | _ => none

/-- Mutexes and monitors are freed while they are in their lists, and a mutex that belongs to a
monitor goes with it. -/
def PedidoRegisto.Valido (s : Escalonador) : PedidoRegisto → Prop
  | .mutexFree lock => lock ∈ s.mutexList ∧ (s.mutex lock).idMonitor = -1
  | .monitorFree mon => mon ∈ s.monitorList
  | _ => True

/-- No thread waits in the monitor or for its mutex. -/
def SemEspera (s : Escalonador) (mon : ℕ) : Prop :=
  (s.monitor mon).queue = [] ∧ (s.mutex (s.monitor mon).mutex).queue = []

/-- The monitor and its mutex leave the lists, which keep all others in their order. -/
def LibertaSo (s : Escalonador) (mon : ℕ) : Prop :=
  ∃ s' r, sthreadUserMonitorFree s mon = .segue s' r ∧
    s'.monitorList = s.monitorList.filter (fun x => x ≠ mon) ∧
    s'.mutexList = s.mutexList.filter fun m => m ≠ (s.monitor mon).mutex

theorem esvaziarMutexes_eq (lock : ℕ) (lista tmp : List ℕ) :
    esvaziarMutexes lock lista tmp = tmp ++ lista.filter fun m => m ≠ lock := by
  induction lista generalizing tmp with
  | nil => simp [esvaziarMutexes]
  | cons m lista ih =>
      by_cases hm : lock = m
      · rw [esvaziarMutexes, if_pos hm, ih, List.filter_cons_of_neg (by simp [hm])]
      · rw [esvaziarMutexes, if_neg hm, ih, List.filter_cons_of_pos (by simp [Ne.symm hm]),
          List.append_assoc]
        rfl

/-- A mutex that is freed leaves the list, which keeps all others in their order. -/
theorem sthreadUserMutexFree_mutexList (s : Escalonador) (lock : ℕ) :
    (sthreadUserMutexFree s lock).mutexList = s.mutexList.filter fun m => m ≠ lock := by
  rw [sthreadUserMutexFree, esvaziarMutexes_eq, List.nil_append]

/-- The list of monitors is never drained, so the loop goes on to the end of the other list. -/
theorem esvaziarMonitores_eq_none (h : s.monitorList ≠ []) (monId : ℕ) (mutexes tmp : List ℕ) :
    esvaziarMonitores s monId mutexes tmp = none := by
  induction mutexes generalizing tmp with
  | nil => rw [esvaziarMonitores, if_neg h]
  | cons monitortemp mutexes ih =>
      rw [esvaziarMonitores, if_neg h]
      split
      · exact ih tmp
      · exact ih (tmp ++ [monitortemp])

/-- While there is a monitor, freeing one reads the first element of an empty queue. -/
theorem sthreadUserMonitorFree_falha (h : s.monitorList ≠ []) (mon : ℕ) :
    sthreadUserMonitorFree s mon = .falha := by
  have hlist : (sthreadUserMutexFree s (s.monitor mon).mutex).monitorList ≠ [] := h
  rw [sthreadUserMonitorFree]
  simp only [esvaziarMonitores_eq_none hlist]

theorem not_libertaSo_of_ne_nil (h : s.monitorList ≠ []) (mon : ℕ) : ¬LibertaSo s mon := by
  rintro ⟨s', r, he, -⟩
  rw [sthreadUserMonitorFree_falha h] at he
  cases he

/-- No monitor can be freed. -/
theorem not_libertaSo (s : Escalonador) (mon : ℕ) (h : mon ∈ s.monitorList) : ¬LibertaSo s mon :=
  not_libertaSo_of_ne_nil (List.ne_nil_of_mem h) mon

/-- One monitor and one mutex more. -/
theorem not_libertaSo_exemplo :
    ∃ s os, Runs.run registar sthreadUserInit [.monitorInit, .mutexInit] = some (s, os) ∧
      ¬LibertaSo s 0 :=
  ⟨_, _, rfl, not_libertaSo _ 0 (by decide)⟩

/-- A program makes one monitor and frees it. -/
theorem monitor_nao_liberta :
    ∃ s os, Runs.Permitted registar PedidoRegisto.Valido sthreadUserInit [.monitorInit] ∧
      Runs.run registar sthreadUserInit [.monitorInit] = some (s, os) ∧ 0 ∈ s.monitorList ∧
      SemEspera s 0 ∧ ¬LibertaSo s 0 :=
  ⟨_, _, ⟨trivial, fun _ _ _ => trivial⟩, rfl, by decide, ⟨rfl, rfl⟩,
    not_libertaSo_of_ne_nil (by decide) 0⟩

end ThreadScheduler.SthreadLib
