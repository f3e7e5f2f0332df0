import Mathlib.Data.List.Nodup
import ThreadScheduler.Lib.RingBuffer
import ThreadScheduler.Lib.Runs

/-!
# The request ring of the server

The threads of `server.c` share a ring and its counter under one monitor: one producer receives the
requests, any number of consumers serve them. The monitor has one owner at a time and one queue; a
thread that a signal takes out of the queue must own the monitor again before it goes on. Wake-ups
without a signal are allowed.
-/
namespace ThreadScheduler.SnfsServer

open RingBuffer

/-- `RING_SIZE`. -/
def ringSize : ℕ := 10

/-- The thread that runs `thread_producer`, and those that run `thread_consumer`. -/
inductive Tarefa (κ : Type*) where
  | produtor
  | consumidor (k : κ)
  deriving DecidableEq

/-- The next statement of a thread. A request is a pointer, and an element of the ring may be
`NULL`. -/
inductive Instrucao (ρ : Type*) where
  /-- `sthread_monitor_enter`, before the test for space. -/
  | pEntra
  /-- `while (available_reqs == RING_SIZE)`. -/
  | pTesta
  /-- In the queue of the monitor. -/
  | pEspera
  /-- Out of the queue, until it owns the monitor. -/
  | pAcordada
  /-- The first `sthread_monitor_exit`. -/
  | pLiberta
  /-- `srv_recv_request`. -/
  | pRecebe
  /-- `sthread_monitor_enter`, with a request. -/
  | pEntrega (req : ρ)
  /-- `put_req(req_d); available_reqs++`. -/
  | pColoca (req : ρ)
  /-- `sthread_monitor_signalall`. -/
  | pAssinala
  /-- The second `sthread_monitor_exit`, and `sthread_yield`. -/
  | pSai
  /-- `sthread_monitor_enter`. -/
  | cEntra
  /-- `while (!available_reqs)`. -/
  | cTesta
  | cEspera
  | cAcordada
  /-- `req_d = get_req(); available_reqs--`. -/
  | cRetira
  /-- `sthread_monitor_signal`. -/
  | cAssinala (req : Option ρ)
  /-- `sthread_monitor_exit`. -/
  | cSai (req : Option ρ)
  /-- The handler, the response and `sthread_yield`. -/
  | cServe (req : Option ρ)
  deriving DecidableEq

/-- The static variables, the monitor and the threads. -/
structure Servidor (κ ρ : Type*) where
  availableReqs : ℤ
  ring : Circular (Option ρ)
  dono : Option (Tarefa κ)
  espera : List (Tarefa κ)
  thread : Tarefa κ → Instrucao ρ

/-- What a step does to the ring. -/
inductive Movimento (ρ : Type*) where
  | nada
  /-- `put_req` was called. -/
  | colocou (req : ρ)
  /-- `get_req` returned. -/
  | retirou (req : Option ρ)
  deriving DecidableEq

/-- A thread goes on, the producer receives a request or an empty message, or a thread leaves the
queue of the monitor without a signal. -/
inductive Acontecimento (κ ρ : Type*) where
  | continua (t : Tarefa κ)
  | recebe (req : ρ)
  | vazia
  | espuria (t : Tarefa κ)
  deriving DecidableEq

/-- `put_req`. -/
def putReq {ρ : Type*} (r : Circular (Option ρ)) (req : ρ) : Circular (Option ρ) :=
  r.put ringSize (some req)

/-- `get_req`. -/
def getReq {ρ : Type*} (r : Circular (Option ρ)) : Option ρ × Circular (Option ρ) :=
  r.get ringSize

namespace Instrucao

variable {ρ : Type*}

/-- The statement after a wake-up. -/
def acordada : Instrucao ρ → Instrucao ρ
  | .pEspera => .pAcordada
  | .cEspera => .cAcordada
  | p => p

/-- A statement of `thread_producer`. -/
def doProdutor : Instrucao ρ → Bool
  | .cEntra | .cTesta | .cEspera | .cAcordada | .cRetira => false
  | .cAssinala _ | .cSai _ | .cServe _ => false
  | _ => true

/-- Between `enter` and `exit`, and not waiting. -/
def dentro : Instrucao ρ → Bool
  | .pTesta | .pLiberta | .pColoca _ | .pAssinala | .pSai => true
  | .cTesta | .cRetira | .cAssinala _ | .cSai _ => true
  | _ => false

/-- In the queue of the monitor. -/
def aEspera : Instrucao ρ → Bool
  | .pEspera | .cEspera => true
  | _ => false

/-- The producer has found space that it has not used yet. -/
def comEspaco : Instrucao ρ → Bool
  | .pLiberta | .pRecebe | .pEntrega _ | .pColoca _ => true
  | _ => false

end Instrucao

namespace Servidor

variable {κ ρ : Type*} [DecidableEq κ]

/-- After `main` has created the threads. -/
def inicial : Servidor κ ρ where
  availableReqs := 0
  ring := ⟨fun _ => none, 0, 0⟩
  dono := none
  espera := []
  thread
    | .produtor => .pEntra
    | .consumidor _ => .cEntra

variable (s : Servidor κ ρ) (t : Tarefa κ)

/-- Thread `t` goes on at `p`. -/
def ir (p : Instrucao ρ) : Servidor κ ρ := { s with thread := Function.update s.thread t p }

/-- `sthread_monitor_enter`, or the end of a wait, once the monitor is free. -/
def monitorEnter (p : Instrucao ρ) : Option (Servidor κ ρ × Movimento ρ) :=
  if s.dono = none then some ({ s with dono := some t }.ir t p, .nada) else none

/-- `sthread_monitor_exit`. -/
def monitorExit (p : Instrucao ρ) : Servidor κ ρ := { s with dono := none }.ir t p

/-- `sthread_monitor_wait`, up to the wake-up. -/
def monitorWait (p : Instrucao ρ) : Servidor κ ρ :=
  { s with dono := none, espera := s.espera ++ [t] }.ir t p

/-- Thread `t` leaves the queue. -/
def acordar : Servidor κ ρ :=
  { s with espera := s.espera.erase t }.ir t (s.thread t).acordada

/-- `sthread_monitor_signal`, for the first thread of the queue. -/
def monitorSignal : Servidor κ ρ :=
  match s.espera with
  | [] => s
  | u :: _ => s.acordar u

/-- `sthread_monitor_signalall`. -/
def monitorSignalall : Servidor κ ρ := s.espera.foldl acordar s

/-- The next statement of thread `t`. -/
def continuar : Option (Servidor κ ρ × Movimento ρ) :=
  match s.thread t with
  | .pEntra => s.monitorEnter t .pTesta
  | .pTesta =>
      if s.availableReqs = ringSize then some (s.monitorWait t .pEspera, .nada)
      else some (s.ir t .pLiberta, .nada)
  | .pEspera => none
  | .pAcordada => s.monitorEnter t .pTesta
  | .pLiberta => some (s.monitorExit t .pRecebe, .nada)
  | .pRecebe => none
  | .pEntrega req => s.monitorEnter t (.pColoca req)
  | .pColoca req =>
      some ({ s with ring := putReq s.ring req, availableReqs := s.availableReqs + 1 }.ir t
        .pAssinala, .colocou req)
  | .pAssinala => some (s.monitorSignalall.ir t .pSai, .nada)
  | .pSai => some (s.monitorExit t .pEntra, .nada)
  | .cEntra => s.monitorEnter t .cTesta
  | .cTesta =>
      if s.availableReqs = 0 then some (s.monitorWait t .cEspera, .nada)
      else some (s.ir t .cRetira, .nada)
  | .cEspera => none
  | .cAcordada => s.monitorEnter t .cTesta
  | .cRetira =>
      some ({ s with ring := (getReq s.ring).2, availableReqs := s.availableReqs - 1 }.ir t
        (.cAssinala (getReq s.ring).1), .retirou (getReq s.ring).1)
  | .cAssinala req => some (s.monitorSignal.ir t (.cSai req), .nada)
  | .cSai req => some (s.monitorExit t (.cServe req), .nada)
  | .cServe _ => some (s.ir t .cEntra, .nada)

/-- One step. An empty message sends the producer back to the test for space. -/
def passo (s : Servidor κ ρ) : Acontecimento κ ρ → Option (Servidor κ ρ × Movimento ρ)
  | .continua t => s.continuar t
  | .recebe req =>
      match s.thread .produtor with
      | .pRecebe => some (s.ir .produtor (.pEntrega req), .nada)
      | _ => none
  | .vazia =>
      match s.thread .produtor with
      | .pRecebe => some (s.ir .produtor .pEntra, .nada)
      | _ => none
  | .espuria t => if t ∈ s.espera then some (s.acordar t, .nada) else none

end Servidor

/-! ## The monitor -/

/-- Who owns the monitor and who waits, by the statements of the threads. -/
structure Disciplinado {κ ρ : Type*} (s : Servidor κ ρ) : Prop where
  papel : ∀ t, (s.thread t).doProdutor = true ↔ t = .produtor
  dentro : ∀ t, s.dono = some t ↔ (s.thread t).dentro = true
  espera : ∀ t, t ∈ s.espera ↔ (s.thread t).aEspera = true
  nodup : s.espera.Nodup

namespace Disciplinado

open Servidor

variable {κ ρ : Type*} [DecidableEq κ] {s s' : Servidor κ ρ} {t : Tarefa κ} {p : Instrucao ρ}

theorem papel_update (h : Disciplinado s) (hp : p.doProdutor = (s.thread t).doProdutor)
    (u : Tarefa κ) : (Function.update s.thread t p u).doProdutor = true ↔ u = .produtor := by
  rw [Function.update_apply]
  split
  · rename_i hu
    rw [hp, hu]
    exact h.papel t
  · exact h.papel u

/-- A thread that owns the monitor goes on as its owner, a thread outside stays outside. -/
theorem ir (h : Disciplinado s) (hp : p.doProdutor = (s.thread t).doProdutor)
    (hd : p.dentro = (s.thread t).dentro) (he : p.aEspera = (s.thread t).aEspera)
    (hthread : s'.thread = Function.update s.thread t p) (hdono : s'.dono = s.dono)
    (hespera : s'.espera = s.espera) : Disciplinado s' := by
  refine ⟨fun u => ?_, fun u => ?_, fun u => ?_, ?_⟩
  · rw [hthread]
    exact h.papel_update hp u
  · rw [hthread, hdono, Function.update_apply]
    split
    · rename_i hu
      rw [hd, hu]
      exact h.dentro t
    · exact h.dentro u
  · rw [hthread, hespera, Function.update_apply]
    split
    · rename_i hu
      rw [he, hu]
      exact h.espera t
    · exact h.espera u
  · rw [hespera]
    exact h.nodup

theorem entrar (h : Disciplinado s) (hdono : s.dono = none)
    (hp : p.doProdutor = (s.thread t).doProdutor) (hd : p.dentro = true)
    (he : p.aEspera = (s.thread t).aEspera) :
    Disciplinado (Servidor.ir { s with dono := some t } t p) := by
  refine ⟨h.papel_update hp, fun u => ?_, fun u => ?_, h.nodup⟩
  · show some t = some u ↔ (Function.update s.thread t p u).dentro = true
    rw [Function.update_apply]
    split
    · rename_i hu
      rw [hu]
      exact iff_of_true rfl hd
    · rename_i hu
      refine iff_of_false (fun heq => hu (Option.some.inj heq).symm) fun hin => ?_
      rw [← h.dentro u, hdono] at hin
      cases hin
  · show u ∈ s.espera ↔ (Function.update s.thread t p u).aEspera = true
    rw [Function.update_apply]
    split
    · rename_i hu
      rw [he, hu]
      exact h.espera t
    · exact h.espera u

omit [DecidableEq κ] in
theorem unico (h : Disciplinado s) (ht : (s.thread t).dentro = true) {u : Tarefa κ}
    (hu : (s.thread u).dentro = true) : u = t := by
  have hdt := (h.dentro t).mpr ht
  have hdu := (h.dentro u).mpr hu
  exact Option.some.inj (hdu.symm.trans hdt)

/-- The owner leaves the monitor. -/
theorem sair (h : Disciplinado s) (ht : (s.thread t).dentro = true)
    (hp : p.doProdutor = (s.thread t).doProdutor) (hd : p.dentro = false)
    (he : p.aEspera = (s.thread t).aEspera) : Disciplinado (s.monitorExit t p) := by
  refine ⟨h.papel_update hp, fun u => ?_, fun u => ?_, h.nodup⟩
  · show none = some u ↔ (Function.update s.thread t p u).dentro = true
    rw [Function.update_apply]
    split
    · exact iff_of_false (Option.some_ne_none u).symm (by rw [hd]; exact Bool.false_ne_true)
    · rename_i hu
      exact iff_of_false (Option.some_ne_none u).symm fun hin => hu (h.unico ht hin)
  · show u ∈ s.espera ↔ (Function.update s.thread t p u).aEspera = true
    rw [Function.update_apply]
    split
    · rename_i hu
      rw [he, hu]
      exact h.espera t
    · exact h.espera u

theorem esperar (h : Disciplinado s) (ht : (s.thread t).dentro = true)
    (hp : p.doProdutor = (s.thread t).doProdutor) (hd : p.dentro = false)
    (hfora : (s.thread t).aEspera = false) (he : p.aEspera = true) :
    Disciplinado (s.monitorWait t p) := by
  have hnot : t ∉ s.espera := by
    rw [h.espera, hfora]
    exact Bool.false_ne_true
  refine ⟨h.papel_update hp, fun u => ?_, fun u => ?_, ?_⟩
  · show none = some u ↔ (Function.update s.thread t p u).dentro = true
    rw [Function.update_apply]
    split
    · exact iff_of_false (Option.some_ne_none u).symm (by rw [hd]; exact Bool.false_ne_true)
    · rename_i hu
      exact iff_of_false (Option.some_ne_none u).symm fun hin => hu (h.unico ht hin)
  · show u ∈ s.espera ++ [t] ↔ (Function.update s.thread t p u).aEspera = true
    rw [Function.update_apply, List.mem_append, List.mem_singleton]
    split
    · rename_i hu
      exact iff_of_true (.inr hu) he
    · rename_i hu
      rw [or_iff_left hu]
      exact h.espera u
  · show (s.espera ++ [t]).Nodup
    refine List.nodup_append.mpr ⟨h.nodup, List.nodup_singleton t, fun u hu v hv => ?_⟩
    rintro rfl
    exact hnot (List.mem_singleton.mp hv ▸ hu)

theorem acordar (h : Disciplinado s) (ht : t ∈ s.espera) : Disciplinado (s.acordar t) := by
  have hesp := (h.espera t).mp ht
  obtain ⟨hp, hd, hd', he⟩ : (s.thread t).acordada.doProdutor = (s.thread t).doProdutor ∧
      (s.thread t).dentro = false ∧ (s.thread t).acordada.dentro = false ∧
      (s.thread t).acordada.aEspera = false := by
    cases hq : s.thread t <;> rw [hq] at hesp <;>
      first | exact ⟨rfl, rfl, rfl, rfl⟩ | cases hesp
  refine ⟨h.papel_update hp, fun u => ?_, fun u => ?_, h.nodup.erase t⟩
  · show s.dono = some u ↔ (Function.update s.thread t _ u).dentro = true
    rw [Function.update_apply]
    split
    · rename_i hu
      rw [hd', h.dentro, hu, hd]
    · exact h.dentro u
  · show u ∈ s.espera.erase t ↔ (Function.update s.thread t _ u).aEspera = true
    rw [Function.update_apply, h.nodup.mem_erase_iff]
    split
    · rename_i hu
      rw [he]
      exact iff_of_false (fun hm => hm.1 hu) Bool.false_ne_true
    · rename_i hu
      rw [and_iff_right hu]
      exact h.espera u

/-- Threads have left the queue. -/
structure Acordou (s s' : Servidor κ ρ) : Prop where
  availableReqs : s'.availableReqs = s.availableReqs
  ring : s'.ring = s.ring
  espera : ∀ u ∈ s'.espera, u ∈ s.espera
  thread : ∀ u, s'.thread u = s.thread u ∨
    (s.thread u).aEspera = true ∧ s'.thread u = (s.thread u).acordada

omit [DecidableEq κ] in
theorem Acordou.refl (s : Servidor κ ρ) : Acordou s s :=
  ⟨rfl, rfl, fun _ hu => hu, fun _ => .inl rfl⟩

theorem acordou (h : Disciplinado s) (ht : t ∈ s.espera) : Acordou s (s.acordar t) := by
  refine ⟨rfl, rfl, fun u hu => List.mem_of_mem_erase hu, fun u => ?_⟩
  by_cases hu : u = t
  · subst hu
    exact .inr ⟨(h.espera u).mp ht, Function.update_self ..⟩
  · exact .inl (Function.update_of_ne hu ..)

omit [DecidableEq κ] in
theorem Acordou.trans {s'' : Servidor κ ρ} (h : Acordou s s') (h' : Acordou s' s'') :
    Acordou s s'' := by
  have hacordada : ∀ q : Instrucao ρ, q.acordada.acordada = q.acordada := by
    intro q
    cases q <;> rfl
  refine ⟨h'.1.trans h.1, h'.2.trans h.2, fun u hu => h.3 u (h'.3 u hu), fun u => ?_⟩
  rcases h.thread u with he | ⟨hq, he⟩
  · rw [← he]
    exact h'.thread u
  · rcases h'.thread u with he' | ⟨-, he'⟩
    · exact .inr ⟨hq, he'.trans he⟩
    · exact .inr ⟨hq, by rw [he', he, hacordada]⟩

theorem monitorSignal (h : Disciplinado s) :
    Disciplinado s.monitorSignal ∧ Acordou s s.monitorSignal := by
  rw [Servidor.monitorSignal]
  split
  · exact ⟨h, .refl s⟩
  · rename_i u fila hq
    have hu : u ∈ s.espera := by
      rw [hq]
      exact List.mem_cons_self
    exact ⟨h.acordar hu, h.acordou hu⟩

theorem foldl_acordar {l : List (Tarefa κ)} (h : Disciplinado s) (hl : l.Nodup)
    (hsub : ∀ u ∈ l, u ∈ s.espera) :
    Disciplinado (l.foldl Servidor.acordar s) ∧ Acordou s (l.foldl Servidor.acordar s) ∧
      ∀ u ∈ l, u ∉ (l.foldl Servidor.acordar s).espera := by
  induction l generalizing s with
  | nil => exact ⟨h, .refl s, fun u hu => absurd hu List.not_mem_nil⟩
  | cons v l ih =>
      have hv := hsub v List.mem_cons_self
      obtain ⟨hnot, hl⟩ := List.nodup_cons.mp hl
      obtain ⟨hd, ha, hfora⟩ := ih (h.acordar hv) hl fun u hu => by
        refine (h.nodup.mem_erase_iff).mpr ⟨?_, hsub u (List.mem_cons_of_mem v hu)⟩
        rintro rfl
        exact hnot hu
      refine ⟨hd, (h.acordou hv).trans ha, fun u hu => ?_⟩
      rcases List.mem_cons.mp hu with rfl | hu
      · exact fun hm => h.nodup.not_mem_erase (ha.espera u hm)
      · exact hfora u hu

theorem monitorSignalall (h : Disciplinado s) :
    Disciplinado s.monitorSignalall ∧ Acordou s s.monitorSignalall ∧
      s.monitorSignalall.espera = [] := by
  obtain ⟨hd, ha, hfora⟩ := h.foldl_acordar h.nodup fun u hu => hu
  refine ⟨hd, ha, List.eq_nil_iff_forall_not_mem.mpr fun u hu => ?_⟩
  exact hfora u (ha.espera u hu) hu

end Disciplinado

/-! ## The invariant -/

variable {κ ρ : Type*}

/-- The sequence passed to `put_req`. -/
def colocados (os : List (Movimento ρ)) : List ρ :=
  os.filterMap fun
    | .colocou req => some req
    | _ => none

/-- The sequence returned by `get_req`. -/
def retirados (os : List (Movimento ρ)) : List (Option ρ) :=
  os.filterMap fun
    | .retirou req => some req
    | _ => none

/-- After the moves `os`: the ring holds the requests that have not been taken, and nobody waits
for what is there already, except while the thread that has brought it has not signalled yet. -/
structure Atendido (os : List (Movimento ρ)) (s : Servidor κ ρ) : Prop where
  disciplina : Disciplinado s
  espaco : ∀ t, (s.thread t).comEspaco = true → s.availableReqs < ringSize
  pedido : ∀ t, s.thread t = .cRetira → s.availableReqs ≠ 0
  produtorEspera : .produtor ∈ s.espera → s.availableReqs = ringSize ∨
    s.availableReqs = ringSize - 1 ∧ ∃ t req, s.thread t = .cAssinala req
  consumidorEspera : ∀ k, .consumidor k ∈ s.espera →
    s.availableReqs = 0 ∨ s.thread .produtor = .pAssinala
  fila : ∃ pend : List ρ, s.ring.Holds ringSize (pend.map some) ∧
    s.availableReqs = pend.length ∧ (colocados os).map some = retirados os ++ pend.map some
  head : s.ring.head = (retirados os).length % ringSize

namespace Atendido

variable [DecidableEq κ] {s s' : Servidor κ ρ} {os : List (Movimento ρ)} {t : Tarefa κ}
  {p : Instrucao ρ}

omit [DecidableEq κ] in
/-- A step that leaves the ring. -/
theorem nada (hf : ∃ pend : List ρ, s.ring.Holds ringSize (pend.map some) ∧
      s.availableReqs = pend.length ∧ (colocados os).map some = retirados os ++ pend.map some) :
    ∃ pend : List ρ, s.ring.Holds ringSize (pend.map some) ∧ s.availableReqs = pend.length ∧
      (colocados (os ++ [.nada])).map some = retirados (os ++ [.nada]) ++ pend.map some := by
  simpa [colocados, retirados] using hf

/-- Thread `t` goes on at `p` and leaves the ring. If it goes to the queue it waits for what is not
there. -/
theorem ir (h : Atendido os s) (hd : Disciplinado s')
    (hthread : s'.thread = Function.update s.thread t p)
    (havail : s'.availableReqs = s.availableReqs) (hring : s'.ring = s.ring)
    (hespera : ∀ u ∈ s'.espera, u ∈ s.espera ∨
      (u = .produtor → s.availableReqs = ringSize) ∧ (u ≠ .produtor → s.availableReqs = 0))
    (hespaco : p.comEspaco = true → s.availableReqs < ringSize)
    (hpedido : p = .cRetira → s.availableReqs ≠ 0)
    (hconsumidor : ∀ req, s.thread t ≠ .cAssinala req) (hprodutor : s.thread t ≠ .pAssinala) :
    Atendido (os ++ [.nada]) s' := by
  refine ⟨hd, fun u hu => ?_, fun u hu => ?_, fun hu => ?_, fun k hk => ?_, ?_, ?_⟩
  · rw [havail]
    rw [hthread, Function.update_apply] at hu
    split at hu
    · exact hespaco hu
    · exact h.espaco u hu
  · rw [havail]
    rw [hthread, Function.update_apply] at hu
    split at hu
    · exact hpedido hu
    · exact h.pedido u hu
  · rw [havail, hthread]
    rcases hespera _ hu with hu | ⟨hu, -⟩
    · refine (h.produtorEspera hu).imp id fun ⟨h9, u, req, hur⟩ => ⟨h9, u, req, ?_⟩
      rw [Function.update_of_ne]
      · exact hur
      · rintro rfl
        exact hconsumidor req hur
    · exact .inl (hu rfl)
  · rw [havail, hthread]
    rcases hespera _ hk with hk | ⟨-, hk⟩
    · refine (h.consumidorEspera k hk).imp id fun hp => ?_
      rw [Function.update_of_ne]
      · exact hp
      · rintro rfl
        exact hprodutor hp
    · exact .inl (hk nofun)
  · rw [hring, havail]
    exact nada h.fila
  · rw [hring, h.head]
    simp [retirados]

omit [DecidableEq κ] in
/-- Threads leave the queue. -/
theorem acordou (h : Atendido os s) (hd : Disciplinado s') (ha : Disciplinado.Acordou s s') :
    Atendido (os ++ [.nada]) s' := by
  have hcampos : ∀ q : Instrucao ρ, q.aEspera = true → q.acordada.comEspaco = false ∧
      q.acordada ≠ .cRetira := by
    intro q hq
    cases q <;> simp_all [Instrucao.aEspera, Instrucao.acordada, Instrucao.comEspaco]
  have hfica : ∀ u, (s.thread u).aEspera = false → s'.thread u = s.thread u := by
    intro u hu
    refine (ha.thread u).resolve_right fun hw => ?_
    rw [hu] at hw
    exact Bool.false_ne_true hw.1
  refine ⟨hd, fun u hu => ?_, fun u hu => ?_, fun hu => ?_, fun k hk => ?_, ?_, ?_⟩
  · rw [ha.availableReqs]
    rcases ha.thread u with he | ⟨hq, he⟩
    · exact h.espaco u (he ▸ hu)
    · rw [he, (hcampos _ hq).1] at hu
      cases hu
  · rw [ha.availableReqs]
    rcases ha.thread u with he | ⟨hq, he⟩
    · exact h.pedido u (he ▸ hu)
    · rw [he] at hu
      exact absurd hu (hcampos _ hq).2
  · rw [ha.availableReqs]
    refine (h.produtorEspera (ha.espera _ hu)).imp id fun ⟨h9, u, req, hur⟩ => ⟨h9, u, req, ?_⟩
    rw [hfica u (by rw [hur]; rfl), hur]
  · rw [ha.availableReqs]
    refine (h.consumidorEspera k (ha.espera _ hk)).imp id fun hp => ?_
    rw [hfica _ (by rw [hp]; rfl), hp]
  · rw [ha.ring, ha.availableReqs]
    exact nada h.fila
  · rw [ha.ring, h.head]
    simp [retirados]

omit [DecidableEq κ] in
theorem nao_espera (h : Atendido os s) (ht : (s.thread t).aEspera = false) : t ∉ s.espera := by
  rw [h.disciplina.espera, ht]
  exact Bool.false_ne_true

/-- The signal of a consumer leaves no producer in the queue. -/
theorem assinala (h : Atendido os s) : .produtor ∉ s.monitorSignal.espera := by
  rw [Servidor.monitorSignal]
  split
  · rename_i hq
    rw [hq]
    exact List.not_mem_nil
  · rename_i u fila hq
    intro hm
    have hnodup := h.disciplina.nodup
    have hm : .produtor ∈ s.espera.erase u := hm
    obtain ⟨hne, hin⟩ := hnodup.mem_erase_iff.mp hm
    have hu : u ∈ s.espera := by
      rw [hq]
      exact List.mem_cons_self
    cases u with
    | produtor => exact hne rfl
    | consumidor k =>
        have hesp := (h.disciplina.espera _).mp hin
        have hzero := (h.consumidorEspera k hu).resolve_right fun hp => by
          rw [hp] at hesp
          cases hesp
        have hcheia := h.produtorEspera hin
        rw [hzero] at hcheia
        rcases hcheia with h10 | ⟨h9, -⟩
        · exact absurd h10 (by decide)
        · exact absurd h9 (by decide)

/-- `put_req(req_d); available_reqs++`. -/
theorem coloca (h : Atendido os s) {req : ρ} (ht : s.thread t = .pColoca req) :
    Atendido (os ++ [.colocou req]) (Servidor.ir { s with
      ring := putReq s.ring req, availableReqs := s.availableReqs + 1 } t .pAssinala) := by
  have hd : Disciplinado (Servidor.ir { s with
      ring := putReq s.ring req, availableReqs := s.availableReqs + 1 } t .pAssinala) :=
    h.disciplina.ir (t := t) (p := .pAssinala) (by rw [ht]; rfl) (by rw [ht]; rfl)
      (by rw [ht]; rfl) rfl rfl rfl
  have hprod : t = .produtor := (h.disciplina.papel t).mp (by rw [ht]; rfl)
  have hlt := h.espaco t (by rw [ht]; rfl)
  -- only the producer puts, so no other thread relies on the space
  have hunico : ∀ u, u ≠ t → (s.thread u).comEspaco = false := by
    intro u hu
    cases hc : (s.thread u).comEspaco with
    | false => rfl
    | true =>
        have hp : (s.thread u).doProdutor = true := by
          cases hq : s.thread u <;> rw [hq] at hc <;> first | rfl | cases hc
        exact absurd (((h.disciplina.papel u).mp hp).trans hprod.symm) hu
  refine ⟨hd, fun u hu => ?_, fun u hu => ?_, fun hu => ?_, fun k hk => ?_, ?_, ?_⟩
  · have hu : (Function.update s.thread t .pAssinala u).comEspaco = true := hu
    rw [Function.update_apply] at hu
    split at hu
    · cases hu
    · rename_i hne
      rw [hunico u hne] at hu
      cases hu
  · have hu : Function.update s.thread t .pAssinala u = .cRetira := hu
    rw [Function.update_apply] at hu
    split at hu
    · cases hu
    · rename_i hne
      refine absurd (h.disciplina.unico (t := t) (by rw [ht]; rfl) (u := u) ?_) hne
      rw [hu]
      rfl
  · exact absurd hu (hprod ▸ h.nao_espera (t := t) (by rw [ht]; rfl))
  · refine .inr ?_
    show Function.update s.thread t .pAssinala .produtor = .pAssinala
    rw [hprod, Function.update_self]
  · obtain ⟨pend, hh, havail, hseq⟩ := h.fila
    have hlen : (pend.map some).length < ringSize := by
      rw [List.length_map]
      omega
    refine ⟨pend ++ [req], ?_, ?_, ?_⟩
    · rw [List.map_append]
      exact hh.put hlen (some req)
    · show s.availableReqs + 1 = _
      rw [havail, List.length_append, List.length_singleton]
      rfl
    · have hput : colocados (os ++ [.colocou req]) = colocados os ++ [req] := by
        simp [colocados]
      have hget : retirados (os ++ [.colocou req]) = retirados os := by simp [retirados]
      rw [hput, hget, List.map_append, hseq, List.map_append, List.append_assoc]
  · show s.ring.head = _
    rw [h.head]
    simp [retirados]

/-- `req_d = get_req(); available_reqs--`. -/
theorem retira (h : Atendido os s) (ht : s.thread t = .cRetira) :
    Atendido (os ++ [.retirou (getReq s.ring).1]) (Servidor.ir { s with
      ring := (getReq s.ring).2, availableReqs := s.availableReqs - 1 } t
        (.cAssinala (getReq s.ring).1)) := by
  have hd : Disciplinado (Servidor.ir { s with
      ring := (getReq s.ring).2, availableReqs := s.availableReqs - 1 } t
        (.cAssinala (getReq s.ring).1)) :=
    h.disciplina.ir (t := t) (p := .cAssinala (getReq s.ring).1) (by rw [ht]; rfl)
      (by rw [ht]; rfl) (by rw [ht]; rfl) rfl rfl rfl
  have hdentro : (s.thread t).dentro = true := by
    rw [ht]
    rfl
  have hne := h.pedido t ht
  obtain ⟨pend, hh, havail, hseq⟩ := h.fila
  refine ⟨hd, fun u hu => ?_, fun u hu => ?_, fun hu => ?_, fun k hk => ?_, ?_, ?_⟩
  · have hu : (Function.update s.thread t (.cAssinala (getReq s.ring).1) u).comEspaco = true := hu
    show s.availableReqs - 1 < ringSize
    rw [Function.update_apply] at hu
    split at hu
    · cases hu
    · have := h.espaco u hu
      omega
  · have hu : Function.update s.thread t (.cAssinala (getReq s.ring).1) u = .cRetira := hu
    rw [Function.update_apply] at hu
    split at hu
    · cases hu
    · rename_i hut
      refine absurd (h.disciplina.unico hdentro (u := u) ?_) hut
      rw [hu]
      rfl
  · refine .inr ⟨?_, t, (getReq s.ring).1, Function.update_self ..⟩
    show s.availableReqs - 1 = ringSize - 1
    rcases h.produtorEspera hu with h10 | ⟨-, u, req, hur⟩
    · omega
    · have hut := h.disciplina.unico hdentro (u := u) (by rw [hur]; rfl)
      rw [hut, ht] at hur
      cases hur
  · rcases h.consumidorEspera k hk with h0 | hp
    · exact absurd h0 hne
    · have hut := h.disciplina.unico hdentro (u := .produtor) (by rw [hp]; rfl)
      rw [← hut, hp] at ht
      cases ht
  · cases pend with
    | nil => exact absurd havail hne
    | cons req pend =>
        obtain ⟨hreq, hh'⟩ := Circular.Holds.get (n := ringSize) (l := pend.map some)
          (x := some req) hh
        refine ⟨pend, hh', ?_, ?_⟩
        · show s.availableReqs - 1 = _
          rw [havail, List.length_cons]
          omega
        · have hput : colocados (os ++ [.retirou (getReq s.ring).1]) = colocados os := by
            simp [colocados]
          have hget : retirados (os ++ [.retirou (getReq s.ring).1]) =
              retirados os ++ [some req] := by
            simp [retirados, getReq, hreq]
          rw [hput, hget, hseq, List.append_assoc]
          rfl
  · show (s.ring.head + 1) % ringSize = _
    have hget : (retirados (os ++ [.retirou (getReq s.ring).1])).length =
        (retirados os).length + 1 := by
      simp [retirados]
    rw [h.head, hget, Nat.mod_add_mod]

/-- `sthread_monitor_signal`, for a consumer that has taken a request. -/
theorem sinal (h : Atendido os s) {req : Option ρ} (ht : s.thread t = .cAssinala req) :
    Atendido (os ++ [.nada]) (s.monitorSignal.ir t (.cSai req)) := by
  obtain ⟨hd, ha⟩ := h.disciplina.monitorSignal
  have hfica : s.monitorSignal.thread t = .cAssinala req := by
    refine ((ha.thread t).resolve_right fun hw => ?_).trans ht
    rw [ht] at hw
    exact Bool.false_ne_true hw.1
  have hd' : Disciplinado (s.monitorSignal.ir t (.cSai req)) :=
    hd.ir (t := t) (p := .cSai req) (by rw [hfica]; rfl) (by rw [hfica]; rfl) (by rw [hfica]; rfl)
      rfl rfl rfl
  have h' := h.acordou hd ha
  refine ⟨hd', fun u hu => ?_, fun u hu => ?_, fun hu => absurd hu h.assinala, fun k hk => ?_,
    h'.fila, h'.head⟩
  · have hu : (Function.update s.monitorSignal.thread t (.cSai req) u).comEspaco = true := hu
    rw [Function.update_apply] at hu
    split at hu
    · cases hu
    · exact h'.espaco u hu
  · have hu : Function.update s.monitorSignal.thread t (.cSai req) u = .cRetira := hu
    rw [Function.update_apply] at hu
    split at hu
    · cases hu
    · exact h'.pedido u hu
  · refine (h'.consumidorEspera k hk).imp id fun hp => ?_
    refine (Function.update_of_ne ?_ ..).trans hp
    rintro rfl
    rw [hfica] at hp
    cases hp

/-- `sthread_monitor_signalall`, for the producer that has put a request. -/
theorem sinalTodos (h : Atendido os s) (ht : s.thread t = .pAssinala) :
    Atendido (os ++ [.nada]) (s.monitorSignalall.ir t .pSai) := by
  obtain ⟨hd, ha, hvazia⟩ := h.disciplina.monitorSignalall
  have hfica : s.monitorSignalall.thread t = .pAssinala := by
    refine ((ha.thread t).resolve_right fun hw => ?_).trans ht
    rw [ht] at hw
    exact Bool.false_ne_true hw.1
  have hd' : Disciplinado (s.monitorSignalall.ir t .pSai) :=
    hd.ir (t := t) (p := .pSai) (by rw [hfica]; rfl) (by rw [hfica]; rfl) (by rw [hfica]; rfl)
      rfl rfl rfl
  have h' := h.acordou hd ha
  have hnao : ∀ u, u ∉ (s.monitorSignalall.ir t .pSai).espera := by
    intro u hu
    have hu : u ∈ s.monitorSignalall.espera := hu
    rw [hvazia] at hu
    exact List.not_mem_nil hu
  refine ⟨hd', fun u hu => ?_, fun u hu => ?_, fun hu => absurd hu (hnao _),
    fun k hk => absurd hk (hnao _), h'.fila, h'.head⟩
  · have hu : (Function.update s.monitorSignalall.thread t .pSai u).comEspaco = true := hu
    rw [Function.update_apply] at hu
    split at hu
    · cases hu
    · exact h'.espaco u hu
  · have hu : Function.update s.monitorSignalall.thread t .pSai u = .cRetira := hu
    rw [Function.update_apply] at hu
    split at hu
    · cases hu
    · exact h'.pedido u hu

/-- A thread enters the monitor. -/
theorem entra (h : Atendido os s) {m : Movimento ρ} (hs : s.monitorEnter t p = some (s', m))
    (hp : p.doProdutor = (s.thread t).doProdutor) (hd : p.dentro = true)
    (he : p.aEspera = (s.thread t).aEspera) (hfora : (s.thread t).dentro = false)
    (hespaco : p.comEspaco = true → (s.thread t).comEspaco = true)
    (hpedido : p ≠ .cRetira) : Atendido (os ++ [m]) s' := by
  rw [Servidor.monitorEnter] at hs
  split at hs
  · rename_i hdono
    obtain ⟨rfl, rfl⟩ := Prod.mk.inj (Option.some.inj hs)
    refine h.ir (h.disciplina.entrar hdono hp hd he) rfl rfl rfl (fun u hu => .inl hu)
      (fun hc => h.espaco t (hespaco hc)) (fun hc => absurd hc hpedido) (fun req hq => ?_)
      fun hq => ?_
    · rw [hq] at hfora
      cases hfora
    · rw [hq] at hfora
      cases hfora
  · cases hs

theorem continuar (h : Atendido os s) {m : Movimento ρ} (hs : s.continuar t = some (s', m)) :
    Atendido (os ++ [m]) s' := by
  have hpapel := h.disciplina.papel t
  rw [Servidor.continuar] at hs
  cases ht : s.thread t with
  | pEntra =>
      rw [ht] at hs
      exact h.entra hs (by rw [ht]; rfl) rfl (by rw [ht]; rfl) (by rw [ht]; rfl) nofun nofun
  | pTesta =>
      rw [ht] at hs
      simp only at hs
      have hprod : t = .produtor := hpapel.mp (by rw [ht]; rfl)
      obtain ⟨pend, hh, havail, -⟩ := h.fila
      have hle := hh.length_le
      rw [List.length_map] at hle
      split at hs
      · rename_i hcheia
        obtain ⟨rfl, rfl⟩ := Prod.mk.inj (Option.some.inj hs)
        refine h.ir (t := t) (p := .pEspera) (h.disciplina.esperar (by rw [ht]; rfl)
          (by rw [ht]; rfl) rfl (by rw [ht]; rfl) rfl) rfl rfl rfl (fun u hu => ?_) nofun nofun
          (by rw [ht]; nofun) (by rw [ht]; nofun)
        rcases List.mem_append.mp hu with hu | hu
        · exact .inl hu
        · refine .inr ⟨fun _ => hcheia, fun hne => absurd ?_ hne⟩
          rw [List.mem_singleton.mp hu, hprod]
      · rename_i hne
        obtain ⟨rfl, rfl⟩ := Prod.mk.inj (Option.some.inj hs)
        exact h.ir (t := t) (p := .pLiberta) (h.disciplina.ir (by rw [ht]; rfl) (by rw [ht]; rfl)
          (by rw [ht]; rfl) rfl rfl rfl) rfl rfl rfl (fun u hu => .inl hu) (fun _ => by omega)
          nofun (by rw [ht]; nofun) (by rw [ht]; nofun)
  | pEspera =>
      rw [ht] at hs
      cases hs
  | pAcordada =>
      rw [ht] at hs
      exact h.entra hs (by rw [ht]; rfl) rfl (by rw [ht]; rfl) (by rw [ht]; rfl) nofun nofun
  | pLiberta =>
      rw [ht] at hs
      obtain ⟨rfl, rfl⟩ := Prod.mk.inj (Option.some.inj hs)
      exact h.ir (t := t) (p := .pRecebe) (h.disciplina.sair (by rw [ht]; rfl) (by rw [ht]; rfl)
        rfl (by rw [ht]; rfl)) rfl rfl rfl (fun u hu => .inl hu)
        (fun _ => h.espaco t (by rw [ht]; rfl)) nofun (by rw [ht]; nofun) (by rw [ht]; nofun)
  | pRecebe =>
      rw [ht] at hs
      cases hs
  | pEntrega req =>
      rw [ht] at hs
      exact h.entra hs (by rw [ht]; rfl) rfl (by rw [ht]; rfl) (by rw [ht]; rfl)
        (fun _ => by rw [ht]; rfl) nofun
  | pColoca req =>
      rw [ht] at hs
      obtain ⟨rfl, rfl⟩ := Prod.mk.inj (Option.some.inj hs)
      exact h.coloca ht
  | pAssinala =>
      rw [ht] at hs
      obtain ⟨rfl, rfl⟩ := Prod.mk.inj (Option.some.inj hs)
      exact h.sinalTodos ht
  | pSai =>
      rw [ht] at hs
      obtain ⟨rfl, rfl⟩ := Prod.mk.inj (Option.some.inj hs)
      exact h.ir (t := t) (p := .pEntra) (h.disciplina.sair (by rw [ht]; rfl) (by rw [ht]; rfl)
        rfl (by rw [ht]; rfl)) rfl rfl rfl (fun u hu => .inl hu) nofun nofun (by rw [ht]; nofun)
        (by rw [ht]; nofun)
  | cEntra =>
      rw [ht] at hs
      exact h.entra hs (by rw [ht]; rfl) rfl (by rw [ht]; rfl) (by rw [ht]; rfl) nofun nofun
  | cTesta =>
      rw [ht] at hs
      simp only at hs
      split at hs
      · rename_i hvazia
        obtain ⟨rfl, rfl⟩ := Prod.mk.inj (Option.some.inj hs)
        refine h.ir (t := t) (p := .cEspera) (h.disciplina.esperar (by rw [ht]; rfl)
          (by rw [ht]; rfl) rfl (by rw [ht]; rfl) rfl) rfl rfl rfl (fun u hu => ?_) nofun nofun
          (by rw [ht]; nofun) (by rw [ht]; nofun)
        rcases List.mem_append.mp hu with hu | hu
        · exact .inl hu
        · refine .inr ⟨fun hp => ?_, fun _ => hvazia⟩
          have hprod := (h.disciplina.papel u).mpr hp
          rw [List.mem_singleton.mp hu, ht] at hprod
          cases hprod
      · rename_i hne
        obtain ⟨rfl, rfl⟩ := Prod.mk.inj (Option.some.inj hs)
        exact h.ir (t := t) (p := .cRetira) (h.disciplina.ir (by rw [ht]; rfl) (by rw [ht]; rfl)
          (by rw [ht]; rfl) rfl rfl rfl) rfl rfl rfl (fun u hu => .inl hu) nofun (fun _ => hne)
          (by rw [ht]; nofun) (by rw [ht]; nofun)
  | cEspera =>
      rw [ht] at hs
      cases hs
  | cAcordada =>
      rw [ht] at hs
      exact h.entra hs (by rw [ht]; rfl) rfl (by rw [ht]; rfl) (by rw [ht]; rfl) nofun nofun
  | cRetira =>
      rw [ht] at hs
      obtain ⟨rfl, rfl⟩ := Prod.mk.inj (Option.some.inj hs)
      exact h.retira ht
  | cAssinala req =>
      rw [ht] at hs
      obtain ⟨rfl, rfl⟩ := Prod.mk.inj (Option.some.inj hs)
      exact h.sinal ht
  | cSai req =>
      rw [ht] at hs
      obtain ⟨rfl, rfl⟩ := Prod.mk.inj (Option.some.inj hs)
      exact h.ir (t := t) (p := .cServe req) (h.disciplina.sair (by rw [ht]; rfl)
        (by rw [ht]; rfl) rfl (by rw [ht]; rfl)) rfl rfl rfl (fun u hu => .inl hu) nofun nofun
        (by rw [ht]; nofun) (by rw [ht]; nofun)
  | cServe req =>
      rw [ht] at hs
      obtain ⟨rfl, rfl⟩ := Prod.mk.inj (Option.some.inj hs)
      exact h.ir (t := t) (p := .cEntra) (h.disciplina.ir (by rw [ht]; rfl) (by rw [ht]; rfl)
        (by rw [ht]; rfl) rfl rfl rfl) rfl rfl rfl (fun u hu => .inl hu) nofun nofun
        (by rw [ht]; nofun) (by rw [ht]; nofun)

/-- Outside the monitor the producer goes from one statement to another. -/
theorem recebe (h : Atendido os s) (ht : s.thread .produtor = .pRecebe)
    (hp : p.doProdutor = true) (hd : p.dentro = false) (he : p.aEspera = false)
    (hr : p ≠ .cRetira) : Atendido (os ++ [.nada]) (s.ir .produtor p) :=
  h.ir (t := .produtor) (p := p) (h.disciplina.ir (by rw [ht]; exact hp) (by rw [ht]; exact hd)
    (by rw [ht]; exact he) rfl rfl rfl) rfl rfl rfl (fun u hu => .inl hu)
    (fun _ => h.espaco .produtor (by rw [ht]; rfl)) (fun hq => absurd hq hr) (by rw [ht]; nofun)
    (by rw [ht]; nofun)

theorem passo (h : Atendido os s) {a : Acontecimento κ ρ} {m : Movimento ρ}
    (hs : s.passo a = some (s', m)) : Atendido (os ++ [m]) s' := by
  cases a with
  | continua t => exact h.continuar hs
  | recebe req =>
      simp only [Servidor.passo] at hs
      split at hs
      · rename_i ht
        obtain ⟨rfl, rfl⟩ := Prod.mk.inj (Option.some.inj hs)
        exact h.recebe ht rfl rfl rfl nofun
      · cases hs
  | vazia =>
      simp only [Servidor.passo] at hs
      split at hs
      · rename_i ht
        obtain ⟨rfl, rfl⟩ := Prod.mk.inj (Option.some.inj hs)
        exact h.recebe ht rfl rfl rfl nofun
      · cases hs
  | espuria t =>
      simp only [Servidor.passo] at hs
      split at hs
      · rename_i ht
        obtain ⟨rfl, rfl⟩ := Prod.mk.inj (Option.some.inj hs)
        exact h.acordou (h.disciplina.acordar ht) (h.disciplina.acordou ht)
      · cases hs

end Atendido

namespace Servidor

variable [DecidableEq κ] {s : Servidor κ ρ}

omit [DecidableEq κ] in
theorem inicial_atendido : Atendido [] (inicial : Servidor κ ρ) := by
  refine ⟨⟨fun t => ?_, fun t => ?_, fun t => ?_, List.nodup_nil⟩, fun t ht => ?_, fun t ht => ?_,
    fun ht => absurd ht List.not_mem_nil, fun k hk => absurd hk List.not_mem_nil,
    ⟨[], Circular.Holds.nil (by decide), rfl, rfl⟩, rfl⟩
  · cases t with
    | produtor => exact iff_of_true rfl rfl
    | consumidor k => exact iff_of_false Bool.false_ne_true nofun
  · cases t <;> exact iff_of_false nofun Bool.false_ne_true
  · cases t <;> exact iff_of_false List.not_mem_nil Bool.false_ne_true
  · cases t <;> cases ht
  · cases t <;> cases ht

theorem run_atendido {as : List (Acontecimento κ ρ)} {os : List (Movimento ρ)}
    (hr : Runs.run passo inicial as = some (s, os)) : Atendido os s :=
  have h₀ : Atendido ([] : List (Movimento ρ)) (inicial : Servidor κ ρ) := inicial_atendido
  Runs.run_outputs (P := fun _ _ => True) (J := Atendido)
    (fun _ _ _ _ _ hJ _ hs => hJ.passo hs) h₀ (Runs.permitted_of_forall fun _ _ _ => trivial) hr

/-- The ring holds the requests that have been put and not taken yet, in their slots, and
`get_req` returns them in the order of `put_req`. No put finds one of them in its slot. -/
theorem pedidos_em_ordem (as : List (Acontecimento κ ρ)) (s : Servidor κ ρ)
    (os : List (Movimento ρ)) (hr : Runs.run passo inicial as = some (s, os)) :
    (0 ≤ s.availableReqs ∧ s.availableReqs ≤ ringSize) ∧
      s.availableReqs = (colocados os).length - (retirados os).length ∧
      (∀ i (hi : i < (colocados os).length), (retirados os).length ≤ i →
        s.ring.slot (i % ringSize) = some (colocados os)[i]) ∧
      (∀ t req, s.thread t = .pColoca req → ∀ i < (colocados os).length,
        (retirados os).length ≤ i → i % ringSize ≠ s.ring.tail) ∧
      retirados os <+: (colocados os).map some := by
  have h := run_atendido hr
  obtain ⟨pend, hh, havail, hseq⟩ := h.fila
  have hlen : (colocados os).length = (retirados os).length + pend.length := by
    simpa using congrArg List.length hseq
  have hle := hh.length_le
  rw [List.length_map] at hle
  -- the i-th request put is at a distance from the cursor of the next get
  have hslot : ∀ i, (retirados os).length ≤ i →
      (s.ring.head + (i - (retirados os).length)) % ringSize = i % ringSize := by
    intro i hi
    rw [h.head, Nat.mod_add_mod, Nat.add_sub_cancel' hi]
  refine ⟨⟨by omega, by omega⟩, by omega, fun i hi hge => ?_, fun t req ht i hi hge => ?_, ?_⟩
  · have hpend : i - (retirados os).length < (pend.map some).length := by
      rw [List.length_map]
      omega
    rw [← hslot i hge, hh.slot_eq _ hpend]
    have hi' : i < ((colocados os).map some).length := by
      rw [List.length_map]
      exact hi
    have hget : ((colocados os).map some)[i] = (pend.map some)[i - (retirados os).length] := by
      simp only [hseq]
      exact List.getElem_append_right hge
    rw [← hget, List.getElem_map]
  · have hlt := h.espaco t (by rw [ht]; rfl)
    rw [← hslot i hge]
    refine hh.tail_ne ?_ ?_
    · rw [List.length_map]
      omega
    · rw [List.length_map]
      omega
  · rw [hseq]
    exact List.prefix_append _ _

/-- The producer puts a request, from `pEntra` on. -/
def pedido (req : ℕ) : List (Acontecimento ℕ ℕ) :=
  List.replicate 3 (.continua .produtor) ++ .recebe req :: List.replicate 4 (.continua .produtor)

/-- Two consumers wait. The first request wakes both, and consumer 1 takes it; then the ring gets
full, and the producer waits until consumer 0 has taken one more. -/
def variosPedidos : List (Acontecimento ℕ ℕ) :=
  List.replicate 2 (.continua (.consumidor 0)) ++ List.replicate 2 (.continua (.consumidor 1)) ++
    pedido 1 ++ List.replicate 6 (.continua (.consumidor 1)) ++
    List.replicate 2 (.continua (.consumidor 0)) ++
    (List.range 10).flatMap (fun k => pedido (k + 2)) ++ List.replicate 2 (.continua .produtor) ++
    List.replicate 5 (.continua (.consumidor 0)) ++ pedido 12

theorem pedidos_em_ordem_exemplo :
    ∃ s os, Runs.run passo inicial variosPedidos = some (s, os) ∧
      (colocados os = [1, 2, 3, 4, 5, 6, 7, 8, 9, 10, 11, 12] ∧ retirados os = [some 1, some 2]) ∧
      (0 ≤ s.availableReqs ∧ s.availableReqs ≤ ringSize) ∧
      s.availableReqs = (colocados os).length - (retirados os).length ∧
      (∀ i (hi : i < (colocados os).length), (retirados os).length ≤ i →
        s.ring.slot (i % ringSize) = some (colocados os)[i]) ∧
      (∀ t req, s.thread t = .pColoca req → ∀ i < (colocados os).length,
        (retirados os).length ≤ i → i % ringSize ≠ s.ring.tail) ∧
      retirados os <+: (colocados os).map some := by
  have heval : (Runs.run passo inicial variosPedidos).map (fun r =>
      (colocados r.2, retirados r.2)) =
      some ([1, 2, 3, 4, 5, 6, 7, 8, 9, 10, 11, 12], [some 1, some 2]) := by
    decide +kernel
  obtain ⟨⟨s, os⟩, hr, hos⟩ := Option.map_eq_some_iff.mp heval
  exact ⟨s, os, hr, Prod.mk.inj hos, pedidos_em_ordem _ s os hr⟩

/-- While the monitor is free, the producer waits for a full ring only and a consumer for an empty
one. A consumer that signals finds no other consumer in front of the producer. -/
theorem ninguem_espera_em_vao (as : List (Acontecimento κ ρ)) (s : Servidor κ ρ)
    (os : List (Movimento ρ)) (hr : Runs.run passo inicial as = some (s, os)) :
    (s.dono = none → (.produtor ∈ s.espera → s.availableReqs = ringSize) ∧
      ∀ k, .consumidor k ∈ s.espera → s.availableReqs = 0) ∧
      (.produtor ∈ s.espera → ∀ t req, s.thread t = .cAssinala req →
        s.espera.head? = some .produtor) := by
  have h := run_atendido hr
  refine ⟨fun hdono => ⟨fun hp => ?_, fun k hk => ?_⟩, fun hp t req ht => ?_⟩
  · refine (h.produtorEspera hp).resolve_right fun ⟨_, t, req, ht⟩ => ?_
    have hdentro := (h.disciplina.dentro t).mpr (by rw [ht]; rfl)
    rw [hdono] at hdentro
    cases hdentro
  · refine (h.consumidorEspera k hk).resolve_right fun hq => ?_
    have hdentro := (h.disciplina.dentro .produtor).mpr (by rw [hq]; rfl)
    rw [hdono] at hdentro
    cases hdentro
  · cases hq : s.espera with
    | nil =>
        rw [hq] at hp
        exact absurd hp List.not_mem_nil
    | cons u fila =>
        have hnot := h.assinala
        have hsignal : s.monitorSignal.espera = fila := by
          rw [monitorSignal, hq]
          show s.espera.erase u = fila
          rw [hq, List.erase_cons_head]
        rw [hsignal] at hnot
        rw [hq] at hp
        rw [(List.mem_cons.mp hp).resolve_right hnot]
        rfl

/-- Both consumers wait for the first request. -/
theorem ninguem_espera_em_vao_exemplo :
    ∃ s os, Runs.run passo (inicial : Servidor ℕ ℕ) (variosPedidos.take 4) = some (s, os) ∧
      s.espera = [.consumidor 0, .consumidor 1] ∧ s.availableReqs = 0 := by
  have hr : Runs.run passo (inicial : Servidor ℕ ℕ) (variosPedidos.take 4) = some (_, _) := rfl
  have h := ninguem_espera_em_vao _ _ _ hr
  exact ⟨_, _, hr, rfl, (h.1 rfl).2 0 (by decide)⟩

end Servidor

end ThreadScheduler.SnfsServer
