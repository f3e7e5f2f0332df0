import ThreadScheduler.SthreadLib.RedBlackElements
import ThreadScheduler.SthreadLib.Scheduler

/-!
# The places of the threads

`fora` lists the threads in the trees, the lists and the queues. Between two calls the active
thread is in none of them and every other thread in one. A call that blocks first puts the active
thread into one of them, and then takes the next thread out of the executable tree. What else is
known of that tree is a parameter.
-/
namespace ThreadScheduler.SthreadLib

open ArvoreRB Escalonador

/-- The threads in the first `n` queues. -/
def emFilas (n : ℕ) (f : ℕ → List ℕ) : List ℕ := (List.range n).flatMap f

theorem emFilas_succ (n : ℕ) (f : ℕ → List ℕ) : emFilas (n + 1) f = emFilas n f ++ f n := by
  simp [emFilas, List.range_succ]

theorem mem_emFilas {n : ℕ} {f : ℕ → List ℕ} {t : ℕ} :
    t ∈ emFilas n f ↔ ∃ m < n, t ∈ f m := by
  simp [emFilas]

theorem emFilas_congr {n : ℕ} {f g : ℕ → List ℕ} (h : ∀ m < n, g m = f m) :
    emFilas n g = emFilas n f := by
  induction n with
  | zero => rfl
  | succ n ih =>
      rw [emFilas_succ, emFilas_succ, ih fun m hm => h m (Nat.lt_succ_of_lt hm),
        h n (Nat.lt_succ_self n)]

/-- One queue changes. -/
theorem count_emFilas_update {n m : ℕ} {f g : ℕ → List ℕ} (hm : m < n)
    (h : ∀ k, k ≠ m → g k = f k) (t : ℕ) :
    (emFilas n g).count t + (f m).count t = (emFilas n f).count t + (g m).count t := by
  induction n with
  | zero => exact absurd hm (Nat.not_lt_zero m)
  | succ n ih =>
      rw [emFilas_succ, emFilas_succ, List.count_append, List.count_append]
      by_cases hn : m = n
      · subst hn
        rw [emFilas_congr fun k hk => h k (Nat.ne_of_lt hk)]
        omega
      · have := ih (by omega)
        rw [h n fun he => hn he.symm]
        omega

/-- The threads that are somewhere else than in `active_thr`. -/
def fora (s : Escalonador) : List ℕ :=
  elementos s.exeThr ++ elementos s.sleepThr ++ s.joinThr ++ s.zombieThr ++ s.deadThr ++
    emFilas s.mutexIdGen (fun m => (s.mutex m).queue) ++
    emFilas s.monitorIdGen (fun mon => (s.monitor mon).queue)

/-- All places: `active_thr`, the trees, the lists and the queues. -/
def lugares (s : Escalonador) : List ℕ := s.activeThr :: fora s

theorem count_fora (s : Escalonador) (t : ℕ) : (fora s).count t =
    (elementos s.exeThr).count t + (elementos s.sleepThr).count t + s.joinThr.count t +
      s.zombieThr.count t + s.deadThr.count t +
      (emFilas s.mutexIdGen fun m => (s.mutex m).queue).count t +
      (emFilas s.monitorIdGen fun mon => (s.monitor mon).queue).count t := by
  simp only [fora, List.count_append]

/-- Not in the `mutex_unlock` of a `monitor_wait`. -/
def Ponto.calmo : Ponto → Prop
  | .girando _ => False
  | .emWaitUnlock _ => False
  | .noDespacho antes => antes.calmo
  | _ => True

/-- The numbers that a charge is made of are not negative. -/
def Sthread.Positiva (th : Sthread) : Prop :=
  0 ≤ th.nice ∧ 0 ≤ th.priority ∧ 0 ≤ th.timesRunned

/-- A change of a thread that leaves its `vruntime`. -/
def SoContas (th th' : Sthread) : Prop :=
  th'.vruntime = th.vruntime ∧ (th.Positiva → th'.Positiva)

/-- `vruntime` is charged with the ticks run. -/
def Sthread.cobrada (th : Sthread) : Sthread :=
  { th with
    vruntime := th.vruntime + (th.nice + th.priority) * th.timesRunned
    timesRunned := 0 }

/-- What is kept of the executable tree and the threads, by calls that create a thread only where
`podeCriar`. -/
structure Guarda (J : ArvoreRB ℕ → (ℕ → Sthread) → Prop) (podeCriar : ArvoreRB ℕ → Prop) :
    Prop where
  contas : ∀ {a th th'}, J a th → (∀ t, SoContas (th t) (th' t)) → J a th'
  cobrar : ∀ {a th t}, J a th → t ∉ elementos a → J a (Function.update th t (th t).cobrada)
  inserir : ∀ {a th t}, J a th → J (rbInserirNo a (th t).vruntime t t) th
  extrair : ∀ {a a' th t}, J a th → rbExtraiMininimo a = (a', some t) → J a' th
  criar : ∀ {a th t p}, J a th → t ∉ elementos a → podeCriar a → 0 ≤ p →
    J a (Function.update th t { novaSthread with vruntime := rbMenorChave a, priority := p })

/-- Every thread is once in `l` or in the trees, the lists and the queues. -/
structure Arrumado (J : ArvoreRB ℕ → (ℕ → Sthread) → Prop) (s : Escalonador) (l : List ℕ) :
    Prop where
  exe : SacoRB s.exeThr
  sleep : SacoRB s.sleepThr
  guarda : J s.exeThr s.thread
  conta : ∀ t, l.count t + (fora s).count t = if 0 < t ∧ t < s.tidGen then 1 else 0
  monitores : ∀ mon < s.monitorIdGen, (s.monitor mon).mutex < s.mutexIdGen
  calmo : ∀ t, (s.ponto t).calmo

variable {J : ArvoreRB ℕ → (ℕ → Sthread) → Prop} {podeCriar : ArvoreRB ℕ → Prop}

namespace Arrumado

variable {s s' : Escalonador} {l l' : List ℕ} {t : ℕ}

theorem count_le (h : Arrumado J s l) (t : ℕ) : l.count t + (fora s).count t ≤ 1 := by
  rw [h.conta]
  split
  · exact Nat.le_refl 1
  · exact Nat.zero_le 1

theorem notMem_exe (h : Arrumado J s (t :: l)) : t ∉ elementos s.exeThr := by
  intro hm
  have hpos := List.count_pos_iff.mpr hm
  have hle := h.count_le t
  rw [count_fora, List.count_cons_self] at hle
  omega

/-- Threads go from `l` to their places and back. -/
theorem mover (h : Arrumado J s l) (hexe : s'.exeThr = s.exeThr) (hsleep : SacoRB s'.sleepThr)
    (hthread : s'.thread = s.thread) (htid : s'.tidGen = s.tidGen)
    (hmon : ∀ mon < s'.monitorIdGen, (s'.monitor mon).mutex < s'.mutexIdGen)
    (hponto : ∀ t, (s'.ponto t).calmo)
    (hconta : ∀ t, l'.count t + (fora s').count t = l.count t + (fora s).count t) :
    Arrumado J s' l' := by
  refine ⟨?_, hsleep, ?_, fun u => ?_, hmon, hponto⟩
  · rw [hexe]
    exact h.exe
  · rw [hexe, hthread]
    exact h.guarda
  · rw [hconta, htid]
    exact h.conta u

theorem parar (h : Arrumado J s l) (t : ℕ) (p : Ponto) (hp : p.calmo) :
    Arrumado J (s.parar t p) l := by
  refine h.mover rfl h.sleep rfl rfl h.monitores (fun u => ?_) fun u => rfl
  simp only [Escalonador.parar, Function.update_apply]
  split
  · exact hp
  · exact h.calmo u

theorem relogio (h : Arrumado J s l) : Arrumado J { s with clock := s.clock + 1 } l :=
  h.mover rfl h.sleep rfl rfl h.monitores h.calmo fun _ => rfl

theorem juntar (h : Arrumado J s (t :: l)) :
    Arrumado J { s with joinThr := s.joinThr ++ [t] } l := by
  refine h.mover rfl h.sleep rfl rfl h.monitores h.calmo fun u => ?_
  simp only [count_fora, List.count_append, List.count_cons, List.count_nil]
  omega

theorem zombie (h : Arrumado J s (t :: l)) :
    Arrumado J { s with zombieThr := s.zombieThr ++ [t] } l := by
  refine h.mover rfl h.sleep rfl rfl h.monitores h.calmo fun u => ?_
  simp only [count_fora, List.count_append, List.count_cons, List.count_nil]
  omega

theorem morrer (h : Arrumado J s (t :: l)) :
    Arrumado J { s with deadThr := s.deadThr ++ [t] } l := by
  refine h.mover rfl h.sleep rfl rfl h.monitores h.calmo fun u => ?_
  simp only [count_fora, List.count_append, List.count_cons, List.count_nil]
  omega

theorem adormecer (h : Arrumado J s (t :: l)) (k tid : ℤ) :
    Arrumado J { s with sleepThr := rbInserirNo s.sleepThr k tid t } l := by
  obtain ⟨hsleep, hperm⟩ := h.sleep.inserir k tid t
  refine h.mover rfl hsleep rfl rfl h.monitores h.calmo fun u => ?_
  have hc := hperm.count_eq u
  simp only [count_fora, List.count_cons] at hc ⊢
  omega

theorem acordar (h : Arrumado J s l) {z : ℕ} (hz : s.sleepThr.elem z = some t) :
    Arrumado J { s with sleepThr := rbRemoverNo (s.sleepThr.setElem z none) z } (t :: l) := by
  obtain ⟨hsleep, hperm⟩ := h.sleep.remover hz
  refine h.mover rfl hsleep rfl rfl h.monitores h.calmo fun u => ?_
  have hc := hperm.count_eq u
  simp only [count_fora, List.count_cons] at hc ⊢
  omega

/-- A mutex gets another queue. -/
theorem mudarMutex {m : ℕ} (h : Arrumado J s l) (hm : m < s.mutexIdGen)
    (f : SthreadMutex → SthreadMutex)
    (hq : ∀ u, l'.count u + (f (s.mutex m)).queue.count u =
      l.count u + (s.mutex m).queue.count u) :
    Arrumado J (s.mudarMutex m f) l' := by
  refine h.mover rfl h.sleep rfl rfl h.monitores h.calmo fun u => ?_
  have hqu := hq u
  have hup := count_emFilas_update (f := fun k => (s.mutex k).queue)
    (g := fun k => ((s.mudarMutex m f).mutex k).queue) hm
    (fun k hk => by simp [Escalonador.mudarMutex, Function.update_of_ne hk]) u
  simp only [Escalonador.mudarMutex, Function.update_self, count_fora] at hup ⊢
  omega

/-- A mutex keeps its queue. -/
theorem mudarTrinco (h : Arrumado J s l) (m : ℕ) (f : SthreadMutex → SthreadMutex)
    (hf : (f (s.mutex m)).queue = (s.mutex m).queue) : Arrumado J (s.mudarMutex m f) l := by
  have hfila : (fun k => ((s.mudarMutex m f).mutex k).queue) = fun k => (s.mutex k).queue := by
    funext k
    simp only [Escalonador.mudarMutex, Function.update_apply]
    split
    · rename_i he
      rw [hf, he]
    · rfl
  refine h.mover rfl h.sleep rfl rfl h.monitores h.calmo fun u => ?_
  rw [count_fora, count_fora, hfila]
  rfl

/-- A monitor gets another queue. -/
theorem mudarMonitor {mon : ℕ} (h : Arrumado J s l) (hmon : mon < s.monitorIdGen)
    (f : SthreadMon → SthreadMon) (hf : (f (s.monitor mon)).mutex = (s.monitor mon).mutex)
    (hq : ∀ u, l'.count u + (f (s.monitor mon)).queue.count u =
      l.count u + (s.monitor mon).queue.count u) :
    Arrumado J (s.mudarMonitor mon f) l' := by
  refine h.mover rfl h.sleep rfl rfl (fun k hk => ?_) h.calmo fun u => ?_
  · have hold := h.monitores k hk
    simp only [Escalonador.mudarMonitor, Function.update_apply]
    split
    · rename_i he
      rw [hf, ← he]
      exact hold
    · exact hold
  · have hqu := hq u
    have hup := count_emFilas_update (f := fun k => (s.monitor k).queue)
      (g := fun k => ((s.mudarMonitor mon f).monitor k).queue) hmon
      (fun k hk => by simp [Escalonador.mudarMonitor, Function.update_of_ne hk]) u
    simp only [Escalonador.mudarMonitor, Function.update_self, count_fora] at hup ⊢
    omega

/-- What threads are in the places does not depend on their fields. -/
theorem contas (hJ : Guarda J podeCriar) (h : Arrumado J s l) {th : ℕ → Sthread}
    (hth : ∀ t, SoContas (s.thread t) (th t)) : Arrumado J { s with thread := th } l :=
  ⟨h.exe, h.sleep, hJ.contas h.guarda hth, h.conta, h.monitores, h.calmo⟩

theorem mudar (hJ : Guarda J podeCriar) (h : Arrumado J s l) {f : Sthread → Sthread}
    (hf : SoContas (s.thread t) (f (s.thread t))) : Arrumado J (s.mudar t f) l := by
  refine h.contas hJ fun u => ?_
  rw [Function.update_apply]
  split
  · rename_i he
    rw [he]
    exact hf
  · exact ⟨rfl, id⟩

theorem cobrar (hJ : Guarda J podeCriar) (h : Arrumado J s (t :: l)) :
    Arrumado J (s.mudar t Sthread.cobrada) (t :: l) :=
  ⟨h.exe, h.sleep, hJ.cobrar h.guarda h.notMem_exe, h.conta, h.monitores, h.calmo⟩

theorem rbInserir (hJ : Guarda J podeCriar) (h : Arrumado J s (t :: l)) :
    Arrumado J (s.rbInserir t) l := by
  obtain ⟨hexe, hperm⟩ := h.exe.inserir (s.thread t).vruntime t t
  refine ⟨hexe, h.sleep, hJ.inserir h.guarda, fun u => ?_, h.monitores, h.calmo⟩
  have hc := hperm.count_eq u
  refine Eq.trans ?_ (h.conta u)
  simp only [Escalonador.rbInserir, count_fora, List.count_cons] at hc ⊢
  omega

/-- The next thread is out of the executable tree when it is active. -/
theorem comutar {r : Resposta} (hJ : Guarda J podeCriar) (h : Arrumado J s [])
    (hc : s.comutar = .segue s' r) : Arrumado J s' [s'.activeThr] := by
  rw [Escalonador.comutar] at hc
  split at hc
  · rename_i exe t he
    obtain ⟨rfl, -⟩ := Resultado.segue.inj hc
    obtain ⟨hexe, hperm⟩ := h.exe.extrair he
    refine ⟨hexe, h.sleep, hJ.extrair h.guarda he, fun u => ?_, h.monitores, h.calmo⟩
    have hcount := hperm.count_eq u
    refine Eq.trans ?_ (h.conta u)
    simp only [count_fora, List.count_cons, List.count_nil] at hcount ⊢
    omega
  · exact Resultado.noConfusion hc

end Arrumado

end ThreadScheduler.SthreadLib
