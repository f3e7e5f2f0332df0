import ThreadScheduler.SnfsServer.ReadersWriters

/-!
# The lock, one call at a time

The four functions of the lock as a thread runs them from beginning to end while no other thread
takes a step. A call that would have to wait does not return (`none`). Each is a run of the
statements of the thread.
-/
namespace ThreadScheduler.SnfsServer

open SthreadLib

/-- A call of the lock. -/
inductive Chamada where
  | iniciaLeitura
  | terminaLeitura
  | iniciaEscrita
  | terminaEscrita
  deriving DecidableEq

namespace Sincronizacao

variable (s : Sincronizacao) (t : ℕ)

/-- A call of a monitor that returns; after a switch in `exit`, the spin flag is taken back. -/
def aoMonitor (d : Lado) (res : Monitor × Efeito) : Option Sincronizacao :=
  match res with
  | (m, .volta) => some { s with mon := Function.update s.mon d m }
  | (m, .cede) => some { s with mon := Function.update s.mon d { m with l := false } }
  | _ => none

def iniciaLeitura : Option Sincronizacao :=
  let s := s.mudarWanna .leitor 1
  (s.aoMonitor .leitor ((s.mon .leitor).enter t)).bind fun s =>
    if s.temDeEsperar .leitor then none
    else
      let s := (s.mudarWanna .leitor (-1)).mudarActivos .leitor 1
      if s.wanna .leitor ≠ 0 then s.aoMonitor .leitor ((s.mon .leitor).signalall t)
      else some { s with turno := escrita }

def terminaLeitura (troca : Bool) : Option Sincronizacao :=
  let s := s.mudarActivos .leitor (-1)
  (if s.leitores = 0 then s.aoMonitor .escritor ((s.mon .escritor).signal t) else some s).bind
    fun s => s.aoMonitor .leitor ((s.mon .leitor).exit t troca)

def iniciaEscrita : Option Sincronizacao :=
  let s := s.mudarWanna .escritor 1
  (s.aoMonitor .escritor ((s.mon .escritor).enter t)).bind fun s =>
    if s.temDeEsperar .escritor then none
    else some ((s.mudarWanna .escritor (-1)).mudarActivos .escritor 1)

def terminaEscrita (troca : Bool) : Option Sincronizacao :=
  let s := { s.mudarActivos .escritor (-1) with turno := leitura }
  (if s.wanna .leitor ≠ 0 then s.aoMonitor .leitor ((s.mon .leitor).signalall t)
    else s.aoMonitor .escritor ((s.mon .escritor).signal t)).bind
    fun s => s.aoMonitor .escritor ((s.mon .escritor).exit t troca)

/-- One call; `troca` is as in `Monitor.exit`. -/
def chamar (troca : Bool) : Chamada → Option Sincronizacao
  | .iniciaLeitura => s.iniciaLeitura t
  | .terminaLeitura => s.terminaLeitura t troca
  | .iniciaEscrita => s.iniciaEscrita t
  | .terminaEscrita => s.terminaEscrita t troca

/-- The calls of an operation, one after another. -/
def correr (troca : Bool) : List Chamada → Sincronizacao → Option Sincronizacao
  | [], s => some s
  | c :: cs, s => (s.chamar t troca c).bind (correr troca cs)

end Sincronizacao

/-! ## What a call changes -/

namespace Sincronizacao

variable {s s' : Sincronizacao} {t : ℕ} {d : Lado} {troca : Bool}

/-- Thread `t` has no place in the monitors. -/
def Fora (s : Sincronizacao) (t : ℕ) : Prop := ∀ d, (s.mon d).lugares t = 0

/-- Thread `t` owns the monitor of one side, and has no other place. -/
structure NaSeccao (s : Sincronizacao) (t : ℕ) (d : Lado) : Prop where
  dono : (s.mon d).thr = some t
  lugares : (s.mon d).lugares t = 1
  outro : (s.mon d.outro).lugares t = 0

theorem outro_ne (d : Lado) : d.outro ≠ d := by
  cases d <;> decide

theorem eq_or_eq_outro (d e : Lado) : e = d ∨ e = d.outro := by
  cases d <;> cases e <;> decide

theorem aoMonitor_spec {res : Monitor × Efeito} (h : s.aoMonitor d res = some s') :
    ∃ m, s' = { s with mon := Function.update s.mon d m } ∧ m.thr = res.1.thr ∧
      (∀ u, m.lugares u = res.1.lugares u) ∧ (res.2 = .volta ∨ res.2 = .cede) := by
  obtain ⟨m, e⟩ := res
  cases e with
  | volta => exact ⟨m, (Option.some.inj h).symm, rfl, fun _ => rfl, .inl rfl⟩
  | cede => exact ⟨_, (Option.some.inj h).symm, rfl, fun _ => rfl, .inr rfl⟩
  | gira => cases h
  | bloqueia => cases h

/-- The first half of `iniciaLeitura` and of `iniciaEscrita`, up to the wait loop. -/
theorem aoMonitor_enter (hf : s.Fora t)
    (h : (s.mudarWanna d 1).aoMonitor d ((s.mon d).enter t) = some s') :
    s'.NaSeccao t d ∧ s'.activos = s.activos ∧
      s'.wanna = Function.update s.wanna d (s.wanna d + 1) := by
  obtain ⟨m, rfl, hthr, hlug, he⟩ := aoMonitor_spec h
  have henter : ((s.mon d).enter t).1.thr = some t ∧ ((s.mon d).enter t).1.lugares t = 1 := by
    have hzero := hf d
    revert he
    unfold Monitor.enter
    split
    · simp
    · split
      · rename_i hthr
        intro _
        refine ⟨rfl, ?_⟩
        unfold Monitor.lugares at hzero ⊢
        dsimp only
        rw [if_pos rfl]
        omega
      · simp
  refine ⟨⟨?_, ?_, ?_⟩, rfl, rfl⟩
  · show (Function.update s.mon d m d).thr = some t
    rw [Function.update_self, hthr]
    exact henter.1
  · show (Function.update s.mon d m d).lugares t = 1
    rw [Function.update_self, hlug]
    exact henter.2
  · show (Function.update s.mon d m d.outro).lugares t = 0
    rw [Function.update_of_ne (outro_ne d)]
    exact hf d.outro

/-- A signal moves no thread into a monitor or out of it. -/
theorem aoMonitor_signal {e : Lado} {res : Monitor × Efeito} (hn : s.NaSeccao t d)
    (hthr : res.1.thr = (s.mon e).thr) (hlug : ∀ u, res.1.lugares u = (s.mon e).lugares u)
    (h : s.aoMonitor e res = some s') :
    s'.NaSeccao t d ∧ s'.activos = s.activos ∧ s'.wanna = s.wanna := by
  obtain ⟨m, rfl, hm, hml, -⟩ := aoMonitor_spec h
  have hall : ∀ c, (Function.update s.mon e m c).thr = (s.mon c).thr ∧
      ∀ u, (Function.update s.mon e m c).lugares u = (s.mon c).lugares u := by
    intro c
    by_cases hc : c = e
    · subst hc
      rw [Function.update_self]
      exact ⟨hm.trans hthr, fun u => (hml u).trans (hlug u)⟩
    · rw [Function.update_of_ne hc]
      exact ⟨rfl, fun _ => rfl⟩
  exact ⟨⟨(hall d).1.trans hn.dono, ((hall d).2 t).trans hn.lugares,
    ((hall d.outro).2 t).trans hn.outro⟩, rfl, rfl⟩

/-- The end of `terminaLeitura` and of `terminaEscrita`. -/
theorem aoMonitor_exit (hn : s.NaSeccao t d)
    (h : s.aoMonitor d ((s.mon d).exit t troca) = some s') :
    s'.Fora t ∧ s'.activos = s.activos ∧ s'.wanna = s.wanna := by
  obtain ⟨m, rfl, -, hlug, he⟩ := aoMonitor_spec h
  have hgira : ((s.mon d).exit t troca).2 ≠ .gira := by
    intro hg
    rw [hg] at he
    simp at he
  have hexit := Monitor.exit_lugares hn.dono hgira t
  rw [if_pos rfl, hn.lugares] at hexit
  refine ⟨fun e => ?_, rfl, rfl⟩
  obtain rfl | rfl := eq_or_eq_outro d e
  · show (Function.update s.mon e m e).lugares t = 0
    rw [Function.update_self, hlug]
    omega
  · show (Function.update s.mon d m d.outro).lugares t = 0
    rw [Function.update_of_ne (outro_ne d)]
    exact hn.outro

/-- Wanting and wanting no more. -/
theorem update_add_neg (f : Lado → ℤ) (d : Lado) :
    Function.update (Function.update f d (f d + 1)) d
      (Function.update f d (f d + 1) d + -1) = f := by
  rw [Function.update_idem, Function.update_self, add_neg_cancel_right, Function.update_eq_self]

theorem iniciaLeitura_spec (hf : s.Fora t) (h : s.iniciaLeitura t = some s') :
    s'.NaSeccao t .leitor ∧
      s'.activos = Function.update s.activos .leitor (s.activos .leitor + 1) ∧
      s'.wanna = s.wanna := by
  obtain ⟨s₁, h₁, h⟩ := Option.bind_eq_some_iff.mp h
  obtain ⟨hn, ha, hw⟩ := aoMonitor_enter hf h₁
  split at h
  · cases h
  have hn' : ((s₁.mudarWanna .leitor (-1)).mudarActivos .leitor 1).NaSeccao t .leitor :=
    ⟨hn.dono, hn.lugares, hn.outro⟩
  have ha' : (s₁.mudarWanna .leitor (-1)).activos = s.activos := ha
  have hw' : (s₁.mudarWanna .leitor (-1)).wanna = s.wanna := by
    show Function.update s₁.wanna _ _ = _
    rw [hw]
    exact update_add_neg _ _
  dsimp only at h
  split at h
  · obtain ⟨hn₂, ha₂, hw₂⟩ := aoMonitor_signal hn' Monitor.signalall_thr
      Monitor.signalall_lugares h
    refine ⟨hn₂, ha₂.trans ?_, hw₂.trans hw'⟩
    rw [← ha']
    rfl
  · obtain rfl := Option.some.inj h
    refine ⟨⟨hn.dono, hn.lugares, hn.outro⟩, ?_, hw'⟩
    rw [← ha']
    rfl

theorem terminaLeitura_spec (hn : s.NaSeccao t .leitor) (h : s.terminaLeitura t troca = some s') :
    s'.Fora t ∧ s'.activos = Function.update s.activos .leitor (s.activos .leitor - 1) ∧
      s'.wanna = s.wanna := by
  obtain ⟨s₁, h₁, h⟩ := Option.bind_eq_some_iff.mp h
  have hn' : (s.mudarActivos .leitor (-1)).NaSeccao t .leitor := ⟨hn.dono, hn.lugares, hn.outro⟩
  have hs₁ : s₁.NaSeccao t .leitor ∧ s₁.activos = (s.mudarActivos .leitor (-1)).activos ∧
      s₁.wanna = s.wanna := by
    split at h₁
    · exact aoMonitor_signal hn' Monitor.signal_thr Monitor.signal_lugares h₁
    · obtain rfl := Option.some.inj h₁
      exact ⟨hn', rfl, rfl⟩
  obtain ⟨hf, ha, hw⟩ := aoMonitor_exit hs₁.1 h
  exact ⟨hf, ha.trans hs₁.2.1, hw.trans hs₁.2.2⟩

theorem iniciaEscrita_spec (hf : s.Fora t) (h : s.iniciaEscrita t = some s') :
    s'.NaSeccao t .escritor ∧
      s'.activos = Function.update s.activos .escritor (s.activos .escritor + 1) ∧
      s'.wanna = s.wanna := by
  obtain ⟨s₁, h₁, h⟩ := Option.bind_eq_some_iff.mp h
  obtain ⟨hn, ha, hw⟩ := aoMonitor_enter hf h₁
  split at h
  · cases h
  obtain rfl := Option.some.inj h
  refine ⟨⟨hn.dono, hn.lugares, hn.outro⟩, ?_, ?_⟩
  · rw [← ha]
    rfl
  · show Function.update s₁.wanna _ _ = _
    rw [hw]
    exact update_add_neg _ _

theorem terminaEscrita_spec (hn : s.NaSeccao t .escritor)
    (h : s.terminaEscrita t troca = some s') :
    s'.Fora t ∧ s'.activos = Function.update s.activos .escritor (s.activos .escritor - 1) ∧
      s'.wanna = s.wanna := by
  obtain ⟨s₁, h₁, h⟩ := Option.bind_eq_some_iff.mp h
  have hn' : ({ s.mudarActivos .escritor (-1) with turno := leitura } : Sincronizacao).NaSeccao t
      .escritor := ⟨hn.dono, hn.lugares, hn.outro⟩
  have hs₁ : s₁.NaSeccao t .escritor ∧ s₁.activos = (s.mudarActivos .escritor (-1)).activos ∧
      s₁.wanna = s.wanna := by
    split at h₁
    · exact aoMonitor_signal (s := { s.mudarActivos .escritor (-1) with turno := leitura }) hn'
        Monitor.signalall_thr Monitor.signalall_lugares h₁
    · exact aoMonitor_signal (s := { s.mudarActivos .escritor (-1) with turno := leitura }) hn'
        Monitor.signal_thr Monitor.signal_lugares h₁
  obtain ⟨hf, ha, hw⟩ := aoMonitor_exit hs₁.1 h
  exact ⟨hf, ha.trans hs₁.2.1, hw.trans hs₁.2.2⟩

/-- A call of `terminaEscrita` counts one writer less, also where there is none. -/
theorem terminaEscrita_escritores (h : s.terminaEscrita t troca = some s') :
    s'.escritores = s.escritores - 1 := by
  obtain ⟨s₁, h₁, h⟩ := Option.bind_eq_some_iff.mp h
  have ha₁ : s₁.activos = (s.mudarActivos .escritor (-1)).activos := by
    split at h₁
    · obtain ⟨m, rfl, -⟩ := aoMonitor_spec h₁
      rfl
    · obtain ⟨m, rfl, -⟩ := aoMonitor_spec h₁
      rfl
  obtain ⟨m, rfl, -⟩ := aoMonitor_spec h
  show s₁.activos .escritor = _
  rw [ha₁]
  show Function.update s.activos .escritor (s.activos .escritor + -1) .escritor = _
  rw [Function.update_self]
  rfl

/-! ## Calls in pairs -/

/-- Every call that takes the lock is followed by the one that gives it back. -/
inductive Emparelhadas : List Chamada → Prop where
  | nil : Emparelhadas []
  | leitura {l : List Chamada} (h : Emparelhadas l) :
      Emparelhadas (.iniciaLeitura :: .terminaLeitura :: l)
  | escrita {l : List Chamada} (h : Emparelhadas l) :
      Emparelhadas (.iniciaEscrita :: .terminaEscrita :: l)

theorem Emparelhadas.append {l l' : List Chamada} (h : Emparelhadas l) (h' : Emparelhadas l') :
    Emparelhadas (l ++ l') := by
  induction h with
  | nil => exact h'
  | leitura _ ih => exact .leitura ih
  | escrita _ ih => exact .escrita ih

theorem correr_append {l l' : List Chamada} (h : correr t troca (l ++ l') s = some s') :
    ∃ s₁, correr t troca l s = some s₁ ∧ correr t troca l' s₁ = some s' := by
  induction l generalizing s with
  | nil => exact ⟨s, rfl, h⟩
  | cons c l ih =>
      obtain ⟨s₁, h₁, h⟩ := Option.bind_eq_some_iff.mp h
      obtain ⟨s₂, h₂, h⟩ := ih h
      exact ⟨s₂, by simp [correr, h₁, h₂], h⟩

theorem correr_cons {c : Chamada} {l : List Chamada} (h : correr t troca (c :: l) s = some s') :
    ∃ s₁, s.chamar t troca c = some s₁ ∧ correr t troca l s₁ = some s' :=
  Option.bind_eq_some_iff.mp h

theorem update_add_sub (f : Lado → ℤ) (d : Lado) :
    Function.update (Function.update f d (f d + 1)) d
      (Function.update f d (f d + 1) d - 1) = f :=
  update_add_neg f d

/-- Calls in pairs leave the counters as they were and the thread outside. -/
theorem Emparelhadas.correr {l : List Chamada} (hl : Emparelhadas l) (hf : s.Fora t)
    (h : correr t troca l s = some s') :
    s'.Fora t ∧ s'.activos = s.activos ∧ s'.wanna = s.wanna := by
  induction hl generalizing s with
  | nil =>
      obtain rfl := Option.some.inj h
      exact ⟨hf, rfl, rfl⟩
  | leitura hl ih =>
      obtain ⟨s₁, h₁, h⟩ := correr_cons h
      obtain ⟨s₂, h₂, h⟩ := correr_cons h
      obtain ⟨hn, ha₁, hw₁⟩ := iniciaLeitura_spec hf h₁
      obtain ⟨hf₂, ha₂, hw₂⟩ := terminaLeitura_spec hn h₂
      obtain ⟨hf', ha, hw⟩ := ih hf₂ h
      refine ⟨hf', ?_, hw.trans (hw₂.trans hw₁)⟩
      rw [ha, ha₂, ha₁]
      exact update_add_sub _ _
  | escrita hl ih =>
      obtain ⟨s₁, h₁, h⟩ := correr_cons h
      obtain ⟨s₂, h₂, h⟩ := correr_cons h
      obtain ⟨hn, ha₁, hw₁⟩ := iniciaEscrita_spec hf h₁
      obtain ⟨hf₂, ha₂, hw₂⟩ := terminaEscrita_spec hn h₂
      obtain ⟨hf', ha, hw⟩ := ih hf₂ h
      refine ⟨hf', ?_, hw.trans (hw₂.trans hw₁)⟩
      rw [ha, ha₂, ha₁]
      exact update_add_sub _ _

/-- A lock that nobody holds or waits for. -/
def livre (turno : ℤ) (thread : ℕ → Posicao) : Sincronizacao where
  mon _ := ⟨false, none, [], []⟩
  activos _ := 0
  wanna _ := 0
  turno := turno
  thread := thread

/-- Thread `t` holds one side of a lock that is free otherwise. -/
def tomado (t : ℕ) (d : Lado) (turno : ℤ) (thread : ℕ → Posicao) : Sincronizacao where
  mon := Function.update (fun _ => ⟨false, none, [], []⟩) d ⟨false, some t, [], []⟩
  activos := Function.update (fun _ => 0) d 1
  wanna _ := 0
  turno := turno
  thread := thread

theorem livre_fora (turno : ℤ) (thread : ℕ → Posicao) (t : ℕ) : (livre turno thread).Fora t :=
  fun _ => rfl

section Livre

variable (turno : ℤ) (thread : ℕ → Posicao)

theorem livre_iniciaLeitura :
    (livre turno thread).iniciaLeitura t = some (tomado t .leitor escrita thread) := by
  simp [iniciaLeitura, aoMonitor, temDeEsperar, mudarWanna, mudarActivos, Monitor.enter,
    escritores, tomado, livre]

theorem livre_iniciaEscrita :
    (livre turno thread).iniciaEscrita t = some (tomado t .escritor turno thread) := by
  simp [iniciaEscrita, aoMonitor, temDeEsperar, mudarWanna, mudarActivos, Monitor.enter,
    escritores, leitores, tomado, livre]

theorem tomado_terminaLeitura :
    (tomado t .leitor turno thread).terminaLeitura t troca = some (livre turno thread) := by
  simp [terminaLeitura, aoMonitor, mudarActivos, Monitor.signal, Monitor.exit, leitores, tomado,
    livre]
  funext d
  cases d <;> rfl

theorem tomado_terminaEscrita :
    (tomado t .escritor turno thread).terminaEscrita t troca = some (livre leitura thread) := by
  simp [terminaEscrita, aoMonitor, mudarActivos, Monitor.signal, Monitor.exit, tomado, livre]

end Livre

/-- Calls in pairs on a free lock all return, and it is free again. -/
theorem Emparelhadas.correr_livre {l : List Chamada} (hl : Emparelhadas l) (t : ℕ) (troca : Bool)
    (turno : ℤ) (thread : ℕ → Posicao) :
    ∃ turno', Sincronizacao.correr t troca l (livre turno thread) =
      some (livre turno' thread) := by
  induction hl generalizing turno with
  | nil => exact ⟨turno, rfl⟩
  | leitura hl ih =>
      obtain ⟨turno', h⟩ := ih SnfsServer.escrita
      refine ⟨turno', ?_⟩
      rw [← h]
      simp only [Sincronizacao.correr, chamar, livre_iniciaLeitura, tomado_terminaLeitura,
        Option.bind_some]
  | escrita hl ih =>
      obtain ⟨turno', h⟩ := ih SnfsServer.leitura
      refine ⟨turno', ?_⟩
      rw [← h]
      simp only [Sincronizacao.correr, chamar, livre_iniciaEscrita, tomado_terminaEscrita,
        Option.bind_some]

end Sincronizacao

end ThreadScheduler.SnfsServer
