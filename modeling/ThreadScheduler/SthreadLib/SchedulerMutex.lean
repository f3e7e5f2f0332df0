import ThreadScheduler.SthreadLib.SchedulerRuns

/-!
# Mutexes

What has happened at a mutex is told by the steps of the run: who came, whose lock returned, and
who has not unlocked since. Those who came are those whose lock returned, then the owner that has
not gone on yet, then the queue.
-/
namespace ThreadScheduler.SthreadLib

open ArvoreRB Escalonador

variable {s s' : Escalonador} {r : Resposta} {m : ℕ}

/-- What has happened at a mutex: the threads in the order in which they got past the spin flag
of `mutex_lock`, those whose `mutex_lock` has returned in the order in which it did, and those of
them that have not unlocked since. -/
structure Historia where
  chegadas : List ℕ
  obtidas : List ℕ
  posse : List ℕ
  deriving DecidableEq

namespace Historia

def vazia : Historia := ⟨[], [], []⟩

/-- Thread `t` comes. -/
def chegar (h : Historia) (t : ℕ) : Historia := { h with chegadas := h.chegadas ++ [t] }

/-- The lock of thread `t` returns. -/
def obter (h : Historia) (t : ℕ) : Historia :=
  { h with obtidas := h.obtidas ++ [t], posse := h.posse ++ [t] }

def libertar (h : Historia) (t : ℕ) : Historia := { h with posse := h.posse.erase t }

/-- One step of the run, for mutex `m`. -/
def anotar (m : ℕ) (h : Historia) (x : Escalonador × Chamada × Resposta) : Historia :=
  let t := x.1.activeThr
  if x.2.1 = .mutexLock m then
    if x.2.2 = .gira then h
    else if x.2.2 = .nada then (h.chegar t).obter t
    else h.chegar t
  else if x.2.1 = .mutexUnlock m then
    if x.2.2 = .gira then h else h.libertar t
  else if x.2.1 = .resume ∧ x.1.ponto t = .emLock m then h.obter t
  else h

/-- The owner, if its lock has not returned yet. -/
def pendente (h : Historia) : Option ℕ → List ℕ
  | some t => if t ∈ h.posse then [] else [t]
  | none => []

end Historia

/-- The threads come to a mutex and get it in the same order, and only the owner has it. -/
structure Trinco (m : ℕ) (h : Historia) (s : Escalonador) : Prop where
  arrumado : Arrumado (fun _ _ => True) s [s.activeThr]
  ordem : h.chegadas = h.obtidas ++ h.pendente (s.mutex m).thr ++ (s.mutex m).queue
  posse : h.posse = [] ∨ ∃ t, h.posse = [t] ∧ (s.mutex m).thr = some t
  semDono : (s.mutex m).thr = none → (s.mutex m).queue = []
  espera : ∀ t, s.ponto t = .emLock m ↔
    t ∈ (s.mutex m).queue ∨ (s.mutex m).thr = some t ∧ t ∉ h.posse
  volta : ∀ t antes, s.ponto t = .noDespacho antes → antes = .livre
  nova : ∀ t, s.tidGen ≤ t → s.ponto t = .livre
  futuro : s.mutexIdGen ≤ m → (s.mutex m).thr = none ∧ h = .vazia

/-- A switch changes the executable tree and the active thread. -/
theorem comutar_campos (he : s.comutar = .segue s' r) :
    s' = { s with exeThr := s'.exeThr, activeThr := s'.activeThr } ∧ ∃ no, r = .trocou no := by
  rw [comutar] at he
  split at he
  · obtain ⟨rfl, rfl⟩ := Resultado.segue.inj he
    exact ⟨rfl, _, rfl⟩
  · cases he

namespace Trinco

variable {h : Historia}

/-- Neither the mutex nor the threads that wait for it change. -/
theorem outro (hT : Trinco m h s) (harr : Arrumado (fun _ _ => True) s' [s'.activeThr])
    (hthr : (s'.mutex m).thr = (s.mutex m).thr) (hqueue : (s'.mutex m).queue = (s.mutex m).queue)
    (hgen : s.mutexIdGen ≤ s'.mutexIdGen) (htid : s'.tidGen = s.tidGen)
    (hponto : ∀ t, s'.ponto t = s.ponto t ∨ t < s.tidGen ∧ s.ponto t ≠ .emLock m ∧
      s'.ponto t ≠ .emLock m ∧ ∀ antes, s'.ponto t = .noDespacho antes → antes = .livre) :
    Trinco m h s' := by
  refine ⟨harr, ?_, ?_, ?_, fun t => ?_, fun t antes ht => ?_, fun t ht => ?_, fun hm => ?_⟩
  · rw [hthr, hqueue]
    exact hT.ordem
  · rw [hthr]
    exact hT.posse
  · rw [hthr, hqueue]
    exact hT.semDono
  · rw [hthr, hqueue, ← hT.espera]
    rcases hponto t with he | ⟨-, hne, hne', -⟩
    · rw [he]
    · exact iff_of_false hne' hne
  · rcases hponto t with he | ⟨-, -, -, hv⟩
    · exact hT.volta t antes (he ▸ ht)
    · exact hv antes ht
  · rw [htid] at ht
    rcases hponto t with he | ⟨hlt, -⟩
    · rw [he]
      exact hT.nova t ht
    · omega
  · rw [hthr]
    exact hT.futuro (Nat.le_trans hgen hm)

/-- The active thread goes to another point, and does not wait for the mutex. -/
theorem pontoAtivo (hT : Trinco m h s) (hlock : s.ponto s.activeThr ≠ .emLock m) {p : Ponto}
    (hp : p ≠ .emLock m) (hv : ∀ antes, p = .noDespacho antes → antes = .livre) (t : ℕ) :
    Function.update s.ponto s.activeThr p t = s.ponto t ∨ t < s.tidGen ∧
      s.ponto t ≠ .emLock m ∧ Function.update s.ponto s.activeThr p t ≠ .emLock m ∧
      ∀ antes, Function.update s.ponto s.activeThr p t = .noDespacho antes → antes = .livre := by
  by_cases ht : t = s.activeThr
  · subst ht
    rw [Function.update_self]
    exact .inr ⟨hT.arrumado.criada.2, hlock, hp, hv⟩
  · exact .inl (Function.update_of_ne ht ..)

/-- The queue holds threads that are suspended. -/
theorem ativaFora (hT : Trinco m h s) : s.activeThr ∉ (s.mutex m).queue := by
  intro hm
  by_cases hgen : m < s.mutexIdGen
  · have hle := hT.arrumado.count_le s.activeThr
    have hpos : 0 < (emFilas s.mutexIdGen fun m => (s.mutex m).queue).count s.activeThr :=
      List.count_pos_iff.mpr (mem_emFilas.mpr ⟨m, hgen, hm⟩)
    rw [count_fora, List.count_cons_self] at hle
    omega
  · rw [hT.semDono (hT.futuro (Nat.le_of_not_lt hgen)).1] at hm
    exact List.not_mem_nil hm

/-- A thread in its own code that owns the mutex has it. -/
theorem posse_of_dono (hT : Trinco m h s) (hp : s.ponto s.activeThr ≠ .emLock m)
    (hdono : (s.mutex m).thr = some s.activeThr) : h.posse = [s.activeThr] := by
  have hmem : s.activeThr ∈ h.posse := by
    by_contra hno
    exact hp ((hT.espera _).mpr (.inr ⟨hdono, hno⟩))
  rcases hT.posse with hnil | ⟨t, ht, -⟩
  · rw [hnil] at hmem
    exact absurd hmem List.not_mem_nil
  · rw [ht, List.mem_singleton] at hmem
    rw [ht, hmem]

/-! ## The calls -/

/-- A lock of the mutex. -/
theorem lock (hT : Trinco m h s) (harr : Arrumado (fun _ _ => True) s' [s'.activeThr])
    (hm : m < s.mutexIdGen)
    (he : sthreadUserMutexLock s m = .segue s' r) :
    Trinco m (h.anotar m (s, .mutexLock m, r)) s' := by
  rw [sthreadUserMutexLock] at he
  split at he
  · obtain ⟨rfl, rfl⟩ := Resultado.segue.inj he
    simpa [Historia.anotar] using hT
  · split at he
    · rename_i hthr
      obtain ⟨rfl, rfl⟩ := Resultado.segue.inj he
      have hq := hT.semDono hthr
      have hposse : h.posse = [] := by
        refine hT.posse.resolve_right ?_
        rintro ⟨t, -, ht⟩
        rw [hthr] at ht
        cases ht
      have hordem := hT.ordem
      rw [hthr, hq, Historia.pendente, List.append_nil, List.append_nil] at hordem
      have hnota : h.anotar m (s, .mutexLock m, .nada) =
          ⟨h.obtidas ++ [s.activeThr], h.obtidas ++ [s.activeThr], [s.activeThr]⟩ := by
        simp [Historia.anotar, Historia.obter, Historia.chegar, hposse, hordem]
      have hself : ((s.mudarMutex m fun lock => { lock with thr := some s.activeThr }).mutex m) =
          { s.mutex m with thr := some s.activeThr } := Function.update_self ..
      rw [hnota]
      refine ⟨harr, ?_, .inr ⟨s.activeThr, rfl, ?_⟩, fun hn => ?_, fun t => ?_, hT.volta, hT.nova,
        fun hge => ?_⟩
      · rw [hself]
        simp [Historia.pendente, hq]
      · rw [hself]
      · rw [hself] at hn
        cases hn
      · refine (hT.espera t).trans (iff_of_false ?_ ?_)
        · rw [hq, hthr]
          simp
        · rw [hself]
          rintro (hmem | ⟨ht, hno⟩)
          · rw [hq] at hmem
            exact List.not_mem_nil hmem
          · obtain rfl := Option.some.inj ht
            exact hno (List.mem_singleton.mpr rfl)
      · have hge : s.mutexIdGen ≤ m := hge
        omega
    · rename_i u hthr
      obtain ⟨hs', no, rfl⟩ := comutar_campos he
      have hnota : h.anotar m (s, .mutexLock m, .trocou no) = h.chegar s.activeThr := by
        simp [Historia.anotar]
      have hmutex : s'.mutex m =
          { s.mutex m with queue := (s.mutex m).queue ++ [s.activeThr] } := by
        rw [hs']
        exact Function.update_self ..
      have hponto : s'.ponto = Function.update s.ponto s.activeThr (.emLock m) := by rw [hs']; rfl
      have htid : s'.tidGen = s.tidGen := by rw [hs']; rfl
      have hgen : s'.mutexIdGen = s.mutexIdGen := by rw [hs']; rfl
      have hvida := hT.arrumado.criada.2
      rw [hnota]
      refine ⟨harr, ?_, ?_, fun hn => ?_, fun t => ?_, fun t antes ht => ?_, fun t ht => ?_,
        fun hge => ?_⟩
      · rw [hmutex]
        show h.chegadas ++ [s.activeThr] = h.obtidas ++ h.pendente _ ++ (_ ++ [s.activeThr])
        simp only [hT.ordem, List.append_assoc]
      · rw [hmutex]
        exact hT.posse
      · rw [hmutex] at hn
        exact absurd (hthr.symm.trans hn) (Option.some_ne_none u)
      · rw [hponto, hmutex]
        by_cases ht : t = s.activeThr
        · subst ht
          rw [Function.update_self]
          exact iff_of_true rfl (.inl (List.mem_append_right _ (List.mem_singleton.mpr rfl)))
        · rw [Function.update_of_ne ht, hT.espera t]
          refine or_congr ?_ Iff.rfl
          rw [List.mem_append, List.mem_singleton, or_iff_left ht]
      · rw [hponto, Function.update_apply] at ht
        split at ht
        · cases ht
        · exact hT.volta t antes ht
      · rw [htid] at ht
        rw [hponto, Function.update_of_ne (by omega)]
        exact hT.nova t ht
      · rw [hgen] at hge
        omega

/-- An unlock of the mutex. -/
theorem unlock (hT : Trinco m h s) (hp : s.ponto s.activeThr = .livre)
    (harr : Arrumado (fun _ _ => True) s' [s'.activeThr]) (hm : m < s.mutexIdGen)
    (he : sthreadUserMutexUnlock s m (.emUnlock m) = .segue s' r) :
    Trinco m (h.anotar m (s, .mutexUnlock m, r)) s' := by
  have hnl : s.ponto s.activeThr ≠ .emLock m := by
    rw [hp]
    exact Ponto.noConfusion
  -- the owner hands the mutex to the first thread of the queue
  have hentrega : ∀ t fila, (s.mutex m).thr = some s.activeThr → (s.mutex m).queue = t :: fila →
      (s'.mutex m).thr = some t → (s'.mutex m).queue = fila → s'.tidGen = s.tidGen →
      s'.mutexIdGen = s.mutexIdGen →
      (∀ u, s'.ponto u = s.ponto u ∨ u = s.activeThr ∧ s'.ponto u = .emUnlock m) → r ≠ .gira →
      Trinco m (h.anotar m (s, .mutexUnlock m, r)) s' := by
    intro t fila hdono hq hthr' hq' htid hgen hponto hr
    have hposse := hT.posse_of_dono hnl hdono
    have hfora := hT.ativaFora
    rw [hq] at hfora
    have hnota : h.anotar m (s, .mutexUnlock m, r) = ⟨h.chegadas, h.obtidas, []⟩ := by
      simp [Historia.anotar, Historia.libertar, hr, hposse]
    have hordem := hT.ordem
    rw [hdono, hq, Historia.pendente, if_pos (by rw [hposse]; exact List.mem_singleton.mpr rfl),
      List.append_nil] at hordem
    rw [hnota]
    have hespera : ∀ u, s.ponto u = .emLock m ↔ u = t ∨ u ∈ fila := by
      intro u
      rw [hT.espera, hq, List.mem_cons, hposse, hdono]
      refine or_iff_left ?_
      rintro ⟨hu, hno⟩
      exact hno (List.mem_singleton.mpr (Option.some.inj hu).symm)
    refine ⟨harr, ?_, .inl rfl, fun hn => ?_, fun u => ?_, fun u antes hu => ?_, fun u hu => ?_,
      fun hge => ?_⟩
    · rw [hthr', hq']
      simp [Historia.pendente, hordem]
    · rw [hthr'] at hn
      cases hn
    · rw [hthr', hq']
      have hu : s'.ponto u = .emLock m ↔ s.ponto u = .emLock m := by
        rcases hponto u with he | ⟨rfl, he⟩
        · rw [he]
        · rw [he, hp]
          exact iff_of_false Ponto.noConfusion Ponto.noConfusion
      rw [hu, hespera u]
      constructor
      · rintro (rfl | hu)
        · exact .inr ⟨rfl, List.not_mem_nil⟩
        · exact .inl hu
      · rintro (hu | ⟨hu, -⟩)
        · exact .inr hu
        · exact .inl (Option.some.inj hu).symm
    · rcases hponto u with he | ⟨-, he⟩
      · exact hT.volta u antes (he ▸ hu)
      · rw [he] at hu
        cases hu
    · rw [htid] at hu
      have hvida := hT.arrumado.criada.2
      rcases hponto u with he | ⟨rfl, -⟩
      · rw [he]
        exact hT.nova u hu
      · omega
    · rw [hgen] at hge
      omega
  revert he
  refine sthreadUserMutexUnlock_elim (P := fun res => res = .segue s' r → _) s m (.emUnlock m)
    ?_ ?_ ?_ ?_ ?_
  · intro hne he
    obtain ⟨rfl, rfl⟩ := Resultado.segue.inj he
    have hno : s.activeThr ∉ h.posse := by
      intro hmem
      rcases hT.posse with hnil | ⟨t, ht, hthr⟩
      · rw [hnil] at hmem
        exact List.not_mem_nil hmem
      · rw [ht, List.mem_singleton] at hmem
        rw [← hmem] at hthr
        exact hne hthr
    have hnota : h.anotar m (s, .mutexUnlock m, .nada) = h := by
      simp [Historia.anotar, Historia.libertar, List.erase_of_not_mem hno]
    rw [hnota]
    exact hT
  · intro _ _ he
    obtain ⟨rfl, rfl⟩ := Resultado.segue.inj he
    simpa [Historia.anotar] using hT
  · intro hdono _ hq he
    obtain ⟨rfl, rfl⟩ := Resultado.segue.inj he
    have hposse := hT.posse_of_dono hnl hdono
    have hnota : h.anotar m (s, .mutexUnlock m, .nada) = ⟨h.chegadas, h.obtidas, []⟩ := by
      simp [Historia.anotar, Historia.libertar, hposse]
    have hself : ((s.mudarMutex m fun lock => { lock with thr := none }).mutex m) =
        { s.mutex m with thr := none } := Function.update_self ..
    have hordem := hT.ordem
    rw [hdono, hq, Historia.pendente, if_pos (by rw [hposse]; exact List.mem_singleton.mpr rfl)]
      at hordem
    rw [hnota]
    refine ⟨harr, ?_, .inl rfl, fun _ => ?_, fun t => ?_, hT.volta, hT.nova, fun hge => ?_⟩
    · rw [hself]
      simpa [Historia.pendente, hq] using hordem
    · rw [hself]
      exact hq
    · refine (hT.espera t).trans ?_
      rw [hself, hq, hposse, hdono]
      refine iff_of_false ?_ ?_
      · rintro (hmem | ⟨ht, hno⟩)
        · exact List.not_mem_nil hmem
        · exact hno (List.mem_singleton.mpr (Option.some.inj ht).symm)
      · rintro (hmem | ⟨ht, -⟩)
        · exact List.not_mem_nil hmem
        · cases ht
    · have hge : s.mutexIdGen ≤ m := hge
      omega
  · intro t fila hdono _ hq _ he
    obtain ⟨rfl, rfl⟩ := Resultado.segue.inj he
    refine hentrega t fila hdono hq ?_ ?_ rfl rfl (fun u => ?_) Resposta.noConfusion
    · simp [Escalonador.mudarMutex, Escalonador.parar, Escalonador.rbInserir, Escalonador.mudar]
    · simp [Escalonador.mudarMutex, Escalonador.parar, Escalonador.rbInserir, Escalonador.mudar]
    · by_cases hu : u = s.activeThr
      · subst hu
        exact .inr ⟨rfl, Function.update_self ..⟩
      · exact .inl (Function.update_of_ne hu ..)
  · intro t fila hdono _ hq _ he
    obtain ⟨rfl, rfl⟩ := Resultado.segue.inj he
    refine hentrega t fila hdono hq ?_ ?_ rfl rfl (fun u => .inl rfl) Resposta.noConfusion
    · simp [Escalonador.mudarMutex, Escalonador.rbInserir]
    · simp [Escalonador.mudarMutex, Escalonador.rbInserir]

end Trinco

/-- A call that is not about mutex `m`, with its thread at `p` if it is suspended. -/
structure Deixa (m : ℕ) (p : Ponto) (s s' : Escalonador) : Prop where
  mutex : s'.mutex m = s.mutex m
  gen : s'.mutexIdGen = s.mutexIdGen
  tid : s'.tidGen = s.tidGen
  ponto : s'.ponto = s.ponto ∨ s'.ponto = Function.update s.ponto s.activeThr p

theorem Deixa.comutar {p : Ponto} {s₁ : Escalonador} (he : s₁.comutar = .segue s' r)
    (h : Deixa m p s s₁) : Deixa m p s s' := by
  rw [(comutar_campos he).1]
  exact ⟨h.mutex, h.gen, h.tid, h.ponto⟩

theorem sthreadUserMutexLock_deixa {k : ℕ} (hk : m ≠ k)
    (he : sthreadUserMutexLock s k = .segue s' r) : Deixa m (.emLock k) s s' := by
  rw [sthreadUserMutexLock] at he
  split at he
  · obtain ⟨rfl, rfl⟩ := Resultado.segue.inj he
    exact ⟨rfl, rfl, rfl, .inl rfl⟩
  · split at he
    · obtain ⟨rfl, rfl⟩ := Resultado.segue.inj he
      exact ⟨Function.update_of_ne hk .., rfl, rfl, .inl rfl⟩
    · exact Deixa.comutar he ⟨Function.update_of_ne hk .., rfl, rfl, .inr rfl⟩

theorem sthreadUserMutexUnlock_deixa {k : ℕ} (hk : m ≠ k) {p : Ponto}
    (he : sthreadUserMutexUnlock s k p = .segue s' r) : Deixa m p s s' := by
  revert he
  refine sthreadUserMutexUnlock_elim (P := fun res => res = .segue s' r → Deixa m p s s') s k p
    ?_ ?_ ?_ ?_ ?_
  · intro _ he
    obtain ⟨rfl, rfl⟩ := Resultado.segue.inj he
    exact ⟨rfl, rfl, rfl, .inl rfl⟩
  · intro _ _ he
    obtain ⟨rfl, rfl⟩ := Resultado.segue.inj he
    exact ⟨rfl, rfl, rfl, .inl rfl⟩
  · intro _ _ _ he
    obtain ⟨rfl, rfl⟩ := Resultado.segue.inj he
    exact ⟨Function.update_of_ne hk .., rfl, rfl, .inl rfl⟩
  · intro t fila _ _ _ _ he
    obtain ⟨rfl, rfl⟩ := Resultado.segue.inj he
    refine ⟨?_, rfl, rfl, .inr rfl⟩
    exact (Function.update_of_ne hk ..).trans (Function.update_of_ne hk ..)
  · intro t fila _ _ _ _ he
    obtain ⟨rfl, rfl⟩ := Resultado.segue.inj he
    exact ⟨Function.update_of_ne hk .., rfl, rfl, .inl rfl⟩

theorem sthreadUserYield_deixa {p : Ponto} (he : sthreadUserYield s = .segue s' r) :
    Deixa m p s s' :=
  Deixa.comutar he ⟨rfl, rfl, rfl, .inl rfl⟩

theorem fimDispatcher_campos (s : Escalonador) : (fimDispatcher s).mutex = s.mutex ∧
    (fimDispatcher s).mutexIdGen = s.mutexIdGen ∧ (fimDispatcher s).tidGen = s.tidGen ∧
    (fimDispatcher s).ponto = s.ponto := by
  rw [fimDispatcher]
  simp only
  split <;> exact ⟨rfl, rfl, rfl, rfl⟩

theorem sthreadUserDispatcher_deixa (he : sthreadUserDispatcher s = .segue s' r) :
    Deixa m (.noDespacho (s.ponto s.activeThr)) s s' := by
  obtain ⟨s₁, hs₁, ⟨-, hf⟩ | ⟨s₂, hac, hfim⟩⟩ := sthreadUserDispatcher_cases s
  · rw [hf] at he
    cases he
  · have h₁ : s₁.mutex = s.mutex ∧ s₁.mutexIdGen = s.mutexIdGen ∧ s₁.tidGen = s.tidGen ∧
        s₁.ponto = s.ponto ∧ s₁.activeThr = s.activeThr := by
      rw [hs₁.1]
      exact ⟨rfl, rfl, rfl, rfl, rfl⟩
    obtain ⟨hmutex, hgen, htid, hponto, hact⟩ : s₂.mutex = s.mutex ∧
        s₂.mutexIdGen = s.mutexIdGen ∧ s₂.tidGen = s.tidGen ∧ s₂.ponto = s.ponto ∧
        s₂.activeThr = s.activeThr := by
      refine acordarProcessos_invariant (P := fun x => x.mutex = s.mutex ∧
        x.mutexIdGen = s.mutexIdGen ∧ x.tidGen = s.tidGen ∧ x.ponto = s.ponto ∧
        x.activeThr = s.activeThr) (fun a b z ha hb => ?_) h₁ hac
      obtain ⟨t, -, ⟨-, rfl⟩ | ⟨-, rfl⟩⟩ := acordarNo_cases hb <;> exact ha
    obtain ⟨-, hy⟩ | ⟨-, hy⟩ := hfim
    · rw [hy, hponto, hact] at he
      have hd : Deixa m (.noDespacho (s.ponto s.activeThr)) s
          ((s₂.parar s.activeThr (.noDespacho (s.ponto s.activeThr))).rbInserir s₂.activeThr) :=
        ⟨congrFun hmutex m, hgen, htid, .inr (by
          simp only [Escalonador.rbInserir, Escalonador.parar, hponto])⟩
      exact Deixa.comutar he hd
    · rw [hy] at he
      obtain ⟨rfl, rfl⟩ := Resultado.segue.inj he
      obtain ⟨hm, hg, ht, hp⟩ := fimDispatcher_campos s₂
      exact ⟨congrFun (hm.trans hmutex) m, hg.trans hgen, ht.trans htid, .inl (hp.trans hponto)⟩

/-- The calls of threads that only use mutexes. -/
def SoTrincos : Chamada → Prop
  | .create _ => True
  | .dispatcher => True
  | .yield => True
  | .mutexInit => True
  | .mutexLock _ => True
  | .mutexUnlock _ => True
  | .resume => True
  | _ => False

instance (c : Chamada) : Decidable (SoTrincos c) :=
  match c with
  | .create _ | .dispatcher | .yield | .mutexInit | .mutexLock _ | .mutexUnlock _ | .resume =>
      inferInstanceAs (Decidable True)
  | .exit _ | .join _ | .sleep _ | .nice _ | .monitorInit | .monitorEnter _ | .monitorExit _
  | .monitorWait _ | .monitorSignal _ | .monitorSignalall _ => inferInstanceAs (Decidable False)

theorem Historia.anotar_outra {h : Historia} {c : Chamada} (hlock : c ≠ .mutexLock m)
    (hunlock : c ≠ .mutexUnlock m) (hresume : c = .resume → s.ponto s.activeThr ≠ .emLock m) :
    h.anotar m (s, c, r) = h := by
  rw [Historia.anotar, if_neg hlock, if_neg hunlock, if_neg fun hc => hresume hc.1 hc.2]

namespace Trinco

variable {h : Historia}

theorem deixa (hT : Trinco m h s) (harr : Arrumado (fun _ _ => True) s' [s'.activeThr])
    (hlock : s.ponto s.activeThr ≠ .emLock m) {p : Ponto} (hp : p ≠ .emLock m)
    (hv : ∀ antes, p = .noDespacho antes → antes = .livre) (hd : Deixa m p s s') :
    Trinco m h s' := by
  refine hT.outro harr (congrArg _ hd.mutex) (congrArg _ hd.mutex) (Nat.le_of_eq hd.gen.symm) hd.tid
    fun t => ?_
  rcases hd.ponto with he | he
  · exact .inl (congrFun he t)
  · rw [he]
    exact hT.pontoAtivo hlock hp hv t

theorem create (hT : Trinco m h s) (harr : Arrumado (fun _ _ => True) s' [s'.activeThr]) {p : ℤ}
    (he : sthreadUserCreate s p = .segue s' r) : Trinco m h s' := by
  obtain ⟨rfl, -⟩ := Resultado.segue.inj he
  have hponto : Function.update s.ponto s.tidGen .livre = s.ponto := by
    rw [← hT.nova s.tidGen (Nat.le_refl _)]
    exact Function.update_eq_self s.tidGen s.ponto
  refine ⟨harr, hT.ordem, hT.posse, hT.semDono, fun t => ?_, fun t antes ht => ?_, fun t ht => ?_,
    hT.futuro⟩
  · exact (iff_of_eq (congrArg (· t = .emLock m) hponto)).trans (hT.espera t)
  · exact hT.volta t antes ((congrFun hponto t).symm.trans ht)
  · have ht : s.tidGen + 1 ≤ t := ht
    exact (congrFun hponto t).trans (hT.nova t (by omega))

theorem init (hT : Trinco m h s)
    (harr : Arrumado (fun _ _ => True) (novoMutex s (-1)) [s.activeThr]) :
    Trinco m h (novoMutex s (-1)) := by
  by_cases hm : m = s.mutexIdGen
  · have hself : (novoMutex s (-1)).mutex m = ⟨false, none, [], -1⟩ := by
      rw [hm]
      exact Function.update_self ..
    obtain ⟨hthr, -⟩ := hT.futuro (Nat.le_of_eq hm.symm)
    have hq := hT.semDono hthr
    refine hT.outro harr ?_ ?_ (Nat.le_succ _) rfl fun t => .inl rfl
    · rw [hself, hthr]
    · rw [hself, hq]
  · have hself : (novoMutex s (-1)).mutex m = s.mutex m := Function.update_of_ne hm ..
    refine hT.outro harr ?_ ?_ (Nat.le_succ _) rfl fun t => .inl rfl
    · rw [hself]
    · rw [hself]

/-- The owner goes on after its lock. -/
theorem voltaDoLock (hT : Trinco m h s) (hp : s.ponto s.activeThr = .emLock m)
    (harr : Arrumado (fun _ _ => True) (s.parar s.activeThr .livre) [s.activeThr]) :
    Trinco m (h.obter s.activeThr) (s.parar s.activeThr .livre) := by
  obtain ⟨hthr, hno⟩ := ((hT.espera _).mp hp).resolve_left hT.ativaFora
  have hposse : h.posse = [] := by
    refine hT.posse.resolve_right ?_
    rintro ⟨t, ht, hthr'⟩
    obtain rfl := Option.some.inj (hthr.symm.trans hthr')
    rw [ht] at hno
    exact hno (List.mem_singleton.mpr rfl)
  have hordem := hT.ordem
  rw [hthr, Historia.pendente, if_neg hno] at hordem
  have hponto : ∀ t, t ≠ s.activeThr → (s.parar s.activeThr .livre).ponto t = s.ponto t :=
    fun t ht => Function.update_of_ne ht ..
  have hself : (s.parar s.activeThr .livre).ponto s.activeThr = .livre := Function.update_self ..
  refine ⟨harr, ?_, .inr ⟨s.activeThr, ?_, hthr⟩, hT.semDono, fun t => ?_, fun t antes ht => ?_,
    fun t ht => ?_, fun hge => ?_⟩
  · show h.chegadas = h.obtidas ++ [s.activeThr] ++ (h.obter s.activeThr).pendente (s.mutex m).thr
      ++ (s.mutex m).queue
    rw [hordem, hthr]
    simp [Historia.pendente, Historia.obter]
  · show h.posse ++ [s.activeThr] = [s.activeThr]
    rw [hposse, List.nil_append]
  · show _ ↔ t ∈ (s.mutex m).queue ∨ (s.mutex m).thr = some t ∧ t ∉ h.posse ++ [s.activeThr]
    rw [hposse, List.nil_append, List.mem_singleton]
    by_cases ht : t = s.activeThr
    · subst ht
      rw [hself]
      refine iff_of_false Ponto.noConfusion ?_
      rintro (hmem | ⟨-, hne⟩)
      · exact hT.ativaFora hmem
      · exact hne rfl
    · rw [hponto t ht, hT.espera t, hthr]
      refine or_congr Iff.rfl (iff_of_false ?_ ?_) <;> rintro ⟨he, -⟩ <;>
        exact ht (Option.some.inj he).symm
  · by_cases hta : t = s.activeThr
    · rw [hta, hself] at ht
      cases ht
    · exact hT.volta t antes (hponto t hta ▸ ht)
  · by_cases hta : t = s.activeThr
    · rw [hta, hself]
    · rw [hponto t hta]
      exact hT.nova t ht
  · exact absurd (hthr.symm.trans (hT.futuro hge).1) (Option.some_ne_none _)

theorem resume (hT : Trinco m h s) (harr : Arrumado (fun _ _ => True) s' [s'.activeThr])
    (he : retomar s (s.ponto s.activeThr) = .segue s' r) :
    Trinco m (h.anotar m (s, .resume, r)) s' := by
  have hcalmo := hT.arrumado.calmo s.activeThr
  -- the other points lead back to the code of the thread
  have hlivre : s.ponto s.activeThr ≠ .emLock m → Deixa m .livre s s' →
      Trinco m (h.anotar m (s, .resume, r)) s' := by
    intro hne hd
    rw [Historia.anotar_outra Chamada.noConfusion Chamada.noConfusion fun _ => hne]
    exact hT.deixa harr hne (p := .livre) Ponto.noConfusion (fun _ hx => (nomatch hx)) hd
  cases hp : s.ponto s.activeThr with
  | livre =>
      rw [hp] at he
      cases he
  | terminada =>
      rw [hp] at he
      cases he
  | girando mon =>
      rw [hp] at hcalmo
      exact absurd hcalmo id
  | emWaitUnlock mon =>
      rw [hp] at hcalmo
      exact absurd hcalmo id
  | noDespacho antes =>
      obtain rfl := hT.volta _ antes hp
      rw [hp] at he
      obtain ⟨rfl, rfl⟩ := Resultado.segue.inj he
      obtain ⟨hm, hg, ht, hpt⟩ := fimDispatcher_campos s
      refine hlivre (by rw [hp]; exact Ponto.noConfusion) ⟨congrFun hm m, hg, ht, .inr ?_⟩
      simp only [Escalonador.parar, hpt]
  | emJoin alvo =>
      rw [hp] at he
      obtain ⟨rfl, rfl⟩ := Resultado.segue.inj he
      exact hlivre (by rw [hp]; exact Ponto.noConfusion) ⟨rfl, rfl, rfl, .inr rfl⟩
  | emLock k =>
      rw [hp] at he
      obtain ⟨rfl, rfl⟩ := Resultado.segue.inj he
      by_cases hk : k = m
      · subst hk
        have hnota : h.anotar k (s, .resume, .nada) = h.obter s.activeThr := by
          rw [Historia.anotar, if_neg Chamada.noConfusion, if_neg Chamada.noConfusion,
            if_pos ⟨rfl, hp⟩]
        rw [hnota]
        exact hT.voltaDoLock hp harr
      · exact hlivre (by rw [hp]; exact fun hx => hk (Ponto.emLock.inj hx))
          ⟨rfl, rfl, rfl, .inr rfl⟩
  | emUnlock k =>
      rw [hp] at he
      obtain ⟨rfl, rfl⟩ := Resultado.segue.inj he
      have hne : s.ponto s.activeThr ≠ .emLock m := by
        rw [hp]
        exact Ponto.noConfusion
      rw [Historia.anotar_outra Chamada.noConfusion Chamada.noConfusion fun _ => hne]
      refine hT.outro harr ?_ ?_ (Nat.le_refl _) rfl
        (hT.pontoAtivo hne (p := .livre) Ponto.noConfusion fun _ hx => (nomatch hx))
      · by_cases hk : m = k
        · subst hk
          simp [Escalonador.parar, Escalonador.mudarMutex]
        · simp [Escalonador.parar, Escalonador.mudarMutex, hk]
      · by_cases hk : m = k
        · subst hk
          simp [Escalonador.parar, Escalonador.mudarMutex]
        · simp [Escalonador.parar, Escalonador.mudarMutex, hk]
  | emWait mon =>
      rw [hp] at he
      obtain ⟨rfl, rfl⟩ := Resultado.segue.inj he
      exact hlivre (by rw [hp]; exact Ponto.noConfusion) ⟨rfl, rfl, rfl, .inr rfl⟩

theorem passo (hT : Trinco m h s) {c : Chamada} (hc : Valida s c ∧ SoTrincos c)
    (hs : passo s c = some (s', r)) : Trinco m (h.anotar m (s, c, r)) s' := by
  have hlimpa : Limpa s c := by
    cases c <;> first | exact trivial | exact absurd hc.2 id
  have harr := (passo_chega guarda_trivial hT.arrumado hc.1 hlimpa (fun _ _ => trivial) hs).arrumado
  obtain ⟨hp, he⟩ | ⟨mon, hp, -⟩ | ⟨rfl, he⟩ | he := executa_cases (passo_eq_some.mp hs)
  · have hne : s.ponto s.activeThr ≠ .emLock m := by
      rw [hp]
      exact Ponto.noConfusion
    cases c with
    | create p =>
        rw [Historia.anotar_outra Chamada.noConfusion Chamada.noConfusion fun _ => hne]
        exact hT.create harr he
    | dispatcher =>
        rw [Historia.anotar_outra Chamada.noConfusion Chamada.noConfusion fun _ => hne]
        have hd := sthreadUserDispatcher_deixa (m := m) he
        rw [hp] at hd
        exact hT.deixa harr hne Ponto.noConfusion (fun _ hx => (Ponto.noDespacho.inj hx).symm) hd
    | yield =>
        rw [Historia.anotar_outra Chamada.noConfusion Chamada.noConfusion fun _ => hne]
        exact hT.deixa harr hne (p := .livre) Ponto.noConfusion (fun _ hx => (nomatch hx))
          (sthreadUserYield_deixa he)
    | mutexInit =>
        rw [Historia.anotar_outra Chamada.noConfusion Chamada.noConfusion fun _ => hne]
        obtain ⟨rfl, -⟩ := Resultado.segue.inj he
        exact hT.init harr
    | mutexLock k =>
        by_cases hk : m = k
        · subst hk
          exact hT.lock harr hc.1 he
        · rw [Historia.anotar_outra (fun hx => hk (Chamada.mutexLock.inj hx).symm)
            Chamada.noConfusion fun _ => hne]
          exact hT.deixa harr hne (fun hx => hk (Ponto.emLock.inj hx).symm)
            (fun _ hx => (nomatch hx))
            (sthreadUserMutexLock_deixa hk he)
    | mutexUnlock k =>
        by_cases hk : m = k
        · subst hk
          exact hT.unlock hp harr hc.1 he
        · rw [Historia.anotar_outra Chamada.noConfusion
            (fun hx => hk (Chamada.mutexUnlock.inj hx).symm) fun _ => hne]
          exact hT.deixa harr hne (p := .emUnlock k) Ponto.noConfusion (fun _ hx => (nomatch hx))
            (sthreadUserMutexUnlock_deixa hk he)
    | resume => cases he
    | _ => exact absurd hc.2 id
  · have hcalmo := hT.arrumado.calmo s.activeThr
    rw [hp] at hcalmo
    exact absurd hcalmo id
  · exact hT.resume harr he
  · cases he

end Trinco

theorem sthreadUserInit_trinco (m : ℕ) : Trinco m .vazia sthreadUserInit := by
  refine ⟨sthreadUserInit_arrumado trivial, rfl, .inl rfl, fun _ => rfl,
    fun t => iff_of_false Ponto.noConfusion ?_, fun _ _ hx => ?_, fun _ _ => rfl,
    fun _ => ⟨rfl, rfl⟩⟩
  · rintro (hx | ⟨hx, -⟩)
    · exact List.not_mem_nil hx
    · cases hx
  · cases hx

/-- At most one thread has the mutex, and it is the owner; only the owner unlocks; and the threads
get the mutex in the order in which they come. -/
theorem trinco_exclusivo (cs : List Chamada) (s : Escalonador) (os : List Resposta) (m : ℕ)
    (hP : Runs.Permitted passo (fun s c => Valida s c ∧ SoTrincos c) sthreadUserInit cs)
    (hr : Runs.run passo sthreadUserInit cs = some (s, os)) :
    let h := (Runs.steps passo sthreadUserInit cs).foldl (Historia.anotar m) .vazia
    (h.posse = [] ∨ ∃ t, h.posse = [t] ∧ (s.mutex m).thr = some t) ∧
      (∀ s' r, (s.mutex m).thr ≠ some s.activeThr →
        SthreadLib.chamar s (.mutexUnlock m) = .segue s' r → s' = s) ∧
      h.obtidas <+: h.chegadas := by
  have hT := Runs.run_history (J := Trinco m)
    (fun h _ a _ o hT hp hs => show Trinco m (h.anotar m (_, a, o)) _ from hT.passo hp hs)
    (sthreadUserInit_trinco m) hP hr
  refine ⟨hT.posse, fun s' r hne he => ?_, ?_⟩
  · have hu : sthreadUserMutexUnlock s m (.emUnlock m) = .segue s' r := he
    rw [sthreadUserMutexUnlock, if_pos hne] at hu
    exact (Resultado.segue.inj hu).1.symm
  · rw [hT.ordem, List.append_assoc]
    exact List.prefix_append _ _

/-- Thread 2 waits while the main thread has the mutex, and gets it. -/
def trincoPassado : List Chamada :=
  [.mutexInit, .create 1, .mutexLock 0, .yield, .mutexLock 0, .mutexUnlock 0, .yield, .resume]

theorem trinco_exclusivo_exemplo :
    ∃ s os, Runs.run passo sthreadUserInit trincoPassado = some (s, os) ∧
      let h := (Runs.steps passo sthreadUserInit trincoPassado).foldl (Historia.anotar 0) .vazia
      (h.posse = [] ∨ ∃ t, h.posse = [t] ∧ (s.mutex 0).thr = some t) ∧
        (∀ s' r, (s.mutex 0).thr ≠ some s.activeThr →
          SthreadLib.chamar s (.mutexUnlock 0) = .segue s' r → s' = s) ∧
        h.obtidas <+: h.chegadas :=
  ⟨_, _, rfl, trinco_exclusivo trincoPassado _ _ 0 (by decide) rfl⟩

example : (Runs.steps passo sthreadUserInit trincoPassado).foldl (Historia.anotar 0) .vazia =
    ⟨[1, 2], [1, 2], [2]⟩ := by decide

end ThreadScheduler.SthreadLib
