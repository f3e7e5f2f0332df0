import ThreadScheduler.SthreadLib.SchedulerCreated
import ThreadScheduler.SthreadLib.SchedulerMutex
import ThreadScheduler.SthreadLib.SchedulerProgress

/-!
# The times of a tick

A tick is time of execution for the active thread, of waiting for the threads of the executable
tree, and of sleep for the threads in the lists and the queues. `actualizarMutex` counts it as sleep
for the owner of a mutex as well, wherever it is, and a sleeper that wakes is not counted at all.
-/
namespace ThreadScheduler.SthreadLib

open PointerTree ArvoreRB Escalonador

variable {s s' : Escalonador} {r : Resposta}

/-! ## The walks -/

/-- The threads of a list, as often as they are in it, sleep for one more tick. -/
theorem actualizarSleepTimeLista_thread (s : Escalonador) (lista : List ℕ) (t : ℕ) :
    (actualizarSleepTimeLista s lista).thread t =
      { s.thread t with sleeptime := (s.thread t).sleeptime + lista.count t } := by
  induction lista generalizing s with
  | nil => simp [actualizarSleepTimeLista]
  | cons u lista ih =>
      have hfold : actualizarSleepTimeLista s (u :: lista) = actualizarSleepTimeLista
          (s.mudar u fun th => { th with sleeptime := th.sleeptime + 1 }) lista := rfl
      rw [hfold, ih, List.count_cons]
      by_cases hu : u = t
      · subst hu
        simp [Escalonador.mudar, Int.add_assoc, Int.add_comm 1]
      · simp [Escalonador.mudar, Function.update_of_ne (Ne.symm hu), hu]

theorem actualizarSleepTimeLista_append (s : Escalonador) (l l' : List ℕ) :
    actualizarSleepTimeLista s (l ++ l') =
      actualizarSleepTimeLista (actualizarSleepTimeLista s l) l' :=
  List.foldl_append

/-- The threads in whose name `actualizarMutex` counts a tick. -/
def dosMutexes (s : Escalonador) : List ℕ :=
  s.mutexList.flatMap fun m => (s.mutex m).thr.toList ++ (s.mutex m).queue

def dosMonitores (s : Escalonador) : List ℕ :=
  s.monitorList.flatMap fun mon => (s.monitor mon).queue

theorem actualizarMutex_eq (s : Escalonador) :
    actualizarMutex s = actualizarSleepTimeLista s (dosMutexes s) := by
  have hfold : ∀ f : Escalonador → ℕ → Escalonador,
      (∀ x m, f x m =
        actualizarSleepTimeLista x ((x.mutex m).thr.toList ++ (x.mutex m).queue)) →
      ∀ (l : List ℕ) (x : Escalonador), x.mutex = s.mutex → l.foldl f x =
        actualizarSleepTimeLista x
          (l.flatMap fun m => (s.mutex m).thr.toList ++ (s.mutex m).queue) := by
    intro f hf l
    induction l with
    | nil => exact fun _ _ => rfl
    | cons m l ih =>
        intro x hx
        have hmutex : (actualizarSleepTimeLista x
            ((s.mutex m).thr.toList ++ (s.mutex m).queue)).mutex = s.mutex := by
          rw [(actualizarSleepTimeLista_soTempos x _).1]
          exact hx
        rw [List.foldl_cons, hf, hx, ih _ hmutex, List.flatMap_cons,
          ← actualizarSleepTimeLista_append]
  refine hfold _ (fun x m => ?_) s.mutexList s rfl
  cases (x.mutex m).thr <;> rfl

theorem actualizarMonitores_eq (s : Escalonador) :
    actualizarMonitores s = actualizarSleepTimeLista s (dosMonitores s) := by
  have hfold : ∀ (l : List ℕ) (x : Escalonador), x.monitor = s.monitor →
      l.foldl (fun s mon => actualizarSleepTimeLista s (s.monitor mon).queue) x =
      actualizarSleepTimeLista x (l.flatMap fun mon => (s.monitor mon).queue) := by
    intro l
    induction l with
    | nil => exact fun _ _ => rfl
    | cons mon l ih =>
        intro x hx
        have hmonitor : (actualizarSleepTimeLista x (s.monitor mon).queue).monitor = s.monitor := by
          rw [(actualizarSleepTimeLista_soTempos x _).1]
          exact hx
        rw [List.foldl_cons, hx, ih _ hmonitor, List.flatMap_cons,
          ← actualizarSleepTimeLista_append]
  exact hfold s.monitorList s rfl

/-- The threads of the nodes wait for one more tick. -/
theorem actualizarWaittime_thread (a : ArvoreRB ℕ) (n : ℕ) (s : Escalonador) (h t : ℕ) :
    (actualizarWaittime a n s h).thread t =
      { s.thread t with
        waittime := (s.thread t).waittime + ((emOrdemAux a n h).filterMap a.elem).count t } := by
  induction n generalizing s h with
  | zero => simp [actualizarWaittime, emOrdemAux]
  | succ n ih =>
      rw [actualizarWaittime, emOrdemAux]
      split
      · simp
      · simp only [ih, List.filterMap_append, List.filterMap_cons, List.count_append]
        cases a.elem h with
        | none =>
            rw [ih]
            simp [Int.add_assoc]
        | some u =>
            simp only [List.count_cons]
            by_cases hu : u = t
            · subst hu
              simp only [Escalonador.mudar, Function.update_self, ih]
              simp [Int.add_assoc, Int.add_comm 1]
            · simp only [Escalonador.mudar, Function.update_of_ne (Ne.symm hu), ih]
              simp [hu, Int.add_assoc]

/-- The sleeper is to wake. -/
def Vencida (s : Escalonador) (t : ℕ) : Prop :=
  0 ≤ (s.thread t).wakeTime ∧ (s.thread t).wakeTime ≤ s.clock

instance (s : Escalonador) (t : ℕ) : Decidable (Vencida s t) := by
  unfold Vencida
  infer_instance

theorem SoTempos.vencida_iff (h : SoTempos s s') (t : ℕ) : Vencida s' t ↔ Vencida s t := by
  have hclock : s'.clock = s.clock := by rw [h.1]
  have hwake : (s'.thread t).wakeTime = (s.thread t).wakeTime := by rw [h.2 t]
  rw [Vencida, Vencida, hclock, hwake]

/-- Where no sleeper is to wake, each of them sleeps for one more tick. The induction is on the tree
that the walk goes through. -/
theorem acordarProcessos_linked {t : Shape ℕ} {x par fuel : ℕ}
    (hl : Linked s.sleepThr.toLinks nil t x par) (hnil : nil ∉ t.toList)
    (hfuel : t.toList.length ≤ fuel)
    (hno : ∀ p ∈ t.toList, ∃ u, s.sleepThr.elem p = some u ∧ ¬Vencida s u) :
    acordarProcessos fuel s x =
      some (actualizarSleepTimeLista s (t.toList.filterMap s.sleepThr.elem)) := by
  induction t generalizing x par fuel s with
  | nil =>
      have hx : x = nil := hl
      cases fuel <;> simp [acordarProcessos, hx, actualizarSleepTimeLista]
  | node p l r ihl ihr =>
      obtain ⟨rfl, -, hleft, hright⟩ := hl
      rw [Shape.toList_node, List.mem_append, List.mem_cons, not_or, not_or] at hnil
      obtain ⟨hnl, hx, hnr⟩ := hnil
      simp only [Shape.toList_node, List.length_append, List.length_cons] at hfuel
      simp only [Shape.toList_node, List.mem_append, List.mem_cons] at hno
      obtain ⟨fuel, rfl⟩ : ∃ n, fuel = n + 1 := ⟨fuel - 1, by omega⟩
      obtain ⟨u, hu, hvu⟩ := hno x (.inr (.inl rfl))
      let s₁ := actualizarSleepTimeLista s (l.toList.filterMap s.sleepThr.elem)
      let s₂ := actualizarSleepTimeLista s₁ [u]
      have h₁ : SoTempos s s₁ := actualizarSleepTimeLista_soTempos s _
      have h₂ : SoTempos s s₂ := h₁.trans (actualizarSleepTimeLista_soTempos s₁ _)
      have hsleep₁ : s₁.sleepThr = s.sleepThr := by rw [h₁.1]
      have hsleep₂ : s₂.sleepThr = s.sleepThr := by rw [h₂.1]
      have hl₁ : acordarProcessos fuel s (s.sleepThr.esq x) = some s₁ :=
        ihl hleft hnl (by omega) fun q hq => hno q (.inl hq)
      have hno₁ : acordarNo s₁ x = some s₂ := by
        rw [acordarNo, hsleep₁, hu]
        exact if_neg fun hv => hvu ((h₁.vencida_iff u).mp hv)
      have hr₂ : acordarProcessos fuel s₂ (s₂.sleepThr.dir x) =
          some (actualizarSleepTimeLista s₂ (r.toList.filterMap s.sleepThr.elem)) := by
        have hright₂ : Linked s₂.sleepThr.toLinks nil r (s₂.sleepThr.dir x) x := by
          rw [hsleep₂]
          exact hright
        rw [← hsleep₂]
        refine ihr hright₂ hnr (by omega) fun q hq => ?_
        obtain ⟨v, hv, hvv⟩ := hno q (.inr (.inr hq))
        exact ⟨v, by rw [hsleep₂]; exact hv, fun he => hvv ((h₂.vencida_iff v).mp he)⟩
      rw [acordarProcessos, if_neg fun he => hx he.symm, hl₁]
      simp only [Option.bind_eq_bind, Option.bind_some, hno₁, hr₂]
      rw [Shape.toList_node, List.filterMap_append, List.filterMap_cons, hu,
        actualizarSleepTimeLista_append]
      rfl

theorem acordarProcessos_ninguemVencido (hs : SacoRB s.sleepThr)
    (hno : ∀ t ∈ elementos s.sleepThr, ¬Vencida s t) :
    acordarProcessos s.sleepThr.prox s (s.sleepThr.esq raiz) =
      some (actualizarSleepTimeLista s (elementos s.sleepThr)) := by
  obtain ⟨t, ht, -, helem⟩ := hs
  rw [elementos, ht.emOrdem_eq]
  refine acordarProcessos_linked ht.focus.inside (fun hm => ht.ne_nil hm rfl) ht.length_le
    fun p hp => ?_
  obtain ⟨u, hu⟩ := Option.isSome_iff_exists.mp ((helem p).mpr hp)
  refine ⟨u, hu, hno u ?_⟩
  rw [elementos, ht.emOrdem_eq]
  exact List.mem_filterMap.mpr ⟨p, hp, hu⟩

/-! ## The tick -/

/-- The threads in whose name a tick is counted as sleep before the walk of the sleep tree. -/
def parados (s : Escalonador) : List ℕ := s.joinThr ++ dosMutexes s ++ dosMonitores s

/-- The threads in whose name a tick is counted as sleep, where no sleeper is to wake. -/
def dormentes (s : Escalonador) : List ℕ := parados s ++ elementos s.sleepThr

/-- The three times of a thread grow by `e`, `w` and `b`. -/
def Acrescimo (s s' : Escalonador) (t : ℕ) (e w b : ℤ) : Prop :=
  (s'.thread t).exectime = (s.thread t).exectime + e ∧
    (s'.thread t).waittime = (s.thread t).waittime + w ∧
    (s'.thread t).sleeptime = (s.thread t).sleeptime + b

instance (s s' : Escalonador) (t : ℕ) (e w b : ℤ) : Decidable (Acrescimo s s' t e w b) := by
  unfold Acrescimo
  infer_instance

/-- The end of the dispatcher and the switch leave the times. -/
theorem fimDispatcher_acrescimo (s : Escalonador) (t : ℕ) :
    Acrescimo s (fimDispatcher s) t 0 0 0 := by
  rw [Acrescimo, fimDispatcher]
  simp only [Int.add_zero]
  split
  · exact ⟨rfl, rfl, rfl⟩
  · simp only [Escalonador.mudar, Function.update_apply]
    split
    · rename_i ht
      rw [ht]
      exact ⟨rfl, rfl, rfl⟩
    · exact ⟨rfl, rfl, rfl⟩

/-- The state in which the sleep tree is walked. -/
theorem antesDeAcordar (s : Escalonador) :
    ∃ s₁, SoTempos s.pulsar s₁ ∧
      (∀ t, Acrescimo s s₁ t (if t = s.activeThr then 1 else 0) ((elementos s.exeThr).count t)
        ((parados s).count t)) ∧
      sthreadUserDispatcher s =
        match acordarProcessos s₁.sleepThr.prox s₁ (s₁.sleepThr.esq raiz) with
        | none => .falha
        | some s =>
            if (s.thread s.activeThr).vruntime + s.porCobrar ≥ rbMenorChave s.exeThr then
              sthreadUserYield (s.parar s.activeThr (.noDespacho (s.ponto s.activeThr)))
            else .segue (fimDispatcher s) .nada := by
  let s₀ := actualizarWaittime s.exeThr s.exeThr.prox s.pulsar (s.exeThr.esq raiz)
  have h₀ : SoTempos s.pulsar s₀ := actualizarWaittime_soTempos _ _ _ _
  let s₁ := actualizarMonitores (actualizarMutex (actualizarJoinTime s₀))
  have hs₁ : s₁ = actualizarSleepTimeLista s₀ (parados s) := by
    have hjoin : s₀.joinThr = s.joinThr := by rw [h₀.1]; rfl
    have hm : dosMutexes (actualizarSleepTimeLista s₀ s.joinThr) = dosMutexes s := by
      rw [dosMutexes, (actualizarSleepTimeLista_soTempos s₀ s.joinThr).1, h₀.1]
      rfl
    have hmon : dosMonitores (actualizarSleepTimeLista s₀ (s.joinThr ++ dosMutexes s)) =
        dosMonitores s := by
      rw [dosMonitores, (actualizarSleepTimeLista_soTempos s₀ (s.joinThr ++ dosMutexes s)).1, h₀.1]
      rfl
    show actualizarMonitores (actualizarMutex (actualizarJoinTime s₀)) = _
    rw [actualizarJoinTime, hjoin, actualizarMutex_eq, hm, ← actualizarSleepTimeLista_append,
      actualizarMonitores_eq, hmon, ← actualizarSleepTimeLista_append]
    rfl
  refine ⟨s₁, ?_, fun t => ?_, rfl⟩
  · rw [hs₁]
    exact h₀.trans (actualizarSleepTimeLista_soTempos s₀ _)
  · have hthread : s₁.thread t = { s.pulsar.thread t with
        waittime := (s.pulsar.thread t).waittime + (elementos s.exeThr).count t
        sleeptime := (s.pulsar.thread t).sleeptime + (parados s).count t } := by
      rw [hs₁, actualizarSleepTimeLista_thread, actualizarWaittime_thread]
      rfl
    rw [Acrescimo, hthread]
    simp only [Escalonador.pulsar, Escalonador.mudar, Function.update_apply]
    split
    · rename_i hact
      rw [hact]
      exact ⟨rfl, rfl, rfl⟩
    · exact ⟨(Int.add_zero _).symm, rfl, rfl⟩

/-- After the walk the times stay. -/
theorem depoisDeAcordar {s₂ : Escalonador} {t : ℕ} {e w b : ℤ} (h : Acrescimo s s₂ t e w b)
    (he : (if (s₂.thread s₂.activeThr).vruntime + s₂.porCobrar ≥ rbMenorChave s₂.exeThr then
        sthreadUserYield (s₂.parar s₂.activeThr (.noDespacho (s₂.ponto s₂.activeThr)))
      else .segue (fimDispatcher s₂) .nada) = .segue s' r) : Acrescimo s s' t e w b := by
  split at he
  · rw [sthreadUserYield] at he
    rw [(comutar_campos he).1]
    exact h
  · obtain ⟨rfl, -⟩ := Resultado.segue.inj he
    obtain ⟨h₁, h₂, h₃⟩ := fimDispatcher_acrescimo s₂ t
    rw [Int.add_zero] at h₁ h₂ h₃
    rw [Acrescimo, h₁, h₂, h₃]
    exact h

theorem SoTempos.pulsar_vencida (h : SoTempos s.pulsar s') (t : ℕ) :
    Vencida s' t ↔ Vencida s t := by
  rw [h.vencida_iff, Vencida, Vencida]
  simp only [Escalonador.pulsar, Escalonador.mudar, Function.update_apply]
  split
  · rename_i hact
    rw [hact]
  · rfl

/-- What a tick adds to the times of each thread, where no sleeper is to wake. -/
theorem sthreadUserDispatcher_acrescimo (hs : SacoRB s.sleepThr)
    (hno : ∀ t ∈ elementos s.sleepThr, ¬Vencida s t)
    (he : sthreadUserDispatcher s = .segue s' r) (t : ℕ) :
    Acrescimo s s' t (if t = s.activeThr then 1 else 0) ((elementos s.exeThr).count t)
      ((dormentes s).count t) := by
  obtain ⟨s₁, h₁, hacr, hfim⟩ := antesDeAcordar s
  have hsleep : s₁.sleepThr = s.sleepThr := by rw [h₁.1]; rfl
  have hac := acordarProcessos_ninguemVencido (s := s₁) (hsleep ▸ hs)
    (fun u hu hv => hno u (hsleep ▸ hu) ((h₁.pulsar_vencida u).mp hv))
  rw [hfim, hac] at he
  refine depoisDeAcordar ?_ he
  obtain ⟨hexec, hwait, hsono⟩ := hacr t
  rw [Acrescimo, actualizarSleepTimeLista_thread, hsleep]
  refine ⟨hexec, hwait, ?_⟩
  show (s₁.thread t).sleeptime + (elementos s.sleepThr).count t = _
  rw [hsono, dormentes, List.count_append]
  push_cast
  omega

/-- A sleeper that is to wake does not sleep any longer. -/
theorem acordarProcessos_vencida {s₂ : Escalonador} {t n h : ℕ} (hs : SacoRB s.sleepThr)
    (hum : (elementos s.sleepThr).count t ≤ 1) (hv : Vencida s t)
    (he : acordarProcessos n s h = some s₂) : Acrescimo s s₂ t 0 0 0 := by
  have hwalk : SacoRB s₂.sleepThr ∧ ((elementos s₂.sleepThr).count t = 0 ∨
      (elementos s₂.sleepThr).count t ≤ 1 ∧ Vencida s₂ t) ∧ Acrescimo s s₂ t 0 0 0 := by
    refine acordarProcessos_invariant (P := fun x => SacoRB x.sleepThr ∧
      ((elementos x.sleepThr).count t = 0 ∨
        (elementos x.sleepThr).count t ≤ 1 ∧ Vencida x t) ∧ Acrescimo s x t 0 0 0) ?_
      ⟨hs, .inr ⟨hum, hv⟩, by simp [Acrescimo]⟩ he
    intro a b z ⟨hsa, hta, hacr⟩ hb
    obtain ⟨u, hz, ⟨hvu, rfl⟩ | ⟨hvu, rfl⟩⟩ := acordarNo_cases hb
    · obtain ⟨hsb, hperm⟩ := hsa.remover hz
      have hcount := hperm.count_eq t
      rw [List.count_cons] at hcount
      have hfora : ∀ {k : ℕ}, k ≤ 1 → k = List.count t
          (elementos (rbRemoverNo (a.sleepThr.setElem z none) z)) + 1 → List.count t
          (elementos (rbRemoverNo (a.sleepThr.setElem z none) z)) = 0 := by omega
      refine ⟨hsb, ?_, ?_⟩
      · by_cases hut : u = t
        · subst hut
          rw [BEq.rfl, if_pos rfl] at hcount
          obtain h0 | ⟨h1, -⟩ := hta
          · omega
          · exact .inl (hfora h1 hcount)
        · have hne : (u == t) = false := by simpa using hut
          rw [hne, if_neg Bool.false_ne_true, Nat.add_zero] at hcount
          show List.count t (elementos (rbRemoverNo (a.sleepThr.setElem z none) z)) = 0 ∨ _
          rw [hcount] at hta
          refine hta.imp id fun h1 => ⟨h1.1, ?_⟩
          rw [Vencida]
          simp only [Escalonador.rbInserir, Escalonador.mudar, Function.update_of_ne (Ne.symm hut)]
          exact h1.2
      · rw [Acrescimo]
        simp only [Escalonador.rbInserir, Escalonador.mudar, Function.update_apply]
        split
        · rename_i htu
          rw [← htu]
          exact hacr
        · exact hacr
    · have hut : t ≠ u := by
        rintro rfl
        have hpos : 0 < (elementos a.sleepThr).count t := by
          have hm := (hsa.remover hz).2.mem_iff.mpr List.mem_cons_self
          exact List.count_pos_iff.mpr hm
        obtain h0 | ⟨-, h1⟩ := hta
        · omega
        · exact hvu h1
      refine ⟨hsa, ?_, ?_⟩
      · refine hta.imp id fun h1 => ⟨h1.1, ?_⟩
        rw [Vencida]
        simp only [Escalonador.mudar, Function.update_of_ne hut]
        exact h1.2
      · rw [Acrescimo]
        simp only [Escalonador.mudar, Function.update_of_ne hut]
        exact hacr
  exact hwalk.2.2

/-! ## One time for each tick -/

/-- Asleep, or blocked in the join list or in a queue. -/
def Bloqueada (s : Escalonador) (t : ℕ) : Prop :=
  t ∈ elementos s.sleepThr ∨ t ∈ s.joinThr ∨ (∃ m ∈ s.mutexList, t ∈ (s.mutex m).queue) ∨
    ∃ mon ∈ s.monitorList, t ∈ (s.monitor mon).queue

/-- The tick from `s` to `s'` is counted once for thread `t`, according to its place. -/
structure Partilhado (s s' : Escalonador) (t : ℕ) : Prop where
  ativa : t = s.activeThr → Acrescimo s s' t 1 0 0
  executavel : t ∈ elementos s.exeThr → Acrescimo s s' t 0 1 0
  bloqueada : Bloqueada s t → Acrescimo s s' t 0 0 1
  uma : Acrescimo s s' t 1 0 0 ∨ Acrescimo s s' t 0 1 0 ∨ Acrescimo s s' t 0 0 1

/-- The owners of the mutexes, one for each mutex that has one. -/
def donos (s : Escalonador) : List ℕ := s.mutexList.flatMap fun m => (s.mutex m).thr.toList

theorem mem_donos {t : ℕ} : t ∈ donos s ↔ ∃ m ∈ s.mutexList, (s.mutex m).thr = some t := by
  simp only [donos, List.mem_flatMap, Option.mem_toList]

theorem count_flatMap_append (l : List ℕ) (f g : ℕ → List ℕ) (t : ℕ) :
    (l.flatMap fun m => f m ++ g m).count t =
      (l.flatMap f).count t + (l.flatMap g).count t := by
  induction l with
  | nil => rfl
  | cons m l ih =>
      simp only [List.flatMap_cons, List.count_append, ih]
      omega

/-- An owner is counted once more than the others. -/
theorem count_parados (hs : Povoado s) (t : ℕ) : (parados s).count t =
    (donos s).count t + s.joinThr.count t +
      (emFilas s.mutexIdGen fun m => (s.mutex m).queue).count t +
      (emFilas s.monitorIdGen fun mon => (s.monitor mon).queue).count t := by
  have hm : (dosMutexes s).count t = (donos s).count t +
      (emFilas s.mutexIdGen fun m => (s.mutex m).queue).count t := by
    rw [dosMutexes, count_flatMap_append, donos, emFilas, ← hs.mutexes]
  have hmon : dosMonitores s = emFilas s.monitorIdGen fun mon => (s.monitor mon).queue := by
    rw [dosMonitores, hs.monitores, emFilas]
  simp only [parados, List.count_append, hm, hmon]
  omega

/-- A thread that is alive is in one place, and dead threads are in none of those of a tick. -/
theorem soma_pulso {J : ArvoreRB ℕ → (ℕ → Sthread) → Prop} (h : Arrumado J s [s.activeThr])
    (hs : Povoado s) {t : ℕ} (ht : Viva s t) :
    (if t = s.activeThr then 1 else 0) + (elementos s.exeThr).count t + (parados s).count t +
      (elementos s.sleepThr).count t = 1 + (donos s).count t := by
  have hconta := h.conta t
  obtain ⟨hpos, hlt, hz, hd⟩ := ht
  have hact : [s.activeThr].count t = if t = s.activeThr then 1 else 0 := by
    rw [List.count_singleton]
    by_cases he : t = s.activeThr
    · rw [if_pos he, he]
      simp
    · rw [if_neg he, if_neg]
      simpa using fun he' => he he'.symm
  rw [if_pos ⟨hpos, hlt⟩, count_fora, hact, List.count_eq_zero.mpr hz, List.count_eq_zero.mpr hd]
    at hconta
  rw [count_parados hs]
  omega

/-- The sleepers are alive. -/
theorem Arrumado.viva_of_mem {J : ArvoreRB ℕ → (ℕ → Sthread) → Prop}
    (h : Arrumado J s [s.activeThr]) {t : ℕ} (ht : t ∈ elementos s.sleepThr) : Viva s t := by
  have hpos := List.count_pos_iff.mpr ht
  have hconta := h.conta t
  rw [count_fora] at hconta
  split at hconta
  · rename_i hlt
    refine ⟨hlt.1, hlt.2, fun hm => ?_, fun hm => ?_⟩
    · have := List.count_pos_iff.mpr hm
      omega
    · have := List.count_pos_iff.mpr hm
      omega
  · omega

theorem Bloqueada.count_pos (hs : Povoado s) {t : ℕ} (h : Bloqueada s t) :
    0 < (dormentes s).count t := by
  rw [dormentes, List.count_append, count_parados hs]
  obtain h | h | ⟨m, hm, h⟩ | ⟨mon, hmon, h⟩ := h
  · have := List.count_pos_iff.mpr h
    omega
  · have := List.count_pos_iff.mpr h
    omega
  · rw [hs.mutexes, List.mem_range] at hm
    have := List.count_pos_iff.mpr
      (mem_emFilas (f := fun m => (s.mutex m).queue).mpr ⟨m, hm, h⟩)
    omega
  · rw [hs.monitores, List.mem_range] at hmon
    have := List.count_pos_iff.mpr
      (mem_emFilas (f := fun mon => (s.monitor mon).queue).mpr ⟨mon, hmon, h⟩)
    omega

/-- In a state in which every thread is in one place and no sleeper is to wake, a tick is counted
once for the threads that own no mutex. -/
theorem partilhado_iff {J : ArvoreRB ℕ → (ℕ → Sthread) → Prop} (h : Arrumado J s [s.activeThr])
    (hs : Povoado s) (hno : ∀ t ∈ elementos s.sleepThr, ¬Vencida s t)
    (he : sthreadUserDispatcher s = .segue s' r) {t : ℕ} (ht : Viva s t) :
    Partilhado s s' t ↔ t ∉ donos s := by
  have hacr := sthreadUserDispatcher_acrescimo hs.sleep hno he t
  have hsoma := soma_pulso h hs ht
  rw [Nat.add_assoc, ← List.count_append, show parados s ++ elementos s.sleepThr = dormentes s from
    rfl] at hsoma
  have hunico : ∀ {e w b : ℤ}, Acrescimo s s' t e w b →
      e = (if t = s.activeThr then 1 else 0) ∧ w = (elementos s.exeThr).count t ∧
        b = (dormentes s).count t := by
    rintro e w b ⟨h₁, h₂, h₃⟩
    obtain ⟨g₁, g₂, g₃⟩ := hacr
    exact ⟨by omega, by omega, by omega⟩
  constructor
  · intro hp hdono
    have hpos := List.count_pos_iff.mpr hdono
    have hum : (if t = s.activeThr then 1 else 0 : ℤ) + (elementos s.exeThr).count t +
        (dormentes s).count t = 1 := by
      obtain ha | ha | ha := hp.uma
      all_goals
        obtain ⟨h₁, h₂, h₃⟩ := hunico ha
        omega
    by_cases hact : t = s.activeThr
    · rw [if_pos hact] at hsoma hum
      omega
    · rw [if_neg hact] at hsoma hum
      omega
  · intro hdono
    rw [List.count_eq_zero.mpr hdono, Nat.add_zero] at hsoma
    by_cases hact : t = s.activeThr
    · rw [if_pos hact] at hsoma hacr
      rw [show (elementos s.exeThr).count t = 0 by omega,
        show (dormentes s).count t = 0 by omega] at hacr
      refine ⟨fun _ => hacr, fun hm => ?_, fun hb => ?_, .inl hacr⟩
      · have := List.count_pos_iff.mpr hm
        omega
      · have := hb.count_pos hs
        omega
    · rw [if_neg hact] at hsoma hacr
      by_cases hm : t ∈ elementos s.exeThr
      · have hpos := List.count_pos_iff.mpr hm
        rw [show (elementos s.exeThr).count t = 1 by omega,
          show (dormentes s).count t = 0 by omega] at hacr
        refine ⟨fun he => absurd he hact, fun _ => hacr, fun hb => ?_, .inr (.inl hacr)⟩
        have := hb.count_pos hs
        omega
      · have hzero := List.count_eq_zero.mpr hm
        rw [hzero, show (dormentes s).count t = 1 by omega] at hacr
        exact ⟨fun he => absurd he hact, fun hm' => absurd hm' hm, fun _ => hacr,
          .inr (.inr hacr)⟩

/-- A sleeper that wakes and owns no mutex is not counted. -/
theorem vencida_nao_partilhada {J : ArvoreRB ℕ → (ℕ → Sthread) → Prop}
    (h : Arrumado J s [s.activeThr]) (hs : Povoado s)
    (he : sthreadUserDispatcher s = .segue s' r) {t : ℕ} (ht : Viva s t)
    (hm : t ∈ elementos s.sleepThr) (hv : Vencida s t) (hdono : t ∉ donos s) :
    ¬Partilhado s s' t := by
  have hsoma := soma_pulso h hs ht
  rw [List.count_eq_zero.mpr hdono] at hsoma
  have hpos := List.count_pos_iff.mpr hm
  have hact : t ≠ s.activeThr := by
    intro hact
    rw [if_pos hact] at hsoma
    omega
  rw [if_neg hact] at hsoma
  obtain ⟨s₁, h₁, hacr, hfim⟩ := antesDeAcordar s
  have hsleep : s₁.sleepThr = s.sleepThr := by rw [h₁.1]; rfl
  rw [hfim] at he
  split at he
  · cases he
  · rename_i s₂ hac
    have hwalk := acordarProcessos_vencida (t := t) (hsleep ▸ hs.sleep)
      (by rw [hsleep]; omega) ((h₁.pulsar_vencida t).mpr hv) hac
    obtain ⟨he₁, hw₁, hb₁⟩ := hacr t
    rw [if_neg hact] at he₁
    have hzero : Acrescimo s s₂ t 0 0 0 := by
      obtain ⟨he₂, hw₂, hb₂⟩ := hwalk
      exact ⟨by omega, by omega, by omega⟩
    obtain ⟨he', hw', hb'⟩ := depoisDeAcordar hzero he
    intro hp
    obtain ⟨g₁, g₂, g₃⟩ | ⟨g₁, g₂, g₃⟩ | ⟨g₁, g₂, g₃⟩ := hp.uma <;> omega

/-- In every run whose steps leave each thread in one place: a tick is counted once for every live
thread when none of them owns a mutex and no sleeper is to wake, and only then. The owners are
counted once more than the others and the sleepers that wake once less; a thread that is both is
left out. -/
theorem pulso_partilhado_iff (cs : List Chamada) (s s' : Escalonador) (os : List Resposta)
    (r : Resposta)
    (hP : Runs.Permitted passo (fun s c => Valida s c ∧ Limpa s c) sthreadUserInit cs)
    (hr : Runs.run passo sthreadUserInit cs = some (s, os))
    (he : passo s .dispatcher = some (s', r))
    (hambas : ∀ t ∈ elementos s.sleepThr, Vencida s t → t ∉ donos s) :
    (∀ t, Viva s t → Partilhado s s' t) ↔
      (∀ t ∈ elementos s.sleepThr, ¬Vencida s t) ∧
        ∀ m < s.mutexIdGen, ∀ t, (s.mutex m).thr = some t → ¬Viva s t := by
  have h := run_arrumado hP hr
  have hs := run_povoado hr
  have hd : sthreadUserDispatcher s = .segue s' r := by
    obtain ⟨-, he⟩ | ⟨mon, -, -, he⟩ | ⟨hc, -⟩ | he := executa_cases (passo_eq_some.mp he)
    · exact he
    · exact he
    · cases hc
    · cases he
  have hdono : ∀ t, t ∈ donos s ↔ ∃ m < s.mutexIdGen, (s.mutex m).thr = some t := by
    intro t
    simp only [mem_donos, hs.mutexes, List.mem_range]
  constructor
  · intro hall
    have hno : ∀ t ∈ elementos s.sleepThr, ¬Vencida s t := by
      intro t hm hv
      have hviva : Viva s t := h.viva_of_mem hm
      exact vencida_nao_partilhada h hs hd hviva hm hv (hambas t hm hv) (hall t hviva)
    refine ⟨hno, fun m hm t ht hv => ?_⟩
    exact (partilhado_iff h hs hno hd hv).mp (hall t hv) ((hdono t).mpr ⟨m, hm, ht⟩)
  · rintro ⟨hno, hall⟩ t hv
    refine (partilhado_iff h hs hno hd hv).mpr fun hmem => ?_
    obtain ⟨m, hm, ht⟩ := (hdono t).mp hmem
    exact hall m hm t ht hv

/-- Thread 2 waits in the executable tree while the main thread runs for a tick. -/
theorem pulso_partilhado_exemplo :
    ∃ s os s' r, Runs.run passo sthreadUserInit [.mutexInit, .create 1] = some (s, os) ∧
      passo s .dispatcher = some (s', r) ∧
      ((∀ t, Viva s t → Partilhado s s' t) ↔
        (∀ t ∈ elementos s.sleepThr, ¬Vencida s t) ∧
          ∀ m < s.mutexIdGen, ∀ t, (s.mutex m).thr = some t → ¬Viva s t) :=
  ⟨_, _, _, _, rfl, rfl, pulso_partilhado_iff [.mutexInit, .create 1] _ _ _ _ (by decide) rfl rfl
    (by decide)⟩

/-- The main thread owns a mutex while it runs for a tick, which is counted twice for it. -/
theorem pulso_contado_duas_vezes :
    ∃ s os s' r, Runs.Permitted passo Valida sthreadUserInit [.mutexInit, .mutexLock 0] ∧
      Runs.run passo sthreadUserInit [.mutexInit, .mutexLock 0] = some (s, os) ∧
      passo s .dispatcher = some (s', r) ∧ Viva s 1 ∧ ¬Partilhado s s' 1 := by
  have hrun : ((Runs.run passo sthreadUserInit [.mutexInit, .mutexLock 0]).bind fun x =>
      (passo x.1 .dispatcher).map fun y => (decide (Viva x.1 1), x.1.activeThr,
        decide (Acrescimo x.1 y.1 1 1 0 0))) = some (true, 1, false) := by decide
  obtain ⟨x, hx, he⟩ := Option.bind_eq_some_iff.mp hrun
  obtain ⟨y, hy, he⟩ := Option.map_eq_some_iff.mp he
  obtain ⟨hviva, he⟩ := Prod.mk.inj he
  obtain ⟨hact, hacr⟩ := Prod.mk.inj he
  exact ⟨x.1, x.2, y.1, y.2, by decide, hx, hy, of_decide_eq_true hviva,
    fun hp => of_decide_eq_false hacr (hp.ativa hact.symm)⟩

end ThreadScheduler.SthreadLib
