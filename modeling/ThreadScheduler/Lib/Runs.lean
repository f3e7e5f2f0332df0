import Mathlib.Data.Int.Notation
import Mathlib.Data.List.Basic

/-!
# Runs of a partial machine

A call takes a state to a state and an answer, or stops the machine (`none`). The rules
here lift what one call does to every run: it does not stop, it keeps an invariant, and
it is mirrored by a model that sees the calls and their answers only.
-/
namespace Runs

variable {σ α ω τ : Type*}

/-- The calls one after another, with their answers. -/
def run (step : σ → α → Option (σ × ω)) : σ → List α → Option (σ × List ω)
  | s, [] => some (s, [])
  | s, a :: as => (step s a).bind fun r => (run step r.1 as).map fun t => (t.1, r.2 :: t.2)

/-- The steps of a run, up to the call that stops the machine: the state before the call, the call
and its answer. -/
def steps (step : σ → α → Option (σ × ω)) : σ → List α → List (σ × α × ω)
  | _, [] => []
  | s, a :: as =>
      match step s a with
      | none => []
      | some r => (s, a, r.2) :: steps step r.1 as

/-- Every call of the run is made in a state that permits it. -/
def Permitted (step : σ → α → Option (σ × ω)) (P : σ → α → Prop) : σ → List α → Prop
  | _, [] => True
  | s, a :: as => P s a ∧ ∀ s' o, step s a = some (s', o) → Permitted step P s' as

theorem permitted_cons_iff {step : σ → α → Option (σ × ω)} {P : σ → α → Prop} {s : σ} {a : α}
    {as : List α} : Permitted step P s (a :: as) ↔
      P s a ∧ ∀ r ∈ step s a, Permitted step P r.1 as := by
  refine and_congr_right fun _ => ⟨fun h r hr => h r.1 r.2 hr, fun h s' o hs => h (s', o) hs⟩

instance decidablePermitted (step : σ → α → Option (σ × ω)) (P : σ → α → Prop)
    [hP : ∀ s a, Decidable (P s a)] : ∀ (as : List α) (s : σ), Decidable (Permitted step P s as)
  | [], _ => isTrue trivial
  | a :: as, s =>
      match hP s a with
      | isFalse h => isFalse fun hp => h hp.1
      | isTrue h =>
          match hs : step s a with
          | none => isTrue ⟨h, fun s' o he => by simp [hs] at he⟩
          | some r =>
              match decidablePermitted step P as r.1 with
              | isTrue ht => isTrue (permitted_cons_iff.mpr ⟨h, fun r' hr' => by
                  obtain rfl := Option.some.inj (hs.symm.trans hr')
                  exact ht⟩)
              | isFalse hf => isFalse fun hp => hf ((permitted_cons_iff.mp hp).2 r hs)

/-- The states of a model that is told each call and its answer. -/
def replay (next : τ → α → ω → τ) : τ → List α → List ω → τ
  | m, a :: as, o :: os => replay next (next m a o) as os
  | m, _, _ => m

variable {step : σ → α → Option (σ × ω)} {P : σ → α → Prop} {I : σ → Prop}

theorem run_cons_eq_some {s s'' : σ} {a : α} {as : List α} {os : List ω}
    (h : run step s (a :: as) = some (s'', os)) :
    ∃ s' o os', step s a = some (s', o) ∧ run step s' as = some (s'', os') ∧ os = o :: os' := by
  obtain ⟨⟨s', o⟩, hs, h⟩ := Option.bind_eq_some_iff.mp h
  obtain ⟨⟨t, os'⟩, hr, he⟩ := Option.map_eq_some_iff.mp h
  obtain ⟨rfl, rfl⟩ := Prod.mk.inj he
  exact ⟨s', o, os', hs, hr, rfl⟩

/-- A run that is evaluated, with what is read off the state it reaches. -/
theorem exists_run_of_any {Q : σ → Prop} [DecidablePred Q] {s : σ} {as : List α}
    (h : (run step s as).any (fun r => decide (Q r.1)) = true) :
    ∃ s' os, run step s as = some (s', os) ∧ Q s' := by
  cases hr : run step s as with
  | none => simp [hr] at h
  | some r => exact ⟨r.1, r.2, rfl, by simpa [hr] using h⟩

theorem run_one {s s' : σ} {a : α} {o : ω} (h : step s a = some (s', o)) :
    run step s [a] = some (s', [o]) := by
  rw [run, h]
  rfl

theorem mem_steps_cons {s : σ} {a : α} {as : List α} {x : σ × α × ω}
    (h : x ∈ steps step s (a :: as)) :
    ∃ s' o, step s a = some (s', o) ∧ (x = (s, a, o) ∨ x ∈ steps step s' as) := by
  rw [steps] at h
  split at h
  · exact absurd h List.not_mem_nil
  · rename_i r hr
    exact ⟨r.1, r.2, hr, List.mem_cons.mp h⟩

theorem run_append {s s' s'' : σ} {as bs : List α} {os os' : List ω}
    (h : run step s as = some (s', os)) (h' : run step s' bs = some (s'', os')) :
    run step s (as ++ bs) = some (s'', os ++ os') := by
  induction as generalizing s os with
  | nil =>
      obtain ⟨rfl, rfl⟩ := Prod.mk.inj (Option.some.inj h)
      exact h'
  | cons a as ih =>
      obtain ⟨s₁, o, os₁, hs, hr, rfl⟩ := run_cons_eq_some h
      simp [run, hs, ih hr]

theorem run_append_eq_some {s s'' : σ} {as bs : List α} {os : List ω}
    (h : run step s (as ++ bs) = some (s'', os)) :
    ∃ s' os₁ os₂, run step s as = some (s', os₁) ∧ run step s' bs = some (s'', os₂) ∧
      os = os₁ ++ os₂ := by
  induction as generalizing s os with
  | nil => exact ⟨s, [], os, rfl, h, rfl⟩
  | cons a as ih =>
      obtain ⟨s₁, o, os', hs, hr, rfl⟩ := run_cons_eq_some h
      obtain ⟨s', os₁, os₂, h₁, h₂, rfl⟩ := ih hr
      exact ⟨s', o :: os₁, os₂, by simp [run, hs, h₁], h₂, rfl⟩

/-- Calls that every state permits. -/
theorem permitted_of_forall {s : σ} {as : List α} (h : ∀ a ∈ as, ∀ s, P s a) :
    Permitted step P s as := by
  induction as generalizing s with
  | nil => trivial
  | cons a as ih =>
      exact ⟨h a List.mem_cons_self s, fun s' o _ => ih fun b hb => h b (List.mem_cons_of_mem a hb)⟩

/-- A weaker condition permits the run as well. -/
theorem Permitted.mono {Q : σ → α → Prop} (hPQ : ∀ s a, P s a → Q s a) {s : σ} {as : List α}
    (h : Permitted step P s as) : Permitted step Q s as := by
  induction as generalizing s with
  | nil => trivial
  | cons a as ih => exact ⟨hPQ s a h.1, fun s' o hs => ih (h.2 s' o hs)⟩

/-- A condition that follows from another one wherever an invariant holds. -/
theorem Permitted.of_invariant {Q : σ → α → Prop} (hPQ : ∀ s a, I s → P s a → Q s a)
    (hstep : ∀ s a s' o, I s → P s a → step s a = some (s', o) → I s') {s : σ} {as : List α}
    (hI : I s) (h : Permitted step P s as) : Permitted step Q s as := by
  induction as generalizing s with
  | nil => trivial
  | cons a as ih =>
      exact ⟨hPQ s a hI h.1, fun s' o hs => ih (hstep s a s' o hI h.1 hs) (h.2 s' o hs)⟩

/-- Two conditions that agree wherever an invariant holds, which the calls keep that meet one. -/
theorem permitted_congr {Q R : σ → α → Prop} (hQR : ∀ s a, I s → P s a → (Q s a ↔ R s a))
    (hstep : ∀ s a s' o, I s → P s a → Q s a → step s a = some (s', o) → I s') {s : σ}
    {as : List α} (hI : I s) (hP : Permitted step P s as) :
    Permitted step Q s as ↔ Permitted step R s as := by
  induction as generalizing s with
  | nil => exact Iff.rfl
  | cons a as ih =>
      refine ⟨fun h => ⟨(hQR s a hI hP.1).mp h.1, fun s' o hs => ?_⟩,
        fun h => ⟨(hQR s a hI hP.1).mpr h.1, fun s' o hs => ?_⟩⟩
      · exact (ih (hstep s a s' o hI hP.1 h.1 hs) (hP.2 s' o hs)).mp (h.2 s' o hs)
      · have hq := (hQR s a hI hP.1).mpr h.1
        exact (ih (hstep s a s' o hI hP.1 hq hs) (hP.2 s' o hs)).mpr (h.2 s' o hs)

theorem permitted_append {s : σ} {as bs : List α} (h : Permitted step P s as)
    (h' : ∀ s' os, run step s as = some (s', os) → Permitted step P s' bs) :
    Permitted step P s (as ++ bs) := by
  induction as generalizing s with
  | nil => exact h' s [] rfl
  | cons a as ih =>
      refine ⟨h.1, fun s₁ o hs => ih (h.2 s₁ o hs) fun s' os hr => h' s' (o :: os) ?_⟩
      simp [run, hs, hr]

theorem permitted_of_append {s : σ} {as bs : List α} (h : Permitted step P s (as ++ bs)) :
    Permitted step P s as ∧
      ∀ s' os, run step s as = some (s', os) → Permitted step P s' bs := by
  induction as generalizing s with
  | nil =>
      refine ⟨trivial, fun s' os hr => ?_⟩
      obtain ⟨rfl, -⟩ := Prod.mk.inj (Option.some.inj hr)
      exact h
  | cons a as ih =>
      refine ⟨⟨h.1, fun s₁ o hs => (ih (h.2 s₁ o hs)).1⟩, fun s' os hr => ?_⟩
      obtain ⟨s₁, o, os', hs, hr', -⟩ := run_cons_eq_some hr
      exact (ih (h.2 s₁ o hs)).2 s' os' hr'

/-- An invariant that every permitted call keeps holds at the end of every run. -/
theorem run_invariant (hstep : ∀ s a s' o, I s → P s a → step s a = some (s', o) → I s')
    {s s' : σ} {as : List α} {os : List ω} (hI : I s) (hP : Permitted step P s as)
    (hr : run step s as = some (s', os)) : I s' := by
  induction as generalizing s os with
  | nil =>
      obtain ⟨rfl, -⟩ := Prod.mk.inj (Option.some.inj hr)
      exact hI
  | cons a as ih =>
      obtain ⟨s₁, o, os', hs, hr', -⟩ := run_cons_eq_some hr
      exact ih (hstep s a s₁ o hI hP.1 hs) (hP.2 s₁ o hs) hr'

/-- Where a call keeps a property of the state exactly if it is permitted, the states that a run
passes all have the property if and only if every call of the run is permitted. -/
theorem permitted_iff_invariant {s : σ} {as : List α}
    (hstep : ∀ s, ∀ a ∈ as, I s → (P s a ↔ ∀ s' o, step s a = some (s', o) → I s'))
    (hI : I s) : Permitted step P s as ↔
      ∀ bs, bs <+: as → ∀ s' os, run step s bs = some (s', os) → I s' := by
  induction as generalizing s with
  | nil =>
      refine iff_of_true trivial fun bs hbs s' os hr => ?_
      obtain rfl := List.prefix_nil.mp hbs
      obtain ⟨rfl, -⟩ := Prod.mk.inj (Option.some.inj hr)
      exact hI
  | cons a as ih =>
      have ih := fun {t : σ} => @ih t fun s b hb => hstep s b (List.mem_cons_of_mem a hb)
      rw [Permitted, hstep s a List.mem_cons_self hI]
      constructor
      · rintro ⟨ha, has⟩ bs hbs s' os hr
        obtain rfl | ⟨bs, rfl, htail⟩ := List.prefix_cons_iff.mp hbs
        · obtain ⟨rfl, -⟩ := Prod.mk.inj (Option.some.inj hr)
          exact hI
        · obtain ⟨s₁, o, os', hs, hr, -⟩ := run_cons_eq_some hr
          exact (ih (ha s₁ o hs)).mp (has s₁ o hs) bs htail s' os' hr
      · intro h
        have ha : ∀ s' o, step s a = some (s', o) → I s' := fun s' o hs =>
          h [a] (List.prefix_cons_inj a |>.mpr (List.nil_prefix)) s' [o] (run_one hs)
        refine ⟨ha, fun s' o hs => (ih (ha s' o hs)).mpr fun bs hbs s'' os hr => ?_⟩
        exact h (a :: bs) ((List.prefix_cons_inj a).mpr hbs) s'' (o :: os) (by simp [run, hs, hr])

/-- A potential that every permitted call of a kind raises, and no permitted call lowers, bounds how
many calls of that kind a run has. -/
theorem run_countP_le {p : α → Bool} {φ : σ → ℤ}
    (hstep : ∀ s a s' o, I s → P s a → step s a = some (s', o) →
      I s' ∧ φ s + (if p a then 1 else 0) ≤ φ s') {s s' : σ} {as : List α} {os : List ω}
    (hI : I s) (hP : Permitted step P s as) (hr : run step s as = some (s', os)) :
    φ s + (as.countP p : ℤ) ≤ φ s' := by
  induction as generalizing s os with
  | nil =>
      obtain ⟨rfl, -⟩ := Prod.mk.inj (Option.some.inj hr)
      simp
  | cons a as ih =>
      obtain ⟨s₁, o, os', hs, hr', -⟩ := run_cons_eq_some hr
      obtain ⟨hI₁, hle⟩ := hstep s a s₁ o hI hP.1 hs
      have := ih hI₁ (hP.2 s₁ o hs) hr'
      rw [List.countP_cons]
      split at hle <;> simp_all <;> omega

theorem run_length {s s' : σ} {as : List α} {os : List ω} (hr : run step s as = some (s', os)) :
    os.length = as.length := by
  induction as generalizing s os with
  | nil =>
      obtain ⟨-, rfl⟩ := Prod.mk.inj (Option.some.inj hr)
      rfl
  | cons a as ih =>
      obtain ⟨s₁, o, os', -, hr', rfl⟩ := run_cons_eq_some hr
      rw [List.length_cons, List.length_cons, ih hr']

/-- An invariant that speaks of what has happened as well. -/
theorem run_history {next : τ → σ × α × ω → τ} {J : τ → σ → Prop}
    (hstep : ∀ m s a s' o, J m s → P s a → step s a = some (s', o) → J (next m (s, a, o)) s')
    {s s' : σ} {m : τ} {as : List α} {os : List ω} (hJ : J m s) (hP : Permitted step P s as)
    (hr : run step s as = some (s', os)) : J ((steps step s as).foldl next m) s' := by
  induction as generalizing s m os with
  | nil =>
      obtain ⟨rfl, -⟩ := Prod.mk.inj (Option.some.inj hr)
      exact hJ
  | cons a as ih =>
      obtain ⟨s₁, o, os', hs, hr', -⟩ := run_cons_eq_some hr
      have := ih (hstep m s a s₁ o hJ hP.1 hs) (hP.2 s₁ o hs) hr'
      rwa [steps, hs, List.foldl_cons]

/-- An invariant that speaks of the answers given so far. -/
theorem run_outputs {J : List ω → σ → Prop}
    (hstep : ∀ os s a s' o, J os s → P s a → step s a = some (s', o) → J (os ++ [o]) s')
    {s s' : σ} {as : List α} {os₀ os : List ω} (hJ : J os₀ s) (hP : Permitted step P s as)
    (hr : run step s as = some (s', os)) : J (os₀ ++ os) s' := by
  induction as generalizing s os₀ os with
  | nil =>
      obtain ⟨rfl, rfl⟩ := Prod.mk.inj (Option.some.inj hr)
      rwa [List.append_nil]
  | cons a as ih =>
      obtain ⟨s₁, o, os', hs, hr', rfl⟩ := run_cons_eq_some hr
      have := ih (hstep os₀ s a s₁ o hJ hP.1 hs) (hP.2 s₁ o hs) hr'
      rwa [List.append_assoc] at this

/-- If no permitted call stops in a state of the invariant, no run stops. -/
theorem run_total (hstep : ∀ s a, I s → P s a → ∃ s' o, step s a = some (s', o) ∧ I s')
    {s : σ} {as : List α} (hI : I s) (hP : Permitted step P s as) :
    ∃ s' os, run step s as = some (s', os) ∧ I s' := by
  induction as generalizing s with
  | nil => exact ⟨s, [], rfl, hI⟩
  | cons a as ih =>
      obtain ⟨s₁, o, hs, hI₁⟩ := hstep s a hI hP.1
      obtain ⟨s', os, hr, hI'⟩ := ih hI₁ (hP.2 s₁ o hs)
      exact ⟨s', o :: os, by simp [run, hs, hr], hI'⟩

/-- Two machines whose related states answer every permitted call alike, and stay related,
answer every run alike. -/
theorem run_simulates {step' : τ → α → Option (τ × ω)} {R : σ → τ → Prop}
    (hstep : ∀ s m a, R s m → P s a →
      ∃ s' m' o, step s a = some (s', o) ∧ step' m a = some (m', o) ∧ R s' m')
    {s : σ} {m : τ} {as : List α} (hR : R s m) (hP : Permitted step P s as) :
    ∃ s' m' os, run step s as = some (s', os) ∧ run step' m as = some (m', os) ∧ R s' m' := by
  induction as generalizing s m with
  | nil => exact ⟨s, m, [], rfl, rfl, hR⟩
  | cons a as ih =>
      obtain ⟨s₁, m₁, o, hs, hm, hR₁⟩ := hstep s m a hR hP.1
      obtain ⟨s', m', os, hr, hr', hR'⟩ := ih hR₁ (hP.2 s₁ o hs)
      exact ⟨s', m', o :: os, by simp [run, hs, hr], by simp [run, hm, hr'], hR'⟩

/-- A model that mirrors every call mirrors every run. -/
theorem run_refines (next : τ → α → ω → τ) (abs : σ → τ)
    (hstep : ∀ s a s' o, I s → P s a → step s a = some (s', o) →
      I s' ∧ abs s' = next (abs s) a o)
    {s s' : σ} {as : List α} {os : List ω} (hI : I s) (hP : Permitted step P s as)
    (hr : run step s as = some (s', os)) : abs s' = replay next (abs s) as os := by
  induction as generalizing s os with
  | nil =>
      obtain ⟨rfl, rfl⟩ := Prod.mk.inj (Option.some.inj hr)
      rfl
  | cons a as ih =>
      obtain ⟨s₁, o, os', hs, hr', rfl⟩ := run_cons_eq_some hr
      obtain ⟨hI₁, he⟩ := hstep s a s₁ o hI hP.1 hs
      rw [ih hI₁ (hP.2 s₁ o hs) hr', he]
      rfl

/-- The calls and answers that take a model from one state to another, where what a call may do is
a relation. -/
inductive Trace (R : τ → α → ω → τ → Prop) : τ → List α → List ω → τ → Prop
  | nil (m : τ) : Trace R m [] [] m
  | cons {m m₁ m' : τ} {a : α} {o : ω} {as : List α} {os : List ω} (h : R m a o m₁)
      (ht : Trace R m₁ as os m') : Trace R m (a :: as) (o :: os) m'

/-- A model that allows what every call does allows every run, and no permitted call stops. -/
theorem run_trace {R : τ → α → ω → τ → Prop} (abs : σ → τ)
    (hstep : ∀ s a, I s → P s a → ∃ s' o, step s a = some (s', o) ∧ I s' ∧ R (abs s) a o (abs s'))
    {s : σ} {as : List α} (hI : I s) (hP : Permitted step P s as) :
    ∃ s' os, run step s as = some (s', os) ∧ I s' ∧ Trace R (abs s) as os (abs s') := by
  induction as generalizing s with
  | nil => exact ⟨s, [], rfl, hI, .nil _⟩
  | cons a as ih =>
      obtain ⟨s₁, o, hs, hI₁, hR⟩ := hstep s a hI hP.1
      obtain ⟨s', os, hr, hI', ht⟩ := ih hI₁ (hP.2 s₁ o hs)
      exact ⟨s', o :: os, by simp [run, hs, hr], hI', .cons hR ht⟩

end Runs
