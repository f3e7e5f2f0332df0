import ThreadScheduler.SthreadLib.SchedulerFairness
import ThreadScheduler.SthreadLib.SchedulerCreated
import Mathlib.Data.List.Induction

/-!
# The threads that an exit wakes

`sthread_user_exit` drains the join list into the executable tree and into a new list, and then
takes the least node of the tree. The tree loses sight of its least node when a thread is inserted
after one whose `vruntime` is -1, the key of the sentinels.
-/
namespace ThreadScheduler.SthreadLib

open PointerTree RedBlack ArvoreRB Escalonador

/-! ## Insertion of a list of threads -/

/-- The threads are inserted one after another. -/
def inserirTodas (a : ArvoreRB ℕ) (th : ℕ → Sthread) (ts : List ℕ) : ArvoreRB ℕ :=
  ts.foldl (fun a t => rbInserirNo a (th t).vruntime t t) a

theorem inserirTodas_append (a : ArvoreRB ℕ) (th : ℕ → Sthread) (ts us : List ℕ) :
    inserirTodas a th (ts ++ us) = inserirTodas (inserirTodas a th ts) th us :=
  List.foldl_append ..

/-- Only the `vruntime` of the threads counts. -/
theorem inserirTodas_congr {th th' : ℕ → Sthread} (h : ∀ t, (th' t).vruntime = (th t).vruntime)
    (a : ArvoreRB ℕ) (ts : List ℕ) : inserirTodas a th' ts = inserirTodas a th ts := by
  simp only [inserirTodas, h]

/-- The nodes are keyed by the `vruntime` of their threads, and `minimo` is one of them. -/
structure Carregada (a : ArvoreRB ℕ) (th : ℕ → Sthread) : Prop where
  saco : SacoRB a
  no : ∀ p t, a.elem p = some t → a.chave p = (th t).vruntime
  minimo : elementos a ≠ [] → ∃ p t, a.minimo = some p ∧ a.elem p = some t

/-- `minimo` is a node with the least `vruntime`. -/
def MenorCerto (a : ArvoreRB ℕ) (th : ℕ → Sthread) : Prop :=
  ∀ t ∈ elementos a, rbMenorChave a ≤ (th t).vruntime

/-- Of the keys inserted, -1 is the last one if it is the least one. -/
def MinimoVisivel (ks : List ℤ) : Prop :=
  -1 ∈ ks → (∃ k ∈ ks, k < -1) ∨ ks.getLast? = some (-1)

instance (ks : List ℤ) : Decidable (MinimoVisivel ks) := by
  unfold MinimoVisivel
  infer_instance

theorem minimoVisivel_append_singleton (ks : List ℤ) (k : ℤ) :
    MinimoVisivel (ks ++ [k]) ↔ (-1 ∈ ks → (∃ j ∈ ks, j < -1) ∨ k ≤ -1) := by
  have hlast : (ks ++ [k]).getLast? = some k := List.getLast?_concat
  rw [MinimoVisivel, hlast, Option.some.injEq]
  simp only [List.mem_append, List.mem_singleton]
  constructor
  · intro h hm
    rcases h (.inl hm) with ⟨j, hj | rfl, hlt⟩ | rfl
    · exact .inl ⟨j, hj, hlt⟩
    · exact .inr (Int.le_of_lt hlt)
    · exact .inr (Int.le_refl _)
  · intro h hm
    rcases hm with hm | rfl
    · rcases h hm with ⟨j, hj, hlt⟩ | hle
      · exact .inl ⟨j, .inl hj, hlt⟩
      · rcases Int.lt_or_eq_of_le hle with hlt | he
        · exact .inl ⟨k, .inr rfl, hlt⟩
        · exact .inr he
    · exact .inr rfl

namespace Carregada

variable {a : ArvoreRB ℕ} {th : ℕ → Sthread}

/-- The element of a node is in the tree. -/
theorem mem_elementos (h : Carregada a th) {p t : ℕ} (he : a.elem p = some t) :
    t ∈ elementos a := by
  rw [elementos, List.mem_filterMap]
  exact ⟨p, (h.saco.isSome_iff p).mp (by rw [he]; rfl), he⟩

/-- The least key is the `vruntime` of a thread of the tree. -/
theorem exists_menorChave (h : Carregada a th) (hn : elementos a ≠ []) :
    ∃ t ∈ elementos a, rbMenorChave a = (th t).vruntime := by
  obtain ⟨p, t, hm, ht⟩ := h.minimo hn
  exact ⟨t, h.mem_elementos ht, by rw [rbMenorChave, hm]; exact h.no p t ht⟩

/-- The thread of `minimo` is taken out. -/
theorem extrair (h : Carregada a th) (hn : elementos a ≠ []) :
    ∃ a' t, rbExtraiMininimo a = (a', some t) ∧ (th t).vruntime = rbMenorChave a := by
  obtain ⟨p, t, hm, ht⟩ := h.minimo hn
  refine ⟨rbRemoverNo (a.setElem p none) p, t, ?_, ?_⟩
  · rw [rbExtraiMininimo, hm, ← ht]
  · rw [rbMenorChave, hm]
    exact (h.no p t ht).symm

/-- A thread is inserted. It becomes the least one of a tree that is empty, or that the key -1
stands first in. -/
theorem inserir (h : Carregada a th) (u : ℕ) :
    Carregada (rbInserirNo a (th u).vruntime u u) th ∧
      rbMenorChave (rbInserirNo a (th u).vruntime u u) =
        if elementos a = [] ∨ rbMenorChave a = -1 ∨ (th u).vruntime < rbMenorChave a
          then (th u).vruntime else rbMenorChave a := by
  obtain ⟨t, ht, hmin, helem⟩ := h.saco
  have hraiz : raiz ≠ a.prox := Nat.ne_of_lt ht.reservado
  have hfresh : ∀ m, a.minimo = some m → m ≠ a.prox := by
    rintro m hm rfl
    exact (hmin _ hm).elim (fun he => hraiz he.symm) ht.prox_notMem
  obtain ⟨t', fs, -, -, -, -, hkey, helem', -, -, hminimo⟩ :=
    ht.inserir hfresh (th u).vruntime u u
  have hnew : (rbInserirNo a (th u).vruntime u u).chave a.prox = (th u).vruntime := by
    rw [hkey, Function.update_self]
  have hold : ∀ m, a.minimo = some m →
      (rbInserirNo a (th u).vruntime u u).chave m = a.chave m := fun m hm => by
    rw [hkey, Function.update_of_ne (hfresh m hm)]
  have hno : ∀ p v, (rbInserirNo a (th u).vruntime u u).elem p = some v →
      (rbInserirNo a (th u).vruntime u u).chave p = (th v).vruntime := by
    intro p v hv
    rw [helem', Function.update_apply] at hv
    rw [hkey, Function.update_apply]
    split at hv
    · rw [if_pos ‹_›, ← Option.some.inj hv]
    · rw [if_neg ‹_›, h.no p v hv]
  have hself : (rbInserirNo a (th u).vruntime u u).elem a.prox = some u := by
    rw [helem', Function.update_self]
  have hvazia : elementos a = [] ↔ t.toList = [] := by
    rw [← h.saco.vazia_iff, ht.vazia_iff]
  refine ⟨⟨(h.saco.inserir _ _ _).1, hno, fun _ => ?_⟩, ?_⟩
  · rw [hminimo, novoMinimo]
    cases hm : a.minimo with
    | none => exact ⟨_, u, rfl, hself⟩
    | some m =>
        dsimp only
        split
        · exact ⟨_, u, rfl, hself⟩
        · rename_i hc
          rcases hmin m hm with rfl | hmem
          · simp [comparar, ht.chave_raiz] at hc
          · obtain ⟨v, hv⟩ := Option.isSome_iff_exists.mp ((helem m).mpr hmem)
            exact ⟨m, v, rfl, by rw [helem', Function.update_of_ne (hfresh m hm), hv]⟩
  · rw [rbMenorChave, hminimo, novoMinimo]
    cases hm : a.minimo with
    | none =>
        have hnil : elementos a = [] := by
          by_contra hne
          obtain ⟨p, v, hp, -⟩ := h.minimo hne
          rw [hm] at hp
          cases hp
        rw [if_pos (.inl hnil)]
        exact hnew
    | some m =>
        have hk : rbMenorChave a = a.chave m := by rw [rbMenorChave, hm]
        have hc : comparar (a.chave m) (th u).vruntime = 1 ↔
            rbMenorChave a = -1 ∨ (th u).vruntime < rbMenorChave a := by
          rw [hk, comparar]
          split
          · rename_i hor
            exact iff_of_true rfl (hor.symm.imp_right id)
          · rename_i hor
            refine iff_of_false ?_ fun h' => hor h'.symm
            split <;> decide
        have hvaz : elementos a = [] → rbMenorChave a = -1 := by
          intro hnil
          rcases hmin m hm with rfl | hmem
          · rw [hk, ht.chave_raiz]
          · rw [hvazia.mp hnil] at hmem
            exact absurd hmem List.not_mem_nil
        by_cases hone : comparar (a.chave m) (th u).vruntime = 1
        · rw [if_pos (.inr (hc.mp hone))]
          simp only [if_pos hone]
          exact hnew
        · rw [if_neg fun h' => hone (hc.mpr (h'.elim (fun hn => .inl (hvaz hn)) id)), hk]
          simp only [if_neg hone]
          exact hold m hm

/-- One more thread. Below 0 there are only keys that have been inserted, `ks`. -/
theorem menorCerto_inserir_iff (h : Carregada a th) (u : ℕ) {ks : List ℤ}
    (hneg : ∀ t ∈ elementos a, (th t).vruntime < 0 → (th t).vruntime ∈ ks)
    (hks : ∀ j ∈ ks, ∃ t ∈ elementos a, (th t).vruntime = j)
    (hiff : MenorCerto a th ↔ MinimoVisivel ks) :
    MenorCerto (rbInserirNo a (th u).vruntime u u) th ↔
      MinimoVisivel (ks ++ [(th u).vruntime]) := by
  rw [minimoVisivel_append_singleton, MenorCerto]
  simp only [(h.saco.inserir (th u).vruntime u u).2.mem_iff, List.forall_mem_cons, (h.inserir u).2]
  by_cases hnil : elementos a = []
  · -- the first thread
    have hempty : ks = [] := List.eq_nil_iff_forall_not_mem.mpr fun j hj => by
      obtain ⟨t, ht, -⟩ := hks j hj
      rw [hnil] at ht
      exact List.not_mem_nil ht
    simp [hnil, hempty]
  · obtain ⟨t₀, ht₀, hm⟩ := h.exists_menorChave hnil
    by_cases hleast : MenorCerto a th
    · by_cases hone : rbMenorChave a = -1
      · -- the new thread takes the place of one at -1
        have hmem : -1 ∈ ks := by
          rw [← hone, hm]
          exact hneg t₀ ht₀ (by omega)
        rw [if_pos (.inr (.inl hone))]
        constructor
        · rintro ⟨-, hall⟩ -
          have := hall t₀ ht₀
          exact .inr (by omega)
        · intro hvis
          refine ⟨Int.le_refl _, fun t ht => ?_⟩
          have hlow := hleast t ht
          rcases hvis hmem with ⟨j, hj, hlt⟩ | hle
          · obtain ⟨v, hv, rfl⟩ := hks j hj
            have := hleast v hv
            omega
          · omega
      · -- `minimo` stays right
        simp only [hnil, hone, false_or]
        refine iff_of_true ⟨?_, fun t ht => ?_⟩ fun hmem => ?_
        · split <;> omega
        · have := hleast t ht
          split <;> omega
        · obtain ⟨v, hv, hvone⟩ := hks _ hmem
          have hlow := hleast v hv
          refine .inl ⟨_, hneg t₀ ht₀ (by omega), by omega⟩
    · -- -1 is in the tree, and `minimo` is at another key
      have hvis : ¬MinimoVisivel ks := fun hv => hleast (hiff.mpr hv)
      simp only [MinimoVisivel, Classical.not_imp, not_or, not_exists, not_and, Int.not_lt] at hvis
      obtain ⟨hmem, hlow, -⟩ := hvis
      have hall : ∀ t ∈ elementos a, -1 ≤ (th t).vruntime := by
        intro t ht
        by_cases hlt : (th t).vruntime < 0
        · exact hlow _ (hneg t ht hlt)
        · omega
      have hgt : -1 < rbMenorChave a := by
        by_contra hle
        exact hleast fun t ht => by
          have := hall t ht
          omega
      obtain ⟨v, hv, hvone⟩ := hks _ hmem
      constructor
      · rintro ⟨-, hnew⟩ -
        have := hnew v hv
        split at this
        · exact .inr (by omega)
        · omega
      · intro hvis
        rcases hvis hmem with ⟨j, hj, hlt⟩ | hle
        · exact absurd (hlow j hj) (by omega)
        · rw [if_pos (.inr (.inr (by omega)))]
          refine ⟨Int.le_refl _, fun t ht => ?_⟩
          have := hall t ht
          omega

/-- The tree after a list of threads: it holds them as well, and `minimo` is right as long as -1 is
visible. -/
theorem inserirTodas (h : Carregada a th) (hpos : ∀ t ∈ elementos a, 0 ≤ (th t).vruntime)
    (hmenor : MenorCerto a th) (ts : List ℕ) :
    Carregada (inserirTodas a th ts) th ∧
      (elementos (SthreadLib.inserirTodas a th ts)).Perm (ts ++ elementos a) ∧
      (MenorCerto (SthreadLib.inserirTodas a th ts) th ↔
        MinimoVisivel (ts.map fun t => (th t).vruntime)) := by
  induction ts using List.reverseRecOn with
  | nil => exact ⟨h, .refl _, iff_of_true hmenor fun hm => absurd hm List.not_mem_nil⟩
  | append_singleton ts u ih =>
      obtain ⟨hb, hperm, hiff⟩ := ih
      rw [inserirTodas_append, List.map_append]
      refine ⟨(hb.inserir u).1, ?_, hb.menorCerto_inserir_iff u (fun t ht hlt => ?_)
        (fun j hj => ?_) hiff⟩
      · refine (hb.saco.inserir _ _ _).2.trans ((hperm.cons u).trans ?_)
        rw [List.append_assoc]
        exact List.perm_middle.symm
      · rcases List.mem_append.mp (hperm.mem_iff.mp ht) with hm | hm
        · exact List.mem_map_of_mem hm
        · exact absurd (hpos t hm) (by omega)
      · obtain ⟨t, ht, rfl⟩ := List.mem_map.mp hj
        exact ⟨t, hperm.mem_iff.mpr (List.mem_append_left _ ht), rfl⟩

end Carregada

/-! ## Exit -/

variable {s : Escalonador}

/-- The executable tree is ordered by the `vruntime` of its threads, none of which is negative. -/
structure Executavel (a : ArvoreRB ℕ) (th : ℕ → Sthread) : Prop where
  saco : SacoRB a
  fila : ∃ l, FilaRB a l
  no : ∀ p t, a.elem p = some t → a.chave p = (th t).vruntime

theorem Executavel.carregada {a : ArvoreRB ℕ} {th : ℕ → Sthread} (h : Executavel a th) :
    Carregada a th ∧ (∀ t ∈ elementos a, 0 ≤ (th t).vruntime) ∧ MenorCerto a th := by
  obtain ⟨l, hl⟩ := h.fila
  have hno : ∀ t ∈ elementos a, ∃ p ∈ l, a.chave p = (th t).vruntime := by
    intro t ht
    rw [elementos, List.mem_filterMap, hl.emOrdem_eq] at ht
    obtain ⟨p, hp, he⟩ := ht
    exact ⟨p, hp, h.no p t he⟩
  refine ⟨⟨h.saco, h.no, fun hn => ?_⟩, fun t ht => ?_, fun t ht => ?_⟩
  · cases l with
    | nil => exact absurd (h.saco.vazia_iff.mp (hl.vazia_iff.mpr rfl)) hn
    | cons p l =>
        have hsome : (a.elem p).isSome := by
          rw [h.saco.isSome_iff, hl.emOrdem_eq]
          exact List.mem_cons_self
        obtain ⟨u, hu⟩ := Option.isSome_iff_exists.mp hsome
        exact ⟨p, u, hl.minimo rfl, hu⟩
  · obtain ⟨p, hp, he⟩ := hno t ht
    rw [← he]
    exact hl.naoNegativa hp
  · obtain ⟨p, hp, he⟩ := hno t ht
    rw [← he]
    cases l with
    | nil => exact absurd hp List.not_mem_nil
    | cons q l =>
        rw [hl.menorChave rfl]
        rcases List.mem_cons.mp hp with rfl | hp
        · exact Int.le_refl _
        · exact (List.pairwise_cons.mp hl.crescente).1 _ (List.mem_map_of_mem hp)

/-- The threads that wait for the active one, in the order of the join list. -/
def esperam (s : Escalonador) : List ℕ :=
  s.joinThr.filter fun t => (s.thread t).joinTid = s.activeThr

/-- From `s` to `s'` the active thread has ended: its joiners have been inserted into the
executable tree one after another, and the next thread has been taken from there. -/
structure Saida (s s' : Escalonador) : Prop where
  arvore : rbExtraiMininimo (inserirTodas s.exeThr s.thread (esperam s)) =
    (s'.exeThr, some s'.activeThr)
  juncoes : s'.joinThr = s.joinThr.filter fun t => (s.thread t).joinTid ≠ s.activeThr
  mortas : s'.deadThr = if esperam s = [] then s.deadThr else s.deadThr ++ [s.activeThr]
  zombies : s'.zombieThr = if esperam s = [] then s.zombieThr ++ [s.activeThr] else s.zombieThr

/-- No thread of the tree from which the next one is taken has a lower `vruntime`. -/
def SaidaCerta (s : Escalonador) (ret : ℕ) : Prop :=
  ∃ s' r, sthreadUserExit s ret = .segue s' r ∧ Saida s s' ∧
    ∀ t ∈ elementos (inserirTodas s.exeThr s.thread (esperam s)),
      (s.thread s'.activeThr).vruntime ≤ (s.thread t).vruntime

/-- The loop inserts the joiners in the order of the list. -/
theorem foldl_passoExit_exeThr (ret : ℕ) (rem : List ℕ) (s : Escalonador) (tmp : List ℕ)
    (z : Bool) : (rem.foldl (passoExit ret) (s, tmp, z)).1.exeThr = inserirTodas s.exeThr s.thread
      (rem.filter fun t => (s.thread t).joinTid = s.activeThr) := by
  induction rem generalizing s tmp z with
  | nil => rfl
  | cons u rem ih =>
      rw [List.foldl_cons]
      by_cases hu : (s.thread u).joinTid = s.activeThr
      · let s₁ := (s.mudar u fun th => { th with joinRet := ret }).rbInserir u
        have hkeep : ∀ t, (s₁.thread t).joinTid = (s.thread t).joinTid ∧
            (s₁.thread t).vruntime = (s.thread t).vruntime := by
          intro t
          simp only [s₁, Escalonador.rbInserir, Escalonador.mudar, Function.update_apply]
          split
          · rename_i he
            rw [he]
            exact ⟨rfl, rfl⟩
          · exact ⟨rfl, rfl⟩
        have hexe : s₁.exeThr = rbInserirNo s.exeThr (s.thread u).vruntime u u := by
          simp [s₁, Escalonador.rbInserir, Escalonador.mudar]
        have hstep : passoExit ret (s, tmp, z) u = (s₁, tmp, false) := if_pos hu
        rw [hstep, ih, inserirTodas_congr fun t => (hkeep t).2, hexe,
          List.filter_cons_of_pos (by rw [hu]; exact decide_eq_true rfl)]
        simp only [(hkeep _).1]
        rfl
      · have hstep : passoExit ret (s, tmp, z) u = (s, tmp ++ [u], z) := if_neg hu
        rw [hstep, ih, List.filter_cons_of_neg (by simp [hu])]

/-- An exit wakes the joiners of its thread, keeps the others, and hands over the processor if
there is an executable thread then. -/
theorem sthreadUserExit_saida (h : Carregada (inserirTodas s.exeThr s.thread (esperam s)) s.thread)
    (hn : elementos (inserirTodas s.exeThr s.thread (esperam s)) ≠ []) (ret : ℕ) :
    ∃ s' r, sthreadUserExit s ret = .segue s' r ∧ Saida s s' ∧
      (s.thread s'.activeThr).vruntime =
        rbMenorChave (inserirTodas s.exeThr s.thread (esperam s)) := by
  obtain ⟨exe, th, hr, -⟩ := foldl_passoExit ret s.joinThr s [] true
  have hexe : exe = inserirTodas s.exeThr s.thread (esperam s) := by
    have := foldl_passoExit_exeThr ret s.joinThr s [] true
    rwa [hr] at this
  obtain ⟨a', t, hx, hv⟩ := h.extrair hn
  have hcheia : rbArvoreVazia exe = false := by
    rw [hexe, ← Bool.not_eq_true, h.saco.vazia_iff]
    exact hn
  have hz : (true && s.joinThr.all fun t => decide ((s.thread t).joinTid ≠ s.activeThr)) =
      decide (esperam s = []) := by
    rw [Bool.true_and, Bool.eq_iff_iff, decide_eq_true_iff, esperam, List.filter_eq_nil_iff,
      List.all_eq_true]
    simp only [ne_eq, decide_not, Bool.not_eq_true', decide_eq_false_iff_not, decide_eq_true_eq]
  rw [sthreadUserExit, hr, hz, List.nil_append]
  rw [← hexe] at hx
  refine ⟨{ s with
    exeThr := a'
    activeThr := t
    thread := th
    joinThr := s.joinThr.filter fun t => (s.thread t).joinTid ≠ s.activeThr
    deadThr := if esperam s = [] then s.deadThr else s.deadThr ++ [s.activeThr]
    zombieThr := if esperam s = [] then s.zombieThr ++ [s.activeThr] else s.zombieThr
    ponto := Function.update s.ponto s.activeThr .terminada }, .trocou exe.minimo, ?_,
    ⟨hexe ▸ hx, rfl, rfl, rfl⟩, hv⟩
  by_cases hnil : esperam s = []
  · simp only [hnil, decide_true, if_true, hcheia, Bool.false_eq_true, if_false, comutar,
      Escalonador.parar, hx]
  · simp only [hnil, decide_false, hcheia, Bool.false_eq_true, if_false, comutar,
      Escalonador.parar, hx]

theorem saidaCerta_iff_menorCerto {ret : ℕ} (hexe : Executavel s.exeThr s.thread)
    (halgum : elementos s.exeThr ≠ [] ∨ esperam s ≠ []) : SaidaCerta s ret ↔
      MenorCerto (inserirTodas s.exeThr s.thread (esperam s)) s.thread := by
  obtain ⟨hc, hpos, hmenor⟩ := hexe.carregada
  obtain ⟨h, hperm, -⟩ := hc.inserirTodas hpos hmenor (esperam s)
  have hn : elementos (inserirTodas s.exeThr s.thread (esperam s)) ≠ [] := by
    intro hnil
    rw [hnil] at hperm
    have hboth := List.append_eq_nil_iff.mp hperm.nil_eq.symm
    exact halgum.elim (fun h' => h' hboth.2) (fun h' => h' hboth.1)
  obtain ⟨s', r, he, hs, hv⟩ := sthreadUserExit_saida h hn ret
  rw [MenorCerto, ← hv]
  constructor
  · rintro ⟨s'', r'', he'', -, hleast⟩
    obtain ⟨rfl, -⟩ := Resultado.segue.inj (he.symm.trans he'')
    exact hleast
  · exact fun hleast => ⟨s', r, he, hs, hleast⟩

/-- An exit does what it should exactly when -1 is visible among the joiners. -/
theorem saidaCerta_iff (s : Escalonador) (ret : ℕ) (hexe : Executavel s.exeThr s.thread)
    (halgum : elementos s.exeThr ≠ [] ∨ esperam s ≠ []) :
    SaidaCerta s ret ↔ MinimoVisivel ((esperam s).map fun t => (s.thread t).vruntime) := by
  obtain ⟨hc, hpos, hmenor⟩ := hexe.carregada
  rw [saidaCerta_iff_menorCerto hexe halgum]
  exact (hc.inserirTodas hpos hmenor (esperam s)).2.2

/-- The states of a run in which the executable tree is in order. -/
theorem Arrumado.executavel {l : List ℕ} (h : Arrumado Justo s l) :
    Executavel s.exeThr s.thread := by
  obtain ⟨ns, hns, -⟩ := h.guarda.fila
  exact ⟨h.exe, ⟨ns, hns⟩, fun p t he => (h.guarda.no p t he).1⟩

/-- An executable tree that holds no thread. -/
theorem SacoRB.executavel {a : ArvoreRB ℕ} (h : SacoRB a) (hn : elementos a = [])
    (th : ℕ → Sthread) : Executavel a th := by
  obtain ⟨t, ht, hmin, helem⟩ := h
  have hnil : t.toList = [] := by
    rw [← ht.vazia_iff, SacoRB.vazia_iff ⟨t, ht, hmin, helem⟩]
    exact hn
  refine ⟨⟨t, ht, hmin, helem⟩, ⟨[], t, ht, ⟨?_, ?_⟩, ?_, hnil⟩, fun p u hp => ?_⟩
  · rw [hnil]
    exact List.Pairwise.nil
  · rw [hnil]
    exact fun p hp => absurd hp List.not_mem_nil
  · rw [MinimoCerto, hnil]
    cases hm : a.minimo with
    | none => exact .inl rfl
    | some m =>
        have hm' := hmin m hm
        rw [hnil] at hm'
        obtain rfl := hm'.resolve_right List.not_mem_nil
        exact .inr ⟨rfl, rfl⟩
  · have hsome := (helem p).mp (by rw [hp]; rfl)
    rw [hnil] at hsome
    exact absurd hsome List.not_mem_nil

/-- Threads 1 and 3 wait for thread 2, thread 4 for thread 3, thread 5 has ended with none waiting,
and thread 6 gives way to thread 2. -/
def chamadasJuncoes : List Chamada :=
  [.create 1, .create 1, .create 1, .create 1, .create 1, .join 2, .yield, .join 2, .join 3, .exit 9,
    .yield]

/-- Thread 2 ends, and wakes two of the three threads in the join list. -/
theorem saidaCerta_iff_exemplo :
    ∃ s os, Runs.run passo sthreadUserInit chamadasJuncoes = some (s, os) ∧
      (s.activeThr = 2 ∧ esperam s = [1, 3] ∧ s.joinThr = [1, 3, 4] ∧ s.zombieThr = [5] ∧
        elementos s.exeThr = [6]) ∧ SaidaCerta s 7 := by
  obtain ⟨s, os, hrun, hs, hvis⟩ : ∃ s os,
      Runs.run passo sthreadUserInit chamadasJuncoes = some (s, os) ∧
      (s.activeThr = 2 ∧ esperam s = [1, 3] ∧ s.joinThr = [1, 3, 4] ∧ s.zombieThr = [5] ∧
        elementos s.exeThr = [6]) ∧ MinimoVisivel ((esperam s).map fun t => (s.thread t).vruntime) :=
    Runs.exists_run_of_any (by decide +kernel)
  have hexe := (run_justo (by decide +kernel) hrun).executavel
  have halgum : elementos s.exeThr ≠ [] ∨ esperam s ≠ [] := .inl (by simp [hs.2.2.2.2])
  exact ⟨s, os, hrun, hs, (saidaCerta_iff s 7 hexe halgum).mpr hvis⟩

/-- Thread 3, created at -1, waits for thread 2 before the main thread does, which is at 0. When
thread 2 ends the main thread is active. -/
theorem saida_escolhe_segunda :
    ∃ s os, Runs.Permitted passo Valida sthreadUserInit [.create 1, .sleep 10000, .create 1,
        .sleep 10000, .dispatcher, .resume, .dispatcher, .resume, .join 2, .join 2] ∧
      Runs.run passo sthreadUserInit [.create 1, .sleep 10000, .create 1, .sleep 10000,
        .dispatcher, .resume, .dispatcher, .resume, .join 2, .join 2] = some (s, os) ∧
      (Executavel s.exeThr s.thread ∧ esperam s = [3, 1]) ∧ ¬SaidaCerta s 0 := by
  obtain ⟨s, os, hrun, hvazia, hwait, hthree, hone⟩ : ∃ s os,
      Runs.run passo sthreadUserInit [.create 1, .sleep 10000, .create 1, .sleep 10000,
        .dispatcher, .resume, .dispatcher, .resume, .join 2, .join 2] = some (s, os) ∧
      elementos s.exeThr = [] ∧ esperam s = [3, 1] ∧ (s.thread 3).vruntime = -1 ∧
      (s.thread 1).vruntime = 0 :=
    Runs.exists_run_of_any (by decide +kernel)
  have hexe := (run_povoado hrun).exe.executavel hvazia s.thread
  have halgum : elementos s.exeThr ≠ [] ∨ esperam s ≠ [] := .inr (by simp [hwait])
  refine ⟨s, os, by decide +kernel, hrun, ⟨hexe, hwait⟩, fun hright => ?_⟩
  obtain ⟨hc, hpos, hmenor⟩ := hexe.carregada
  rw [saidaCerta_iff_menorCerto hexe halgum,
    (hc.inserirTodas hpos hmenor (esperam s)).2.2, hwait] at hright
  simp [MinimoVisivel, hthree, hone] at hright

end ThreadScheduler.SthreadLib
