import ThreadScheduler.SnfsServer.Cache

/-!
# Coherence of the block cache

The cache together with the disk behind it is one block store: `conteudo` is what
a block holds in it, whether that content stands in a valid entry or on disk. An
eviction or a sweep only moves content from an entry to the disk (`Settled`), a
read or a write leaves its block in a valid entry (`Holds`).
-/
namespace ThreadScheduler.SnfsServer

namespace CacheT

/-- The block has a valid entry. -/
def Valid (cache : CacheT) (b : ℕ) : Prop :=
  ∃ e, hashGet cache.tabela b = some e ∧ e.valido = true

/-- The content of a block as the cache shows it. -/
def conteudo (cache : CacheT) (b : ℕ) : Block :=
  match hashGet cache.tabela b with
  | some e => if e.valido then e.conteudobloco else cache.disco.blocks b
  | none => cache.disco.blocks b

/-- A valid entry that is not modified agrees with the disk, and every cached block
is on the disk. -/
structure Coherent (cache : CacheT) : Prop where
  tabela : cache.tabela.WellFormed
  clean : ∀ b e, hashGet cache.tabela b = some e → e.valido = true → e.modificado = false →
    e.conteudobloco = cache.disco.blocks b
  inRange : ∀ b e, hashGet cache.tabela b = some e → b < cache.disco.numBlocks

theorem conteudo_of_valid {cache : CacheT} {b : ℕ} {e : Icache}
    (h : hashGet cache.tabela b = some e) (hv : e.valido = true) :
    cache.conteudo b = e.conteudobloco := by simp [conteudo, h, hv]

theorem conteudo_of_invalid {cache : CacheT} {b : ℕ} {e : Icache}
    (h : hashGet cache.tabela b = some e) (hv : e.valido = false) :
    cache.conteudo b = cache.disco.blocks b := by simp [conteudo, h, hv]

theorem conteudo_of_none {cache : CacheT} {b : ℕ} (h : hashGet cache.tabela b = none) :
    cache.conteudo b = cache.disco.blocks b := by simp [conteudo, h]

/-- Without a valid entry the disk itself is the content. -/
theorem conteudo_of_not_valid {cache : CacheT} {b : ℕ} (h : ¬ cache.Valid b) :
    cache.conteudo b = cache.disco.blocks b := by
  cases hg : hashGet cache.tabela b with
  | none => exact conteudo_of_none hg
  | some e =>
      cases hv : e.valido with
      | false => exact conteudo_of_invalid hg hv
      | true => exact absurd ⟨e, hg, hv⟩ h

theorem not_valid_of_none {cache : CacheT} {b : ℕ} (h : hashGet cache.tabela b = none) :
    ¬ cache.Valid b := by
  rintro ⟨e, he, -⟩
  simp [h] at he

/-- A clean entry and an entry of the disk show the same content. -/
theorem Coherent.conteudo_of_clean {cache : CacheT} (hc : cache.Coherent) {b : ℕ} {e : Icache}
    (h : hashGet cache.tabela b = some e) (hm : e.modificado = false) :
    cache.conteudo b = cache.disco.blocks b := by
  cases hv : e.valido with
  | false => exact conteudo_of_invalid h hv
  | true => rw [conteudo_of_valid h hv, hc.clean b e h hv hm]

end CacheT

/-- What a reader of the cache can tell apart in an entry. -/
def Icache.vista (e : Icache) : Bool × Bool × Block := (e.valido, e.modificado, e.conteudobloco)

/-- The block is as it was in `c`, up to age and reference bit. -/
def SameAt (c c' : CacheT) (b : ℕ) : Prop :=
  (hashGet c'.tabela b).map Icache.vista = (hashGet c.tabela b).map Icache.vista ∧
    c'.disco.blocks b = c.disco.blocks b

/-- The block has been taken out of the cache and its content is on disk. -/
def EvictedAt (c c' : CacheT) (b : ℕ) : Prop :=
  hashGet c'.tabela b = none ∧ c'.disco.blocks b = c.conteudo b

/-- `c'` is `c` after evictions and sweeps: every block is as it was or was evicted. -/
structure Settled (c c' : CacheT) : Prop where
  numBlocks : c'.disco.numBlocks = c.disco.numBlocks
  wellFormed : c.tabela.WellFormed → c'.tabela.WellFormed
  blocks : ∀ b, SameAt c c' b ∨ EvictedAt c c' b

theorem SameAt.refl (c : CacheT) (b : ℕ) : SameAt c c b := ⟨rfl, rfl⟩

theorem SameAt.exists_entry {c c' : CacheT} {b : ℕ} (h : SameAt c c' b) {e' : Icache}
    (he : hashGet c'.tabela b = some e') :
    ∃ e, hashGet c.tabela b = some e ∧ e.vista = e'.vista := by
  have hm := h.1
  rw [he, Option.map_some, eq_comm, Option.map_eq_some_iff] at hm
  exact hm

theorem SameAt.none_iff {c c' : CacheT} {b : ℕ} (h : SameAt c c' b) :
    hashGet c'.tabela b = none ↔ hashGet c.tabela b = none := by
  rw [← Option.map_eq_none_iff (f := Icache.vista), h.1, Option.map_eq_none_iff]

theorem SameAt.conteudo {c c' : CacheT} {b : ℕ} (h : SameAt c c' b) :
    c'.conteudo b = c.conteudo b := by
  cases hg : hashGet c'.tabela b with
  | none => rw [CacheT.conteudo_of_none hg, CacheT.conteudo_of_none (h.none_iff.mp hg), h.2]
  | some e' =>
      obtain ⟨e, he, hv⟩ := h.exists_entry hg
      simp only [Icache.vista, Prod.mk.injEq] at hv
      simp [CacheT.conteudo, hg, he, hv, h.2]

theorem EvictedAt.conteudo {c c' : CacheT} {b : ℕ} (h : EvictedAt c c' b) :
    c'.conteudo b = c.conteudo b := by rw [CacheT.conteudo_of_none h.1, h.2]

namespace Settled

theorem refl (c : CacheT) : Settled c c := ⟨rfl, id, fun b => .inl (SameAt.refl c b)⟩

theorem conteudo {c c' : CacheT} (h : Settled c c') (b : ℕ) : c'.conteudo b = c.conteudo b :=
  (h.blocks b).elim SameAt.conteudo EvictedAt.conteudo

theorem trans {c c' c'' : CacheT} (h : Settled c c') (h' : Settled c' c'') : Settled c c'' := by
  refine ⟨h'.numBlocks.trans h.numBlocks, h'.wellFormed ∘ h.wellFormed, fun b => ?_⟩
  rcases h'.blocks b with hs' | he'
  · rcases h.blocks b with hs | he
    · exact .inl ⟨hs'.1.trans hs.1, hs'.2.trans hs.2⟩
    · exact .inr ⟨hs'.none_iff.mpr he.1, hs'.2.trans he.2⟩
  · exact .inr ⟨he'.1, he'.2.trans (h.conteudo b)⟩

theorem none {c c' : CacheT} (h : Settled c c') {b : ℕ} (hn : hashGet c.tabela b = none) :
    hashGet c'.tabela b = .none :=
  (h.blocks b).elim (fun hs => hs.none_iff.mpr hn) And.left

theorem valid {c c' : CacheT} (h : Settled c c') {b : ℕ} (hv : c'.Valid b) : c.Valid b := by
  obtain ⟨e', he', hv'⟩ := hv
  rcases h.blocks b with hs | he
  · obtain ⟨e, hg, hvista⟩ := hs.exists_entry he'
    exact ⟨e, hg, by simp_all [Icache.vista]⟩
  · simp [he.1] at he'

theorem coherent {c c' : CacheT} (h : Settled c c') (hc : c.Coherent) : c'.Coherent := by
  refine ⟨h.wellFormed hc.tabela, fun b e' he' hv hm => ?_, fun b e' he' => ?_⟩
  all_goals rcases h.blocks b with hs | hev
  · obtain ⟨e, he, hvista⟩ := hs.exists_entry he'
    simp only [Icache.vista, Prod.mk.injEq] at hvista
    rw [← hvista.2.2, hs.2]
    exact hc.clean b e he (hvista.1.trans hv) (hvista.2.1.trans hm)
  · simp [hev.1] at he'
  · obtain ⟨e, he, -⟩ := hs.exists_entry he'
    rw [h.numBlocks]
    exact hc.inRange b e he
  · simp [hev.1] at he'

/-- The disk only changes where the cache had the newer content. -/
theorem disco {c c' : CacheT} (h : Settled c c') {b : ℕ} (hv : ¬ c.Valid b) :
    c'.disco.blocks b = c.disco.blocks b := by
  rcases h.blocks b with hs | he
  · exact hs.2
  · rw [he.2, CacheT.conteudo_of_not_valid hv]

end Settled

/-! ## Evictions and sweeps -/

/-- Taking an entry out moves its content to disk and touches no other block. -/
theorem retirarDaCache_settled {c : CacheT} (hc : c.Coherent) (k : ℕ) :
    Settled c (retirarDaCache c k).2 := by
  simp only [retirarDaCache]
  cases hr : hashRemove c.tabela k with
  | none => exact Settled.refl c
  | some r =>
      obtain ⟨e, tabela⟩ := r
      obtain ⟨hg, hw, -, hget⟩ := hashRemove_eq_some hc.tabela hr
      have hk := hc.inRange k e hg
      have hother : ∀ b, b ≠ k → hashGet tabela b = hashGet c.tabela b := by
        intro b hb
        rw [hget, if_neg hb]
      have hself : hashGet tabela k = none := by rw [hget, if_pos rfl]
      dsimp only
      split
      · -- a modified valid entry goes to disk
        rename_i hmv
        simp only [Bool.and_eq_true] at hmv
        rw [blockWrite_of_lt hk]
        refine ⟨rfl, fun _ => hw, fun b => ?_⟩
        by_cases hb : b = k
        · subst hb
          exact .inr ⟨hself, by simp [CacheT.conteudo_of_valid hg hmv.2]⟩
        · exact .inl ⟨by simp [hother b hb], by simp [hb]⟩
      · -- an invalid or clean entry is dropped; the disk already has the content
        rename_i hmv
        refine ⟨rfl, fun _ => hw, fun b => ?_⟩
        by_cases hb : b = k
        · subst hb
          refine .inr ⟨hself, ?_⟩
          cases hv : e.valido with
          | false => rw [CacheT.conteudo_of_invalid hg hv]
          | true => rw [hc.conteudo_of_clean hg (by simpa [hv] using hmv)]
        · exact .inl ⟨by simp [hother b hb], rfl⟩

/-- Storing an age and a reference bit is invisible. -/
theorem assign_settled {c : CacheT} {k : ℕ} {f : Icache → Icache}
    (hf : ∀ e, (f e).vista = e.vista) : Settled c (c.assign k f) := by
  refine ⟨rfl, fun hw => wellFormed_assign hw k f, fun b => .inl ⟨?_, rfl⟩⟩
  simp only [CacheT.assign, hashGet_assign]
  split
  · cases hashGet c.tabela b <;> simp [hf]
  · rfl

theorem foldl_settled {α : Type*} {f : CacheT → α → CacheT} {c : CacheT} (hc : c.Coherent)
    (hf : ∀ c a, c.Coherent → Settled c (f c a)) (as : List α) : Settled c (as.foldl f c) := by
  induction as generalizing c with
  | nil => exact Settled.refl c
  | cons a as ih =>
      have h := hf c a hc
      exact h.trans (ih (h.coherent hc))

theorem libertarCadeia_settled {c : CacheT} (hc : c.Coherent) (classe : Icache → Bool)
    (chain : List HashNode) (removidas : ℤ) :
    Settled c (libertarCadeia classe chain (removidas, c)).2 := by
  induction chain generalizing c removidas with
  | nil => exact Settled.refl c
  | cons aux next ih =>
      simp only [libertarCadeia]
      split
      · have h := retirarDaCache_settled hc aux.value.idBloco
        exact h.trans (ih (h.coherent hc) _)
      · exact ih hc _

theorem libertarClasse_settled {c : CacheT} (hc : c.Coherent) (classe : Icache → Bool)
    (removidas : ℤ) : Settled c (libertarClasse classe removidas c).2 := by
  have hfold : ∀ (is : List ℕ) (c : CacheT) (removidas : ℤ), c.Coherent → Settled c
      (is.foldl (fun r i => libertarCadeia classe (r.2.tabela.elems i) r) (removidas, c)).2 := by
    intro is
    induction is with
    | nil => exact fun c _ _ => Settled.refl c
    | cons i is ih =>
        intro c removidas hc
        have h := libertarCadeia_settled hc classe (c.tabela.elems i) removidas
        exact h.trans (ih _ _ (h.coherent hc))
  exact hfold _ c removidas hc

theorem libertarClasses_settled {c : CacheT} (hc : c.Coherent) (classes : List (Icache → Bool))
    (removidas : ℤ) : Settled c (libertarClasses classes removidas c) := by
  induction classes generalizing c removidas with
  | nil => exact Settled.refl c
  | cons classe classes ih =>
      have h := libertarClasse_settled hc classe removidas
      simp only [libertarClasses]
      split
      · exact h
      · exact h.trans (ih (h.coherent hc) 0)

/-- Whatever its counter starts with, making room loses no content. -/
theorem libertarEspaco_settled {c : CacheT} (hc : c.Coherent) :
    Settled c (libertarEspaco c) := by
  have hp : Settled c { c with pilha := fun n => c.pilha (n + 1) } :=
    ⟨rfl, id, fun b => .inl ⟨rfl, rfl⟩⟩
  exact hp.trans (libertarClasses_settled (hp.coherent hc) classesNRU (c.pilha 0))

theorem actualizarCadeia_settled {c : CacheT} (hc : c.Coherent) (intervalo : ℤ)
    (chain : List HashNode) : Settled c (actualizarCadeia intervalo chain c) := by
  induction chain generalizing c with
  | nil => exact Settled.refl c
  | cons aux next ih =>
      have h := assign_settled (c := c) (k := aux.key)
        (f := fun e => { e with tempoEmCache := aux.value.tempoEmCache + intervalo
                                referenciado := false }) (fun _ => rfl)
      simp only [actualizarCadeia]
      split
      · have h' := h.trans (retirarDaCache_settled (h.coherent hc) aux.value.idBloco)
        exact h'.trans (ih (h'.coherent hc))
      · exact h.trans (ih (h.coherent hc))

theorem actualizarCache_settled {c : CacheT} (hc : c.Coherent) (intervalo : ℤ) :
    Settled c (actualizarCache c intervalo) :=
  foldl_settled hc (fun c i h => actualizarCadeia_settled h intervalo (c.tabela.elems i)) _

/-! ## Reads and writes -/

/-- `c'` is `c` with block `b` in a valid entry that holds `data`; the other blocks
have at most been evicted, and the disk copy of `b` is the old one. -/
structure Holds (c c' : CacheT) (b : ℕ) (data : Block) : Prop where
  numBlocks : c'.disco.numBlocks = c.disco.numBlocks
  entry : ∃ e, hashGet c'.tabela b = some e ∧ e.valido = true ∧ e.conteudobloco = data
  disk : c'.disco.blocks b = c.disco.blocks b
  others : ∀ j, j ≠ b → SameAt c c' j ∨ EvictedAt c c' j

namespace Holds

theorem conteudo_self {c c' : CacheT} {b : ℕ} {data : Block} (h : Holds c c' b data) :
    c'.conteudo b = data := by
  obtain ⟨e, he, hv, hd⟩ := h.entry
  rw [CacheT.conteudo_of_valid he hv, hd]

theorem conteudo_of_ne {c c' : CacheT} {b j : ℕ} {data : Block} (h : Holds c c' b data)
    (hj : j ≠ b) : c'.conteudo j = c.conteudo j :=
  (h.others j hj).elim SameAt.conteudo EvictedAt.conteudo

theorem conteudo {c c' : CacheT} {b : ℕ} {data : Block} (h : Holds c c' b data) :
    c'.conteudo = Function.update c.conteudo b data := by
  funext j
  by_cases hj : j = b
  · subst hj
    rw [Function.update_self, h.conteudo_self]
  · rw [Function.update_of_ne hj, h.conteudo_of_ne hj]

theorem valid {c c' : CacheT} {b j : ℕ} {data : Block} (h : Holds c c' b data)
    (hv : c'.Valid j) : j = b ∨ c.Valid j := by
  by_cases hj : j = b
  · exact .inl hj
  · obtain ⟨e', he', hv'⟩ := hv
    rcases h.others j hj with hs | he
    · obtain ⟨e, hg, hvista⟩ := hs.exists_entry he'
      exact .inr ⟨e, hg, by simp_all [Icache.vista]⟩
    · simp [he.1] at he'

/-- The entry may still be rewritten, to a modified one. -/
theorem assign {c c' : CacheT} {b : ℕ} {data data' : Block} {f : Icache → Icache}
    (h : Holds c c' b data) (hv : ∀ e, e.valido = true → (f e).valido = true)
    (hd : ∀ e, e.conteudobloco = data → (f e).conteudobloco = data') :
    Holds c (c'.assign b f) b data' := by
  obtain ⟨e, he, hve, hde⟩ := h.entry
  refine ⟨h.numBlocks, ⟨f e, ?_, hv e hve, hd e hde⟩, h.disk, fun j hj => ?_⟩
  · simp [CacheT.assign, hashGet_assign, he]
  · have hsame : hashGet (c'.assign b f).tabela j = hashGet c'.tabela j := by
      simp [CacheT.assign, hashGet_assign, hj]
    rcases h.others j hj with hs | hev
    · exact .inl ⟨by rw [hsame]; exact hs.1, hs.2⟩
    · exact .inr ⟨by rw [hsame]; exact hev.1, hev.2⟩

end Holds

/-- A store through an entry pointer keeps the cache coherent when the entry stays
clean or becomes modified. -/
theorem CacheT.Coherent.assign {c : CacheT} (hc : c.Coherent) (b : ℕ) {f : Icache → Icache}
    (hf : ∀ e, hashGet c.tabela b = some e → (f e).valido = true → (f e).modificado = false →
      (f e).conteudobloco = c.disco.blocks b) : (c.assign b f).Coherent := by
  have hget : ∀ j, hashGet (c.assign b f).tabela j =
      if j = b then (hashGet c.tabela j).map f else hashGet c.tabela j :=
    fun j => hashGet_assign c.tabela b f j
  refine ⟨wellFormed_assign hc.tabela b f, fun j e' he' hv hm => ?_, fun j e' he' => ?_⟩
  all_goals
    rw [hget] at he'
    by_cases hj : j = b
  · subst hj
    rw [if_pos rfl, Option.map_eq_some_iff] at he'
    obtain ⟨e, he, rfl⟩ := he'
    exact hf e he hv hm
  · rw [if_neg hj] at he'
    exact hc.clean j e' he' hv hm
  · subst hj
    rw [if_pos rfl, Option.map_eq_some_iff] at he'
    obtain ⟨e, he, rfl⟩ := he'
    exact hc.inRange j e he
  · rw [if_neg hj] at he'
    exact hc.inRange j e' he'

/-- A new entry for a block that is not cached, modified or a copy of the disk. -/
theorem novaEntradaCache_holds {c : CacheT} (hc : c.Coherent) {b : ℕ} (modificado : Bool)
    (dados : Block) (hn : hashGet c.tabela b = none) (hb : b < c.disco.numBlocks)
    (hd : modificado = false → dados = c.disco.blocks b) :
    (novaEntradaCache c b modificado dados).Coherent ∧
      Holds c (novaEntradaCache c b modificado dados) b dados := by
  -- room is made first, which settles the cache and leaves the block out of it
  obtain ⟨c₁, hc₁, hs⟩ : ∃ c₁, c₁ = (if c.numeroNosUtilizados = c.numeroMaxNos then
      libertarEspaco c else c) ∧ Settled c c₁ := by
    refine ⟨_, rfl, ?_⟩
    split
    · exact libertarEspaco_settled hc
    · exact Settled.refl c
  have hn₁ := hs.none hn
  have hcoh₁ := hs.coherent hc
  have hdisk : c₁.disco.blocks b = c.disco.blocks b := hs.disco (CacheT.not_valid_of_none hn)
  obtain ⟨hst, hget⟩ := hashGet_insert_of_none (⟨b, true, true, modificado, 0, dados⟩ : Icache) hn₁
  have hw := wellFormed_insert_of_none
    (⟨b, true, true, modificado, 0, dados⟩ : Icache) hcoh₁.tabela hn₁
  simp only [novaEntradaCache, ← hc₁]
  generalize hins : hashInsert c₁.tabela b ⟨b, true, true, modificado, 0, dados⟩ = r at *
  obtain ⟨status, tabela⟩ := r
  simp only at hst hget hw ⊢
  subst hst
  refine ⟨⟨hw, fun j e he hv hm => ?_, fun j e he => ?_⟩,
    ⟨hs.numBlocks, ⟨_, by simpa using hget b, rfl, rfl⟩, hdisk, fun j hj => ?_⟩⟩
  · rw [if_pos rfl] at he ⊢
    rw [hget] at he
    by_cases hj : j = b
    · subst hj
      rw [if_pos rfl, Option.some.injEq] at he
      subst he
      rw [hd hm, hdisk]
    · rw [if_neg hj] at he
      exact hcoh₁.clean j e he hv hm
  · rw [if_pos rfl] at he ⊢
    rw [hget] at he
    by_cases hj : j = b
    · subst hj
      exact hs.numBlocks ▸ hb
    · rw [if_neg hj] at he
      exact hcoh₁.inRange j e he
  · have hsame : hashGet tabela j = hashGet c₁.tabela j := by rw [hget, if_neg hj]
    rcases hs.blocks j with h | h
    · exact .inl ⟨by rw [if_pos rfl, hsame]; exact h.1, h.2⟩
    · exact .inr ⟨by rw [if_pos rfl, hsame]; exact h.1, h.2⟩

/-- Loading a block that is not cached. -/
theorem carregarBlocoParaCache_holds {c : CacheT} (hc : c.Coherent) {b : ℕ}
    (hn : hashGet c.tabela b = none) (hb : b < c.disco.numBlocks) :
    ∃ c', carregarBlocoParaCache c b = some c' ∧ c'.Coherent ∧
      Holds c c' b (c.disco.blocks b) := by
  refine ⟨novaEntradaCache c b false (c.disco.blocks b), ?_, ?_⟩
  · simp [carregarBlocoParaCache, blockRead_of_lt hb]
  · exact novaEntradaCache_holds hc false _ hn hb fun _ => rfl

/-- Replacing an invalid entry by the block on disk. -/
theorem recarregar_holds {c : CacheT} (hc : c.Coherent) {b : ℕ} {e : Icache}
    (he : hashGet c.tabela b = some e) (hv : e.valido = false) :
    ∃ c', carregarBlocoParaCache (retirarDaCache c b).2 b = some c' ∧ c'.Coherent ∧
      Holds c c' b (c.disco.blocks b) := by
  have hs := retirarDaCache_settled hc b
  have hnone : hashGet (retirarDaCache c b).2.tabela b = none := by
    simp only [retirarDaCache]
    cases hr : hashRemove c.tabela b with
    | none => simp [hashRemove_eq_none.mp hr] at he
    | some r =>
        obtain ⟨e', tabela⟩ := r
        obtain ⟨-, -, -, hget⟩ := hashRemove_eq_some hc.tabela hr
        have : hashGet tabela b = none := by rw [hget, if_pos rfl]
        dsimp only
        split
        · split <;> exact this
        · exact this
  have hnv : ¬ c.Valid b := by
    rintro ⟨e', he', hv'⟩
    simp_all
  have hdisk := hs.disco hnv
  obtain ⟨c', hcar, hcoh, hh⟩ := carregarBlocoParaCache_holds (hs.coherent hc) hnone
    (hs.numBlocks ▸ hc.inRange b e he)
  refine ⟨c', hcar, hcoh, hh.numBlocks.trans hs.numBlocks, hdisk ▸ hh.entry,
    hh.disk.trans hdisk, fun j hj => ?_⟩
  rcases hh.others j hj with h | h
  · rcases hs.blocks j with h' | h'
    · exact .inl ⟨h.1.trans h'.1, h.2.trans h'.2⟩
    · exact .inr ⟨h.none_iff.mpr h'.1, h.2.trans h'.2⟩
  · exact .inr ⟨h.1, h.2.trans (hs.conteudo j)⟩

/-- The three paths of a read: miss, invalid hit, hit. -/
theorem abrirEntrada_holds {c : CacheT} (hc : c.Coherent) {b : ℕ} (hb : b < c.disco.numBlocks) :
    ∃ c', abrirEntrada c b = some c' ∧ c'.Coherent ∧ Holds c c' b (c.conteudo b) := by
  simp only [abrirEntrada]
  cases hg : hashGet c.tabela b with
  | none =>
      rw [CacheT.conteudo_of_none hg]
      exact carregarBlocoParaCache_holds hc hg hb
  | some e =>
      cases hv : e.valido with
      | false =>
          rw [CacheT.conteudo_of_invalid hg hv]
          simpa only [hv, Bool.false_eq_true, if_false] using recarregar_holds hc hg hv
      | true =>
          refine ⟨c, by simp [hv], hc, rfl, ⟨e, hg, hv, ?_⟩, rfl,
            fun j _ => .inl (SameAt.refl c j)⟩
          rw [CacheT.conteudo_of_valid hg hv]

/-- A block that is read stays what it was, in a valid entry. -/
theorem lerCache_holds {c : CacheT} (hc : c.Coherent) {b : ℕ} (hb : b < c.disco.numBlocks) :
    ∃ c', lerCache c b = some (c', c.conteudo b) ∧ c'.Coherent ∧
      Holds c c' b (c.conteudo b) := by
  obtain ⟨c₁, hopen, hcoh, hh⟩ := abrirEntrada_holds hc hb
  let f : Icache → Icache := fun e => { e with valido := true, referenciado := true }
  obtain ⟨e, he, hve, hde⟩ := hh.entry
  have hget : hashGet (c₁.assign b f).tabela b = some (f e) := by
    simp [CacheT.assign, hashGet_assign, he]
  refine ⟨c₁.assign b f, ?_, hcoh.assign b fun e' he' _ hm => ?_,
    hh.assign (fun _ _ => rfl) (fun _ h => h)⟩
  · simp only [lerCache, hopen, Option.bind_eq_bind, Option.bind_some]
    change (hashGet (c₁.assign b f).tabela b).bind
      (fun entradaCache => some (c₁.assign b f, entradaCache.conteudobloco)) = _
    rw [hget, Option.bind_some, hde]
  · rw [he, Option.some.injEq] at he'
    subst he'
    exact hcoh.clean b e he hve hm

/-- A block that is written holds the new content, in a valid entry. -/
theorem escreverCache_holds {c : CacheT} (hc : c.Coherent) {b : ℕ} (hb : b < c.disco.numBlocks)
    (bloco : Block) :
    (escreverCache c b bloco).1 = 0 ∧ (escreverCache c b bloco).2.Coherent ∧
      Holds c (escreverCache c b bloco).2 b bloco := by
  simp only [escreverCache]
  cases hg : hashGet c.tabela b with
  | none => exact ⟨rfl, novaEntradaCache_holds hc true bloco hg hb (by simp)⟩
  | some e =>
      dsimp only
      cases hv : e.valido with
      | false =>
          obtain ⟨c₁, hcar, hcoh, hh⟩ := recarregar_holds hc hg hv
          simp only [hcar, Bool.false_eq_true, if_false, true_and]
          exact ⟨hcoh.assign b (by simp), hh.assign (fun _ _ => rfl) (fun _ _ => rfl)⟩
      | true =>
          simp only [if_true, true_and]
          refine ⟨hc.assign b (by simp), Holds.assign (c := c) ⟨rfl, ⟨e, hg, hv, rfl⟩, rfl,
            fun j _ => .inl (SameAt.refl c j)⟩ (fun _ _ => rfl) (fun _ _ => rfl)⟩

/-! ## Invalidation and writes behind the cache -/

theorem invalidarBloco_get (c : CacheT) (b j : ℕ) :
    hashGet (invalidarBloco c b).2.tabela j =
      if j = b then (hashGet c.tabela j).map fun e => { e with valido := false }
      else hashGet c.tabela j := by
  simp only [invalidarBloco]
  cases hg : hashGet c.tabela b with
  | none =>
      dsimp only
      split
      · rename_i hj
        subst hj
        simp [hg]
      · rfl
  | some e => exact hashGet_assign c.tabela b _ j

@[simp] theorem invalidarBloco_disco (c : CacheT) (b : ℕ) :
    (invalidarBloco c b).2.disco = c.disco := by
  simp only [invalidarBloco]
  split <;> rfl

theorem invalidarBloco_coherent {c : CacheT} (hc : c.Coherent) (b : ℕ) :
    (invalidarBloco c b).2.Coherent := by
  simp only [invalidarBloco]
  split
  · exact hc
  · exact hc.assign b (by simp)

theorem invalidarBloco_valid (c : CacheT) (b j : ℕ) :
    (invalidarBloco c b).2.Valid j ↔ j ≠ b ∧ c.Valid j := by
  simp only [CacheT.Valid, invalidarBloco_get]
  by_cases hj : j = b
  · simp only [hj, if_true, ne_eq, not_true_eq_false, false_and, iff_false, not_exists, not_and]
    intro e he
    rw [Option.map_eq_some_iff] at he
    obtain ⟨e', -, rfl⟩ := he
    simp
  · simp [hj]

theorem invalidarBloco_conteudo_of_ne (c : CacheT) {b j : ℕ} (hj : j ≠ b) :
    (invalidarBloco c b).2.conteudo j = c.conteudo j := by
  simp only [CacheT.conteudo, invalidarBloco_get, if_neg hj, invalidarBloco_disco]

@[simp] theorem CacheT.writeDisk_numBlocks (c : CacheT) (b : ℕ) (data : Block) :
    (c.writeDisk b data).disco.numBlocks = c.disco.numBlocks := blockWrite_numBlocks _ _ _

theorem CacheT.writeDisk_valid (c : CacheT) (b : ℕ) (data : Block) (j : ℕ) :
    (c.writeDisk b data).Valid j ↔ c.Valid j := Iff.rfl

theorem CacheT.writeDisk_conteudo_of_ne (c : CacheT) {b j : ℕ} (data : Block) (hj : j ≠ b) :
    (c.writeDisk b data).conteudo j = c.conteudo j := by
  simp only [CacheT.conteudo, CacheT.writeDisk, blockWrite_blocks_of_ne _ _ hj]

theorem CacheT.writeDisk_conteudo_self {c : CacheT} {b : ℕ} (data : Block)
    (hb : b < c.disco.numBlocks) (hv : ¬ c.Valid b) : (c.writeDisk b data).conteudo b = data := by
  have hv' : ¬ (c.writeDisk b data).Valid b := hv
  rw [CacheT.conteudo_of_not_valid hv']
  exact blockWrite_blocks_self data hb

/-- Writing the disk behind the cache is harmless where no entry is valid. -/
theorem CacheT.Coherent.writeDisk {c : CacheT} (hc : c.Coherent) {b : ℕ} (data : Block)
    (hv : ¬ c.Valid b) : (c.writeDisk b data).Coherent := by
  refine ⟨hc.tabela, fun j e he hve hm => ?_, fun j e he => ?_⟩
  · have hj : j ≠ b := by
      rintro rfl
      exact hv ⟨e, he, hve⟩
    rw [CacheT.writeDisk, blockWrite_blocks_of_ne _ _ hj]
    exact hc.clean j e he hve hm
  · rw [CacheT.writeDisk_numBlocks]
    exact hc.inRange j e he

theorem eliminarBlocoCache_eq (c : CacheT) (b : ℕ) :
    eliminarBlocoCache c b = (invalidarBloco c b).2.writeDisk b nullBlock := rfl

theorem eliminarBlocoCache_coherent {c : CacheT} (hc : c.Coherent) (b : ℕ) :
    (eliminarBlocoCache c b).Coherent :=
  (invalidarBloco_coherent hc b).writeDisk _ fun h => ((invalidarBloco_valid c b b).mp h).1 rfl

theorem eliminarBlocoCache_valid (c : CacheT) (b j : ℕ) :
    (eliminarBlocoCache c b).Valid j ↔ j ≠ b ∧ c.Valid j := invalidarBloco_valid c b j

theorem eliminarBlocoCache_conteudo {c : CacheT} {b : ℕ} (hb : b < c.disco.numBlocks) :
    (eliminarBlocoCache c b).conteudo = Function.update c.conteudo b nullBlock := by
  funext j
  rw [eliminarBlocoCache_eq]
  by_cases hj : j = b
  · subst hj
    rw [Function.update_self]
    refine CacheT.writeDisk_conteudo_self nullBlock (by simpa using hb) fun h => ?_
    exact ((invalidarBloco_valid c j j).mp h).1 rfl
  · rw [Function.update_of_ne hj, CacheT.writeDisk_conteudo_of_ne _ _ hj,
      invalidarBloco_conteudo_of_ne c hj]

@[simp] theorem eliminarBlocoCache_numBlocks (c : CacheT) (b : ℕ) :
    (eliminarBlocoCache c b).disco.numBlocks = c.disco.numBlocks := by
  simp [eliminarBlocoCache_eq]

/-! ## Runs of the cache interface -/

theorem criarCache_coherent {dimensao : ℕ} (h : 0 < dimensao) (disco : Blocks) (pilha : ℕ → ℤ) :
    (criarCache dimensao disco pilha).Coherent :=
  ⟨newHash_wellFormed h, by simp [criarCache], by simp [criarCache]⟩

/-- One call of the cache interface. -/
inductive CacheOp where
  | ler (b : ℕ)
  | escrever (b : ℕ) (bloco : Block)
  | eliminar (b : ℕ)
  | actualizar (intervaloTempo : ℤ)

namespace CacheOp

/-- The block number of the call, if it has one, is on the disk. -/
def InRange (numBlocks : ℕ) : CacheOp → Prop
  | ler b => b < numBlocks
  | escrever b _ => b < numBlocks
  | eliminar b => b < numBlocks
  | actualizar _ => True

/-- The cache after the call; `none` when the call dereferences NULL. -/
def exec (c : CacheT) : CacheOp → Option CacheT
  | ler b => (lerCache c b).map Prod.fst
  | escrever b bloco => some (escreverCache c b bloco).2
  | eliminar b => some (eliminarBlocoCache c b)
  | actualizar intervalo => some (actualizarCache c intervalo)

/-- What the call says a block holds from now on, if anything. -/
def define (b : ℕ) : CacheOp → Option Block
  | escrever b' bloco => if b' = b then some bloco else none
  | eliminar b' => if b' = b then some nullBlock else none
  | ler _ => none
  | actualizar _ => none

/-- Calls one after another. -/
def run (c : CacheT) : List CacheOp → Option CacheT
  | [] => some c
  | op :: ops => (exec c op).bind fun c => run c ops

/-- The content given to a block by the last call that gave it one, or the content
`inicial` it had on disk at first. -/
def ultimo (inicial : ℕ → Block) (ops : List CacheOp) (b : ℕ) : Block :=
  (ops.reverse.findSome? (define b)).getD (inicial b)

/-- A call changes the content of a block exactly to what it defines. -/
theorem exec_conteudo {c : CacheT} (hc : c.Coherent) {op : CacheOp}
    (h : op.InRange c.disco.numBlocks) :
    ∃ c', exec c op = some c' ∧ c'.Coherent ∧ c'.disco.numBlocks = c.disco.numBlocks ∧
      ∀ b, c'.conteudo b = (op.define b).getD (c.conteudo b) := by
  cases op with
  | ler b =>
      obtain ⟨c', hl, hc', hh⟩ := lerCache_holds hc h
      refine ⟨c', by simp [exec, hl], hc', hh.numBlocks, fun j => ?_⟩
      simp [define, hh.conteudo]
  | escrever b bloco =>
      obtain ⟨-, hc', hh⟩ := escreverCache_holds hc h bloco
      refine ⟨_, rfl, hc', hh.numBlocks, fun j => ?_⟩
      rw [hh.conteudo]
      by_cases hj : b = j
      · subst hj
        simp [define]
      · simp [define, hj, Ne.symm hj]
  | eliminar b =>
      refine ⟨_, rfl, eliminarBlocoCache_coherent hc b, by simp, fun j => ?_⟩
      rw [eliminarBlocoCache_conteudo h]
      by_cases hj : b = j
      · subst hj
        simp [define]
      · simp [define, hj, Ne.symm hj]
  | actualizar intervalo =>
      have hs := actualizarCache_settled hc intervalo
      exact ⟨_, rfl, hs.coherent hc, hs.numBlocks, fun j => hs.conteudo j⟩

/-- Every run keeps the cache coherent and every block at its last content. -/
theorem run_conteudo {c : CacheT} (hc : c.Coherent) {ops : List CacheOp}
    (h : ∀ op ∈ ops, op.InRange c.disco.numBlocks) :
    ∃ c', run c ops = some c' ∧ c'.Coherent ∧ c'.disco.numBlocks = c.disco.numBlocks ∧
      ∀ b, c'.conteudo b = ultimo c.conteudo ops b := by
  induction ops generalizing c with
  | nil => exact ⟨c, rfl, hc, rfl, fun _ => rfl⟩
  | cons op ops ih =>
      obtain ⟨c₁, he, hc₁, hn₁, hb₁⟩ := exec_conteudo hc (h op (by simp))
      obtain ⟨c', hr, hc', hn', hb'⟩ := ih hc₁ (fun o ho => hn₁ ▸ h o (by simp [ho]))
      refine ⟨c', by simp [run, he, hr], hc', hn'.trans hn₁, fun b => ?_⟩
      rw [hb', ultimo, ultimo, hb₁]
      simp only [List.reverse_cons, List.findSome?_append, List.findSome?_singleton]
      cases ops.reverse.findSome? (define b) <;> simp

end CacheOp

/-- After any run of the cache interface, a read answers the last content of its
block, whatever was evicted on the way. -/
theorem lerCache_after_run {dimensao : ℕ} (hdim : 0 < dimensao) (disco : Blocks)
    (pilha : ℕ → ℤ) (ops : List CacheOp) (h : ∀ op ∈ ops, op.InRange disco.numBlocks)
    {b : ℕ} (hb : b < disco.numBlocks) :
    ∃ c c', CacheOp.run (criarCache dimensao disco pilha) ops = some c ∧
      lerCache c b = some (c', CacheOp.ultimo disco.blocks ops b) := by
  obtain ⟨c, hr, hc, hn, hcont⟩ := CacheOp.run_conteudo
    (criarCache_coherent hdim disco pilha) h
  obtain ⟨c', hl, -, -⟩ := lerCache_holds hc (b := b) (by rw [hn]; exact hb)
  refine ⟨c, c', hr, ?_⟩
  rw [hl, hcont]
  rfl

/-- The invalidated block of a two-block disk reads as zeros after a sweep. -/
theorem lerCache_after_run_eliminar :
    ∃ c c', CacheOp.run (criarCache 8 (blockNew 2) fun _ => 7)
        [.escrever 1 (fun _ => 5), .eliminar 1, .actualizar 2] = some c ∧
      lerCache c 1 = some (c', nullBlock) :=
  lerCache_after_run (by decide) (blockNew 2) (fun _ => 7)
    [.escrever 1 (fun _ => 5), .eliminar 1, .actualizar 2]
    (by simp [CacheOp.InRange, blockNew]) (by decide)

end ThreadScheduler.SnfsServer
