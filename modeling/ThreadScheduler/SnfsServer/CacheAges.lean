import ThreadScheduler.SnfsServer.CacheCalls
import ThreadScheduler.SnfsServer.CacheWriteback

/-!
# Ages in the cache of the file system

No entry is of negative age, in any run of the file system, as nothing but a sweep changes an age.
While the file system only reads and sweeps, every modified entry is as old as the sweeps since, so
sweeps of ten seconds leave none.
-/
namespace ThreadScheduler.SnfsServer

/-! ## Every node of a table -/

theorem desligar_subset {key : ℕ} {e : Icache} {chain rest : List HashNode}
    (h : desligar key chain = some (e, rest)) : rest ⊆ chain := by
  induction chain generalizing rest with
  | nil => cases h
  | cons aux next ih =>
      rw [desligar] at h
      split at h
      · obtain ⟨-, rfl⟩ := Prod.mk.inj (Option.some.inj h)
        exact List.subset_cons_self aux next
      · obtain ⟨⟨e', rest'⟩, hd, he⟩ := Option.map_eq_some_iff.mp h
        obtain ⟨rfl, rfl⟩ := Prod.mk.inj he
        exact List.cons_subset_cons aux (ih hd)

theorem mem_substituir {key : ℕ} {value : Icache} {chain chain' : List HashNode}
    (h : substituir key value chain = some chain') {no : HashNode} (hno : no ∈ chain') :
    no = ⟨key, { value with modificado := true, referenciado := true }⟩ ∨ no ∈ chain := by
  induction chain generalizing chain' with
  | nil => cases h
  | cons aux next ih =>
      rw [substituir] at h
      split at h
      · rename_i hk
        obtain rfl := Option.some.inj h
        rw [hk] at hno
        exact (List.mem_cons.mp hno).imp id (List.mem_cons_of_mem aux)
      · obtain ⟨chain'', hs, rfl⟩ := Option.map_eq_some_iff.mp h
        rcases List.mem_cons.mp hno with rfl | hno
        · exact .inr List.mem_cons_self
        · exact (ih hs hno).imp id (List.mem_cons_of_mem aux)

theorem mem_assignChain {key : ℕ} {f : Icache → Icache} {chain : List HashNode} {no : HashNode}
    (hno : no ∈ assignChain key f chain) :
    no ∈ chain ∨ ∃ aux ∈ chain, no = { aux with value := f aux.value } := by
  induction chain with
  | nil => cases hno
  | cons aux next ih =>
      rw [assignChain] at hno
      split at hno
      · rcases List.mem_cons.mp hno with rfl | hno
        · exact .inr ⟨aux, List.mem_cons_self, rfl⟩
        · exact .inl (List.mem_cons_of_mem aux hno)
      · rcases List.mem_cons.mp hno with rfl | hno
        · exact .inl List.mem_cons_self
        · rcases ih hno with hno | ⟨aux', haux, rfl⟩
          · exact .inl (List.mem_cons_of_mem aux hno)
          · exact .inr ⟨aux', List.mem_cons_of_mem aux haux, rfl⟩

theorem mem_of_procurar {key : ℕ} {e : Icache} {chain : List HashNode}
    (h : procurar key chain = some e) : ⟨key, e⟩ ∈ chain := by
  induction chain with
  | nil => cases h
  | cons aux next ih =>
      rw [procurar] at h
      split at h
      · rename_i hk
        obtain rfl := Option.some.inj h
        rw [← hk]
        exact List.mem_cons_self
      · exact List.mem_cons_of_mem aux (ih h)

namespace HashMap

/-- The property holds of every node. -/
def Todos (P : HashNode → Prop) (hmap : HashMap) : Prop := ∀ i, ∀ no ∈ hmap.elems i, P no

namespace Todos

variable {P : HashNode → Prop} {hmap : HashMap}

theorem update (h : hmap.Todos P) {i : ℕ} {chain : List HashNode} (hc : ∀ no ∈ chain, P no)
    (size : ℤ) :
    HashMap.Todos P { hmap with elems := Function.update hmap.elems i chain, size := size } := by
  intro j no hno
  dsimp only at hno
  by_cases hj : j = i
  · subst hj
    rw [Function.update_self] at hno
    exact hc no hno
  · rw [Function.update_of_ne hj] at hno
    exact h j no hno

theorem remove (h : hmap.Todos P) {key : ℕ} {e : Icache} {hmap' : HashMap}
    (hr : hashRemove hmap key = some (e, hmap')) : hmap'.Todos P := by
  obtain ⟨⟨e', rest⟩, hd, he⟩ := Option.map_eq_some_iff.mp hr
  rw [← (Prod.mk.inj he).2]
  exact h.update (fun no hno => h (hmap.indice key) no (desligar_subset hd hno)) _

theorem insert (h : hmap.Todos P) {key : ℕ} {value : Icache} (hnovo : P ⟨key, value⟩)
    (hsubst : P ⟨key, { value with modificado := true, referenciado := true }⟩) :
    (hashInsert hmap key value).2.Todos P := by
  simp only [hashInsert]
  split
  · rename_i chain hs
    refine h.update (fun no hno => ?_) hmap.size
    rcases mem_substituir hs hno with rfl | hno
    · exact hsubst
    · exact h (hmap.indice key) no hno
  · exact h.update (List.forall_mem_cons.mpr ⟨hnovo, h (hmap.indice key)⟩) (hmap.size + 1)

theorem assign (h : hmap.Todos P) (key : ℕ) {f : Icache → Icache}
    (hf : ∀ no, P no → P { no with value := f no.value }) : (hmap.assign key f).Todos P := by
  refine h.update (fun no hno => ?_) hmap.size
  rcases mem_assignChain hno with hno | ⟨aux, haux, rfl⟩
  · exact h (hmap.indice key) no hno
  · exact hf aux (h (hmap.indice key) aux haux)

end Todos

end HashMap

/-! ## Ages -/

/-- An entry under its own block, of no negative age. -/
structure HashNode.Assente (no : HashNode) : Prop where
  idBloco : no.value.idBloco = no.key
  tempo : 0 ≤ no.value.tempoEmCache

namespace CacheT

/-- All entries are so. -/
def Assente (c : CacheT) : Prop := c.tabela.Todos HashNode.Assente

variable {c c' : CacheT}

theorem Assente.entrada (h : c.Assente) {b : ℕ} {e : Icache} (he : hashGet c.tabela b = some e) :
    e.idBloco = b ∧ 0 ≤ e.tempoEmCache := by
  have hno := h _ _ (mem_of_procurar he)
  exact ⟨hno.idBloco, hno.tempo⟩

theorem Assente.arrumada (h : c.Assente) (hc : c.Coherent) : c.Arrumada :=
  ⟨hc.tabela, fun _ _ he => (h.entrada he).1, hc.inRange⟩

theorem Assente.retirar (h : c.Assente) (b : ℕ) : (retirarDaCache c b).2.Assente := by
  rw [retirarDaCache]
  cases hr : hashRemove c.tabela b with
  | none => exact h
  | some r =>
      obtain ⟨e, tabela⟩ := r
      have ht : tabela.Todos HashNode.Assente := h.remove hr
      dsimp only
      split
      · split <;> exact ht
      · exact ht

theorem Assente.libertarEspaco (h : c.Assente) : (libertarEspaco c).Assente := by
  have hcadeia : ∀ (classe : Icache → Bool) (chain : List HashNode) (r : ℤ × CacheT),
      r.2.Assente → (libertarCadeia classe chain r).2.Assente := by
    intro classe chain
    induction chain with
    | nil => exact fun _ hr => hr
    | cons aux next ih =>
        intro r hr
        obtain ⟨removidas, c⟩ := r
        rw [libertarCadeia]
        split
        · exact ih _ (hr.retirar _)
        · exact ih _ hr
  have hclasse : ∀ (classe : Icache → Bool) (is : List ℕ) (r : ℤ × CacheT), r.2.Assente →
      (is.foldl (fun r i => libertarCadeia classe (r.2.tabela.elems i) r) r).2.Assente := by
    intro classe is
    induction is with
    | nil => exact fun _ hr => hr
    | cons i is ih => exact fun r hr => ih _ (hcadeia classe _ r hr)
  have hclasses : ∀ (classes : List (Icache → Bool)) (n : ℤ) (c : CacheT), c.Assente →
      (libertarClasses classes n c).Assente := by
    intro classes
    induction classes with
    | nil => exact fun _ _ hc => hc
    | cons classe classes ih =>
        intro n c hc
        rw [libertarClasses]
        split
        · exact hclasse _ _ _ hc
        · exact ih 0 _ (hclasse _ _ _ hc)
  exact hclasses _ _ _ h

theorem Assente.nova (h : c.Assente) (b : ℕ) (modificado : Bool) (dados : Block) :
    (novaEntradaCache c b modificado dados).Assente := by
  have hroom : c.comEspaco.Assente := by
    rw [comEspaco]
    split
    · exact h.libertarEspaco
    · exact h
  have hins : (hashInsert c.comEspaco.tabela b
      ⟨b, true, true, modificado, 0, dados⟩).2.Todos HashNode.Assente :=
    HashMap.Todos.insert hroom ⟨rfl, le_rfl⟩ ⟨rfl, le_rfl⟩
  change (if (hashInsert c.comEspaco.tabela b _).1 = 0 then _ else _ : CacheT).Assente
  split <;> exact hins

theorem Assente.assign (h : c.Assente) (b : ℕ) {f : Icache → Icache}
    (hf : ∀ e, (f e).idBloco = e.idBloco ∧ (0 ≤ e.tempoEmCache → 0 ≤ (f e).tempoEmCache)) :
    (c.assign b f).Assente :=
  HashMap.Todos.assign h b fun no hno =>
    ⟨(hf no.value).1.trans hno.idBloco, (hf no.value).2 hno.tempo⟩

theorem Assente.carregar (h : c.Assente) {b : ℕ}
    (hc : carregarBlocoParaCache c b = some c') : c'.Assente := by
  simp only [carregarBlocoParaCache] at hc
  split at hc
  · cases hc
  · obtain rfl := Option.some.inj hc
    exact h.nova _ _ _

/-- A call on the cache changes no age. -/
theorem Assente.passo (h : c.Assente) (hp : Passo c c') : c'.Assente := by
  cases hp with
  | @ler b _ _ hler =>
      obtain ⟨c₁, hopen, rfl⟩ := lerCache_eq_some hler
      refine Assente.assign ?_ b fun _ => ⟨rfl, id⟩
      rw [abrirEntrada] at hopen
      split at hopen
      · exact h.carregar hopen
      · split at hopen
        · obtain rfl := Option.some.inj hopen
          exact h
        · exact (h.retirar b).carregar hopen
  | escrever b bloco =>
      rw [escreverCache]
      dsimp only
      split
      · exact h.nova _ _ _
      split
      · exact h.assign b fun _ => ⟨rfl, id⟩
      split
      · exact h.retirar b
      · rename_i hcar
        exact ((h.retirar b).carregar hcar).assign b fun _ => ⟨rfl, id⟩
  | invalidar b =>
      rw [invalidarBloco]
      split
      · exact h
      · exact h.assign b fun _ => ⟨rfl, id⟩
  | disco b data => exact h

theorem Assente.varrer (h : c.Assente) (hc : c.Coherent) {t : ℤ} (ht : 0 ≤ t) :
    (actualizarCache c t).Assente := by
  have hv := actualizarCache_varrida (h.arrumada hc) t
  intro i no hno
  have hget := (hv.arrumada.tabela.mem_elems_iff.mp hno).2
  rw [hv.hashGet_eq hc.tabela] at hget
  obtain ⟨e, he, hold⟩ := Option.bind_eq_some_iff.mp hget
  obtain ⟨hid, htempo⟩ := h.entrada he
  rw [Icache.envelhecida] at hold
  split at hold
  · cases hold
  · have hvalue := Option.some.inj hold
    exact ⟨by rw [← hvalue]; exact hid, by rw [← hvalue]; exact Int.add_nonneg htempo ht⟩

/-! ## Reads and sweeps -/

/-- Every modified entry is at least that old, and if that is at all, younger than ten. -/
def Desde (T : ℤ) (c : CacheT) : Prop := ∀ b e, hashGet c.tabela b = some e →
  e.modificado = true → T ≤ e.tempoEmCache ∧ (0 < T → e.tempoEmCache < 10)

theorem Assente.desde (h : c.Assente) : c.Desde 0 :=
  fun _ _ he _ => ⟨(h.entrada he).2, fun hlt => absurd hlt (lt_irrefl 0)⟩

/-- After ten seconds no entry is modified, and the disk holds what the cache shows. -/
theorem Desde.limpa {T : ℤ} (h : c.Desde T) (hT : 10 ≤ T) {b : ℕ} {e : Icache}
    (he : hashGet c.tabela b = some e) : e.modificado = false := by
  refine Bool.eq_false_iff.mpr fun hm => ?_
  obtain ⟨hge, hlt⟩ := h b e he hm
  have := hlt (by omega)
  omega

theorem Desde.disco {T : ℤ} (h : c.Desde T) (hc : c.Coherent) (hT : 10 ≤ T) (b : ℕ) :
    c.conteudo b = c.disco.blocks b := by
  cases he : hashGet c.tabela b with
  | none => exact conteudo_of_none he
  | some e => exact hc.conteudo_of_clean he (h.limpa hT he)

theorem Desde.varrer {T : ℤ} (h : c.Desde T) (hc : c.Arrumada) (t : ℤ) :
    (actualizarCache c t).Desde (T + t) := by
  intro b e' he' hm
  rw [(actualizarCache_varrida hc t).hashGet_eq hc.tabela] at he'
  obtain ⟨e, he, hold⟩ := Option.bind_eq_some_iff.mp he'
  rw [Icache.envelhecida] at hold
  split at hold
  · cases hold
  · rename_i hjovem
    obtain rfl := Option.some.inj hold
    have := (h b e he hm).1
    dsimp only
    omega

/-- A block that can be loaded is on the disk. -/
theorem lt_of_carregar {b : ℕ} (h : carregarBlocoParaCache c b = some c') :
    b < c.disco.numBlocks ∧ c' = novaEntradaCache c b false (c.disco.blocks b) := by
  rw [carregarBlocoParaCache] at h
  by_cases hb : b < c.disco.numBlocks
  · rw [blockRead_of_lt hb] at h
    exact ⟨hb, (Option.some.inj h).symm⟩
  · rw [blockRead, if_pos (Nat.not_lt.mp hb)] at h
    cases h

/-- A modified entry in the second cache was so in the first one, and as old. -/
def Herda (c c' : CacheT) : Prop := ∀ b e', hashGet c'.tabela b = some e' → e'.modificado = true →
  ∃ e, hashGet c.tabela b = some e ∧ e.modificado = true ∧ e.tempoEmCache = e'.tempoEmCache

theorem Herda.desde {T : ℤ} (h : c.Herda c') (hd : c.Desde T) : c'.Desde T := by
  intro b e' he' hm
  obtain ⟨e, he, hm', ht⟩ := h b e' he' hm
  exact ht ▸ hd b e he hm'

theorem herda_nova (hc : c.Arrumada) {b : ℕ} (hb : hashGet c.tabela b = none) (dados : Block) :
    c.Herda (novaEntradaCache c b false dados) := by
  have ha := novaEntradaCache_acedida hc hb id false dados
  intro j e' he' hm
  by_cases hj : j = b
  · subst hj
    obtain ⟨dados', hnova⟩ := ha.nova hb
    obtain rfl := Option.some.inj (hnova.symm.trans he')
    cases hm
  · rcases ha.outras j hj with hs | hs
    · exact ⟨e', hs ▸ he', hm, rfl⟩
    · rw [hs] at he'
      cases he'

theorem herda_retirar (hc : c.Arrumada) {b : ℕ} {e : Icache} (he : hashGet c.tabela b = some e) :
    (retirarDaCache c b).2.Arrumada ∧ hashGet (retirarDaCache c b).2.tabela b = none ∧
      c.Herda (retirarDaCache c b).2 := by
  obtain ⟨-, hv, -⟩ := retirarDaCache_varrida hc ⟨b, e⟩ (g := fun _ => none) he rfl
  have hself := hv.entrada ⟨b, e⟩ List.mem_cons_self
  refine ⟨hv.arrumada, hself, fun j e' he' hm => ?_⟩
  by_cases hj : j = b
  · subst hj
    cases hself.symm.trans he'
  · exact ⟨e', (hv.fora j (by simpa using hj)).1 ▸ he', hm, rfl⟩

theorem Herda.trans {c'' : CacheT} (h : c.Herda c') (h' : c'.Herda c'') : c.Herda c'' := by
  intro b e'' he'' hm''
  obtain ⟨e', he', hm', ht'⟩ := h' b e'' he'' hm''
  obtain ⟨e, he, hm, ht⟩ := h b e' he' hm'
  exact ⟨e, he, hm, ht.trans ht'⟩

/-- A read leaves no modified entry that was not there. -/
theorem herda_ler (hc : c.Arrumada) {b : ℕ} {bloco : Block}
    (h : lerCache c b = some (c', bloco)) : b < c.disco.numBlocks ∧ c.Herda c' := by
  obtain ⟨c₁, hopen, rfl⟩ := lerCache_eq_some h
  have hopened : b < c.disco.numBlocks ∧ c.Herda c₁ := by
    rw [abrirEntrada] at hopen
    cases hg : hashGet c.tabela b with
    | none =>
        rw [hg] at hopen
        obtain ⟨hb, rfl⟩ := lt_of_carregar hopen
        exact ⟨hb, herda_nova hc hg _⟩
    | some e =>
        rw [hg] at hopen
        refine ⟨hc.inRange b e hg, ?_⟩
        dsimp only at hopen
        split at hopen
        · obtain rfl := Option.some.inj hopen
          exact fun j e' he' hm => ⟨e', he', hm, rfl⟩
        · obtain ⟨harr, hnone, hherda⟩ := herda_retirar hc hg
          obtain ⟨-, rfl⟩ := lt_of_carregar hopen
          exact hherda.trans (herda_nova harr hnone _)
  refine ⟨hopened.1, hopened.2.trans fun j e' he' hm => ?_⟩
  rw [CacheT.assign, hashGet_assign] at he'
  split at he'
  · obtain ⟨e, he, rfl⟩ := Option.map_eq_some_iff.mp he'
    exact ⟨e, he, hm, rfl⟩
  · exact ⟨e', he', hm, rfl⟩

end CacheT

end ThreadScheduler.SnfsServer
