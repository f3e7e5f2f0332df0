import ThreadScheduler.Lib.Runs
import ThreadScheduler.SnfsServer.CacheReplacement

/-!
# The capacity of the cache

The count of the cache is always the number of nodes. It stays within the capacity as long as
`libertarEspaco` frees something each time, which the value that its own count starts with decides
when no entry is invalid.
-/
namespace ThreadScheduler.SnfsServer

/-! ## Making room -/

/-- The count goes down by making room unless a full cache of valid entries meets a count that does
not start at zero. -/
theorem libertarEspaco_numero_lt_iff {c : CacheT} (hc : c.Arrumada) (hne : c.tabela.nos ≠ []) :
    (libertarEspaco c).numeroNosUtilizados < c.numeroNosUtilizados ↔
      ((∀ no ∈ c.tabela.nos, no.value.valido = true) → c.pilha 0 = 0) := by
  have hc' := hc.pilha fun n => c.pilha (n + 1)
  constructor
  · intro hlt hvalid
    by_contra h0
    have hvazia := libertarClasse_vazia hc' (fun e => !e.valido) (c.pilha 0) fun no hno => by
      rw [hvalid no hno, Bool.not_true]
    rw [libertarEspaco, classesNRU, libertarClasses, hvazia, if_pos h0] at hlt
    exact lt_irrefl _ hlt
  · intro h
    by_cases hvalid : ∀ no ∈ c.tabela.nos, no.value.valido = true
    · obtain ⟨-, classe, -, -, -, hclasse, hd⟩ := libertarEspaco_primeiraClasse hc hne (h hvalid)
      have hpos : 0 < c.tabela.nos.countP (classe ·.value) := List.countP_pos_iff.mpr hclasse
      rw [hd.numero]
      omega
    · -- the first pass takes an invalid entry out, and the later ones put none in
      push Not at hvalid
      obtain ⟨no, hno, hinv⟩ := hvalid
      have hd := libertarClasse_despejada hc' (fun e => !e.valido) (c.pilha 0)
      have hpos : 0 < c.tabela.nos.countP (!·.value.valido) :=
        List.countP_pos_iff.mpr ⟨no, hno, by simpa using hinv⟩
      have hnum := hd.numero
      dsimp only at hnum
      rw [libertarEspaco, classesNRU, libertarClasses]
      split
      · omega
      · have hl := libertarClasses_libertada hd.arrumada classesNRU.tail 0
        have hle := hl.length_le hd.arrumada
        have hcont := hl.contados
        rw [classesNRU, List.tail_cons] at hle hcont
        omega

/-- The cache in which a new entry is put. -/
def CacheT.comEspaco (c : CacheT) : CacheT :=
  if c.numeroNosUtilizados = c.numeroMaxNos then libertarEspaco c else c

theorem CacheT.comEspaco_libertada {c : CacheT} (hc : c.Arrumada) : Libertada c c.comEspaco := by
  rw [comEspaco]
  split
  · exact libertarEspaco_libertada hc
  · exact .refl hc

theorem CacheT.comEspaco_numero_lt_iff {c : CacheT} (hc : c.Arrumada) (hmax : 0 < c.numeroMaxNos)
    (hnum : c.numeroNosUtilizados = c.tabela.nos.length)
    (hle : c.numeroNosUtilizados ≤ c.numeroMaxNos) :
    c.comEspaco.numeroNosUtilizados < c.numeroMaxNos ↔ (c.numeroNosUtilizados = c.numeroMaxNos →
      (∀ no ∈ c.tabela.nos, no.value.valido = true) → c.pilha 0 = 0) := by
  rw [comEspaco]
  split
  · rename_i hfull
    have hne : c.tabela.nos ≠ [] := by
      intro hnil
      rw [hnil, List.length_nil] at hnum
      omega
    rw [← hfull, libertarEspaco_numero_lt_iff hc hne]
    exact ⟨fun h _ => h, fun h => h rfl⟩
  · rename_i hfull
    exact ⟨fun _ h => absurd h hfull, fun _ => lt_of_le_of_ne hle hfull⟩

theorem novaEntradaCache_eq (c : CacheT) (b : ℕ) (modificado : Bool) (dados : Block)
    (hn : hashGet c.comEspaco.tabela b = none) : novaEntradaCache c b modificado dados =
      { c.comEspaco with
        tabela := (hashInsert c.comEspaco.tabela b ⟨b, true, true, modificado, 0, dados⟩).2
        numeroNosUtilizados := c.comEspaco.numeroNosUtilizados + 1 } := by
  have hs := (hashGet_insert_of_none ⟨b, true, true, modificado, 0, dados⟩ hn).1
  rw [novaEntradaCache]
  exact if_pos hs

theorem novaEntradaCache_sucede {c : CacheT} (hc : c.Arrumada) {b : ℕ}
    (hb : b < c.disco.numBlocks) (hn : hashGet c.tabela b = none) (modificado : Bool)
    (dados : Block) : Sucede c (novaEntradaCache c b modificado dados) ∧
      (novaEntradaCache c b modificado dados).numeroNosUtilizados =
        c.comEspaco.numeroNosUtilizados + 1 ∧
      hashGet (novaEntradaCache c b modificado dados).tabela b ≠ none := by
  have hl := CacheT.comEspaco_libertada hc
  have hn' := hl.none hn
  obtain ⟨harr, hlen⟩ := hashInsert_arrumada hl.arrumada (hl.numBlocks ▸ hb) hn'
    (e := ⟨b, true, true, modificado, 0, dados⟩) rfl
  obtain ⟨-, hget⟩ := hashGet_insert_of_none ⟨b, true, true, modificado, 0, dados⟩ hn'
  rw [novaEntradaCache_eq c b modificado dados hn']
  refine ⟨hl.toSucede.trans ⟨⟨harr.tabela, harr.idBloco, harr.inRange⟩, rfl, rfl, ?_⟩, rfl, ?_⟩
  · dsimp only
    rw [hlen]
    push_cast
    ring
  · dsimp only
    rw [hget, if_pos rfl]
    exact Option.some_ne_none _

/-! ## The calls -/

theorem assign_sucede {c : CacheT} (hc : c.Arrumada) {b : ℕ} {f : Icache → Icache}
    (hb : hashGet c.tabela b ≠ none) (hf : ∀ e, (f e).idBloco = e.idBloco) :
    Sucede c (c.assign b f) := by
  obtain ⟨e, he⟩ := Option.ne_none_iff_exists'.mp hb
  exact (assign_varrida hc ⟨b, e⟩ (g := fun e => some (f e)) he rfl hf).toSucede

/-- What loading an entry does to the count: one more behind the room that was made, or as before
where the block had an entry. -/
structure Carregada (c : CacheT) (b : ℕ) (c' : CacheT) : Prop extends Sucede c c' where
  entrada : hashGet c'.tabela b ≠ none
  numero_none : hashGet c.tabela b = none →
    c'.numeroNosUtilizados = c.comEspaco.numeroNosUtilizados + 1
  numero_some : hashGet c.tabela b ≠ none → c.numeroNosUtilizados ≤ c.numeroMaxNos →
    c'.numeroNosUtilizados = c.numeroNosUtilizados

namespace Carregada

variable {c c' : CacheT} {b : ℕ}

theorem assign (h : Carregada c b c') {f : Icache → Icache} (hf : ∀ e, (f e).idBloco = e.idBloco) :
    Carregada c b (c'.assign b f) := by
  have hs := assign_sucede h.arrumada h.entrada hf
  refine ⟨h.toSucede.trans hs, ?_, h.numero_none, h.numero_some⟩
  rw [CacheT.assign, hashGet_assign, if_pos rfl, ne_eq, Option.map_eq_none_iff]
  exact h.entrada

theorem nova (hc : c.Arrumada) (hb : b < c.disco.numBlocks) (hn : hashGet c.tabela b = none)
    (modificado : Bool) (dados : Block) :
    Carregada c b (novaEntradaCache c b modificado dados) := by
  obtain ⟨hs, hnum, hent⟩ := novaEntradaCache_sucede hc hb hn modificado dados
  exact ⟨hs, hent, fun _ => hnum, fun h => absurd hn h⟩

theorem presente (hc : c.Arrumada) (h : hashGet c.tabela b ≠ none) : Carregada c b c :=
  ⟨.refl hc, h, fun hn => absurd hn h, fun _ _ => rfl⟩

/-- The entry is taken out and the block loaded again: there is room for it. -/
theorem outraVez (hc : c.Arrumada) {e : Icache} (h : hashGet c.tabela b = some e) :
    ∃ c', carregarBlocoParaCache (retirarDaCache c b).2 b = some c' ∧ Carregada c b c' := by
  obtain ⟨-, hr, hnum⟩ := retirarDaCache_varrida hc ⟨b, e⟩ (g := fun _ => none) h rfl
  have hn : hashGet (retirarDaCache c b).2.tabela b = none :=
    hr.entrada ⟨b, e⟩ List.mem_cons_self
  have hb : b < (retirarDaCache c b).2.disco.numBlocks := hr.numBlocks ▸ hc.inRange b e h
  refine ⟨_, by rw [carregarBlocoParaCache, blockRead_of_lt hb]; rfl, ?_⟩
  have hnova := nova hr.arrumada hb hn false ((retirarDaCache c b).2.disco.blocks b)
  refine ⟨hr.toSucede.trans hnova.toSucede, hnova.entrada, fun hnone => ?_, fun _ hle => ?_⟩
  · rw [h] at hnone
    cases hnone
  · have hmax := hr.numeroMaxNos
    have hfree : (retirarDaCache c b).2.comEspaco = (retirarDaCache c b).2 :=
      if_neg (by dsimp only at hnum hmax ⊢; omega)
    rw [hnova.numero_none hn, hfree, hnum]
    ring

end Carregada

theorem abrirEntrada_carregada {c : CacheT} (hc : c.Arrumada) {b : ℕ}
    (hb : b < c.disco.numBlocks) : ∃ c', abrirEntrada c b = some c' ∧ Carregada c b c' := by
  rw [abrirEntrada]
  cases hg : hashGet c.tabela b with
  | none =>
      exact ⟨_, by rw [carregarBlocoParaCache, blockRead_of_lt hb]; rfl, .nova hc hb hg _ _⟩
  | some e =>
      dsimp only
      split
      · exact ⟨c, rfl, .presente hc (hg ▸ Option.some_ne_none e)⟩
      · exact Carregada.outraVez hc hg

theorem lerCache_carregada {c : CacheT} (hc : c.Arrumada) {b : ℕ} (hb : b < c.disco.numBlocks) :
    ∃ c' bloco, lerCache c b = some (c', bloco) ∧ Carregada c b c' := by
  obtain ⟨c₁, hopen, h⟩ := abrirEntrada_carregada hc hb
  have h' := h.assign (f := fun entrada => { entrada with valido := true, referenciado := true })
    fun _ => rfl
  obtain ⟨e, he⟩ := Option.ne_none_iff_exists'.mp h'.entrada
  refine ⟨_, e.conteudobloco, ?_, h'⟩
  rw [lerCache, hopen, Option.bind_eq_bind, Option.bind_some]
  dsimp only
  rw [he]
  rfl

theorem escreverCache_carregada {c : CacheT} (hc : c.Arrumada) {b : ℕ}
    (hb : b < c.disco.numBlocks) (bloco : Block) :
    Carregada c b (escreverCache c b bloco).2 := by
  rw [escreverCache]
  cases hg : hashGet c.tabela b with
  | none => exact .nova hc hb hg _ _
  | some e =>
      dsimp only
      split
      · exact (Carregada.presente hc (hg ▸ Option.some_ne_none e)).assign fun _ => rfl
      · obtain ⟨c', hcar, h⟩ := Carregada.outraVez hc hg
        rw [hcar]
        exact h.assign fun _ => rfl

theorem invalidarBloco_sucede {c : CacheT} (hc : c.Arrumada) (b : ℕ) :
    Sucede c (invalidarBloco c b).2 ∧
      (invalidarBloco c b).2.numeroNosUtilizados = c.numeroNosUtilizados := by
  rw [invalidarBloco]
  cases hg : hashGet c.tabela b with
  | none => exact ⟨.refl hc, rfl⟩
  | some e => exact ⟨assign_sucede hc (hg ▸ Option.some_ne_none e) fun _ => rfl, rfl⟩

theorem eliminarBlocoCache_sucede {c : CacheT} (hc : c.Arrumada) (b : ℕ) :
    Sucede c (eliminarBlocoCache c b) ∧
      (eliminarBlocoCache c b).numeroNosUtilizados = c.numeroNosUtilizados := by
  obtain ⟨h, hnum⟩ := invalidarBloco_sucede hc b
  have hblocks := CacheT.writeDisk_numBlocks (invalidarBloco c b).2 b nullBlock
  refine ⟨h.trans ⟨⟨h.arrumada.tabela, h.arrumada.idBloco, fun j e he => ?_⟩, hblocks, rfl, rfl⟩,
    hnum⟩
  exact hblocks ▸ h.arrumada.inRange j e he

theorem actualizarCache_numero_le {c : CacheT} (hc : c.Arrumada) (intervaloTempo : ℤ) :
    (actualizarCache c intervaloTempo).numeroNosUtilizados ≤ c.numeroNosUtilizados := by
  have h := actualizarCache_varrida hc intervaloTempo
  have hle : (actualizarCache c intervaloTempo).tabela.nos.length ≤ c.tabela.nos.length := by
    refine hc.tabela.length_nos_le h.arrumada.tabela fun j hj => ?_
    rw [h.hashGet_eq hc.tabela, hj, Option.bind_none]
  have hcont := h.contados
  omega

/-! ## Runs -/

/-- A call of the cache, `invalidarBloco` included. -/
inductive CacheChamada where
  | interface (op : CacheOp)
  | invalidar (b : ℕ)

/-- The count is the number of entries in the table, and within the capacity. -/
def CacheT.Respeita (c : CacheT) : Prop :=
  c.numeroNosUtilizados = c.tabela.nos.length ∧ c.numeroNosUtilizados ≤ c.numeroMaxNos

namespace CacheChamada

def InRange (numBlocks : ℕ) : CacheChamada → Prop
  | interface op => op.InRange numBlocks
  | invalidar b => b < numBlocks

def exec (c : CacheT) : CacheChamada → Option (CacheT × Unit)
  | interface op => (op.exec c).map fun c => (c, ())
  | invalidar b => some ((invalidarBloco c b).2, ())

/-- The block of which the call makes an entry if there is none. -/
def carrega : CacheChamada → Option ℕ
  | interface (.ler b) => some b
  | interface (.escrever b _) => some b
  | interface (.eliminar _) => none
  | interface (.actualizar _) => none
  | invalidar _ => none

/-- An entry that is made in a full cache of valid entries finds `entradas_removidas` at zero. -/
def Liberta (c : CacheT) (chamada : CacheChamada) : Prop :=
  ∀ b, chamada.carrega = some b → hashGet c.tabela b = none →
    c.numeroNosUtilizados = c.numeroMaxNos → (∀ no ∈ c.tabela.nos, no.value.valido = true) →
    c.pilha 0 = 0

/-- The count stays within the capacity exactly if the room that is needed can be made. -/
theorem carregada_le_iff {c c' : CacheT} {b : ℕ} (h : Carregada c b c') (hc : c.Arrumada)
    {chamada : CacheChamada} (hcarrega : chamada.carrega = some b) (hmax : 0 < c.numeroMaxNos)
    (hr : c.Respeita) : c'.numeroNosUtilizados ≤ c'.numeroMaxNos ↔ Liberta c chamada := by
  rw [h.numeroMaxNos]
  by_cases hn : hashGet c.tabela b = none
  · rw [h.numero_none hn, Int.add_one_le_iff, CacheT.comEspaco_numero_lt_iff hc hmax hr.1 hr.2]
    constructor
    · intro hlib b' hb' _ hfull hvalid
      exact hlib hfull hvalid
    · exact fun hlib hfull hvalid => hlib b hcarrega hn hfull hvalid
  · refine iff_of_true ?_ fun b' hb' hn' => ?_
    · rw [h.numero_some hn hr.2]
      exact hr.2
    · obtain rfl := Option.some.inj (hcarrega.symm.trans hb')
      exact absurd hn' hn

theorem liberta_of_carrega_none {c : CacheT} {chamada : CacheChamada} (h : chamada.carrega = none) :
    Liberta c chamada := by
  intro b hb
  rw [h] at hb
  cases hb

theorem exec_sucede {c : CacheT} (hc : c.Arrumada) {chamada : CacheChamada}
    (h : chamada.InRange c.disco.numBlocks) : ∃ c', exec c chamada = some (c', ()) ∧ Sucede c c' ∧
      (0 < c.numeroMaxNos → c.Respeita →
        (c'.numeroNosUtilizados ≤ c'.numeroMaxNos ↔ Liberta c chamada)) := by
  cases chamada with
  | interface op =>
      cases op with
      | ler b =>
          obtain ⟨c', bloco, hler, hcar⟩ := lerCache_carregada hc h
          refine ⟨c', by rw [exec, CacheOp.exec, hler]; rfl, hcar.toSucede, fun hmax hr => ?_⟩
          exact carregada_le_iff hcar hc rfl hmax hr
      | escrever b bloco =>
          have hcar := escreverCache_carregada hc h bloco
          exact ⟨_, rfl, hcar.toSucede, fun hmax hr => carregada_le_iff hcar hc rfl hmax hr⟩
      | eliminar b =>
          obtain ⟨hs, hnum⟩ := eliminarBlocoCache_sucede hc b
          refine ⟨_, rfl, hs, fun _ hr => iff_of_true ?_ (liberta_of_carrega_none rfl)⟩
          rw [hs.numeroMaxNos, hnum]
          exact hr.2
      | actualizar intervaloTempo =>
          have hs := (actualizarCache_varrida hc intervaloTempo).toSucede
          refine ⟨_, rfl, hs, fun _ hr => iff_of_true ?_ (liberta_of_carrega_none rfl)⟩
          rw [hs.numeroMaxNos]
          exact (actualizarCache_numero_le hc intervaloTempo).trans hr.2
  | invalidar b =>
      obtain ⟨hs, hnum⟩ := invalidarBloco_sucede hc b
      refine ⟨_, rfl, hs, fun _ hr => iff_of_true ?_ (liberta_of_carrega_none rfl)⟩
      rw [hs.numeroMaxNos, hnum]
      exact hr.2

/-- In every run the table is in order, and the count is the number of nodes. -/
theorem run_sucede {c₀ c : CacheT} (hc₀ : c₀.Arrumada) {chamadas : List CacheChamada}
    (h : ∀ ch ∈ chamadas, ch.InRange c₀.disco.numBlocks) {os : List Unit}
    (hrun : Runs.run exec c₀ chamadas = some (c, os)) : Sucede c₀ c := by
  refine Runs.run_invariant (P := fun _ ch => ch.InRange c₀.disco.numBlocks) (I := Sucede c₀)
    (fun c ch c' o hI hch he => ?_) (.refl hc₀) (Runs.permitted_of_forall fun ch hch _ => h ch hch)
    hrun
  obtain ⟨c'', he', hs, -⟩ := exec_sucede hI.arrumada (hI.numBlocks ▸ hch)
  obtain ⟨rfl, -⟩ := Prod.mk.inj (Option.some.inj (he'.symm.trans he))
  exact hI.trans hs

theorem capacidade_iff {dimensao : ℕ} (hdim : 0 < dimensao) (disco : Blocks) (pilha : ℕ → ℤ)
    {chamadas : List CacheChamada} (h : ∀ ch ∈ chamadas, ch.InRange disco.numBlocks) :
    (∀ feitas, feitas <+: chamadas → ∀ c os,
      Runs.run exec (criarCache dimensao disco pilha) feitas = some (c, os) → c.Respeita) ↔
      Runs.Permitted exec Liberta (criarCache dimensao disco pilha) chamadas := by
  have hc₀ := criarCache_arrumada hdim disco pilha
  have hconta : ∀ c, Sucede (criarCache dimensao disco pilha) c →
      c.numeroNosUtilizados = c.tabela.nos.length := by
    intro c hs
    have hcont := hs.contados
    have h₀ : (criarCache dimensao disco pilha).tabela.nos.length = 0 := by
      simp [HashMap.nos, criarCache, newHash]
    rw [h₀] at hcont
    simp only [criarCache] at hcont
    omega
  have hiff : Runs.Permitted exec Liberta (criarCache dimensao disco pilha) chamadas ↔
      ∀ feitas, feitas <+: chamadas → ∀ c os,
        Runs.run exec (criarCache dimensao disco pilha) feitas = some (c, os) →
          Sucede (criarCache dimensao disco pilha) c ∧ c.Respeita := by
    refine Runs.permitted_iff_invariant
      (I := fun c => Sucede (criarCache dimensao disco pilha) c ∧ c.Respeita)
      (fun c ch hch hI => ?_) ⟨.refl hc₀, hconta _ (.refl hc₀), by simp [criarCache]⟩
    obtain ⟨c', he, hs, hle⟩ := exec_sucede hI.1.arrumada (hI.1.numBlocks ▸ h ch hch)
    have hmax : 0 < c.numeroMaxNos := by
      rw [hI.1.numeroMaxNos]
      exact Int.natCast_pos.mpr hdim
    rw [← hle hmax hI.2]
    constructor
    · intro hl c'' o he'
      obtain ⟨rfl, -⟩ := Prod.mk.inj (Option.some.inj (he.symm.trans he'))
      exact ⟨hI.1.trans hs, hconta _ (hI.1.trans hs), hl⟩
    · exact fun hall => (hall c' () he).2.2
  rw [hiff]
  refine ⟨fun hr feitas hf c os hrun => ⟨?_, hr feitas hf c os hrun⟩,
    fun hr feitas hf c os hrun => (hr feitas hf c os hrun).2⟩
  exact run_sucede hc₀ (fun ch hch => h ch (hf.subset hch)) hrun

theorem capacidade_iff_exemplo :
    (∀ feitas, feitas <+: [.interface (.ler 0), .invalidar 0, .interface (.ler 1)] → ∀ c os,
      Runs.run exec (criarCache 1 (blockNew 2) fun _ => 7) feitas = some (c, os) → c.Respeita) ↔
      Runs.Permitted exec Liberta (criarCache 1 (blockNew 2) fun _ => 7)
        [.interface (.ler 0), .invalidar 0, .interface (.ler 1)] :=
  capacidade_iff (by decide) (blockNew 2) (fun _ => 7)
    (by simp [InRange, CacheOp.InRange, blockNew])

/-- `entradas_removidas` starts with seven, nothing is removed, and the cache of one entry holds
two. -/
theorem capacidade_excedida : ∃ c os,
    Runs.run exec (criarCache 1 (blockNew 2) fun _ => 7)
      [.interface (.ler 0), .interface (.ler 1)] = some (c, os) ∧ ¬c.Respeita :=
  ⟨_, _, rfl, fun h => absurd h.2 (by decide)⟩

end CacheChamada

end ThreadScheduler.SnfsServer
