import ThreadScheduler.SnfsServer.CacheCapacity

/-!
# Delayed writes

An entry grows two seconds older with each sweep, whatever is read from it or written to it
meanwhile, and leaves the cache at ten seconds at the latest. So what is written is on disk after
five sweeps, unless a later write to the block went there in its place.
-/
namespace ThreadScheduler.SnfsServer

/-- Every entry is valid and younger than ten seconds. -/
structure Fresca (c : CacheT) : Prop where
  coerente : c.Coherent
  arrumada : c.Arrumada
  valida : ∀ b e, hashGet c.tabela b = some e → e.valido = true
  jovem : ∀ b e, hashGet c.tabela b = some e → 0 ≤ e.tempoEmCache ∧ e.tempoEmCache < 10

theorem criarCache_fresca {dimensao : ℕ} (h : 0 < dimensao) (disco : Blocks) (pilha : ℕ → ℤ) :
    Fresca (criarCache dimensao disco pilha) :=
  ⟨criarCache_coherent h disco pilha, criarCache_arrumada h disco pilha, by simp [criarCache],
    by simp [criarCache]⟩

/-! ## Reads and writes -/

/-- The entry of `b` is new, or `f` of what it was. The others are as they were or taken out. -/
structure Acedida (c c' : CacheT) (b : ℕ) (f : Icache → Icache) (modificado : Bool) : Prop where
  outras : ∀ j, j ≠ b → hashGet c'.tabela j = hashGet c.tabela j ∨ hashGet c'.tabela j = none
  propria : ∀ e, hashGet c.tabela b = some e → hashGet c'.tabela b = some (f e)
  nova : hashGet c.tabela b = none →
    ∃ dados, hashGet c'.tabela b = some ⟨b, true, true, modificado, 0, dados⟩

theorem novaEntradaCache_acedida {c : CacheT} (hc : c.Arrumada) {b : ℕ}
    (hn : hashGet c.tabela b = none) (f : Icache → Icache) (modificado : Bool) (dados : Block) :
    Acedida c (novaEntradaCache c b modificado dados) b f modificado := by
  have hl := CacheT.comEspaco_libertada hc
  have hn' := hl.none hn
  obtain ⟨-, hget⟩ := hashGet_insert_of_none ⟨b, true, true, modificado, 0, dados⟩ hn'
  rw [novaEntradaCache_eq c b modificado dados hn']
  refine ⟨fun j hj => ?_, fun e he => ?_, fun _ => ⟨dados, ?_⟩⟩
  · dsimp only
    rw [hget, if_neg hj]
    exact hl.entradas j
  · rw [hn] at he
    cases he
  · dsimp only
    rw [hget, if_pos rfl]

theorem assign_acedida {c : CacheT} {b : ℕ} {e : Icache} (he : hashGet c.tabela b = some e)
    (f : Icache → Icache) (modificado : Bool) : Acedida c (c.assign b f) b f modificado := by
  refine ⟨fun j hj => ?_, fun e' he' => ?_, fun hn => ?_⟩
  · rw [CacheT.assign, hashGet_assign, if_neg hj]
    exact .inl rfl
  · rw [CacheT.assign, hashGet_assign, if_pos rfl, he', Option.map_some]
  · rw [he] at hn
    cases hn

theorem lerCache_eq_some {c c' : CacheT} {b : ℕ} {bloco : Block}
    (h : lerCache c b = some (c', bloco)) : ∃ c₁, abrirEntrada c b = some c₁ ∧
      c' = c₁.assign b fun entrada => { entrada with valido := true, referenciado := true } := by
  obtain ⟨c₁, hopen, h⟩ := Option.bind_eq_some_iff.mp h
  obtain ⟨e, -, h⟩ := Option.bind_eq_some_iff.mp h
  obtain ⟨rfl, -⟩ := Prod.mk.inj (Option.some.inj h)
  exact ⟨c₁, hopen, rfl⟩

theorem lerCache_acedida {c c' : CacheT} (h : Fresca c) {b : ℕ} (hb : b < c.disco.numBlocks)
    {bloco : Block} (hler : lerCache c b = some (c', bloco)) :
    Acedida c c' b (fun entrada => { entrada with valido := true, referenciado := true })
      false := by
  obtain ⟨c₁, hopen, rfl⟩ := lerCache_eq_some hler
  rw [abrirEntrada] at hopen
  cases hg : hashGet c.tabela b with
  | none =>
      rw [hg] at hopen
      dsimp only at hopen
      rw [carregarBlocoParaCache, blockRead_of_lt hb] at hopen
      obtain rfl := Option.some.inj hopen
      have ha := novaEntradaCache_acedida h.arrumada hg
        (fun entrada => { entrada with valido := true, referenciado := true }) false
        (c.disco.blocks b)
      obtain ⟨dados, hnova⟩ := ha.nova hg
      have hset := assign_acedida hnova
        (fun entrada => { entrada with valido := true, referenciado := true }) false
      refine ⟨fun j hj => ?_, fun e he => ?_, fun _ => ⟨dados, hset.propria _ hnova⟩⟩
      · rcases hset.outras j hj with hs | hs
        · rw [hs]
          exact ha.outras j hj
        · exact .inr hs
      · rw [hg] at he
        cases he
  | some e =>
      rw [hg] at hopen
      dsimp only at hopen
      rw [if_pos (h.valida b e hg)] at hopen
      obtain rfl := Option.some.inj hopen
      exact assign_acedida hg _ _

theorem escreverCache_acedida {c : CacheT} (h : Fresca c) (b : ℕ) (bloco : Block) :
    Acedida c (escreverCache c b bloco).2 b (fun entrada => { entrada with
      conteudobloco := bloco, referenciado := true, modificado := true, valido := true }) true := by
  rw [escreverCache]
  cases hg : hashGet c.tabela b with
  | none => exact novaEntradaCache_acedida h.arrumada hg _ _ _
  | some e =>
      dsimp only
      rw [if_pos (h.valida b e hg)]
      exact assign_acedida hg _ _

theorem Acedida.fresca {c c' : CacheT} {b : ℕ} {f : Icache → Icache} {modificado : Bool}
    (ha : Acedida c c' b f modificado) (h : Fresca c) (hcoh : c'.Coherent) (harr : c'.Arrumada)
    (hvalid : ∀ e, (f e).valido = true) (htempo : ∀ e, (f e).tempoEmCache = e.tempoEmCache) :
    Fresca c' := by
  have hentry : ∀ j e', hashGet c'.tabela j = some e' →
      e'.valido = true ∧ 0 ≤ e'.tempoEmCache ∧ e'.tempoEmCache < 10 := by
    intro j e' he'
    by_cases hj : j = b
    · subst hj
      cases hg : hashGet c.tabela j with
      | none =>
          obtain ⟨dados, hnova⟩ := ha.nova hg
          obtain rfl := Option.some.inj (hnova.symm.trans he')
          exact ⟨rfl, le_rfl, by norm_num⟩
      | some e =>
          obtain rfl := Option.some.inj ((ha.propria e hg).symm.trans he')
          exact ⟨hvalid e, htempo e ▸ h.jovem j e hg⟩
    · rcases ha.outras j hj with hs | hs
      · exact ⟨h.valida j e' (hs ▸ he'), h.jovem j e' (hs ▸ he')⟩
      · rw [hs] at he'
        cases he'
  exact ⟨hcoh, harr, fun j e' he' => (hentry j e' he').1, fun j e' he' => (hentry j e' he').2⟩

/-! ## One call -/

namespace CacheOp

/-- The calls of the file system, with the sweep as `thread_actualiza_Cache` makes it. -/
def Periodica : CacheOp → Prop
  | ler _ => True
  | escrever _ _ => True
  | eliminar _ => False
  | actualizar intervaloTempo => intervaloTempo = 2

def varre : CacheOp → Bool
  | actualizar _ => true
  | _ => false

/-- A modified entry goes to disk, or stays modified, grows older with a sweep, and holds what it
held or what is written now. -/
def Leva (op : CacheOp) (c c' : CacheT) : Prop :=
  ∀ b e, hashGet c.tabela b = some e → e.modificado = true →
    c'.disco.blocks b = e.conteudobloco ∨
    ∃ e', hashGet c'.tabela b = some e' ∧ e'.modificado = true ∧
      e'.tempoEmCache = e.tempoEmCache + (if op.varre then 2 else 0) ∧
      (e'.conteudobloco = e.conteudobloco ∨ op = escrever b e'.conteudobloco)

/-- An entry that another block's call took out is on disk. -/
theorem leva_outra {c c' : CacheT} (h : Fresca c) {b : ℕ} {f : Icache → Icache} {modificado : Bool}
    (ha : Acedida c c' b f modificado) {data : Block} (hh : Holds c c' b data) {j : ℕ} (hj : j ≠ b)
    {e : Icache} (he : hashGet c.tabela j = some e) :
    c'.disco.blocks j = e.conteudobloco ∨ hashGet c'.tabela j = some e := by
  rcases ha.outras j hj with hs | hs
  · exact .inr (hs.trans he)
  · left
    rcases hh.others j hj with hsame | hev
    · rw [hsame.none_iff.mp hs] at he
      cases he
    · rw [hev.2, CacheT.conteudo_of_valid he (h.valida j e he)]

theorem exec_fresca {c : CacheT} (h : Fresca c) (op : CacheOp) (hop : op.Periodica)
    (hin : op.InRange c.disco.numBlocks) :
    ∃ c', exec c op = some c' ∧ Fresca c' ∧ c'.disco.numBlocks = c.disco.numBlocks ∧
      op.Leva c c' := by
  cases op with
  | ler b =>
      obtain ⟨c', hler, hcoh, hh⟩ := lerCache_holds h.coerente hin
      obtain ⟨c'', bloco, hler', hcar⟩ := lerCache_carregada h.arrumada hin
      obtain ⟨rfl, rfl⟩ := Prod.mk.inj (Option.some.inj (hler.symm.trans hler'))
      have ha := lerCache_acedida h hin hler
      refine ⟨c', by rw [exec, hler]; rfl, ha.fresca h hcoh hcar.arrumada (fun _ => rfl)
        fun _ => rfl, hh.numBlocks, fun j e he hm => ?_⟩
      by_cases hj : j = b
      · subst hj
        exact .inr ⟨_, ha.propria e he, hm, (add_zero _).symm, .inl rfl⟩
      · exact (leva_outra h ha hh hj he).imp id fun hs =>
          ⟨e, hs, hm, (add_zero _).symm, .inl rfl⟩
  | escrever b bloco =>
      obtain ⟨-, hcoh, hh⟩ := escreverCache_holds h.coerente hin bloco
      have hcar := escreverCache_carregada h.arrumada hin bloco
      have ha := escreverCache_acedida h b bloco
      refine ⟨_, rfl, ha.fresca h hcoh hcar.arrumada (fun _ => rfl) fun _ => rfl, hh.numBlocks,
        fun j e he hm => ?_⟩
      by_cases hj : j = b
      · subst hj
        exact .inr ⟨_, ha.propria e he, rfl, (add_zero _).symm, .inr rfl⟩
      · exact (leva_outra h ha hh hj he).imp id fun hs =>
          ⟨e, hs, hm, (add_zero _).symm, .inl rfl⟩
  | eliminar b => exact hop.elim
  | actualizar intervaloTempo =>
      obtain rfl : intervaloTempo = 2 := hop
      have hv := actualizarCache_varrida h.arrumada 2
      have hs := actualizarCache_settled h.coerente 2
      have hentry : ∀ j e', hashGet (actualizarCache c 2).tabela j = some e' →
          ∃ e, hashGet c.tabela j = some e ∧ e.tempoEmCache + 2 < 10 ∧
            e' = { e with tempoEmCache := e.tempoEmCache + 2, referenciado := false } := by
        intro j e' he'
        rw [hv.hashGet_eq h.arrumada.tabela] at he'
        obtain ⟨e, he, hold⟩ := Option.bind_eq_some_iff.mp he'
        rw [Icache.envelhecida] at hold
        split at hold
        · cases hold
        · rename_i htempo
          exact ⟨e, he, not_le.mp htempo, (Option.some.inj hold).symm⟩
      refine ⟨_, rfl, ⟨hs.coherent h.coerente, hv.arrumada, fun j e' he' => ?_, fun j e' he' => ?_⟩,
        hs.numBlocks, fun j e he hm => ?_⟩
      · obtain ⟨e, he, -, rfl⟩ := hentry j e' he'
        exact h.valida j e he
      · obtain ⟨e, he, hlt, rfl⟩ := hentry j e' he'
        exact ⟨by have := (h.jovem j e he).1; dsimp only; omega, hlt⟩
      · have hget := hv.hashGet_eq h.arrumada.tabela j
        have hdisk := hv.blocks_of_some h.arrumada.tabela he
        rw [he, Option.bind_some] at hget
        by_cases htempo : 10 ≤ e.tempoEmCache + 2
        · left
          rw [hdisk, Icache.envelhecida, if_pos htempo, Icache.guardado, hm, h.valida j e he]
          rfl
        · rw [Icache.envelhecida, if_neg htempo] at hget
          exact .inr ⟨_, hget, hm, rfl, .inl rfl⟩

/-! ## Runs -/

theorem run_append (c : CacheT) (ops ops' : List CacheOp) :
    run c (ops ++ ops') = (run c ops).bind fun c => run c ops' := by
  induction ops generalizing c with
  | nil => rfl
  | cons op ops ih =>
      rw [List.cons_append, run, run]
      cases exec c op with
      | none => rfl
      | some c' => exact ih c'

theorem run_fresca {c : CacheT} (h : Fresca c) {ops : List CacheOp}
    (hops : ∀ op ∈ ops, op.Periodica ∧ op.InRange c.disco.numBlocks) :
    ∃ c', run c ops = some c' ∧ Fresca c' ∧ c'.disco.numBlocks = c.disco.numBlocks := by
  induction ops generalizing c with
  | nil => exact ⟨c, rfl, h, rfl⟩
  | cons op ops ih =>
      obtain ⟨hop, hin⟩ := hops op List.mem_cons_self
      obtain ⟨c₁, he, h₁, hn₁, -⟩ := exec_fresca h op hop hin
      obtain ⟨c', hr, h', hn'⟩ := ih h₁ fun o ho => hn₁ ▸ hops o (List.mem_cons_of_mem op ho)
      exact ⟨c', by rw [run, he]; exact hr, h', hn'.trans hn₁⟩

/-- The content of the write to `b`, or of one of the writes to it among `feitas`. -/
def EscritoDesde (b : ℕ) (data : Block) (feitas : List CacheOp) (bloco : Block) : Prop :=
  bloco = data ∨ escrever b bloco ∈ feitas

/-- After a write and the calls `feitas`, the disk has held what was written, or an entry still
does that is as old as the sweeps since. -/
theorem run_escrever {c : CacheT} (h : Fresca c) {b : ℕ} (hb : b < c.disco.numBlocks) (data : Block)
    (feitas : List CacheOp) (hops : ∀ op ∈ feitas, op.Periodica ∧ op.InRange c.disco.numBlocks) :
    (∃ gravado, gravado <+: feitas ∧ ∃ c', run c (escrever b data :: gravado) = some c' ∧
      EscritoDesde b data gravado (c'.disco.blocks b)) ∨
    ∃ c', run c (escrever b data :: feitas) = some c' ∧ Fresca c' ∧
      c'.disco.numBlocks = c.disco.numBlocks ∧
      ∃ e, hashGet c'.tabela b = some e ∧ e.modificado = true ∧
        2 * (feitas.countP varre : ℤ) ≤ e.tempoEmCache ∧
        EscritoDesde b data feitas e.conteudobloco := by
  induction feitas using List.reverseRecOn with
  | nil =>
      obtain ⟨c', he, h', hn', -⟩ := exec_fresca h (escrever b data) trivial hb
      obtain rfl := Option.some.inj he
      have ha := escreverCache_acedida h b data
      refine .inr ⟨_, rfl, h', hn', ?_⟩
      cases hg : hashGet c.tabela b with
      | none =>
          obtain ⟨dados, hnova⟩ := ha.nova hg
          obtain ⟨-, -, hh⟩ := escreverCache_holds h.coerente hb data
          obtain ⟨e, he', -, hd⟩ := hh.entry
          obtain rfl := Option.some.inj (hnova.symm.trans he')
          exact ⟨_, hnova, rfl, le_rfl, .inl hd⟩
      | some e =>
          exact ⟨_, ha.propria e hg, rfl, (h.jovem b e hg).1, .inl rfl⟩
  | append_singleton feitas op ih =>
      obtain ⟨hop, hin⟩ := hops op (by simp)
      rcases ih fun o ho => hops o (List.mem_append_left _ ho) with
        ⟨gravado, hpre, hg⟩ | ⟨c', hrun, h', hn', e, he, hm, htempo, hesc⟩
      · exact .inl ⟨gravado, hpre.trans (List.prefix_append ..), hg⟩
      · obtain ⟨c'', hexec, h'', hn'', hleva⟩ := exec_fresca h' op hop (hn' ▸ hin)
        have hrun' : run c (escrever b data :: (feitas ++ [op])) = some c'' := by
          rw [← List.cons_append, run_append, hrun, Option.bind_some, run, hexec]
          rfl
        have hmais : ∀ bloco, EscritoDesde b data feitas bloco →
            EscritoDesde b data (feitas ++ [op]) bloco :=
          fun bloco hd => hd.imp id (List.mem_append_left _)
        rcases hleva b e he hm with hdisk | ⟨e', he', hm', htempo', hcont⟩
        · exact .inl ⟨feitas ++ [op], List.prefix_rfl, c'', hrun', hdisk ▸ hmais _ hesc⟩
        · refine .inr ⟨c'', hrun', h'', hn''.trans hn', e', he', hm', ?_, ?_⟩
          · rw [htempo', List.countP_append, List.countP_singleton]
            split <;> push_cast <;> omega
          · rcases hcont with hcont | rfl
            · exact hcont ▸ hmais _ hesc
            · exact .inr (by simp)

/-- Nothing is ten seconds old after a sweep, and five sweeps after a write the disk has held what
was written, or what was written to the block since. -/
theorem gravado_em_cinco {dimensao : ℕ} (hdim : 0 < dimensao) (disco : Blocks) (pilha : ℕ → ℤ)
    {ops : List CacheOp} (hops : ∀ op ∈ ops, op.Periodica ∧ op.InRange disco.numBlocks) :
    (∀ antes, antes ++ [actualizar 2] <+: ops →
      ∃ c, run (criarCache dimensao disco pilha) (antes ++ [actualizar 2]) = some c ∧
        ∀ b e, hashGet c.tabela b = some e → e.tempoEmCache < 10) ∧
    ∀ antes b data depois, antes ++ escrever b data :: depois <+: ops → depois.countP varre = 5 →
      ∃ feitas, feitas <+: depois ∧ ∃ c,
        run (criarCache dimensao disco pilha) (antes ++ escrever b data :: feitas) = some c ∧
          EscritoDesde b data feitas (c.disco.blocks b) := by
  have h₀ := criarCache_fresca hdim disco pilha
  refine ⟨fun antes hpre => ?_, fun antes b data depois hpre hcinco => ?_⟩
  · obtain ⟨c, hrun, h, -⟩ := run_fresca h₀ fun op hop => hops op (hpre.subset hop)
    exact ⟨c, hrun, fun b e he => (h.jovem b e he).2⟩
  · obtain ⟨c, hrun, h, hn⟩ := run_fresca h₀ fun op hop =>
      hops op (hpre.subset (List.mem_append_left _ hop))
    have hn : c.disco.numBlocks = disco.numBlocks := hn
    have hb : b < c.disco.numBlocks := hn ▸ (hops (escrever b data) (hpre.subset (by simp))).2
    have hjunta : ∀ feitas, run (criarCache dimensao disco pilha)
        (antes ++ escrever b data :: feitas) = run c (escrever b data :: feitas) := by
      intro feitas
      rw [run_append, hrun, Option.bind_some]
    rcases run_escrever h hb data depois fun op hop =>
        hn ▸ hops op (hpre.subset (by simp [hop])) with
      ⟨feitas, hf, c', hr, hesc⟩ | ⟨c', -, h', -, e, he, -, htempo, -⟩
    · exact ⟨feitas, hf, c', (hjunta feitas).trans hr, hesc⟩
    · -- the entry would be ten seconds old
      have hlt := (h'.jovem b e he).2
      rw [hcinco] at htempo
      omega

/-- A write that the next read evicts, and five sweeps. -/
def escreverELer : List CacheOp :=
  [escrever 1 fun _ => 5, ler 0, actualizar 2, actualizar 2, actualizar 2, actualizar 2,
    actualizar 2]

theorem gravado_em_cinco_exemplo :
    (∀ antes, antes ++ [actualizar 2] <+: escreverELer →
      ∃ c, run (criarCache 1 (blockNew 2) fun _ => 0) (antes ++ [actualizar 2]) = some c ∧
        ∀ b e, hashGet c.tabela b = some e → e.tempoEmCache < 10) ∧
    ∀ antes b data depois, antes ++ escrever b data :: depois <+: escreverELer →
      depois.countP varre = 5 → ∃ feitas, feitas <+: depois ∧ ∃ c,
        run (criarCache 1 (blockNew 2) fun _ => 0) (antes ++ escrever b data :: feitas) = some c ∧
          EscritoDesde b data feitas (c.disco.blocks b) :=
  gravado_em_cinco (by decide) (blockNew 2) (fun _ => 0)
    (by simp [escreverELer, Periodica, InRange, blockNew])

end CacheOp

end ThreadScheduler.SnfsServer
