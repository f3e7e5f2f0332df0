import ThreadScheduler.SnfsServer.CacheCoherence

/-!
# Evictions and sweeps, entry by entry

A pass of `libertarEspaco` and the periodic sweep walk over the nodes of the table and do one thing
to each entry: keep it, change it or take it out. `Varrida` is what such a walk has done. The count
of the cache moves with the number of nodes.
-/
namespace ThreadScheduler.SnfsServer

/-! ## The nodes of the table -/

namespace HashMap

/-- The nodes of the table, in the order in which the loops visit them. -/
def nos (hmap : HashMap) : List HashNode := (List.range hmap.length).flatMap hmap.elems

theorem procurar_eq_some_iff {key : ℕ} {e : Icache} {chain : List HashNode}
    (h : (chain.map HashNode.key).Nodup) : procurar key chain = some e ↔ ⟨key, e⟩ ∈ chain := by
  induction chain with
  | nil => simp [procurar]
  | cons aux next ih =>
      obtain ⟨hnot, hnext⟩ := List.nodup_cons.mp h
      obtain ⟨k, v⟩ := aux
      by_cases hk : k = key
      · subst hk
        have hne : (⟨k, e⟩ : HashNode) ∉ next := fun hm =>
          hnot (List.mem_map.mpr ⟨_, hm, rfl⟩)
        simp [procurar, hne, eq_comm]
      · simp [procurar, hk, ih hnext, Ne.symm hk]

namespace WellFormed

variable {hmap : HashMap}

theorem indice_lt (hw : hmap.WellFormed) (key : ℕ) : hmap.indice key < hmap.length :=
  Nat.mod_lt _ hw.length_pos

theorem mem_elems_iff (hw : hmap.WellFormed) {i : ℕ} {no : HashNode} :
    no ∈ hmap.elems i ↔ hmap.indice no.key = i ∧ hashGet hmap no.key = some no.value := by
  constructor
  · intro h
    have hi := hw.bucket i no.key (List.mem_map_of_mem h)
    refine ⟨hi, ?_⟩
    rw [hashGet, hi]
    exact (procurar_eq_some_iff (hw.nodup i)).mpr h
  · rintro ⟨rfl, h⟩
    exact (procurar_eq_some_iff (hw.nodup _)).mp h

theorem mem_nos_iff (hw : hmap.WellFormed) {no : HashNode} :
    no ∈ hmap.nos ↔ hashGet hmap no.key = some no.value := by
  rw [nos, List.mem_flatMap]
  constructor
  · rintro ⟨i, -, h⟩
    exact (hw.mem_elems_iff.mp h).2
  · intro h
    exact ⟨_, List.mem_range.mpr (hw.indice_lt no.key), hw.mem_elems_iff.mpr ⟨rfl, h⟩⟩

theorem mem_chaves_iff (hw : hmap.WellFormed) {key : ℕ} :
    key ∈ hmap.nos.map HashNode.key ↔ hashGet hmap key ≠ none := by
  rw [List.mem_map, Option.ne_none_iff_exists']
  constructor
  · rintro ⟨no, hno, rfl⟩
    exact ⟨no.value, hw.mem_nos_iff.mp hno⟩
  · rintro ⟨e, he⟩
    exact ⟨⟨key, e⟩, hw.mem_nos_iff.mpr he, rfl⟩

theorem nodup_chaves (hw : hmap.WellFormed) : (hmap.nos.map HashNode.key).Nodup := by
  rw [nos, List.map_flatMap, List.nodup_flatMap]
  refine ⟨fun i _ => hw.nodup i, List.nodup_range.imp fun {i j} hij k hi hj => ?_⟩
  exact hij ((hw.bucket i k hi).symm.trans (hw.bucket j k hj))

theorem nodup_nos (hw : hmap.WellFormed) : hmap.nos.Nodup := hw.nodup_chaves.of_map _

/-- Tables with the same keys have as many nodes. -/
theorem length_nos_eq {hmap' : HashMap} (hw : hmap.WellFormed) (hw' : hmap'.WellFormed)
    (h : ∀ key, hashGet hmap' key = none ↔ hashGet hmap key = none) :
    hmap'.nos.length = hmap.nos.length := by
  have hperm : (hmap'.nos.map HashNode.key).Perm (hmap.nos.map HashNode.key) := by
    refine (List.perm_ext_iff_of_nodup hw'.nodup_chaves hw.nodup_chaves).mpr fun key => ?_
    rw [hw'.mem_chaves_iff, hw.mem_chaves_iff, ne_eq, h]
  simpa using hperm.length_eq

/-- A table that has only keys of another has at most as many nodes. -/
theorem length_nos_le {hmap' : HashMap} (hw : hmap.WellFormed) (hw' : hmap'.WellFormed)
    (h : ∀ key, hashGet hmap key = none → hashGet hmap' key = none) :
    hmap'.nos.length ≤ hmap.nos.length := by
  have hsub : hmap'.nos.map HashNode.key ⊆ hmap.nos.map HashNode.key := by
    intro key hkey
    rw [hw'.mem_chaves_iff] at hkey
    exact hw.mem_chaves_iff.mpr (mt (h key) hkey)
  simpa using (hw'.nodup_chaves.subperm hsub).length_le

/-- A table with one key more has one node more. -/
theorem length_nos_succ {hmap' : HashMap} (hw : hmap.WellFormed) (hw' : hmap'.WellFormed)
    {key : ℕ} (hkey : hashGet hmap key = none)
    (h : ∀ j, hashGet hmap' j = none ↔ j ≠ key ∧ hashGet hmap j = none) :
    hmap'.nos.length = hmap.nos.length + 1 := by
  have hnodup : (key :: hmap.nos.map HashNode.key).Nodup := by
    refine List.nodup_cons.mpr ⟨fun hm => hw.mem_chaves_iff.mp hm hkey, hw.nodup_chaves⟩
  have hperm : (hmap'.nos.map HashNode.key).Perm (key :: hmap.nos.map HashNode.key) := by
    refine (List.perm_ext_iff_of_nodup hw'.nodup_chaves hnodup).mpr fun j => ?_
    rw [hw'.mem_chaves_iff, List.mem_cons, hw.mem_chaves_iff, ne_eq, h, not_and_or, not_not]
  simpa using hperm.length_eq

end WellFormed

end HashMap

/-- Walking bucket after bucket over the table is one walk over its nodes, as a walk over the nodes
of a bucket leaves the other buckets alone. -/
theorem foldl_cadeias {σ : Type*} (tabela : σ → HashMap) (f : List HashNode → σ → σ)
    (happ : ∀ xs ys s, f (xs ++ ys) s = f ys (f xs s)) (hnil : ∀ s, f [] s = s)
    (hfora : ∀ s chain, (tabela (f chain s)).length = (tabela s).length ∧
      ∀ j, (∀ no ∈ chain, no.value.idBloco = no.key ∧ (tabela s).indice no.key ≠ j) →
        (tabela (f chain s)).elems j = (tabela s).elems j)
    {is : List ℕ} (his : is.Nodup) (s : σ) (hin : ∀ i ∈ is, ∀ no ∈ (tabela s).elems i,
      no.value.idBloco = no.key ∧ (tabela s).indice no.key = i) :
    is.foldl (fun s i => f ((tabela s).elems i) s) s = f (is.flatMap (tabela s).elems) s := by
  induction is generalizing s with
  | nil => exact (hnil s).symm
  | cons i is ih =>
      obtain ⟨hi, his⟩ := List.nodup_cons.mp his
      obtain ⟨hlen, helems⟩ := hfora s ((tabela s).elems i)
      have hsame : ∀ j ∈ is, (tabela (f ((tabela s).elems i) s)).elems j = (tabela s).elems j := by
        intro j hj
        refine helems j fun no hno => ?_
        obtain ⟨hid, hind⟩ := hin i List.mem_cons_self no hno
        refine ⟨hid, fun hij => hi ?_⟩
        rwa [← hind, hij]
      rw [List.foldl_cons, ih his, List.flatMap_cons, happ]
      · exact congrArg (f · _) (List.flatMap_congr hsame)
      · intro j hj no hno
        rw [hsame j hj] at hno
        rw [HashMap.indice, hlen]
        exact hin j (List.mem_cons_of_mem i hj) no hno

/-! ## Walks over the entries -/

/-- Every entry stands under its own block number, which is on the disk. -/
structure CacheT.Arrumada (cache : CacheT) : Prop where
  tabela : cache.tabela.WellFormed
  idBloco : ∀ b e, hashGet cache.tabela b = some e → e.idBloco = b
  inRange : ∀ b e, hashGet cache.tabela b = some e → b < cache.disco.numBlocks

/-- What every call keeps: the order of the table, and what the count is ahead of the nodes. -/
structure Sucede (c c' : CacheT) : Prop where
  arrumada : c'.Arrumada
  numBlocks : c'.disco.numBlocks = c.disco.numBlocks
  numeroMaxNos : c'.numeroMaxNos = c.numeroMaxNos
  contados : c'.numeroNosUtilizados - c'.tabela.nos.length =
    c.numeroNosUtilizados - c.tabela.nos.length

namespace Sucede

theorem refl {c : CacheT} (hc : c.Arrumada) : Sucede c c := ⟨hc, rfl, rfl, rfl⟩

theorem trans {c c' c'' : CacheT} (h : Sucede c c') (h' : Sucede c' c'') : Sucede c c'' :=
  ⟨h'.arrumada, h'.numBlocks.trans h.numBlocks, h'.numeroMaxNos.trans h.numeroMaxNos,
    h'.contados.trans h.contados⟩

end Sucede

/-- What the disk holds when the entry of a block is taken out. -/
def Icache.guardado (e : Icache) (bloco : Block) : Block :=
  if e.modificado && e.valido then e.conteudobloco else bloco

/-- A walk over `nodes` that leaves `g e` of an entry `e`. What it takes out it writes back. -/
structure Varrida (g : Icache → Option Icache) (nodes : List HashNode) (c c' : CacheT) : Prop
    extends Sucede c c' where
  entrada : ∀ no ∈ nodes, hashGet c'.tabela no.key = g no.value
  disco : ∀ no ∈ nodes, c'.disco.blocks no.key =
    if (g no.value).isNone then no.value.guardado (c.disco.blocks no.key)
    else c.disco.blocks no.key
  fora : ∀ j, j ∉ nodes.map HashNode.key →
    hashGet c'.tabela j = hashGet c.tabela j ∧ c'.disco.blocks j = c.disco.blocks j

/-- Taking out a cached entry succeeds, and does nothing else. -/
theorem retirarDaCache_varrida {c : CacheT} (hc : c.Arrumada) (no : HashNode)
    {g : Icache → Option Icache} (hno : hashGet c.tabela no.key = some no.value)
    (hg : g no.value = none) :
    (retirarDaCache c no.key).1 = 0 ∧ Varrida g [no] c (retirarDaCache c no.key).2 ∧
      (retirarDaCache c no.key).2.numeroNosUtilizados = c.numeroNosUtilizados - 1 := by
  obtain ⟨k, e⟩ := no
  dsimp only at hno hg ⊢
  obtain ⟨⟨e', tabela⟩, hr⟩ := Option.ne_none_iff_exists'.mp
    (mt hashRemove_eq_none.mp (Option.ne_none_iff_exists'.mpr ⟨e, hno⟩))
  obtain ⟨hg', hw, -, hget⟩ := hashRemove_eq_some hc.tabela hr
  obtain rfl := Option.some.inj (hno.symm.trans hg')
  have hk := hc.inRange k e hno
  have hself : hashGet tabela k = none := by rw [hget, if_pos rfl]
  have hout : ∀ j, j ≠ k → hashGet tabela j = hashGet c.tabela j := by
    intro j hj
    rw [hget, if_neg hj]
  have hlen : c.tabela.nos.length = tabela.nos.length + 1 := by
    refine hw.length_nos_succ hc.tabela hself fun j => ?_
    by_cases hj : j = k
    · subst hj
      simp [hno]
    · simp [hj, hout j hj]
  have hentry : ∀ j e, hashGet tabela j = some e → hashGet c.tabela j = some e := by
    intro j e he
    by_cases hj : j = k
    · subst hj
      simp [hself] at he
    · rwa [← hout j hj]
  have hvar : ∀ disco : Blocks, disco.numBlocks = c.disco.numBlocks →
      disco.blocks k = e.guardado (c.disco.blocks k) →
      (∀ j, j ≠ k → disco.blocks j = c.disco.blocks j) →
      Varrida g [⟨k, e⟩] c { c with tabela := tabela, disco := disco,
                                    numeroNosUtilizados := c.numeroNosUtilizados - 1 } := by
    intro disco hnum hdk hdj
    refine ⟨⟨⟨hw, fun j e he => hc.idBloco j e (hentry j e he), fun j e he => ?_⟩, hnum, rfl,
      ?_⟩, ?_, ?_, fun j hj => ?_⟩
    · exact hnum ▸ hc.inRange j e (hentry j e he)
    · dsimp only
      rw [hlen]
      push_cast
      ring
    · simp [hself, hg]
    · simp [hg, hdk]
    · have hj : j ≠ k := by simpa using hj
      exact ⟨hout j hj, hdj j hj⟩
  simp only [retirarDaCache, hr]
  split
  · rename_i hmv
    rw [blockWrite_of_lt hk]
    refine ⟨rfl, hvar _ rfl ?_ fun j hj => Function.update_of_ne hj .., rfl⟩
    dsimp only
    rw [Function.update_self, Icache.guardado, if_pos hmv]
  · rename_i hmv
    exact ⟨rfl, hvar c.disco rfl (by rw [Icache.guardado, if_neg hmv]) fun _ _ => rfl, rfl⟩

/-- A store through the pointer of an entry. -/
theorem assign_varrida {c : CacheT} (hc : c.Arrumada) (no : HashNode) {g : Icache → Option Icache}
    {f : Icache → Icache} (hno : hashGet c.tabela no.key = some no.value)
    (hg : g no.value = some (f no.value)) (hf : ∀ e, (f e).idBloco = e.idBloco) :
    Varrida g [no] c (c.assign no.key f) := by
  obtain ⟨k, e⟩ := no
  dsimp only at hno hg ⊢
  have hw := wellFormed_assign hc.tabela k f
  have hget : ∀ j, hashGet (c.assign k f).tabela j =
      if j = k then (hashGet c.tabela j).map f else hashGet c.tabela j :=
    fun j => hashGet_assign c.tabela k f j
  have hself : hashGet (c.assign k f).tabela k = some (f e) := by
    rw [hget, if_pos rfl, hno, Option.map_some]
  have hout : ∀ j, j ≠ k → hashGet (c.assign k f).tabela j = hashGet c.tabela j := by
    intro j hj
    rw [hget, if_neg hj]
  have hlen : (c.assign k f).tabela.nos.length = c.tabela.nos.length := by
    refine hc.tabela.length_nos_eq hw fun j => ?_
    by_cases hj : j = k
    · subst hj
      simp [hself, hno]
    · rw [hout j hj]
  refine ⟨⟨⟨hw, fun j e' he => ?_, fun j e' he => ?_⟩, rfl, rfl, ?_⟩, ?_, ?_, fun j hj => ?_⟩
  · by_cases hj : j = k
    · subst hj
      obtain rfl := Option.some.inj (hself.symm.trans he)
      rw [hf, hc.idBloco j e hno]
    · exact hc.idBloco j e' (by rwa [hout j hj] at he)
  · by_cases hj : j = k
    · subst hj
      exact hc.inRange j e hno
    · exact hc.inRange j e' (by rwa [hout j hj] at he)
  · rw [hlen]
    rfl
  · simp [hself, hg]
  · simp [hg, CacheT.assign]
  · exact ⟨hout j (by simpa using hj), rfl⟩

namespace Varrida

variable {g : Icache → Option Icache} {nodes : List HashNode} {c c₁ c' : CacheT}

theorem nil (hc : c.Arrumada) : Varrida g [] c c :=
  ⟨.refl hc, fun _ h => absurd h List.not_mem_nil, fun _ h => absurd h List.not_mem_nil,
    fun _ _ => ⟨rfl, rfl⟩⟩

theorem keep (hc : c.Arrumada) {no : HashNode} (hno : hashGet c.tabela no.key = some no.value)
    (hg : g no.value = some no.value) : Varrida g [no] c c := by
  refine ⟨.refl hc, ?_, ?_, fun _ _ => ⟨rfl, rfl⟩⟩
  · simp [hno, hg]
  · simp [hg]

theorem cons {no : HashNode} (h : Varrida g [no] c c₁) (h' : Varrida g nodes c₁ c')
    (hno : no.key ∉ nodes.map HashNode.key) : Varrida g (no :: nodes) c c' := by
  obtain ⟨hget, hdisk⟩ := h'.fora no.key hno
  have hdist : ∀ no' ∈ nodes, c₁.disco.blocks no'.key = c.disco.blocks no'.key := by
    intro no' hno'
    refine (h.fora no'.key ?_).2
    rw [List.map_singleton, List.mem_singleton]
    intro he
    exact hno (he ▸ List.mem_map_of_mem hno')
  refine ⟨h.toSucede.trans h'.toSucede, fun no' hm => ?_, fun no' hm => ?_, fun j hj => ?_⟩
  · rcases List.mem_cons.mp hm with rfl | hm
    · rw [hget, h.entrada no' List.mem_cons_self]
    · exact h'.entrada no' hm
  · rcases List.mem_cons.mp hm with rfl | hm
    · rw [hdisk, h.disco no' List.mem_cons_self]
    · rw [h'.disco no' hm, hdist no' hm]
  · rw [List.map_cons, List.mem_cons, not_or] at hj
    obtain ⟨hg₁, hd₁⟩ := h.fora j (by simpa using hj.1)
    obtain ⟨hg₂, hd₂⟩ := h'.fora j hj.2
    exact ⟨hg₂.trans hg₁, hd₂.trans hd₁⟩

/-- A walk that treats each node as it should treats all of them so. -/
theorem foldl {passo : CacheT → HashNode → CacheT}
    (hpasso : ∀ c no, c.Arrumada → hashGet c.tabela no.key = some no.value →
      Varrida g [no] c (passo c no)) (hc : c.Arrumada) (hnodup : (nodes.map HashNode.key).Nodup)
    (hnos : ∀ no ∈ nodes, hashGet c.tabela no.key = some no.value) :
    Varrida g nodes c (nodes.foldl passo c) := by
  induction nodes generalizing c with
  | nil => exact nil hc
  | cons no nodes ih =>
      obtain ⟨hno, hnodup⟩ := List.nodup_cons.mp hnodup
      have h := hpasso c no hc (hnos no List.mem_cons_self)
      refine h.cons (ih h.arrumada hnodup fun no' hno' => ?_) hno
      rw [(h.fora no'.key ?_).1]
      · exact hnos no' (List.mem_cons_of_mem no hno')
      · rw [List.map_singleton, List.mem_singleton]
        intro he
        exact hno (he ▸ List.mem_map_of_mem hno')

/-- The entries after a walk over the whole table. -/
theorem hashGet_eq (h : Varrida g c.tabela.nos c c') (hw : c.tabela.WellFormed) (j : ℕ) :
    hashGet c'.tabela j = (hashGet c.tabela j).bind g := by
  cases hj : hashGet c.tabela j with
  | none =>
      rw [(h.fora j fun hm => hw.mem_chaves_iff.mp hm hj).1, hj]
      rfl
  | some e => exact h.entrada ⟨j, e⟩ (hw.mem_nos_iff.mpr hj)

theorem blocks_of_none (h : Varrida g c.tabela.nos c c') (hw : c.tabela.WellFormed) {j : ℕ}
    (hj : hashGet c.tabela j = none) : c'.disco.blocks j = c.disco.blocks j :=
  (h.fora j fun hm => hw.mem_chaves_iff.mp hm hj).2

theorem blocks_of_some (h : Varrida g c.tabela.nos c c') (hw : c.tabela.WellFormed) {j : ℕ}
    {e : Icache} (hj : hashGet c.tabela j = some e) : c'.disco.blocks j =
      if (g e).isNone then e.guardado (c.disco.blocks j) else c.disco.blocks j :=
  h.disco ⟨j, e⟩ (hw.mem_nos_iff.mpr hj)

end Varrida

/-! ## The passes of `libertarEspaco` and the sweep -/

theorem CacheT.Arrumada.elems {c : CacheT} (hc : c.Arrumada) {i : ℕ} {no : HashNode}
    (hno : no ∈ c.tabela.elems i) : no.value.idBloco = no.key ∧ c.tabela.indice no.key = i := by
  obtain ⟨hi, hget⟩ := hc.tabela.mem_elems_iff.mp hno
  exact ⟨hc.idBloco no.key no.value hget, hi⟩

theorem retirarDaCache_elems (c : CacheT) (k : ℕ) :
    (retirarDaCache c k).2.tabela.length = c.tabela.length ∧
      ∀ j, c.tabela.indice k ≠ j →
        (retirarDaCache c k).2.tabela.elems j = c.tabela.elems j := by
  simp only [retirarDaCache, hashRemove]
  cases desligar k (c.tabela.elems (c.tabela.indice k)) with
  | none => exact ⟨rfl, fun _ _ => rfl⟩
  | some r =>
      have hj : ∀ j, c.tabela.indice k ≠ j →
          Function.update c.tabela.elems (c.tabela.indice k) r.2 j = c.tabela.elems j :=
        fun j hj => Function.update_of_ne hj.symm ..
      simp only [Option.map_some]
      split
      · split <;> exact ⟨rfl, hj⟩
      · exact ⟨rfl, hj⟩

/-- A walk only touches the buckets of the nodes that it visits. -/
theorem foldl_elems {passo : CacheT → HashNode → CacheT}
    (hpasso : ∀ c no, (passo c no).tabela.length = c.tabela.length ∧
      ∀ j, no.value.idBloco = no.key → c.tabela.indice no.key ≠ j →
        (passo c no).tabela.elems j = c.tabela.elems j) (c : CacheT) (chain : List HashNode) :
    (chain.foldl passo c).tabela.length = c.tabela.length ∧
      ∀ j, (∀ no ∈ chain, no.value.idBloco = no.key ∧ c.tabela.indice no.key ≠ j) →
        (chain.foldl passo c).tabela.elems j = c.tabela.elems j := by
  induction chain generalizing c with
  | nil => exact ⟨rfl, fun _ _ => rfl⟩
  | cons no chain ih =>
      obtain ⟨hlen, helems⟩ := hpasso c no
      obtain ⟨hlen', helems'⟩ := ih (passo c no)
      refine ⟨hlen'.trans hlen, fun j hj => ?_⟩
      have hno := hj no List.mem_cons_self
      refine (helems' j fun no' hno' => ?_).trans (helems j hno.1 hno.2)
      rw [HashMap.indice, hlen]
      exact hj no' (List.mem_cons_of_mem no hno')

/-- What a pass of `libertarEspaco` does to a node. -/
def libertarNo (classe : Icache → Bool) (cache : CacheT) (no : HashNode) : CacheT :=
  if classe no.value then (retirarDaCache cache no.value.idBloco).2 else cache

theorem libertarCadeia_eq (classe : Icache → Bool) (chain : List HashNode) (n : ℤ) (c : CacheT) :
    libertarCadeia classe chain (n, c) =
      (n + chain.countP (classe ·.value), chain.foldl (libertarNo classe) c) := by
  induction chain generalizing n c with
  | nil => simp [libertarCadeia]
  | cons no chain ih =>
      rw [libertarCadeia]
      by_cases hno : classe no.value = true
      · rw [if_pos hno, ih,
          List.countP_cons_of_pos (p := fun no : HashNode => classe no.value) hno, List.foldl_cons,
          libertarNo, if_pos hno]
        congr 1
        push_cast
        ring
      · rw [if_neg hno, ih,
          List.countP_cons_of_neg (p := fun no : HashNode => classe no.value) hno, List.foldl_cons,
          libertarNo, if_neg hno]

theorem libertarClasse_eq {c : CacheT} (hc : c.Arrumada) (classe : Icache → Bool) (n : ℤ) :
    libertarClasse classe n c =
      (n + c.tabela.nos.countP (classe ·.value), c.tabela.nos.foldl (libertarNo classe) c) := by
  rw [← libertarCadeia_eq]
  refine foldl_cadeias (fun r => r.2.tabela) (libertarCadeia classe) ?_ ?_ ?_
    List.nodup_range (n, c) fun i _ no hno => hc.elems hno
  · rintro xs ys ⟨m, d⟩
    simp only [libertarCadeia_eq, List.countP_append, List.foldl_append]
    congr 1
    push_cast
    ring
  · exact fun r => rfl
  · rintro ⟨m, d⟩ chain
    rw [libertarCadeia_eq]
    refine foldl_elems (fun d no => ?_) d chain
    rw [libertarNo]
    split
    · obtain ⟨hlen, helems⟩ := retirarDaCache_elems d no.value.idBloco
      exact ⟨hlen, fun j hid hj => helems j (hid ▸ hj)⟩
    · exact ⟨rfl, fun _ _ _ => rfl⟩

/-- A pass takes out the entries of its class and counts them. -/
theorem libertarClasse_varrida {c : CacheT} (hc : c.Arrumada) (classe : Icache → Bool) (n : ℤ) :
    (libertarClasse classe n c).1 = n + c.tabela.nos.countP (classe ·.value) ∧
      Varrida (fun e => if classe e then none else some e) c.tabela.nos c
        (libertarClasse classe n c).2 := by
  rw [libertarClasse_eq hc]
  refine ⟨rfl, Varrida.foldl (fun d no hd hno => ?_) hc hc.tabela.nodup_chaves
    fun no hno => hc.tabela.mem_nos_iff.mp hno⟩
  rw [libertarNo]
  split
  · rename_i hclasse
    rw [hd.idBloco no.key no.value hno]
    exact (retirarDaCache_varrida hd no hno (if_pos hclasse)).2.1
  · rename_i hclasse
    exact Varrida.keep hd hno (if_neg hclasse)

/-- A pass over an empty class changes nothing. -/
theorem libertarClasse_vazia {c : CacheT} (hc : c.Arrumada) (classe : Icache → Bool) (n : ℤ)
    (h : ∀ no ∈ c.tabela.nos, classe no.value = false) : libertarClasse classe n c = (n, c) := by
  rw [libertarClasse_eq hc]
  generalize c.tabela.nos = nos at h
  induction nos with
  | nil => simp
  | cons no nos ih =>
      have hno := Bool.eq_false_iff.mp (h no List.mem_cons_self)
      rw [List.countP_cons_of_neg (p := fun no : HashNode => classe no.value) hno, List.foldl_cons,
        libertarNo, if_neg hno]
      exact ih fun no' hno' => h no' (List.mem_cons_of_mem no hno')

/-- What the sweep leaves of an entry. -/
def Icache.envelhecida (intervaloTempo : ℤ) (e : Icache) : Option Icache :=
  if 10 ≤ e.tempoEmCache + intervaloTempo then none
  else some { e with tempoEmCache := e.tempoEmCache + intervaloTempo, referenciado := false }

/-- What the sweep does to a node. -/
def actualizarNo (intervaloTempo : ℤ) (cache : CacheT) (no : HashNode) : CacheT :=
  let tempo := no.value.tempoEmCache + intervaloTempo
  let cache := cache.assign no.key fun entrada =>
    { entrada with tempoEmCache := tempo, referenciado := false }
  if 10 ≤ tempo then (retirarDaCache cache no.value.idBloco).2 else cache

theorem actualizarCadeia_eq (intervaloTempo : ℤ) (chain : List HashNode) (c : CacheT) :
    actualizarCadeia intervaloTempo chain c = chain.foldl (actualizarNo intervaloTempo) c := by
  induction chain generalizing c with
  | nil => rfl
  | cons no chain ih =>
      rw [actualizarCadeia, List.foldl_cons, ← ih]
      rfl

theorem assign_elems (c : CacheT) (k : ℕ) (f : Icache → Icache) :
    (c.assign k f).tabela.length = c.tabela.length ∧
      ∀ j, c.tabela.indice k ≠ j → (c.assign k f).tabela.elems j = c.tabela.elems j :=
  ⟨rfl, fun _ hj => Function.update_of_ne hj.symm ..⟩

theorem actualizarNo_varrida {c : CacheT} (hc : c.Arrumada) (intervaloTempo : ℤ) {no : HashNode}
    (hno : hashGet c.tabela no.key = some no.value) :
    Varrida (Icache.envelhecida intervaloTempo) [no] c (actualizarNo intervaloTempo c no) := by
  let f : Icache → Icache := fun entrada =>
    { entrada with tempoEmCache := no.value.tempoEmCache + intervaloTempo, referenciado := false }
  have hassign : Varrida (fun e => some (f e)) [no] c (c.assign no.key f) :=
    assign_varrida hc no hno rfl fun _ => rfl
  rw [actualizarNo]
  split
  · rename_i htempo
    have hget : hashGet (c.assign no.key f).tabela no.key = some (f no.value) :=
      hassign.entrada no List.mem_cons_self
    rw [hc.idBloco no.key no.value hno]
    obtain ⟨-, h, -⟩ := retirarDaCache_varrida hassign.arrumada ⟨no.key, f no.value⟩
      (g := fun _ => none) hget rfl
    have hg : Icache.envelhecida intervaloTempo no.value = none := if_pos htempo
    refine ⟨hassign.toSucede.trans h.toSucede, ?_, ?_, fun j hj => ?_⟩
    · rw [List.forall_mem_singleton, hg]
      exact h.entrada ⟨no.key, f no.value⟩ List.mem_cons_self
    · rw [List.forall_mem_singleton, hg]
      exact h.disco ⟨no.key, f no.value⟩ List.mem_cons_self
    · obtain ⟨h₁, h₂⟩ := h.fora j hj
      obtain ⟨h₃, h₄⟩ := hassign.fora j hj
      exact ⟨h₁.trans h₃, h₂.trans h₄⟩
  · rename_i htempo
    exact assign_varrida hc no hno (if_neg htempo) fun _ => rfl

/-- The sweep ages every entry and takes the old ones out. -/
theorem actualizarCache_varrida {c : CacheT} (hc : c.Arrumada) (intervaloTempo : ℤ) :
    Varrida (Icache.envelhecida intervaloTempo) c.tabela.nos c
      (actualizarCache c intervaloTempo) := by
  have heq : actualizarCache c intervaloTempo = actualizarCadeia intervaloTempo c.tabela.nos c := by
    refine foldl_cadeias CacheT.tabela (actualizarCadeia intervaloTempo) (fun xs ys d => ?_)
      (fun d => rfl) (fun d chain => ?_) List.nodup_range c fun i _ no hno => hc.elems hno
    · simp only [actualizarCadeia_eq, List.foldl_append]
    · rw [actualizarCadeia_eq]
      refine foldl_elems (fun d no => ?_) d chain
      obtain ⟨hlen, helems⟩ := assign_elems d no.key fun entrada => { entrada with
        tempoEmCache := no.value.tempoEmCache + intervaloTempo, referenciado := false }
      rw [actualizarNo]
      split
      · obtain ⟨hlen', helems'⟩ := retirarDaCache_elems (d.assign no.key fun entrada => { entrada
          with tempoEmCache := no.value.tempoEmCache + intervaloTempo, referenciado := false })
          no.value.idBloco
        refine ⟨hlen'.trans hlen, fun j hid hj => (helems' j ?_).trans (helems j hj)⟩
        rw [hid]
        exact hj
      · exact ⟨hlen, fun j _ hj => helems j hj⟩
  rw [heq, actualizarCadeia_eq]
  exact Varrida.foldl (fun d no hd hno => actualizarNo_varrida hd intervaloTempo hno) hc
    hc.tabela.nodup_chaves fun no hno => hc.tabela.mem_nos_iff.mp hno

/-! ## Making room, whatever the count starts with -/

/-- Entries have been taken out, and the others are as they were. -/
structure Libertada (c c' : CacheT) : Prop extends Sucede c c' where
  entradas : ∀ j, hashGet c'.tabela j = hashGet c.tabela j ∨ hashGet c'.tabela j = none

namespace Libertada

variable {c c' c'' : CacheT}

theorem refl (hc : c.Arrumada) : Libertada c c := ⟨.refl hc, fun _ => .inl rfl⟩

theorem trans (h : Libertada c c') (h' : Libertada c' c'') : Libertada c c'' := by
  refine ⟨h.toSucede.trans h'.toSucede, fun j => ?_⟩
  rcases h'.entradas j with he' | he'
  · rw [he']
    exact h.entradas j
  · exact .inr he'

theorem none (h : Libertada c c') {j : ℕ} (hj : hashGet c.tabela j = none) :
    hashGet c'.tabela j = .none :=
  (h.entradas j).elim (·.trans hj) id

theorem length_le (h : Libertada c c') (hc : c.Arrumada) :
    c'.tabela.nos.length ≤ c.tabela.nos.length :=
  hc.tabela.length_nos_le h.arrumada.tabela fun _ hj => h.none hj

end Libertada

theorem libertarClasse_libertada {c : CacheT} (hc : c.Arrumada) (classe : Icache → Bool) (n : ℤ) :
    Libertada c (libertarClasse classe n c).2 := by
  obtain ⟨-, h⟩ := libertarClasse_varrida hc classe n
  refine ⟨h.toSucede, fun j => ?_⟩
  rw [h.hashGet_eq hc.tabela]
  cases hashGet c.tabela j with
  | none => exact .inl rfl
  | some e =>
      rw [Option.bind_some]
      split
      · exact .inr rfl
      · exact .inl rfl

theorem libertarClasses_libertada {c : CacheT} (hc : c.Arrumada) (classes : List (Icache → Bool))
    (n : ℤ) : Libertada c (libertarClasses classes n c) := by
  induction classes generalizing n c with
  | nil => exact .refl hc
  | cons classe classes ih =>
      have h := libertarClasse_libertada hc classe n
      rw [libertarClasses]
      split
      · exact h
      · exact h.trans (ih h.arrumada 0)

theorem CacheT.Arrumada.pilha {c : CacheT} (hc : c.Arrumada) (pilha : ℕ → ℤ) :
    CacheT.Arrumada { c with pilha := pilha } := ⟨hc.tabela, hc.idBloco, hc.inRange⟩

theorem libertarEspaco_libertada {c : CacheT} (hc : c.Arrumada) : Libertada c (libertarEspaco c) :=
  have h := libertarClasses_libertada (hc.pilha fun n => c.pilha (n + 1)) classesNRU (c.pilha 0)
  ⟨⟨h.arrumada, h.numBlocks, h.numeroMaxNos, h.contados⟩, h.entradas⟩

/-! ## New entries -/

theorem criarCache_arrumada {dimensao : ℕ} (h : 0 < dimensao) (disco : Blocks) (pilha : ℕ → ℤ) :
    (criarCache dimensao disco pilha).Arrumada :=
  ⟨newHash_wellFormed h, by simp [criarCache], by simp [criarCache]⟩

/-- The entry of a block that has none. -/
theorem hashInsert_arrumada {c : CacheT} (hc : c.Arrumada) {b : ℕ} (hb : b < c.disco.numBlocks)
    (hn : hashGet c.tabela b = none) {e : Icache} (he : e.idBloco = b) :
    CacheT.Arrumada { c with tabela := (hashInsert c.tabela b e).2 } ∧
      (hashInsert c.tabela b e).2.nos.length = c.tabela.nos.length + 1 := by
  obtain ⟨-, hget⟩ := hashGet_insert_of_none e hn
  have hw := wellFormed_insert_of_none e hc.tabela hn
  refine ⟨⟨hw, fun j e' he' => ?_, fun j e' he' => ?_⟩,
    hc.tabela.length_nos_succ hw hn fun j => ?_⟩
  · rw [hget] at he'
    by_cases hj : j = b
    · subst hj
      rw [if_pos rfl] at he'
      rw [← Option.some.inj he', he]
    · rw [if_neg hj] at he'
      exact hc.idBloco j e' he'
  · rw [hget] at he'
    by_cases hj : j = b
    · exact hj ▸ hb
    · rw [if_neg hj] at he'
      exact hc.inRange j e' he'
  · rw [hget]
    by_cases hj : j = b
    · simp [hj]
    · simp [hj]

end ThreadScheduler.SnfsServer
