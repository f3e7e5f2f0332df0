import ThreadScheduler.SnfsServer.CacheReplacement

/-!
# The out-pointer of `hashRemove`

`hashRemove` tests `*value` where its other branch tests `value`: what the caller's pointer held
before the call decides whether the removed entry is handed out. `retirarDaCache` never sets
`blocoRemovido` before the call, and dereferences it afterwards.
-/
namespace ThreadScheduler.SnfsServer

/-- An `icache_t`: `NULL`, an address where no entry is, or the address of an entry. -/
inductive IcachePtr where
  | null
  | lixo (endereco : ℕ)
  | entrada (e : Icache)

/-- `none` where there is no entry to read. -/
def IcachePtr.ler : IcachePtr → Option Icache
  | .null => none
  | .lixo _ => none
  | .entrada e => some e

/-- `if(*value) *value=aux->value`. -/
def IcachePtr.recebe (value : IcachePtr) (e : Icache) : IcachePtr :=
  match value with
  | .null => .null
  | _ => .entrada e

/-- `hashRemove`, with what `*value` holds before and after the call. -/
def hashRemovePtr (hmap : HashMap) (key : ℕ) (value : IcachePtr) : ℤ × IcachePtr × HashMap :=
  let index := hmap.indice key
  match desligar key (hmap.elems index) with
  | some (aux, next) =>
      (0, value.recebe aux, { hmap with
        elems := Function.update hmap.elems index next, size := hmap.size - 1 })
  | none => (1, .null, hmap)

/-- `retirarDaCache`, with what `blocoRemovido` starts with. `none` where a pointer is dereferenced
that does not point to an entry. -/
def retirarDaCachePtr (cache : CacheT) (idBloco : ℕ) (blocoRemovido : IcachePtr) :
    Option (ℤ × CacheT) :=
  let (status, blocoRemovido, tabela) := hashRemovePtr cache.tabela idBloco blocoRemovido
  if status ≠ 0 then some (-1, cache)
  else do
    let cache := { cache with tabela := tabela }
    let blocoRemovido ← blocoRemovido.ler
    if blocoRemovido.modificado && blocoRemovido.valido then
      let (status, disco) := blockWrite cache.disco idBloco blocoRemovido.conteudobloco
      if status < 0 then some (-1, cache)
      else some (0, { cache with disco := disco
                                 numeroNosUtilizados := cache.numeroNosUtilizados - 1 })
    else some (0, { cache with numeroNosUtilizados := cache.numeroNosUtilizados - 1 })

/-- The first node of the block is out of its chain, its content on disk if it is modified and
valid, and the count one lower. -/
structure RetiradoSo (c : CacheT) (b : ℕ) (e : Icache) (c' : CacheT) : Prop where
  tabela : c'.tabela = { c.tabela with
    elems := Function.update c.tabela.elems (c.tabela.indice b)
      ((c.tabela.elems (c.tabela.indice b)).eraseP (·.key = b))
    size := c.tabela.size - 1 }
  disco : c'.disco = if e.modificado && e.valido then
    { c.disco with blocks := Function.update c.disco.blocks b e.conteudobloco } else c.disco
  numero : c'.numeroNosUtilizados = c.numeroNosUtilizados - 1
  resto : c'.numeroMaxNos = c.numeroMaxNos ∧ c'.pilha = c.pilha

theorem desligar_eq_eraseP {key : ℕ} {chain rest : List HashNode} {e : Icache}
    (h : desligar key chain = some (e, rest)) : rest = chain.eraseP (·.key = key) := by
  induction chain generalizing rest with
  | nil => simp [desligar] at h
  | cons aux next ih =>
      rw [desligar] at h
      by_cases hk : aux.key = key
      · rw [if_pos hk, Option.some.injEq, Prod.mk.injEq] at h
        rw [List.eraseP_cons_of_pos (by simpa using hk), h.2]
      · rw [if_neg hk, Option.map_eq_some_iff] at h
        obtain ⟨⟨e', rest'⟩, hd, he⟩ := h
        obtain ⟨rfl, rfl⟩ := Prod.mk.inj he
        rw [List.eraseP_cons_of_neg (by simpa using hk), ih hd]

/-- With a pointer that is not `NULL` the entry is handed out. -/
theorem retirarDaCachePtr_eq (c : CacheT) (b : ℕ) {blocoRemovido : IcachePtr}
    (h : blocoRemovido ≠ .null) :
    retirarDaCachePtr c b blocoRemovido = some (retirarDaCache c b) := by
  rw [retirarDaCachePtr, hashRemovePtr, retirarDaCache, hashRemove]
  cases hd : desligar b (c.tabela.elems (c.tabela.indice b)) with
  | none => rfl
  | some r =>
      obtain ⟨e, next⟩ := r
      have hrecebe : blocoRemovido.recebe e = .entrada e := by
        cases blocoRemovido with
        | null => exact absurd rfl h
        | lixo endereco => rfl
        | entrada e' => rfl
      simp only [hrecebe, IcachePtr.ler, ne_eq, not_true_eq_false, if_false, Option.bind_eq_bind,
        Option.bind_some, Option.map_some]
      split
      · split <;> rfl
      · rfl

/-- With `NULL` the removed entry is lost, and `NULL` dereferenced. -/
theorem retirarDaCachePtr_null {c : CacheT} {b : ℕ} {e : Icache}
    (h : hashGet c.tabela b = some e) : retirarDaCachePtr c b .null = none := by
  obtain ⟨r, hr⟩ := Option.ne_none_iff_exists'.mp
    (mt desligar_eq_none.mp (Option.ne_none_iff_exists'.mpr ⟨e, h⟩))
  rw [retirarDaCachePtr, hashRemovePtr, hr]
  rfl

theorem retirarDaCache_retiradoSo {c : CacheT} {b : ℕ} {e : Icache}
    (h : hashGet c.tabela b = some e) (hb : b < c.disco.numBlocks) :
    (retirarDaCache c b).1 = 0 ∧ RetiradoSo c b e (retirarDaCache c b).2 := by
  obtain ⟨⟨e', next⟩, hr⟩ := Option.ne_none_iff_exists'.mp
    (mt desligar_eq_none.mp (Option.ne_none_iff_exists'.mpr ⟨e, h⟩))
  obtain rfl := Option.some.inj (h.symm.trans (desligar_eq_some hr).1)
  rw [desligar_eq_eraseP hr] at hr
  rw [retirarDaCache, hashRemove, hr, Option.map_some]
  dsimp only
  split
  · rename_i hmv
    rw [blockWrite_of_lt hb]
    exact ⟨rfl, rfl, (if_pos hmv).symm, rfl, rfl, rfl⟩
  · rename_i hmv
    exact ⟨rfl, rfl, (if_neg hmv).symm, rfl, rfl, rfl⟩

theorem retirarDaCache_sem_null {c : CacheT} {b : ℕ} {e : Icache}
    (h : hashGet c.tabela b = some e) (hb : b < c.disco.numBlocks) (blocoRemovido : IcachePtr) :
    (∃ c', retirarDaCachePtr c b blocoRemovido = some (0, c') ∧ RetiradoSo c b e c') ↔
      blocoRemovido ≠ .null := by
  constructor
  · rintro ⟨c', hc', -⟩ rfl
    rw [retirarDaCachePtr_null h] at hc'
    cases hc'
  · intro hnull
    obtain ⟨hstatus, hso⟩ := retirarDaCache_retiradoSo h hb
    refine ⟨(retirarDaCache c b).2, ?_, hso⟩
    rw [retirarDaCachePtr_eq c b hnull, ← hstatus]

/-- One entry, of block 3. -/
def cacheUmaEntrada : CacheT :=
  { criarCache 2 (blockNew 4) (fun _ => 0) with
    tabela := (hashInsert (newHash 2) 3 ⟨3, true, false, true, 2, fun _ => 5⟩).2
    numeroNosUtilizados := 1 }

theorem retirarDaCache_sem_null_exemplo :
    (∃ c', retirarDaCachePtr cacheUmaEntrada 3 (.lixo 4096) = some (0, c') ∧
      RetiradoSo cacheUmaEntrada 3 ⟨3, true, false, true, 2, fun _ => 5⟩ c') ↔
      IcachePtr.lixo 4096 ≠ .null :=
  retirarDaCache_sem_null rfl (by decide) _

/-- The entry is in the cache, and the call does not return. -/
theorem retirarDaCache_null : hashGet cacheUmaEntrada.tabela 3 ≠ none ∧
    3 < cacheUmaEntrada.disco.numBlocks ∧ retirarDaCachePtr cacheUmaEntrada 3 .null = none :=
  ⟨Option.some_ne_none _, by decide, rfl⟩

end ThreadScheduler.SnfsServer
