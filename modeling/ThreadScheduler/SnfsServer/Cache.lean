import ThreadScheduler.SnfsServer.Hash

/-!
# Block cache

`cache.c`: a hash table of entries in front of the disk, with delayed writes and
not-recently-used replacement. `libertarEspaco` counts evictions in a local that
it never initialises; `pilha` is the sequence of values that local starts with,
one for each call. The mutex of the cache only serialises the calls and the four
lists of `struct cache_` are never read, so both are left out. The out-pointer
`retirarDaCache` hands to `hashRemove` is non-NULL, and a node that was just
freed still reads its old `next`, so a sweep follows the chain it started on.
-/
namespace ThreadScheduler.SnfsServer

/-- `struct cache_`. -/
structure CacheT where
  tabela : HashMap
  numeroNosUtilizados : ℤ
  numeroMaxNos : ℤ
  disco : Blocks
  pilha : ℕ → ℤ

def criarCache (dimensaoCache : ℕ) (disco : Blocks) (pilha : ℕ → ℤ) : CacheT :=
  ⟨newHash dimensaoCache, 0, dimensaoCache, disco, pilha⟩

/-- A store through the entry pointer of a block. -/
def CacheT.assign (cache : CacheT) (idBloco : ℕ) (f : Icache → Icache) : CacheT :=
  { cache with tabela := cache.tabela.assign idBloco f }

/-- A `block_write` on the disk behind the cache. -/
def CacheT.writeDisk (cache : CacheT) (b : ℕ) (data : Block) : CacheT :=
  { cache with disco := (blockWrite cache.disco b data).2 }

/-- Take the entry out; a modified entry is written to disk unless it is invalid. -/
def retirarDaCache (cache : CacheT) (idBloco : ℕ) : ℤ × CacheT :=
  match hashRemove cache.tabela idBloco with
  | none => (-1, cache)
  | some (blocoRemovido, tabela) =>
      let cache := { cache with tabela := tabela }
      if blocoRemovido.modificado && blocoRemovido.valido then
        let (status, disco) := blockWrite cache.disco idBloco blocoRemovido.conteudobloco
        if status < 0 then (-1, cache)
        else (0, { cache with disco := disco
                              numeroNosUtilizados := cache.numeroNosUtilizados - 1 })
      else (0, { cache with numeroNosUtilizados := cache.numeroNosUtilizados - 1 })

/-- One chain of a pass of `libertarEspaco` over the entries of a class. -/
def libertarCadeia (classe : Icache → Bool) :
    List HashNode → ℤ × CacheT → ℤ × CacheT
  | [], r => r
  | aux :: next, (removidas, cache) =>
      let entrada := aux.value
      if classe entrada then
        libertarCadeia classe next (removidas + 1, (retirarDaCache cache entrada.idBloco).2)
      else libertarCadeia classe next (removidas, cache)

/-- One pass of `libertarEspaco` over the whole table. -/
def libertarClasse (classe : Icache → Bool) (removidas : ℤ) (cache : CacheT) : ℤ × CacheT :=
  (List.range cache.tabela.length).foldl
    (fun r i => libertarCadeia classe (r.2.tabela.elems i) r) (removidas, cache)

/-- The classes in the order in which `libertarEspaco` tries them: invalid entries,
then by reference and modification. -/
def classesNRU : List (Icache → Bool) :=
  [fun e => !e.valido,
   fun e => !e.referenciado && !e.modificado,
   fun e => !e.referenciado && e.modificado,
   fun e => e.referenciado && !e.modificado,
   fun e => e.referenciado && e.modificado]

/-- The passes from a class on; the first one that leaves a nonzero count is the last. -/
def libertarClasses : List (Icache → Bool) → ℤ → CacheT → CacheT
  | [], _, cache => cache
  | classe :: classes, entradasRemovidas, cache =>
      let r := libertarClasse classe entradasRemovidas cache
      if r.1 ≠ 0 then r.2 else libertarClasses classes 0 r.2

/-- `entradas_removidas` is set to zero only after the first pass. -/
def libertarEspaco (cache : CacheT) : CacheT :=
  libertarClasses classesNRU (cache.pilha 0) { cache with pilha := fun n => cache.pilha (n + 1) }

/-- The entry pointer answered is the one stored under `idbloco`. -/
def novaEntradaCache (cache : CacheT) (idbloco : ℕ) (modificado : Bool) (dados : Block) :
    CacheT :=
  let cache :=
    if cache.numeroNosUtilizados = cache.numeroMaxNos then libertarEspaco cache else cache
  let blocoCache : Icache := ⟨idbloco, true, true, modificado, 0, dados⟩
  let (status, tabela) := hashInsert cache.tabela idbloco blocoCache
  if status = 0 then
    { cache with tabela := tabela, numeroNosUtilizados := cache.numeroNosUtilizados + 1 }
  else { cache with tabela := tabela }

/-- `none` is the NULL answered when the disk cannot be read. -/
def carregarBlocoParaCache (cache : CacheT) (idbloco : ℕ) : Option CacheT :=
  let (status, block) := blockRead cache.disco idbloco nullBlock
  if status ≠ 0 then none else some (novaEntradaCache cache idbloco false block)

/-- Write a whole block into the cache. -/
def escreverCache (cache : CacheT) (idbloco : ℕ) (bloco : Block) : ℤ × CacheT :=
  let substitui := fun entrada : Icache => { entrada with
    conteudobloco := bloco, referenciado := true, modificado := true, valido := true }
  match hashGet cache.tabela idbloco with
  | none => (0, novaEntradaCache cache idbloco true bloco)
  | some entradaCache =>
      if entradaCache.valido then (0, cache.assign idbloco substitui)
      else
        let cache := (retirarDaCache cache idbloco).2
        match carregarBlocoParaCache cache idbloco with
        | none => (-1, cache)
        | some cache => (0, cache.assign idbloco substitui)

/-- The first half of `lerCache`: load a missing entry, reload an invalid one. -/
def abrirEntrada (cache : CacheT) (idBloco : ℕ) : Option CacheT :=
  match hashGet cache.tabela idBloco with
  | none => carregarBlocoParaCache cache idBloco
  | some entradaCache =>
      if entradaCache.valido then some cache
      else carregarBlocoParaCache (retirarDaCache cache idBloco).2 idBloco

/-- Read a block through the cache; `none` when a NULL entry would be dereferenced. -/
def lerCache (cache : CacheT) (idBloco : ℕ) : Option (CacheT × Block) := do
  let cache ← abrirEntrada cache idBloco
  let cache := cache.assign idBloco fun entrada =>
    { entrada with valido := true, referenciado := true }
  let entradaCache ← hashGet cache.tabela idBloco
  return (cache, entradaCache.conteudobloco)

/-- Mark the entry of a block as invalid. -/
def invalidarBloco (cache : CacheT) (idBloco : ℕ) : ℤ × CacheT :=
  match hashGet cache.tabela idBloco with
  | none => (-1, cache)
  | some _ => (0, cache.assign idBloco fun entrada => { entrada with valido := false })

/-- One chain of the periodic sweep. -/
def actualizarCadeia (intervaloTempo : ℤ) : List HashNode → CacheT → CacheT
  | [], cache => cache
  | aux :: next, cache =>
      let tempo := aux.value.tempoEmCache + intervaloTempo
      let cache := cache.assign aux.key fun entrada =>
        { entrada with tempoEmCache := tempo, referenciado := false }
      actualizarCadeia intervaloTempo next
        (if 10 ≤ tempo then (retirarDaCache cache aux.value.idBloco).2 else cache)

/-- Age every entry, clear its reference bit and evict it after ten seconds. -/
def actualizarCache (cache : CacheT) (intervaloTempo : ℤ) : CacheT :=
  (List.range cache.tabela.length).foldl
    (fun cache i => actualizarCadeia intervaloTempo (cache.tabela.elems i) cache) cache

/-- Invalidate the entry of a block and clear the block on disk. -/
def eliminarBlocoCache (cache : CacheT) (idBloco : ℕ) : CacheT :=
  (invalidarBloco cache idBloco).2.writeDisk idBloco nullBlock

end ThreadScheduler.SnfsServer
