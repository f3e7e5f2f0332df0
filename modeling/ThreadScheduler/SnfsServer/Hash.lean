import ThreadScheduler.SnfsServer.Block

/-!
# The block hash table

`hash.c`: external chaining, bucket `(key mod 10) mod length`. A chain is the
list of its nodes from the bucket head on. An `icache_t` is reachable only from
the node that holds it, so the entry stands in the node itself and a store
through the pointer is `HashMap.assign` at its key. Allocation succeeds.
-/
namespace ThreadScheduler.SnfsServer

/-- `struct icache_`, an entry of the cache. -/
structure Icache where
  idBloco : ℕ
  valido : Bool
  referenciado : Bool
  modificado : Bool
  tempoEmCache : ℤ
  conteudobloco : Block

/-- `struct sHashNode`; `next` is the rest of the chain. -/
structure HashNode where
  key : ℕ
  value : Icache

/-- `struct sHashMap`. -/
structure HashMap where
  size : ℤ
  length : ℕ
  elems : ℕ → List HashNode

def funcaoHash (key : ℕ) : ℕ := key % 10

def newHash (size : ℕ) : HashMap := ⟨0, size, fun _ => []⟩

/-- The chain a key belongs to. -/
def HashMap.indice (hmap : HashMap) (key : ℕ) : ℕ := funcaoHash key % hmap.length

/-- The insertion loop over a chain: the first node with the key takes the new
entry, which becomes modified and referenced. `none` when no node has the key. -/
def substituir (key : ℕ) (value : Icache) : List HashNode → Option (List HashNode)
  | [] => none
  | aux :: next =>
      if aux.key = key then
        some ({ aux with value := { value with modificado := true, referenciado := true } } :: next)
      else (substituir key value next).map (aux :: ·)

/-- `hashInsert`: 0 for a new key, 1 for a present one. -/
def hashInsert (hmap : HashMap) (key : ℕ) (value : Icache) : ℤ × HashMap :=
  let h := hmap.indice key
  match substituir key value (hmap.elems h) with
  | some chain => (1, { hmap with elems := Function.update hmap.elems h chain })
  | none =>
      (0, { hmap with
        elems := Function.update hmap.elems h (⟨key, value⟩ :: hmap.elems h)
        size := hmap.size + 1 })

/-- The removal loop over a chain: unlinks the first node with the key. -/
def desligar (key : ℕ) : List HashNode → Option (Icache × List HashNode)
  | [] => none
  | aux :: next =>
      if aux.key = key then some (aux.value, next)
      else (desligar key next).map fun r => (r.1, aux :: r.2)

/-- `hashRemove` with a non-NULL out-pointer: the removed entry, or `none`
(status 1) when the key is absent. -/
def hashRemove (hmap : HashMap) (key : ℕ) : Option (Icache × HashMap) :=
  let index := hmap.indice key
  (desligar key (hmap.elems index)).map fun r =>
    (r.1, { hmap with elems := Function.update hmap.elems index r.2, size := hmap.size - 1 })

/-- The search loop over a chain. -/
def procurar (key : ℕ) : List HashNode → Option Icache
  | [] => none
  | aux :: next => if aux.key = key then some aux.value else procurar key next

/-- `hashGet`: the entry (status 0), or `none` (status 1, NULL). -/
def hashGet (hmap : HashMap) (key : ℕ) : Option Icache :=
  procurar key (hmap.elems (hmap.indice key))

/-- A store through the pointer that `hashGet hmap key` answers. -/
def assignChain (key : ℕ) (f : Icache → Icache) : List HashNode → List HashNode
  | [] => []
  | aux :: next =>
      if aux.key = key then { aux with value := f aux.value } :: next
      else aux :: assignChain key f next

def HashMap.assign (hmap : HashMap) (key : ℕ) (f : Icache → Icache) : HashMap :=
  { hmap with
    elems := Function.update hmap.elems (hmap.indice key)
      (assignChain key f (hmap.elems (hmap.indice key))) }

/-! ## Chains -/

theorem procurar_eq_none {key : ℕ} {chain : List HashNode} :
    procurar key chain = none ↔ key ∉ chain.map HashNode.key := by
  induction chain with
  | nil => simp [procurar]
  | cons aux next ih =>
      by_cases h : aux.key = key
      · simp [procurar, h]
      · simp [procurar, h, Ne.symm h, ih]

theorem substituir_eq_none {key : ℕ} {value : Icache} {chain : List HashNode} :
    substituir key value chain = none ↔ procurar key chain = none := by
  induction chain with
  | nil => simp [procurar, substituir]
  | cons aux next ih =>
      by_cases h : aux.key = key
      · simp [procurar, substituir, h]
      · simp [procurar, substituir, h, ih]

theorem desligar_eq_none {key : ℕ} {chain : List HashNode} :
    desligar key chain = none ↔ procurar key chain = none := by
  induction chain with
  | nil => simp [procurar, desligar]
  | cons aux next ih =>
      by_cases h : aux.key = key
      · simp [procurar, desligar, h]
      · simp [procurar, desligar, h, ih]

/-- Unlinking answers the entry the search finds and takes its node out. -/
theorem desligar_eq_some {key : ℕ} {chain rest : List HashNode} {e : Icache}
    (h : desligar key chain = some (e, rest)) :
    procurar key chain = some e ∧ rest.map HashNode.key = (chain.map HashNode.key).erase key ∧
      ∀ j, j ≠ key → procurar j rest = procurar j chain := by
  induction chain generalizing rest with
  | nil => simp [desligar] at h
  | cons aux next ih =>
      by_cases hk : aux.key = key
      · simp only [desligar, hk, if_true, Option.some.injEq, Prod.mk.injEq] at h
        obtain ⟨rfl, rfl⟩ := h
        refine ⟨by simp [procurar, hk], by simp [hk], fun j hj => ?_⟩
        simp [procurar, hk, Ne.symm hj]
      · simp only [desligar, hk, if_false, Option.map_eq_some_iff, Prod.exists, Prod.mk.injEq] at h
        obtain ⟨e', rest', hd, rfl, rfl⟩ := h
        obtain ⟨hf, hm, ho⟩ := ih hd
        refine ⟨by simp [procurar, hk, hf], by simp [hk, hm], fun j hj => ?_⟩
        simp only [procurar, ho j hj]

@[simp] theorem assignChain_keys (key : ℕ) (f : Icache → Icache) (chain : List HashNode) :
    (assignChain key f chain).map HashNode.key = chain.map HashNode.key := by
  induction chain with
  | nil => rfl
  | cons aux next ih =>
      by_cases h : aux.key = key
      · simp [assignChain, h]
      · simp [assignChain, h, ih]

theorem procurar_assignChain_self (key : ℕ) (f : Icache → Icache) (chain : List HashNode) :
    procurar key (assignChain key f chain) = (procurar key chain).map f := by
  induction chain with
  | nil => rfl
  | cons aux next ih =>
      by_cases h : aux.key = key
      · simp [assignChain, procurar, h]
      · simp [assignChain, procurar, h, ih]

theorem procurar_assignChain_of_ne {j key : ℕ} (f : Icache → Icache) (chain : List HashNode)
    (hj : j ≠ key) : procurar j (assignChain key f chain) = procurar j chain := by
  induction chain with
  | nil => rfl
  | cons aux next ih =>
      by_cases h : aux.key = key
      · simp [assignChain, procurar, h, Ne.symm hj]
      · simp [assignChain, procurar, h, ih]

/-! ## The table as a finite map -/

/-- Every key stands once, in its own bucket. -/
structure HashMap.WellFormed (hmap : HashMap) : Prop where
  length_pos : 0 < hmap.length
  nodup : ∀ i, ((hmap.elems i).map HashNode.key).Nodup
  bucket : ∀ i, ∀ k ∈ (hmap.elems i).map HashNode.key, hmap.indice k = i

theorem newHash_wellFormed {size : ℕ} (h : 0 < size) : (newHash size).WellFormed :=
  ⟨h, by simp [newHash], by simp [newHash]⟩

@[simp] theorem hashGet_newHash (size key : ℕ) : hashGet (newHash size) key = none := rfl

theorem hashGet_update_of_ne {hmap : HashMap} {i j : ℕ} (chain : List HashNode)
    (h : hmap.indice j ≠ i) (s : ℤ) :
    hashGet ⟨s, hmap.length, Function.update hmap.elems i chain⟩ j = hashGet hmap j := by
  simp only [hashGet, HashMap.indice] at h ⊢
  rw [Function.update_of_ne h]

theorem hashGet_insert_of_none {hmap : HashMap} {key : ℕ} (value : Icache)
    (h : hashGet hmap key = none) :
    (hashInsert hmap key value).1 = 0 ∧
      ∀ j, hashGet (hashInsert hmap key value).2 j =
        if j = key then some value else hashGet hmap j := by
  have hs : substituir key value (hmap.elems (hmap.indice key)) = none :=
    substituir_eq_none.mpr h
  simp only [hashInsert, hs, true_and]
  intro j
  by_cases hj : j = key
  · subst hj
    simp [hashGet, HashMap.indice, procurar]
  · rw [if_neg hj]
    by_cases hi : hmap.indice j = hmap.indice key
    · simp only [hashGet, HashMap.indice] at hi ⊢
      rw [hi, Function.update_self]
      simp [procurar, Ne.symm hj]
    · exact hashGet_update_of_ne _ hi _

theorem wellFormed_insert_of_none {hmap : HashMap} {key : ℕ} (value : Icache)
    (hw : hmap.WellFormed) (h : hashGet hmap key = none) :
    (hashInsert hmap key value).2.WellFormed := by
  have hs : substituir key value (hmap.elems (hmap.indice key)) = none :=
    substituir_eq_none.mpr h
  simp only [hashInsert, hs]
  refine ⟨hw.length_pos, fun i => ?_, fun i k hk => ?_⟩
  · by_cases hi : i = hmap.indice key
    · subst hi
      simp only [Function.update_self, List.map_cons, List.nodup_cons]
      exact ⟨procurar_eq_none.mp h, hw.nodup _⟩
    · simpa [hi] using hw.nodup i
  · by_cases hi : i = hmap.indice key
    · subst hi
      simp only [Function.update_self, List.map_cons, List.mem_cons] at hk
      rcases hk with rfl | hk
      · rfl
      · exact hw.bucket _ k hk
    · simp only [ne_eq, hi, not_false_eq_true, Function.update_of_ne] at hk
      exact hw.bucket i k hk

theorem hashRemove_eq_none {hmap : HashMap} {key : ℕ} :
    hashRemove hmap key = none ↔ hashGet hmap key = none := by
  simp [hashRemove, hashGet, desligar_eq_none]

theorem hashRemove_eq_some {hmap hmap' : HashMap} {key : ℕ} {e : Icache} (hw : hmap.WellFormed)
    (h : hashRemove hmap key = some (e, hmap')) :
    hashGet hmap key = some e ∧ hmap'.WellFormed ∧ hmap'.length = hmap.length ∧
      ∀ j, hashGet hmap' j = if j = key then none else hashGet hmap j := by
  simp only [hashRemove, Option.map_eq_some_iff, Prod.exists, Prod.mk.injEq] at h
  obtain ⟨e', rest, hd, rfl, rfl⟩ := h
  obtain ⟨hf, hm, ho⟩ := desligar_eq_some hd
  have hnd := hw.nodup (hmap.indice key)
  refine ⟨hf, ⟨hw.length_pos, fun i => ?_, fun i k hk => ?_⟩, rfl, fun j => ?_⟩
  · by_cases hi : i = hmap.indice key
    · subst hi
      simpa [hm] using hnd.erase key
    · simpa [hi] using hw.nodup i
  · by_cases hi : i = hmap.indice key
    · subst hi
      simp only [Function.update_self, hm] at hk
      exact hw.bucket _ k (List.mem_of_mem_erase hk)
    · simp only [ne_eq, hi, not_false_eq_true, Function.update_of_ne] at hk
      exact hw.bucket i k hk
  · by_cases hj : j = key
    · subst hj
      have : procurar j rest = none := by
        rw [procurar_eq_none, hm]
        exact fun hmem => (hnd.mem_erase_iff.mp hmem).1 rfl
      simpa [hashGet, HashMap.indice] using this
    · rw [if_neg hj]
      by_cases hi : hmap.indice j = hmap.indice key
      · have := ho j hj
        simp only [hashGet, HashMap.indice] at hi this ⊢
        rw [hi, Function.update_self, this]
      · exact hashGet_update_of_ne _ hi _

theorem hashGet_assign (hmap : HashMap) (key : ℕ) (f : Icache → Icache) (j : ℕ) :
    hashGet (hmap.assign key f) j =
      if j = key then (hashGet hmap j).map f else hashGet hmap j := by
  by_cases hj : j = key
  · subst hj
    simp [hashGet, HashMap.assign, HashMap.indice, procurar_assignChain_self]
  · rw [if_neg hj]
    by_cases hi : hmap.indice j = hmap.indice key
    · simp only [hashGet, HashMap.assign, HashMap.indice] at hi ⊢
      rw [hi, Function.update_self, procurar_assignChain_of_ne f _ hj]
    · exact hashGet_update_of_ne _ hi _

theorem wellFormed_assign {hmap : HashMap} (hw : hmap.WellFormed) (key : ℕ)
    (f : Icache → Icache) : (hmap.assign key f).WellFormed := by
  have hkeys : ∀ i, ((hmap.assign key f).elems i).map HashNode.key =
      (hmap.elems i).map HashNode.key := by
    intro i
    by_cases hi : i = hmap.indice key
    · subst hi
      simp [HashMap.assign]
    · simp [HashMap.assign, hi]
  refine ⟨hw.length_pos, fun i => ?_, fun i k hk => ?_⟩
  · rw [hkeys]
    exact hw.nodup i
  · rw [hkeys] at hk
    exact hw.bucket i k hk

end ThreadScheduler.SnfsServer
