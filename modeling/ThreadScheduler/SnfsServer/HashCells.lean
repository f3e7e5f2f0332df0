import Mathlib.Data.Finmap
import ThreadScheduler.Lib.LinkedCells
import ThreadScheduler.Lib.Runs
import ThreadScheduler.SnfsServer.Hash

/-!
# The nodes of the hash table

`hash.c` in memory. The table stores the addresses of its entries: an insertion whose key is
present marks the entry that it is given, and a removal writes to the link that led to the node,
which is the bucket's or a field of the node before. What `malloc` gives out is an argument of
`hashInsert`, an address that is not allocated.
-/
namespace ThreadScheduler.SnfsServer

open LinkedCells

/-- `SHashMap`, with the nodes that are allocated, their fields, and the entries. -/
structure TabelaHash where
  size : ℤ
  length : ℕ
  elems : ℕ → Option ℕ
  alocados : Finset ℕ
  key : ℕ → ℤ
  value : ℕ → ℕ
  next : ℕ → Option ℕ
  icaches : ℕ → Icache

namespace TabelaHash

/-- `newHash`; the table is all there is in memory, apart from entries. -/
def newHash (size : ℕ) (icaches : ℕ → Icache) : TabelaHash :=
  ⟨0, size, fun _ => none, ∅, fun _ => 0, fun _ => 0, fun _ => none, icaches⟩

def funcaoHash (key : ℤ) : ℤ := key.tmod 10

/-- The bucket of a key; a negative one is outside `elems`. -/
def indice (hmap : TabelaHash) (key : ℤ) : Option ℕ :=
  ((funcaoHash key).tmod hmap.length).toNat?

/-- The loops over a chain, at most `n` nodes on: the node with the key, and the node whose `next`
leads to where the loop ends, if it is not the bucket. `none` where a node is read that is not
allocated. -/
def procurar (hmap : TabelaHash) (key : ℤ) :
    ℕ → Option ℕ → Option ℕ → Option (Option ℕ × Option ℕ)
  | _, last, none => some (last, none)
  | 0, _, some _ => none
  | n + 1, last, some aux =>
      if aux ∈ hmap.alocados then
        if hmap.key aux = key then some (last, some aux)
        else procurar hmap key n (some aux) (hmap.next aux)
      else none

/-- `hashInsert`. -/
def hashInsert (hmap : TabelaHash) (key : ℤ) (value malloc : ℕ) : Option (TabelaHash × ℤ) := do
  let h ← hmap.indice key
  let (_, aux) ← hmap.procurar key hmap.alocados.card none (hmap.elems h)
  match aux with
  | some aux =>
      some ({ hmap with
        icaches := Function.update hmap.icaches value
          { hmap.icaches value with modificado := true, referenciado := true }
        value := Function.update hmap.value aux value }, 1)
  | none =>
      some ({ hmap with
        alocados := insert malloc hmap.alocados
        key := Function.update hmap.key malloc key
        value := Function.update hmap.value malloc value
        next := Function.update hmap.next malloc (hmap.elems h)
        elems := Function.update hmap.elems h (some malloc)
        size := hmap.size + 1 }, 0)

/-- `hashRemove`, with what `*value` holds before and after. -/
def hashRemove (hmap : TabelaHash) (key : ℤ) (value : Option ℕ) :
    Option (TabelaHash × ℤ × Option ℕ) := do
  let index ← hmap.indice key
  let (last, aux) ← hmap.procurar key hmap.alocados.card none (hmap.elems index)
  match aux with
  | some aux =>
      let hmap' := match last with
        | none => { hmap with elems := Function.update hmap.elems index (hmap.next aux) }
        | some last => { hmap with next := Function.update hmap.next last (hmap.next aux) }
      some ({ hmap' with alocados := hmap.alocados.erase aux, size := hmap.size - 1 }, 0,
        value.map fun _ => hmap.value aux)
  | none => some (hmap, 1, none)

/-- `hashGet`, with what `*value` holds after. -/
def hashGet (hmap : TabelaHash) (key : ℤ) : Option (ℤ × Option ℕ) := do
  let h ← hmap.indice key
  let (_, aux) ← hmap.procurar key hmap.alocados.card none (hmap.elems h)
  some (match aux with
    | some aux => (0, some (hmap.value aux))
    | none => (1, none))

/-! ## Calls -/

end TabelaHash

inductive PedidoHash where
  | insert (key : ℤ) (value malloc : ℕ)
  | remove (key : ℤ) (value : Option ℕ)
  | get (key : ℤ)

inductive RespostaHash where
  | inserido (status : ℤ)
  | obtido (status : ℤ) (value : Option ℕ)
  deriving DecidableEq

namespace TabelaHash

def executar (hmap : TabelaHash) : PedidoHash → Option (TabelaHash × RespostaHash)
  | .insert key value malloc =>
      (hmap.hashInsert key value malloc).map fun r => (r.1, .inserido r.2)
  | .remove key value => (hmap.hashRemove key value).map fun r => (r.1, .obtido r.2.1 r.2.2)
  | .get key => (hmap.hashGet key).map fun r => (hmap, .obtido r.1 r.2)

/-- The key is not negative, and what is allocated was not. -/
def Permitido (hmap : TabelaHash) : PedidoHash → Prop
  | .insert key _ malloc => 0 ≤ key ∧ malloc ∉ hmap.alocados
  | .remove key _ => 0 ≤ key
  | .get key => 0 ≤ key

instance decidablePermitido (hmap : TabelaHash) : ∀ p, Decidable (hmap.Permitido p)
  | .insert key _ malloc => inferInstanceAs (Decidable (0 ≤ key ∧ malloc ∉ hmap.alocados))
  | .remove key _ => inferInstanceAs (Decidable (0 ≤ key))
  | .get key => inferInstanceAs (Decidable (0 ≤ key))

end TabelaHash

/-- A finite map from keys to entries: the last value inserted for a key since its last removal. -/
abbrev MapaHash := Finmap fun _ : ℤ => ℕ

/-- What `hashGet` answers. -/
def MapaHash.obter (mapa : MapaHash) (key : ℤ) : ℤ × Option ℕ :=
  match mapa.lookup key with
  | some value => (0, some value)
  | none => (1, none)

def MapaHash.executar (mapa : MapaHash) : PedidoHash → Option (MapaHash × RespostaHash)
  | .insert key value _ => some (mapa.insert key value, .inserido (if key ∈ mapa then 1 else 0))
  | .remove key value =>
      some (mapa.erase key, .obtido (if key ∈ mapa then 0 else 1)
        (value.bind fun _ => mapa.lookup key))
  | .get key => some (mapa, .obtido (mapa.obter key).1 (mapa.obter key).2)

/-! ## What the memory holds -/

/-- The table holds the map `mapa` in the nodes `cells`, those that are allocated: one for each
key, in its bucket. -/
structure Representa (hmap : TabelaHash) (mapa : MapaHash) (cells : ℕ → List ℕ) : Prop where
  length_pos : 0 < hmap.length
  familia : Family hmap.next hmap.elems cells
  alocados : ∀ c, c ∈ hmap.alocados ↔ ∃ i, c ∈ cells i
  bucket : ∀ i, ∀ c ∈ cells i, 0 ≤ hmap.key c ∧ (i : ℤ) = hmap.key c % 10 % hmap.length
  unica : ∀ c ∈ hmap.alocados, ∀ d ∈ hmap.alocados, hmap.key c = hmap.key d → c = d
  chaves : ∀ key, key ∈ mapa ↔ ∃ c ∈ hmap.alocados, hmap.key c = key
  valores : ∀ c ∈ hmap.alocados, mapa.lookup (hmap.key c) = some (hmap.value c)
  size : hmap.size = hmap.alocados.card

namespace TabelaHash

variable {hmap : TabelaHash} {key : ℤ}

theorem representa_newHash {size : ℕ} (h : 0 < size) (icaches : ℕ → Icache) :
    Representa (newHash size icaches) ∅ fun _ => [] := by
  refine ⟨h, .nil _, fun c => ?_, fun _ _ hc => absurd hc List.not_mem_nil,
    fun c hc => absurd hc (Finset.notMem_empty c), fun k => ?_,
    fun c hc => absurd hc (Finset.notMem_empty c), rfl⟩
  · simp [newHash]
  · simp [newHash, Finmap.notMem_empty]

theorem indice_eq (hl : 0 < hmap.length) (hk : 0 ≤ key) :
    hmap.indice key = some (key % 10 % hmap.length).toNat := by
  have h10 : funcaoHash key = key % 10 := Int.tmod_eq_emod_of_nonneg hk
  have hpos : 0 ≤ key % 10 := Int.emod_nonneg key (by decide)
  have hmod : 0 ≤ key % 10 % (hmap.length : ℤ) := Int.emod_nonneg _ (by omega)
  rw [indice, h10, Int.tmod_eq_emod_of_nonneg hpos]
  obtain ⟨i, hi⟩ := Int.eq_ofNat_of_zero_le hmod
  rw [hi]
  rfl

/-- The loops find the node with the key, and the node before it. -/
theorem procurar_chain (key : ℤ) {n : ℕ} (last : Option ℕ) {p : Option ℕ} {cs : List ℕ}
    (h : Chain hmap.next p cs)
    (hal : ∀ c ∈ cs, c ∈ hmap.alocados) (hn : cs.length ≤ n) :
    (∃ as c bs, cs = as ++ c :: bs ∧ hmap.key c = key ∧
        hmap.procurar key n last p = some (as.getLast?.or last, some c)) ∨
      (∀ c ∈ cs, hmap.key c ≠ key) ∧ ∃ l, hmap.procurar key n last p = some (l, none) := by
  induction cs generalizing n last p with
  | nil =>
      obtain rfl : p = none := h
      refine Or.inr ⟨fun c hc => absurd hc List.not_mem_nil, last, ?_⟩
      cases n <;> rfl
  | cons c cs ih =>
      obtain ⟨rfl, htail⟩ := h
      cases n with
      | zero => exact absurd hn (Nat.not_succ_le_zero _)
      | succ n =>
          rw [procurar, if_pos (hal c List.mem_cons_self)]
          by_cases hc : hmap.key c = key
          · exact Or.inl ⟨[], c, cs, rfl, hc, by rw [if_pos hc]; rfl⟩
          · rw [if_neg hc]
            rcases ih (some c) htail (fun d hd => hal d (List.mem_cons_of_mem c hd))
              (Nat.le_of_succ_le_succ hn) with ⟨as, d, bs, rfl, hd, hp⟩ | ⟨hno, l, hp⟩
            · refine Or.inl ⟨c :: as, d, bs, rfl, hd, hp.trans ?_⟩
              rw [List.getLast?_cons]
              cases as.getLast? <;> rfl
            · exact Or.inr ⟨List.forall_mem_cons.mpr ⟨hc, hno⟩, l, hp⟩

end TabelaHash

namespace Representa

open TabelaHash

variable {hmap : TabelaHash} {mapa : MapaHash} {cells : ℕ → List ℕ} {key : ℤ}

theorem length_cells (h : Representa hmap mapa cells) (i : ℕ) :
    (cells i).length ≤ hmap.alocados.card := by
  rw [← List.toFinset_card_of_nodup (h.familia.chain i).nodup]
  refine Finset.card_le_card fun c hc => ?_
  exact (h.alocados c).mpr ⟨i, List.mem_toFinset.mp hc⟩

/-- What the loops of the three operations find. -/
theorem procurar (h : Representa hmap mapa cells) (hk : 0 ≤ key) :
    ∃ i, hmap.indice key = some i ∧ (i : ℤ) = key % 10 % hmap.length ∧
      ((∃ as c bs, cells i = as ++ c :: bs ∧ hmap.key c = key ∧
          hmap.procurar key hmap.alocados.card none (hmap.elems i) =
            some (as.getLast?, some c)) ∨
        key ∉ mapa ∧
          ∃ l, hmap.procurar key hmap.alocados.card none (hmap.elems i) = some (l, none)) := by
  have hmod : 0 ≤ key % 10 % (hmap.length : ℤ) :=
    Int.emod_nonneg _ (by have := h.length_pos; omega)
  refine ⟨_, indice_eq h.length_pos hk, Int.toNat_of_nonneg hmod, ?_⟩
  set i := (key % 10 % (hmap.length : ℤ)).toNat with hi
  rcases procurar_chain key none (h.familia.chain i)
    (fun c hc => (h.alocados c).mpr ⟨i, hc⟩) (h.length_cells i) with
    ⟨as, c, bs, hcs, hc, hp⟩ | ⟨hno, hp⟩
  · refine Or.inl ⟨as, c, bs, hcs, hc, hp.trans ?_⟩
    rw [Option.or_none]
  · refine Or.inr ⟨fun hm => ?_, hp⟩
    obtain ⟨c, hc, hkey⟩ := (h.chaves key).mp hm
    obtain ⟨j, hj⟩ := (h.alocados c).mp hc
    have hji : j = i := by
      have := (h.bucket j c hj).2
      rw [hkey] at this
      omega
    exact hno c (hji ▸ hj) hkey

/-- A node of the table has the entry of its key. -/
theorem lookup_of_mem (h : Representa hmap mapa cells) {i c : ℕ} (hc : c ∈ cells i)
    (hkey : hmap.key c = key) : mapa.lookup key = some (hmap.value c) := by
  rw [← hkey]
  exact h.valores c ((h.alocados c).mpr ⟨i, hc⟩)

theorem hashGet (h : Representa hmap mapa cells) (hk : 0 ≤ key) :
    hmap.hashGet key = some (mapa.obter key) := by
  obtain ⟨i, hi, -, ⟨as, c, bs, hcs, hc, hp⟩ | ⟨hno, l, hp⟩⟩ := h.procurar hk
  · have hlook := h.lookup_of_mem (i := i) (by simp [hcs]) hc
    simp [TabelaHash.hashGet, hi, hp, MapaHash.obter, hlook]
  · have hlook := Finmap.lookup_eq_none.mpr hno
    simp [TabelaHash.hashGet, hi, hp, MapaHash.obter, hlook]

/-- A new key takes a new node, the first of its bucket. -/
theorem insert_novo (h : Representa hmap mapa cells) (hk : 0 ≤ key) {malloc i : ℕ}
    (hm : malloc ∉ hmap.alocados) (hno : key ∉ mapa) (hi : (i : ℤ) = key % 10 % hmap.length)
    (value : ℕ) :
    Representa { hmap with
        alocados := insert malloc hmap.alocados
        key := Function.update hmap.key malloc key
        value := Function.update hmap.value malloc value
        next := Function.update hmap.next malloc (hmap.elems i)
        elems := Function.update hmap.elems i (some malloc)
        size := hmap.size + 1 }
      (mapa.insert key value) (Function.update cells i (malloc :: cells i)) := by
  have hout : ∀ j, malloc ∉ cells j := fun j hj => hm ((h.alocados malloc).mpr ⟨j, hj⟩)
  have hkeys : ∀ c ∈ hmap.alocados, hmap.key c ≠ key := fun c hc he =>
    hno ((h.chaves key).mpr ⟨c, hc, he⟩)
  refine ⟨h.length_pos, h.familia.push i hout, fun c => ?_, fun j c hc => ?_, ?_, fun k => ?_, ?_,
    ?_⟩
  · rw [Finset.mem_insert, h.alocados]
    constructor
    · rintro (rfl | ⟨j, hj⟩)
      · exact ⟨i, by simp⟩
      · by_cases hji : j = i
        · subst hji
          exact ⟨j, by simp [hj]⟩
        · exact ⟨j, by simpa [hji] using hj⟩
    · rintro ⟨j, hj⟩
      by_cases hji : j = i
      · subst hji
        rw [Function.update_self, List.mem_cons] at hj
        exact hj.imp_right fun hj => ⟨j, hj⟩
      · rw [Function.update_of_ne hji] at hj
        exact Or.inr ⟨j, hj⟩
  · by_cases hcm : c = malloc
    · subst hcm
      have hji : j = i := by
        by_contra hji
        rw [Function.update_of_ne hji] at hc
        exact hout j hc
      dsimp only
      rw [Function.update_self, hji]
      exact ⟨hk, hi⟩
    · dsimp only
      rw [Function.update_of_ne hcm]
      refine h.bucket j c ?_
      by_cases hji : j = i
      · subst hji
        rw [Function.update_self] at hc
        exact (List.mem_cons.mp hc).resolve_left hcm
      · rwa [Function.update_of_ne hji] at hc
  · intro c hc d hd hcd
    dsimp only at hc hd hcd
    rw [Function.update_apply, Function.update_apply] at hcd
    split at hcd <;> split at hcd <;> grind [h.unica]
  · rw [Finmap.mem_insert, h.chaves]
    constructor
    · rintro (rfl | ⟨c, hc, rfl⟩)
      · exact ⟨malloc, Finset.mem_insert_self .., Function.update_self ..⟩
      · refine ⟨c, Finset.mem_insert_of_mem hc, Function.update_of_ne ?_ ..⟩
        rintro rfl
        exact hm hc
    · rintro ⟨c, hc, rfl⟩
      by_cases hcm : c = malloc
      · subst hcm
        exact Or.inl (Function.update_self ..)
      · dsimp only
        rw [Function.update_of_ne hcm]
        exact Or.inr ⟨c, Finset.mem_of_mem_insert_of_ne hc hcm, rfl⟩
  · intro c hc
    by_cases hcm : c = malloc
    · subst hcm
      dsimp only
      rw [Function.update_self, Function.update_self]
      exact Finmap.lookup_insert mapa
    · have hc' := Finset.mem_of_mem_insert_of_ne hc hcm
      dsimp only
      rw [Function.update_of_ne hcm, Function.update_of_ne hcm,
        Finmap.lookup_insert_of_ne _ (hkeys c hc')]
      exact h.valores c hc'
  · dsimp only
    rw [Finset.card_insert_of_notMem hm, h.size]
    rfl

/-- The node of a present key takes the new entry. -/
theorem insert_presente (h : Representa hmap mapa cells) {aux i : ℕ} (hc : aux ∈ cells i)
    (hkey : hmap.key aux = key) (value : ℕ) (icaches : ℕ → Icache) :
    Representa { hmap with icaches := icaches, value := Function.update hmap.value aux value }
      (mapa.insert key value) cells := by
  have halone := (h.alocados aux).mpr ⟨i, hc⟩
  refine ⟨h.length_pos, h.familia, h.alocados, h.bucket, h.unica, fun k => ?_, fun c hca => ?_,
    h.size⟩
  · rw [Finmap.mem_insert, h.chaves]
    refine ⟨?_, Or.inr⟩
    rintro (rfl | hk)
    · exact ⟨aux, halone, hkey⟩
    · exact hk
  · by_cases hca' : c = aux
    · subst hca'
      dsimp only
      rw [Function.update_self, hkey]
      exact Finmap.lookup_insert mapa
    · dsimp only
      rw [Function.update_of_ne hca', Finmap.lookup_insert_of_ne]
      · exact h.valores c hca
      · exact fun he => hca' (h.unica c hca aux halone (he.trans hkey.symm))

/-- The node of a key is unlinked and freed. -/
theorem unlink (h : Representa hmap mapa cells) {aux i : ℕ} {cs : List ℕ}
    (hc : aux ∈ cells i) (hkey : hmap.key aux = key) (hcs : cs = (cells i).erase aux)
    {next elems : ℕ → Option ℕ} (hfam : Family next elems (Function.update cells i cs)) :
    Representa { hmap with
        elems := elems, next := next, alocados := hmap.alocados.erase aux, size := hmap.size - 1 }
      (mapa.erase key) (Function.update cells i cs) := by
  have halone := (h.alocados aux).mpr ⟨i, hc⟩
  have hmem : ∀ j c, c ∈ Function.update cells i cs j ↔ c ≠ aux ∧ c ∈ cells j := by
    intro j c
    by_cases hj : j = i
    · subst hj
      rw [Function.update_self, hcs, (h.familia.chain j).nodup.mem_erase_iff]
    · rw [Function.update_of_ne hj]
      refine (and_iff_right_of_imp ?_).symm
      rintro hcj rfl
      exact hj (h.familia.apart j i c hcj hc)
  refine ⟨h.length_pos, hfam, fun c => ?_, fun j c hcj => h.bucket j c ((hmem j c).mp hcj).2, ?_,
    fun k => ?_, fun c hca => ?_, ?_⟩
  · simp only [Finset.mem_erase, h.alocados, hmem, exists_and_left]
  · intro c hc d hd hcd
    exact h.unica c (Finset.mem_of_mem_erase hc) d (Finset.mem_of_mem_erase hd) hcd
  · rw [Finmap.mem_erase, h.chaves]
    constructor
    · rintro ⟨hk, c, hc, rfl⟩
      refine ⟨c, Finset.mem_erase.mpr ⟨?_, hc⟩, rfl⟩
      rintro rfl
      exact hk hkey
    · rintro ⟨c, hc, rfl⟩
      obtain ⟨hne, hc⟩ := Finset.mem_erase.mp hc
      exact ⟨fun he => hne (h.unica c hc aux halone (he.trans hkey.symm)), c, hc, rfl⟩
  · obtain ⟨hne, hca⟩ := Finset.mem_erase.mp hca
    rw [Finmap.lookup_erase_ne]
    · exact h.valores c hca
    · exact fun he => hne (h.unica c hca aux halone (he.trans hkey.symm))
  · have hpos := Finset.card_pos.mpr ⟨aux, halone⟩
    dsimp only
    rw [Finset.card_erase_of_mem halone, h.size]
    omega

end Representa

/-! ## The chains as lists of entries -/

section Listas

variable {k : ℕ} {as bs : List HashNode} {no : HashNode}

theorem procurar_append (has : k ∉ as.map HashNode.key) (hno : no.key = k) :
    procurar k (as ++ no :: bs) = some no.value := by
  induction as with
  | nil => simp [procurar, hno]
  | cons a as ih =>
      obtain ⟨ha, has⟩ := not_or.mp (List.mem_cons.not.mp has)
      simp [procurar, Ne.symm ha, ih has]

theorem substituir_append (has : k ∉ as.map HashNode.key) (hno : no.key = k) (value : Icache) :
    substituir k value (as ++ no :: bs) = some (as ++
      { no with value := { value with modificado := true, referenciado := true } } :: bs) := by
  induction as with
  | nil => simp [substituir, hno]
  | cons a as ih =>
      obtain ⟨ha, has⟩ := not_or.mp (List.mem_cons.not.mp has)
      simp [substituir, Ne.symm ha, ih has]

theorem desligar_append (has : k ∉ as.map HashNode.key) (hno : no.key = k) :
    desligar k (as ++ no :: bs) = some (no.value, as ++ bs) := by
  induction as with
  | nil => simp [desligar, hno]
  | cons a as ih =>
      obtain ⟨ha, has⟩ := not_or.mp (List.mem_cons.not.mp has)
      simp [desligar, Ne.symm ha, ih has]

end Listas

/-- A node with the entry that it points to. -/
def TabelaHash.no (hmap : TabelaHash) (c : ℕ) : HashNode :=
  ⟨(hmap.key c).toNat, hmap.icaches (hmap.value c)⟩

/-- The table with its chains as lists. -/
def TabelaHash.listas (hmap : TabelaHash) (cells : ℕ → List ℕ) : HashMap :=
  ⟨hmap.size, hmap.length, fun i => (cells i).map hmap.no⟩

namespace Representa

variable {hmap : TabelaHash} {mapa : MapaHash} {cells : ℕ → List ℕ} {k i : ℕ}

theorem indice_listas (hi : (i : ℤ) = (k : ℤ) % 10 % hmap.length) :
    (hmap.listas cells).indice k = i := by
  have : (i : ℤ) = ((k % 10 % hmap.length : ℕ) : ℤ) := by
    rw [hi]
    rfl
  exact (Int.ofNat_inj.mp this).symm

/-- The nodes before that of a key have other keys. -/
theorem notMem_keys (h : Representa hmap mapa cells) {as bs : List ℕ} {c : ℕ}
    (hcs : cells i = as ++ c :: bs) (hc : hmap.key c = k) :
    k ∉ (as.map hmap.no).map HashNode.key := by
  intro hm
  obtain ⟨a, ha, hka⟩ := List.mem_map.mp (List.map_map .. ▸ hm)
  have hai : a ∈ cells i := by simp [hcs, ha]
  have hpos := (h.bucket i a hai).1
  have hac : a = c := by
    refine h.unica a ((h.alocados a).mpr ⟨i, hai⟩) c ((h.alocados c).mpr ⟨i, by simp [hcs]⟩) ?_
    rw [hc, ← hka]
    exact (Int.toNat_of_nonneg hpos).symm
  have hnd := (h.familia.chain i).nodup
  rw [hcs, List.nodup_middle] at hnd
  exact (List.nodup_cons.mp hnd).1 (List.mem_append_left bs (hac ▸ ha))

/-- A key that is not in the map is in no list. -/
theorem procurar_listas_none (h : Representa hmap mapa cells) (hno : (k : ℤ) ∉ mapa) :
    SnfsServer.procurar k ((hmap.listas cells).elems i) = none := by
  rw [procurar_eq_none]
  intro hm
  obtain ⟨a, ha, hka⟩ := List.mem_map.mp (List.map_map .. ▸ hm)
  refine hno ((h.chaves k).mpr ⟨a, (h.alocados a).mpr ⟨i, ha⟩, ?_⟩)
  rw [← hka]
  exact (Int.toNat_of_nonneg (h.bucket i a ha).1).symm

theorem elems_listas {as bs : List ℕ} {c : ℕ} (hcs : cells i = as ++ c :: bs) :
    (hmap.listas cells).elems i = as.map hmap.no ++ hmap.no c :: bs.map hmap.no := by
  simp [TabelaHash.listas, hcs]

theorem hashGet_listas (h : Representa hmap mapa cells) (k : ℕ) :
    SnfsServer.hashGet (hmap.listas cells) k = (mapa.lookup (k : ℤ)).map hmap.icaches := by
  obtain ⟨i, -, hi, ⟨as, c, bs, hcs, hc, -⟩ | ⟨hno, -⟩⟩ := h.procurar (Int.natCast_nonneg k)
  · rw [SnfsServer.hashGet, indice_listas hi, elems_listas hcs,
      procurar_append (h.notMem_keys hcs hc) (by rw [TabelaHash.no, hc]; rfl),
      h.lookup_of_mem (i := i) (by simp [hcs]) hc]
    rfl
  · rw [SnfsServer.hashGet, h.procurar_listas_none hno, Finmap.lookup_eq_none.mpr hno]
    rfl

/-- A table whose chains are the same but for one. -/
theorem listas_update (hmap hmap' : TabelaHash) (cells cells' : ℕ → List ℕ) (i : ℕ)
    (hlen : hmap'.length = hmap.length)
    (hj : ∀ j ≠ i, cells' j = cells j ∧ ∀ c ∈ cells j, hmap'.no c = hmap.no c) :
    hmap'.listas cells' = ⟨hmap'.size, hmap.length,
      Function.update (hmap.listas cells).elems i ((cells' i).map hmap'.no)⟩ := by
  have helems : (fun j => (cells' j).map hmap'.no) =
      Function.update (hmap.listas cells).elems i ((cells' i).map hmap'.no) := by
    funext j
    by_cases hji : j = i
    · rw [hji, Function.update_self]
    · rw [Function.update_of_ne hji, (hj j hji).1]
      exact List.map_congr_left (hj j hji).2
  rw [TabelaHash.listas, hlen, helems]

/-- `hashInsert`. Unless the entry is that of another key, the lists take it as well. -/
theorem hashInsert (h : Representa hmap mapa cells) {malloc : ℕ} (hm : malloc ∉ hmap.alocados)
    (k value : ℕ) :
    ∃ hmap' cells', hmap.hashInsert k value malloc =
        some (hmap', if (k : ℤ) ∈ mapa then 1 else 0) ∧
      Representa hmap' (mapa.insert (k : ℤ) value) cells' ∧ hmap'.length = hmap.length ∧
      ((∀ c ∈ hmap.alocados, hmap.value c = value → hmap.key c = k) →
        SnfsServer.hashInsert (hmap.listas cells) k (hmap.icaches value) =
          (if (k : ℤ) ∈ mapa then 1 else 0, hmap'.listas cells')) := by
  obtain ⟨i, hi, hbucket, ⟨as, c, bs, hcs, hc, hp⟩ | ⟨hno, l, hp⟩⟩ :=
    h.procurar (Int.natCast_nonneg k)
  · have hmem : c ∈ cells i := by simp [hcs]
    have hin : (k : ℤ) ∈ mapa := Finmap.mem_of_lookup_eq_some (h.lookup_of_mem hmem hc)
    refine ⟨_, cells, ?_, h.insert_presente hmem hc value (Function.update hmap.icaches value
      { hmap.icaches value with modificado := true, referenciado := true }), rfl, fun hv => ?_⟩
    · rw [TabelaHash.hashInsert, hi, Option.bind_eq_bind, Option.bind_some, hp, if_pos hin]
      rfl
    · -- the other nodes have other entries, which are not marked
      have hno : ∀ d ∈ hmap.alocados, d ≠ c →
          TabelaHash.no { hmap with
            icaches := Function.update hmap.icaches value
              { hmap.icaches value with modificado := true, referenciado := true }
            value := Function.update hmap.value c value } d = hmap.no d := by
        intro d hd hdc
        have hdv : hmap.value d ≠ value := fun he =>
          hdc (h.unica d hd c ((h.alocados c).mpr ⟨i, hmem⟩) ((hv d hd he).trans hc.symm))
        simp only [TabelaHash.no, Function.update_of_ne hdc, Function.update_of_ne hdv]
      have hmap_no : ∀ ds : List ℕ, (∀ d ∈ ds, d ∈ cells i ∧ d ≠ c) → ds.map _ = ds.map hmap.no :=
        fun ds hds => List.map_congr_left fun d hd =>
          hno d ((h.alocados d).mpr ⟨i, (hds d hd).1⟩) (hds d hd).2
      have hne : ∀ d ∈ as ++ bs, d ∈ cells i ∧ d ≠ c := by
        have hnd := (h.familia.chain i).nodup
        rw [hcs, List.nodup_middle] at hnd
        refine fun d hd => ⟨?_, fun he => (List.nodup_cons.mp hnd).1 (he ▸ hd)⟩
        rw [hcs, List.mem_append, List.mem_cons]
        exact (List.mem_append.mp hd).imp_right Or.inr
      refine Eq.trans ?_ (congrArg (Prod.mk _) (listas_update hmap _ cells _ i ?_ ?_).symm)
      · rw [hcs, List.map_append, List.map_cons,
          hmap_no as fun d hd => hne d (List.mem_append_left bs hd),
          hmap_no bs fun d hd => hne d (List.mem_append_right as hd)]
        simp only [SnfsServer.hashInsert, indice_listas hbucket, elems_listas hcs, if_pos hin,
          substituir_append (h.notMem_keys hcs hc)
            (show (hmap.no c).key = k by rw [TabelaHash.no, hc]; rfl)]
        simp [TabelaHash.no, TabelaHash.listas]
      · rfl
      · refine fun j hj => ⟨rfl, fun d hd => hno d ((h.alocados d).mpr ⟨j, hd⟩) ?_⟩
        rintro rfl
        exact hj (h.familia.apart j i d hd hmem)
  · refine ⟨_, _, ?_, h.insert_novo (Int.natCast_nonneg k) hm hno hbucket value, rfl, fun _ => ?_⟩
    · rw [TabelaHash.hashInsert, hi, Option.bind_eq_bind, Option.bind_some, hp, if_neg hno]
      rfl
    · have hno' : ∀ j, ∀ d ∈ cells j,
          TabelaHash.no { hmap with
            alocados := insert malloc hmap.alocados
            key := Function.update hmap.key malloc k
            value := Function.update hmap.value malloc value
            next := Function.update hmap.next malloc (hmap.elems i)
            elems := Function.update hmap.elems i (some malloc)
            size := hmap.size + 1 } d = hmap.no d := by
        intro j d hd
        have hdm : d ≠ malloc := by
          rintro rfl
          exact hm ((h.alocados d).mpr ⟨j, hd⟩)
        simp only [TabelaHash.no, Function.update_of_ne hdm]
      refine Eq.trans ?_ (congrArg (Prod.mk _) (listas_update hmap _ cells _ i ?_ ?_).symm)
      · rw [Function.update_self, List.map_cons, List.map_congr_left (hno' i)]
        simp only [SnfsServer.hashInsert, indice_listas hbucket, if_neg hno,
          substituir_eq_none.mpr (h.procurar_listas_none hno)]
        simp [TabelaHash.no, TabelaHash.listas]
      · rfl
      · exact fun j hj => ⟨Function.update_of_ne hj .., hno' j⟩

/-- `hashRemove`. -/
theorem hashRemove (h : Representa hmap mapa cells) (k : ℕ) (value : Option ℕ) :
    ∃ hmap' cells', hmap.hashRemove k value = some (hmap', if (k : ℤ) ∈ mapa then 0 else 1,
        value.bind fun _ => mapa.lookup (k : ℤ)) ∧
      Representa hmap' (mapa.erase (k : ℤ)) cells' ∧ hmap'.length = hmap.length ∧
      SnfsServer.hashRemove (hmap.listas cells) k =
        (mapa.lookup (k : ℤ)).map fun v => (hmap.icaches v, hmap'.listas cells') := by
  obtain ⟨i, hi, hbucket, ⟨as, c, bs, hcs, hc, hp⟩ | ⟨hno, l, hp⟩⟩ :=
    h.procurar (Int.natCast_nonneg k)
  · have hmem : c ∈ cells i := by simp [hcs]
    have hlook := h.lookup_of_mem hmem hc
    have hin : (k : ℤ) ∈ mapa := Finmap.mem_of_lookup_eq_some hlook
    have hnotin : c ∉ as := by
      have hnd := (h.familia.chain i).nodup
      rw [hcs, List.nodup_middle] at hnd
      exact fun hca => (List.nodup_cons.mp hnd).1 (List.mem_append_left bs hca)
    have herase : as ++ bs = (cells i).erase c := by
      rw [hcs, List.erase_append_right _ hnotin, List.erase_cons_head]
    have hvalue : (value.map fun _ => hmap.value c) =
        value.bind fun _ => mapa.lookup (k : ℤ) := by
      rw [hlook]
      cases value <;> rfl
    have hlistas : ∀ (elems next : ℕ → Option ℕ) (cs : List ℕ), as ++ bs = cs →
        SnfsServer.hashRemove (hmap.listas cells) k =
          some (hmap.icaches (hmap.value c), TabelaHash.listas { hmap with
            elems := elems, next := next, alocados := hmap.alocados.erase c, size := hmap.size - 1 }
            (Function.update cells i cs)) := by
      rintro elems next cs rfl
      rw [listas_update hmap { hmap with
            elems := elems, next := next, alocados := hmap.alocados.erase c, size := hmap.size - 1 }
          cells (Function.update cells i (as ++ bs)) i rfl
          fun j hj => ⟨Function.update_of_ne hj .., fun _ _ => rfl⟩,
        Function.update_self, List.map_append]
      simp only [SnfsServer.hashRemove, indice_listas hbucket, elems_listas hcs,
        desligar_append (h.notMem_keys hcs hc)
          (show (hmap.no c).key = k by rw [TabelaHash.no, hc]; rfl)]
      rfl
    rw [if_pos hin, ← hvalue, hlook]
    -- the link that is written to is the bucket's or that of the node before
    rcases List.eq_nil_or_concat as with rfl | ⟨as, a, rfl⟩
    · refine ⟨_, _, ?_, h.unlink hmem hc herase (h.familia.unlinkFirst hcs), rfl,
        hlistas _ _ _ rfl⟩
      rw [TabelaHash.hashRemove, hi, Option.bind_eq_bind, Option.bind_some, hp]
      rfl
    · have hcs' : cells i = as ++ a :: c :: bs := by simp [hcs]
      have hbs : as.concat a ++ bs = as ++ a :: bs := by simp
      refine ⟨_, _, ?_, h.unlink hmem hc (hbs ▸ herase) (h.familia.unlink hcs'), rfl,
        hlistas _ _ _ hbs⟩
      rw [TabelaHash.hashRemove, hi, Option.bind_eq_bind, Option.bind_some, hp,
        List.concat_eq_append, List.getLast?_concat]
      rfl
  · have hlook := Finmap.lookup_eq_none.mpr hno
    have herase : mapa.erase (k : ℤ) = mapa := by
      refine Finmap.ext_lookup fun j => ?_
      by_cases hj : j = k
      · rw [hj, Finmap.lookup_erase, hlook]
      · exact Finmap.lookup_erase_ne hj
    refine ⟨hmap, cells, ?_, by rwa [herase], rfl, ?_⟩
    · rw [TabelaHash.hashRemove, hi, Option.bind_eq_bind, Option.bind_some, hp, if_neg hno, hlook]
      cases value <;> rfl
    · rw [hlook, Option.map_none, hashRemove_eq_none, h.hashGet_listas, hlook]
      rfl

/-- A call answers what the map answers, and leaves the number of buckets. -/
theorem executar (h : Representa hmap mapa cells) {p : PedidoHash} (hp : hmap.Permitido p) :
    ∃ hmap' mapa' r, hmap.executar p = some (hmap', r) ∧ mapa.executar p = some (mapa', r) ∧
      hmap'.length = hmap.length ∧ ∃ cells', Representa hmap' mapa' cells' := by
  cases p with
  | insert key value malloc =>
      obtain ⟨k, rfl⟩ := Int.eq_ofNat_of_zero_le hp.1
      obtain ⟨hmap', cells', he, hr, hl, -⟩ := h.hashInsert hp.2 k value
      exact ⟨hmap', _, _, by rw [TabelaHash.executar, he]; rfl, rfl, hl, cells', hr⟩
  | remove key value =>
      obtain ⟨k, rfl⟩ := Int.eq_ofNat_of_zero_le hp
      obtain ⟨hmap', cells', he, hr, hl, -⟩ := h.hashRemove k value
      exact ⟨hmap', _, _, by rw [TabelaHash.executar, he]; rfl, rfl, hl, cells', hr⟩
  | get key =>
      exact ⟨hmap, _, _, by rw [TabelaHash.executar, h.hashGet hp]; rfl, rfl, rfl, cells, h⟩

end Representa

/-- The table is a finite map. Each call of a run answers what the map answers, and at its end
`hashGet` answers the map's entry of every key, which stands in one node at most, in its bucket;
`size` is the number of the keys. -/
theorem hash_mapaFinito {length : ℕ} (hl : 0 < length) (icaches : ℕ → Icache)
    {pedidos : List PedidoHash} (hP : Runs.Permitted TabelaHash.executar TabelaHash.Permitido
      (TabelaHash.newHash length icaches) pedidos) :
    ∃ hmap mapa rs,
      Runs.run TabelaHash.executar (TabelaHash.newHash length icaches) pedidos = some (hmap, rs) ∧
      Runs.run MapaHash.executar ∅ pedidos = some (mapa, rs) ∧
      (∀ key, 0 ≤ key → hmap.hashGet key = some (mapa.obter key)) ∧
      (∃ cells : ℕ → List ℕ, (∀ i, Chain hmap.next (hmap.elems i) (cells i)) ∧
        (∀ i, ∀ c ∈ cells i, (i : ℤ) = hmap.key c % 10 % length) ∧
        ∀ i j c d, c ∈ cells i → d ∈ cells j → hmap.key c = hmap.key d → c = d) ∧
      hmap.size = mapa.keys.card := by
  have hstep : ∀ (hmap : TabelaHash) (mapa : MapaHash) (p : PedidoHash),
      (hmap.length = length ∧ ∃ cells, Representa hmap mapa cells) → hmap.Permitido p →
      ∃ hmap' mapa' r, hmap.executar p = some (hmap', r) ∧ mapa.executar p = some (mapa', r) ∧
        (hmap'.length = length ∧ ∃ cells, Representa hmap' mapa' cells) := by
    rintro hmap mapa p ⟨hlen, cells, h⟩ hp
    obtain ⟨hmap', mapa', r, he, he', hlen', hr⟩ := h.executar hp
    exact ⟨hmap', mapa', r, he, he', hlen'.trans hlen, hr⟩
  obtain ⟨hmap, mapa, rs, hrun, hrun', hlen, cells, h⟩ :=
    Runs.run_simulates hstep ⟨rfl, _, TabelaHash.representa_newHash hl icaches⟩ hP
  refine ⟨hmap, mapa, rs, hrun, hrun', fun key hk => h.hashGet hk,
    ⟨cells, h.familia.chain, fun i c hc => ?_, fun i j c d hc hd he => ?_⟩, ?_⟩
  · rw [← hlen]
    exact (h.bucket i c hc).2
  · exact h.unica c ((h.alocados c).mpr ⟨i, hc⟩) d ((h.alocados d).mpr ⟨j, hd⟩) he
  · have himage : mapa.keys = hmap.alocados.image hmap.key := by
      ext key
      rw [Finmap.mem_keys, h.chaves, Finset.mem_image]
    rw [himage, Finset.card_image_of_injOn fun c hc d hd he => h.unica c hc d hd he]
    exact h.size

/-- Two keys of one bucket, the older of which is inserted again and removed. -/
theorem hash_mapaFinito_colisao : ∃ hmap rs,
    Runs.run TabelaHash.executar
        (TabelaHash.newHash 7 fun _ => ⟨0, true, false, false, 0, fun _ => 0⟩)
        [.insert 3 100 1, .insert 13 101 2, .insert 3 102 3, .remove 3 none, .get 3] =
      some (hmap, rs) ∧
    rs = [.inserido 0, .inserido 0, .inserido 1, .obtido 0 none, .obtido 1 none] ∧
    hmap.hashGet 13 = some (0, some 101) ∧ hmap.size = 1 := by
  have hP : Runs.Permitted TabelaHash.executar TabelaHash.Permitido
      (TabelaHash.newHash 7 fun _ => ⟨0, true, false, false, 0, fun _ => 0⟩)
      [.insert 3 100 1, .insert 13 101 2, .insert 3 102 3, .remove 3 none, .get 3] := by
    decide
  obtain ⟨hmap, mapa, rs, hrun, hmapa, hget, -, hsize⟩ :=
    hash_mapaFinito (show 0 < 7 by decide) _ hP
  obtain ⟨rfl, rfl⟩ := Prod.mk.inj (Option.some.inj hmapa)
  exact ⟨hmap, _, hrun, by decide, (hget 13 (by decide)).trans (by decide),
    hsize.trans (by decide)⟩

end ThreadScheduler.SnfsServer
