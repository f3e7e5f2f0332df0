import ThreadScheduler.SnfsServer.CacheEviction

/-!
# Not recently used

`libertarEspaco` with its count at zero empties the lowest class that has an entry, and writes back
what it takes out.
-/
namespace ThreadScheduler.SnfsServer

/-- `c'` is `c` without the entries of a class. -/
structure Despejada (classe : Icache → Bool) (c c' : CacheT) : Prop where
  arrumada : c'.Arrumada
  entradas : ∀ b, hashGet c'.tabela b = (hashGet c.tabela b).filter (!classe ·)
  gravados : ∀ b e, hashGet c.tabela b = some e → classe e = true → e.valido = true →
    e.modificado = true → c'.disco.blocks b = e.conteudobloco
  intactos : ∀ b, (∀ e, hashGet c.tabela b = some e → classe e = true → e.valido = true →
    e.modificado = false) → c'.disco.blocks b = c.disco.blocks b
  numBlocks : c'.disco.numBlocks = c.disco.numBlocks
  numero : c'.numeroNosUtilizados =
    c.numeroNosUtilizados - c.tabela.nos.countP (classe ·.value)

/-- Every entry is in a class. -/
theorem exists_classeNRU (e : Icache) : ∃ classe ∈ classesNRU, classe e = true := by
  cases hr : e.referenciado <;> cases hm : e.modificado <;> simp [classesNRU, hr, hm]

/-- The nodes that a walk leaves where it takes some of the entries out. -/
theorem Varrida.length_nos {classe : Icache → Bool} {c c' : CacheT} (hc : c.Arrumada)
    (h : Varrida (fun e => if classe e then none else some e) c.tabela.nos c c') :
    c'.tabela.nos.length + c.tabela.nos.countP (classe ·.value) = c.tabela.nos.length := by
  have hperm : c'.tabela.nos.Perm (c.tabela.nos.filter fun no => !classe no.value) := by
    refine (List.perm_ext_iff_of_nodup h.arrumada.tabela.nodup_nos
      (hc.tabela.nodup_nos.filter _)).mpr fun no => ?_
    rw [h.arrumada.tabela.mem_nos_iff, List.mem_filter, hc.tabela.mem_nos_iff,
      h.hashGet_eq hc.tabela]
    cases hno : hashGet c.tabela no.key with
    | none => simp
    | some e =>
        rw [Option.bind_some, Option.some.injEq]
        constructor
        · intro he
          split at he
          · cases he
          · rename_i hclasse
            obtain rfl := Option.some.inj he
            simpa using hclasse
        · rintro ⟨rfl, hclasse⟩
          rw [if_neg (by simpa using hclasse)]
  rw [hperm.length_eq, ← List.countP_eq_length_filter, add_comm,
    List.length_eq_countP_add_countP fun no : HashNode => classe no.value]
  simp

/-- A pass empties its class. -/
theorem libertarClasse_despejada {c : CacheT} (hc : c.Arrumada) (classe : Icache → Bool) (n : ℤ) :
    Despejada classe c (libertarClasse classe n c).2 := by
  obtain ⟨-, h⟩ := libertarClasse_varrida hc classe n
  refine ⟨h.arrumada, fun b => ?_, fun b e he hclasse hv hm => ?_, fun b hb => ?_, h.numBlocks, ?_⟩
  · rw [h.hashGet_eq hc.tabela]
    cases hashGet c.tabela b with
    | none => rfl
    | some e => cases hclasse : classe e <;> simp [Option.filter, hclasse]
  · rw [h.blocks_of_some hc.tabela he]
    simp [hclasse, Icache.guardado, hv, hm]
  · cases he : hashGet c.tabela b with
    | none => exact h.blocks_of_none hc.tabela he
    | some e =>
        rw [h.blocks_of_some hc.tabela he]
        cases hclasse : classe e with
        | false => simp
        | true =>
            have hmv : (e.modificado && e.valido) = false := by
              cases hv : e.valido with
              | false => exact Bool.and_false _
              | true => rw [hb e he hclasse hv, Bool.false_and]
            simp [Icache.guardado, hmv]
  · have hlen := h.length_nos hc
    have hcont := h.contados
    omega

/-- The passes skip the empty classes and stop behind the first other one. -/
theorem libertarClasses_primeira {c : CacheT} (hc : c.Arrumada) {antes : List (Icache → Bool)}
    {classe : Icache → Bool} (depois : List (Icache → Bool))
    (hantes : ∀ vazia ∈ antes, ∀ no ∈ c.tabela.nos, vazia no.value = false)
    (hclasse : ∃ no ∈ c.tabela.nos, classe no.value = true) :
    libertarClasses (antes ++ classe :: depois) 0 c = (libertarClasse classe 0 c).2 := by
  induction antes with
  | nil =>
      have hpos : 0 < c.tabela.nos.countP (classe ·.value) := List.countP_pos_iff.mpr hclasse
      rw [List.nil_append, libertarClasses]
      rw [if_pos]
      rw [(libertarClasse_varrida hc classe 0).1]
      omega
  | cons vazia antes ih =>
      have hvazia := libertarClasse_vazia hc vazia 0 (hantes vazia List.mem_cons_self)
      rw [List.cons_append, libertarClasses]
      rw [hvazia, if_neg (by simp)]
      exact ih fun v hv => hantes v (List.mem_cons_of_mem vazia hv)

/-- The first class that has an entry is emptied: invalid entries, then those not referenced and
not modified, not referenced and modified, referenced and not modified, referenced and modified. -/
theorem libertarEspaco_primeiraClasse {c : CacheT} (hc : c.Arrumada) (hne : c.tabela.nos ≠ [])
    (h0 : c.pilha 0 = 0) :
    ∃ antes classe depois,
      [fun e : Icache => !e.valido,
        fun e => !e.referenciado && !e.modificado,
        fun e => !e.referenciado && e.modificado,
        fun e => e.referenciado && !e.modificado,
        fun e => e.referenciado && e.modificado] = antes ++ classe :: depois ∧
      (∀ vazia ∈ antes, ∀ no ∈ c.tabela.nos, vazia no.value = false) ∧
      (∃ no ∈ c.tabela.nos, classe no.value = true) ∧ Despejada classe c (libertarEspaco c) := by
  obtain ⟨no, hno⟩ := List.exists_mem_of_ne_nil _ hne
  obtain ⟨classe, hclasse, he⟩ := exists_classeNRU no.value
  have hany : (classesNRU.find? fun classe => c.tabela.nos.any (classe ·.value)).isSome := by
    rw [List.find?_isSome]
    exact ⟨classe, hclasse, List.any_eq_true.mpr ⟨no, hno, he⟩⟩
  obtain ⟨classe, hfind⟩ := Option.isSome_iff_exists.mp hany
  obtain ⟨hsome, antes, depois, hsplit, hantes⟩ := List.find?_eq_some_iff_append.mp hfind
  have hvazias : ∀ vazia ∈ antes, ∀ no ∈ c.tabela.nos, vazia no.value = false := by
    intro vazia hv no hno
    have := hantes vazia hv
    simp only [Bool.not_eq_true', List.any_eq_false, Bool.not_eq_true] at this
    exact this no hno
  have hclasse := List.any_eq_true.mp hsome
  refine ⟨antes, classe, depois, hsplit, hvazias, hclasse, ?_⟩
  have hc' := hc.pilha fun n => c.pilha (n + 1)
  have h := libertarClasse_despejada hc' classe 0
  rw [← libertarClasses_primeira hc' depois hvazias hclasse] at h
  rw [libertarEspaco, hsplit, h0]
  exact ⟨h.arrumada, h.entradas, h.gravados, h.intactos, h.numBlocks, h.numero⟩

/-- An entry of block `b`, whose bytes are all `b`. -/
def entradaDe (b : ℕ) (referenciado modificado : Bool) : Icache :=
  ⟨b, true, referenciado, modificado, 2, fun _ => BitVec.ofNat 8 b⟩

/-- Blocks 3 and 13, in one chain, are modified and not referenced; the other two are referenced. -/
def cacheTresClasses : CacheT :=
  let t₁ := (hashInsert (newHash 10) 3 (entradaDe 3 false true)).2
  let t₂ := (hashInsert t₁ 4 (entradaDe 4 true false)).2
  let t₃ := (hashInsert t₂ 13 (entradaDe 13 false true)).2
  { criarCache 10 (blockNew 20) (fun _ => 0) with
    tabela := (hashInsert t₃ 5 (entradaDe 5 true true)).2
    numeroNosUtilizados := 4 }

theorem cacheTresClasses_arrumada : cacheTresClasses.Arrumada := by
  have h₀ := criarCache_arrumada (by decide : 0 < 10) (blockNew 20) fun _ => 0
  obtain ⟨h₁, -⟩ := hashInsert_arrumada h₀ (b := 3) (by decide) rfl
    (e := entradaDe 3 false true) rfl
  obtain ⟨h₂, -⟩ := hashInsert_arrumada h₁ (b := 4) (by decide) rfl
    (e := entradaDe 4 true false) rfl
  obtain ⟨h₃, -⟩ := hashInsert_arrumada h₂ (b := 13) (by decide) rfl
    (e := entradaDe 13 false true) rfl
  obtain ⟨h₄, -⟩ := hashInsert_arrumada h₃ (b := 5) (by decide) rfl
    (e := entradaDe 5 true true) rfl
  exact ⟨h₄.tabela, h₄.idBloco, h₄.inRange⟩

/-- The two modified entries leave the cache, and are on disk. -/
theorem libertarEspaco_primeiraClasse_exemplo :
    ((libertarEspaco cacheTresClasses).tabela.nos.map HashNode.key = [4, 5] ∧
      (libertarEspaco cacheTresClasses).disco.blocks 3 ⟨0, by decide⟩ = 3 ∧
      (libertarEspaco cacheTresClasses).disco.blocks 13 ⟨0, by decide⟩ = 13) ∧
    ∃ antes classe depois,
      [fun e : Icache => !e.valido,
        fun e => !e.referenciado && !e.modificado,
        fun e => !e.referenciado && e.modificado,
        fun e => e.referenciado && !e.modificado,
        fun e => e.referenciado && e.modificado] = antes ++ classe :: depois ∧
      (∀ vazia ∈ antes, ∀ no ∈ cacheTresClasses.tabela.nos, vazia no.value = false) ∧
      (∃ no ∈ cacheTresClasses.tabela.nos, classe no.value = true) ∧
      Despejada classe cacheTresClasses (libertarEspaco cacheTresClasses) :=
  ⟨by decide +kernel, libertarEspaco_primeiraClasse cacheTresClasses_arrumada
    (List.ne_nil_of_length_pos (by decide)) rfl⟩

end ThreadScheduler.SnfsServer
