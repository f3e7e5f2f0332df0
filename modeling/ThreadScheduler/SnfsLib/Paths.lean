import ThreadScheduler.SnfsServer.Requests

/-!
# Path names

`myparse` searches the whole string for a space and for `//`, and its tokens for one that is too
long. `strtok` skips the separators, so the slash after the last name is left to a test of its
own, which reads the character at the string's length.
-/
namespace ThreadScheduler.SnfsLib
open SnfsServer

/-- `' '`. -/
abbrev espaco : Byte := 32#8

/-! ## The parser -/

/-- The loop over the tokens. -/
def myparseLoop : List (List Byte) → ℤ
  | [] => 0
  | token :: tokens => if maxFileNameSize - 1 < token.length then -1 else myparseLoop tokens

/-- `myparse`; a longer path runs over the end of `line`. -/
def myparse (pathname : CString) : Option ℤ :=
  let line := pathname.val
  if maxPathNameSize ≤ line.length then none
  else if line.length < 1 then some (-1)
  else if espaco ∈ line ∨ [barra, barra] <:+: line ∨ line.head? ≠ some barra then some (-1)
  -- the character at `strlen(pathname)` is the terminator
  else if (line ++ [0#8])[line.length]? = some barra then some (-1)
  else some (myparseLoop (strtok line))

theorem myparseLoop_eq_zero (tokens : List (List Byte)) :
    myparseLoop tokens = 0 ↔ ∀ token ∈ tokens, token.length < maxFileNameSize := by
  induction tokens with
  | nil => simp [myparseLoop]
  | cons token tokens ih =>
      rw [myparseLoop, List.forall_mem_cons]
      split_ifs with h
      · constructor
        · intro h'
          cases h'
        · intro hcurtos
          have hcurto := hcurtos.1
          unfold maxFileNameSize at h hcurto
          omega
      · rw [ih]
        have hcurto : token.length < maxFileNameSize := by
          unfold maxFileNameSize at h ⊢
          omega
        exact (and_iff_right hcurto).symm

/-- The checks of `myparse`: the one on the character after the string never fails. -/
theorem myparse_eq_zero {p : CString} (hp : p.val.length < maxPathNameSize) :
    myparse p = some 0 ↔ p.val.head? = some barra ∧ espaco ∉ p.val ∧
      ¬ [barra, barra] <:+: p.val ∧ ∀ token ∈ strtok p.val, token.length < maxFileNameSize := by
  have hfim : (p.val ++ [0#8])[p.val.length]? ≠ some barra := by
    rw [List.getElem?_concat_length]
    decide
  rw [← myparseLoop_eq_zero, myparse]
  rw [if_neg (by omega), if_neg hfim]
  cases hval : p.val with
  | nil => simp
  | cons c cs =>
      rw [if_neg (by simp)]
      split_ifs with h
      · constructor
        · intro h'
          cases h'
        · rintro ⟨h₁, h₂, h₃, -⟩
          exact absurd h (by simp [h₁, h₂, h₃])
      · rw [not_or, not_or, not_not] at h
        simp [h]

/-! ## The grammar -/

/-- A name of 1 to 13 characters, with no slash and no space. -/
structure Bom (nome : List Byte) : Prop where
  naoVazio : nome ≠ []
  curto : nome.length < maxFileNameSize
  semBarra : barra ∉ nome
  semEspaco : espaco ∉ nome

/-- A component of a path. -/
abbrev Componente : Type := {nome : CString // Bom nome.val}

/-- The path `/c1/../ck`. -/
def caminhoDe (nomes : List Componente) : List Byte := caminho (nomes.map Subtype.val)

/-- The path grammar: the root, or one or more components. -/
def Gramatica (p : List Byte) : Prop :=
  p = [barra] ∨ ∃ nomes : List Componente, nomes ≠ [] ∧ p = caminhoDe nomes

/-! ## A path as a list of names -/

/-- Every path that starts with a slash is `/n1/../nk`, where the names may be empty. -/
theorem exists_caminho (p : CString) (hp : p.val.head? = some barra) :
    ∃ nomes : List CString, nomes ≠ [] ∧ (∀ nome ∈ nomes, barra ∉ nome.val) ∧
      p.val = caminho nomes := by
  obtain ⟨p, hzero⟩ := p
  induction p using List.reverseRecOn with
  | nil => cases hp
  | append_singleton p c ih =>
      have hc : 0#8 ∉ [c] := fun h => hzero (List.mem_append_right p h)
      have hpzero : 0#8 ∉ p := fun h => hzero (List.mem_append_left [c] h)
      cases p with
      | nil =>
          obtain rfl : c = barra := by simpa using hp
          exact ⟨[⟨[], List.not_mem_nil⟩], by simp, by simp, rfl⟩
      | cons b p =>
          obtain ⟨nomes, hne, hbarra, hcam⟩ := ih hpzero hp
          replace hcam : b :: p = caminho nomes := hcam
          by_cases h : c = barra
          · -- a new, empty name
            refine ⟨nomes ++ [⟨[], List.not_mem_nil⟩], by simp, ?_, ?_⟩
            · intro nome hnome
              obtain hnome | hnome := List.mem_append.mp hnome
              · exact hbarra nome hnome
              · obtain rfl := List.mem_singleton.mp hnome
                exact List.not_mem_nil
            · simp [caminho, h, hcam]
          · -- the last name grows by one character
            obtain ⟨inicio, ultimo, rfl⟩ := List.eq_nil_or_concat' nomes |>.resolve_left hne
            have hultimo := hbarra ultimo (by simp)
            have hz : 0#8 ∉ ultimo.val ++ [c] := by
              rw [List.mem_append, not_or]
              exact ⟨ultimo.property, hc⟩
            refine ⟨inicio ++ [⟨ultimo.val ++ [c], hz⟩], by simp, ?_, ?_⟩
            · intro nome hnome
              obtain hnome | hnome := List.mem_append.mp hnome
              · exact hbarra nome (List.mem_append_left _ hnome)
              · obtain rfl := List.mem_singleton.mp hnome
                simpa [hultimo] using Ne.symm h
            · simp [caminho, hcam]

theorem caminho_inj {nomes nomes' : List CString} (h : ∀ nome ∈ nomes, barra ∉ nome.val)
    (h' : ∀ nome ∈ nomes', barra ∉ nome.val) (heq : caminho nomes = caminho nomes') :
    nomes = nomes' := by
  have hs := splitOn_caminho h (m := []) List.not_mem_nil
  rw [heq, splitOn_caminho h' List.not_mem_nil, List.cons.injEq] at hs
  exact (List.map_injective_iff.mpr Subtype.val_injective hs.2).symm

/-- `strtok` skips the empty names. -/
theorem strtok_caminho_filter {nomes : List CString} (h : ∀ nome ∈ nomes, barra ∉ nome.val) :
    strtok (caminho nomes) = (nomes.map Subtype.val).filter fun token => token ≠ [] := by
  have hs := splitOn_caminho h (m := []) List.not_mem_nil
  rw [List.nil_append] at hs
  rw [strtok, hs, List.filter_cons_of_neg (by simp)]

theorem espaco_mem_caminho (nomes : List CString) :
    espaco ∈ caminho nomes ↔ ∃ nome ∈ nomes, espaco ∈ nome.val := by
  have hne : espaco ≠ barra := by decide
  constructor
  · intro h
    obtain ⟨nome, hnome, hmem⟩ := List.mem_flatMap.mp h
    exact ⟨nome, hnome, (List.mem_cons.mp hmem).resolve_left hne⟩
  · rintro ⟨nome, hnome, hmem⟩
    exact List.mem_flatMap.mpr ⟨nome, hnome, List.mem_cons_of_mem barra hmem⟩

/-- A `//` does not start inside a name. -/
theorem barras_infix_append {m l : List Byte} (hm : barra ∉ m) :
    [barra, barra] <:+: m ++ l ↔ [barra, barra] <:+: l := by
  induction m with
  | nil => rw [List.nil_append]
  | cons c m ih =>
      rw [List.mem_cons, not_or] at hm
      rw [List.cons_append, List.infix_cons_iff, ih hm.2, List.cons_prefix_cons]
      simp [hm.1]

/-- There is a `//` where a name before the last one is empty. -/
theorem barras_infix_caminho {nomes : List CString} (h : ∀ nome ∈ nomes, barra ∉ nome.val) :
    [barra, barra] <:+: caminho nomes ↔ ∃ nome ∈ nomes.dropLast, nome.val = [] := by
  induction nomes with
  | nil => simp [caminho]
  | cons nome nomes ih =>
      have hnome := h nome List.mem_cons_self
      have hcons : caminho (nome :: nomes) = barra :: (nome.val ++ caminho nomes) := by
        simp [caminho]
      rw [hcons, List.infix_cons_iff, barras_infix_append hnome,
        ih fun x hx => h x (List.mem_cons_of_mem nome hx)]
      cases nomes with
      | nil =>
          cases hval : nome.val with
          | nil => simp [caminho]
          | cons c cs =>
              have hc : barra ≠ c := by
                rintro rfl
                rw [hval] at hnome
                exact hnome List.mem_cons_self
              simp [caminho, hc]
      | cons seguinte nomes =>
          cases hval : nome.val with
          | nil => simp [caminho, hval]
          | cons c cs =>
              have hc : barra ≠ c := by
                rintro rfl
                rw [hval] at hnome
                exact hnome List.mem_cons_self
              simp [hval, hc]

/-- What `myparse` accepts, on the names of the path: the last one may be empty. -/
theorem myparse_caminho {p : CString} (hp : p.val.length < maxPathNameSize)
    {inicio : List CString} {ultimo : CString}
    (h : ∀ nome ∈ inicio ++ [ultimo], barra ∉ nome.val)
    (hcam : p.val = caminho (inicio ++ [ultimo])) :
    myparse p = some 0 ↔ (∀ nome ∈ inicio, Bom nome.val) ∧ (ultimo.val = [] ∨ Bom ultimo.val) := by
  have hhead : p.val.head? = some barra := by
    rw [hcam]
    cases inicio <;> rfl
  rw [myparse_eq_zero hp, hcam, espaco_mem_caminho, barras_infix_caminho h,
    strtok_caminho_filter h, List.dropLast_concat]
  constructor
  · rintro ⟨-, hespaco, hvazio, hcurto⟩
    push Not at hespaco hvazio
    have hbom : ∀ nome ∈ inicio ++ [ultimo], nome.val ≠ [] → Bom nome.val := by
      intro nome hnome hne
      have hmem : nome.val ∈
          ((inicio ++ [ultimo]).map Subtype.val).filter fun token => token ≠ [] :=
        List.mem_filter.mpr ⟨List.mem_map_of_mem hnome, by simpa using hne⟩
      exact ⟨hne, hcurto nome.val hmem, h nome hnome, hespaco nome hnome⟩
    refine ⟨fun nome hnome => hbom nome (List.mem_append_left _ hnome) (hvazio nome hnome), ?_⟩
    by_cases hultimo : ultimo.val = []
    · exact Or.inl hultimo
    · exact Or.inr (hbom ultimo (by simp) hultimo)
  · rintro ⟨hinicio, hultimo⟩
    refine ⟨hcam ▸ hhead, ?_, ?_, ?_⟩
    · rintro ⟨nome, hnome, hmem⟩
      obtain hnome | hnome := List.mem_append.mp hnome
      · exact (hinicio nome hnome).semEspaco hmem
      · obtain rfl := List.mem_singleton.mp hnome
        obtain hvazio | hbom := hultimo
        · rw [hvazio] at hmem
          exact absurd hmem List.not_mem_nil
        · exact hbom.semEspaco hmem
    · rintro ⟨nome, hnome, hvazio⟩
      exact (hinicio nome hnome).naoVazio hvazio
    · intro token htoken
      obtain ⟨hmem, hne⟩ := List.mem_filter.mp htoken
      obtain ⟨nome, hnome, rfl⟩ := List.mem_map.mp hmem
      obtain hnome | hnome := List.mem_append.mp hnome
      · exact (hinicio nome hnome).curto
      · obtain rfl := List.mem_singleton.mp hnome
        obtain hvazio | hbom := hultimo
        · exact absurd hvazio (by simpa using hne)
        · exact hbom.curto

theorem exists_componentes {nomes : List CString} (h : ∀ nome ∈ nomes, Bom nome.val) :
    ∃ cs : List Componente, cs.map Subtype.val = nomes :=
  CanLift.prf nomes h

theorem semBarra_componentes (cs : List Componente) :
    ∀ nome ∈ cs.map Subtype.val, barra ∉ nome.val := by
  intro nome hnome
  obtain ⟨c, -, rfl⟩ := List.mem_map.mp hnome
  exact c.property.semBarra

/-- The grammar, on the names of the path. -/
theorem gramatica_caminho {inicio : List CString} {ultimo : CString}
    (h : ∀ nome ∈ inicio ++ [ultimo], barra ∉ nome.val) :
    Gramatica (caminho (inicio ++ [ultimo])) ↔
      inicio = [] ∧ ultimo.val = [] ∨ (∀ nome ∈ inicio, Bom nome.val) ∧ Bom ultimo.val := by
  constructor
  · rintro (hraiz | ⟨cs, hne, hcs⟩)
    · have hvazio : ∀ nome ∈ [(⟨[], List.not_mem_nil⟩ : CString)], barra ∉ nome.val := by simp
      have heq := caminho_inj h hvazio hraiz
      obtain ⟨hinicio, hultimo⟩ :=
        List.append_inj' (show inicio ++ [ultimo] = [] ++ [⟨[], List.not_mem_nil⟩] from heq) rfl
      rw [List.cons.injEq] at hultimo
      rw [hultimo.1]
      exact Or.inl ⟨hinicio, rfl⟩
    · have heq := caminho_inj h (semBarra_componentes cs) hcs
      have hbom : ∀ nome ∈ inicio ++ [ultimo], Bom nome.val := by
        rw [heq]
        intro nome hnome
        obtain ⟨c, -, rfl⟩ := List.mem_map.mp hnome
        exact c.property
      exact Or.inr ⟨fun nome hnome => hbom nome (List.mem_append_left _ hnome),
        hbom ultimo (by simp)⟩
  · rintro (⟨rfl, hultimo⟩ | ⟨hinicio, hultimo⟩)
    · exact Or.inl (by simp [caminho, hultimo])
    · have hbom : ∀ nome ∈ inicio ++ [ultimo], Bom nome.val := by
        intro nome hnome
        obtain hnome | hnome := List.mem_append.mp hnome
        · exact hinicio nome hnome
        · obtain rfl := List.mem_singleton.mp hnome
          exact hultimo
      obtain ⟨cs, hcs⟩ := exists_componentes hbom
      refine Or.inr ⟨cs, ?_, ?_⟩
      · rintro rfl
        exact absurd hcs (by simp)
      · rw [caminhoDe, hcs]

theorem head?_gramatica {p : List Byte} (h : Gramatica p) : p.head? = some barra := by
  obtain rfl | ⟨nomes, hne, rfl⟩ := h
  · rfl
  · cases nomes with
    | nil => exact absurd rfl hne
    | cons nome nomes => rfl

/-- A path `/c1/../ck/`, on its names: the last one is empty. -/
theorem caminho_barra_sse {inicio : List CString} {ultimo : CString}
    (h : ∀ nome ∈ inicio ++ [ultimo], barra ∉ nome.val) :
    (∃ nomes : List Componente, nomes ≠ [] ∧
        caminho (inicio ++ [ultimo]) = caminhoDe nomes ++ [barra]) ↔
      inicio ≠ [] ∧ (∀ nome ∈ inicio, Bom nome.val) ∧ ultimo.val = [] := by
  constructor
  · rintro ⟨cs, hne, hcs⟩
    have hfim : caminhoDe cs ++ [barra] =
        caminho (cs.map Subtype.val ++ [⟨[], List.not_mem_nil⟩]) := by
      simp [caminhoDe, caminho]
    have hbarra : ∀ nome ∈ cs.map Subtype.val ++ [(⟨[], List.not_mem_nil⟩ : CString)],
        barra ∉ nome.val := by
      intro nome hnome
      obtain hnome | hnome := List.mem_append.mp hnome
      · exact semBarra_componentes cs nome hnome
      · obtain rfl := List.mem_singleton.mp hnome
        exact List.not_mem_nil
    obtain ⟨hinicio, hultimo⟩ := List.append_inj' (caminho_inj h hbarra (hcs.trans hfim)) rfl
    rw [List.cons.injEq] at hultimo
    rw [hinicio, hultimo.1]
    refine ⟨by simpa using hne, ?_, rfl⟩
    intro nome hnome
    obtain ⟨c, -, rfl⟩ := List.mem_map.mp hnome
    exact c.property
  · rintro ⟨hne, hinicio, hultimo⟩
    obtain ⟨cs, rfl⟩ := exists_componentes hinicio
    exact ⟨cs, by simpa using hne, by simp [caminhoDe, caminho, hultimo]⟩

/-- `myparse` agrees with the grammar on every string but `/c1/../ck/`: the test for a slash at
the end reads the terminator. -/
theorem myparse_gramatica (p : CString) (hp : p.val.length < maxPathNameSize) :
    (myparse p = some 0 ↔ Gramatica p.val) ↔
      ¬ ∃ nomes : List Componente, nomes ≠ [] ∧ p.val = caminhoDe nomes ++ [barra] := by
  by_cases hhead : p.val.head? = some barra
  · obtain ⟨nomes, hne, hbarra, hcam⟩ := exists_caminho p hhead
    obtain ⟨inicio, ultimo, rfl⟩ := (List.eq_nil_or_concat' nomes).resolve_left hne
    rw [myparse_caminho hp hbarra hcam, hcam, gramatica_caminho hbarra,
      caminho_barra_sse hbarra]
    constructor
    · rintro h ⟨hinicio, hbom, hultimo⟩
      obtain ⟨rfl, -⟩ | ⟨-, hultimo'⟩ := h.mp ⟨hbom, Or.inl hultimo⟩
      · exact hinicio rfl
      · exact hultimo'.naoVazio hultimo
    · intro h
      constructor
      · rintro ⟨hinicio, hultimo | hultimo⟩
        · by_cases hvazio : inicio = []
          · exact Or.inl ⟨hvazio, hultimo⟩
          · exact absurd ⟨hvazio, hinicio, hultimo⟩ h
        · exact Or.inr ⟨hinicio, hultimo⟩
      · rintro (⟨rfl, hultimo⟩ | ⟨hinicio, hultimo⟩)
        · exact ⟨by simp, Or.inl hultimo⟩
        · exact ⟨hinicio, Or.inr hultimo⟩
  · have hparse : ¬ myparse p = some 0 := fun h => hhead ((myparse_eq_zero hp).mp h).1
    have hgram : ¬ Gramatica p.val := fun h => hhead (head?_gramatica h)
    have hresto : ¬ ∃ nomes : List Componente, nomes ≠ [] ∧ p.val = caminhoDe nomes ++ [barra] := by
      rintro ⟨nomes, hne, hval⟩
      have hg : Gramatica (caminhoDe nomes) := Or.inr ⟨nomes, hne, rfl⟩
      rw [hval, List.head?_append, head?_gramatica hg] at hhead
      exact hhead rfl
    exact iff_of_true (iff_of_false hparse hgram) hresto

/-- "/a" is in the grammar. -/
theorem myparse_gramatica_a :
    ((⟨[47#8, 97#8], by decide⟩ : CString).val.length < maxPathNameSize) ∧
      ((myparse ⟨[47#8, 97#8], by decide⟩ = some 0 ↔ Gramatica [47#8, 97#8]) ↔
        ¬ ∃ nomes : List Componente, nomes ≠ [] ∧ [47#8, 97#8] = caminhoDe nomes ++ [barra]) :=
  ⟨by decide, myparse_gramatica ⟨[47#8, 97#8], by decide⟩ (by decide)⟩

/-- "/a/" is accepted, and is not in the grammar. -/
theorem myparse_barraFinal :
    ([47#8, 97#8, 47#8] : List Byte).length < maxPathNameSize ∧
      myparse ⟨[47#8, 97#8, 47#8], by decide⟩ = some 0 ∧ ¬ Gramatica [47#8, 97#8, 47#8] := by
  refine ⟨by decide, by decide, ?_⟩
  have h : ∀ nome ∈ [(⟨[97#8], by decide⟩ : CString)] ++ [⟨[], List.not_mem_nil⟩],
      barra ∉ nome.val := by decide
  intro hg
  obtain ⟨hinicio, -⟩ | ⟨-, hultimo⟩ := (gramatica_caminho h).mp hg
  · cases hinicio
  · exact hultimo.naoVazio rfl

end ThreadScheduler.SnfsLib
