import ThreadScheduler.Lib.TreeSearch
import ThreadScheduler.SthreadLib.RedBlackQueue

/-!
# How many turns the loops of the tree take

Every loop of `redblack.c` is over after as many turns as the tree is high, which is at most
twice the logarithm of its size. The operations are written once more with a bound on the
turns of each loop, and the bound makes no difference.
-/
namespace ThreadScheduler.SthreadLib

open PointerTree RedBlack ArvoreRB

variable {α : Type*}

/-- The loop of `PesquisaRB` at the node `x`, with at most so many comparisons. -/
def pesquisarDe (a : ArvoreRB α) (q : ℤ) : ℕ → ℕ → Option (Option ℕ)
  | 0, x => if x = nil then some none else none
  | n + 1, x =>
      if x = nil then some none
      else if comparar (a.chave x) q = 0 then some (some x)
      else if comparar (a.chave x) q = 1 then pesquisarDe a q n (a.esq x)
      else pesquisarDe a q n (a.dir x)

/-- `PesquisaRB`, with at most `n` comparisons: a node with the key `q`, `some none` for 0. -/
def pesquisaRBAte (n : ℕ) (a : ArvoreRB α) (q : ℤ) : Option (Option ℕ) :=
  pesquisarDe a q n (a.esq raiz)

/-- `InserirNoAux`, with at most `n` turns. -/
def inserirNoAuxAte (n : ℕ) (a : ArvoreRB α) (z : ℕ) : ArvoreRB α :=
  let a := (a.setChild .left z nil).setChild .right z nil
  let y := descer a (a.chave z) n raiz (a.esq raiz)
  let a := a.setPai z y
  if y = raiz ∨ comparar (a.chave y) (a.chave z) = 1 then a.setChild .left y z
  else a.setChild .right y z

/-- `RBInserirNo`, with at most `n` turns of each loop. -/
def rbInserirNoAte (n : ℕ) (a : ArvoreRB α) (chave : ℤ) (tid : ℤ) (elemento : α) : ArvoreRB α :=
  let novoNo := a.prox
  let a := inserirNoAuxAte n (criarNo a chave elemento tid) novoNo
  let a := repararInserido n a novoNo
  let a := a.setCor (a.esq raiz) .black
  match a.minimo with
  | none => { a with minimo := some novoNo }
  | some m =>
      if comparar (a.chave m) (a.chave novoNo) = 1 then { a with minimo := some novoNo } else a

/-- `Sucessor`, with at most `n` turns. -/
def sucessorAte (n : ℕ) (a : ArvoreRB α) (x : ℕ) : ℕ :=
  if a.dir x ≠ nil then maisEsquerda a n (a.dir x)
  else
    let y := subir a n x (a.parent x)
    if y = raiz then nil else y

/-- `RepararEliminado`, with at most `n` turns. -/
def repararEliminadoAte (n : ℕ) (a : ArvoreRB α) (x : ℕ) : ArvoreRB α :=
  let r := repararEliminadoLoop (a.esq raiz) n a x
  r.1.setCor r.2 .black

/-- `RBRemoverNo`, with at most `n` turns of each loop. -/
def rbRemoverNoAte (n : ℕ) (a : ArvoreRB α) (z : ℕ) : ArvoreRB α :=
  let y := if a.esq z = nil ∨ a.dir z = nil then z else sucessorAte n a z
  let x := if a.esq y = nil then a.dir y else a.esq y
  let a := desligar a y x
  let a := if a.cor y = .black then repararEliminadoAte n a x else a
  actualizarMinimo (if y ≠ z then substituir a z y else a) z

section Procura

variable {a : ArvoreRB α} {t : Shape ℕ}

/-- The turn that `PesquisaRB` takes at a node. -/
def virar (a : ArvoreRB α) (q : ℤ) (p : ℕ) : Option Side :=
  if comparar (a.chave p) q = 0 then none
  else if comparar (a.chave p) q = 1 then some .left else some .right

theorem pesquisarDe_eq_search (a : ArvoreRB α) (q : ℤ) (n x : ℕ) :
    pesquisarDe a q n x = search a.toLinks nil (virar a q) n x := by
  induction n generalizing x with
  | zero => rfl
  | succ n ih =>
      rw [pesquisarDe, search, virar]
      split_ifs
      · rfl
      · rfl
      · exact ih _
      · exact ih _

theorem virar_eq {q : ℤ} {p : ℕ} (h : 0 ≤ a.chave p) :
    (virar a q p = none ↔ a.chave p = q) ∧ (virar a q p = some .left ↔ q < a.chave p) ∧
      (virar a q p = some .right ↔ a.chave p < q) := by
  unfold virar comparar
  rcases Int.lt_trichotomy (a.chave p) q with hlt | heq | hgt
  · rw [if_neg (by omega : ¬ (a.chave p > q ∨ a.chave p = -1)), if_neg (by omega)]
    simp [hlt, Int.ne_of_lt hlt, Int.not_lt.mpr (Int.le_of_lt hlt)]
  · rw [if_neg (by omega : ¬ (a.chave p > q ∨ a.chave p = -1)), if_pos heq]
    simp [heq]
  · rw [if_pos (Or.inl hgt : a.chave p > q ∨ a.chave p = -1)]
    simp [hgt, (Int.ne_of_lt hgt).symm, Int.not_lt.mpr (Int.le_of_lt hgt)]

/-- In a tree in order the turns lead to the nodes with the key. -/
theorem Ordenada.leads (h : Ordenada a t) (q : ℤ) : Leads (virar a q) t.toList := by
  refine (List.pairwise_map.mp h.crescente).imp_of_mem fun {p r} hp hr hle => ?_
  have hvp := virar_eq (q := q) (h.naoNegativa p hp)
  have hvr := virar_eq (q := q) (h.naoNegativa r hr)
  rw [hvp.2.1, hvr.2.2, ne_eq, ne_eq, hvp.1, hvr.1]
  omega

/-- `PesquisaRB` finds a node with the key, if there is one, in as many comparisons as the tree
is high. -/
theorem Arvore.pesquisaRBAte_eq (h : Arvore a t) (ho : Ordenada a t) (q : ℤ) {n : ℕ}
    (hn : t.height ≤ n) :
    ∃ r, pesquisaRBAte n a q = some r ∧
      (∀ p, r = some p → p ∈ t.toList ∧ a.chave p = q) ∧
      (r = none → ∀ p ∈ t.toList, a.chave p ≠ q) := by
  obtain ⟨r, hr, hsome, hnone⟩ :=
    search_eq h.focus.inside (fun hm => h.ne_nil hm rfl) (ho.leads q) hn
  rw [pesquisaRBAte, pesquisarDe_eq_search]
  refine ⟨r, hr, fun p hp => ⟨(hsome p hp).1, ?_⟩, fun he p hp hk => ?_⟩
  · exact (virar_eq (ho.naoNegativa p (hsome p hp).1)).1.mp (hsome p hp).2
  · exact hnone he p hp ((virar_eq (ho.naoNegativa p hp)).1.mpr hk)

/-- `RBSearchTIDAUX` looks at every node, however it is called that deep. -/
theorem rbSearchTIDAux_iff {x par : ℕ} (h : Linked a.toLinks nil t x par) (hnil : nil ∉ t.toList)
    (tid : ℤ) {n : ℕ} (hn : t.height ≤ n) :
    rbSearchTIDAux a tid n x = true ↔ ∃ p ∈ t.toList, a.tid p = tid := by
  induction t generalizing x par n with
  | nil =>
      obtain rfl : x = nil := h
      cases n <;> simp [rbSearchTIDAux]
  | node p l r ihl ihr =>
      obtain ⟨rfl, -, hll, hlr⟩ := h
      rw [Shape.toList_node, List.mem_append, List.mem_cons, not_or, not_or] at hnil
      obtain ⟨hnl, hx, hnr⟩ := hnil
      have hleft := Shape.height_left_lt x l r
      have hright := Shape.height_right_lt x l r
      obtain ⟨n, rfl⟩ : ∃ m, n = m + 1 := ⟨n - 1, by omega⟩
      have hl : rbSearchTIDAux a tid n (a.esq x) = true ↔ _ := ihl hll hnl (by omega)
      have hr : rbSearchTIDAux a tid n (a.dir x) = true ↔ _ := ihr hlr hnr (by omega)
      rw [rbSearchTIDAux, if_neg fun he => hx he.symm, Shape.toList_node]
      split
      · rename_i ht
        exact iff_of_true rfl ⟨x, by simp, ht⟩
      · rename_i ht
        rw [Bool.or_eq_true, hl, hr]
        simp [ht, or_and_right, exists_or]

end Procura

section Inserir

variable {a : ArvoreRB α} {t : Shape ℕ}

/-- The descent is over after as many turns as the tree is high. -/
theorem descer_congr {k : ℤ} {x par : ℕ} (h : Linked a.toLinks nil t x par)
    (hnil : nil ∉ t.toList) {n m y : ℕ} (hn : t.height ≤ n) (hm : t.height ≤ m) :
    descer a k n y x = descer a k m y x := by
  induction t generalizing x par n m y with
  | nil =>
      obtain rfl : x = nil := h
      cases n <;> cases m <;> simp [descer]
  | node p l r ihl ihr =>
      obtain ⟨rfl, -, hll, hlr⟩ := h
      rw [Shape.toList_node, List.mem_append, List.mem_cons, not_or, not_or] at hnil
      obtain ⟨hnl, hx, hnr⟩ := hnil
      have hleft := Shape.height_left_lt x l r
      have hright := Shape.height_right_lt x l r
      obtain ⟨n, rfl⟩ : ∃ i, n = i + 1 := ⟨n - 1, by omega⟩
      obtain ⟨m, rfl⟩ : ∃ i, m = i + 1 := ⟨m - 1, by omega⟩
      have hl : descer a k n x (a.esq x) = descer a k m x (a.esq x) :=
        ihl hll hnl (by omega) (by omega)
      have hr : descer a k n x (a.dir x) = descer a k m x (a.dir x) :=
        ihr hlr hnr (by omega) (by omega)
      rw [descer, descer, hl, hr]

theorem Inserido.loop_congr {fs : List (Frame ℕ)} {x i n m : ℕ} (h : Inserido a t fs x i)
    (hn : fs.length ≤ n) (hm : fs.length ≤ m) :
    repararInserido n a x = repararInserido m a x := by
  induction n generalizing a t fs x i m with
  | zero =>
      have hnil : fs = [] := List.length_eq_zero_iff.mp (by omega)
      subst hnil
      rw [h.parar h.sentinelas.raiz, h.parar h.sentinelas.raiz]
  | succ n ih =>
      by_cases hr : a.cor (a.parent x) = .red
      · obtain ⟨f, g, gs, -, rfl, -⟩ := h.exists_frames hr
        obtain ⟨m, rfl⟩ : ∃ j, m = j + 1 := ⟨m - 1, by simp only [List.length_cons] at hm; omega⟩
        have hpick : (if a.parent x = a.esq (a.parent (a.parent x)) then passoInserir .left a x
            else passoInserir .right a x) =
            passoInserir (if a.parent x = a.esq (a.parent (a.parent x)) then .left else .right)
              a x := by
          split <;> rfl
        obtain ⟨t₁, fs₁, n₁, h₁, hor, -⟩ := h.passo hr rfl
        rw [repararInserido, repararInserido, if_pos hr, if_pos hr]
        dsimp only
        rw [hpick]
        rcases hor with hlt | hb
        · exact ih h₁ (by omega) (by omega)
        · rw [h₁.parar hb, h₁.parar hb]
      · have hb : a.cor (parentOf raiz fs) = .black := by
          rw [← h.parent_eq]
          cases hc : a.cor (a.parent x) with
          | black => rfl
          | red => exact absurd hc hr
        rw [h.parar hb, h.parar hb]

/-- A bound that the height does not exceed makes no difference to the place of a new node. -/
theorem Arvore.inserirNoAuxAte_eq (h : Arvore a t) (k : ℤ) (e : α) (tid : ℤ) {n : ℕ}
    (hn : t.height ≤ n) :
    inserirNoAuxAte n (criarNo a k e tid) a.prox = inserirNoAux (criarNo a k e tid) a.prox := by
  have hres := h.reservado
  simp only [inserirNoAuxAte, inserirNoAux]
  generalize hb : ((criarNo a k e tid).setChild .left a.prox nil).setChild .right a.prox nil = b
  have hchild : ∀ p, p ≠ a.prox → ∀ s, b.child s p = a.child s p := by
    intro p hp s
    rw [← hb]
    simp [criarNo, hp]
  have hroot : b.esq raiz = a.esq raiz :=
    hchild raiz (Nat.ne_of_lt (Nat.lt_of_lt_of_le (by decide) hres)) .left
  have hlink : Linked b.toLinks nil t (b.esq raiz) raiz := by
    rw [hroot]
    refine h.focus.inside.congr (fun p hp s => hchild p ?_ s) (fun p hp => ?_) h.nodup
    · exact Nat.ne_of_lt (h.alocado p hp)
    · rw [← hb]
      rfl
  have hfuel : t.height ≤ b.prox := by
    rw [← hb]
    exact (t.height_le_length.trans h.length_le).trans (Nat.le_succ _)
  rw [descer_congr hlink (fun hm => h.ne_nil hm rfl) hn hfuel]

/-- Nor to the insertion. -/
theorem Arvore.rbInserirNoAte_eq (h : Arvore a t) (k : ℤ) (tid : ℤ) (e : α) {n : ℕ}
    (hn : t.height ≤ n) : rbInserirNoAte n a k tid e = rbInserirNo a k tid e := by
  obtain ⟨fs, hfill, -, hins⟩ := h.inserirNoAux_inserido k e tid
  have hsame := inserirNoAux_sameNodes (criarNo a k e tid) a.prox
  have hdeep := height_fill .nil fs
  rw [hfill] at hdeep
  have hfs : fs.length ≤ (inserirNoAux (criarNo a k e tid) a.prox).prox := by
    have hle := t.height_le_length.trans h.length_le
    rw [hsame.prox]
    show _ ≤ a.prox + 1
    omega
  simp only [rbInserirNoAte]
  rw [h.inserirNoAuxAte_eq k e tid hn, hins.loop_congr (by omega : fs.length ≤ n) hfs]
  rfl

end Inserir

section Remover

variable {a : ArvoreRB α} {t : Shape ℕ}

theorem maisEsquerda_congr {x par : ℕ} (h : Linked a.toLinks nil t x par) (hnil : nil ∉ t.toList)
    {n m : ℕ} (hn : t.height ≤ n) (hm : t.height ≤ m) :
    x ≠ nil → maisEsquerda a n x = maisEsquerda a m x := by
  induction t generalizing x par n m with
  | nil => exact fun hx => absurd h hx
  | node p l r ihl _ =>
      obtain ⟨rfl, -, hll, -⟩ := h
      rw [Shape.toList_node, List.mem_append, List.mem_cons, not_or, not_or] at hnil
      have hleft := Shape.height_left_lt x l r
      obtain ⟨n, rfl⟩ : ∃ i, n = i + 1 := ⟨n - 1, by omega⟩
      obtain ⟨m, rfl⟩ : ∃ i, m = i + 1 := ⟨m - 1, by omega⟩
      intro _
      rw [maisEsquerda, maisEsquerda]
      split
      · rename_i hl
        exact ihl hll hnil.1 (by omega) (by omega) hl
      · rfl

/-- The loop of `RepararEliminado` takes the turn of the side on which the node is. -/
theorem Eliminado.lado {f : Frame ℕ} {gs : List (Frame ℕ)} {x i fim : ℕ} {c : Color}
    (h : Eliminado a t (f :: gs) x c i) :
    (if x = a.esq (a.parent x) then passoEliminar .left fim a x
      else passoEliminar .right fim a x) = passoEliminar f.side fim a x := by
  obtain ⟨c', hsib, -⟩ := h.irmao
  obtain ⟨u, l, r, hu⟩ := hsib.exists_join (.inl (Nat.succ_ne_zero i)) .left
  have hne : f.sib ≠ .nil := by simp [hu, Shape.join]
  have hside := Side.ite_eq (h.focus.side_iff (.inr hne) .left).symm
  have hpar : a.parent x = f.at' := h.parent
  rw [hpar, ← hside]
  show (if x = a.child .left f.at' then _ else _) = _
  split <;> rfl

theorem Eliminado.loop_congr {fs : List (Frame ℕ)} {x i fim n m : ℕ} {c : Color}
    (h : Eliminado a t fs x c i) (hfim : fim = a.esq raiz) (hn : fs.length ≤ n)
    (hm : fs.length ≤ m) :
    repararEliminadoLoop fim n a x = repararEliminadoLoop fim m a x := by
  induction n generalizing a t fs x c i m with
  | zero =>
      have hnil : fs = [] := List.length_eq_zero_iff.mp (by omega)
      subst hnil
      have hterm := h.parar hfim (.inr rfl)
      rw [hterm.loop, hterm.loop]
  | succ n ih =>
      by_cases hgo : a.cor x = .black ∧ fim ≠ x
      · cases fs with
        | nil => exact absurd (hfim.trans h.focus.child_slot) hgo.2
        | cons f gs =>
            simp only [List.length_cons] at hn hm
            obtain ⟨m, rfl⟩ : ∃ j, m = j + 1 := ⟨m - 1, by omega⟩
            rw [repararEliminadoLoop, repararEliminadoLoop, if_pos hgo, if_pos hgo]
            dsimp only
            obtain ⟨b, x', T, hb, -, -, hor⟩ := h.passo hfim
            rw [h.lado, hb]
            rcases hor with hterm | ⟨hfim', t', -, hnext⟩
            · rw [hterm.loop, hterm.loop]
            · exact ih hnext hfim' (by omega) (by omega)
      · have hstop : ∀ i, repararEliminadoLoop fim i a x = (a, x) := by
          intro i
          cases i with
          | zero => rfl
          | succ i => rw [repararEliminadoLoop, if_neg hgo]
        rw [hstop, hstop]

/-- A bound that the height does not exceed makes no difference to the repair after a node has
left the tree. -/
theorem Arvore.repararEliminadoAte_eq (h : Arvore a t) {s : Side} {X : Shape ℕ}
    {fs : List (Frame ℕ)} {y n : ℕ} (hf : Focus a.toLinks nil raiz (.join s y X .nil) fs y)
    (hfill : PointerTree.fill (.join s y X .nil) fs = t) (hb : a.cor y = .black)
    (hn : t.height ≤ n) :
    repararEliminadoAte n (desligar a y (a.child s y)) (a.child s y) =
      repararEliminado (desligar a y (a.child s y)) (a.child s y) := by
  have hcor := desligar_cor a y (a.child s y)
  have hdeep := height_fill (.join s y X .nil) fs
  have hle := t.height_le_length.trans h.length_le
  have hprox : (desligar a y (a.child s y)).prox = a.prox :=
    (desligar_sameNodes a y (a.child s y)).prox
  obtain ⟨m, hbal⟩ := h.balanced
  rw [hfill] at hdeep
  rw [← hfill] at hbal
  obtain ⟨c, i, hfits, hy⟩ := Fits.of_fill hbal
  cases c with
  | red => exact absurd (hb.symm.trans hy.of_join_red.1) (by simp)
  | black =>
      obtain ⟨i, c₁, c₂, rfl, -, hX, -⟩ := hy.of_join_black
      have hstart : Eliminado (desligar a y (a.child s y)) X fs (a.child s y) c₁ i := by
        refine ⟨desligar_focus hf, ⟨by rw [hcor, h.sentinelas.nil], by rw [hcor, h.sentinelas.raiz]⟩,
          ?_, by rw [hcor]; exact hX, by rw [hcor]; exact hfits⟩
        rw [desligar_eq hf, setChild_parent, setPai_parent, if_pos rfl]
      have hall : fs.length ≤ (desligar a y (a.child s y)).prox + 1 := by omega
      rw [repararEliminadoAte, repararEliminado,
        hstart.loop_congr rfl (by omega : fs.length ≤ n) hall]

theorem Arvore.sucessorAte_eq (h : Arvore a t) {z n : ℕ} (hz : z ∈ t.toList) (hr : a.dir z ≠ nil)
    (hn : t.height ≤ n) : sucessorAte n a z = sucessor a z := by
  obtain ⟨l, r, fs, hf, hfill⟩ := h.focus.exists_focus hz
  rw [PointerTree.fill] at hfill
  have hdeep := height_fill (.node z l r) fs
  rw [hfill] at hdeep
  have hright := Shape.height_right_lt z l r
  have hle := t.height_le_length.trans h.length_le
  have hlink : Linked a.toLinks nil r (a.dir z) z := hf.inside.2.2.2
  rw [sucessorAte, sucessor, if_pos hr, if_pos hr]
  exact maisEsquerda_congr hlink (fun hm => hf.ne_nil (q := nil) (by simp [hm]) rfl) (by omega)
    (by omega) hr

/-- Nor to the removal. -/
theorem Arvore.rbRemoverNoAte_eq (h : Arvore a t) {z n : ℕ} (hz : z ∈ t.toList)
    (hn : t.height ≤ n) : rbRemoverNoAte n a z = rbRemoverNo a z := by
  -- the node that leaves the tree has at most one child
  have hleave : ∀ y x, (∃ s X fs, Focus a.toLinks nil raiz (.join s y X .nil) fs y ∧
      PointerTree.fill (.join s y X .nil) fs = t ∧ x = a.child s y) →
      (if (desligar a y x).cor y = .black then repararEliminadoAte n (desligar a y x) x
        else desligar a y x) =
      if (desligar a y x).cor y = .black then repararEliminado (desligar a y x) x
        else desligar a y x := by
    rintro y x ⟨s, X, fs, hf, hfill, rfl⟩
    split
    · rename_i hb
      rw [desligar_cor] at hb
      exact h.repararEliminadoAte_eq hf hfill hb hn
    · rfl
  obtain ⟨l, r, fs, hf, hfill⟩ := h.focus.exists_focus hz
  rw [PointerTree.fill] at hfill
  have hempty : ∀ (m : Side) (v : Shape ℕ), Linked a.toLinks nil v (a.child m z) z →
      (∀ q ∈ v.toList, q ≠ nil) → a.child m z = nil → v = .nil := by
    intro m v hv hne he
    cases v with
    | nil => rfl
    | node p u w => exact absurd (hv.1.symm.trans he) (hne p (by simp))
  obtain ⟨-, -, hl, hr⟩ := hf.inside
  by_cases hel : a.esq z = nil
  · obtain rfl : l = .nil := hempty .left l hl (fun q hq => hf.ne_nil (by simp [hq])) hel
    simp only [rbRemoverNoAte, rbRemoverNo, hel, true_or, if_true]
    rw [hleave z (a.dir z) ⟨.right, r, fs, hf, hfill, rfl⟩]
  · by_cases her : a.dir z = nil
    · obtain rfl : r = .nil := hempty .right r hr (fun q hq => hf.ne_nil (by simp [hq])) her
      simp only [rbRemoverNoAte, rbRemoverNo, hel, her, or_true, if_true, if_false]
      rw [hleave z (a.esq z) ⟨.left, l, fs, hf, hfill, rfl⟩]
    · have hdown : Focus a.toLinks nil raiz r (⟨.right, z, l⟩ :: fs) (a.dir z) :=
        Focus.down (s := .right) hf
      have hlen : r.toList.length ≤ a.prox := by
        have ht := h.length_le
        rw [← hfill, toList_fill] at ht
        simp only [Shape.toList_node, List.length_append, List.length_cons] at ht
        omega
      obtain ⟨r', gs, hy, hyfill, -⟩ :=
        maisEsquerda_focus a.prox hdown (hdown.inside.mem_of_ne_nil her) hlen
      have hsuc : sucessor a z = maisEsquerda a a.prox (a.dir z) := by rw [sucessor, if_pos her]
      rw [← hsuc] at hy hyfill
      have hyl : a.esq (sucessor a z) = nil := hy.inside.2.2.1
      simp only [rbRemoverNoAte, rbRemoverNo, hel, her, or_self, if_false,
        h.sucessorAte_eq hz her hn, hyl, if_true]
      rw [hleave (sucessor a z) (a.dir (sucessor a z))
        ⟨.right, r', gs, hy, hyfill.trans hfill, rfl⟩]

end Remover

/-- Twice the logarithm of the number of nodes is enough for every loop, after every sequence
of calls. -/
theorem voltas_after_run (pedidos : List (PedidoRB α))
    (hP : Runs.Permitted executar Permitido rbNovaArvore pedidos) :
    ∃ a os, Runs.run executar rbNovaArvore pedidos = some (a, os) ∧
      ∀ n, 2 * Nat.log 2 ((emOrdem a).length + 1) ≤ n →
        (∀ q, ∃ r, pesquisaRBAte n a q = some r ∧
          (∀ p, r = some p → p ∈ emOrdem a ∧ a.chave p = q) ∧
          (r = none → ∀ p ∈ emOrdem a, a.chave p ≠ q)) ∧
        (∀ tid, rbSearchTIDAux a tid n (a.esq raiz) = true ↔ ∃ p ∈ emOrdem a, a.tid p = tid) ∧
        (∀ k tid e, rbInserirNoAte n a k tid e = rbInserirNo a k tid e) ∧
        ∀ z ∈ emOrdem a, rbRemoverNoAte n a z = rbRemoverNo a z := by
  obtain ⟨a, f, os, hr, -, hrep⟩ :=
    Runs.run_simulates (fun _ _ p h hp => Representa.executar h p hp) representa_nova hP
  obtain ⟨t, ht, hord, -, -⟩ := hrep.fila
  obtain ⟨i, hbal⟩ := ht.balanced
  refine ⟨a, os, hr, fun n hn => ?_⟩
  rw [ht.emOrdem_eq] at hn ⊢
  have hh : t.height ≤ n := hbal.height_le_log.trans hn
  exact ⟨fun q => ht.pesquisaRBAte_eq hord q hh,
    fun tid => rbSearchTIDAux_iff ht.focus.inside (fun hm => ht.ne_nil hm rfl) tid hh,
    fun k tid e => ht.rbInserirNoAte_eq k tid e hh, fun z hz => ht.rbRemoverNoAte_eq hz hh⟩

theorem voltas_after_run_exemplo :
    ∃ a os, Runs.run executar rbNovaArvore pedidosExemplo = some (a, os) ∧
      ∀ n, 2 * Nat.log 2 ((emOrdem a).length + 1) ≤ n →
        (∀ q, ∃ r, pesquisaRBAte n a q = some r ∧
          (∀ p, r = some p → p ∈ emOrdem a ∧ a.chave p = q) ∧
          (r = none → ∀ p ∈ emOrdem a, a.chave p ≠ q)) ∧
        (∀ tid, rbSearchTIDAux a tid n (a.esq raiz) = true ↔ ∃ p ∈ emOrdem a, a.tid p = tid) ∧
        (∀ k tid e, rbInserirNoAte n a k tid e = rbInserirNo a k tid e) ∧
        ∀ z ∈ emOrdem a, rbRemoverNoAte n a z = rbRemoverNo a z :=
  voltas_after_run pedidosExemplo pedidosExemplo_permitidos

end ThreadScheduler.SthreadLib
