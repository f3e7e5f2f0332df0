import ThreadScheduler.SthreadLib.RedBlackRepair

/-!
# Removal

`RBRemoverNo` unlinks the node or its successor, whichever has at most one child, repairs the
balance, and puts the successor in the place of the node. `minimo` follows the node that goes.
-/
namespace ThreadScheduler.SthreadLib

open PointerTree RedBlack ArvoreRB

variable {α : Type*}

/-- The leftmost node below the focus. -/
theorem maisEsquerda_focus {a : ArvoreRB α} {t : Shape ℕ} {fs : List (Frame ℕ)} {x : ℕ} (fuel : ℕ)
    (h : Focus a.toLinks nil raiz t fs x) (hx : x ∈ t.toList) (hfuel : t.toList.length ≤ fuel) :
    ∃ r gs, Focus a.toLinks nil raiz (.node (maisEsquerda a fuel x) .nil r) gs
        (maisEsquerda a fuel x) ∧
      PointerTree.fill (.node (maisEsquerda a fuel x) .nil r) gs = PointerTree.fill t fs ∧
      before gs = before fs := by
  induction t generalizing fs x fuel with
  | nil => simp at hx
  | node p l r ihl _ =>
      obtain rfl : x = p := h.inside.1
      simp only [Shape.toList_node, List.length_append, List.length_cons] at hfuel
      obtain ⟨fuel, rfl⟩ : ∃ n, fuel = n + 1 := ⟨fuel - 1, by omega⟩
      have hdown : Focus a.toLinks nil raiz l (⟨.left, x, r⟩ :: fs) (a.esq x) :=
        Focus.down (s := .left) h
      rw [maisEsquerda]
      split
      · rename_i hn
        obtain ⟨r', gs, hfocus, hfill, hbefore⟩ :=
          ihl fuel hdown (hdown.inside.mem_of_ne_nil hn) (by omega)
        exact ⟨r', gs, hfocus, hfill, hbefore⟩
      · rename_i hn
        have hl : l = .nil := by
          cases l with
          | nil => rfl
          | node q u v =>
              have hq : a.esq x = q := hdown.inside.1
              exact absurd (hq ▸ hdown.ne_nil (by simp)) hn
        subst hl
        exact ⟨r, fs, h, rfl, rfl⟩

section Desligar

variable {a : ArvoreRB α} {s : Side} {X : Shape ℕ} {fs : List (Frame ℕ)} {y : ℕ}
  (h : Focus a.toLinks nil raiz (.join s y X .nil) fs y)

include h

theorem desligar_eq : desligar a y (a.child s y) =
    (a.setPai (a.child s y) (parentOf raiz fs)).setChild (sideOf fs) (parentOf raiz fs)
      (a.child s y) := by
  obtain ⟨-, hpar, hX, -⟩ := linked_join.mp h.inside
  have hy : y ∈ (Shape.join s y X .nil).toList := by simp
  have hyx : y ≠ a.child s y :=
    hX.ne_of_notMem (Shape.nodup_join.mp h.nodup_focus).1.1 (h.ne_nil hy)
  simp only [desligar, setPai_parent, if_true, if_neg hyx, hpar]
  cases fs with
  | nil =>
      have htop : raiz = parentOf raiz ([] : List (Frame ℕ)) := rfl
      rw [if_pos htop]
      rfl
  | cons f fs =>
      obtain ⟨⟨-, -, -, -, hftop⟩, -⟩ := h.frame
      have hside := Side.ite_eq (h.side_iff (.inl (h.ne_nil hy)) .left).symm
      have htop : raiz ≠ parentOf raiz (f :: fs) := hftop.symm
      rw [if_neg htop, sideOf, ← hside]
      show (if y = a.child .left f.at' then _ else _) = _
      split <;> rfl

/-- A node with at most one child leaves the tree. -/
theorem desligar_focus :
    Focus (desligar a y (a.child s y)).toLinks nil raiz X fs (a.child s y) := by
  obtain ⟨-, hpar, hX, -⟩ := linked_join.mp h.inside
  have hnd := Shape.nodup_join.mp h.nodup_focus
  have hXsub : ∀ q ∈ X.toList, q ∈ (Shape.join s y X .nil).toList := fun q hq => by simp [hq]
  have hnodup := List.nodup_append.mp h.nodup
  have harr : ∀ q ∈ around fs, q ≠ a.child s y := by
    rintro q hq rfl
    by_cases hn : a.child s y = nil
    · rw [hn] at hq
      exact h.nil_notMem (List.mem_append_right _ hq)
    · exact hnodup.2.2 _ (hXsub _ (hX.mem_of_ne_nil hn)) _ hq rfl
  rw [desligar_eq h]
  refine h.replace (hX.reroot (fun q hq m => ?_) (fun q hq hne => ?_) (fun _ => ?_) hnd.2.1) ?_
    (fun m q _ hne => ?_) (fun q hq => ?_) ?_ (fun hm => ?_) fun hm => ?_
  · rw [setChild_child, if_neg fun he => h.ne_parent (hXsub q hq) he.2]
    rfl
  · rw [setChild_parent, setPai_parent, if_neg hne]
  · rw [setChild_parent, setPai_parent, if_pos rfl]
  · rw [setChild_child, if_pos ⟨rfl, rfl⟩]
  · rw [setChild_child, if_neg fun he => hne (Prod.ext he.1 he.2)]
    rfl
  · rw [setChild_parent, setPai_parent, if_neg (harr q hq)]
  · exact List.nodup_append.mpr ⟨hnd.2.1, hnodup.2.1, fun q hq => hnodup.2.2 q (hXsub q hq)⟩
  · exact h.ne_nil (hXsub _ hm) rfl
  · exact h.ne_top (hXsub _ hm) rfl

/-- The node that has left keeps its fields. -/
theorem desligar_self : (∀ m, (desligar a y (a.child s y)).child m y = a.child m y) ∧
    (desligar a y (a.child s y)).parent y = a.parent y := by
  obtain ⟨-, -, hX, -⟩ := linked_join.mp h.inside
  have hy : y ∈ (Shape.join s y X .nil).toList := by simp
  rw [desligar_eq h]
  refine ⟨fun m => ?_, ?_⟩
  · rw [setChild_child, if_neg fun he => h.ne_parent hy he.2]
    rfl
  · rw [setChild_parent, setPai_parent, if_neg]
    exact hX.ne_of_notMem (Shape.nodup_join.mp h.nodup_focus).1.1 (h.ne_nil hy)

end Desligar

theorem desligar_sameNodes (a : ArvoreRB α) (y x : ℕ) : SameNodes a (desligar a y x) := by
  simp only [desligar]
  split_ifs <;> exact ⟨rfl, rfl, rfl, rfl, rfl⟩

theorem desligar_cor (a : ArvoreRB α) (y x : ℕ) : (desligar a y x).cor = a.cor := by
  simp only [desligar]
  split_ifs <;> rfl

section Retirar

variable {a : ArvoreRB α} {t : Shape ℕ}

/-- The first half of `RBRemoverNo`: node `y` leaves the tree, which is balanced again. -/
def retirar (a : ArvoreRB α) (y x : ℕ) : ArvoreRB α :=
  if (desligar a y x).cor y = .black then repararEliminado (desligar a y x) x else desligar a y x

theorem Arvore.retirado (h : Arvore a t) {s : Side} {X : Shape ℕ} {fs : List (Frame ℕ)} {y : ℕ}
    (hf : Focus a.toLinks nil raiz (.join s y X .nil) fs y)
    (hfill : PointerTree.fill (.join s y X .nil) fs = t) :
    ∃ T, Focus (retirar a y (a.child s y)).toLinks nil raiz T []
        ((retirar a y (a.child s y)).esq raiz) ∧
      Sentinelas (retirar a y (a.child s y)) ∧
      (∃ m, Balanced (retirar a y (a.child s y)).cor T .black m) ∧
      T.toList = before fs ++ X.toList ++ behind fs ∧
      SameNodes a (retirar a y (a.child s y)) ∧
      (∀ m, (retirar a y (a.child s y)).child m y = a.child m y) ∧
      (retirar a y (a.child s y)).parent y = a.parent y := by
  have hfocus := desligar_focus hf
  obtain ⟨hchild, hparent⟩ := desligar_self hf
  have hsame := desligar_sameNodes a y (a.child s y)
  have hcor := desligar_cor a y (a.child s y)
  have hsent : Sentinelas (desligar a y (a.child s y)) :=
    ⟨by rw [hcor, h.sentinelas.nil], by rw [hcor, h.sentinelas.raiz]⟩
  obtain ⟨m, hbal⟩ := h.balanced
  rw [← hfill] at hbal
  obtain ⟨c, n, hfits, hy⟩ := Fits.of_fill hbal
  rw [retirar, hcor]
  cases c with
  | red =>
      obtain ⟨hred, hX, -⟩ := hy.of_join_red
      rw [hred, if_neg (by simp)]
      refine ⟨_, hfocus.fill, hsent, ?_, toList_fill X fs, hsame, hchild, hparent⟩
      rw [hcor]
      exact hfits.of_red.fill hX
  | black =>
      obtain ⟨n, c₁, c₂, rfl, hblack, hX, -⟩ := hy.of_join_black
      rw [hblack, if_pos rfl]
      have hstart : Eliminado (desligar a y (a.child s y)) X fs (a.child s y) c₁ n := by
        refine ⟨hfocus, hsent, ?_, by rw [hcor]; exact hX, by rw [hcor]; exact hfits⟩
        rw [desligar_eq hf, setChild_parent, setPai_parent, if_pos rfl]
      have hlen : fs.length ≤ (desligar a y (a.child s y)).prox + 1 := by
        have ht := h.length_le
        rw [← hfill, (perm_fill _ _).length_eq, List.length_append] at ht
        have hle := length_le_around fs
        rw [hsame.prox]
        omega
      obtain ⟨T, hT, hsent', hbal', hlist, hmant⟩ := hstart.reparar hlen
      have hyout : y ∉ (PointerTree.fill X fs).toList := by
        rw [(perm_fill X fs).mem_iff, List.mem_append, not_or]
        have hyin : y ∈ (Shape.join s y X .nil).toList := by simp
        exact ⟨(Shape.nodup_join.mp hf.nodup_focus).1.1,
          fun hm => (List.nodup_append.mp hf.nodup).2.2 y hyin y hm rfl⟩
      obtain ⟨hc, hp⟩ := hmant.fora y hyout (hf.ne_top (by simp))
      exact ⟨T, hT, hsent', hbal', hlist.trans (toList_fill X fs),
        hsame.trans hmant.toSameNodes, fun m => (hc m).trans (hchild m), hp.trans hparent⟩

end Retirar

section Substituir

variable {a : ArvoreRB α} {z y : ℕ} {u w : Shape ℕ} {fs : List (Frame ℕ)}

theorem substituir_sameNodes (a : ArvoreRB α) (z y : ℕ) : SameNodes a (substituir a z y) := by
  simp only [substituir]
  split_ifs <;> exact ⟨rfl, rfl, rfl, rfl, rfl⟩

theorem substituir_cor (a : ArvoreRB α) (z y : ℕ) :
    (substituir a z y).cor = Function.update a.cor y (a.cor z) := by
  simp only [substituir]
  split <;> rfl

variable (h : Focus a.toLinks nil raiz (.node z u w) fs z)
  (hy : y ∉ (Shape.node z u w).toList ++ around fs) (hyr : y ≠ raiz)

include h hy hyr

theorem substituir_eq : substituir a z y =
    ((((((a.setChild .left y (a.esq z)).setChild .right y (a.dir z)).setPai y
      (parentOf raiz fs)).setCor y (a.cor z)).setPai (a.dir z) y).setPai (a.esq z) y).setChild
      (sideOf fs) (parentOf raiz fs) y := by
  have hz : z ∈ (Shape.node z u w).toList := by simp
  have hzy : z ≠ y := by
    rintro rfl
    exact hy (List.mem_append_left _ hz)
  have hyp : parentOf raiz fs ≠ y := by
    rintro rfl
    exact (parentOf_mem raiz fs).elim hyr fun hm => hy (List.mem_append_right _ hm)
  obtain ⟨-, hpar, hu, hw⟩ := h.inside
  obtain ⟨⟨hzu, hzw⟩, -⟩ := (Shape.nodup_join : (Shape.join .left z u w).toList.Nodup ↔ _).mp
    h.nodup_focus
  have hzl : z ≠ a.child .left z := hu.ne_of_notMem hzu (h.ne_nil hz)
  have hzr : z ≠ a.child .right z := hw.ne_of_notMem hzw (h.ne_nil hz)
  have hside : (if z = a.child .left (parentOf raiz fs) then Side.left else .right) = sideOf fs :=
    Side.ite_eq (h.left_iff (h.ne_nil hz)).symm
  simp only [substituir, esq, dir, setChild_child, setPai_child, setCor_toLinks, setPai_parent,
    setChild_parent, setChild_cor, setPai_cor, hpar, hzy, hzl, hzr, hyp, and_false, if_false]
  rw [← hside]
  split <;> rfl

theorem substituir_child (m : Side) (q : ℕ) : (substituir a z y).child m q =
    if m = sideOf fs ∧ q = parentOf raiz fs then y else if q = y then a.child m z
    else a.child m q := by
  rw [substituir_eq h hy hyr]
  simp only [setChild_child, setPai_child, setCor_toLinks]
  cases m <;> simp [esq, dir]

theorem substituir_parent (q : ℕ) : (substituir a z y).parent q =
    if q = a.esq z then y else if q = a.dir z then y else if q = y then parentOf raiz fs
    else a.parent q := by
  rw [substituir_eq h hy hyr]
  simp only [setChild_parent, setPai_parent, setCor_toLinks]

/-- The node `y` in the place of `z`. -/
theorem substituir_focus (hyn : y ≠ nil) :
    Focus (substituir a z y).toLinks nil raiz (.node y u w) fs y := by
  have hchild := substituir_child h hy hyr
  have hparent := substituir_parent h hy hyr
  have hyp : y ≠ parentOf raiz fs := by
    rintro rfl
    exact (parentOf_mem raiz fs).elim hyr fun hm => hy (List.mem_append_right _ hm)
  obtain ⟨-, -, hu, hw⟩ := h.inside
  obtain ⟨-, hndu, hndw, huw⟩ := (Shape.nodup_join : (Shape.join .left z u w).toList.Nodup ↔ _).mp
    h.nodup_focus
  have hmemu : ∀ q ∈ u.toList, q ∈ (Shape.node z u w).toList := fun q hq => by simp [hq]
  have hmemw : ∀ q ∈ w.toList, q ∈ (Shape.node z u w).toList := fun q hq => by simp [hq]
  have hyin : ∀ q ∈ (Shape.node z u w).toList, q ≠ y := by
    rintro q hq rfl
    exact hy (List.mem_append_left _ hq)
  have hyl : y ≠ a.esq z := hu.ne_of_notMem (fun hm => hyin y (hmemu y hm) rfl) hyn
  have hyd : y ≠ a.dir z := hw.ne_of_notMem (fun hm => hyin y (hmemw y hm) rfl) hyn
  have hkeep : ∀ m, ∀ q ∈ (Shape.node z u w).toList,
      (substituir a z y).child m q = a.child m q := by
    intro m q hq
    rw [hchild, if_neg fun he => h.ne_parent hq he.2, if_neg (hyin q hq)]
  have hcy : ∀ m, (substituir a z y).child m y = a.child m z := by
    intro m
    rw [hchild, if_neg fun he => hyp he.2, if_pos rfl]
  have hnodup := List.nodup_append.mp h.nodup
  have hout : ∀ q ∈ around fs, q ≠ a.esq z ∧ q ≠ a.dir z ∧ q ≠ y := by
    intro q hq
    have hqn : q ≠ nil := fun he => h.nil_notMem (List.mem_append_right _ (he ▸ hq))
    refine ⟨hu.ne_of_notMem (fun hm => hnodup.2.2 q (hmemu q hm) q hq rfl) hqn,
      hw.ne_of_notMem (fun hm => hnodup.2.2 q (hmemw q hm) q hq rfl) hqn, ?_⟩
    rintro rfl
    exact hy (List.mem_append_right _ hq)
  refine h.replace ⟨rfl, ?_, ?_, ?_⟩ ?_ (fun m q hq hne => ?_) (fun q hq => ?_) ?_ ?_ ?_
  · rw [hparent, if_neg hyl, if_neg hyd, if_pos rfl]
  · rw [hcy]
    refine hu.reroot (fun q hq m => hkeep m q (hmemu q hq))
      (fun q hq (hne : q ≠ a.esq z) => ?_) (fun _ => ?_) hndu
    · have hqd : q ≠ a.dir z := hw.ne_of_notMem (huw q hq) (h.ne_nil (hmemu q hq))
      rw [hparent, if_neg hne, if_neg hqd, if_neg (hyin q (hmemu q hq))]
    · exact (hparent _).trans (if_pos rfl)
  · rw [hcy]
    refine hw.reroot (fun q hq m => hkeep m q (hmemw q hq))
      (fun q hq (hne : q ≠ a.dir z) => ?_) (fun hm => ?_) hndw
    · have hql : q ≠ a.esq z := hu.ne_of_notMem (fun hm => huw q hm hq) (h.ne_nil (hmemw q hq))
      rw [hparent, if_neg hql, if_neg hne, if_neg (hyin q (hmemw q hq))]
    · have hdl : a.dir z ≠ a.esq z :=
        hu.ne_of_notMem (fun hm' => huw _ hm' hm) (h.ne_nil (hmemw _ hm))
      exact (hparent (a.dir z)).trans (by rw [if_neg hdl, if_pos rfl])
  · rw [hchild, if_pos ⟨rfl, rfl⟩]
  · have hqy : q ≠ y := by
      rcases hq with rfl | hq
      · exact hyr.symm
      · exact (hout q hq).2.2
    rw [hchild, if_neg fun he => hne (Prod.ext he.1 he.2), if_neg hqy]
  · obtain ⟨h1, h2, h3⟩ := hout q hq
    rw [hparent, if_neg h1, if_neg h2, if_neg h3]
  · have hperm : ((Shape.node y u w).toList ++ around fs).Perm
        (y :: ((u.toList ++ w.toList) ++ around fs)) :=
      List.Perm.append_right _ List.perm_middle
    have hperm' : ((Shape.node z u w).toList ++ around fs).Perm
        (z :: ((u.toList ++ w.toList) ++ around fs)) :=
      List.Perm.append_right _ List.perm_middle
    rw [hperm.nodup_iff, List.nodup_cons]
    refine ⟨fun hm => ?_, (List.nodup_cons.mp (hperm'.nodup_iff.mp h.nodup)).2⟩
    exact hy (hperm'.mem_iff.mpr (List.mem_cons_of_mem _ hm))
  · rw [Shape.toList_node, List.mem_append, List.mem_cons]
    rintro (hm | he | hm)
    · exact h.ne_nil (hmemu _ hm) rfl
    · exact hyn he.symm
    · exact h.ne_nil (hmemw _ hm) rfl
  · rw [Shape.toList_node, List.mem_append, List.mem_cons]
    rintro (hm | he | hm)
    · exact h.ne_top (hmemu _ hm) rfl
    · exact hyr he.symm
    · exact h.ne_top (hmemw _ hm) rfl

/-- The node that has been replaced keeps its fields. -/
theorem substituir_self : (∀ m, (substituir a z y).child m z = a.child m z) ∧
    (substituir a z y).parent z = a.parent z := by
  have hz : z ∈ (Shape.node z u w).toList := by simp
  have hzy : z ≠ y := by
    rintro rfl
    exact hy (List.mem_append_left _ hz)
  obtain ⟨-, -, hu, hw⟩ := h.inside
  obtain ⟨⟨hzu, hzw⟩, -⟩ := (Shape.nodup_join : (Shape.join .left z u w).toList.Nodup ↔ _).mp
    h.nodup_focus
  have hzn := h.ne_nil hz
  refine ⟨fun m => ?_, ?_⟩
  · rw [substituir_child h hy hyr, if_neg fun he => h.ne_parent hz he.2, if_neg hzy]
  · have hzl : z ≠ a.esq z := hu.ne_of_notMem hzu hzn
    have hzr : z ≠ a.dir z := hw.ne_of_notMem hzw hzn
    rw [substituir_parent h hy hyr, if_neg hzl, if_neg hzr, if_neg hzy]

end Substituir

/-! ## The whole removal -/

/-- The tree `t'` is left when node `z` goes, and where its fields lead, for `minimo`. -/
structure Removido (a : ArvoreRB α) (t : Shape ℕ) (z : ℕ) (b : ArvoreRB α) (t' : Shape ℕ) : Prop
    extends SameNodes a b where
  arvore : Arvore b t'
  lista : t'.toList = t.toList.erase z
  dir : b.dir z = nil ∨ b.dir z ∈ t'.toList
  pai : b.parent z = raiz ∨ b.parent z ∈ t'.toList
  primeiro : t.toList.head? = some z →
    if b.dir z ≠ nil then t'.toList.head? = some (b.dir z)
    else t'.toList.head? = some (b.parent z) ∨ t'.toList = [] ∧ b.parent z = raiz

section Remover

variable {a : ArvoreRB α} {t : Shape ℕ}

/-- The tables of a memory that has lost no address spell out a tree with fewer nodes. -/
theorem Arvore.of_erase (h : Arvore a t) {b : ArvoreRB α} {t' : Shape ℕ} {z : ℕ}
    (hsame : SameNodes a b) (hf : Focus b.toLinks nil raiz t' [] (b.esq raiz))
    (hs : Sentinelas b) (hb : ∃ m, Balanced b.cor t' .black m)
    (hl : t'.toList = t.toList.erase z) : Arvore b t' := by
  refine ⟨hf, hs, hb, fun p hp => ?_, ?_, ?_⟩
  · rw [hsame.prox]
    exact h.alocado p (List.mem_of_mem_erase (hl ▸ hp))
  · rw [hsame.prox]
    exact h.reservado
  · rw [hsame.chave]
    exact h.chave_raiz

/-- A right subtree next to an empty left one is a leaf. -/
theorem balanced_folha {cor : ℕ → Color} {p : ℕ} {X : Shape ℕ} {c : Color} {n : ℕ}
    (h : Balanced cor (.node p .nil X) c n) : X = .nil ∨ ∃ q, X = .node q .nil .nil := by
  have hX : ∃ c', Balanced cor X c' 0 := by
    cases h with
    | red _ hl hr =>
        cases hl
        exact ⟨_, hr⟩
    | black _ hl hr =>
        cases hl
        exact ⟨_, hr⟩
  obtain ⟨c', hX⟩ := hX
  cases hX with
  | nil => exact .inl rfl
  | red _ hl hr =>
      cases hl
      cases hr
      exact .inr ⟨_, rfl⟩

theorem erase_meio {l₁ l₂ : List ℕ} {z : ℕ} (h : (l₁ ++ z :: l₂).Nodup) :
    (l₁ ++ z :: l₂).erase z = l₁ ++ l₂ := by
  have hz : z ∉ l₁ := fun hm =>
    (List.nodup_append.mp h).2.2 z hm z List.mem_cons_self rfl
  rw [List.erase_append_right _ hz, List.erase_cons_head]

/-- A node with at most one child is unlinked itself. -/
theorem Arvore.remover_filho (h : Arvore a t) {s : Side} {X : Shape ℕ} {fs : List (Frame ℕ)} {z : ℕ}
    (hf : Focus a.toLinks nil raiz (.join s z X .nil) fs z)
    (hfill : PointerTree.fill (.join s z X .nil) fs = t) :
    ∃ t', Removido a t z (retirar a z (a.child s z)) t' := by
  obtain ⟨T, hT, hs, hb, hlist, hsame, hchild, hparent⟩ := h.retirado hf hfill
  have hin := linked_join.mp hf.inside
  have ht : t.toList = before fs ++ (Shape.join s z X .nil).toList ++ behind fs := by
    rw [← hfill, toList_fill]
  have hnd := h.nodup
  have herase : T.toList = t.toList.erase z := by
    rw [ht] at hnd
    rw [hlist, ht]
    cases s with
    | left =>
        have hcut : before fs ++ (Shape.join .left z X .nil).toList ++ behind fs =
            (before fs ++ X.toList) ++ z :: behind fs := by simp [Shape.join]
        rw [hcut, erase_meio (hcut ▸ hnd)]
    | right =>
        have hcut : before fs ++ (Shape.join .right z X .nil).toList ++ behind fs =
            before fs ++ z :: (X.toList ++ behind fs) := by simp [Shape.join]
        rw [hcut, erase_meio (hcut ▸ hnd), List.append_assoc]
  have hdir : a.dir z = nil ∨ a.dir z ∈ X.toList := by
    cases s with
    | left => exact .inl hin.2.2.2
    | right => exact (em (a.dir z = nil)).imp_right hin.2.2.1.mem_of_ne_nil
  have hbdir : (retirar a z (a.child s z)).dir z = a.dir z := hchild .right
  have hbpai := hparent.trans hin.2.1
  refine ⟨T, hsame, h.of_erase hsame hT hs hb herase, herase, ?_, ?_, ?_⟩
  · rw [hbdir, hlist]
    exact hdir.imp_right fun hm => by simp [hm]
  · rw [hbpai, hlist]
    refine (parentOf_mem raiz fs).imp_right fun hm => ?_
    rw [around, List.mem_append] at hm
    rcases hm with hm | hm <;> simp [hm]
  · intro hhead
    rw [hbdir, hbpai, hlist]
    obtain ⟨m, hbal⟩ := h.balanced
    rw [← hfill] at hbal
    obtain ⟨c, n, -, hz⟩ := Fits.of_fill hbal
    rw [ht] at hhead hnd
    have hbefore : before fs = [] := by
      cases hbf : before fs with
      | nil => rfl
      | cons q l =>
          rw [hbf, List.append_assoc] at hhead hnd
          obtain rfl : q = z := Option.some.inj hhead
          exact absurd rfl ((List.nodup_append.mp hnd).2.2 q (by simp) q (by simp))
    rw [hbefore, List.nil_append] at hhead hnd ⊢
    by_cases hd : a.dir z = nil
    · rw [if_neg (not_not.mpr hd)]
      have hX : X = .nil := by
        cases s with
        | left =>
            refine Shape.eq_nil_of_toList ?_
            cases hXl : X.toList with
            | nil => rfl
            | cons q l =>
                simp only [Shape.join, Shape.toList_node, hXl, List.cons_append] at hhead hnd
                obtain rfl : q = z := Option.some.inj hhead
                simp at hnd
        | right =>
            refine Shape.eq_nil_of_toList (List.eq_nil_iff_forall_not_mem.mpr fun q hq => ?_)
            have hlink : Linked a.toLinks nil X (a.dir z) z := hin.2.2.1
            rw [hd] at hlink
            cases X with
            | nil => simp at hq
            | node p l r => exact hf.ne_nil (q := p) (by simp) hlink.1.symm
      rw [hX, Shape.toList_nil, List.nil_append]
      rcases behind_of_before_nil hbefore with rfl | ⟨f, gs, l, rfl, hbehind⟩
      · exact .inr ⟨rfl, rfl⟩
      · rw [hbehind]
        exact .inl rfl
    · rw [if_pos hd]
      cases s with
      | left => exact absurd hin.2.2.2 hd
      | right =>
          have hlink : Linked a.toLinks nil X (a.dir z) z := hin.2.2.1
          rcases balanced_folha hz with rfl | ⟨q, rfl⟩
          · exact absurd hlink hd
          · rw [hlink.1]
            rfl

/-- The colours of a tree whose root gives its place and its colour to another node. -/
theorem balanced_raiz {cor cor' : ℕ → Color} {z y : ℕ} {u w : Shape ℕ} {c : Color} {n : ℕ}
    (h : Balanced cor (.node z u w) c n) (hy : cor' y = cor z)
    (hu : ∀ q ∈ u.toList, cor' q = cor q) (hw : ∀ q ∈ w.toList, cor' q = cor q) :
    Balanced cor' (.node y u w) c n := by
  cases h with
  | red hz hbu hbw => exact .red (hy.trans hz) (hbu.congr hu) (hbw.congr hw)
  | black hz hbu hbw => exact .black (hy.trans hz) (hbu.congr hu) (hbw.congr hw)

/-- A node with two children gives its place to its successor, which is unlinked. -/
theorem Arvore.remover_sucessor (h : Arvore a t) {l r : Shape ℕ} {fs : List (Frame ℕ)} {z : ℕ}
    (hf : Focus a.toLinks nil raiz (.node z l r) fs z)
    (hfill : PointerTree.fill (.node z l r) fs = t) (hl : a.esq z ≠ nil) (hr : a.dir z ≠ nil) :
    ∃ t', sucessor a z ≠ z ∧ a.esq (sucessor a z) = nil ∧
      Removido a t z
        (substituir (retirar a (sucessor a z) (a.dir (sucessor a z))) z (sucessor a z)) t' := by
  have hdown : Focus a.toLinks nil raiz r (⟨.right, z, l⟩ :: fs) (a.dir z) :=
    Focus.down (s := .right) hf
  have hlen : r.toList.length ≤ a.prox := by
    have ht := h.length_le
    rw [← hfill, toList_fill] at ht
    simp only [Shape.toList_node, List.length_append, List.length_cons] at ht
    omega
  have hsuc : sucessor a z = maisEsquerda a a.prox (a.dir z) := by rw [sucessor, if_pos hr]
  obtain ⟨r', gs, hy, hyfill, hbefore⟩ :=
    maisEsquerda_focus a.prox hdown (hdown.inside.mem_of_ne_nil hr) hlen
  rw [← hsuc] at hy hyfill
  generalize sucessor a z = y at hy hyfill
  have hyl : a.esq y = nil := hy.inside.2.2.1
  have hyfill' : PointerTree.fill (.join .right y r' .nil) gs = t := hyfill.trans hfill
  have hret := h.retirado (s := .right) hy hyfill'
  rw [child_right] at hret
  obtain ⟨T, hT, hs, hb, hlist, hsame, -, -⟩ := hret
  have hbefore : before gs = before fs ++ (l.toList ++ [z]) := hbefore
  have hnd := h.nodup
  -- the lists before and after
  have ht : t.toList = (before fs ++ l.toList) ++ z :: (y :: (r'.toList ++ behind gs)) := by
    rw [← hyfill', toList_fill, hbefore]
    simp [Shape.join]
  have hTl : T.toList = (before fs ++ l.toList) ++ z :: (r'.toList ++ behind gs) := by
    rw [hlist, hbefore]
    simp
  rw [ht] at hnd
  have hyT : y ∉ T.toList := by
    have hmid := (List.nodup_middle.mp hnd)
    rw [← List.cons_append] at hmid
    have hmid' := (List.nodup_middle.mp hmid)
    rw [hTl]
    intro hm
    refine (List.nodup_cons.mp hmid').1 ?_
    simpa [or_assoc, or_left_comm] using hm
  have hzT : z ∈ T.toList := by simp [hTl]
  have hTnd : T.toList.Nodup := hT.nodup_focus
  obtain ⟨u, w, hs', hz, hzfill⟩ := hT.exists_focus hzT
  rw [PointerTree.fill] at hzfill
  have hyout : y ∉ (Shape.node z u w).toList ++ around hs' := by
    rw [← (perm_fill _ _).mem_iff, hzfill]
    exact hyT
  have hynil : y ≠ nil := hy.ne_nil (by simp)
  have hyraiz : y ≠ raiz := hy.ne_top (by simp)
  have hzy : y ≠ z := by
    rintro rfl
    exact hyT hzT
  have hnew := substituir_focus hz hyout hyraiz hynil
  obtain ⟨hchild, hparent⟩ := substituir_self hz hyout hyraiz
  have hsame' := hsame.trans (substituir_sameNodes (retirar a y (a.dir y)) z y)
  have hcor := substituir_cor (retirar a y (a.dir y)) z y
  have hcut : before hs' ++ u.toList = before fs ++ l.toList ∧
      w.toList ++ behind hs' = r'.toList ++ behind gs := by
    have he : (before hs' ++ u.toList) ++ z :: (w.toList ++ behind hs') =
        (before fs ++ l.toList) ++ z :: (r'.toList ++ behind gs) := by
      rw [← hTl, ← hzfill, toList_fill]
      simp
    have hn1 : z ∉ before hs' ++ u.toList ∧ z ∉ w.toList ++ behind hs' := by
      have hnd' := hTnd
      rw [hTl, ← he] at hnd'
      have hn := (List.nodup_cons.mp (List.nodup_middle.mp hnd')).1
      rwa [List.mem_append, not_or] at hn
    obtain ⟨h1, -, h2⟩ := (List.append_cons_inj_of_notMem hn1.1 hn1.2).mp he
    exact ⟨h1, h2⟩
  have hlista : (PointerTree.fill (.node y u w) hs').toList = t.toList.erase z := by
    rw [ht, erase_meio hnd, toList_fill, ← hcut.1, ← hcut.2]
    simp
  refine ⟨PointerTree.fill (.node y u w) hs', hzy, hyl, hsame',
    h.of_erase hsame' hnew.fill ⟨?_, ?_⟩ ?_ hlista, hlista, ?_, ?_, ?_⟩
  · rw [hcor]
    exact (Function.update_of_ne hynil.symm ..).trans hs.nil
  · rw [hcor]
    exact (Function.update_of_ne hyraiz.symm ..).trans hs.raiz
  · obtain ⟨m, hbal⟩ := hb
    rw [← hzfill] at hbal
    obtain ⟨c, n, hfits, hbz⟩ := Fits.of_fill hbal
    have hkeep : ∀ q, q ∈ (Shape.node z u w).toList ++ around hs' →
        Function.update (retirar a y (a.dir y)).cor y ((retirar a y (a.dir y)).cor z) q =
          (retirar a y (a.dir y)).cor q := by
      intro q hq
      refine Function.update_of_ne ?_ ..
      rintro rfl
      exact hyout hq
    rw [hcor]
    refine (hfits.congr fun q hq => hkeep q (List.mem_append_right _ hq)).fill
      (balanced_raiz hbz (Function.update_self ..) (fun q hq => hkeep q ?_) fun q hq => hkeep q ?_)
    · simp [hq]
    · simp [hq]
  · have hdir := hchild .right
    refine (em (SthreadLib.ArvoreRB.dir _ z = nil)).imp_right fun hne => ?_
    have hm : (retirar a y (a.dir y)).dir z ∈ w.toList := by
      refine hz.inside.2.2.2.mem_of_ne_nil ?_
      exact fun he => hne (hdir.trans he)
    rw [show (substituir (retirar a y (a.dir y)) z y).dir z = (retirar a y (a.dir y)).dir z from
      hdir, toList_fill]
    simp [hm]
  · rw [hparent, hz.inside.2.1, toList_fill]
    refine (parentOf_mem raiz hs').imp_right fun hm => ?_
    rw [around, List.mem_append] at hm
    rcases hm with hm | hm <;> simp [hm]
  · intro hhead
    have hlne : ∃ q l', l.toList = q :: l' := by
      cases l with
      | nil => exact absurd hf.inside.2.2.1 hl
      | node p l₁ l₂ =>
          cases hp : (Shape.node p l₁ l₂).toList with
          | nil => simp at hp
          | cons q l' => exact ⟨q, l', rfl⟩
    obtain ⟨q, l', hq⟩ := hlne
    rw [ht, hq] at hhead
    rw [hq] at hnd
    cases hbf : before fs with
    | nil =>
        rw [hbf] at hhead hnd
        obtain rfl : q = z := Option.some.inj hhead
        simp at hnd
    | cons q' l'' =>
        rw [hbf] at hhead hnd
        obtain rfl : q' = z := Option.some.inj hhead
        simp at hnd

/-- `RBRemoverNo`, but for `minimo`. -/
theorem Arvore.remover_no {z : ℕ} (h : Arvore a t) (hz : z ∈ t.toList) :
    ∃ b t', Removido a t z b t' ∧ rbRemoverNo a z = actualizarMinimo b z := by
  obtain ⟨l, r, fs, hf, hfill⟩ := h.focus.exists_focus hz
  rw [PointerTree.fill] at hfill
  obtain ⟨-, -, hl, hr⟩ := hf.inside
  have hempty : ∀ (m : Side) (v : Shape ℕ), Linked a.toLinks nil v (a.child m z) z →
      (∀ q ∈ v.toList, q ≠ nil) → a.child m z = nil → v = .nil := by
    intro m v hv hne he
    cases v with
    | nil => rfl
    | node p u w => exact absurd (hv.1.symm.trans he) (hne p (by simp))
  by_cases hel : a.esq z = nil
  · obtain rfl : l = .nil := hempty .left l hl (fun q hq => hf.ne_nil (by simp [hq])) hel
    obtain ⟨t', hrem⟩ := h.remover_filho (s := .right) hf hfill
    refine ⟨_, t', hrem, ?_⟩
    simp only [rbRemoverNo, hel, true_or, if_true, ne_eq, not_true, if_false]
    rfl
  · by_cases her : a.dir z = nil
    · obtain rfl : r = .nil := hempty .right r hr (fun q hq => hf.ne_nil (by simp [hq])) her
      obtain ⟨t', hrem⟩ := h.remover_filho (s := .left) hf hfill
      refine ⟨_, t', hrem, ?_⟩
      simp only [rbRemoverNo, hel, her, or_true, if_true, ne_eq, not_true, if_false]
      rfl
    · obtain ⟨t', hne, hsuc, hrem⟩ := h.remover_sucessor hf hfill hel her
      refine ⟨_, t', hrem, ?_⟩
      simp only [rbRemoverNo, hel, her, or_self, if_false, hsuc, if_true, ne_eq, hne,
        not_false_eq_true]
      rfl

/-- `RBRemoverNo` takes the node out of the tree; `minimo` stays the leftmost node. -/
theorem Arvore.remover {z : ℕ} (h : Arvore a t) (hz : z ∈ t.toList) :
    ∃ t', Arvore (rbRemoverNo a z) t' ∧ t'.toList = t.toList.erase z ∧
      (rbRemoverNo a z).chave = a.chave ∧ (rbRemoverNo a z).elem = a.elem ∧
      (rbRemoverNo a z).tid = a.tid ∧ (rbRemoverNo a z).prox = a.prox ∧
      (∀ m, (rbRemoverNo a z).minimo = some m →
        m = raiz ∨ m ∈ t'.toList ∨ a.minimo = some m ∧ m ≠ z) ∧
      (MinimoCerto a t → MinimoCerto (rbRemoverNo a z) t') := by
  obtain ⟨b, t', hrem, heq⟩ := h.remover_no hz
  have hmin : (rbRemoverNo a z).minimo = if a.minimo = some z then
      (if b.dir z ≠ nil then some (b.dir z) else some (b.parent z)) else a.minimo := by
    rw [heq, actualizarMinimo, hrem.minimo]
    split
    · rfl
    · exact hrem.minimo
  have hrest : rbRemoverNo a z = { b with minimo := (rbRemoverNo a z).minimo } := by
    rw [heq, actualizarMinimo]
    split <;> rfl
  have hb := hrem.arvore
  refine ⟨t', ?_, hrem.lista, ?_, ?_, ?_, ?_, fun m hm => ?_, fun hcerto => ?_⟩
  · rw [hrest]
    exact ⟨hb.focus, ⟨hb.sentinelas.nil, hb.sentinelas.raiz⟩, hb.balanced, hb.alocado,
      hb.reservado, hb.chave_raiz⟩
  · rw [hrest]
    exact hrem.chave
  · rw [hrest]
    exact hrem.elem
  · rw [hrest]
    exact hrem.tid
  · rw [hrest]
    exact hrem.prox
  · rw [hmin] at hm
    split at hm
    · split at hm
      · rename_i hd
        obtain rfl := Option.some.inj hm
        exact .inr (.inl (hrem.dir.resolve_left hd))
      · obtain rfl := Option.some.inj hm
        exact hrem.pai.imp_right .inl
    · rename_i hne
      refine .inr (.inr ⟨hm, ?_⟩)
      rintro rfl
      exact hne hm
  · have hhead : a.minimo = t.toList.head? := by
      rcases hcerto with he | ⟨hnil, -⟩
      · exact he
      · rw [hnil] at hz
        exact absurd hz List.not_mem_nil
    rw [MinimoCerto, hmin]
    split
    · rename_i hmz
      have hfirst := hrem.primeiro (hhead ▸ hmz)
      split
      · rename_i hd
        rw [if_pos hd] at hfirst
        exact .inl hfirst.symm
      · rename_i hd
        rw [if_neg hd] at hfirst
        exact hfirst.imp Eq.symm fun ⟨hnil, hpai⟩ => ⟨hnil, congrArg some hpai⟩
    · rename_i hmz
      refine .inl ?_
      rw [hhead, hrem.lista]
      rw [hhead] at hmz
      cases ht : t.toList with
      | nil => rfl
      | cons q l =>
          rw [ht] at hmz
          have hq : q ≠ z := fun he => hmz (congrArg some he)
          rw [List.erase_cons_tail (by simpa using hq)]
          rfl

end Remover

end ThreadScheduler.SthreadLib
