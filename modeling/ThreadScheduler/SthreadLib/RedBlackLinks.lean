import ThreadScheduler.SthreadLib.RedBlack

/-!
# What the operations do to the pointers

Rotations, the unlinking of a node and its replacement, each seen from a focus. The tables
other than the pointers stay as they are.
-/
namespace ThreadScheduler.SthreadLib

open PointerTree RedBlack

namespace ArvoreRB

variable {α : Type*} (a : ArvoreRB α)

theorem child_right (p : ℕ) : a.child .right p = a.dir p := rfl

section Stores

variable (s : Side) (p v : ℕ) (c : Color) (e : Option α)

@[simp] theorem setChild_child (m : Side) (q : ℕ) :
    (a.setChild s p v).child m q = if m = s ∧ q = p then v else a.child m q := rfl

@[simp] theorem setChild_parent : (a.setChild s p v).parent = a.parent := rfl

@[simp] theorem setChild_cor : (a.setChild s p v).cor = a.cor := rfl

@[simp] theorem setChild_chave : (a.setChild s p v).chave = a.chave := rfl

@[simp] theorem setChild_elem : (a.setChild s p v).elem = a.elem := rfl

@[simp] theorem setChild_tid : (a.setChild s p v).tid = a.tid := rfl

@[simp] theorem setChild_minimo : (a.setChild s p v).minimo = a.minimo := rfl

@[simp] theorem setChild_prox : (a.setChild s p v).prox = a.prox := rfl

@[simp] theorem setPai_parent (q : ℕ) :
    (a.setPai p v).parent q = if q = p then v else a.parent q := Function.update_apply ..

@[simp] theorem setPai_child : (a.setPai p v).child = a.child := rfl

@[simp] theorem setPai_cor : (a.setPai p v).cor = a.cor := rfl

@[simp] theorem setPai_chave : (a.setPai p v).chave = a.chave := rfl

@[simp] theorem setPai_elem : (a.setPai p v).elem = a.elem := rfl

@[simp] theorem setPai_tid : (a.setPai p v).tid = a.tid := rfl

@[simp] theorem setPai_minimo : (a.setPai p v).minimo = a.minimo := rfl

@[simp] theorem setPai_prox : (a.setPai p v).prox = a.prox := rfl

@[simp] theorem setCor_cor (q : ℕ) :
    (a.setCor p c).cor q = if q = p then c else a.cor q := Function.update_apply ..

@[simp] theorem setCor_toLinks : (a.setCor p c).toLinks = a.toLinks := rfl

@[simp] theorem setCor_chave : (a.setCor p c).chave = a.chave := rfl

@[simp] theorem setCor_elem : (a.setCor p c).elem = a.elem := rfl

@[simp] theorem setCor_tid : (a.setCor p c).tid = a.tid := rfl

@[simp] theorem setCor_minimo : (a.setCor p c).minimo = a.minimo := rfl

@[simp] theorem setCor_prox : (a.setCor p c).prox = a.prox := rfl

@[simp] theorem setElem_toLinks : (a.setElem p e).toLinks = a.toLinks := rfl

end Stores

/-- Everything but the pointers and the colours. -/
structure SameNodes (a b : ArvoreRB α) : Prop where
  chave : b.chave = a.chave
  elem : b.elem = a.elem
  tid : b.tid = a.tid
  minimo : b.minimo = a.minimo
  prox : b.prox = a.prox

theorem SameNodes.refl : SameNodes a a := ⟨rfl, rfl, rfl, rfl, rfl⟩

theorem SameNodes.trans {a b c : ArvoreRB α} (h : SameNodes a b) (h' : SameNodes b c) :
    SameNodes a c :=
  ⟨h'.chave.trans h.chave, h'.elem.trans h.elem, h'.tid.trans h.tid, h'.minimo.trans h.minimo,
    h'.prox.trans h.prox⟩

theorem SameNodes.setCor (p : ℕ) (c : Color) : SameNodes a (a.setCor p c) :=
  ⟨rfl, rfl, rfl, rfl, rfl⟩

end ArvoreRB

open ArvoreRB

variable {α : Type*}

theorem rodar_sameNodes (s : Side) (a : ArvoreRB α) (x : ℕ) :
    SameNodes a (rodar s a x) := by
  simp only [rodar]
  split_ifs <;> exact ⟨rfl, rfl, rfl, rfl, rfl⟩

theorem rodar_cor (s : Side) (a : ArvoreRB α) (x : ℕ) : (rodar s a x).cor = a.cor := by
  simp only [rodar]
  split_ifs <;> rfl

section Rodar

variable {s : Side} {a : ArvoreRB α} {x y b par : ℕ} (hy : a.child s.flip x = y)
  (hb : a.child s y = b) (hpar : a.parent x = par) (hxy : x ≠ y) (hbx : b ≠ x)
  (hpx : par ≠ x)

include hy hb hpar hxy hbx hpx

theorem rodar_child (m : Side) (q : ℕ) : (rodar s a x).child m q =
    if m = s ∧ q = y then x
    else if m = (if x = a.esq par then .left else .right) ∧ q = par then y
    else if m = s.flip ∧ q = x then b else a.child m q := by
  have hyx := hxy.symm
  have hxb := hbx.symm
  by_cases hn : b = nil
  · by_cases he : x = a.child .left par
    · simp [rodar, esq, hy, hb, hpar, hyx, hpx, hn, he.symm]
    · simp [rodar, esq, hy, hb, hpar, hxy, hyx, hpx, hn, he]
  · by_cases he : x = a.child .left par
    · simp [rodar, esq, hy, hb, hpar, hxb, hyx, hpx, hn, he.symm]
    · simp [rodar, esq, hy, hb, hpar, hxb, hxy, hyx, hpx, hn, he]

theorem rodar_parent (q : ℕ) : (rodar s a x).parent q =
    if q = x then y else if q = y then par else if q = b ∧ b ≠ nil then x else a.parent q := by
  have hyx := hxy.symm
  have hxb := hbx.symm
  by_cases hn : b = nil
  · by_cases he : x = a.child .left par
    · simp [rodar, esq, hy, hb, hpar, hyx, hpx, hn, he.symm]
    · simp [rodar, esq, hy, hb, hpar, hxy, hyx, hpx, hn, he]
  · by_cases he : x = a.child .left par
    · simp [rodar, esq, hy, hb, hpar, hxb, hyx, hpx, hn, he.symm]
    · simp [rodar, esq, hy, hb, hpar, hxb, hxy, hyx, hpx, hn, he]

end Rodar

section Focus

variable {s : Side} {a : ArvoreRB α} {x y : ℕ} {A B C : Shape ℕ} {fs : List (Frame ℕ)}
  (h : Focus a.toLinks nil raiz (.join s x A (.join s y B C)) fs x)

include h

/-- Where the pointers of a rotation lead before it. -/
theorem rodar_pointers : a.child s.flip x = y ∧ a.parent x = parentOf raiz fs ∧ x ≠ y ∧
    a.child s y ≠ x ∧ a.child s y ≠ y ∧ (a.child s y ≠ nil → a.child s y ∈ B.toList) := by
  obtain ⟨-, hpar, -, hyc⟩ := linked_join.mp h.inside
  obtain ⟨hy, -, hb, -⟩ := linked_join.mp hyc
  have hx : x ∈ (Shape.join s x A (.join s y B C)).toList := by simp
  have hym : y ∈ (Shape.join s x A (.join s y B C)).toList := by simp
  obtain ⟨⟨-, hxy⟩, -, hndy, -⟩ := Shape.nodup_join.mp h.nodup_focus
  obtain ⟨⟨hyB, -⟩, -⟩ := Shape.nodup_join.mp hndy
  have hmem : a.child s y ≠ nil → a.child s y ∈ B.toList := hb.mem_of_ne_nil
  refine ⟨hy, hpar, ?_, ?_, ?_, hmem⟩
  · rintro rfl
    exact hxy (by simp)
  · intro he
    have hm := hmem (he ▸ h.ne_nil hx)
    exact hxy (by simp [← he, hm])
  · intro he
    have hm := hmem (by rw [he]; exact h.ne_nil hym)
    exact hyB (he ▸ hm)

theorem rodar_focus_child (m : Side) (q : ℕ) : (rodar s a x).child m q =
    if m = s ∧ q = y then x
    else if m = sideOf fs ∧ q = parentOf raiz fs then y
    else if m = s.flip ∧ q = x then a.child s y else a.child m q := by
  obtain ⟨hy, hpar, hxy, hbx, -, -⟩ := rodar_pointers h
  have hx : x ∈ (Shape.join s x A (.join s y B C)).toList := by simp
  have hside : (if x = a.esq (parentOf raiz fs) then Side.left else .right) = sideOf fs :=
    Side.ite_eq (h.left_iff (h.ne_nil hx)).symm
  rw [rodar_child hy rfl hpar hxy hbx (h.ne_parent hx).symm, hside]

theorem rodar_focus_parent (q : ℕ) : (rodar s a x).parent q =
    if q = x then y else if q = y then parentOf raiz fs
    else if q = a.child s y ∧ a.child s y ≠ nil then x else a.parent q := by
  obtain ⟨hy, hpar, hxy, hbx, -, -⟩ := rodar_pointers h
  have hx : x ∈ (Shape.join s x A (.join s y B C)).toList := by simp
  exact rodar_parent hy rfl hpar hxy hbx (h.ne_parent hx).symm q

/-- A rotation at the focus. -/
theorem rodar_focus :
    Focus (rodar s a x).toLinks nil raiz (.join s y (.join s x A B) C) fs y := by
  obtain ⟨-, -, hxy, hbx, hby, -⟩ := rodar_pointers h
  have hpx := (h.ne_parent (q := x) (by simp)).symm
  have hpy := (h.ne_parent (q := y) (by simp)).symm
  have hchild := rodar_focus_child h
  have hparent := rodar_focus_parent h
  refine h.rotate ?_ ?_ ?_ (fun m q h1 h2 h3 => ?_) ?_ ?_ (fun hn => ?_) fun q h1 h2 h3 => ?_
  · rw [hchild, if_neg (by simp), if_neg fun he => hpx he.2.symm, if_pos ⟨rfl, rfl⟩]
  · rw [hchild, if_pos ⟨rfl, rfl⟩]
  · rw [hchild, if_neg fun he => hpy he.2, if_pos ⟨rfl, rfl⟩]
  · rw [hchild, if_neg fun he => h2 (Prod.ext he.1 he.2),
      if_neg fun he => h3 (Prod.ext he.1 he.2), if_neg fun he => h1 (Prod.ext he.1 he.2)]
  · rw [hparent, if_pos rfl]
  · rw [hparent, if_neg hxy.symm, if_pos rfl]
  · rw [hparent, if_neg hbx, if_neg hby, if_pos ⟨rfl, hn⟩]
  · rw [hparent, if_neg h1, if_neg h2, if_neg fun he => h3 he.1]

/-- A rotation leaves the fields of a node outside the tree. -/
theorem rodar_outside {q : ℕ} (hq : q ∉ (Shape.join s x A (.join s y B C)).toList ++ around fs)
    (hr : q ≠ raiz) :
    (∀ m, (rodar s a x).child m q = a.child m q) ∧ (rodar s a x).parent q = a.parent q := by
  obtain ⟨-, -, -, -, -, hmem⟩ := rodar_pointers h
  simp only [List.mem_append, Shape.mem_join, not_or] at hq
  obtain ⟨⟨hqx, -, hqy, hqB, -⟩, hqf⟩ := hq
  have hqp : q ≠ parentOf raiz fs := by
    rintro rfl
    exact (parentOf_mem raiz fs).elim hr hqf
  refine ⟨fun m => ?_, ?_⟩
  · rw [rodar_focus_child h, if_neg fun he => hqy he.2, if_neg fun he => hqp he.2,
      if_neg fun he => hqx he.2]
  · rw [rodar_focus_parent h, if_neg hqx, if_neg hqy, if_neg]
    rintro ⟨rfl, hn⟩
    exact hqB (hmem hn)

end Focus

end ThreadScheduler.SthreadLib
