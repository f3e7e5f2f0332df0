import ThreadScheduler.SthreadLib.RedBlackTree

/-!
# Insertion

The loop of `RBInserirNo` climbs with a red node whose parent may be red too. Everything else
is balanced, so the grandparent is there and black, and the loop leaves a balanced tree once
the root is painted black.
-/
namespace ThreadScheduler.SthreadLib

open PointerTree RedBlack ArvoreRB

variable {α : Type*}

/-- The loop of `RBInserirNo` is at the red node `x`, the root of `t`. -/
structure Inserido (a : ArvoreRB α) (t : Shape ℕ) (fs : List (Frame ℕ)) (x n : ℕ) : Prop where
  focus : Focus a.toLinks nil raiz t fs x
  sentinelas : Sentinelas a
  red : Balanced a.cor t .red n
  fits : ∃ c, Fits a.cor fs c n

namespace Inserido

variable {a : ArvoreRB α} {t : Shape ℕ} {fs : List (Frame ℕ)} {x n : ℕ}

theorem mem (h : Inserido a t fs x n) : x ∈ t.toList := by
  obtain ⟨p, u, w, rfl⟩ := h.red.exists_join (.inr rfl) .left
  obtain ⟨rfl, -⟩ := h.focus.inside
  simp [Shape.join]

theorem parent_eq (h : Inserido a t fs x n) : a.parent x = parentOf raiz fs :=
  h.focus.inside.parent_root h.mem

/-- A red parent has a black parent of its own. -/
theorem exists_frames (h : Inserido a t fs x n) (hr : a.cor (a.parent x) = .red) :
    ∃ f g gs c, fs = f :: g :: gs ∧ a.cor f.at' = .red ∧ Balanced a.cor f.sib .black n ∧
      a.cor g.at' = .black ∧ Balanced a.cor g.sib c n ∧ Fits a.cor gs .black (n + 1) := by
  rw [h.parent_eq] at hr
  obtain ⟨c, hfits⟩ := h.fits
  cases fs with
  | nil =>
      rw [parentOf, h.sentinelas.raiz] at hr
      exact Color.noConfusion hr
  | cons f fs =>
      rw [parentOf] at hr
      cases hfits with
      | black hf _ _ =>
          rw [hf] at hr
          exact Color.noConfusion hr
      | red hf hsib hfs =>
          cases hfs with
          | black hg hgsib hgs => exact ⟨_, _, _, _, rfl, hf, hsib, hg, hgsib, hgs⟩

/-- A red uncle: the red colour moves up to the grandparent. -/
theorem subir {f g : Frame ℕ} {gs : List (Frame ℕ)} {c : Color}
    (h : Inserido a t (f :: g :: gs) x n) (hf : Balanced a.cor f.sib .black n)
    (hg : Balanced a.cor g.sib c n) (hgs : Fits a.cor gs .black (n + 1))
    (hy : a.cor (a.child g.side.flip g.at') = .red) :
    Inserido (((a.setCor f.at' .black).setCor (a.child g.side.flip g.at') .black).setCor g.at'
      .red) (.join g.side g.at' (.join f.side f.at' t f.sib) g.sib) gs g.at' (n + 1) := by
  have hup := h.focus.up
  obtain ⟨⟨hft, hfs, hfg, hfn, hfr⟩, -⟩ := h.focus.frame
  obtain ⟨⟨hgt, hgs', hgg, hgn, hgr⟩, hsib⟩ := hup.frame
  obtain ⟨-, -, hylink, -⟩ := hup.outside
  obtain rfl : .red = c := hy.symm.trans (hg.color_root hylink h.sentinelas.nil)
  obtain ⟨u, ul, ur, hnode⟩ := hg.exists_join (.inr rfl) .left
  have hu : a.child g.side.flip g.at' = u := by
    rw [hnode] at hylink
    exact hylink.1
  have hum : u ∈ g.sib.toList := by simp [hnode, Shape.join]
  obtain ⟨hut, hug, hun, hur⟩ := hsib u hum
  rw [Shape.mem_join, not_or, not_or] at hgt hut
  rw [hu]
  -- the new colours, and where they are the old ones
  have hcor : ∀ q, (((a.setCor f.at' .black).setCor u .black).setCor g.at' .red).cor q =
      if q = g.at' then .red else if q = u ∨ q = f.at' then .black else a.cor q := by
    intro q
    simp only [setCor_cor]
    split_ifs <;> tauto
  have hkeep : ∀ q, q ≠ g.at' → q ≠ u → q ≠ f.at' →
      (((a.setCor f.at' .black).setCor u .black).setCor g.at' .red).cor q = a.cor q := by
    intro q h1 h2 h3
    rw [hcor, if_neg h1, if_neg (not_or.mpr ⟨h2, h3⟩)]
  have hne : ∀ (q : ℕ) (l : List ℕ), q ∉ l → ∀ q' ∈ l, q' ≠ q := by
    rintro q l hq q' hq' rfl
    exact hq hq'
  refine ⟨hup.up, ((h.sentinelas.setCor hfn hfr _).setCor hun hur _).setCor hgn hgr _, ?_, ?_⟩
  · refine .join_red (by rw [hcor, if_pos rfl]) (.join_black ?_ (?_ : Balanced _ t .red n)
      (?_ : Balanced _ f.sib .black n)) ?_
    · rw [hcor, if_neg (fun he => hgt.1 he.symm), if_pos (.inr rfl)]
    · exact h.red.congr fun q hq => hkeep q (hne _ _ hgt.2.1 q hq) (hne _ _ hut.2.1 q hq)
        (hne _ _ hft q hq)
    · exact hf.congr fun q hq => hkeep q (hne _ _ hgt.2.2 q hq) (hne _ _ hut.2.2 q hq)
        (hne _ _ hfs q hq)
    · have hnd := (Shape.nodup_join.mp hup.up.nodup_focus).2.2.1
      have hfsib : ∀ q ∈ g.sib.toList, q ≠ f.at' := by
        rintro q hq rfl
        exact hfg (mem_around_cons.mpr (.inr (.inl hq)))
      rw [hnode] at hg hgs' hfsib hnd ⊢
      obtain ⟨⟨hul, hur'⟩, -⟩ := Shape.nodup_join.mp hnd
      refine hg.paint ?_ (fun q hq => ?_) fun q hq => ?_
      · rw [hcor, if_neg (fun he => hgs' (by simp [← he])), if_pos (.inl rfl)]
      · have hm : q ∈ (Shape.join Side.left u ul ur).toList := by simp [hq]
        exact hkeep q (hne _ _ hgs' q hm) (hne _ _ hul q hq) (hfsib q hm)
      · have hm : q ∈ (Shape.join Side.left u ul ur).toList := by simp [hq]
        exact hkeep q (hne _ _ hgs' q hm) (hne _ _ hur' q hq) (hfsib q hm)
  · refine ⟨_, hgs.congr fun q hq => hkeep q (hne _ _ hgg q hq) (hne _ _ hug q hq) fun he => ?_⟩
    subst he
    exact hfg (mem_around_cons.mpr (.inr (.inr hq)))

/-- A black uncle and an outer child: one rotation ends the climb. -/
theorem fechar {s : Side} {p : ℕ} {w : Shape ℕ} {g : Frame ℕ} {gs : List (Frame ℕ)}
    (h : Inserido a t (⟨s, p, w⟩ :: g :: gs) x n) (hs : s = g.side)
    (hw : Balanced a.cor w .black n) (hg : Balanced a.cor g.sib .black n)
    (hgs : Fits a.cor gs .black (n + 1)) :
    Inserido (rodar g.side.flip ((a.setCor p .black).setCor g.at' .red) g.at') t
      (⟨s, p, .join s.flip g.at' g.sib w⟩ :: gs) x n ∧
      (rodar g.side.flip ((a.setCor p .black).setCor g.at' .red) g.at').cor p = .black := by
  subst hs
  have hup := h.focus.up
  obtain ⟨⟨hpt, hpw, hpg, hpn, hpr⟩, hww⟩ := h.focus.frame
  obtain ⟨⟨hgt, hgs', hgg, hgn, hgr⟩, hsib⟩ := hup.frame
  simp only [Shape.mem_join, not_or] at hgt
  have hcor : ∀ q, (rodar g.side.flip ((a.setCor p .black).setCor g.at' .red) g.at').cor q =
      if q = g.at' then .red else if q = p then .black else a.cor q := by
    intro q
    rw [rodar_cor, setCor_cor, setCor_cor]
  have hkeep : ∀ q, q ≠ g.at' → q ≠ p →
      (rodar g.side.flip ((a.setCor p .black).setCor g.at' .red) g.at').cor q = a.cor q := by
    intro q h1 h2
    rw [hcor, if_neg h1, if_neg h2]
  have hne : ∀ (q : ℕ) (l : List ℕ), q ∉ l → ∀ q' ∈ l, q' ≠ q := by
    rintro q l hq q' hq' rfl
    exact hq hq'
  have hpsib : p ∉ g.sib.toList ∧ p ∉ around gs :=
    ⟨fun hm => hpg (mem_around_cons.mpr (.inr (.inl hm))),
      fun hm => hpg (mem_around_cons.mpr (.inr (.inr hm)))⟩
  -- the rotation
  have hrot : Focus ((a.setCor p .black).setCor g.at' .red).toLinks nil raiz
      (.join g.side.flip g.at' g.sib (.join g.side.flip p w t)) gs g.at' := by
    rw [Shape.join_flip, Shape.join_flip]
    exact hup.up
  have hnew := rodar_focus hrot
  rw [Shape.join_flip] at hnew
  have hfocus := hnew.down
  rw [h.focus.inside.root_unique hfocus.inside] at hfocus
  have hblack : (rodar g.side.flip ((a.setCor p .black).setCor g.at' .red) g.at').cor p =
      .black := by rw [hcor, if_neg (fun he => hgt.1 he.symm), if_pos rfl]
  refine ⟨⟨hfocus, ?_, ?_, .red, .black hblack (.join_red ?_ ?_ ?_) ?_⟩, hblack⟩
  · have := (h.sentinelas.setCor hpn hpr .black).setCor hgn hgr .red
    exact ⟨by rw [rodar_cor]; exact this.nil, by rw [rodar_cor]; exact this.raiz⟩
  · exact h.red.congr fun q hq => hkeep q (hne _ _ hgt.2.1 q hq) (hne _ _ hpt q hq)
  · rw [hcor, if_pos rfl]
  · exact hg.congr fun q hq => hkeep q (hne _ _ hgs' q hq) (hne _ _ hpsib.1 q hq)
  · exact hw.congr fun q hq => hkeep q (hne _ _ hgt.2.2 q hq) (hne _ _ hpw q hq)
  · exact hgs.congr fun q hq => hkeep q (hne _ _ hgg q hq) (hne _ _ hpsib.2 q hq)

/-- A black uncle and an inner child: a rotation makes it an outer one. -/
theorem dobrar {s : Side} {p : ℕ} {w : Shape ℕ} {g : Frame ℕ} {gs : List (Frame ℕ)}
    (h : Inserido a t (⟨s, p, w⟩ :: g :: gs) x n) (hs : s = g.side.flip)
    (hp : a.cor p = .red) (hw : Balanced a.cor w .black n) :
    ∃ u v, t = .join g.side x u v ∧ a.cor x = .red ∧ Balanced a.cor v .black n ∧
      Inserido (rodar g.side a p) (.join g.side p w u) (⟨g.side, x, v⟩ :: g :: gs) p n := by
  subst hs
  obtain ⟨x', u, v, rfl⟩ := h.red.exists_join (.inr rfl) g.side
  obtain ⟨rfl, -⟩ := linked_join.mp h.focus.inside
  obtain ⟨hx, hu, hv⟩ := h.red.of_join_red
  have hup := h.focus.up
  dsimp only at hup
  rw [Shape.join_flip] at hup
  have hnew := (rodar_focus hup).down
  have hroot := linked_join.mp hnew.inside
  rw [hroot.1] at hnew
  obtain ⟨c, hfits⟩ := h.fits
  have hg : Fits a.cor (g :: gs) .red n := by
    cases hfits with
    | black hf _ _ =>
        rw [hp] at hf
        exact Color.noConfusion hf
    | red _ _ hfs => exact hfs
  refine ⟨u, v, rfl, hx, hv, hnew, ?_, ?_, .black, ?_⟩
  · exact ⟨by rw [rodar_cor]; exact h.sentinelas.nil, by rw [rodar_cor]; exact h.sentinelas.raiz⟩
  · rw [rodar_cor]
    exact .join_red hp hw hu
  · rw [rodar_cor]
    exact .red hx hv hg

theorem grandparent_eq {f g : Frame ℕ} {gs : List (Frame ℕ)}
    (h : Inserido a t (f :: g :: gs) x n) : a.parent f.at' = g.at' := h.focus.outside.2.1

/-- The rotations of one turn. -/
theorem rotacoes {f g : Frame ℕ} {gs : List (Frame ℕ)} (h : Inserido a t (f :: g :: gs) x n)
    (hr : a.cor f.at' = .red) (hf : Balanced a.cor f.sib .black n)
    (hg : Balanced a.cor g.sib .black n) (hgs : Fits a.cor gs .black (n + 1))
    (hy : a.cor (a.child g.side.flip g.at') = .black) :
    ∃ t' fs' n', Inserido (passoInserir g.side a x).1 t' fs' (passoInserir g.side a x).2 n' ∧
      (passoInserir g.side a x).1.cor (parentOf raiz fs') = .black ∧
      (PointerTree.fill t' fs').toList = (PointerTree.fill t (f :: g :: gs)).toList ∧
      SameNodes a (passoInserir g.side a x).1 := by
  have hpar : a.parent x = f.at' := h.parent_eq
  have hxn := h.focus.ne_nil h.mem
  obtain ⟨s, p, w⟩ := f
  simp only [passoInserir, hpar, h.grandparent_eq, hy, reduceCtorEq, if_false]
  rcases Side.eq_or_eq_flip g.side s with rfl | hs
  · have hside : ¬ x = a.child g.side.flip p := fun he =>
      Side.ne_flip _ ((h.focus.side_iff (.inl hxn) g.side.flip).mp he)
    obtain ⟨hnew, hblack⟩ := h.fechar rfl hf hg hgs
    simp only [hside, if_false, hpar, setCor_toLinks, h.grandparent_eq]
    refine ⟨_, _, n, hnew, hblack, toList_fill_congr ?_ gs, ?_⟩
    · dsimp only
      rw [Shape.join_flip]
      exact (Shape.toList_rotate ..).symm
    · exact ((SameNodes.setCor ..).trans (SameNodes.setCor ..)).trans (rodar_sameNodes ..)
  · have hside : x = a.child g.side.flip p := ((h.focus.side_iff (.inl hxn) g.side.flip).mpr hs)
    obtain ⟨u, v, rfl, hx, hv, hin⟩ := h.dobrar hs hr hf
    have hpar' : (rodar g.side a p).parent p = x := hin.parent_eq
    have hgp' : (rodar g.side a p).parent x = g.at' := hin.grandparent_eq
    obtain ⟨hnew, hblack⟩ := hin.fechar rfl (by rw [rodar_cor]; exact hv)
      (by rw [rodar_cor]; exact hg) (by rw [rodar_cor]; exact hgs)
    simp only [if_pos hside, hpar', setCor_toLinks, hgp']
    refine ⟨_, _, n, hnew, hblack, toList_fill_congr ?_ gs, ?_⟩
    · subst hs
      cases g.side <;> simp [Shape.join, Side.flip]
    · exact (rodar_sameNodes ..).trans (((SameNodes.setCor ..).trans (SameNodes.setCor ..)).trans
        (rodar_sameNodes ..))

/-- One turn of the loop: the climb goes on at the grandparent, or is over. -/
theorem passo {s : Side} (h : Inserido a t fs x n) (hr : a.cor (a.parent x) = .red)
    (hs : s = if a.parent x = a.esq (a.parent (a.parent x)) then .left else .right) :
    ∃ t' fs' n', Inserido (passoInserir s a x).1 t' fs' (passoInserir s a x).2 n' ∧
      (fs'.length < fs.length ∨ (passoInserir s a x).1.cor (parentOf raiz fs') = .black) ∧
      (PointerTree.fill t' fs').toList = (PointerTree.fill t fs).toList ∧
      SameNodes a (passoInserir s a x).1 := by
  obtain ⟨f, g, gs, c, rfl, hf, hfsib, hg, hgsib, hgs⟩ := h.exists_frames hr
  have hpar : a.parent x = f.at' := h.parent_eq
  obtain ⟨⟨-, -, -, hfn, -⟩, -⟩ := h.focus.frame
  have hside : s = g.side := by
    have hiff := h.focus.up.side_iff (.inl hfn) .left
    rw [hs, hpar, h.grandparent_eq]
    exact Side.ite_eq hiff.symm
  subst hside
  obtain ⟨-, -, hylink, -⟩ := h.focus.up.outside
  have hcy := hgsib.color_root hylink h.sentinelas.nil
  cases c with
  | black =>
      obtain ⟨t', fs', n', hi, hb, hl, hsame⟩ := h.rotacoes hf hfsib hgsib hgs hcy
      exact ⟨t', fs', n', hi, .inr hb, hl, hsame⟩
  | red =>
      have hnew := h.subir hfsib hgsib hgs hcy
      simp only [passoInserir, hpar, h.grandparent_eq, hcy, if_true, setCor_toLinks]
      refine ⟨_, gs, n + 1, hnew, .inl ?_, rfl, ?_⟩
      · simp only [List.length_cons]
        omega
      · exact ((SameNodes.setCor ..).trans (SameNodes.setCor ..)).trans (SameNodes.setCor ..)

theorem parar (h : Inserido a t fs x n) (hb : a.cor (parentOf raiz fs) = .black) (fuel : ℕ) :
    repararInserido fuel a x = a := by
  cases fuel with
  | zero => rfl
  | succ fuel =>
      rw [repararInserido, h.parent_eq, hb]
      rfl

/-- The loop stops under a black parent. -/
theorem loop (fuel : ℕ) (h : Inserido a t fs x n) (hfuel : fs.length ≤ fuel) :
    ∃ t' fs' x' n', Inserido (repararInserido fuel a x) t' fs' x' n' ∧
      (repararInserido fuel a x).cor (parentOf raiz fs') = .black ∧
      (PointerTree.fill t' fs').toList = (PointerTree.fill t fs).toList ∧
      SameNodes a (repararInserido fuel a x) := by
  induction fuel generalizing a t fs x n with
  | zero =>
      have hnil : fs = [] := List.length_eq_zero_iff.mp (by omega)
      subst hnil
      exact ⟨t, [], x, n, h, h.sentinelas.raiz, rfl, SameNodes.refl a⟩
  | succ fuel ih =>
      rw [repararInserido]
      split
      · rename_i hr
        have hpick : (if a.parent x = a.esq (a.parent (a.parent x)) then passoInserir .left a x
            else passoInserir .right a x) =
            passoInserir (if a.parent x = a.esq (a.parent (a.parent x)) then .left else .right)
              a x := by
          split <;> rfl
        obtain ⟨t₁, fs₁, n₁, h₁, hor, hlist₁, hsame₁⟩ := h.passo hr rfl
        dsimp only
        rw [hpick]
        rcases hor with hlt | hb
        · obtain ⟨t', fs', x', n', h', hb, hlist, hsame⟩ := ih h₁ (by omega)
          exact ⟨t', fs', x', n', h', hb, hlist.trans hlist₁, hsame₁.trans hsame⟩
        · rw [h₁.parar hb]
          exact ⟨t₁, fs₁, _, n₁, h₁, hb, hlist₁, hsame₁⟩
      · rename_i hb
        rw [h.parent_eq] at hb
        refine ⟨t, fs, x, n, h, ?_, rfl, SameNodes.refl a⟩
        cases hc : a.cor (parentOf raiz fs) with
        | black => rfl
        | red => exact absurd hc hb

/-- The root painted black ends the insertion. -/
theorem pintar (h : Inserido a t fs x n) (hb : a.cor (parentOf raiz fs) = .black) :
    ∃ m, Balanced (a.setCor (a.esq raiz) .black).cor (PointerTree.fill t fs) .black m := by
  have hwhole := h.focus.fill
  cases fs with
  | nil =>
      have hroot : a.esq raiz = x := h.focus.child_slot
      obtain ⟨p, u, w, rfl⟩ := h.red.exists_join (.inr rfl) .left
      obtain ⟨rfl, -⟩ := linked_join.mp h.focus.inside
      obtain ⟨⟨hu, hw⟩, -⟩ := Shape.nodup_join.mp h.focus.nodup_focus
      refine ⟨n + 1, h.red.paint ?_ (fun q hq => ?_) fun q hq => ?_⟩
      · rw [hroot, setCor_cor, if_pos rfl]
      · rw [hroot, setCor_cor, if_neg fun (he : q = x) => hu (he ▸ hq)]
      · rw [hroot, setCor_cor, if_neg fun (he : q = x) => hw (he ▸ hq)]
  | cons f fs =>
      obtain ⟨c, hfits⟩ := h.fits
      have hfits' : Fits a.cor (f :: fs) .red n := by
        cases hfits with
        | black hf hsib hfs => exact .black hf hsib hfs
        | red hf hsib hfs =>
            rw [parentOf, hf] at hb
            exact Color.noConfusion hb
      obtain ⟨m, hbal⟩ := hfits'.fill h.red
      have hroot : a.cor (a.esq raiz) = .black := hbal.color_root hwhole.inside h.sentinelas.nil
      have hsame : (a.setCor (a.esq raiz) .black).cor = a.cor := by
        funext q
        rw [setCor_cor]
        split
        · rename_i he
          rw [he, hroot]
        · rfl
      exact ⟨m, hsame ▸ hbal⟩

end Inserido

/-! ## The place of a new node -/

section Descer

variable {a : ArvoreRB α} {k : ℤ} {t : Shape ℕ} {fs : List (Frame ℕ)} {x : ℕ}

/-- Every turn taken on the way down is the one that the comparison asks for. -/
def Caminho (a : ArvoreRB α) (k : ℤ) (fs : List (Frame ℕ)) : Prop :=
  ∀ f ∈ fs, f.side = .left ↔ comparar (a.chave f.at') k = 1

/-- The descent ends at an empty place. -/
theorem descer_focus (fuel : ℕ) (h : Focus a.toLinks nil raiz t fs x)
    (hpath : Caminho a k fs) (hfuel : t.toList.length ≤ fuel) :
    ∃ fs', Focus a.toLinks nil raiz .nil fs' nil ∧ Caminho a k fs' ∧
      PointerTree.fill .nil fs' = PointerTree.fill t fs ∧
      descer a k fuel (parentOf raiz fs) x = parentOf raiz fs' := by
  induction t generalizing fs x fuel with
  | nil =>
      obtain rfl : x = nil := h.inside
      refine ⟨fs, h, hpath, rfl, ?_⟩
      cases fuel with
      | zero => rfl
      | succ fuel => rw [descer, if_pos rfl]
  | node p l r ihl ihr =>
      obtain rfl : x = p := h.inside.1
      have hx : x ≠ nil := h.ne_nil (by simp)
      simp only [Shape.toList_node, List.length_append, List.length_cons] at hfuel
      obtain ⟨fuel, rfl⟩ : ∃ n, fuel = n + 1 := ⟨fuel - 1, by omega⟩
      rw [descer, if_neg hx]
      split
      · rename_i hc
        have hdown : Focus a.toLinks nil raiz l (⟨.left, x, r⟩ :: fs) (a.esq x) :=
          Focus.down (s := .left) h
        have hpath' : Caminho a k (⟨.left, x, r⟩ :: fs) :=
          List.forall_mem_cons.mpr ⟨iff_of_true rfl hc, hpath⟩
        exact ihl fuel hdown hpath' (by omega)
      · rename_i hc
        have hdown : Focus a.toLinks nil raiz r (⟨.right, x, l⟩ :: fs) (a.dir x) :=
          Focus.down (s := .right) h
        have hpath' : Caminho a k (⟨.right, x, l⟩ :: fs) :=
          List.forall_mem_cons.mpr ⟨iff_of_false (by simp) hc, hpath⟩
        exact ihr fuel hdown hpath' (by omega)

theorem comparar_eq_one {A B : ℤ} (hA : 0 ≤ A) : comparar A B = 1 ↔ B < A := by
  unfold comparar
  by_cases hlt : B < A
  · rw [if_pos (.inl hlt)]
    exact iff_of_true rfl hlt
  · rw [if_neg (by omega)]
    refine iff_of_false ?_ hlt
    split <;> decide

/-- In a tree in order, the descent passes the keys up to `k` on one side and the greater ones
on the other. -/
theorem Caminho.separa (hpath : Caminho a k fs)
    (hnon : ∀ p ∈ around fs, 0 ≤ a.chave p)
    (hsort : ((before fs ++ behind fs).map a.chave).Pairwise (· ≤ ·)) :
    (∀ p ∈ before fs, a.chave p ≤ k) ∧ ∀ p ∈ behind fs, k < a.chave p := by
  induction fs with
  | nil => simp [before, behind]
  | cons f fs ih =>
      obtain ⟨hturn, hrestpath⟩ := List.forall_mem_cons.mp hpath
      have hnon' : ∀ p ∈ around fs, 0 ≤ a.chave p := fun p hp =>
        hnon p (mem_around_cons.mpr (.inr (.inr hp)))
      have hf := hnon f.at' (mem_around_cons.mpr (.inl rfl))
      rw [comparar_eq_one hf] at hturn
      obtain ⟨s, p, w⟩ := f
      cases s with
      | left =>
          have hk : k < a.chave p := hturn.mp rfl
          simp only [before, behind, List.map_append, List.map_cons] at hsort
          rw [List.pairwise_append, List.cons_append, List.pairwise_cons] at hsort
          obtain ⟨hbef, ⟨hp, hrest⟩, hcross⟩ := hsort
          have hsort' : ((before fs ++ behind fs).map a.chave).Pairwise (· ≤ ·) := by
            rw [List.map_append, List.pairwise_append]
            refine ⟨hbef, (List.pairwise_append.mp hrest).2.1, fun y hy z hz => hcross y hy z ?_⟩
            simp [hz]
          obtain ⟨hb, ha⟩ := ih hrestpath hnon' hsort'
          refine ⟨hb, fun q hq => ?_⟩
          simp only [behind, List.cons_append, List.mem_cons, List.mem_append] at hq
          rcases hq with rfl | hq | hq
          · exact hk
          · exact Int.lt_of_lt_of_le hk (hp _ (by simp [List.mem_map_of_mem hq]))
          · exact ha q hq
      | right =>
          have hk : a.chave p ≤ k := Int.not_lt.mp fun hlt => Side.noConfusion (hturn.mpr hlt)
          simp only [before, behind, List.map_append, List.map_cons, List.map_nil] at hsort
          rw [List.append_assoc, List.pairwise_append] at hsort
          obtain ⟨hbef, hrest, hcross⟩ := hsort
          rw [List.append_assoc, List.singleton_append, List.pairwise_append,
            List.pairwise_cons] at hrest
          obtain ⟨-, ⟨-, hbeh⟩, hw⟩ := hrest
          have hsort' : ((before fs ++ behind fs).map a.chave).Pairwise (· ≤ ·) := by
            rw [List.map_append, List.pairwise_append]
            refine ⟨hbef, hbeh, fun y hy z hz => hcross y hy z ?_⟩
            simp [hz]
          obtain ⟨hb, ha⟩ := ih hrestpath hnon' hsort'
          refine ⟨fun q hq => ?_, ha⟩
          simp only [before, List.mem_append, List.mem_singleton] at hq
          rcases hq with hq | hq | rfl
          · exact hb q hq
          · exact Int.le_trans (hw _ (List.mem_map_of_mem hq) _ (by simp)) hk
          · exact hk

end Descer

/-! ## The whole insertion -/

section Inserir

variable {a : ArvoreRB α} {t : Shape ℕ}

theorem inserirNoAux_sameNodes (a : ArvoreRB α) (z : ℕ) : SameNodes a (inserirNoAux a z) := by
  simp only [inserirNoAux]
  split_ifs <;> exact ⟨rfl, rfl, rfl, rfl, rfl⟩

theorem inserirNoAux_cor (a : ArvoreRB α) (z : ℕ) : (inserirNoAux a z).cor = a.cor := by
  simp only [inserirNoAux]
  split_ifs <;> rfl

/-- The new node hangs from an empty place, on the way that the comparisons take. -/
theorem Arvore.inserirNoAux_focus (h : Arvore a t) (k : ℤ) (e : α) (tid : ℤ) :
    ∃ fs, PointerTree.fill .nil fs = t ∧ Caminho a k fs ∧
      Focus (inserirNoAux (criarNo a k e tid) a.prox).toLinks nil raiz (.node a.prox .nil .nil) fs
        a.prox := by
  have hz := h.prox_notMem
  have hres := h.reservado
  have hzn : a.prox ≠ nil := Nat.ne_of_gt (Nat.lt_of_lt_of_le (by decide) hres)
  have hzr : a.prox ≠ raiz := Nat.ne_of_gt (Nat.lt_of_lt_of_le (by decide) hres)
  generalize hb : ((criarNo a k e tid).setChild .left a.prox nil).setChild .right a.prox nil = b
  have hchild : ∀ s p, p ≠ a.prox → b.child s p = a.child s p := by
    intro s p hp
    rw [← hb]
    simp [criarNo, hp]
  have hleaf : ∀ s, b.child s a.prox = nil := by
    intro s
    rw [← hb]
    cases s <;> simp
  have hpar : b.parent = a.parent := by rw [← hb]; rfl
  have hkey : ∀ p, b.chave p = if p = a.prox then k else a.chave p := by
    intro p
    rw [← hb]
    exact Function.update_apply ..
  have hprox : b.prox = a.prox + 1 := by rw [← hb]; rfl
  have hroot : b.esq raiz = a.esq raiz := hchild .left raiz hzr.symm
  have hfocus : Focus b.toLinks nil raiz t [] (b.esq raiz) := by
    rw [hroot]
    refine h.focus.congr (fun s p hp => hchild s p ?_) fun p _ => by rw [hpar]
    rintro rfl
    rcases hp with hp | hp
    · exact hzr hp
    · rcases List.mem_append.mp hp with hp | hp
      · exact hz hp
      · simp [around, before, behind] at hp
  obtain ⟨fs, hhole, hpath, hfill, hdesc⟩ := descer_focus (k := k) b.prox hfocus
    (fun f hf => absurd hf List.not_mem_nil) (by rw [hprox]; have := h.length_le; omega)
  rw [PointerTree.fill] at hfill
  have hmem : ∀ p, p ∈ t.toList ↔ p ∈ around fs := by
    intro p
    rw [← hfill, (perm_fill .nil fs).mem_iff]
    simp
  have hat : ∀ f ∈ fs, f.at' ∈ t.toList := fun f hf => (hmem _).mpr (mem_around_of_mem hf)
  refine ⟨fs, hfill, fun f hf => ?_, ?_⟩
  · have hne : f.at' ≠ a.prox := fun he => hz (he ▸ hat f hf)
    have hturn := hpath f hf
    rwa [hkey, if_neg hne] at hturn
  -- the place that the last comparison picks
  have hside : (if parentOf raiz fs = raiz ∨ comparar (b.chave (parentOf raiz fs)) k = 1 then
      Side.left else .right) = sideOf fs := by
    cases fs with
    | nil => rw [if_pos (.inl rfl)]; rfl
    | cons f fs =>
        refine Side.ite_eq ?_
        rw [parentOf, or_iff_right (h.ne_raiz (hat f List.mem_cons_self))]
        exact hpath f List.mem_cons_self
  have hbz : b.chave a.prox = k := by rw [hkey, if_pos rfl]
  have hyz : parentOf raiz fs ≠ a.prox := by
    rcases parentOf_mem raiz fs with he | hm
    · rw [he]
      exact hzr.symm
    · exact fun he => hz ((hmem _).mpr (he ▸ hm))
  have hnew : (inserirNoAux (criarNo a k e tid) a.prox).toLinks =
      ((b.setPai a.prox (parentOf raiz fs)).setChild (sideOf fs) (parentOf raiz fs)
        a.prox).toLinks := by
    have hdesc' : descer b k b.prox raiz (b.esq raiz) = parentOf raiz fs := hdesc
    rw [← hside]
    simp only [inserirNoAux, hb, setPai_chave, hdesc', hbz]
    split <;> rfl
  rw [hnew]
  have hbound : ∀ p, p ∈ around fs → p ≠ a.prox := fun p hp he => hz ((hmem _).mpr (he ▸ hp))
  refine hhole.replace ⟨rfl, ?_, ?_, ?_⟩ ?_ (fun s p hp hne => ?_) (fun p hp => ?_) ?_ ?_ ?_
  · simp
  · simp only [setChild_child, setPai_child, hleaf, Linked]
    rw [if_neg fun he => hyz he.2.symm]
  · simp only [setChild_child, setPai_child, hleaf, Linked]
    rw [if_neg fun he => hyz he.2.symm]
  · simp
  · rw [setChild_child, if_neg fun he => hne (Prod.ext he.1 he.2)]
    rfl
  · rw [setChild_parent, setPai_parent, if_neg (hbound p hp)]
  · have hnd := hhole.nodup
    simpa using ⟨fun hm => hbound _ hm rfl, hnd⟩
  · simpa using hzn.symm
  · simpa using hzr.symm

/-- The new node is a red leaf, where the repair starts. -/
theorem Arvore.inserirNoAux_inserido (h : Arvore a t) (k : ℤ) (e : α) (tid : ℤ) :
    ∃ fs, PointerTree.fill .nil fs = t ∧ Caminho a k fs ∧
      Inserido (inserirNoAux (criarNo a k e tid) a.prox) (.node a.prox .nil .nil) fs a.prox 0 := by
  obtain ⟨fs, hfill, hpath, hfocus⟩ := h.inserirNoAux_focus k e tid
  have hcor : ∀ q, (inserirNoAux (criarNo a k e tid) a.prox).cor q =
      if q = a.prox then .red else a.cor q := by
    intro q
    rw [inserirNoAux_cor]
    exact Function.update_apply ..
  have hkeep : ∀ q, q ≠ a.prox → (inserirNoAux (criarNo a k e tid) a.prox).cor q = a.cor q :=
    fun q hq => by rw [hcor, if_neg hq]
  have hz := h.prox_notMem
  have hres := h.reservado
  refine ⟨fs, hfill, hpath, hfocus, ⟨?_, ?_⟩, .red ?_ .nil .nil, ?_⟩
  · rw [hkeep _ (by simp only [nil]; omega), h.sentinelas.nil]
  · rw [hkeep _ (by simp only [raiz]; omega), h.sentinelas.raiz]
  · rw [hcor, if_pos rfl]
  · obtain ⟨m, hbal⟩ := h.balanced
    rw [← hfill] at hbal
    obtain ⟨c, n, hfits, hn⟩ := Fits.of_fill hbal
    cases hn
    refine ⟨_, hfits.congr fun q hq => hkeep q ?_⟩
    rintro rfl
    refine hz ?_
    rw [← hfill, (perm_fill .nil fs).mem_iff]
    simpa using hq

/-- What `RBInserirNo` writes to `minimo`. -/
def novoMinimo (a : ArvoreRB α) (k : ℤ) : Option ℕ :=
  match a.minimo with
  | none => some a.prox
  | some m => if comparar (a.chave m) k = 1 then some a.prox else some m

/-- `RBInserirNo`: the new node stands in order where the comparisons lead. -/
theorem Arvore.inserir (h : Arvore a t) (hmin : ∀ m, a.minimo = some m → m ≠ a.prox) (k : ℤ)
    (e : α) (tid : ℤ) :
    ∃ t' fs, PointerTree.fill .nil fs = t ∧ Caminho a k fs ∧
      Arvore (rbInserirNo a k tid e) t' ∧ t'.toList = before fs ++ a.prox :: behind fs ∧
      (rbInserirNo a k tid e).chave = Function.update a.chave a.prox k ∧
      (rbInserirNo a k tid e).elem = Function.update a.elem a.prox (some e) ∧
      (rbInserirNo a k tid e).tid = Function.update a.tid a.prox tid ∧
      (rbInserirNo a k tid e).prox = a.prox + 1 ∧
      (rbInserirNo a k tid e).minimo = novoMinimo a k := by
  obtain ⟨fs, hfill, hpath, hins⟩ := h.inserirNoAux_inserido k e tid
  have hsame := inserirNoAux_sameNodes (criarNo a k e tid) a.prox
  have hz := h.prox_notMem
  have hres := h.reservado
  have hfs : fs.length ≤ (inserirNoAux (criarNo a k e tid) a.prox).prox := by
    have hle := length_le_around fs
    have ht := h.length_le
    rw [← hfill, (perm_fill .nil fs).length_eq] at ht
    rw [hsame.prox]
    simp only [Shape.toList_nil, List.nil_append] at ht
    exact Nat.le_succ_of_le (Nat.le_trans hle ht)
  obtain ⟨t', fs', x', n', hend, hblack, hlist, hsame'⟩ := hins.loop _ hfs
  generalize hd : repararInserido (inserirNoAux (criarNo a k e tid) a.prox).prox
    (inserirNoAux (criarNo a k e tid) a.prox) a.prox = d at hend hblack hsame'
  have htab := hsame.trans hsame'
  have hr : rbInserirNo a k tid e =
      { d.setCor (d.esq raiz) .black with minimo := novoMinimo a k } := by
    have hkz : d.chave a.prox = k := by
      rw [htab.chave]
      exact Function.update_self ..
    have hdmin : d.minimo = a.minimo := htab.minimo
    simp only [rbInserirNo, hd, setCor_minimo, hdmin, novoMinimo]
    cases hm : a.minimo with
    | none => rfl
    | some m =>
        have hkm : d.chave m = a.chave m := by
          rw [htab.chave]
          exact Function.update_of_ne (hmin m hm) ..
        dsimp only
        rw [setCor_chave, hkz, hkm]
        split
        · rfl
        · rw [← hm, ← hdmin]
          rfl
  rw [hr]
  have hlist' : (PointerTree.fill t' fs').toList = before fs ++ a.prox :: behind fs := by
    rw [hlist, toList_fill]
    simp
  have hwhole := hend.focus.fill
  have hroot : d.esq raiz ≠ nil ∧ d.esq raiz ≠ raiz := by
    have hne : d.esq raiz ∈ (PointerTree.fill t' fs').toList := by
      cases ht : PointerTree.fill t' fs' with
      | nil => simp [ht] at hlist'
      | node p l r =>
          have hp := hwhole.inside
          rw [ht] at hp
          have hp : d.esq raiz = p := hp.1
          simp [hp]
    exact ⟨hwhole.ne_nil hne, hwhole.ne_top hne⟩
  refine ⟨PointerTree.fill t' fs', fs, hfill, hpath, ⟨hwhole, ?_, ?_, ?_, ?_, ?_⟩, hlist',
    htab.chave, htab.elem, htab.tid, htab.prox, rfl⟩
  · have := hend.sentinelas.setCor hroot.1 hroot.2 .black
    exact ⟨this.nil, this.raiz⟩
  · exact hend.pintar hblack
  · intro p hp
    have hprox : d.prox = a.prox + 1 := htab.prox
    rw [hlist', List.mem_append, List.mem_cons] at hp
    show p < d.prox
    rcases hp with hp | rfl | hp
    · have := h.alocado p (by rw [← hfill, toList_fill]; simp [hp])
      omega
    · omega
    · have := h.alocado p (by rw [← hfill, toList_fill]; simp [hp])
      omega
  · have hprox : d.prox = a.prox + 1 := htab.prox
    show 2 ≤ d.prox
    omega
  · show d.chave raiz = -1
    rw [htab.chave]
    exact (Function.update_of_ne (by simp only [raiz]; omega) ..).trans h.chave_raiz

end Inserir

end ThreadScheduler.SthreadLib
