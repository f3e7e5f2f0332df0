import ThreadScheduler.SthreadLib.RedBlackInsert

/-!
# The repair of a removal

The loop of `RepararEliminado` climbs with a tree that has one black node too few on every
path. Its brother is not empty then, so the code may read the children of the brother. The
loop may end with `x` set to a root that a rotation has moved down; that node is black.
-/
namespace ThreadScheduler.SthreadLib

open PointerTree RedBlack ArvoreRB

variable {α : Type*}

/-- What a repair of the tree over the nodes `l` leaves as it was: everything but the pointers
and the colours, and all pointers of the other nodes. -/
structure Mantem (l : List ℕ) (a b : ArvoreRB α) : Prop extends SameNodes a b where
  fora : ∀ q, q ∉ l → q ≠ raiz →
    (∀ m, b.child m q = a.child m q) ∧ b.parent q = a.parent q

namespace Mantem

variable {l l' : List ℕ} {a b c : ArvoreRB α}

theorem refl (l : List ℕ) (a : ArvoreRB α) : Mantem l a a :=
  ⟨SameNodes.refl a, fun _ _ _ => ⟨fun _ => rfl, rfl⟩⟩

theorem trans (h : Mantem l a b) (h' : Mantem l b c) : Mantem l a c := by
  refine ⟨h.toSameNodes.trans h'.toSameNodes, fun q hq hr => ?_⟩
  obtain ⟨hc, hp⟩ := h.fora q hq hr
  obtain ⟨hc', hp'⟩ := h'.fora q hq hr
  exact ⟨fun m => (hc' m).trans (hc m), hp'.trans hp⟩

theorem setCor (l : List ℕ) (a : ArvoreRB α) (p : ℕ) (c : Color) : Mantem l a (a.setCor p c) :=
  ⟨SameNodes.setCor a p c, fun _ _ _ => ⟨fun _ => rfl, rfl⟩⟩

theorem rodar {s : Side} {x y : ℕ} {A B C : Shape ℕ} {fs : List (Frame ℕ)}
    (h : Focus a.toLinks nil raiz (.join s x A (.join s y B C)) fs x)
    (hl : l = (PointerTree.fill (.join s x A (.join s y B C)) fs).toList) :
    Mantem l a (SthreadLib.rodar s a x) := by
  refine ⟨rodar_sameNodes s a x, fun q hq hr => rodar_outside h ?_ hr⟩
  rwa [hl, (perm_fill _ _).mem_iff] at hq

end Mantem

/-- The loop of `RepararEliminado` is at `x`, the root of `t`, which has one black node too few
on every path. -/
structure Eliminado (a : ArvoreRB α) (t : Shape ℕ) (fs : List (Frame ℕ)) (x : ℕ) (c : Color)
    (n : ℕ) : Prop where
  focus : Focus a.toLinks nil raiz t fs x
  sentinelas : Sentinelas a
  parent : a.parent x = parentOf raiz fs
  balanced : Balanced a.cor t c n
  fits : Fits a.cor fs .black (n + 1)

/-- The loop of `RepararEliminado` stops at `x`, and painting it black is all that is left to
do. -/
structure Terminado (a : ArvoreRB α) (T : Shape ℕ) (x fim : ℕ) : Prop where
  focus : Focus a.toLinks nil raiz T [] (a.esq raiz)
  sentinelas : Sentinelas a
  balanced : ∃ m, Balanced (a.setCor x .black).cor T .black m
  parou : a.cor x = .red ∨ fim = x

namespace Eliminado

variable {a : ArvoreRB α} {t W : Shape ℕ} {fs gs : List (Frame ℕ)} {x p n fim : ℕ} {c : Color}
  {s : Side}

/-- What hangs from the other side of the parent. -/
theorem irmao (h : Eliminado a t (⟨s, p, W⟩ :: gs) x c n) :
    ∃ c', Balanced a.cor W c' (n + 1) ∧ (a.cor p = .red ∧ c' = .black ∧ Fits a.cor gs .red (n + 1) ∨
      a.cor p = .black ∧ Fits a.cor gs .black (n + 2)) := by
  cases h.fits with
  | red hf hsib hfs => exact ⟨_, hsib, .inl ⟨hf, rfl, hfs⟩⟩
  | black hf hsib hfs => exact ⟨_, hsib, .inr ⟨hf, hfs⟩⟩

theorem linked_irmao (h : Eliminado a t (⟨s, p, W⟩ :: gs) x c n) :
    Linked a.toLinks nil W (a.child s.flip p) p := h.focus.outside.2.2.1

theorem parent_eq (h : Eliminado a t (⟨s, p, W⟩ :: gs) x c n) : a.parent x = p := h.parent

/-- The parent of `x` is what it was, after a rotation elsewhere: also when `x` is the
sentinel. -/
theorem parent_of {b : ArvoreRB α} {t' : Shape ℕ} {fs' gs' : List (Frame ℕ)}
    (h : Eliminado a t fs x c n) (hf : Focus b.toLinks nil raiz t fs' x)
    (hm : Mantem (PointerTree.fill t' gs').toList a b) (hn : nil ∉ (PointerTree.fill t' gs').toList)
    (hsame : parentOf raiz fs' = parentOf raiz fs) : b.parent x = parentOf raiz fs' := by
  by_cases hx : x = nil
  · rw [hsame, ← h.parent, hx]
    exact (hm.fora nil hn (by decide)).2
  · exact hf.inside.parent_root (hf.inside.mem_of_ne_nil hx)

theorem nil_notMem (h : Eliminado a t fs x c n) : nil ∉ (PointerTree.fill t fs).toList := by
  rw [(perm_fill _ _).mem_iff]
  exact h.focus.nil_notMem

/-- A red brother is rotated up. -/
theorem irmao_vermelho (h : Eliminado a t (⟨s, p, W⟩ :: gs) x c n)
    (hw : a.cor (a.child s.flip p) = .red) :
    ∃ b w u v, W = .join s w u v ∧ irmaoPreto s a x = (b, b.child s.flip p) ∧
      Eliminado b t (⟨s, p, u⟩ :: ⟨s, w, v⟩ :: gs) x c n ∧ Balanced b.cor u .black (n + 1) ∧
      Mantem (PointerTree.fill t (⟨s, p, W⟩ :: gs)).toList a b ∧
      ∀ q, b.cor q = if q = p then .red else if q = w then .black else a.cor q := by
  obtain ⟨c', hW, hfits⟩ := h.irmao
  obtain rfl : .red = c' := hw.symm.trans (hW.color_root h.linked_irmao h.sentinelas.nil)
  obtain ⟨w, u, v, rfl⟩ := hW.exists_join (.inr rfl) s
  obtain ⟨hwp, -⟩ := linked_join.mp h.linked_irmao
  obtain ⟨-, hu, hv⟩ := hW.of_join_red
  obtain ⟨hp, hgs⟩ : a.cor p = .black ∧ Fits a.cor gs .black (n + 2) := by
    rcases hfits with ⟨-, he, -⟩ | hblack
    · exact Color.noConfusion he
    · exact hblack
  obtain ⟨⟨hpt, hpW, hpg, hpn, hpr⟩, hWs⟩ := h.focus.frame
  obtain ⟨hwt, hwg, hwn, hwr⟩ := hWs w (by simp)
  obtain ⟨⟨hwu, hwv⟩, -⟩ := Shape.nodup_join.mp
    (Shape.nodup_join.mp h.focus.up.nodup_focus).2.2.1
  have hup : Focus ((a.setCor w .black).setCor p .red).toLinks nil raiz
      (.join s p t (.join s w u v)) gs p := h.focus.up
  have hrot := (rodar_focus hup).down.down
  have hcor : ∀ q, (rodar s ((a.setCor w .black).setCor p .red) p).cor q =
      if q = p then .red else if q = w then .black else a.cor q := by
    intro q
    rw [rodar_cor, setCor_cor, setCor_cor]
  have hm : Mantem (PointerTree.fill t (⟨s, p, .join s w u v⟩ :: gs)).toList a
      (rodar s ((a.setCor w .black).setCor p .red) p) :=
    ((Mantem.setCor _ _ _ _).trans (Mantem.setCor _ _ _ _)).trans (Mantem.rodar hup rfl)
  have hkeep : ∀ q, q ≠ p → q ≠ w →
      (rodar s ((a.setCor w .black).setCor p .red) p).cor q = a.cor q := by
    intro q h1 h2
    rw [hcor, if_neg h1, if_neg h2]
  have hne : ∀ (q : ℕ) (l : List ℕ), q ∉ l → ∀ q' ∈ l, q' ≠ q := by
    rintro q l hq q' hq' rfl
    exact hq hq'
  have hx := h.focus.inside.root_unique hrot.inside
  rw [hx] at hrot
  have hublack : Balanced (rodar s ((a.setCor w .black).setCor p .red) p).cor u .black (n + 1) :=
    hu.congr fun q hq => hkeep q (fun he => hpW (by simp [← he, hq])) (hne _ _ hwu q hq)
  have hpar : (rodar s ((a.setCor w .black).setCor p .red) p).parent x = p :=
    h.parent_of hrot hm h.nil_notMem rfl
  rw [hwp] at hw
  refine ⟨_, w, u, v, rfl, ?_, ⟨hrot, ?_, hpar, ?_, ?_⟩, hublack, hm, hcor⟩
  · simp only [irmaoPreto, h.parent_eq, hwp, hw, if_true, setCor_toLinks, hpar]
  · have := (h.sentinelas.setCor hwn hwr .black).setCor hpn hpr .red
    exact ⟨by rw [rodar_cor]; exact this.nil, by rw [rodar_cor]; exact this.raiz⟩
  · exact h.balanced.congr fun q hq => hkeep q (hne _ _ hpt q hq) (hne _ _ hwt q hq)
  · refine .red ?_ hublack (.black ?_ (?_ : Balanced _ v .black (n + 1)) ?_)
    · rw [hcor, if_pos rfl]
    · rw [hcor, if_neg (fun (he : w = p) => hpW (by simp [he])), if_pos rfl]
    · exact hv.congr fun q hq => hkeep q (fun he => hpW (by simp [← he, hq])) (hne _ _ hwv q hq)
    · exact hgs.congr fun q hq => hkeep q (hne _ _ hpg q hq) (hne _ _ hwg q hq)

/-- A black brother with black children turns red under a black parent, and the parent is one
black node short. -/
theorem subir_preto {w : ℕ} {u v : Shape ℕ}
    (h : Eliminado a t (⟨s, p, .join s w u v⟩ :: gs) x c n) (hp : a.cor p = .black)
    (hu : Balanced a.cor u .black n) (hv : Balanced a.cor v .black n) :
    Eliminado (a.setCor w .red) (.join s p t (.join s w u v)) gs p .black (n + 1) := by
  obtain ⟨⟨hpt, hpW, hpg, hpn, hpr⟩, hWs⟩ := h.focus.frame
  obtain ⟨hwt, hwg, hwn, hwr⟩ := hWs w (by simp)
  obtain ⟨⟨hwu, hwv⟩, -⟩ := Shape.nodup_join.mp
    (Shape.nodup_join.mp h.focus.up.nodup_focus).2.2.1
  have hkeep : ∀ (l : List ℕ), w ∉ l → ∀ q ∈ l, (a.setCor w .red).cor q = a.cor q := by
    intro l hw q hq
    rw [setCor_cor, if_neg fun (he : q = w) => hw (he ▸ hq)]
  obtain ⟨c', hW, hfits⟩ := h.irmao
  have hgs : Fits a.cor gs .black (n + 2) := by
    rcases hfits with ⟨hred, -, -⟩ | ⟨-, hgs⟩
    · rw [hp] at hred
      exact Color.noConfusion hred
    · exact hgs
  refine ⟨h.focus.up, h.sentinelas.setCor hwn hwr .red, h.focus.outside.2.1, ?_, ?_⟩
  · refine .join_black ?_ (?_ : Balanced _ t c n) (.join_red ?_ ?_ ?_)
    · rw [setCor_cor, if_neg (fun (he : p = w) => hpW (by simp [he])), hp]
    · exact h.balanced.congr (hkeep _ hwt)
    · rw [setCor_cor, if_pos rfl]
    · exact hu.congr (hkeep _ hwu)
    · exact hv.congr (hkeep _ hwv)
  · exact hgs.congr (hkeep _ hwg)

/-- Under a red parent the loop is over, for the parent turns black. -/
theorem subir_vermelho {w : ℕ} {u v : Shape ℕ}
    (h : Eliminado a t (⟨s, p, .join s w u v⟩ :: gs) x c n) (hp : a.cor p = .red)
    (hu : Balanced a.cor u .black n) (hv : Balanced a.cor v .black n) :
    Terminado (a.setCor w .red) (PointerTree.fill t (⟨s, p, .join s w u v⟩ :: gs)) p fim := by
  obtain ⟨⟨hpt, hpW, hpg, hpn, hpr⟩, hWs⟩ := h.focus.frame
  obtain ⟨hwt, hwg, hwn, hwr⟩ := hWs w (by simp)
  obtain ⟨⟨hwu, hwv⟩, -⟩ := Shape.nodup_join.mp
    (Shape.nodup_join.mp h.focus.up.nodup_focus).2.2.1
  have hpw : p ≠ w := fun he => hpW (by simp [he])
  simp only [Shape.mem_join, not_or] at hpW
  have hkeep : ∀ (l : List ℕ), w ∉ l → p ∉ l → ∀ q ∈ l,
      ((a.setCor w .red).setCor p .black).cor q = a.cor q := by
    intro l hw hp q hq
    rw [setCor_cor, if_neg fun (he : q = p) => hp (he ▸ hq), setCor_cor,
      if_neg fun (he : q = w) => hw (he ▸ hq)]
  obtain ⟨c', hW, hfits⟩ := h.irmao
  have hgs : Fits a.cor gs .red (n + 1) := by
    rcases hfits with ⟨-, -, hgs⟩ | ⟨hblack, -⟩
    · exact hgs
    · rw [hp] at hblack
      exact Color.noConfusion hblack
  refine ⟨h.focus.fill, h.sentinelas.setCor hwn hwr .red, ?_, .inl ?_⟩
  · refine (hgs.of_red.congr (hkeep _ hwg hpg)).fill (.join_black ?_
      (?_ : Balanced _ t c n) (.join_red ?_ ?_ ?_))
    · rw [setCor_cor, if_pos rfl]
    · exact h.balanced.congr (hkeep _ hwt hpt)
    · rw [setCor_cor, if_neg hpw.symm, setCor_cor, if_pos rfl]
    · exact hu.congr (hkeep _ hwu hpW.2.1)
    · exact hv.congr (hkeep _ hwv hpW.2.2)
  · rw [setCor_cor, if_neg hpw, hp]

/-- A black brother whose inner child only is red: a rotation makes the outer child red. -/
theorem sobrinho {w : ℕ} {u v : Shape ℕ}
    (h : Eliminado a t (⟨s, p, .join s w u v⟩ :: gs) x c n)
    (hu : Balanced a.cor u .red n) (hv : Balanced a.cor v .black n) :
    ∃ b w' u' v', sobrinhoVermelho s a x w = (b, w') ∧
      Eliminado b t (⟨s, p, .join s w' u' v'⟩ :: gs) x c n ∧
      Balanced b.cor u' .black n ∧ Balanced b.cor v' .red n ∧
      (Shape.join s w' u' v').toList = (Shape.join s w u v).toList ∧
      Mantem (PointerTree.fill t (⟨s, p, .join s w u v⟩ :: gs)).toList a b ∧
      ∀ q, q ∉ (Shape.join s w u v).toList → b.cor q = a.cor q := by
  obtain ⟨y, C, B, rfl⟩ := hu.exists_join (.inr rfl) s
  obtain ⟨hyr, hC, hB⟩ := hu.of_join_red
  obtain ⟨⟨hpt, hpW, hpg, hpn, hpr⟩, hWs⟩ := h.focus.frame
  obtain ⟨hwt, hwg, hwn, hwr⟩ := hWs w (by simp)
  obtain ⟨hyt, hyg, hyn, hyr'⟩ := hWs y (by simp)
  obtain ⟨-, -, hndW, -⟩ := Shape.nodup_join.mp h.focus.up.nodup_focus
  obtain ⟨⟨hwY, hwv⟩, hndY, -, hYv⟩ := Shape.nodup_join.mp hndW
  obtain ⟨⟨hyC, hyB⟩, -⟩ := Shape.nodup_join.mp hndY
  have hyv : y ∉ v.toList := hYv y (by simp)
  obtain ⟨hwp, -, hYlink, hvlink⟩ := linked_join.mp h.linked_irmao
  obtain ⟨hyp, -⟩ := linked_join.mp hYlink
  have hvc : a.cor (a.child s.flip w) = .black := hv.color_root hvlink h.sentinelas.nil
  -- the rotation, seen from the brother
  have hdown : Focus ((a.setCor y .black).setCor w .red).toLinks nil raiz
      (.join s.flip w v (.join s.flip y B C)) (⟨s.flip, p, t⟩ :: gs) w := by
    have hup := h.focus.up
    dsimp only at hup
    rw [← Shape.join_flip] at hup
    have hfocus := hup.down
    rw [hwp] at hfocus
    rw [Shape.join_flip, Shape.join_flip]
    exact hfocus
  have hnew := (rodar_focus hdown).up
  dsimp only at hnew
  rw [Shape.join_flip, Shape.join_flip s y, Shape.join_flip s w] at hnew
  have hrot := hnew.down
  rw [h.focus.inside.root_unique hrot.inside] at hrot
  have hm : Mantem (PointerTree.fill t (⟨s, p, .join s w (.join s y C B) v⟩ :: gs)).toList a
      (rodar s.flip ((a.setCor y .black).setCor w .red) w) := by
    refine ((Mantem.setCor _ _ _ _).trans (Mantem.setCor _ _ _ _)).trans (Mantem.rodar hdown ?_)
    rw [Shape.join_flip, Shape.join_flip]
    refine toList_fill_congr ?_ gs
    dsimp only
    rw [Shape.join_flip]
  have hpar := h.parent_of hrot hm h.nil_notMem rfl
  have hcor : ∀ q, (rodar s.flip ((a.setCor y .black).setCor w .red) w).cor q =
      if q = w then .red else if q = y then .black else a.cor q := by
    intro q
    rw [rodar_cor, setCor_cor, setCor_cor]
  have hkeep : ∀ (l : List ℕ), w ∉ l → y ∉ l → ∀ q ∈ l,
      (rodar s.flip ((a.setCor y .black).setCor w .red) w).cor q = a.cor q := by
    intro l hw hy q hq
    rw [hcor, if_neg fun (he : q = w) => hw (he ▸ hq), if_neg fun (he : q = y) => hy (he ▸ hq)]
  simp only [Shape.mem_join, not_or] at hwY hpW
  have hCnew := hC.congr (hkeep _ hwY.2.1 hyC)
  have hFnew : Balanced (rodar s.flip ((a.setCor y .black).setCor w .red) w).cor
      (.join s w B v) .red n := by
    refine .join_red ?_ (hB.congr (hkeep _ hwY.2.2 hyB)) (hv.congr (hkeep _ hwv hyv))
    rw [hcor, if_pos rfl]
  have hyblack : (rodar s.flip ((a.setCor y .black).setCor w .red) w).cor y = .black := by
    rw [hcor, if_neg (fun (he : y = w) => hwY.1 he.symm), if_pos rfl]
  have hWnew : Balanced (rodar s.flip ((a.setCor y .black).setCor w .red) w).cor
      (.join s y C (.join s w B v)) .black (n + 1) := .join_black hyblack hCnew hFnew
  refine ⟨_, y, C, .join s w B v, ?_, ⟨hrot, ?_, hpar, ?_, ?_⟩, hCnew, hFnew, ?_, hm, ?_⟩
  · have hroot := linked_join.mp hrot.outside.2.2.1
    have hpar : (rodar s.flip ((a.setCor y .black).setCor w .red) w).parent x = p := hpar
    simp only [sobrinhoVermelho, hvc, if_true, hyp, hpar]
    exact Prod.ext rfl hroot.1
  · have := (h.sentinelas.setCor hyn hyr' .black).setCor hwn hwr .red
    exact ⟨by rw [rodar_cor]; exact this.nil, by rw [rodar_cor]; exact this.raiz⟩
  · exact h.balanced.congr (hkeep _ hwt hyt)
  · have hpc := hkeep [p] (by simpa using fun he => hpW.1 he.symm)
      (by simpa using fun he => hpW.2.1.1 he.symm) p (by simp)
    obtain ⟨c', hW, hfits⟩ := h.irmao
    rcases hfits with ⟨hp, rfl, hgs⟩ | ⟨hp, hgs⟩
    · exact .red (hpc.trans hp) hWnew (hgs.congr (hkeep _ hwg hyg))
    · exact .black (hpc.trans hp) hWnew (hgs.congr (hkeep _ hwg hyg))
  · exact (Shape.toList_rotate s y w C B v).symm
  · intro q hq
    simp only [Shape.mem_join, not_or] at hq
    rw [hcor, if_neg hq.1, if_neg hq.2.1.1]

/-- A black brother whose outer child is red: one rotation ends the climb. -/
theorem fechar {w : ℕ} {u v : Shape ℕ} {c₁ : Color}
    (h : Eliminado a t (⟨s, p, .join s w u v⟩ :: gs) x c n)
    (hu : Balanced a.cor u c₁ n) (hv : Balanced a.cor v .red n)
    (hfim : fim = p ∨ fim ∈ around gs ∧ a.cor fim = .black) :
    ∃ b T,
      rodar s (((a.setCor w (a.cor p)).setCor p .black).setCor (a.child s.flip w) .black) p = b ∧
      Terminado b T fim fim ∧
      T.toList = (PointerTree.fill t (⟨s, p, .join s w u v⟩ :: gs)).toList ∧
      Mantem (PointerTree.fill t (⟨s, p, .join s w u v⟩ :: gs)).toList a b := by
  obtain ⟨y, v₁, v₂, rfl⟩ := hv.exists_join (.inr rfl) .left
  obtain ⟨⟨hpt, hpW, hpg, hpn, hpr⟩, hWs⟩ := h.focus.frame
  obtain ⟨hwt, hwg, hwn, hwr⟩ := hWs w (by simp)
  obtain ⟨hyt, hyg, hyn, hyr⟩ := hWs y (by simp)
  obtain ⟨-, -, hndW, -⟩ := Shape.nodup_join.mp h.focus.up.nodup_focus
  obtain ⟨⟨hwu, hwv⟩, -, hndv, huv⟩ := Shape.nodup_join.mp hndW
  obtain ⟨⟨hyv₁, hyv₂⟩, -⟩ := Shape.nodup_join.mp hndv
  have hyu : y ∉ u.toList := fun hm => huv y hm (by simp)
  obtain ⟨hwp, -, -, hvlink⟩ := linked_join.mp h.linked_irmao
  obtain ⟨hyw, -⟩ := linked_join.mp hvlink
  rw [hyw]
  simp only [Shape.mem_join, not_or] at hpW hwv
  -- the colours at the end
  have hcor : ∀ q, (rodar s (((a.setCor w (a.cor p)).setCor p .black).setCor y .black) p).cor q =
      if q = y then .black else if q = p then .black else if q = w then a.cor p else a.cor q := by
    intro q
    rw [rodar_cor, setCor_cor, setCor_cor, setCor_cor]
  have hkeep : ∀ (l : List ℕ), w ∉ l → p ∉ l → y ∉ l → ∀ q ∈ l,
      (rodar s (((a.setCor w (a.cor p)).setCor p .black).setCor y .black) p).cor q = a.cor q := by
    intro l hw hp hy q hq
    rw [hcor, if_neg fun (he : q = y) => hy (he ▸ hq), if_neg fun (he : q = p) => hp (he ▸ hq),
      if_neg fun (he : q = w) => hw (he ▸ hq)]
  have hup : Focus (((a.setCor w (a.cor p)).setCor p .black).setCor y .black).toLinks nil raiz
      (.join s p t (.join s w u (.join .left y v₁ v₂))) gs p := h.focus.up
  have hrot := rodar_focus hup
  have hm : Mantem (PointerTree.fill t (⟨s, p, .join s w u (.join .left y v₁ v₂)⟩ :: gs)).toList a
      (rodar s (((a.setCor w (a.cor p)).setCor p .black).setCor y .black) p) :=
    (((Mantem.setCor _ _ _ _).trans (Mantem.setCor _ _ _ _)).trans
      (Mantem.setCor _ _ _ _)).trans (Mantem.rodar hup rfl)
  have hlow : Balanced (rodar s (((a.setCor w (a.cor p)).setCor p .black).setCor y .black) p).cor
      (.join s p t u) .black (n + 1) := by
    refine .join_black ?_ (h.balanced.congr (hkeep _ hwt hpt hyt))
      (hu.congr (hkeep _ hwu hpW.2.1 hyu))
    rw [hcor, if_neg (fun (he : p = y) => hpW.2.2.1 he), if_pos rfl]
  have hout : Balanced (rodar s (((a.setCor w (a.cor p)).setCor p .black).setCor y .black) p).cor
      (.join .left y v₁ v₂) .black (n + 1) := by
    refine hv.paint ?_ (hkeep _ hwv.2.1 hpW.2.2.2.1 hyv₁) (hkeep _ hwv.2.2 hpW.2.2.2.2 hyv₂)
    rw [hcor, if_pos rfl]
  have hwc : (rodar s (((a.setCor w (a.cor p)).setCor p .black).setCor y .black) p).cor w =
      a.cor p := by
    rw [hcor, if_neg (fun (he : w = y) => hwv.1 he), if_neg (fun (he : w = p) => hpW.1 he.symm),
      if_pos rfl]
  have hblack : ∃ m, Balanced (rodar s (((a.setCor w (a.cor p)).setCor p .black).setCor y
      .black) p).cor (PointerTree.fill (.join s w (.join s p t u) (.join .left y v₁ v₂)) gs)
      .black m := by
    obtain ⟨c', hW, hfits⟩ := h.irmao
    rcases hfits with ⟨hp, -, hgs⟩ | ⟨hp, hgs⟩
    · exact (hgs.congr (hkeep _ hwg hpg hyg)).fill (.join_red (hwc.trans hp) hlow hout)
    · exact (hgs.congr (hkeep _ hwg hpg hyg)).fill (.join_black (hwc.trans hp) hlow hout)
  have hend : (rodar s (((a.setCor w (a.cor p)).setCor p .black).setCor y .black) p).cor fim =
      .black := by
    rcases hfim with rfl | ⟨hmem, hblackfim⟩
    · rw [hcor]
      split <;> simp
    · exact (hkeep _ hwg hpg hyg fim hmem).trans hblackfim
  have hpaint : ((rodar s (((a.setCor w (a.cor p)).setCor p .black).setCor y .black)
      p).setCor fim .black).cor =
      (rodar s (((a.setCor w (a.cor p)).setCor p .black).setCor y .black) p).cor := by
    funext q
    rw [setCor_cor]
    split
    · rename_i he
      rw [he, hend]
    · rfl
  refine ⟨_, _, rfl, ⟨hrot.fill, ?_, ?_, .inr rfl⟩, ?_, hm⟩
  · have := ((h.sentinelas.setCor hwn hwr (a.cor p)).setCor hpn hpr .black).setCor hyn hyr .black
    exact ⟨by rw [rodar_cor]; exact this.nil, by rw [rodar_cor]; exact this.raiz⟩
  · rw [hpaint]
    exact hblack
  · exact toList_fill_congr (Shape.toList_rotate s p w t u _) gs

/-- The end of a turn: the climb is over, or goes on at a black parent. -/
theorem resto {w : ℕ} {u v : Shape ℕ}
    (h : Eliminado a t (⟨s, p, .join s w u v⟩ :: gs) x c n) (hw : a.cor w = .black)
    (hfim : fim = p ∨ fim ∈ around gs ∧ a.cor fim = .black) :
    ∃ b x' T, subirOuFechar s fim a x w = (b, x') ∧
      T.toList = (PointerTree.fill t (⟨s, p, .join s w u v⟩ :: gs)).toList ∧
      Mantem (PointerTree.fill t (⟨s, p, .join s w u v⟩ :: gs)).toList a b ∧
      (Terminado b T x' fim ∨ a.cor p = .black ∧ b.esq raiz = a.esq raiz ∧
        ∃ t', T = PointerTree.fill t' gs ∧ Eliminado b t' gs x' .black (n + 1)) := by
  obtain ⟨hwp, -, hulink, hvlink⟩ := linked_join.mp h.linked_irmao
  obtain ⟨c', hW, -⟩ := h.irmao
  obtain rfl : .black = c' := by
    rw [← hw, ← hwp]
    exact hW.color_root h.linked_irmao h.sentinelas.nil
  obtain ⟨m, c₁, c₂, hm, -, hu, hv⟩ := hW.of_join_black
  obtain rfl : n = m := Nat.succ.inj hm
  have hcu := hu.color_root hulink h.sentinelas.nil
  have hcv := hv.color_root hvlink h.sentinelas.nil
  rw [subirOuFechar, hcu, hcv]
  cases c₂ with
  | black =>
      cases c₁ with
      | black =>
          rw [if_pos ⟨rfl, rfl⟩, h.parent_eq]
          refine ⟨_, _, _, rfl, rfl, Mantem.setCor _ _ _ _, ?_⟩
          cases hp : a.cor p with
          | red => exact .inl (h.subir_vermelho hp hu hv)
          | black => exact .inr ⟨rfl, rfl, _, rfl, h.subir_preto hp hu hv⟩
      | red =>
          obtain ⟨b, w', u', v', hb, hnew, hu', hv', hlist, hmant, hcor⟩ := h.sobrinho hu hv
          obtain ⟨⟨-, hpW, -⟩, hWs⟩ := h.focus.frame
          have hfim' : fim = p ∨ fim ∈ around gs ∧ b.cor fim = .black := by
            refine hfim.imp_right fun ⟨hmem, hblack⟩ => ⟨hmem, ?_⟩
            exact (hcor fim fun hm => (hWs fim hm).2.1 hmem).trans hblack
          obtain ⟨d, T, hd, hterm, hlist', hmant'⟩ := hnew.fechar hu' hv' hfim'
          have hfill : (PointerTree.fill t (⟨s, p, .join s w' u' v'⟩ :: gs)).toList =
              (PointerTree.fill t (⟨s, p, .join s w u v⟩ :: gs)).toList :=
            toList_fill_congr (Shape.toList_join_congr hlist) gs
          rw [hfill] at hlist' hmant'
          have hpar : b.parent x = p := hnew.parent_eq
          rw [if_neg (by simp), hb]
          refine ⟨d, fim, T, ?_, hlist', hmant.trans hmant', .inl hterm⟩
          simp only [hpar, setCor_toLinks, hd]
  | red =>
      obtain ⟨d, T, hd, hterm, hlist', hmant'⟩ := h.fechar hu hv hfim
      have hsob : sobrinhoVermelho s a x w = (a, w) := by
        rw [sobrinhoVermelho, hcv, if_neg (by simp)]
      rw [if_neg (by simp), hsob]
      refine ⟨d, fim, T, ?_, hlist', hmant', .inl hterm⟩
      simp only [h.parent_eq, setCor_toLinks, hd]

/-- One turn of the loop. -/
theorem passo {f : Frame ℕ} (h : Eliminado a t (f :: gs) x c n) (hfim : fim = a.esq raiz) :
    ∃ b x' T, passoEliminar f.side fim a x = (b, x') ∧
      T.toList = (PointerTree.fill t (f :: gs)).toList ∧
      Mantem (PointerTree.fill t (f :: gs)).toList a b ∧
      (Terminado b T x' fim ∨ fim = b.esq raiz ∧
        ∃ t', T = PointerTree.fill t' gs ∧ Eliminado b t' gs x' .black (n + 1)) := by
  obtain ⟨s, p, W⟩ := f
  obtain ⟨⟨-, -, hpg, -⟩, hWs⟩ := h.focus.frame
  have hroot : fim = p ∨ fim ∈ around gs ∧ a.cor fim = .black := by
    obtain ⟨-, -, -, hout⟩ := h.focus.outside
    cases gs with
    | nil => exact .inl (hfim.trans hout)
    | cons g gs =>
        obtain ⟨c', -, hfits⟩ := h.irmao
        rw [hfim]
        rcases hfits with ⟨-, -, hg⟩ | ⟨-, hg⟩
        · exact .inr (hg.color_top hout)
        · exact .inr (hg.color_top hout)
  obtain ⟨c', hW, hfits⟩ := h.irmao
  have hcW : a.cor (a.child s.flip p) = c' := hW.color_root h.linked_irmao h.sentinelas.nil
  cases c' with
  | black =>
      obtain ⟨w, u, v, rfl⟩ := hW.exists_join (.inl (Nat.succ_ne_zero n)) s
      obtain ⟨hwp, -⟩ := linked_join.mp h.linked_irmao
      rw [hwp] at hcW
      have hirmao : irmaoPreto s a x = (a, w) := by
        simp only [irmaoPreto, h.parent_eq, hwp, hcW, reduceCtorEq, if_false]
      obtain ⟨b, x', T, hb, hlist, hmant, hor⟩ := h.resto hcW hroot
      refine ⟨b, x', T, ?_, hlist, hmant, hor.imp_right fun ⟨_, he, hrest⟩ => ⟨?_, hrest⟩⟩
      · simp only [passoEliminar, hirmao, hb]
      · rw [hfim, he]
  | red =>
      obtain ⟨b, w, u, v, rfl, hirmao, hnew, hu, hmant, hcor⟩ := h.irmao_vermelho hcW
      obtain ⟨w', u', v', rfl⟩ := hu.exists_join (.inl (Nat.succ_ne_zero n)) s
      have hwp : b.child s.flip p = w' := (linked_join.mp hnew.linked_irmao).1
      have hw' : b.cor w' = .black := by
        rw [← hwp]
        exact hu.color_root hnew.linked_irmao hnew.sentinelas.nil
      have hbp : b.cor p = .red := by rw [hcor, if_pos rfl]
      have hroot' : fim = p ∨ fim ∈ around (⟨s, w, v⟩ :: gs) ∧ b.cor fim = .black := by
        refine hroot.imp_right fun ⟨hmem, hblack⟩ => ⟨mem_around_cons.mpr (.inr (.inr hmem)), ?_⟩
        rw [hcor, if_neg fun (he : fim = p) => hpg (he ▸ hmem), hblack]
        split <;> rfl
      obtain ⟨d, x', T, hd, hlist, hmant', hor⟩ := hnew.resto hw' hroot'
      have hfill : (PointerTree.fill t (⟨s, p, .join s w' u' v'⟩ :: ⟨s, w, v⟩ :: gs)).toList =
          (PointerTree.fill t (⟨s, p, .join s w (.join s w' u' v') v⟩ :: gs)).toList :=
        toList_fill_congr (Shape.toList_rotate s p w t (.join s w' u' v') v) gs
      rw [hfill] at hlist hmant'
      refine ⟨d, x', T, ?_, hlist, hmant.trans hmant', .inl ?_⟩
      · simp only [passoEliminar, hirmao, hwp, hd]
      · rcases hor with hterm | ⟨hblack, -⟩
        · exact hterm
        · rw [hbp] at hblack
          exact Color.noConfusion hblack

/-- The loop stops at a red node and at the root. -/
theorem parar (h : Eliminado a t fs x c n) (hfim : fim = a.esq raiz)
    (hx : a.cor x = .red ∨ fs = []) : Terminado a (PointerTree.fill t fs) x fim := by
  refine ⟨h.focus.fill, h.sentinelas, ?_, ?_⟩
  · have hpaint : ∃ m, Balanced (a.setCor x .black).cor t .black m ∧
        (fs = [] ∨ m = n + 1) := by
      cases c with
      | red =>
          obtain ⟨p, u, w, rfl⟩ := h.balanced.exists_join (.inr rfl) .left
          obtain ⟨rfl, -⟩ := linked_join.mp h.focus.inside
          obtain ⟨⟨hu, hw⟩, -⟩ := Shape.nodup_join.mp h.focus.nodup_focus
          refine ⟨n + 1, h.balanced.paint ?_ (fun q hq => ?_) fun q hq => ?_, .inr rfl⟩
          · rw [setCor_cor, if_pos rfl]
          · rw [setCor_cor, if_neg fun (he : q = x) => hu (he ▸ hq)]
          · rw [setCor_cor, if_neg fun (he : q = x) => hw (he ▸ hq)]
      | black =>
          have hblack := h.balanced.color_root h.focus.inside h.sentinelas.nil
          have hnil : fs = [] := by
            refine hx.resolve_left fun hred => ?_
            rw [hblack] at hred
            exact Color.noConfusion hred
          refine ⟨n, h.balanced.congr fun q _ => ?_, .inl hnil⟩
          rw [setCor_cor]
          split
          · rename_i he
            rw [he, hblack]
          · rfl
    obtain ⟨m, hbal, hor⟩ := hpaint
    rcases hor with rfl | rfl
    · exact ⟨m, hbal⟩
    · refine (h.fits.congr fun q hq => ?_).fill hbal
      rw [setCor_cor]
      split
      · rename_i he
        have hxm : x ∉ t.toList := fun hm =>
          (List.nodup_append.mp h.focus.nodup).2.2 x hm q hq he.symm
        have hxn : x = nil := by
          by_contra hn
          exact hxm (h.focus.inside.mem_of_ne_nil hn)
        have he : q = nil := Eq.trans he hxn
        rw [he] at hq
        exact absurd (List.mem_append_right _ hq) h.focus.nil_notMem
      · rfl
  · refine hx.imp_right fun hnil => ?_
    subst hnil
    exact hfim.trans h.focus.child_slot

end Eliminado

/-- A loop that is over stays so. -/
theorem Terminado.loop {a : ArvoreRB α} {T : Shape ℕ} {x fim : ℕ} (h : Terminado a T x fim)
    (fuel : ℕ) : repararEliminadoLoop fim fuel a x = (a, x) := by
  cases fuel with
  | zero => rfl
  | succ fuel =>
      rw [repararEliminadoLoop, if_neg]
      rintro ⟨hblack, hne⟩
      rcases h.parou with hred | he
      · rw [hblack] at hred
        exact Color.noConfusion hred
      · exact hne he

namespace Eliminado

variable {a : ArvoreRB α} {t : Shape ℕ} {fs : List (Frame ℕ)} {x n fim : ℕ} {c : Color}

/-- The focus is the root only at the top. -/
theorem eq_nil_of_root (h : Eliminado a t fs x c n) (hx : a.esq raiz = x) : fs = [] := by
  cases fs with
  | nil => rfl
  | cons f fs =>
      obtain ⟨hmem, -⟩ := h.fits.color_top h.focus.outside
      have hmem : a.esq raiz ∈ around (f :: fs) := hmem
      rw [hx] at hmem
      by_cases hn : x = nil
      · exact absurd (List.mem_append_right _ (hn ▸ hmem)) h.focus.nil_notMem
      · have hin := h.focus.inside.mem_of_ne_nil hn
        exact absurd rfl ((List.nodup_append.mp h.focus.nodup).2.2 x hin x hmem)

theorem loop (fuel : ℕ) (h : Eliminado a t fs x c n) (hfim : fim = a.esq raiz)
    (hfuel : fs.length ≤ fuel) :
    ∃ b x' T, repararEliminadoLoop fim fuel a x = (b, x') ∧ Terminado b T x' fim ∧
      T.toList = (PointerTree.fill t fs).toList ∧
      Mantem (PointerTree.fill t fs).toList a b := by
  induction fuel generalizing a t fs x c n with
  | zero =>
      have hnil : fs = [] := List.length_eq_zero_iff.mp (by omega)
      exact ⟨a, x, _, rfl, h.parar hfim (.inr hnil), rfl, Mantem.refl _ _⟩
  | succ fuel ih =>
      rw [repararEliminadoLoop]
      split
      · rename_i hgo
        obtain ⟨hblack, hne⟩ := hgo
        cases fs with
        | nil => exact absurd (hfim.trans h.focus.child_slot) hne
        | cons f gs =>
            obtain ⟨c', hsib, -⟩ := h.irmao
            have hpick : (if x = a.esq (a.parent x) then passoEliminar .left fim a x
                else passoEliminar .right fim a x) = passoEliminar f.side fim a x := by
              obtain ⟨u, l, r, hu⟩ := hsib.exists_join (.inl (Nat.succ_ne_zero n)) .left
              have hne : f.sib ≠ .nil := by
                simp [hu, Shape.join]
              have hside := Side.ite_eq (h.focus.side_iff (.inr hne) .left).symm
              have hpar : a.parent x = f.at' := h.parent
              rw [hpar, ← hside]
              show (if x = a.child .left f.at' then _ else _) = _
              split <;> rfl
            obtain ⟨b, x', T, hb, hlist, hmant, hor⟩ := h.passo hfim
            dsimp only
            rw [hpick, hb]
            rcases hor with hterm | ⟨hfim', t', rfl, hnext⟩
            · exact ⟨b, x', T, hterm.loop fuel, hterm, hlist, hmant⟩
            · obtain ⟨d, x'', T', hd, hterm, hlist', hmant'⟩ := ih hnext hfim'
                (by simp only [List.length_cons] at hfuel; omega)
              rw [hlist] at hlist' hmant'
              exact ⟨d, x'', T', hd, hterm, hlist', hmant.trans hmant'⟩
      · rename_i hstop
        refine ⟨a, x, _, rfl, h.parar hfim ?_, rfl, Mantem.refl _ _⟩
        cases hc : a.cor x with
        | red => exact .inl rfl
        | black =>
            refine .inr (h.eq_nil_of_root ?_)
            rw [← hfim]
            by_contra hne
            exact hstop ⟨hc, hne⟩

/-- `RepararEliminado` leaves a balanced tree over the same nodes. -/
theorem reparar (h : Eliminado a t fs x c n) (hfuel : fs.length ≤ a.prox + 1) :
    ∃ T, Focus (repararEliminado a x).toLinks nil raiz T [] ((repararEliminado a x).esq raiz) ∧
      Sentinelas (repararEliminado a x) ∧ (∃ m, Balanced (repararEliminado a x).cor T .black m) ∧
      T.toList = (PointerTree.fill t fs).toList ∧
      Mantem (PointerTree.fill t fs).toList a (repararEliminado a x) := by
  obtain ⟨b, x', T, hb, hterm, hlist, hmant⟩ := h.loop (a.prox + 1) rfl hfuel
  rw [repararEliminado, hb]
  refine ⟨T, hterm.focus, ⟨?_, ?_⟩, hterm.balanced, hlist, hmant.trans (Mantem.setCor _ _ _ _)⟩
  · rw [setCor_cor, hterm.sentinelas.nil, ite_self]
  · rw [setCor_cor, hterm.sentinelas.raiz, ite_self]

end Eliminado

end ThreadScheduler.SthreadLib
