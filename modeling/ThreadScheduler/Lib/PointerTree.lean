import Mathlib.Data.List.Nodup
import Mathlib.Logic.Function.Basic

/-!
# Binary trees with parent links

A tree of nodes with two child pointers and a parent pointer each, over any type of
addresses. The part below a node is a `Shape` of addresses, the part around it
a list of `Frame`s, innermost first. `Focus` says that the pointers spell out both; it
moves up and down the tree, and rotations and replacements at the focus are proved once.
-/
namespace PointerTree

/-- The two sides of a node. -/
inductive Side where
  | left
  | right
  deriving DecidableEq, Repr

/-- The other side. -/
def Side.flip : Side → Side
  | left => right
  | right => left

@[simp] theorem Side.flip_flip (s : Side) : s.flip.flip = s := by cases s <;> rfl

@[simp] theorem Side.flip_ne (s : Side) : s.flip ≠ s := by cases s <;> decide

@[simp] theorem Side.ne_flip (s : Side) : s ≠ s.flip := by cases s <;> decide

theorem Side.eq_or_eq_flip (s t : Side) : t = s ∨ t = s.flip := by
  cases s <;> cases t <;> simp [flip]

/-- Code that takes one of two mirrored branches picks a side. -/
theorem Side.ite_eq {s : Side} {c : Prop} [Decidable c] (h : s = .left ↔ c) :
    (if c then Side.left else .right) = s := by
  split
  · rename_i hc
    exact (h.mpr hc).symm
  · rename_i hc
    cases s with
    | left => exact absurd (h.mp rfl) hc
    | right => rfl

/-- A tree of addresses. -/
inductive Shape (ι : Type*) where
  | nil
  | node (p : ι) (l r : Shape ι)

/-- An ancestor: on which side of it the focus is, its address, and its other subtree. -/
structure Frame (ι : Type*) where
  side : Side
  at' : ι
  sib : Shape ι

/-- The pointers of the nodes. -/
structure Links (ι : Type*) where
  child : Side → ι → ι
  parent : ι → ι

namespace Shape

variable {ι : Type*}

/-- The node `p` with `t` on one side and `w` on the other. -/
def join (s : Side) (p : ι) (t w : Shape ι) : Shape ι :=
  match s with
  | .left => node p t w
  | .right => node p w t

theorem join_flip (s : Side) (p : ι) (t w : Shape ι) : join s.flip p t w = join s p w t := by
  cases s <;> rfl

/-- The addresses in order. -/
def toList : Shape ι → List ι
  | nil => []
  | node p l r => l.toList ++ p :: r.toList

@[simp] theorem toList_nil : (nil : Shape ι).toList = [] := rfl

@[simp] theorem toList_node (p : ι) (l r : Shape ι) :
    (node p l r).toList = l.toList ++ p :: r.toList := rfl

theorem eq_nil_of_toList {t : Shape ι} (h : t.toList = []) : t = nil := by
  cases t with
  | nil => rfl
  | node p l r => simp at h

theorem perm_join (s : Side) (p : ι) (t w : Shape ι) :
    (join s p t w).toList.Perm (p :: (t.toList ++ w.toList)) := by
  cases s with
  | left => exact List.perm_middle
  | right => exact List.perm_middle.trans (List.Perm.cons p List.perm_append_comm)

@[simp] theorem mem_join {s : Side} {p q : ι} {t w : Shape ι} :
    q ∈ (join s p t w).toList ↔ q = p ∨ q ∈ t.toList ∨ q ∈ w.toList := by
  rw [(perm_join s p t w).mem_iff, List.mem_cons, List.mem_append]

theorem nodup_join {s : Side} {p : ι} {t w : Shape ι} : (join s p t w).toList.Nodup ↔
    (p ∉ t.toList ∧ p ∉ w.toList) ∧ t.toList.Nodup ∧ w.toList.Nodup ∧
      ∀ q ∈ t.toList, q ∉ w.toList := by
  rw [(perm_join s p t w).nodup_iff, List.nodup_cons, List.mem_append, not_or,
    List.nodup_append]
  refine and_congr_right fun _ => and_congr_right fun _ => and_congr_right fun _ => ?_
  exact ⟨fun h q hq hq' => h q hq q hq' rfl, fun h q hq q' hq' he => h q hq (he ▸ hq')⟩

theorem toList_join_congr {s : Side} {p : ι} {t w w' : Shape ι} (h : w'.toList = w.toList) :
    (join s p t w').toList = (join s p t w).toList := by
  cases s <;> simp [join, h]

/-- A rotation keeps the order. -/
theorem toList_rotate (s : Side) (x y : ι) (a b c : Shape ι) :
    (join s y (join s x a b) c).toList = (join s x a (join s y b c)).toList := by
  cases s <;> simp [join]

end Shape

section Context

variable {ι : Type*}

/-- The tree around a focus. -/
def fill (t : Shape ι) : List (Frame ι) → Shape ι
  | [] => t
  | f :: fs => fill (Shape.join f.side f.at' t f.sib) fs

/-- The addresses before the focus. -/
def before : List (Frame ι) → List ι
  | [] => []
  | ⟨.left, _, _⟩ :: fs => before fs
  | ⟨.right, p, w⟩ :: fs => before fs ++ (w.toList ++ [p])

/-- The addresses behind the focus. -/
def behind : List (Frame ι) → List ι
  | [] => []
  | ⟨.left, p, w⟩ :: fs => p :: w.toList ++ behind fs
  | ⟨.right, _, _⟩ :: fs => behind fs

theorem toList_fill (t : Shape ι) (fs : List (Frame ι)) :
    (fill t fs).toList = before fs ++ t.toList ++ behind fs := by
  induction fs generalizing t with
  | nil => simp [fill, before, behind]
  | cons f fs ih =>
      obtain ⟨s, p, w⟩ := f
      cases s <;> simp [fill, ih, before, behind, Shape.join]

/-- With nothing before the focus, its parent is the first node behind it. -/
theorem behind_of_before_nil {fs : List (Frame ι)} (h : before fs = []) :
    fs = [] ∨ ∃ f gs l, fs = f :: gs ∧ behind fs = f.at' :: l := by
  cases fs with
  | nil => exact .inl rfl
  | cons f gs =>
      obtain ⟨s, p, w⟩ := f
      cases s with
      | left => exact .inr ⟨_, _, _, rfl, rfl⟩
      | right => simp [before] at h

/-- Trees with the same nodes in order fill a hole with the same nodes in order. -/
theorem toList_fill_congr {t t' : Shape ι} (h : t'.toList = t.toList) (fs : List (Frame ι)) :
    (fill t' fs).toList = (fill t fs).toList := by
  rw [toList_fill, toList_fill, h]

/-- The addresses around the focus. -/
def around (fs : List (Frame ι)) : List ι := before fs ++ behind fs

theorem perm_fill (t : Shape ι) (fs : List (Frame ι)) :
    (fill t fs).toList.Perm (t.toList ++ around fs) := by
  rw [toList_fill, around, ← List.append_assoc]
  exact List.Perm.append_right _ List.perm_append_comm

theorem perm_around_cons (f : Frame ι) (fs : List (Frame ι)) :
    (around (f :: fs)).Perm (f.at' :: (f.sib.toList ++ around fs)) := by
  obtain ⟨s, p, w⟩ := f
  cases s with
  | left =>
      simp only [around, before, behind, List.cons_append]
      exact List.perm_middle.trans (List.Perm.cons p (List.perm_append_comm_assoc _ _ _))
  | right =>
      simp only [around, before, behind, List.append_assoc, List.singleton_append]
      refine (List.perm_append_comm_assoc _ _ _).trans ?_
      exact (List.Perm.append_left _ List.perm_middle).trans List.perm_middle

theorem length_le_around (fs : List (Frame ι)) : fs.length ≤ (around fs).length := by
  induction fs with
  | nil => exact Nat.zero_le _
  | cons f fs ih =>
      rw [(perm_around_cons f fs).length_eq]
      simp only [List.length_cons, List.length_append]
      omega

theorem mem_around_cons {f : Frame ι} {fs : List (Frame ι)} {q : ι} :
    q ∈ around (f :: fs) ↔ q = f.at' ∨ q ∈ f.sib.toList ∨ q ∈ around fs := by
  rw [(perm_around_cons f fs).mem_iff, List.mem_cons, List.mem_append]

theorem mem_around_of_mem {f : Frame ι} {fs : List (Frame ι)} (hf : f ∈ fs) :
    f.at' ∈ around fs := by
  induction fs with
  | nil => exact absurd hf List.not_mem_nil
  | cons g gs ih =>
      rcases List.mem_cons.mp hf with rfl | hf
      · exact mem_around_cons.mpr (.inl rfl)
      · exact mem_around_cons.mpr (.inr (.inr (ih hf)))

/-- The parent of the focus; `top` stands over the whole tree. -/
def parentOf (top : ι) : List (Frame ι) → ι
  | [] => top
  | f :: _ => f.at'

/-- The side on which the focus hangs from its parent. -/
def sideOf : List (Frame ι) → Side
  | [] => .left
  | f :: _ => f.side

end Context

/-! ## The pointers of a tree -/

section Linked

variable {ι : Type*} {nil top : ι}

/-- The pointers spell out the tree `t` under the pointer `x`, whose parent is `par`. -/
def Linked (L : Links ι) (nil : ι) : Shape ι → ι → ι → Prop
  | .nil, x, _ => x = nil
  | .node p l r, x, par => x = p ∧ L.parent p = par ∧
      Linked L nil l (L.child .left p) p ∧ Linked L nil r (L.child .right p) p

/-- The pointers spell out the frames around the pointer `x`. -/
def LinkedAround (L : Links ι) (nil top : ι) : List (Frame ι) → ι → Prop
  | [], x => L.child .left top = x
  | f :: fs, x => L.child f.side f.at' = x ∧ L.parent f.at' = parentOf top fs ∧
      Linked L nil f.sib (L.child f.side.flip f.at') f.at' ∧ LinkedAround L nil top fs f.at'

theorem linked_join {L : Links ι} {s : Side} {p x par : ι} {t w : Shape ι} :
    Linked L nil (.join s p t w) x par ↔ x = p ∧ L.parent p = par ∧
      Linked L nil t (L.child s p) p ∧ Linked L nil w (L.child s.flip p) p := by
  cases s with
  | left => exact Iff.rfl
  | right =>
      simp only [Shape.join, Linked, Side.flip]
      tauto

theorem Linked.parent_root {L : Links ι} {t : Shape ι} {x par : ι} (h : Linked L nil t x par)
    (hx : x ∈ t.toList) : L.parent x = par := by
  cases t with
  | nil => simp at hx
  | node p l r =>
      obtain ⟨rfl, hp, -⟩ := h
      exact hp

theorem Linked.mem_of_ne_nil {L : Links ι} {t : Shape ι} {x par : ι} (h : Linked L nil t x par)
    (hx : x ≠ nil) : x ∈ t.toList := by
  cases t with
  | nil => exact absurd h hx
  | node p l r =>
      obtain ⟨rfl, -⟩ := h
      simp

theorem Linked.ne_of_notMem {L : Links ι} {t : Shape ι} {x par q : ι} (h : Linked L nil t x par)
    (hq : q ∉ t.toList) (hn : q ≠ nil) : q ≠ x := by
  rintro rfl
  exact hq (h.mem_of_ne_nil hn)

/-- A child pointer of a node that leads anywhere leads to a node whose parent it is. -/
theorem Linked.child {L : Links ι} {t : Shape ι} {x par p : ι} (h : Linked L nil t x par)
    (hp : p ∈ t.toList) (s : Side) (hn : L.child s p ≠ nil) :
    L.child s p ∈ t.toList ∧ L.parent (L.child s p) = p := by
  induction t generalizing x par with
  | nil => simp at hp
  | node q l r ihl ihr =>
      obtain ⟨rfl, -, hl, hr⟩ := h
      rw [Shape.toList_node, List.mem_append, List.mem_cons] at hp
      have hmem : ∀ y, y ∈ l.toList ∨ y ∈ r.toList → y ∈ (Shape.node x l r).toList := by
        rintro y (hy | hy) <;> simp [hy]
      rcases hp with hp | rfl | hp
      · obtain ⟨hm, hpar⟩ := ihl hl hp
        exact ⟨hmem _ (.inl hm), hpar⟩
      · cases s with
        | left =>
            have hm := hl.mem_of_ne_nil hn
            exact ⟨hmem _ (.inl hm), hl.parent_root hm⟩
        | right =>
            have hm := hr.mem_of_ne_nil hn
            exact ⟨hmem _ (.inr hm), hr.parent_root hm⟩
      · obtain ⟨hm, hpar⟩ := ihr hr hp
        exact ⟨hmem _ (.inr hm), hpar⟩

/-- The pointer to a tree that is not empty is its root. -/
theorem Linked.root_unique {L L' : Links ι} {t : Shape ι} {x x' par par' : ι}
    (h : Linked L nil t x par) (h' : Linked L' nil t x' par') : x' = x := by
  cases t with
  | nil => exact Eq.trans h' (Eq.symm h)
  | node p l r => exact h'.1.trans h.1.symm

/-- A tree is spelled out by any pointers that agree on it, but for the parent of its root. -/
theorem Linked.reroot {L L' : Links ι} {t : Shape ι} {x par par' : ι} (h : Linked L nil t x par)
    (hchild : ∀ p ∈ t.toList, ∀ s, L'.child s p = L.child s p)
    (hparent : ∀ p ∈ t.toList, p ≠ x → L'.parent p = L.parent p)
    (hroot : x ∈ t.toList → L'.parent x = par') (hnd : t.toList.Nodup) :
    Linked L' nil t x par' := by
  induction t generalizing x par par' with
  | nil => exact h
  | node p l r ihl ihr =>
      obtain ⟨rfl, hp, hl, hr⟩ := h
      rw [Shape.toList_node, List.nodup_append, List.nodup_cons] at hnd
      obtain ⟨hndl, ⟨hpr, hndr⟩, hdis⟩ := hnd
      have hpl : x ∉ l.toList := fun hm => hdis x hm x List.mem_cons_self rfl
      refine ⟨rfl, hroot (by simp), ?_, ?_⟩
      · rw [hchild x (by simp)]
        refine ihl hl (fun q hq => hchild q (by simp [hq]))
          (fun q hq _ => hparent q (by simp [hq]) fun he => hpl (he ▸ hq)) (fun hm => ?_) hndl
        rw [hparent _ (by simp [hm]) fun he => hpl (he ▸ hm)]
        exact hl.parent_root hm
      · rw [hchild x (by simp)]
        refine ihr hr (fun q hq => hchild q (by simp [hq]))
          (fun q hq _ => hparent q (by simp [hq]) fun he => hpr (he ▸ hq)) (fun hm => ?_) hndr
        rw [hparent _ (by simp [hm]) fun he => hpr (he ▸ hm)]
        exact hr.parent_root hm

theorem Linked.congr {L L' : Links ι} {t : Shape ι} {x par : ι} (h : Linked L nil t x par)
    (hchild : ∀ p ∈ t.toList, ∀ s, L'.child s p = L.child s p)
    (hparent : ∀ p ∈ t.toList, L'.parent p = L.parent p) (hnd : t.toList.Nodup) :
    Linked L' nil t x par :=
  h.reroot hchild (fun p hp _ => hparent p hp)
    (fun hx => (hparent x hx).trans (h.parent_root hx)) hnd

/-- The frames are spelled out by any pointers that agree on them, but for the child pointer
to the focus. -/
theorem LinkedAround.change {L L' : Links ι} {fs : List (Frame ι)} {x x' : ι}
    (h : LinkedAround L nil top fs x) (hnd : (around fs).Nodup) (htop : top ∉ around fs)
    (hslot : L'.child (sideOf fs) (parentOf top fs) = x')
    (hchild : ∀ s p, p = top ∨ p ∈ around fs → (s, p) ≠ (sideOf fs, parentOf top fs) →
      L'.child s p = L.child s p)
    (hparent : ∀ p ∈ around fs, L'.parent p = L.parent p) :
    LinkedAround L' nil top fs x' := by
  induction fs generalizing x x' with
  | nil => exact hslot
  | cons f fs ih =>
      obtain ⟨hx, hp, hsib, harr⟩ := h
      have hmem := @mem_around_cons ι f fs
      obtain ⟨hnotin, hndrest⟩ := List.nodup_cons.mp ((perm_around_cons f fs).nodup_iff.mp hnd)
      rw [List.nodup_append] at hndrest
      obtain ⟨hndsib, hndfs, hdis⟩ := hndrest
      rw [List.mem_append, not_or] at hnotin
      have hf : f.at' ≠ top := fun he => htop (hmem.mpr (.inl he.symm))
      refine ⟨hslot, (hparent _ (hmem.mpr (.inl rfl))).trans hp, ?_, ?_⟩
      · rw [hchild _ _ (.inr (hmem.mpr (.inl rfl))) (by simp [sideOf, parentOf])]
        refine hsib.congr (fun q hq s => hchild s q (.inr (hmem.mpr (.inr (.inl hq)))) ?_)
          (fun q hq => hparent q (hmem.mpr (.inr (.inl hq)))) hndsib
        rintro he
        have he : q = f.at' := (Prod.mk.inj he).2
        exact hnotin.1 (he ▸ hq)
      · have hne : ∀ s, (s, parentOf top fs) ≠ (sideOf (f :: fs), parentOf top (f :: fs)) := by
          rintro s he
          have he : parentOf top fs = f.at' := (Prod.mk.inj he).2
          cases fs with
          | nil => exact hf he.symm
          | cons g gs =>
              refine hnotin.2 ?_
              have he : g.at' = f.at' := he
              rw [← he]
              exact mem_around_cons.mpr (.inl rfl)
        refine ih harr hndfs (fun hm => htop (hmem.mpr (.inr (.inr hm)))) ?_ (fun s p hp _ => ?_)
          fun p hp => hparent p (hmem.mpr (.inr (.inr hp)))
        · rw [hchild _ _ ?_ (hne _)]
          · cases fs with
            | nil => exact harr
            | cons g gs => exact harr.1
          · cases fs with
            | nil => exact .inl rfl
            | cons g gs => exact .inr (hmem.mpr (.inr (.inr (mem_around_cons.mpr (.inl rfl)))))
        · refine hchild s p (hp.imp_right fun hm => hmem.mpr (.inr (.inr hm))) ?_
          intro he
          have he' : p = f.at' := (Prod.mk.inj he).2
          rcases hp with hp | hm
          · exact hf (he'.symm.trans hp)
          · exact hnotin.2 (he' ▸ hm)

/-- The pointers spell out a tree that hangs from `top`, seen from the pointer `x`. -/
structure Focus (L : Links ι) (nil top : ι) (t : Shape ι) (fs : List (Frame ι)) (x : ι) :
    Prop where
  inside : Linked L nil t x (parentOf top fs)
  outside : LinkedAround L nil top fs x
  nodup : (t.toList ++ around fs).Nodup
  nil_notMem : nil ∉ t.toList ++ around fs
  top_notMem : top ∉ t.toList ++ around fs

section Focus

variable {L L' : Links ι} {t : Shape ι} {f : Frame ι} {fs : List (Frame ι)} {x : ι}

theorem Focus.perm_up (f : Frame ι) (t : Shape ι) (fs : List (Frame ι)) :
    ((Shape.join f.side f.at' t f.sib).toList ++ around fs).Perm
      (t.toList ++ around (f :: fs)) := by
  refine (List.Perm.append_right _ (Shape.perm_join ..)).trans ?_
  refine List.Perm.trans ?_ (List.Perm.append_left _ (perm_around_cons f fs).symm)
  rw [List.cons_append, List.append_assoc]
  exact List.perm_middle.symm

/-- The focus moves to the parent, or back. -/
theorem focus_cons_iff (hx : L.child f.side f.at' = x) :
    Focus L nil top t (f :: fs) x ↔
      Focus L nil top (.join f.side f.at' t f.sib) fs f.at' := by
  have hperm := Focus.perm_up f t fs
  constructor
  · intro h
    obtain ⟨-, hp, hsib, harr⟩ := h.outside
    refine ⟨linked_join.mpr ⟨rfl, hp, ?_, hsib⟩, harr, hperm.nodup_iff.mpr h.nodup,
      fun hm => h.nil_notMem (hperm.mem_iff.mp hm), fun hm => h.top_notMem (hperm.mem_iff.mp hm)⟩
    rw [hx]
    exact h.inside
  · intro h
    obtain ⟨-, hp, hin, hsib⟩ := linked_join.mp h.inside
    rw [hx] at hin
    exact ⟨hin, ⟨hx, hp, hsib, h.outside⟩, hperm.nodup_iff.mp h.nodup,
      fun hm => h.nil_notMem (hperm.mem_iff.mpr hm), fun hm => h.top_notMem (hperm.mem_iff.mpr hm)⟩

theorem Focus.up (h : Focus L nil top t (f :: fs) x) :
    Focus L nil top (.join f.side f.at' t f.sib) fs f.at' :=
  (focus_cons_iff h.outside.1).mp h

theorem Focus.down {s : Side} {p : ι} {w : Shape ι} (h : Focus L nil top (.join s p t w) fs x) :
    Focus L nil top t (⟨s, p, w⟩ :: fs) (L.child s p) := by
  refine (focus_cons_iff rfl).mpr ?_
  obtain ⟨rfl, -⟩ := linked_join.mp h.inside
  exact h

/-- The whole tree. -/
theorem Focus.fill (h : Focus L nil top t fs x) :
    Focus L nil top (PointerTree.fill t fs) [] (L.child .left top) := by
  induction fs generalizing t x with
  | nil =>
      have := h.outside
      rw [show x = L.child .left top from this.symm] at h
      exact h
  | cons f fs ih => exact ih h.up

/-- The focus moves down to any node. -/
theorem Focus.exists_focus (h : Focus L nil top t fs x) {z : ι} (hz : z ∈ t.toList) :
    ∃ l r gs, Focus L nil top (.node z l r) gs z ∧
      PointerTree.fill (.node z l r) gs = PointerTree.fill t fs := by
  induction t generalizing fs x with
  | nil => simp at hz
  | node p l r ihl ihr =>
      rw [Shape.toList_node, List.mem_append, List.mem_cons] at hz
      obtain rfl : x = p := h.inside.1
      rcases hz with hz | rfl | hz
      · have hdown : Focus L nil top l (⟨.left, x, r⟩ :: fs) (L.child .left x) :=
          Focus.down (s := .left) h
        exact ihl hdown hz
      · exact ⟨l, r, fs, h, rfl⟩
      · have hdown : Focus L nil top r (⟨.right, x, l⟩ :: fs) (L.child .right x) :=
          Focus.down (s := .right) h
        exact ihr hdown hz

theorem Focus.child_slot (h : Focus L nil top t fs x) :
    L.child (sideOf fs) (parentOf top fs) = x := by
  cases fs with
  | nil => exact h.outside
  | cons f fs => exact h.outside.1

theorem parentOf_mem (top : ι) (fs : List (Frame ι)) :
    parentOf top fs = top ∨ parentOf top fs ∈ around fs := by
  cases fs with
  | nil => exact .inl rfl
  | cons f fs => exact .inr (mem_around_cons.mpr (.inl rfl))

theorem Focus.ne_nil (h : Focus L nil top t fs x) {q : ι} (hq : q ∈ t.toList) : q ≠ nil :=
  fun he => h.nil_notMem (List.mem_append_left _ (he ▸ hq))

theorem Focus.ne_top (h : Focus L nil top t fs x) {q : ι} (hq : q ∈ t.toList) : q ≠ top :=
  fun he => h.top_notMem (List.mem_append_left _ (he ▸ hq))

/-- The parent of the focus is not below it. -/
theorem Focus.ne_parent (h : Focus L nil top t fs x) {q : ι} (hq : q ∈ t.toList) :
    q ≠ parentOf top fs := by
  rintro rfl
  rcases parentOf_mem top fs with he | hm
  · exact h.ne_top hq he
  · exact (List.nodup_append.mp h.nodup).2.2 _ hq _ hm rfl

theorem Focus.nodup_focus (h : Focus L nil top t fs x) : t.toList.Nodup :=
  (List.nodup_append.mp h.nodup).1

/-- The nodes of a frame are apart from the focus and from the frames around. -/
theorem Focus.frame (h : Focus L nil top t (f :: fs) x) :
    (f.at' ∉ t.toList ∧ f.at' ∉ f.sib.toList ∧ f.at' ∉ around fs ∧ f.at' ≠ nil ∧ f.at' ≠ top) ∧
      ∀ q ∈ f.sib.toList, q ∉ t.toList ∧ q ∉ around fs ∧ q ≠ nil ∧ q ≠ top := by
  have hnd := List.nodup_append.mp h.nodup
  have hfs := hnd.2.1
  rw [(perm_around_cons f fs).nodup_iff, List.nodup_cons, List.nodup_append, List.mem_append,
    not_or] at hfs
  have hf : f.at' ∈ around (f :: fs) := mem_around_cons.mpr (.inl rfl)
  refine ⟨⟨fun hm => hnd.2.2 _ hm _ hf rfl, hfs.1.1, hfs.1.2,
    fun he => h.nil_notMem (List.mem_append_right _ (he ▸ hf)),
    fun he => h.top_notMem (List.mem_append_right _ (he ▸ hf))⟩, fun q hq => ?_⟩
  have hm : q ∈ around (f :: fs) := mem_around_cons.mpr (.inr (.inl hq))
  exact ⟨fun hm' => hnd.2.2 _ hm' _ hm rfl, fun hm' => hfs.2.2.2 _ hq _ hm' rfl,
    fun he => h.nil_notMem (List.mem_append_right _ (he ▸ hm)),
    fun he => h.top_notMem (List.mem_append_right _ (he ▸ hm))⟩

/-- Code that compares the focus with a child of its parent learns the side it hangs on,
unless both children are empty. -/
theorem Focus.side_iff (h : Focus L nil top t (f :: fs) x)
    (hx : x ≠ nil ∨ f.sib ≠ .nil) (m : Side) : x = L.child m f.at' ↔ f.side = m := by
  obtain ⟨hslot, -, hsib, -⟩ := h.outside
  rcases Side.eq_or_eq_flip f.side m with rfl | rfl
  · exact ⟨fun _ => rfl, fun _ => hslot.symm⟩
  · refine ⟨fun he => ?_, fun he => absurd he (Side.ne_flip _)⟩
    have hxn : x ≠ nil := by
      rcases hx with hx | hne
      · exact hx
      · cases hs : f.sib with
        | nil => exact absurd hs hne
        | node p l r =>
            rw [hs] at hsib
            rw [he, hsib.1]
            rintro rfl
            refine h.nil_notMem (List.mem_append_right _ ?_)
            exact mem_around_cons.mpr (.inr (.inl (by simp [hs])))
    have hin := h.inside.mem_of_ne_nil hxn
    have hout := hsib.mem_of_ne_nil (x := L.child f.side.flip f.at') (he ▸ hxn)
    exact absurd rfl ((List.nodup_append.mp h.nodup).2.2 x hin x
      (mem_around_cons.mpr (.inr (.inl (he ▸ hout)))))

theorem Focus.left_iff (h : Focus L nil top t fs x) (hx : x ≠ nil) :
    x = L.child .left (parentOf top fs) ↔ sideOf fs = .left := by
  cases fs with
  | nil => exact ⟨fun _ => rfl, fun _ => h.child_slot.symm⟩
  | cons f fs => exact h.side_iff (.inl hx) .left

/-- Pointers that differ from `L` only as a rotation at the focus `x` makes them differ spell
out the rotated tree: `y` comes up, and `x` takes the subtree between them. -/
theorem Focus.rotate {s : Side} {y : ι} {a b c : Shape ι}
    (h : Focus L nil top (.join s x a (.join s y b c)) fs x)
    (hx : L'.child s.flip x = L.child s y) (hy : L'.child s y = x)
    (hslot : L'.child (sideOf fs) (parentOf top fs) = y)
    (hchild : ∀ m q, (m, q) ≠ (s.flip, x) → (m, q) ≠ (s, y) →
      (m, q) ≠ (sideOf fs, parentOf top fs) → L'.child m q = L.child m q)
    (hpx : L'.parent x = y) (hpy : L'.parent y = parentOf top fs)
    (hpb : L.child s y ≠ nil → L'.parent (L.child s y) = x)
    (hparent : ∀ q, q ≠ x → q ≠ y → q ≠ L.child s y → L'.parent q = L.parent q) :
    Focus L' nil top (.join s y (.join s x a b) c) fs y := by
  have hperm : ((Shape.join s x a (.join s y b c)).toList ++ around fs).Perm
      (x :: y :: (a.toList ++ (b.toList ++ (c.toList ++ around fs)))) := by
    refine (List.Perm.append_right _ ((Shape.perm_join ..).trans (List.Perm.cons x
      ((List.Perm.append_left _ (Shape.perm_join ..)).trans List.perm_middle)))).trans ?_
    simp
  have hnd := hperm.nodup_iff.mp h.nodup
  have hlist := Shape.toList_rotate s x y a b c
  obtain ⟨-, -, ha, hyc⟩ := linked_join.mp h.inside
  obtain ⟨hxy, hyp, hb, hc⟩ := linked_join.mp hyc
  have hnil : ∀ q, q = x ∨ q = y ∨ q ∈ a.toList ∨ q ∈ b.toList ∨ q ∈ c.toList ∨ q ∈ around fs →
      q ≠ nil ∧ q ≠ top := by
    intro q hq
    have hm : q ∈ (Shape.join s x a (.join s y b c)).toList ++ around fs := by
      rw [hperm.mem_iff]
      simpa [or_assoc] using hq
    exact ⟨fun he => h.nil_notMem (he ▸ hm), fun he => h.top_notMem (he ▸ hm)⟩
  simp only [List.nodup_cons, List.nodup_append, List.mem_cons, List.mem_append, not_or] at hnd
  obtain ⟨⟨hxy', hxa, hxb, hxc, hxf⟩, ⟨hya, hyb, hyc', hyf⟩, hnda, ⟨hndb, ⟨hndc, hndf, hcf⟩, hbcf⟩,
    habcf⟩ := hnd
  -- the parent of the focus is none of the nodes below it
  have hpar : ∀ q, q = x ∨ q = y ∨ q ∈ a.toList ∨ q ∈ b.toList ∨ q ∈ c.toList →
      q ≠ parentOf top fs := by
    rintro q hq rfl
    rcases parentOf_mem top fs with he | hm
    · exact (hnil _ (by tauto)).2 he
    · rcases hq with he | he | he | he | he
      · exact hxf (he ▸ hm)
      · exact hyf (he ▸ hm)
      · exact habcf _ he _ (.inr (.inr hm)) rfl
      · exact hbcf _ he _ (.inr hm) rfl
      · exact hcf _ he _ hm rfl
  -- pointers of the nodes below `x` and `y` are as before
  have hkeep : ∀ q, q ≠ x → q ≠ y → q ≠ parentOf top fs → ∀ m, L'.child m q = L.child m q := by
    intro q h1 h2 h3 m
    exact hchild m q (fun he => h1 (Prod.mk.inj he).2) (fun he => h2 (Prod.mk.inj he).2)
      fun he => h3 (Prod.mk.inj he).2
  have hbroot : ∀ q, q ∉ b.toList → q ≠ nil → q ≠ L.child s y := by
    rintro q hq hqn rfl
    exact hq (hb.mem_of_ne_nil hqn)
  have hax : L'.child s x = L.child s x :=
    hchild _ _ (by simp) (by simp [hxy']) fun he => hpar x (.inl rfl) (Prod.mk.inj he).2
  have hcy : L'.child s.flip y = L.child s.flip y :=
    hchild _ _ (fun he => hxy' (Prod.mk.inj he).2.symm) (by simp)
      fun he => hpar y (.inr (.inl rfl)) (Prod.mk.inj he).2
  refine ⟨linked_join.mpr ⟨rfl, hpy, linked_join.mpr ⟨hy, hpx, ?_, ?_⟩, ?_⟩, ?_,
    by rw [hlist]; exact h.nodup, by rw [hlist]; exact h.nil_notMem,
    by rw [hlist]; exact h.top_notMem⟩
  · rw [hax]
    refine ha.congr (fun q hq => hkeep q ?_ ?_ (hpar q (by tauto))) (fun q hq => ?_) hnda
    · rintro rfl
      exact hxa hq
    · rintro rfl
      exact hya hq
    · refine hparent q ?_ ?_ (hbroot q (fun hm => habcf q hq q (.inl hm) rfl)
        (hnil q (by tauto)).1)
      · rintro rfl
        exact hxa hq
      · rintro rfl
        exact hya hq
  · rw [hx]
    refine hb.reroot (fun q hq => hkeep q ?_ ?_ (hpar q (by tauto))) (fun q hq hne => ?_)
      (fun hm => hpb (hnil _ (by tauto)).1) hndb
    · rintro rfl
      exact hxb hq
    · rintro rfl
      exact hyb hq
    · refine hparent q ?_ ?_ hne
      · rintro rfl
        exact hxb hq
      · rintro rfl
        exact hyb hq
  · rw [hcy]
    refine hc.congr (fun q hq => hkeep q ?_ ?_ (hpar q (by tauto))) (fun q hq => ?_) hndc
    · rintro rfl
      exact hxc hq
    · rintro rfl
      exact hyc' hq
    · refine hparent q ?_ ?_ (hbroot q (fun hm => hbcf q hm q (.inl hq) rfl)
        (hnil q (by tauto)).1)
      · rintro rfl
        exact hxc hq
      · rintro rfl
        exact hyc' hq
  · refine h.outside.change hndf (fun hm => (hnil top (by tauto)).2 rfl) hslot
      (fun m q hq hne => hchild m q (fun he => ?_) (fun he => ?_) hne) fun q hq => ?_
    · obtain ⟨-, rfl⟩ := Prod.mk.inj he
      rcases hq with rfl | hm
      · exact (hnil q (.inl rfl)).2 rfl
      · exact hxf hm
    · obtain ⟨-, rfl⟩ := Prod.mk.inj he
      rcases hq with rfl | hm
      · exact (hnil q (.inr (.inl rfl))).2 rfl
      · exact hyf hm
    · refine hparent q ?_ ?_ (hbroot q (fun hm => hbcf q hm q (.inr hq) rfl)
        (hnil q (by tauto)).1)
      · rintro rfl
        exact hxf hq
      · rintro rfl
        exact hyf hq

/-- Pointers that agree on a tree spell it out too. -/
theorem Focus.congr (h : Focus L nil top t fs x)
    (hchild : ∀ s p, p = top ∨ p ∈ t.toList ++ around fs → L'.child s p = L.child s p)
    (hparent : ∀ p ∈ t.toList ++ around fs, L'.parent p = L.parent p) :
    Focus L' nil top t fs x := by
  have hslot : parentOf top fs = top ∨ parentOf top fs ∈ t.toList ++ around fs :=
    (parentOf_mem top fs).imp_right (List.mem_append_right _)
  refine ⟨h.inside.congr (fun p hp s => hchild s p (.inr (List.mem_append_left _ hp)))
    (fun p hp => hparent p (List.mem_append_left _ hp)) h.nodup_focus, ?_, h.nodup, h.nil_notMem,
    h.top_notMem⟩
  refine h.outside.change (List.nodup_append.mp h.nodup).2.1
    (fun hm => h.top_notMem (List.mem_append_right _ hm)) ((hchild _ _ hslot).trans h.child_slot)
    (fun s p hp _ => hchild s p (hp.imp_right (List.mem_append_right _)))
    fun p hp => hparent p (List.mem_append_right _ hp)

/-- The focus is replaced by another tree over its own nodes. -/
theorem Focus.replace {t' : Shape ι} {x' : ι} (h : Focus L nil top t fs x)
    (hin : Linked L' nil t' x' (parentOf top fs))
    (hslot : L'.child (sideOf fs) (parentOf top fs) = x')
    (hchild : ∀ s p, p = top ∨ p ∈ around fs → (s, p) ≠ (sideOf fs, parentOf top fs) →
      L'.child s p = L.child s p)
    (hparent : ∀ p ∈ around fs, L'.parent p = L.parent p)
    (hnd : (t'.toList ++ around fs).Nodup) (hnil : nil ∉ t'.toList) (htop : top ∉ t'.toList) :
    Focus L' nil top t' fs x' := by
  have hn := h.nil_notMem
  have ht := h.top_notMem
  rw [List.mem_append, not_or] at hn ht
  refine ⟨hin, h.outside.change (List.nodup_append.mp h.nodup).2.1 ht.2 hslot hchild hparent, hnd,
    ?_, ?_⟩
  · rw [List.mem_append, not_or]
    exact ⟨hnil, hn.2⟩
  · rw [List.mem_append, not_or]
    exact ⟨htop, ht.2⟩

end Focus

end Linked

end PointerTree
