import Mathlib.Combinatorics.Enumerative.DoubleCounting
import ThreadScheduler.Lib.Placement
import ThreadScheduler.SnfsServer.FsInvariant
import ThreadScheduler.SnfsServer.MoveBlock

/-!
# Defragmentation

The pass of `fs_defrag` gives the blocks the places from 10 on, in the order in which the
i-node table first names them. The invariant of the pass relates the state to the one at
its start: the blocks seen are in place, the others are at or behind the next place.
-/
namespace ThreadScheduler.SnfsServer

namespace Fs

/-- The block numbers in some slots, in the order in which they first appear. -/
def ordem (fs : Fs) (ps : List (ℕ × ℕ)) : List ℕ := ((ps.map fs.slot).filter (· ≠ 0)).eraseDups

/-- The place that `fs_defrag` gives a block, where every slot names a block in use. -/
def lugar (fs : Fs) (b : ℕ) : ℕ := 10 + (fs.ordem percurso).idxOf b

/-- A data block whose bit is set. -/
def Usado (fs : Fs) (b : ℕ) : Prop := 10 ≤ b ∧ fs.ocupado b = true

instance (fs : Fs) : DecidablePred fs.Usado := fun _ => instDecidableAnd

/-- The block numbers that get a place from the slots `ps`: a block that is not in use gets one
only where it is not before the next place. -/
def colocados (fs : Fs) (ps : List (ℕ × ℕ)) : List ℕ :=
  Placement.placed 10 fs.Usado (ps.map fs.slot)

/-- The place that `fs_defrag` gives a block. -/
def destino (fs : Fs) (b : ℕ) : ℕ := 10 + (fs.colocados percurso).idxOf b

theorem defragPass_eq (fs : Fs) :
    defragPass fs = percurso.foldl (fun r p => defragSlot p.1 p.2 r) (fs, 10) := by
  simp only [defragPass, percurso, List.foldl_flatMap, List.foldl_map]

theorem not_usado_zero (fs : Fs) : ¬ fs.Usado 0 := fun h => absurd h.1 (by decide)

/-- Where every slot names a block in use, the places go by the order of the slots alone. -/
theorem colocados_eq_ordem {fs : Fs} {ps : List (ℕ × ℕ)}
    (h : ∀ p ∈ ps, fs.slot p ≠ 0 → fs.Usado (fs.slot p)) : fs.colocados ps = fs.ordem ps := by
  refine Placement.placed_eq_eraseDups (by decide) fs.not_usado_zero fun b hb => ?_
  obtain ⟨p, hp, rfl⟩ := List.mem_map.mp hb
  exact h p hp

theorem destino_eq_lugar {fs : Fs}
    (h : ∀ p ∈ percurso, fs.slot p ≠ 0 → fs.Usado (fs.slot p)) : fs.destino = fs.lugar := by
  funext b
  rw [destino, lugar, colocados_eq_ordem h]

/-! ## The pass -/

/-- The blocks of `base` are in use, and there is room for all of them from `lim` to 640. -/
structure Inicial (fs : Fs) (base : Finset (ℕ × ℕ)) (lim : ℕ) : Prop where
  arrumado : fs.Arrumado base 10 lim
  dez : 10 ≤ lim
  poucos : lim + (base.image fs.slot).card ≤ numBlocosMax

/-- The state after the slots `ps`, with `pos` the next place, from the state `fs₀`. -/
structure Passagem (fs₀ fs : Fs) (base live : Finset (ℕ × ℕ)) (lim : ℕ) (ps : List (ℕ × ℕ))
    (pos : ℕ) : Prop where
  arrumado : fs.Arrumado live pos lim
  sub : base ⊆ live
  same : SameInodes fs₀ fs
  referencias : fs.referencias = fs₀.referencias
  numeros : Placement.Pass 10 fs₀.Usado {p | p ∈ percurso} fs₀.slot fs.slot ps pos
  vivos : ∀ p ∈ live, fs₀.slot p ∈ fs₀.colocados ps ∨ fs₀.Usado (fs₀.slot p)
  altos : ∀ p ∈ live, lim ≤ fs.slot p → ∃ p' ∈ base, fs.slot p' = fs.slot p
  fora : ∀ p, p ∉ percurso → fs.slot p = fs₀.slot p
  noDisco : ∀ p ∈ base, fs.noDisco p = fs₀.noDisco p
  fica : ∀ p ∈ base, fs.slot p = fs₀.slot p → fs.pagina p = fs₀.pagina p
  vai : ∀ p ∈ base, fs.slot p ≠ fs₀.slot p → ¬ fs.cache.Valid (fs.slot p)

section Step

variable {fs₀ fs : Fs} {base live : Finset (ℕ × ℕ)} {lim : ℕ} {ps : List (ℕ × ℕ)} {pos : ℕ}
  (h₀ : fs₀.Inicial base lim)

include h₀

theorem Inicial.usado {p : ℕ × ℕ} (hp : p ∈ base) : fs₀.Usado (fs₀.slot p) :=
  ⟨h₀.arrumado.layout.range p hp, h₀.arrumado.layout.ocupado hp⟩

theorem Inicial.exists_base {b : ℕ} (hb : fs₀.Usado b) : ∃ p ∈ base, fs₀.slot p = b :=
  (h₀.arrumado.layout.bits b hb.1).mp hb.2

theorem Inicial.lim_le : lim ≤ numBlocosMax := Nat.le_of_add_right_le h₀.poucos

theorem Passagem.refl : Passagem fs₀ fs₀ base base lim [] 10 where
  arrumado := h₀.arrumado
  sub := Finset.Subset.refl base
  same := SameInodes.refl fs₀
  referencias := rfl
  numeros := Placement.Pass.refl fun _ _ hu => hu.1
  vivos _ hp := .inr (h₀.usado hp)
  altos p hp _ := ⟨p, hp, rfl⟩
  fora _ _ := rfl
  noDisco _ _ := rfl
  fica _ _ _ := rfl
  vai _ _ hne := absurd rfl hne

variable (h : Passagem fs₀ fs base live lim ps pos)

include h

omit h₀ in
theorem Passagem.vivos_snoc (p : ℕ × ℕ) :
    ∀ p' ∈ live, fs₀.slot p' ∈ fs₀.colocados (ps ++ [p]) ∨ fs₀.Usado (fs₀.slot p') := by
  intro p' hp'
  refine (h.vivos p' hp').imp_left fun hm => ?_
  rw [colocados, List.map_append, List.map_singleton, Placement.placed_snoc, Placement.place]
  split
  · exact hm
  · exact List.mem_append_left _ hm

omit h₀ in
/-- A slot that names a block before the next place changes nothing. -/
theorem Passagem.saltar {p : ℕ × ℕ} (hp : p ∈ percurso) (hlt : fs.slot p < pos) :
    Passagem fs₀ fs base live lim (ps ++ [p]) pos :=
  ⟨h.arrumado, h.sub, h.same, h.referencias, h.numeros.skip hp hlt, h.vivos_snoc p, h.altos, h.fora,
    h.noDisco, h.fica, h.vai⟩

omit h₀ in
/-- A block that is already in place. -/
theorem Passagem.manter {p : ℕ × ℕ} (hp : p ∈ percurso) (hpos : fs.slot p = pos) :
    Passagem fs₀ fs base live lim (ps ++ [p]) (pos + 1) :=
  ⟨h.arrumado.mono pos.le_succ, h.sub, h.same, h.referencias, h.numeros.keep hp hpos,
    h.vivos_snoc p, h.altos, h.fora, h.noDisco, h.fica, h.vai⟩

omit h₀ in
/-- A live slot at or behind the next place names a block that was in use at the start. -/
theorem Passagem.usado_of_ge {p : ℕ × ℕ} (hp : p ∈ live) (hge : pos ≤ fs.slot p) :
    fs₀.Usado (fs₀.slot p) :=
  (h.vivos p hp).resolve_left fun hm =>
    absurd (h.numeros.lt_of_mem (h.arrumado.dentro p hp) hm) (Nat.not_lt.mpr hge)

/-- Then a slot of `base` names the same block. -/
theorem Passagem.exists_base {p : ℕ × ℕ} (hp : p ∈ percurso) (hge : pos ≤ fs.slot p)
    (hu : fs₀.Usado (fs₀.slot p)) : ∃ p' ∈ base, fs.slot p' = fs.slot p := by
  obtain ⟨p', hp', hs⟩ := h₀.exists_base hu
  have hp'' := h.arrumado.dentro p' (h.sub hp')
  exact ⟨p', hp', ((h.numeros.pattern p hp p' hp'' hge).mpr hs.symm).symm⟩

/-- The blocks of `base` are as many as they were. -/
theorem Passagem.card_base : (base.image fs.slot).card ≤ (base.image fs₀.slot).card := by
  refine Finset.card_le_card_of_forall_subsingleton
    (fun b b₀ => ∃ p ∈ base, fs.slot p = b ∧ fs₀.slot p = b₀) (fun b hb => ?_) fun b₀ _ => ?_
  · obtain ⟨p, hp, hs⟩ := Finset.mem_image.mp hb
    exact ⟨fs₀.slot p, Finset.mem_image_of_mem _ hp, p, hp, hs, rfl⟩
  · rintro b ⟨-, p, hp, rfl, hs⟩ b' ⟨-, p', hp', rfl, hs'⟩
    exact (h.numeros.pattern_used (h.arrumado.dentro p (h.sub hp))
      (h.arrumado.dentro p' (h.sub hp')) (h₀.usado hp) (h₀.usado hp')).mpr (hs.trans hs'.symm)

omit h₀ in
/-- Where the next place is taken there is a free block behind it: the places before it are all
named, and the blocks up to 640 are more than the slots. -/
theorem Passagem.exists_free (hset : fs.ocupado pos = true) :
    ∃ c, pos < c ∧ c ≤ numBlocosMax ∧ fs.ocupado c = false := by
  by_contra hno
  have hsub : Finset.Ico 10 (numBlocosMax + 1) ⊆ percurso.toFinset.image fs.slot := by
    intro c hc
    rw [Finset.mem_Ico] at hc
    simp only [Finset.mem_image, List.mem_toFinset]
    by_cases hlt : c < pos
    · exact h.numeros.full c hc.1 hlt
    · have hocc : fs.ocupado c = true := by
        by_contra hfree
        rcases Nat.lt_or_eq_of_le (Nat.not_lt.mp hlt) with hgt | rfl
        · exact hno ⟨c, hgt, by omega, Bool.eq_false_of_not_eq_true hfree⟩
        · exact hfree hset
      obtain ⟨p, hp, hs⟩ := (h.arrumado.layout.bits c hc.1).mp hocc
      exact ⟨p, h.arrumado.dentro p hp, hs⟩
  have := (Finset.card_le_card hsub).trans (Finset.card_image_le.trans card_percurso_le)
  simp [numBlocosMax, itabSize, inodeNumBlks] at this

/-- There is a free block at or behind `lim`: the taken ones are blocks of `base`. -/
theorem Passagem.exists_free_ge : ∃ c, lim ≤ c ∧ c ≤ numBlocosMax ∧ fs.ocupado c = false := by
  by_contra hno
  have hl := h.arrumado.layout
  have hocc : ∀ c, lim ≤ c → c ≤ numBlocosMax → fs.ocupado c = true := fun c h1 h2 =>
    Bool.eq_true_of_not_eq_false fun hfree => hno ⟨c, h1, h2, hfree⟩
  have hsub : Finset.Ico lim (numBlocosMax + 1) ⊆ base.image fs.slot := by
    intro c hc
    rw [Finset.mem_Ico] at hc
    have := h₀.dez
    obtain ⟨p, hp, rfl⟩ := (hl.bits c (by omega)).mp (hocc c hc.1 (by omega))
    obtain ⟨p', hp', hs⟩ := h.altos p hp hc.1
    exact Finset.mem_image.mpr ⟨p', hp', hs⟩
  have hcard := (Finset.card_le_card hsub).trans (h.card_base h₀)
  have := h₀.poucos
  rw [Nat.card_Ico] at hcard
  omega

/-- The temporary block is behind the next place and not before `lim`. -/
theorem Passagem.blocoTemporario (hset : fs.ocupado pos = true) :
    pos < SnfsServer.blocoTemporario fs ∧ lim ≤ SnfsServer.blocoTemporario fs ∧
      SnfsServer.blocoTemporario fs ≤ numBlocosMax ∧
        fs.ocupado (SnfsServer.blocoTemporario fs) = false := by
  have hl := h.arrumado.layout
  have h10 : ∀ c, fs.ocupado c = false → 10 ≤ c := by
    intro c hc
    by_contra hlt
    simp [hl.reserved c (Nat.not_le.mp hlt)] at hc
  obtain ⟨c, hc, hcmax, hcfree⟩ := h.exists_free hset
  obtain ⟨c', hc', hcmax', hcfree'⟩ := h.exists_free_ge h₀
  obtain ⟨hle, hmax, hfree⟩ := blocoTemporario_spec (h10 c hcfree) hcmax hcfree
  have hle' := (blocoTemporario_spec (h10 c' hcfree') hcmax' hcfree').1
  exact ⟨by omega, by omega, hmax, hfree⟩

/-- What stands at the next place moves off exactly when it is in use. -/
theorem Passagem.move {fs' : Fs} {bl k : ℕ} (hx : Mexido fs fs' live lim bl pos k) :
    Placement.Move fs₀.Usado {p | p ∈ percurso} fs₀.slot fs.slot fs'.slot bl pos k := by
  refine ⟨hx.slot, hx.temp.imp And.left And.right, fun p hp hs => ?_⟩
  rcases hx.temp with ⟨rfl, hfree⟩ | ⟨hset, hk, -⟩
  · refine iff_of_false (fun hu => ?_) (not_not.mpr rfl)
    obtain ⟨p', hp', hs'⟩ := h.exists_base h₀ hp hs.ge hu
    exact h.arrumado.layout.slot_ne_of_free hfree (h.sub hp') (hs'.trans hs)
  · refine iff_of_true ?_ hk.ne'
    obtain ⟨p', hp', hs'⟩ := (h.arrumado.layout.bits pos h.numeros.le_pos).mp hset
    have hu := h.usado_of_ge hp' hs'.ge
    rwa [(h.numeros.pattern p' (h.arrumado.dentro p' hp') p hp hs'.ge).mp
      (hs'.trans hs.symm)] at hu

/-- A block behind the next place moves there. -/
theorem Passagem.mexer {fs' : Fs} {p : ℕ × ℕ} {k : ℕ} (hp : p ∈ percurso) (hpos : pos < fs.slot p)
    (hx : Mexido fs fs' live lim (fs.slot p) pos k) :
    ∃ live', Passagem fs₀ fs' base live' lim (ps ++ [p]) (pos + 1) := by
  have hmove := h.move h₀ hx
  have hsub := subset_juntar fs live (fs.slot p)
  have hbase : ∀ p' ∈ base, p' ∈ percurso := fun p' hp' => h.arrumado.dentro p' (h.sub hp')
  refine ⟨_, hx.arrumado, h.sub.trans hsub, h.same.trans hx.same,
    hx.referencias.trans h.referencias, h.numeros.move hp hpos hmove, fun p' hp' => ?_,
    fun p' hp' hlim => ?_, fun p' hp' => (hx.fora p' hp').trans (h.fora p' hp'),
    fun p' hp' => (hx.noDisco p' (h.sub hp')).trans (h.noDisco p' hp'), fun p' hp' hs => ?_,
    fun p' hp' hs => ?_⟩
  · rcases mem_juntar.mp hp' with hp' | ⟨hp', hs, -⟩
    · exact h.vivos_snoc p p' hp'
    · refine .inl ?_
      rw [← (h.numeros.pattern p hp p' hp' hpos.le).mp hs.symm, colocados,
        h.numeros.placed_next hp hpos.le]
      simp
  · have hin : p' ∈ percurso := hx.arrumado.dentro p' hp'
    have hs' := hx.slot p' hin
    rcases mem_juntar.mp hp' with hp' | ⟨-, hs, hfree⟩
    · -- the slots of `base` that named the block go with it
      obtain ⟨p'', hp'', hs''⟩ : ∃ p'' ∈ base, fs.slot p'' = fs.slot p' := by
        by_cases hge : pos ≤ fs.slot p'
        · exact h.exists_base h₀ hin hge (h.usado_of_ge hp' hge)
        · rw [hs', if_neg (by omega), if_neg (by omega)] at hlim
          exact h.altos p' hp' hlim
      exact ⟨p'', hp'', by rw [hx.slot p'' (hbase p'' hp''), hs', hs'']⟩
    · have := h.arrumado.lt_of_free hp hpos.le hfree
      rw [hs', if_pos hs] at hlim
      omega
  · obtain ⟨hs', hb, hd⟩ := h.numeros.move_back hpos hmove (hbase p' hp') (h₀.usado hp') hs
    rw [hx.fica p' (h.sub hp') hb hd]
    exact h.fica p' hp' hs'
  · by_cases hbd : fs.slot p' = fs.slot p ∨ fs.slot p' = pos
    · exact hx.vai p' (h.sub hp') hbd
    · rw [not_or] at hbd
      have he : fs'.slot p' = fs.slot p' := by
        rw [hx.slot p' (hbase p' hp'), if_neg hbd.1, if_neg hbd.2]
      rw [he] at hs ⊢
      exact fun hv => h.vai p' hp' hs (hx.valid _ hv)

/-- One slot of the pass. -/
theorem Passagem.passo {p : ℕ × ℕ} (hp : p ∈ percurso) :
    ∃ live', Passagem fs₀ (defragSlot p.1 p.2 (fs, pos)).1 base live' lim (ps ++ [p])
      (defragSlot p.1 p.2 (fs, pos)).2 := by
  have hslot : (fs.inodeTab p.1).blocks p.2 = fs.slot p := rfl
  simp only [defragSlot, hslot]
  split
  · rename_i he
    exact ⟨live, h.manter hp he⟩
  · split
    · rename_i hlt
      have hbits : fs.slot p < bmapBits := by
        cases ho : fs.ocupado (fs.slot p) with
        | true => exact lt_of_bmapIsSet ho
        | false =>
            have := h.arrumado.lt_of_free hp hlt.le ho
            have := h₀.lim_le
            simp only [numBlocosMax, inodeNumBlks, itabSize, bmapBits, blockSize] at *
            omega
      obtain ⟨k, hx⟩ := mexeBlocoPara_spec h.arrumado ⟨p, hp, rfl⟩ h.numeros.le_pos hlt hbits
        (h.blocoTemporario h₀)
      exact h.mexer h₀ hp hlt hx
    · exact ⟨live, h.saltar hp (by omega)⟩

end Step

theorem Passagem.foldl {fs₀ : Fs} {base : Finset (ℕ × ℕ)} {lim : ℕ} (h₀ : fs₀.Inicial base lim)
    (rest : List (ℕ × ℕ)) (hrest : ∀ p ∈ rest, p ∈ percurso) {fs : Fs} {live : Finset (ℕ × ℕ)}
    {ps : List (ℕ × ℕ)} {pos : ℕ} (h : Passagem fs₀ fs base live lim ps pos) :
    ∃ live', Passagem fs₀ (rest.foldl (fun r p => defragSlot p.1 p.2 r) (fs, pos)).1 base live' lim
      (ps ++ rest) (rest.foldl (fun r p => defragSlot p.1 p.2 r) (fs, pos)).2 := by
  induction rest generalizing fs live ps pos with
  | nil => exact ⟨live, by simpa using h⟩
  | cons p rest ih =>
      obtain ⟨live₁, h₁⟩ := h.passo h₀ (hrest p List.mem_cons_self)
      obtain ⟨live', h'⟩ := ih (fun q hq => hrest q (List.mem_cons_of_mem _ hq)) h₁
      rw [List.append_assoc, List.singleton_append] at h'
      exact ⟨live', h'⟩

/-! ## The call -/

/-- What a successful `fs_defrag` does: every block of `base` goes to its place, and a page whose
block moves shows what the disk held. -/
structure Desfragmentado (fs fs' : Fs) (base live : Finset (ℕ × ℕ)) : Prop where
  layout : fs'.Layout live
  sub : base ⊆ live
  dentro : ∀ p ∈ live, p ∈ percurso ∧ fs.slot p ≠ 0
  same : SameInodes fs fs'
  referencias : fs'.referencias = fs.referencias
  slot : ∀ p ∈ base, fs'.slot p = fs.destino (fs.slot p)
  injective : ∀ p ∈ base, ∀ p' ∈ base,
    fs.destino (fs.slot p) = fs.destino (fs.slot p') ↔ fs.slot p = fs.slot p'
  fora : ∀ p, p ∉ percurso ∨ fs.slot p = 0 → fs'.slot p = fs.slot p
  noDisco : ∀ p ∈ base, fs'.noDisco p = fs.noDisco p
  pagina : ∀ p ∈ base, fs'.pagina p =
    if fs.destino (fs.slot p) = fs.slot p then fs.pagina p else fs.noDisco p

theorem defragPass_spec {fs : Fs} {base : Finset (ℕ × ℕ)} {lim : ℕ} (h : fs.Inicial base lim) :
    ∃ live, Desfragmentado fs (defragPass fs).1 base live := by
  obtain ⟨live, hp⟩ := Passagem.foldl h percurso (fun _ => id) (Passagem.refl h)
  rw [← defragPass_eq, List.nil_append] at hp
  have hdentro : ∀ p ∈ base, p ∈ percurso := h.arrumado.dentro
  have hslot : ∀ p ∈ base, (defragPass fs).1.slot p = fs.destino (fs.slot p) := fun p hb =>
    hp.numeros.seen p (hdentro p hb)
      (Placement.mem_placed (List.mem_map_of_mem (hdentro p hb)) (h.usado hb))
  have hzero : 0 ∉ fs.colocados percurso := fun hm =>
    (Placement.used_or_le_of_mem_placed hm).elim fs.not_usado_zero (by decide)
  refine ⟨live, hp.arrumado.layout, hp.sub, fun p hl => ⟨hp.arrumado.dentro p hl, fun hz => ?_⟩,
    hp.same, hp.referencias, hslot, fun p hb p' hb' => ?_, fun p hor => ?_, hp.noDisco,
    fun p hb => ?_⟩
  · have := hp.vivos p hl
    rw [hz] at this
    exact this.elim hzero fs.not_usado_zero
  · rw [← hslot p hb, ← hslot p' hb',
      hp.numeros.pattern_used (hdentro p hb) (hdentro p' hb') (h.usado hb) (h.usado hb')]
  · by_cases hmem : p ∈ percurso
    · have hz := hor.resolve_left (not_not.mpr hmem)
      refine hp.numeros.free p hmem ?_ ?_
      · rw [hz]
        exact fs.not_usado_zero
      · rw [hz]
        exact hzero
    · exact hp.fora p hmem
  · rw [← hslot p hb]
    split
    · rename_i he
      exact hp.fica p hb he
    · rename_i hne
      rw [Fs.pagina, CacheT.conteudo_of_not_valid (hp.vai p hb hne)]
      exact hp.noDisco p hb

/-! ## A pass that moves nothing -/

/-- From the slots on, with `pos` the next place, no block has to move. -/
def Parado (fs : Fs) : List (ℕ × ℕ) → ℕ → Prop
  | [], _ => True
  | p :: ps, pos => fs.slot p ≤ pos ∧ fs.Parado ps (if fs.slot p = pos then pos + 1 else pos)

instance decidableParado (fs : Fs) : ∀ ps pos, Decidable (fs.Parado ps pos)
  | [], _ => isTrue trivial
  | p :: ps, pos =>
      have := fs.decidableParado ps (if fs.slot p = pos then pos + 1 else pos)
      inferInstanceAs (Decidable (fs.slot p ≤ pos ∧ fs.Parado ps _))

theorem defragSlot_parado {fs : Fs} {p : ℕ × ℕ} {pos : ℕ} (h : fs.slot p ≤ pos) :
    defragSlot p.1 p.2 (fs, pos) = (fs, if fs.slot p = pos then pos + 1 else pos) := by
  have hs : (fs.inodeTab p.1).blocks p.2 = fs.slot p := rfl
  rw [defragSlot, hs]
  split
  · rfl
  · rw [if_neg (Nat.not_lt.mpr h)]

theorem defragSlot_mexe {fs : Fs} {p : ℕ × ℕ} {pos : ℕ} (h : pos < fs.slot p) :
    defragSlot p.1 p.2 (fs, pos) = (mexeBlocoPara fs (fs.slot p) pos, pos + 1) := by
  rw [defragSlot]
  exact (if_neg h.ne').trans (if_pos h)

theorem Parado.foldl {fs : Fs} {ps : List (ℕ × ℕ)} {pos : ℕ} (h : fs.Parado ps pos) :
    (ps.foldl (fun r p => defragSlot p.1 p.2 r) (fs, pos)).1 = fs := by
  induction ps generalizing pos with
  | nil => rfl
  | cons p ps ih =>
      rw [List.foldl_cons, defragSlot_parado h.1]
      exact ih h.2

/-- Otherwise there is a first slot whose block moves. -/
theorem exists_mexe_of_not_parado {fs : Fs} {ps : List (ℕ × ℕ)} {pos : ℕ}
    (h : ¬ fs.Parado ps pos) : ∃ vistos p rest pos', ps = vistos ++ p :: rest ∧
      vistos.foldl (fun r p => defragSlot p.1 p.2 r) (fs, pos) = (fs, pos') ∧
        pos' < fs.slot p := by
  induction ps generalizing pos with
  | nil => exact absurd trivial h
  | cons p ps ih =>
      by_cases hle : fs.slot p ≤ pos
      · obtain ⟨vistos, p', rest, pos', hps, hfold, hlt⟩ := ih fun hp => h ⟨hle, hp⟩
        refine ⟨p :: vistos, p', rest, pos', by rw [hps, List.cons_append], ?_, hlt⟩
        rw [List.foldl_cons, defragSlot_parado hle, hfold]
      · exact ⟨[], p, ps, pos, rfl, rfl, Nat.not_le.mp hle⟩

/-- The blocks that `fs_defrag` looks at before it starts. -/
def TemBlocos (fs : Fs) : Prop := ∃ b, 10 ≤ b ∧ b < numBlocosMax ∧ fs.ocupado b = true

theorem temBlocos_iff {fs : Fs} : fs.TemBlocos ↔
    (List.range' 10 (numBlocosMax - 10)).any (fun i => bmapIsSet fs.blkBmap i) = true := by
  simp only [TemBlocos, List.any_eq_true, List.mem_range'_1, numBlocosMax, inodeNumBlks,
    itabSize, and_assoc]
  rfl

instance : DecidablePred TemBlocos := fun _ => decidable_of_iff _ temBlocos_iff.symm

/-- `fs_defrag` refuses to work when it finds no block to move. -/
theorem fsDefrag_of_not {fs : Fs} (h : ¬ fs.TemBlocos) : fsDefrag fs = (fs, -1) :=
  if_neg fun hany => h (temBlocos_iff.mpr hany)

theorem fsDefrag_of_parado {fs : Fs} (h : fs.Parado percurso 10) : (fsDefrag fs).1 = fs := by
  have hpass : (defragPass fs).1 = fs := by
    rw [defragPass_eq]
    generalize percurso = ps at h ⊢
    exact h.foldl
  by_cases ht : fs.TemBlocos
  · rw [fsDefrag, if_pos (temBlocos_iff.mp ht), hpass]
  · rw [fsDefrag_of_not ht]

/-- Otherwise it puts every block in its place. -/
theorem fsDefrag_spec {fs : Fs} {base : Finset (ℕ × ℕ)} {lim : ℕ} (h : fs.Inicial base lim)
    (ht : fs.TemBlocos) : ∃ fs' live, fsDefrag fs = (fs', 1) ∧ Desfragmentado fs fs' base live := by
  obtain ⟨live, hd⟩ := defragPass_spec h
  exact ⟨_, live, if_pos (temBlocos_iff.mp ht), hd⟩

end Fs

end ThreadScheduler.SnfsServer
