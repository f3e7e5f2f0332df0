import ThreadScheduler.SnfsServer.Copy

/-!
# Appending files

`fs_append` gives the first file the block numbers of the second one behind its own. The
sizes are added, so the accounts stay exact only when the last block of the first file is
counted in full: when the two block counts add up to that of the new size.
-/
namespace ThreadScheduler.SnfsServer

namespace Fs

/-- The append of file `para` to file `de` keeps the accounts: there is nothing to append, or
the second i-node is a file, its blocks are all in use afterwards and the counters fit. -/
def AnexoExacto (fs : Fs) (de para : ℕ) : Prop :=
  fs.sizeAt para = 0 ∨ fs.typeAt para = .fsFile ∧
    offsetToBlocks (fs.sizeAt de + fs.sizeAt para) =
      offsetToBlocks (fs.sizeAt de) + offsetToBlocks (fs.sizeAt para) ∧
    fs.Cabe fs.emUso para (offsetToBlocks (fs.sizeAt para))

/-- What `fs_append` of file `para` to file `de` does. -/
structure Anexado (fs fs' : Fs) (de para : ℕ) : Prop where
  origem : fs.typeAt de = .fsFile
  inodeBmap : fs'.inodeBmap = fs.inodeBmap
  type : ∀ j, fs'.typeAt j = fs.typeAt j
  size : ∀ j, fs'.sizeAt j = if j = de then fs.sizeAt de + fs.sizeAt para else fs.sizeAt j
  slot : ∀ p, fs'.slot p =
    if p.1 = de ∧ offsetToBlocks (fs.sizeAt de) ≤ p.2 ∧
        p.2 < offsetToBlocks (fs.sizeAt de) + offsetToBlocks (fs.sizeAt para) then
      fs.slot (para, p.2 - offsetToBlocks (fs.sizeAt de))
    else fs.slot p
  cache : fs'.cache = fs.cache
  consistent : fs'.Consistent

theorem Accounts.cabe_zero {fs : Fs} {live : Finset (ℕ × ℕ)} (h : fs.Accounts live) (i : ℕ) :
    fs.Cabe live i 0 := by
  intro b
  have := h.char b
  rw [h.refs] at this
  simp only [vezes, Finset.range_zero, Finset.filter_empty, Finset.card_empty]
  omega

/-- The append between two i-nodes, or of a file to itself. -/
theorem anexar_spec {fs : Fs} (h : fs.Consistent) {de para : ℕ} (ht : fs.typeAt de = .fsFile)
    (hex : fs.AnexoExacto de para)
    (hfits : offsetToBlocks (fs.sizeAt de) + offsetToBlocks (fs.sizeAt para) ≤ inodeNumBlks) :
    Anexado fs ((copiarReferencias fs para de (offsetToBlocks (fs.sizeAt de))
      (offsetToBlocks (fs.sizeAt para))).setSize de (fs.sizeAt de + fs.sizeAt para)) de para := by
  obtain ⟨hfile, hsum, hcabe⟩ :
      (0 < offsetToBlocks (fs.sizeAt para) → fs.typeAt para = .fsFile) ∧
        offsetToBlocks (fs.sizeAt de + fs.sizeAt para) =
          offsetToBlocks (fs.sizeAt de) + offsetToBlocks (fs.sizeAt para) ∧
        fs.Cabe fs.emUso para (offsetToBlocks (fs.sizeAt para)) := by
    rcases hex with h0 | ⟨hf, hs, hc⟩
    · rw [h0]
      exact ⟨fun hlt => absurd hlt (Nat.lt_irrefl 0), rfl, h.acc.cabe_zero para⟩
    · exact ⟨fun _ => hf, hs, hc⟩
  have hlt := h.lt_of_alocado (h.alocado_of_type (i := de) (by simp [ht]))
  obtain ⟨live', hlive', hacc, hsame, hcache, hslot⟩ := copiarReferencias_spec h.acc para de
    (offsetToBlocks (fs.sizeAt de)) (offsetToBlocks (fs.sizeAt para)) ht
    (fun i hi => ⟨(para, i), h.mem_emUso_iff.mpr hi, hfile (by omega), rfl⟩)
    (fun i _ => by rw [h.mem_emUso_iff]; omega) (fun he => .inr (by rw [he])) hlt hfits hcabe
  generalize copiarReferencias fs para de (offsetToBlocks (fs.sizeAt de))
    (offsetToBlocks (fs.sizeAt para)) = fs₁ at *
  have hslot' : ∀ p, (fs₁.setSize de (fs.sizeAt de + fs.sizeAt para)).slot p = fs₁.slot p :=
    fun p => setSize_slot _ _ _ _
  have htype' : ∀ j, (fs₁.setSize de (fs.sizeAt de + fs.sizeAt para)).typeAt j = fs.typeAt j := by
    intro j
    rw [setSize_typeAt, hsame.type]
  have hsize' : ∀ j, (fs₁.setSize de (fs.sizeAt de + fs.sizeAt para)).sizeAt j =
      if j = de then fs.sizeAt de + fs.sizeAt para else fs.sizeAt j := by
    intro j
    rw [setSize_sizeAt, hsame.size]
  have ha : ∀ j, (fs₁.setSize de (fs.sizeAt de + fs.sizeAt para)).alocado j = fs.alocado j :=
    hsame.alocado
  have huso : (fs₁.setSize de (fs.sizeAt de + fs.sizeAt para)).emUso = live' := by
    ext ⟨j, r⟩
    rw [hlive', mem_emUso, mem_emUso, ha, hsize']
    by_cases hj : j = de
    · subst hj
      have hal := h.alocado_of_type (i := j) (by simp [ht])
      simp only [if_true, hsum, hal, hlt, true_and]
      omega
    · simp [hj]
  have hother : ∀ p, p.1 ≠ de → fs₁.slot p = fs.slot p := fun p hp => by
    rw [hslot, if_neg fun he => hp he.1]
  have hdir : ∀ d, fs.typeAt d = .fsDir → d ≠ de := by
    rintro d hd rfl
    simp [ht] at hd
  refine ⟨ht, hsame.inodeBmap, htype', hsize', fun p => by rw [hslot', hslot], hcache, ?_⟩
  refine h.of_files hsame.inodeBmap htype' (fun j hj => ?_) (fun j => ?_)
    (fun d hd q _ => by rw [hslot', hother _ (hdir d hd)]) (fun d hd q _ => ?_) ?_
  · rw [hsize', if_neg]
    rintro rfl
    exact hj ht
  · rw [hsize']
    split
    · exact offsetToBlocks_le.mp (by omega)
    · exact h.inodes.full j
  · rw [pagina, pagina, hslot', hother _ (hdir d hd), setSize_cache, hcache]
  · rw [huso]
    exact hacc.congr rfl rfl rfl (fun p _ => setSize_typeAt _ _ _ _) fun p _ => hslot' p

/-- `fs_append` either refuses the call or appends between the i-nodes of the two names. -/
theorem fsAppend_spec {fs : Fs} (h : fs.Consistent) (d₁ : ℕ) (nome₁ : CString) (d₂ : ℕ)
    (nome₂ : CString)
    (hex : ∀ de para, fs.resolve d₁ nome₁.val = some de → fs.resolve d₂ nome₂.val = some para →
      fs.typeAt de = .fsFile →
      offsetToBlocks (fs.sizeAt de) + offsetToBlocks (fs.sizeAt para) ≤ inodeNumBlks →
      fs.AnexoExacto de para) :
    fsAppend fs d₁ nome₁ d₂ nome₂ = some (fs, none) ∨
      ∃ fs' de para, fsAppend fs d₁ nome₁ d₂ nome₂ =
          some (fs', some (fs.sizeAt de + fs.sizeAt para)) ∧
        fs.resolve d₁ nome₁.val = some de ∧ fs.resolve d₂ nome₂.val = some para ∧
        Anexado fs fs' de para := by
  rw [fsAppend]
  by_cases hargs : itabSize ≤ d₁ ∨ badName nome₁
  · exact .inl (if_pos hargs)
  rw [if_neg hargs]
  by_cases hset₁ : (!bmapIsSet fs.inodeBmap d₁) = true
  · exact .inl (if_pos hset₁)
  rw [if_neg hset₁]
  by_cases hdir₁ : (fs.inodeTab d₁).type ≠ .fsDir
  · exact .inl (if_pos hdir₁)
  rw [if_neg hdir₁]
  have ht₁ : fs.typeAt d₁ = .fsDir := not_not.mp hdir₁
  rw [h.fsiDirSearch_eq ht₁ nome₁.property, Option.bind_some]
  cases hde : fs.procura d₁ nome₁.val with
  | none => exact .inl rfl
  | some de =>
      simp only
      by_cases hfile : (fs.inodeTab de).type ≠ .fsFile
      · exact .inl (if_pos hfile)
      rw [if_neg hfile]
      by_cases hname : badName nome₂
      · exact .inl (if_pos hname)
      rw [if_neg hname]
      by_cases hset₂ : (!bmapIsSet fs.inodeBmap d₂) = true
      · exact .inl (if_pos hset₂)
      rw [if_neg hset₂]
      by_cases hdir₂ : (fs.inodeTab d₂).type ≠ .fsDir
      · exact .inl (if_pos hdir₂)
      rw [if_neg hdir₂]
      have htde : fs.typeAt de = .fsFile := not_not.mp hfile
      have ht₂ : fs.typeAt d₂ = .fsDir := not_not.mp hdir₂
      rw [h.fsiDirSearch_eq ht₂ nome₂.property, Option.bind_some]
      cases hpara : fs.procura d₂ nome₂.val with
      | none => exact .inl rfl
      | some para =>
          have hsize : ∀ i, (fs.inodeTab i).size = fs.sizeAt i := fun _ => rfl
          simp only [hfile, if_false, hsize]
          have hle := h.offsetToBlocks_le de
          split
          · exact .inl rfl
          · rename_i hfits
            have hfits : offsetToBlocks (fs.sizeAt de) + offsetToBlocks (fs.sizeAt para) ≤
                inodeNumBlks := by omega
            have hr₁ : fs.resolve d₁ nome₁.val = some de := by rw [resolve_of_dir ht₁, hde]
            have hr₂ : fs.resolve d₂ nome₂.val = some para := by rw [resolve_of_dir ht₂, hpara]
            exact .inr ⟨_, de, para, rfl, hr₁, hr₂,
              anexar_spec h htde (hex de para hr₁ hr₂ htde hfits) hfits⟩

end Fs

end ThreadScheduler.SnfsServer
