import ThreadScheduler.SnfsServer.Append
import ThreadScheduler.SnfsServer.Defrag
import ThreadScheduler.SnfsServer.RemoveName

/-!
# Exact accounts over runs

The block bitmap and the reference counters are exact as long as no call goes wrong: a copy
of a file onto itself that frees its own blocks, a counter that leaves the range of a
`char`, an append that leaves slots past the new size, or a defragmentation, which moves
blocks without their counters.
-/
namespace ThreadScheduler.SnfsServer

namespace Fs

/-- The bitmap marks the blocks that slots in use name, and the counter of a block that
files use counts the slots in use that name it. -/
structure ContasExactas (fs : Fs) : Prop where
  bits : ∀ b, 10 ≤ b → (fs.ocupado b = true ↔ ∃ p ∈ fs.emUso, fs.slot p = b)
  refs : ∀ b, (∃ p ∈ fs.emUso, fs.typeAt p.1 = .fsFile ∧ fs.slot p = b) →
    fs.referencias b = (fs.fileSlots fs.emUso b).card

theorem Consistent.contasExactas {fs : Fs} (h : fs.Consistent) : fs.ContasExactas :=
  ⟨h.acc.bits, fun b _ => h.acc.refs b⟩

/-- No slot of i-nodes 1 to 63 past the size of its i-node still holds a block number. -/
def SemRestos (fs : Fs) : Prop :=
  ∀ p, 1 ≤ p.1 → p.1 < itabSize → p.2 < inodeNumBlks → fs.slot p ≠ 0 → p ∈ fs.emUso

/-- A defragmentation keeps the accounts: it does nothing, or every file block goes to a
place whose counter has the same value. -/
def DefragExacto (fs : Fs) : Prop :=
  ¬ fs.TemBlocos ∨ fs.SemRestos ∧ fs.Distintos fs.emUso ∧
    ∀ p ∈ fs.emUso, fs.typeAt p.1 = .fsFile →
      fs.referencias (fs.lugar (fs.slot p)) = fs.referencias (fs.slot p)

/-- A copy keeps the accounts: the counters fit, and a file copied onto itself shares every
block with other files. -/
def CopiaExacta (fs : Fs) (origem destino : Option ℕ) : Prop :=
  ∀ de, origem = some de → fs.typeAt de = .fsFile →
    (destino = none → fs.Cabe fs.emUso de (offsetToBlocks (fs.sizeAt de))) ∧
    ∀ para, destino = some para → fs.typeAt para = .fsFile →
      fs.Cabe (fs.foraDe para) de (offsetToBlocks (fs.sizeAt de)) ∧
        (de = para → fs.Partilha de de)

end Fs

/-- The calls after which the accounts are still exact. -/
def FsOp.ContasOk (fs : Fs) : FsOp → Prop
  | copy d₁ nome₁ d₂ nome₂ =>
      fs.CopiaExacta (fs.resolve d₁ nome₁.val) (fs.resolve d₂ nome₂.val)
  | append d₁ nome₁ d₂ nome₂ => ∀ de para, fs.resolve d₁ nome₁.val = some de →
      fs.resolve d₂ nome₂.val = some para → fs.typeAt de = .fsFile →
      offsetToBlocks (fs.sizeAt de) + offsetToBlocks (fs.sizeAt para) ≤ inodeNumBlks →
      fs.AnexoExacto de para
  | defrag => fs.DefragExacto
  | _ => True

namespace Fs

/-! ## Defragmentation -/

theorem Consistent.mem_percurso {fs : Fs} (h : fs.Consistent) {p : ℕ × ℕ} (hp : p ∈ fs.emUso) :
    p ∈ percurso := by
  obtain ⟨h2, hq⟩ := h.acc.bound p hp
  exact Fs.mem_percurso.mpr ⟨⟨h.pos_of_mem hp, h2⟩, hq⟩

theorem SemRestos.mem_emUso {fs : Fs} (hr : fs.SemRestos) {p : ℕ × ℕ} (hp : p ∈ percurso)
    (h0 : fs.slot p ≠ 0) : p ∈ fs.emUso := by
  obtain ⟨⟨h1, h2⟩, hq⟩ := mem_percurso.mp hp
  exact hr p h1 h2 hq h0

theorem Consistent.destino_eq_lugar {fs : Fs} (h : fs.Consistent) (hr : fs.SemRestos) :
    fs.destino = fs.lugar :=
  Fs.destino_eq_lugar fun p hp h0 =>
    have hu := hr.mem_emUso hp h0
    ⟨h.acc.range p hu, h.acc.ocupado hu⟩

/-- The slots in use are few enough for the blocks from 10 to 640. -/
theorem Consistent.card_emUso_le {fs : Fs} (h : fs.Consistent) :
    10 + (fs.emUso.image fs.slot).card ≤ numBlocosMax := by
  have hsub : fs.emUso ⊆ percurso.toFinset := fun p hp =>
    List.mem_toFinset.mpr (h.mem_percurso hp)
  have hcard : (fs.emUso.image fs.slot).card ≤ (itabSize - 1) * inodeNumBlks :=
    Finset.card_image_le.trans ((Finset.card_le_card hsub).trans card_percurso_le)
  simp only [numBlocosMax, itabSize, inodeNumBlks] at *
  omega

theorem Consistent.inicial {fs : Fs} (h : fs.Consistent) (hr : fs.SemRestos)
    (hd : fs.Distintos fs.emUso) : fs.Inicial fs.emUso 10 where
  arrumado := by
    refine ⟨h.acc.toLayout, fun p => h.mem_percurso, fun p hp hno hge => ?_,
      fun i q q' hq hq' hge hs => ?_⟩
    · exact absurd (hr.mem_emUso hp (by omega)) hno
    · have hu := hr.mem_emUso hq (by omega)
      have hu' := hr.mem_emUso hq' (by omega)
      rcases h.acc.file_or_dir hu with ht | ht
      · exact hd i q q' ht hu hu' hs
      · exact (Prod.mk.inj (h.acc.dirOwn _ hu _ hu' ht hs.symm)).2.symm
  dez := le_rfl
  poucos := h.card_emUso_le

/-- A defragmentation of a table without block numbers past a size. -/
theorem Consistent.fsDefrag_semRestos {fs : Fs} (h : fs.Consistent) (hr : fs.SemRestos)
    (hd : fs.Distintos fs.emUso) (ht : fs.TemBlocos) :
    ∃ fs', fsDefrag fs = (fs', 1) ∧ Desfragmentado fs fs' fs.emUso fs.emUso := by
  obtain ⟨fs', live, hdef, hdes⟩ := fsDefrag_spec (h.inicial hr hd) ht
  have hlive : live = fs.emUso := Finset.Subset.antisymm
    (fun p hp => hr.mem_emUso (hdes.dentro p hp).1 (hdes.dentro p hp).2) hdes.sub
  exact ⟨fs', hdef, hlive ▸ hdes⟩

/-- The file blocks of a consistent state whose counters move with them leave no counter
behind. -/
theorem refs_lugar {fs fs' : Fs} (h : fs.Consistent) (hr : fs.SemRestos)
    (hd : Desfragmentado fs fs' fs.emUso fs.emUso)
    (hrefs : ∀ p ∈ fs.emUso, fs.typeAt p.1 = .fsFile →
      fs.referencias (fs.lugar (fs.slot p)) = fs.referencias (fs.slot p)) (b : ℕ) :
    fs.referencias b = (fs'.fileSlots fs.emUso b).card := by
  have hinj := hd.injective
  rw [h.destino_eq_lugar hr] at hinj
  have hmem : ∀ c p, p ∈ fs'.fileSlots fs.emUso c ↔
      p ∈ fs.emUso ∧ fs.typeAt p.1 = .fsFile ∧ fs.lugar (fs.slot p) = c := by
    intro c p
    rw [mem_fileSlots, hd.same.type]
    refine and_congr_right fun hp => ?_
    rw [hd.slot p hp, h.destino_eq_lugar hr]
  by_cases hex : ∃ p, p ∈ fs'.fileSlots fs.emUso b
  · -- the slots that name `b` now are those that named one block before
    obtain ⟨p, hp⟩ := hex
    obtain ⟨hpl, ht, rfl⟩ := (hmem b p).mp hp
    rw [hrefs p hpl ht, h.acc.refs]
    congr 2
    ext p'
    rw [hmem, mem_fileSlots]
    refine and_congr_right fun hp' => and_congr_right fun _ => ?_
    exact (hinj p' hp' p hpl).symm
  · -- the counters of the new places add up to all the references there are
    have hempty : fs'.fileSlots fs.emUso b = ∅ :=
      Finset.eq_empty_of_forall_notMem fun p hp => hex ⟨p, hp⟩
    let files := fs.emUso.filter fun p => fs.typeAt p.1 = .fsFile
    let r := fun c => (fs.fileSlots fs.emUso c).card
    have hr : ∀ c, fs.referencias c = r c := h.acc.refs
    have hfiles : ∀ p, p ∈ files ↔ p ∈ fs.emUso ∧ fs.typeAt p.1 = .fsFile := by simp [files]
    have hsum : ∑ c ∈ (files.image fs.slot).image fs.lugar, r c =
        ∑ c ∈ files.image fs.slot, r c := by
      rw [Finset.sum_image]
      · refine Finset.sum_congr rfl fun c hc => ?_
        obtain ⟨p, hp, rfl⟩ := Finset.mem_image.mp hc
        obtain ⟨hp, ht⟩ := (hfiles p).mp hp
        exact_mod_cast (hr _).symm.trans ((hrefs p hp ht).trans (hr _))
      · intro c hc c' hc' he
        obtain ⟨p, hp, rfl⟩ := Finset.mem_image.mp hc
        obtain ⟨p', hp', rfl⟩ := Finset.mem_image.mp hc'
        exact (hinj p ((hfiles p).mp hp).1 p' ((hfiles p').mp hp').1).mp he
    have hb : b ∉ (files.image fs.slot).image fs.lugar := by
      intro hb
      obtain ⟨c, hc, hcb⟩ := Finset.mem_image.mp hb
      obtain ⟨p, hp, rfl⟩ := Finset.mem_image.mp hc
      obtain ⟨hp, ht⟩ := (hfiles p).mp hp
      exact hex ⟨p, (hmem b p).mpr ⟨hp, ht, hcb⟩⟩
    have hle : ∑ c ∈ insert b ((files.image fs.slot).image fs.lugar), r c ≤
        ∑ c ∈ files.image fs.slot, r c := by
      refine Finset.sum_le_sum_of_ne_zero fun c _ hc => ?_
      obtain ⟨p, hp⟩ := Finset.card_pos.mp (Nat.pos_of_ne_zero hc)
      obtain ⟨hpl, ht, rfl⟩ := mem_fileSlots.mp hp
      exact Finset.mem_image.mpr ⟨p, (hfiles p).mpr ⟨hpl, ht⟩, rfl⟩
    rw [Finset.sum_insert hb, hsum] at hle
    rw [hempty, hr]
    simp only [Finset.card_empty]
    omega

theorem Desfragmentado.consistent {fs fs' : Fs} (h : fs.Consistent) (hr : fs.SemRestos)
    (hd : Desfragmentado fs fs' fs.emUso fs.emUso)
    (hrefs : ∀ p ∈ fs.emUso, fs.typeAt p.1 = .fsFile →
      fs.referencias (fs.lugar (fs.slot p)) = fs.referencias (fs.slot p)) : fs'.Consistent := by
  refine h.of_files hd.same.inodeBmap hd.same.type (fun j _ => hd.same.size j) (fun j => ?_)
    (fun d ht q hq => ?_) (fun d ht q hq => ?_) ?_
  · rw [hd.same.size]
    exact h.inodes.full j
  · refine hd.fora _ (or_iff_not_imp_left.mpr fun hm => ?_)
    by_contra h0
    have := h.lt_of_mem (hr.mem_emUso (not_not.mp hm) h0)
    omega
  · rw [hd.pagina _ hq]
    split
    · rfl
    · exact (CacheT.conteudo_of_not_valid (h.acc.not_valid_of_dir hq ht)).symm
  · rw [hd.same.emUso]
    refine ⟨hd.layout, fun b => ?_, fun b => ?_⟩
    · rw [hd.referencias]
      exact refs_lugar h hr hd hrefs b
    · rw [hd.referencias]
      exact h.acc.char b

/-! ## Copies -/

/-- The counters that a copy to a new file needs, in the state after the file is created. -/
theorem Criado.cabe {fs fs' : Fs} (h : fs.Consistent) {d n : ℕ} {nome : List Byte}
    (hc : Criado .fsFile fs fs' d nome n) {de : ℕ} (ht : fs.typeAt de = .fsFile)
    (hcabe : fs.Cabe fs.emUso de (offsetToBlocks (fs.sizeAt de))) :
    fs'.Cabe (fs'.foraDe n) de (offsetToBlocks (fs'.sizeAt de)) := by
  have hsize : ∀ j, j ≠ n → fs.typeAt j = .fsFile → j ≠ d ∧ fs'.sizeAt j = fs.sizeAt j := by
    intro j hjn hj
    have hjd : j ≠ d := by
      rintro rfl
      simp [hc.dir] at hj
    exact ⟨hjd, by rw [hc.size, if_neg hjn, if_neg hjd]⟩
  have hden := hc.ne_of_alocado (h.alocado_of_type (i := de) (by simp [ht]))
  obtain ⟨hded, hsde⟩ := hsize de hden ht
  intro b
  have hsub : fs'.fileSlots (fs'.foraDe n) b ⊆ fs.fileSlots fs.emUso b := by
    rintro ⟨j, q⟩ hp
    obtain ⟨hp, htp, hs⟩ := mem_fileSlots.mp hp
    obtain ⟨hp, hjn⟩ := Finset.mem_filter.mp hp
    rw [hc.type, if_neg hjn] at htp
    obtain ⟨hjd, hsj⟩ := hsize j hjn htp
    rw [hc.slot _ hjd, if_neg hjn] at hs
    have := hc.consistent.lt_of_mem hp
    rw [hsj] at this
    exact mem_fileSlots.mpr ⟨h.mem_emUso_iff.mpr this, htp, hs⟩
  have hvezes : fs'.vezes de (offsetToBlocks (fs'.sizeAt de)) b =
      fs.vezes de (offsetToBlocks (fs.sizeAt de)) b := by
    have hs : ∀ r, fs'.slot (de, r) = fs.slot (de, r) := fun r => by
      rw [hc.slot _ hded, if_neg hden]
    simp only [vezes, hsde, hs]
  have := Finset.card_le_card hsub
  have := hcabe b
  omega

/-! ## Calls and runs -/

theorem Consistent.fsRead_total {fs : Fs} (h : fs.Consistent) (file offset count : ℕ) :
    ∃ fs' lido, fsRead fs file offset count = some (fs', lido) ∧ fs'.Consistent := by
  by_cases ht : fs.typeAt file = .fsFile
  · obtain ⟨c, hr, hc, -⟩ := h.fsRead_eq ht offset count
    exact ⟨_, _, hr, hc⟩
  · refine ⟨fs, none, ?_, h⟩
    have ht' : (fs.inodeTab file).type ≠ .fsFile := ht
    simp only [fsRead, ht', ne_eq, not_false_eq_true, if_true]
    split_ifs <;> rfl

theorem Consistent.actualizar {fs : Fs} (h : fs.Consistent) (intervalo : ℤ) :
    (fs.withCache (actualizarCache fs.cache intervalo)).Consistent := by
  have hs := actualizarCache_settled h.acc.coherent intervalo
  exact h.withCache (h.acc.withCache (hs.coherent h.acc.coherent) hs.numBlocks
    fun b hv => .inl (hs.valid hv)) (funext hs.conteudo)

/-- A call that meets its condition does not stop the server and keeps the invariant. -/
theorem Consistent.exec {fs : Fs} (h : fs.Consistent) {op : FsOp} (hop : op.ContasOk fs) :
    ∃ fs' r, op.exec fs = some (fs', r) ∧ fs'.Consistent := by
  cases op with
  | create dir file =>
      rcases fsCriar_spec h .fsFile (by decide) dir file with ⟨hr, -⟩ | ⟨fs', n, hr, hc⟩
      · exact ⟨fs, _, by simp [FsOp.exec, fsCreate, hr]; rfl, h⟩
      · exact ⟨fs', _, by simp [FsOp.exec, fsCreate, hr]; rfl, hc.consistent⟩
  | mkdir dir newdir =>
      rcases fsCriar_spec h .fsDir (by decide) dir newdir with ⟨hr, -⟩ | ⟨fs', n, hr, hc⟩
      · exact ⟨fs, _, by simp [FsOp.exec, fsMkdir, hr]; rfl, h⟩
      · exact ⟨fs', _, by simp [FsOp.exec, fsMkdir, hr]; rfl, hc.consistent⟩
  | write file offset count buffer lixo =>
      rcases fsWrite_spec h file offset count buffer lixo with ⟨hr, -⟩ | ⟨fs', hr, hw⟩
      · exact ⟨fs, _, by simp [FsOp.exec, hr]; rfl, h⟩
      · exact ⟨fs', _, by simp [FsOp.exec, hr]; rfl, hw.consistent⟩
  | read file offset count =>
      obtain ⟨fs', lido, hr, hc⟩ := h.fsRead_total file offset count
      exact ⟨fs', .lido lido, by simp [FsOp.exec, hr], hc⟩
  | copy d₁ nome₁ d₂ nome₂ =>
      have hcabe : ∀ fs₁ de para, fs₁.Consistent → fs.resolve d₁ nome₁.val = some de →
          fs.typeAt de = .fsFile → DestinoDe fs fs₁ d₂ nome₂.val para →
          fs₁.typeAt para = .fsFile →
          fs₁.Cabe (fs₁.foraDe para) de (offsetToBlocks (fs₁.sizeAt de)) := by
        intro fs₁ de para _ hde ht hdest htp
        obtain ⟨hnova, hpara⟩ := hop de hde ht
        cases hdest with
        | achado hp he =>
            subst he
            exact (hpara para hp htp).1
        | criado hc => exact hc.cabe h ht (hnova (by rw [resolve_of_dir hc.dir, hc.nova]))
      rcases fsCopy_spec h d₁ nome₁ d₂ nome₂
        (fun n h₁ h₂ ht => ((hop n h₁ ht).2 n h₂ ht).2 rfl) hcabe with
        hr | ⟨fs₁, fs', de, para, hr, -, -, -, hcop⟩
      · exact ⟨fs, _, by simp [FsOp.exec, hr]; rfl, h⟩
      · exact ⟨fs', _, by simp [FsOp.exec, hr]; rfl, hcop.consistent⟩
  | remove d nome =>
      rcases fsRemove_spec h d nome with ⟨hr, -⟩ | ⟨fs', n, hr, hrem⟩
      · exact ⟨fs, _, by simp [FsOp.exec, hr]; rfl, h⟩
      · exact ⟨fs', _, by simp [FsOp.exec, hr]; rfl, hrem.consistent⟩
  | append d₁ nome₁ d₂ nome₂ =>
      rcases fsAppend_spec h d₁ nome₁ d₂ nome₂ hop with hr | ⟨fs', de, para, hr, -, -, hanx⟩
      · exact ⟨fs, _, by simp [FsOp.exec, hr]; rfl, h⟩
      · exact ⟨fs', _, by simp [FsOp.exec, hr]; rfl, hanx.consistent⟩
  | defrag =>
      by_cases htem : fs.TemBlocos
      · obtain ⟨hrestos, hdist, hrefs⟩ := hop.resolve_left (not_not.mpr htem)
        obtain ⟨fs', hr, hd⟩ := h.fsDefrag_semRestos hrestos hdist htem
        exact ⟨fs', _, by simp [FsOp.exec, hr]; rfl, hd.consistent h hrestos hrefs⟩
      · exact ⟨fs, _, by simp [FsOp.exec, fsDefrag_of_not htem]; rfl, h⟩
  | actualizar intervalo => exact ⟨_, _, rfl, h.actualizar intervalo⟩

end Fs

/-- In every state that a run of calls reaches, each of which meets its condition, the
bitmap and the reference counters are exact. -/
theorem contasExactas_after_run (pilha : ℕ → ℤ) (ops : List FsOp)
    (hops : Runs.Permitted FsOp.exec FsOp.ContasOk (fsFormat (fsNew Fs.discoServidor pilha))
      ops) :
    ∃ fs rs, Runs.run FsOp.exec (fsFormat (fsNew Fs.discoServidor pilha)) ops = some (fs, rs) ∧
      fs.ContasExactas := by
  obtain ⟨fs, rs, hr, hc⟩ := Runs.run_total (I := Fs.Consistent)
    (fun _ _ h hop => Fs.Consistent.exec h hop) (Fs.inicial_consistent pilha) hops
  exact ⟨fs, rs, hr, hc.contasExactas⟩

namespace Fs

/-- Few slots in use leave room in the counters. -/
theorem cabe_of_card {fs : Fs} {live : Finset (ℕ × ℕ)} {i n : ℕ} (h : live.card + n ≤ 127) :
    fs.Cabe live i n := by
  intro b
  have hslots : (fs.fileSlots live b).card ≤ live.card := Finset.card_filter_le _ _
  have hvezes : fs.vezes i n b ≤ n := by
    have := Finset.card_filter_le (Finset.range n) fun q => fs.slot (i, q) = b
    rwa [Finset.card_range] at this
  omega

instance (fs : Fs) : Decidable fs.SemRestos :=
  decidable_of_iff (∀ p ∈ percurso, fs.slot p ≠ 0 → p ∈ fs.emUso)
    ⟨fun h p h1 hi hq => h p (mem_percurso.mpr ⟨⟨h1, hi⟩, hq⟩), fun h p hp =>
      h p (mem_percurso.mp hp).1.1 (mem_percurso.mp hp).1.2 (mem_percurso.mp hp).2⟩

instance (fs : Fs) (live : Finset (ℕ × ℕ)) : Decidable (fs.Distintos live) :=
  decidable_of_iff (∀ p ∈ live, fs.typeAt p.1 = .fsFile → ∀ p' ∈ live, p'.1 = p.1 →
      fs.slot p = fs.slot p' → p.2 = p'.2) <| by
    refine ⟨fun h i q q' ht hq hq' => h (i, q) hq ht (i, q') hq' rfl, fun h p hp ht p' hp' hi => ?_⟩
    obtain ⟨i, q⟩ := p
    obtain ⟨j, q'⟩ := p'
    obtain rfl : j = i := hi
    exact h j q q' ht hp hp'

instance (fs : Fs) : Decidable fs.DefragExacto := by
  unfold DefragExacto
  infer_instance

end Fs

/-- Calls that keep the accounts where few slots are in use, and copy no file onto itself. -/
def FsOp.ContasAvaliadas (fs : Fs) : FsOp → Prop
  | copy d₁ nome₁ d₂ nome₂ => ∀ de ∈ fs.resolve d₁ nome₁.val,
      fs.emUso.card + offsetToBlocks (fs.sizeAt de) ≤ 127 ∧ fs.resolve d₂ nome₂.val ≠ some de
  | append d₁ nome₁ d₂ nome₂ => ∀ de ∈ fs.resolve d₁ nome₁.val,
      ∀ para ∈ fs.resolve d₂ nome₂.val, fs.typeAt para = .fsFile ∧
        offsetToBlocks (fs.sizeAt de + fs.sizeAt para) =
          offsetToBlocks (fs.sizeAt de) + offsetToBlocks (fs.sizeAt para) ∧
        fs.emUso.card + offsetToBlocks (fs.sizeAt para) ≤ 127
  | defrag => fs.DefragExacto
  | _ => True

instance (fs : Fs) (op : FsOp) : Decidable (op.ContasAvaliadas fs) := by
  cases op <;> unfold FsOp.ContasAvaliadas <;> infer_instance

theorem FsOp.ContasAvaliadas.contasOk {fs : Fs} {op : FsOp} (h : op.ContasAvaliadas fs) :
    op.ContasOk fs := by
  cases op with
  | copy d₁ nome₁ d₂ nome₂ =>
      intro de hde _
      obtain ⟨hcard, hne⟩ := h de hde
      refine ⟨fun _ => Fs.cabe_of_card hcard, fun para hpara _ => ⟨Fs.cabe_of_card ?_, ?_⟩⟩
      · exact (Nat.add_le_add_right (Finset.card_filter_le _ _) _).trans hcard
      · rintro rfl
        exact absurd hpara hne
  | append d₁ nome₁ d₂ nome₂ =>
      intro de para hde hpara _ _
      obtain ⟨ht, hblocos, hcard⟩ := h de hde para hpara
      exact .inr ⟨ht, hblocos, Fs.cabe_of_card hcard⟩
  | defrag => exact h
  | create _ _ => trivial
  | mkdir _ _ => trivial
  | write _ _ _ _ _ => trivial
  | read _ _ _ => trivial
  | remove _ _ => trivial
  | actualizar _ => trivial

/-- File 3 is written before file 2. Both blocks get a second reference, one by a copy and the
other by an append. -/
def chamadasTrocadas : List FsOp :=
  [.create 1 nomeA, .create 1 nomeB, .write 3 0 512 (fun _ => 1) nullBlock,
    .write 2 0 512 (fun _ => 2) nullBlock, .copy 1 nomeA 1 nomeC, .append 1 nomeA 1 nomeB]

set_option maxRecDepth 100000 in
/-- A defragmentation then changes the places of two blocks. -/
theorem contasExactas_after_run_trocadas :
    ∃ fs₀ rs₀ fs rs, Runs.run FsOp.exec (fsFormat (fsNew Fs.discoServidor fun _ => 7))
        chamadasTrocadas = some (fs₀, rs₀) ∧ (fs₀.slot (3, 0), fs₀.slot (2, 0)) = (11, 12) ∧
      Runs.run FsOp.exec (fsFormat (fsNew Fs.discoServidor fun _ => 7))
        (chamadasTrocadas ++ [.defrag]) = some (fs, rs) ∧
      (fs.slot (3, 0), fs.slot (2, 0)) = (12, 11) ∧ fs.ContasExactas := by
  have hops : Runs.Permitted FsOp.exec FsOp.ContasAvaliadas
      (fsFormat (fsNew Fs.discoServidor fun _ => 7)) (chamadasTrocadas ++ [.defrag]) := by
    rw [Fs.fsFormat_eq_formatado]
    decide +kernel
  obtain ⟨fs₀, rs₀, hrun₀, hslots₀⟩ : ∃ fs rs,
      Runs.run FsOp.exec (fsFormat (fsNew Fs.discoServidor fun _ => 7)) chamadasTrocadas =
        some (fs, rs) ∧ (fs.slot (3, 0), fs.slot (2, 0)) = (11, 12) := by
    rw [Fs.fsFormat_eq_formatado]
    exact Runs.exists_run_of_any (by decide +kernel)
  obtain ⟨fs, rs, hrun, hslots⟩ : ∃ fs rs,
      Runs.run FsOp.exec (fsFormat (fsNew Fs.discoServidor fun _ => 7))
        (chamadasTrocadas ++ [.defrag]) = some (fs, rs) ∧
      (fs.slot (3, 0), fs.slot (2, 0)) = (12, 11) := by
    rw [Fs.fsFormat_eq_formatado]
    exact Runs.exists_run_of_any (by decide +kernel)
  obtain ⟨fs', rs', hrun', hexactas⟩ := contasExactas_after_run (fun _ => 7) _
    (hops.mono fun _ _ h => h.contasOk)
  obtain ⟨rfl, -⟩ := Prod.mk.inj (Option.some.inj (hrun.symm.trans hrun'))
  exact ⟨fs₀, rs₀, fs, rs, hrun₀, hslots₀, hrun, hslots, hexactas⟩

/-! ## Runs of two files -/

theorem DoisFicheiros.mem_emUso {fs : Fs} (h : DoisFicheiros fs) {p : ℕ × ℕ} :
    p ∈ fs.emUso ↔ p = (1, 0) := by
  obtain ⟨i, q⟩ := p
  rw [h.exacto.consistent.mem_emUso_iff, lt_offsetToBlocks, Prod.mk.injEq]
  by_cases hi : i = 1
  · rw [hi, h.raiz.2]
    simp only [blockSize, true_and]
    omega
  · simp [h.vazio i hi, hi]

theorem copiarReferencias_self (fs : Fs) (i n : ℕ) :
    (copiarReferencias fs i i 0 n).blkBmap = fs.blkBmap ∧
      (copiarReferencias fs i i 0 n).cache = fs.cache ∧
      Fs.SameInodes fs (copiarReferencias fs i i 0 n) ∧
      ∀ p, (copiarReferencias fs i i 0 n).slot p = fs.slot p := by
  induction n with
  | zero => exact ⟨rfl, rfl, Fs.SameInodes.refl fs, fun _ => rfl⟩
  | succ n ih =>
      obtain ⟨hbmap, hcache, hsame, hslot⟩ := ih
      have hstep : copiarReferencias fs i i 0 (n + 1) =
          ((copiarReferencias fs i i 0 n).setBlock i n
            ((copiarReferencias fs i i 0 n).slot (i, n))).setRef
            ((copiarReferencias fs i i 0 n).slot (i, n))
            ((copiarReferencias fs i i 0 n).referencias
              ((copiarReferencias fs i i 0 n).slot (i, n)) + 1) := by
        simp only [copiarReferencias, List.range_succ, List.foldl_append, List.foldl_cons,
          List.foldl_nil, Nat.zero_add]
        rfl
      rw [hstep]
      refine ⟨hbmap, hcache, ?_, fun p => ?_⟩
      · exact hsame.trans ((Fs.SameInodes.setBlock _ i n _).trans
          (Fs.SameInodes.of_tab rfl rfl))
      · rw [Fs.setRef_slot, Fs.setBlock_slot]
        split
        · rename_i hp
          rw [hp, hslot]
        · exact hslot p

/-- What `fs_copy` of a file onto itself does: a block that no other file names is marked free. -/
structure CopiadoEmSi (fs fs' : Fs) (i : ℕ) : Prop where
  inodeBmap : fs'.inodeBmap = fs.inodeBmap
  type : ∀ j, fs'.typeAt j = fs.typeAt j
  size : ∀ j, fs'.sizeAt j = fs.sizeAt j
  slot : ∀ p, fs'.slot p = fs.slot p
  pagina : ∀ p ∈ fs.emUso, p.1 ≠ i → fs'.pagina p = fs.pagina p
  ocupado : ∀ q < offsetToBlocks (fs.sizeAt i),
    (fs'.ocupado (fs.slot (i, q)) = true ↔ ∃ p ∈ fs.foraDe i, fs.slot p = fs.slot (i, q))

theorem Fs.Consistent.copia_propria {fs : Fs} (h : fs.Consistent) {i : ℕ}
    (ht : fs.typeAt i = .fsFile) :
    ∃ fs', fsCopyInodes fs i i = (fs', 0) ∧ CopiadoEmSi fs fs' i := by
  have hlive : ∀ r < offsetToBlocks (fs.sizeAt i), (i, r) ∈ fs.emUso := fun r hr =>
    h.mem_emUso_iff.mpr hr
  obtain ⟨hacc, htab, hbm, hpag⟩ := Fs.libertarDestino_spec h.acc i _ hlive
  obtain ⟨hbmap, hcache, hsame, hslot⟩ := copiarReferencias_self
    (libertarDestino fs i (offsetToBlocks (fs.sizeAt i))) i (offsetToBlocks (fs.sizeAt i))
  have hty : (fs.inodeTab i).type = .fsFile := ht
  have hsize : (fs.inodeTab i).size = fs.sizeAt i := rfl
  have hcop : fsCopyInodes fs i i =
      ((copiarReferencias (libertarDestino fs i (offsetToBlocks (fs.sizeAt i))) i i 0
        (offsetToBlocks (fs.sizeAt i))).setSize i (fs.sizeAt i), 0) := by
    simp only [fsCopyInodes, hty, ne_eq, not_true_eq_false, if_false, hsize, htab]
  have hslots : ∀ p, ((copiarReferencias (libertarDestino fs i (offsetToBlocks (fs.sizeAt i))) i i
      0 (offsetToBlocks (fs.sizeAt i))).setSize i (fs.sizeAt i)).slot p = fs.slot p := fun p => by
    rw [Fs.setSize_slot, hslot, Fs.slot_congr htab]
  refine ⟨_, hcop, ?_⟩
  constructor
  case inodeBmap => rw [Fs.setSize_inodeBmap, hsame.inodeBmap, hbm]
  case type =>
    intro j
    rw [Fs.setSize_typeAt, hsame.type, Fs.typeAt, htab]
    rfl
  case size =>
    intro j
    rw [Fs.setSize_sizeAt, hsame.size, Fs.sizeAt_congr htab]
    split
    · rename_i hj
      rw [hj]
    · rfl
  case slot => exact hslots
  case pagina =>
    intro p hp hi
    rw [Fs.pagina, hslots, Fs.setSize_cache, hcache, ← Fs.slot_congr htab, ← Fs.pagina]
    exact hpag p hp fun hno => hi hno.1
  case ocupado =>
    intro q hq
    rw [Fs.ocupado, Fs.setSize_blkBmap, hbmap, ← Fs.ocupado,
      hacc.bits _ (h.acc.range _ (hlive q hq))]
    -- the slots that stay in the accounts are those of the other i-nodes
    refine exists_congr fun p => ?_
    rw [Fs.slot_congr htab, and_congr_left_iff]
    intro _
    rw [Finset.mem_filter, Fs.foraDe, Finset.mem_filter, and_congr_right_iff]
    intro hp
    refine not_congr ⟨And.left, fun hi => ⟨hi, ?_⟩⟩
    obtain ⟨j, r⟩ := p
    obtain rfl : j = i := hi
    exact h.lt_of_mem hp

/-- Two files in the root, the first of one byte, in a block of its own. -/
structure FicheiroEscrito (fs : Fs) : Prop where
  exacto : fs.Exacto
  ficheiro : fs.typeAt 2 = .fsFile ∧ fs.typeAt 3 = .fsFile
  tamanho : fs.sizeAt 2 = 1 ∧ fs.sizeAt 3 = 0
  usado : (2, 0) ∈ fs.emUso
  outros : ∀ p ∈ fs.emUso, p ≠ (2, 0) → fs.slot p = 10
  bloco : fs.slot (2, 0) ≠ 10
  nomes : fs.resolve 1 nomeA.val = some 2 ∧ fs.resolve 1 nomeB.val = some 3

theorem ficheiro_escrito (pilha : ℕ → ℤ) :
    ∃ fs, Runs.run FsOp.exec (fsFormat (fsNew Fs.discoServidor pilha))
        [.create 1 nomeA, .create 1 nomeB, .write 2 0 1 (fun _ => 1) nullBlock] =
          some (fs, [.inode (some 2), .inode (some 3), .estado 0]) ∧ FicheiroEscrito fs := by
  obtain ⟨fs, hrun, hd⟩ := dois_ficheiros pilha
  have hcons := hd.exacto.consistent
  obtain ⟨fs₁, hw, hp, he⟩ := Fs.fsWrite_vazio hcons hd.ficheiro.1 (hd.vazio 2 (by decide))
    Nat.zero_lt_one (by decide) (fun _ => 1) nullBlock
  have hrun₁ : Runs.run FsOp.exec fs [.write 2 0 1 (fun _ => 1) nullBlock] =
      some (fs₁, [.estado 0]) := by
    simp only [Runs.run, FsOp.exec, hw, Option.map_some, Option.bind_some]
  have hcons₁ := he.consistent
  have hsize₁ : fs₁.sizeAt 2 = 1 := by
    rw [he.tamanho, hd.vazio 2 (by decide)]
    rfl
  -- the block of the file is not the one of the root
  obtain ⟨hlt, hfree⟩ := fsiBmapFindFree_eq_some hp.bloco
  have hne : fs₁.slot (2, 0) ≠ 10 := by
    have := hcons.acc.slot_ne_of_free hfree (hd.mem_emUso.mpr rfl)
    rw [hd.slot, if_pos rfl] at this
    exact this.symm
  have huso : ∀ p ∈ fs₁.emUso, p ≠ (2, 0) → fs₁.slot p = 10 := by
    rintro ⟨i, q⟩ hq hpq
    by_cases hi : i = 2
    · subst hi
      have := hcons₁.lt_of_mem hq
      rw [hsize₁, lt_offsetToBlocks] at this
      simp only [blockSize] at this
      have hq0 : q ≠ 0 := fun h => hpq (by rw [h])
      omega
    · have hold : (i, q) ∈ fs.emUso := by
        rw [hcons.mem_emUso_iff, ← he.size i hi]
        exact hcons₁.lt_of_mem hq
      rw [he.slot _ hi, hd.slot, if_pos (hd.mem_emUso.mp hold)]
  have hmem : (2, 0) ∈ fs₁.emUso := by
    rw [hcons₁.mem_emUso_iff, hsize₁]
    decide
  have hent : fs₁.entradas 1 = fs.entradas 1 := by
    refine Fs.entradas_congr (he.size 1 (by decide)) fun q hq => he.pagina _ ?_ (by simp)
    rwa [hcons.mem_emUso_iff]
  have hres : ∀ nome, fs₁.resolve 1 nome = fs.procura 1 nome := fun nome => by
    rw [Fs.resolve_of_dir ((he.type 1).trans hd.raiz.1), Fs.procura, hent]
    rfl
  refine ⟨fs₁, Runs.run_append hrun hrun₁, ⟨he.consistent, he.distintos hd.exacto.distintos⟩,
    ⟨(he.type 2).trans hd.ficheiro.1, (he.type 3).trans hd.ficheiro.2⟩,
    ⟨hsize₁, (he.size 3 (by decide)).trans (hd.vazio 3 (by decide))⟩, hmem, huso, hne, ?_⟩
  rw [hres, hres, Fs.procura, Fs.procura, hd.entradas]
  exact ⟨rfl, rfl⟩

/-- A file of one byte copied onto itself names a block that is marked free. -/
theorem contasExactas_not_after_copy :
    ∃ fs rs, Runs.run FsOp.exec (fsFormat (fsNew Fs.discoServidor fun _ => 7))
        [.create 1 nomeA, .create 1 nomeB, .write 2 0 1 (fun _ => 1) nullBlock,
          .copy 1 nomeA 1 nomeA] = some (fs, rs) ∧ ¬ fs.ContasExactas := by
  obtain ⟨fs₁, hrun, hd⟩ := ficheiro_escrito fun _ => 7
  have hcons₁ := hd.exacto.consistent
  obtain ⟨fs₂, hr, hprop⟩ := hcons₁.copia_propria hd.ficheiro.1
  have hcopy := Fs.fsCopy_of_resolve hcons₁ hd.nomes.1 hd.ficheiro.1 hd.nomes.1
  rw [hr] at hcopy
  have hrun₂ : Runs.run FsOp.exec fs₁ [.copy 1 nomeA 1 nomeA] =
      some (fs₂, [.copia 0 (fs₂.resolve 1 nomeA.val) (fs₂.resolve 1 nomeA.val)]) := by
    simp only [Runs.run, FsOp.exec, hcopy, Option.map_some, Option.bind_some]
  have hall := Runs.run_append hrun hrun₂
  simp only [List.cons_append, List.nil_append] at hall
  refine ⟨_, _, hall, fun hex => ?_⟩
  -- its slot is in use, and its bit is clear
  have hmem₂ : (2, 0) ∈ fs₂.emUso := by
    rw [Fs.mem_emUso, Fs.alocado, hprop.inodeBmap, hprop.size]
    exact Fs.mem_emUso.mp hd.usado
  have hmarked := (hex.bits _ (hcons₁.acc.range _ hd.usado)).mpr ⟨_, hmem₂, hprop.slot _⟩
  obtain ⟨p, hp, hs⟩ := (hprop.ocupado 0 (hcons₁.lt_of_mem hd.usado)).mp hmarked
  obtain ⟨hpl, hi⟩ := Finset.mem_filter.mp hp
  refine hd.bloco (hs.symm.trans (hd.outros p hpl ?_))
  rintro rfl
  exact hi rfl

end ThreadScheduler.SnfsServer
