import ThreadScheduler.SnfsServer.AppendData
import ThreadScheduler.SnfsServer.CallEffects
import ThreadScheduler.SnfsServer.ReferenceCounts

/-!
# Runs that fit the reference counters

A copy or an append adds up to ten references at once, and nothing in the code looks at the
counter first. Calls whose references fit keep every counter at the number of slots or above it;
a file appended to itself three times and copied to fifteen names has 128 slots on one block.
-/
namespace ThreadScheduler.SnfsServer

open Labelling

/-- A creation, a write or a copy. -/
def FsOp.SoEscreve : FsOp → Prop
  | .create _ _ => True
  | .write _ _ _ _ _ => True
  | .copy _ _ _ _ => True
  | _ => False

instance : DecidablePred FsOp.SoEscreve
  | .create _ _ | .write _ _ _ _ _ | .copy _ _ _ _ => isTrue trivial
  | .mkdir _ _ | .read _ _ _ | .remove _ _ | .append _ _ _ _ | .defrag | .actualizar _ => isFalse id

namespace Fs

/-- The counters cover the files, whose sizes are within their slots. -/
structure Contagem (fs : Fs) : Prop where
  cobre : fs.Cobre fs.emFicheiros
  ficheiro : ∀ i, fs.typeAt i = .fsFile →
    i < itabSize ∧ fs.alocado i = true ∧ offsetToBlocks (fs.sizeAt i) ≤ inodeNumBlks

/-- The references that a copy to a name takes away before it adds its own. -/
def libertadas (fs : Fs) (d : ℕ) (nome : List Byte) (b : ℕ) : ℕ :=
  match fs.encontra d nome with
  | some para => fs.vezes para (offsetToBlocks (fs.sizeAt para)) b
  | none => 0

/-- The block that a creation takes for a new page of the directory has a bit. -/
def CabePagina (fs : Fs) (dir : ℕ) (file : CString) : Prop :=
  ∀ finode fs₁, Admite fs dir file finode → Vaga fs dir fs₁ → fs.sizeAt dir % blockSize = 0 →
    fs.Chega 1

/-- How many blocks a write may take: those that it reserves, and a private copy of each of the
blocks from its position on. -/
def blocosEscrita (fs : Fs) (file offset count : ℕ) : ℕ :=
  blksReq fs file offset count + (offsetToBlocks (fs.sizeAt file) -
    min offset (fs.sizeAt file) / blockSize + blksReq fs file offset count)

end Fs

open Fs

/-- A creation, a write, a copy or an append whose references fit a `char`. -/
def FsOp.ReferenciasCabem (fs : Fs) : FsOp → Prop
  | .create _ _ => True
  | .write _ _ _ _ _ => True
  | .copy d₁ nome₁ d₂ nome₂ => ∀ de, AdmiteNomes fs d₁ nome₁ d₂ nome₂ de → ∀ b,
      fs.referencias b + fs.vezes de (offsetToBlocks (fs.sizeAt de)) b ≤
        127 + fs.libertadas d₂ nome₂.val b
  | .append d₁ nome₁ d₂ nome₂ => ∀ de para, AdmiteNomes fs d₁ nome₁ d₂ nome₂ de →
      fs.encontra d₂ nome₂.val = some para → ∀ b,
      fs.referencias b + fs.vezes para (offsetToBlocks (fs.sizeAt para)) b ≤ 127
  | _ => False

/-- The blocks that a call takes have bits, and those that a write takes have room for a
reference. -/
def FsOp.BlocosCabem (fs : Fs) : FsOp → Prop
  | .create dir file => fs.CabePagina dir file
  | .write file offset count _ _ => AdmiteEscrita fs file offset count →
      fs.Chega (fs.blocosEscrita file offset count) ∧
        ∀ b < bmapBits, fs.ocupado b = false → fs.referencias b < 127
  | .copy d₁ nome₁ d₂ nome₂ => ∀ de, AdmiteNomes fs d₁ nome₁ d₂ nome₂ de →
      fs.encontra d₂ nome₂.val = none → fs.CabePagina d₂ nome₂
  | _ => True

/-- Such a call, with both. -/
def FsOp.CabeNoChar (fs : Fs) (op : FsOp) : Prop := op.ReferenciasCabem fs ∧ op.BlocosCabem fs

namespace Fs.Contagem

variable {fs fs' : Fs}

theorem congr (h : fs.Contagem) (hc : fs'.Cobre fs'.emFicheiros) (hsame : SameInodes fs fs') :
    fs'.Contagem :=
  ⟨hc, fun i ht => by
    rw [hsame.type] at ht
    rw [hsame.size, hsame.alocado]
    exact h.ficheiro i ht⟩

theorem store (h : fs.Contagem) : (fsiStoreFsdata fs).Contagem := by
  have hem : (fsiStoreFsdata fs).emFicheiros = fs.emFicheiros := by
    rw [emFicheiros, typeAt_congr (store_inodeTab fs), sizeAt_congr (store_inodeTab fs)]
    rfl
  refine h.congr ?_ (store_same fs)
  rw [hem]
  exact h.cobre.congr (store_referencias fs) fun p _ => congrFun (slot_congr (store_inodeTab fs)) p

/-- A call that changes the slots of one file and then its size. -/
theorem setSize (h : fs.Contagem) (hsame : SameInodes fs fs') {live : Finset (ℕ × ℕ)}
    (hc : fs'.Cobre live) {j s : ℕ} (hs : offsetToBlocks s ≤ inodeNumBlks)
    (hj : ∀ q < offsetToBlocks s, (j, q) ∈ live)
    (hlive : ∀ p ∈ fs.emFicheiros, p.1 ≠ j → p ∈ live) : (fs'.setSize j s).Contagem := by
  constructor
  · have hc' : (fs'.setSize j s).Cobre live := hc.congr rfl fun p _ => fs'.setSize_slot j s p
    refine hc'.mono ?_
    rintro ⟨i, q⟩ hp
    obtain ⟨hlt, ht, hq⟩ := mem_emFicheiros.mp hp
    rw [setSize_typeAt, hsame.type] at ht
    rw [setSize_sizeAt] at hq
    split at hq
    · rename_i hij
      rw [hij]
      exact hj q hq
    · rename_i hij
      rw [hsame.size] at hq
      exact hlive _ (mem_emFicheiros.mpr ⟨hlt, ht, hq⟩) hij
  · intro i ht
    rw [setSize_typeAt, hsame.type] at ht
    obtain ⟨hi, ha, hle⟩ := h.ficheiro i ht
    refine ⟨hi, ?_, ?_⟩
    · rw [alocado, setSize_inodeBmap, ← alocado, hsame.alocado]
      exact ha
    · rw [setSize_sizeAt, hsame.size]
      split
      · exact hs
      · exact hle

/-! ### The calls -/

/-- A creation changes no file, and no counter. -/
theorem criar_mantem (h : fs.Contagem) {tipo : FsItype} {dir : ℕ} {file : CString} {n : Option ℕ}
    (hr : fsCriar tipo fs dir file = some (fs', n)) : fs'.referencias = fs.referencias ∧
      ∀ i, fs.typeAt i = .fsFile → fs'.typeAt i = fs.typeAt i ∧ fs'.sizeAt i = fs.sizeAt i ∧
        fs'.alocado i = fs.alocado i ∧ ∀ q, fs'.slot (i, q) = fs.slot (i, q) := by
  rcases fsCriar_casos hr with ⟨he, -⟩ | ⟨finode, fs₁, hadm, hv, he⟩
  · obtain ⟨rfl, -⟩ := Prod.mk.inj he
    exact ⟨rfl, fun i _ => ⟨rfl, rfl, rfl, fun _ => rfl⟩⟩
  obtain ⟨rfl, -⟩ := Prod.mk.inj he
  obtain ⟨hbmap, htype, hsize⟩ := hv.campos
  have htab := store_inodeTab (comNovo tipo fs₁ dir finode file.val)
  have hfin : finode < itabSize := (fsiBmapFindFree_eq_some hadm.livre).1
  refine ⟨?_, fun i ht => ?_⟩
  · rw [store_referencias, comNovo_referencias]
    cases hv with
    | bloco => rfl
    | aberta => rfl
  have hne : i ≠ finode := hadm.ne (h.ficheiro i ht).2.1
  have hd : i ≠ dir := by
    rintro rfl
    rw [hadm.usado.2] at ht
    exact FsItype.noConfusion ht
  refine ⟨?_, ?_, ?_, fun q => ?_⟩
  · rw [typeAt_congr htab, comNovo_typeAt, if_neg hne, htype]
  · rw [sizeAt_congr htab, comNovo_sizeAt, if_neg hne, if_neg hd, hsize]
  · rw [alocado, store_inodeBmap, ← alocado, comNovo_alocado _ _ _ _ hfin, alocado, hbmap]
    simp [hne, alocado]
  · rw [slot_congr htab, comNovo_slot, if_neg hne]
    cases hv with
    | bloco => exact (setBlock_slot _ _ _ _ _).trans (if_neg fun he => hd (Prod.mk.inj he).1)
    | aberta => rfl

/-- The only file that a creation adds is empty. -/
theorem criar_ficheiro {tipo : FsItype} {dir : ℕ} {file : CString} {n : Option ℕ}
    (hr : fsCriar tipo fs dir file = some (fs', n)) {i : ℕ} (ht : fs'.typeAt i = .fsFile) :
    fs.typeAt i = .fsFile ∨ i < itabSize ∧ fs'.alocado i = true ∧ fs'.sizeAt i = 0 := by
  rcases fsCriar_casos hr with ⟨he, -⟩ | ⟨finode, fs₁, hadm, hv, he⟩
  · obtain ⟨rfl, -⟩ := Prod.mk.inj he
    exact .inl ht
  obtain ⟨rfl, -⟩ := Prod.mk.inj he
  have htab := store_inodeTab (comNovo tipo fs₁ dir finode file.val)
  have hfin : finode < itabSize := (fsiBmapFindFree_eq_some hadm.livre).1
  rw [typeAt_congr htab, comNovo_typeAt] at ht
  split at ht
  · rename_i hi
    refine .inr ⟨hi ▸ hfin, ?_, ?_⟩
    · rw [alocado, store_inodeBmap, ← alocado, comNovo_alocado _ _ _ _ hfin, decide_eq_true hi,
        Bool.true_or]
    · rw [sizeAt_congr htab, comNovo_sizeAt, if_pos hi]
  · rw [hv.campos.2.1] at ht
    exact .inl ht

theorem criar (h : fs.Contagem) {tipo : FsItype} {dir : ℕ} {file : CString} {n : Option ℕ}
    (hr : fsCriar tipo fs dir file = some (fs', n)) : fs'.Contagem := by
  obtain ⟨hrefs, hmantem⟩ := h.criar_mantem hr
  constructor
  · refine (h.cobre.congr hrefs fun p hp => ?_).mono ?_
    · exact (hmantem p.1 (mem_emFicheiros.mp hp).2.1).2.2.2 p.2
    · rintro ⟨i, q⟩ hp
      obtain ⟨hlt, ht, hq⟩ := mem_emFicheiros.mp hp
      rcases criar_ficheiro hr ht with hold | ⟨-, -, hzero⟩
      · rw [(hmantem i hold).2.1] at hq
        exact mem_emFicheiros.mpr ⟨hlt, hold, hq⟩
      · rw [hzero] at hq
        exact absurd hq (Nat.not_lt_zero q)
  · intro i ht
    rcases criar_ficheiro hr ht with hold | ⟨hlt, ha, hzero⟩
    · rw [(hmantem i hold).2.1, (hmantem i hold).2.2.1]
      exact h.ficheiro i hold
    · rw [hzero]
      exact ⟨hlt, ha, Nat.zero_le _⟩

theorem copiar (h : fs.Contagem) {de : ℕ} (para : ℕ) (ht : fs.typeAt de = .fsFile)
    (hcabe : fs.typeAt para = .fsFile → ∀ b,
      fs.referencias b + fs.vezes de (offsetToBlocks (fs.sizeAt de)) b ≤
        127 + fs.vezes para (offsetToBlocks (fs.sizeAt para)) b) :
    (fsCopyInodes fs de para).1.Contagem := by
  rw [fsCopyInodes]
  split
  · exact h
  rename_i hp
  have htp : fs.typeAt para = .fsFile := not_not.mp hp
  obtain ⟨hpara, -, hnp⟩ := h.ficheiro para htp
  obtain ⟨-, -, hnd⟩ := h.ficheiro de ht
  have hmem : ∀ r < offsetToBlocks (fs.sizeAt para), (para, r) ∈ fs.emFicheiros := fun r hr =>
    mem_emFicheiros.mpr ⟨⟨hpara, by omega⟩, htp, hr⟩
  obtain ⟨hc₁, htab, hrefs⟩ :=
    h.cobre.libertarDestino para (offsetToBlocks (fs.sizeAt para)) hmem
  change ((copiarReferencias (libertarDestino fs para (offsetToBlocks (fs.sizeAt para))) de para 0
    (offsetToBlocks ((libertarDestino fs para (offsetToBlocks (fs.sizeAt para))).sizeAt de))).setSize
      para ((libertarDestino fs para (offsetToBlocks (fs.sizeAt para))).sizeAt de)).Contagem
  have hsame := libertarDestino_same fs para (offsetToBlocks (fs.sizeAt para))
  rw [hsame.size]
  generalize libertarDestino fs para (offsetToBlocks (fs.sizeAt para)) = fs₁ at *
  have hv : ∀ b, fs₁.vezes de (offsetToBlocks (fs.sizeAt de)) b =
      fs.vezes de (offsetToBlocks (fs.sizeAt de)) b := fun b => by
    rw [vezes, slot_congr htab, ← vezes]
  obtain ⟨⟨live', hlive', hc₂⟩, -⟩ := hc₁.copiarReferencias de para 0
    (offsetToBlocks (fs.sizeAt de)) (fun _ => .inl rfl) (fun r _ hr => by
      obtain ⟨hm, hno⟩ := Finset.mem_filter.mp hr
      exact hno ⟨rfl, (mem_emFicheiros.mp hm).2.2⟩) fun b => by
      have := hcabe htp b
      rw [hv, hrefs]
      omega
  refine h.setSize (hsame.trans (copiarReferencias_same _ _ _ _ _)) hc₂ hnd
    (fun q hq => (hlive' _).mpr (.inr ⟨rfl, Nat.zero_le q, by dsimp only; omega⟩))
    fun p hp hne => (hlive' p).mpr (.inl (Finset.mem_filter.mpr ⟨hp, fun hno => hne hno.1⟩))

theorem anexar (h : fs.Contagem) {d₁ d₂ : ℕ} {nome₁ nome₂ : CString} {n : Option ℕ}
    (hcabe : ∀ de para, AdmiteNomes fs d₁ nome₁ d₂ nome₂ de →
      fs.encontra d₂ nome₂.val = some para → ∀ b,
      fs.referencias b + fs.vezes para (offsetToBlocks (fs.sizeAt para)) b ≤ 127)
    (hr : fsAppend fs d₁ nome₁ d₂ nome₂ = some (fs', n)) : fs'.Contagem := by
  rcases fsAppend_casos hr with he | ⟨de, para, hadm, hpara, hfits, he⟩
  · obtain ⟨rfl, -⟩ := Prod.mk.inj he
    exact h
  obtain ⟨rfl, -⟩ := Prod.mk.inj he
  obtain ⟨-, -, hnd⟩ := h.ficheiro de hadm.ficheiro
  obtain ⟨⟨live', hlive', hc⟩, -⟩ := h.cobre.copiarReferencias para de
    (offsetToBlocks (fs.sizeAt de)) (offsetToBlocks (fs.sizeAt para))
    (by rintro rfl; exact .inr le_rfl)
    (fun r _ hr => by
      have := (mem_emFicheiros.mp hr).2.2
      omega) (hcabe de para hadm hpara)
  have hadd : offsetToBlocks (fs.sizeAt de + fs.sizeAt para) ≤
      offsetToBlocks (fs.sizeAt de) + offsetToBlocks (fs.sizeAt para) := by
    rw [offsetToBlocks_le, Nat.mul_add]
    exact Nat.add_le_add (offsetToBlocks_le.mp le_rfl) (offsetToBlocks_le.mp le_rfl)
  refine h.setSize (copiarReferencias_same _ _ _ _ _) hc (by omega) (fun q hq => ?_)
    fun p hp _ => (hlive' p).mpr (.inl hp)
  obtain ⟨hlt, -, -⟩ := h.ficheiro de hadm.ficheiro
  rw [hlive']
  by_cases hq' : q < offsetToBlocks (fs.sizeAt de)
  · exact .inl (mem_emFicheiros.mpr ⟨⟨hlt, by omega⟩, hadm.ficheiro, hq'⟩)
  · exact .inr ⟨rfl, Nat.not_lt.mp hq', by dsimp only; omega⟩

theorem copia (h : fs.Contagem) {d₁ d₂ : ℕ} {nome₁ nome₂ : CString} {n : ℤ}
    (hcabe : ∀ de, AdmiteNomes fs d₁ nome₁ d₂ nome₂ de → ∀ b,
      fs.referencias b + fs.vezes de (offsetToBlocks (fs.sizeAt de)) b ≤
        127 + fs.libertadas d₂ nome₂.val b)
    (hr : fsCopy fs d₁ nome₁ d₂ nome₂ = some (fs', n)) : fs'.Contagem := by
  rcases fsCopy_casos hr with ⟨he, -⟩ | ⟨de, hadm, ⟨para, hpara, he⟩ | ⟨hnone, hcasos⟩⟩
  · obtain ⟨rfl, -⟩ := Prod.mk.inj he
    exact h
  · have hc := h.copiar para hadm.ficheiro fun _ => by
      simpa only [libertadas, hpara] using hcabe de hadm
    rwa [← he] at hc
  have hcabe' := hcabe de hadm
  simp only [libertadas, hnone] at hcabe'
  rcases hcasos with ⟨-, he⟩ | ⟨fs₁, m, hcriar, -, ⟨-, he⟩ | ⟨para, hpara, he⟩⟩
  · obtain ⟨rfl, -⟩ := Prod.mk.inj he
    exact h
  · obtain ⟨rfl, -⟩ := Prod.mk.inj he
    exact h.criar hcriar
  -- the creation leaves the source and the counters alone
  obtain ⟨hrefs, hmantem⟩ := h.criar_mantem hcriar
  obtain ⟨ht, hs, -, hslot⟩ := hmantem de hadm.ficheiro
  have hc := (h.criar hcriar).copiar para (ht.trans hadm.ficheiro) fun _ b => by
    have := hcabe' b
    rw [hrefs, hs, vezes, Finset.filter_congr fun r _ => by rw [hslot r], ← vezes]
    omega
  rwa [← he] at hc

theorem escrever (h : fs.Contagem) {file offset count : ℕ} {buffer : ℕ → Byte} {lixo : Block}
    {n : ℤ} (hcabe : AdmiteEscrita fs file offset count →
      fs.Chega (fs.blocosEscrita file offset count) ∧
        ∀ b < bmapBits, fs.ocupado b = false → fs.referencias b < 127)
    (hr : fsWrite fs file offset count buffer lixo = some (fs', n)) : fs'.Contagem := by
  rcases fsWrite_casos hr with ⟨he, -⟩ | ⟨⟨hfile, hreq⟩, hcasos⟩
  · obtain ⟨rfl, -⟩ := Prod.mk.inj he
    exact h
  obtain ⟨hchega, hlivre⟩ := hcabe ⟨hfile, hreq⟩
  have hnb := (h.ficheiro file hfile.2.2).2.2
  have hmem : ∀ q < offsetToBlocks (fs.sizeAt file), (file, q) ∈ fs.emFicheiros := fun q hq =>
    mem_emFicheiros.mpr ⟨⟨hfile.1, by omega⟩, hfile.2.2, hq⟩
  have hF : fs.Folga fs.emFicheiros (fs.blocosEscrita file offset count) :=
    ⟨h.cobre, hlivre, hchega⟩
  obtain ⟨live', hsub, hres, hnovos⟩ := hF.reservarBlocos file _
    (offsetToBlocks (fs.sizeAt file)) fun q hq hm =>
      absurd (mem_emFicheiros.mp hm).2.2 (Nat.not_lt.mpr hq)
  have hsame : SameInodes fs (reservado fs file offset count).1 := reservarBlocos_same _ _ _ _
  change (reservado fs file offset count).1.Folga live' _ at hres
  change (reservado fs file offset count).2 = true → _ at hnovos
  rcases hcasos with ⟨he, -⟩ | ⟨hok, fs₃, ⟨fs₂, num, iblock, block, hex, hrv⟩, he⟩
  · -- some blocks stay reserved, behind the end of the file
    obtain ⟨rfl, -⟩ := Prod.mk.inj he
    refine h.congr (hres.toCobre.mono ?_) hsame
    refine Finset.Subset.trans ?_ hsub
    rintro ⟨i, q⟩ hp
    rw [mem_emFicheiros, hsame.type, hsame.size, ← mem_emFicheiros] at hp
    exact hp
  obtain ⟨rfl, -⟩ := Prod.mk.inj he
  have hall : ∀ q < offsetToBlocks (fs.sizeAt file) + blksReq fs file offset count,
      (file, q) ∈ live' := fun q hq => by
    by_cases hq' : q < offsetToBlocks (fs.sizeAt file)
    · exact hsub (hmem q hq')
    · exact hnovos hok q (by omega) hq
  have hini : min offset (fs.sizeAt file) / blockSize ≤ offsetToBlocks (fs.sizeAt file) :=
    (Nat.div_le_div_right (min_le_right _ _)).trans (Nat.le_add_right _ _)
  obtain ⟨hF₂, hle, hle'⟩ := hres.escreverExistentes _
    (by rw [Nat.add_sub_cancel' hini]; exact hnb) (fun q hq => hall q (by omega)) hex
  have hF₃ := (hF₂.weaken (show offsetToBlocks (fs.sizeAt file) + blksReq fs file offset count -
      iblock + 0 ≤ _ by omega)).escreverReservados _ (by omega)
    (fun q hq => hall q (by omega)) hrv
  have hsize : offsetToBlocks (max (min offset (fs.sizeAt file) + count) (fs.sizeAt file)) ≤
      offsetToBlocks (fs.sizeAt file) + blksReq fs file offset count := by
    rw [offsetToBlocks_mono.map_max, blksReq]
    omega
  refine Contagem.store (h.setSize (hsame.trans ((escreverExistentes_same _ hex).trans
    (escreverReservados_same _ hrv))) hF₃.toCobre (by omega) (fun q hq => hall q (by omega))
    fun p hp _ => hsub hp)

/-- A call whose references fit keeps the counters above the slots. -/
theorem exec (h : fs.Contagem) {op : FsOp} (hop : op.CabeNoChar fs) {r : Resposta}
    (hr : op.exec fs = some (fs', r)) : fs'.Contagem := by
  cases op with
  | create dir file =>
      obtain ⟨⟨fs₁, n⟩, hs, he⟩ := Option.map_eq_some_iff.mp hr
      obtain ⟨rfl, -⟩ := Prod.mk.inj he
      exact h.criar hs
  | write file offset count buffer lixo =>
      obtain ⟨⟨fs₁, n⟩, hs, he⟩ := Option.map_eq_some_iff.mp hr
      obtain ⟨rfl, -⟩ := Prod.mk.inj he
      exact h.escrever hop.2 hs
  | copy d₁ nome₁ d₂ nome₂ =>
      obtain ⟨⟨fs₁, n⟩, hs, he⟩ := Option.map_eq_some_iff.mp hr
      obtain ⟨rfl, -⟩ := Prod.mk.inj he
      exact h.copia hop.1 hs
  | append d₁ nome₁ d₂ nome₂ =>
      obtain ⟨⟨fs₁, n⟩, hs, he⟩ := Option.map_eq_some_iff.mp hr
      obtain ⟨rfl, -⟩ := Prod.mk.inj he
      exact h.anexar hop.1 hs
  | mkdir => exact hop.1.elim
  | read => exact hop.1.elim
  | remove => exact hop.1.elim
  | defrag => exact hop.1.elim
  | actualizar => exact hop.1.elim

theorem inicial (pilha : ℕ → ℤ) : (Fs.inicial pilha).Contagem := by
  obtain ⟨-, -, -, -, hrefs, -, -, -, htab⟩ := inicial_spec pilha
  have htype : ∀ i, (Fs.inicial pilha).typeAt i ≠ .fsFile := fun i => by
    rw [typeAt, htab]
    change (if i = 1 then FsItype.fsDir else .unset) ≠ .fsFile
    split <;> exact FsItype.noConfusion
  have hem : (Fs.inicial pilha).emFicheiros = ∅ := by
    ext ⟨i, q⟩
    rw [mem_emFicheiros]
    exact iff_of_false (fun hp => htype i hp.2.1) (Finset.notMem_empty _)
  refine ⟨⟨fun b => ?_, fun b => ?_⟩, fun i ht => absurd ht (htype i)⟩
  · rw [hem, hrefs]
    rfl
  · rw [hrefs]
    decide

end Fs.Contagem

/-! ### Runs without appends -/

namespace Fs

/-- The slots take few of the bits. -/
theorem Consistent.chega {fs : Fs} (h : fs.Consistent) {k : ℕ} (hk : k ≤ 3 * inodeNumBlks) :
    fs.Chega k := by
  have hsub : Finset.range bmapBits \ (Finset.range 10 ∪ fs.emUso.image fs.slot) ⊆
      fs.bitsLivres := by
    intro b hb
    rw [Finset.mem_sdiff, Finset.mem_union, not_or, Finset.mem_range, Finset.mem_range] at hb
    refine mem_bitsLivres.mpr ⟨hb.1, Bool.eq_false_iff.mpr fun ho => hb.2.2 ?_⟩
    obtain ⟨p, hp, hs⟩ := (h.acc.bits b (Nat.not_lt.mp hb.2.1)).mp ho
    exact Finset.mem_image.mpr ⟨p, hp, hs⟩
  have huso : (fs.emUso.image fs.slot).card ≤ itabSize * inodeNumBlks := by
    refine Finset.card_image_le.trans ?_
    rw [emUso]
    refine (Finset.card_filter_le _ _).trans ?_
    rw [Finset.card_product, Finset.card_range, Finset.card_range]
  have hunion := Finset.card_union_le (Finset.range 10) (fs.emUso.image fs.slot)
  have hdiff := Finset.le_card_sdiff (Finset.range 10 ∪ fs.emUso.image fs.slot)
    (Finset.range bmapBits)
  have hcard := Finset.card_le_card hsub
  rw [Finset.card_range] at hunion hdiff
  refine .inr ?_
  simp only [bmapBits, blockSize, itabSize, inodeNumBlks] at *
  omega

/-- Exact accounts leave room for the blocks of any call. -/
theorem Consistent.blocosCabem {fs : Fs} (h : fs.Consistent) : ∀ op : FsOp, op.BlocosCabem fs
  | .create _ _ => fun _ _ _ _ _ => h.chega (by decide)
  | .write file offset count _ _ => fun hadm => by
      refine ⟨h.chega ?_, fun b _ hb => ?_⟩
      · have hn := h.offsetToBlocks_le file
        have hreq := hadm.2
        rw [blocosEscrita]
        simp only [inodeNumBlks, blockSize] at hn hreq ⊢
        omega
      · rw [h.acc.refs_of_free hb]
        decide
  | .copy _ _ _ _ => fun _ _ _ _ _ _ _ _ => h.chega (by decide)
  | .mkdir _ _ | .read _ _ _ | .remove _ _ | .append _ _ _ _ | .defrag | .actualizar _ => trivial

theorem Exacto.cabeNoChar {fs : Fs} (h : fs.Exacto) {op : FsOp} (hop : op.SoEscreve) :
    op.CabeNoChar fs := by
  refine ⟨?_, h.consistent.blocosCabem op⟩
  cases op with
  | create => trivial
  | write => trivial
  | copy d₁ nome₁ d₂ nome₂ =>
      intro de hadm b
      have := h.distintos.cabe_live h.consistent (Finset.Subset.refl _) hadm.ficheiro b
      rw [h.consistent.acc.refs]
      omega
  | _ => exact hop.elim

/-- Creations, writes and copies between different files always fit. -/
theorem permitted_cabeNoChar (pilha : ℕ → ℤ) {ops : List FsOp}
    (hops : Runs.Permitted FsOp.exec (fun fs op => op.SemAnexo fs ∧ op.SoEscreve)
      (inicial pilha) ops) : Runs.Permitted FsOp.exec FsOp.CabeNoChar (inicial pilha) ops := by
  refine Runs.Permitted.of_invariant (I := Exacto) (fun fs op hex hop => hex.cabeNoChar hop.2)
    (fun fs op fs' r hex hop hr => ?_) (inicial_exacto pilha) hops
  exact (hex.exec_mudanca hop.1 hr).1

end Fs

/-- In every state that creations, writes, copies and appends reach whose references fit, no counter
has overflowed. -/
theorem referencias_sem_estouro (pilha : ℕ → ℤ) (ops : List FsOp)
    (hops : Runs.Permitted FsOp.exec FsOp.CabeNoChar (fsFormat (fsNew Fs.discoServidor pilha)) ops)
    {fs : Fs} {rs : List Resposta}
    (hrun : Runs.run FsOp.exec (fsFormat (fsNew Fs.discoServidor pilha)) ops = some (fs, rs)) :
    fs.SemEstouro := by
  have h : fs.Contagem := Runs.run_invariant (I := Fs.Contagem)
    (fun _ _ _ _ hI hop he => hI.exec hop he) (Fs.Contagem.inicial pilha) hops hrun
  exact h.cobre.semEstouro

/-! ### A run with appends -/

namespace Fs

/-- The counters have room for one more reference to each block that the file names, taken slot by
slot. -/
def CabeNosSlots (fs : Fs) (i : ℕ) : Prop :=
  ∀ r < offsetToBlocks (fs.sizeAt i),
    fs.referencias (fs.slot (i, r)) + fs.vezes i (offsetToBlocks (fs.sizeAt i)) (fs.slot (i, r)) ≤
      127

instance (fs : Fs) (i : ℕ) : Decidable (fs.CabeNosSlots i) := by
  unfold CabeNosSlots
  infer_instance

/-- Only the blocks that the file names get references. -/
theorem CabeNosSlots.cabe {fs : Fs} (hchar : ∀ b, fs.referencias b ≤ 127) {i : ℕ}
    (h : fs.CabeNosSlots i) (b : ℕ) :
    fs.referencias b + fs.vezes i (offsetToBlocks (fs.sizeAt i)) b ≤ 127 := by
  by_cases hb : ∃ r < offsetToBlocks (fs.sizeAt i), fs.slot (i, r) = b
  · obtain ⟨r, hr, rfl⟩ := hb
    exact h r hr
  · have hzero : fs.vezes i (offsetToBlocks (fs.sizeAt i)) b = 0 := by
      rw [vezes, Finset.card_eq_zero]
      exact Finset.filter_eq_empty_iff.mpr fun r hr hs => hb ⟨r, Finset.mem_range.mp hr, hs⟩
    rw [hzero]
    simpa using hchar b

end Fs

/-- An append whose references fit, on the evidence of the slots that it copies. -/
def FsOp.AnexaAvaliado (fs : Fs) : FsOp → Prop
  | .append _ _ d₂ nome₂ => ∀ para ∈ fs.encontra d₂ nome₂.val, fs.CabeNosSlots para
  | _ => False

instance (fs : Fs) (op : FsOp) : Decidable (op.AnexaAvaliado fs) :=
  match op with
  | .append _ _ d₂ nome₂ =>
      inferInstanceAs (Decidable (∀ para ∈ fs.encontra d₂ nome₂.val, fs.CabeNosSlots para))
  | .create _ _ | .mkdir _ _ | .write _ _ _ _ _ | .read _ _ _ | .copy _ _ _ _ | .remove _ _
  | .defrag | .actualizar _ => isFalse id

theorem Fs.Contagem.cabeNoChar {fs : Fs} (h : fs.Contagem) {op : FsOp}
    (hop : op.AnexaAvaliado fs) : op.CabeNoChar fs := by
  cases op with
  | append d₁ nome₁ d₂ nome₂ =>
      exact ⟨fun de para _ hpara b => (hop para hpara).cabe h.cobre.char b, trivial⟩
  | _ => exact hop.elim

/-- A file of a block and a byte is copied, and the copy is written to. -/
def chamadasEscritas : List FsOp :=
  [.create 1 nomeA, .write 2 0 513 (fun _ => 1) nullBlock, .copy 1 nomeA 1 nomeB,
    .write 3 0 1 (fun _ => 2) nullBlock]

/-- The file is appended to itself and to the copy. -/
def chamadasAnexas : List FsOp := [.append 1 nomeA 1 nomeA, .append 1 nomeB 1 nomeA]

set_option maxRecDepth 100000 in
/-- The counters hold: three slots name the block of the byte, and its counter is 4. -/
theorem referencias_sem_estouro_anexas :
    ∃ fs rs, Runs.run FsOp.exec (fsFormat (fsNew Fs.discoServidor fun _ => 7))
        (chamadasEscritas ++ chamadasAnexas) = some (fs, rs) ∧
      ((fs.nomeiam (fs.slot (2, 1))).card = 3 ∧ fs.referencias (fs.slot (2, 1)) = 4) ∧
      fs.SemEstouro := by
  have hescritas : Runs.Permitted FsOp.exec FsOp.CabeNoChar (Fs.inicial fun _ => 7)
      chamadasEscritas := by
    refine Fs.permitted_cabeNoChar _ ?_
    rw [Fs.inicial_eq_formatado]
    decide +kernel
  obtain ⟨fs₁, rs₁, hrun₁, hanexas⟩ : ∃ fs rs,
      Runs.run FsOp.exec (Fs.inicial fun _ => 7) chamadasEscritas = some (fs, rs) ∧
        Runs.Permitted FsOp.exec FsOp.AnexaAvaliado fs chamadasAnexas := by
    rw [Fs.inicial_eq_formatado]
    exact Runs.exists_run_of_any (by decide +kernel)
  have h₁ : fs₁.Contagem := Runs.run_invariant (I := Fs.Contagem)
    (fun _ _ _ _ hI hop he => hI.exec hop he) (Fs.Contagem.inicial _) hescritas hrun₁
  have hops : Runs.Permitted FsOp.exec FsOp.CabeNoChar (Fs.inicial fun _ => 7)
      (chamadasEscritas ++ chamadasAnexas) := by
    refine Runs.permitted_append hescritas fun s' os hr => ?_
    obtain ⟨rfl, -⟩ := Prod.mk.inj (Option.some.inj (hr.symm.trans hrun₁))
    exact Runs.Permitted.of_invariant (I := Fs.Contagem) (fun _ _ hI hop => hI.cabeNoChar hop)
      (fun _ _ _ _ hI hop he => hI.exec (hI.cabeNoChar hop) he) h₁ hanexas
  obtain ⟨fs, rs, hrun, hrefs⟩ : ∃ fs rs,
      Runs.run FsOp.exec (fsFormat (fsNew Fs.discoServidor fun _ => 7))
        (chamadasEscritas ++ chamadasAnexas) = some (fs, rs) ∧
      (fs.nomeiam (fs.slot (2, 1))).card = 3 ∧ fs.referencias (fs.slot (2, 1)) = 4 := by
    rw [Fs.fsFormat_eq_formatado]
    exact Runs.exists_run_of_any (by decide +kernel)
  exact ⟨fs, rs, hrun, hrefs, referencias_sem_estouro _ _ hops hrun⟩

/-! ## A file of one block, repeated and copied -/

namespace Fs

theorem Consistent.nomeiam_eq {fs : Fs} (h : fs.Consistent) (b : ℕ) :
    fs.nomeiam b = fs.fileSlots fs.emUso b := by
  ext ⟨i, q⟩
  rw [nomeiam, mem_fibre, mem_emFicheiros, mem_fileSlots, h.mem_emUso_iff]
  constructor
  · rintro ⟨⟨-, ht, hq⟩, hs⟩
    exact ⟨hq, ht, hs⟩
  · rintro ⟨hq, ht, hs⟩
    exact ⟨⟨h.acc.bound _ (h.mem_emUso_iff.mpr hq), ht, hq⟩, hs⟩

/-- Between calls that keep the accounts the counters are exact. -/
theorem Consistent.contagem {fs : Fs} (h : fs.Consistent) : fs.Contagem := by
  refine ⟨⟨fun b => ?_, h.acc.char⟩, fun i ht => ?_⟩
  · rw [h.acc.refs, ← h.nomeiam_eq]
    rfl
  · have ha := h.alocado_of_type (i := i) (by simp [ht])
    exact ⟨h.lt_of_alocado ha, ha, h.offsetToBlocks_le i⟩

/-- The copy of a file to a name that the call creates. -/
theorem fsCopy_of_criado {fs fs₁ : Fs} (h : fs.Consistent) {d₁ d₂ de n : ℕ}
    {nome₁ nome₂ : CString} (hde : fs.resolve d₁ nome₁.val = some de)
    (ht : fs.typeAt de = .fsFile) (hnome : ¬badName nome₂)
    (hcriar : fsCreate fs d₂ nome₂ = some (fs₁, some n))
    (hc : Criado .fsFile fs fs₁ d₂ nome₂.val n) :
    fsCopy fs d₁ nome₁ d₂ nome₂ = some (fsCopyInodes fs₁ de n) := by
  obtain ⟨hlt₁, ha₁, ht₁, hn₁, hp₁⟩ := h.of_resolve hde
  obtain ⟨-, -, ht₂, -, hp₂⟩ := hc.consistent.of_resolve (hc.resolve_self h)
  have ha₂ : bmapIsSet fs.inodeBmap d₂ = true := h.alocado_of_type (by simp [hc.dir])
  have ht₁' : (fs.inodeTab d₁).type = .fsDir := ht₁
  have ht₂' : (fs.inodeTab d₂).type = .fsDir := hc.dir
  have ht' : (fs.inodeTab de).type = .fsFile := ht
  simp [fsCopy, Nat.not_le.mpr hlt₁, hn₁, hnome, ha₁, ha₂, ht₁', ht₂', ht',
    h.fsiDirSearch_eq ht₁ nome₁.property, h.fsiDirSearch_eq hc.dir nome₂.property, hp₁, hc.nova,
    hcriar, hc.consistent.fsiDirSearch_eq ht₂ nome₂.property, hp₂]

end Fs

/-- The names of the copies. -/
def nomeCopia (k : ℕ) : CString := ⟨[99, BitVec.ofNat 8 (k % 26 + 97)], by
  have hk : k % 26 < 26 := Nat.mod_lt _ (by decide)
  simp only [List.mem_cons, List.not_mem_nil, or_false, not_or]
  refine ⟨by decide, fun he => ?_⟩
  have := congrArg BitVec.toNat he
  simp only [BitVec.toNat_ofNat] at this
  omega⟩

/-- File 2 names one block `m` times, and so do `k` copies of it. -/
structure Repetido (fs : Fs) (m k : ℕ) : Prop where
  consistent : fs.Consistent
  raiz : fs.typeAt 1 = .fsDir ∧ fs.sizeAt 1 = 16 * (1 + k)
  alocado : ∀ i, fs.alocado i = decide (i < 3 + k)
  nome : fs.resolve 1 nomeA.val = some 2
  livres : ∀ j, k ≤ j → j < 15 → fs.procura 1 (nomeCopia j).val = none
  ficheiro : fs.typeAt 2 = .fsFile ∧ fs.sizeAt 2 = blockSize * m
  repete : ∀ q < m, fs.slot (2, q) = fs.slot (2, 0)
  refs : fs.referencias (fs.slot (2, 0)) = m * (k + 1)

namespace Repetido

variable {fs : Fs} {m k : ℕ}

theorem blocos (h : Repetido fs m k) : offsetToBlocks (fs.sizeAt 2) = m := by
  rw [h.ficheiro.2, offsetToBlocks_mul]

theorem vezes (h : Repetido fs m k) {n : ℕ} (hn : n ≤ m) (b : ℕ) :
    fs.vezes 2 n b = if b = fs.slot (2, 0) then n else 0 := by
  rw [Fs.vezes]
  split
  · rename_i hb
    rw [Finset.filter_true_of_mem fun q hq => ?_, Finset.card_range]
    rw [h.repete q ((Finset.mem_range.mp hq).trans_le hn), hb]
  · rename_i hb
    rw [Finset.filter_false_of_mem fun q hq => ?_, Finset.card_empty]
    rw [h.repete q ((Finset.mem_range.mp hq).trans_le hn)]
    exact fun he => hb he.symm

theorem cabe (h : Repetido fs m k) {n : ℕ} (hn : n ≤ m) (hm : m * (k + 1) + n ≤ 127) (b : ℕ) :
    fs.referencias b + fs.vezes 2 n b ≤ 127 := by
  have := h.consistent.acc.char b
  rw [h.vezes hn]
  split
  · rename_i hb
    rw [hb, h.refs]
    exact_mod_cast hm
  · push_cast
    omega

/-- The file appended to itself. -/
theorem anexar (h : Repetido fs m 0) (hm : m + m ≤ inodeNumBlks) (h0 : 0 < m) :
    ∃ fs' s, fsAppend fs 1 nomeA 1 nomeA = some (fs', some s) ∧ Repetido fs' (m + m) 0 ∧
      fs'.pagina (2, 0) = fs.pagina (2, 0) := by
  have hblocos := h.blocos
  have happ := Fs.fsAppend_of_resolve h.consistent h.nome h.ficheiro.1 h.nome
  rw [hblocos, if_neg (by omega)] at happ
  have hsoma : fs.sizeAt 2 + fs.sizeAt 2 = blockSize * (m + m) := by
    rw [h.ficheiro.2, Nat.mul_add]
  have hcabe := h.cabe le_rfl (by simp only [inodeNumBlks] at hm; omega)
  have hanexo : fs.AnexoExacto 2 2 := .inr ⟨h.ficheiro.1, by
    rw [hsoma, hblocos, offsetToBlocks_mul], fun b => by
    have := hcabe b
    rw [h.consistent.acc.refs] at this
    rw [hblocos]
    omega⟩
  have ha := Fs.anexar_spec h.consistent h.ficheiro.1 hanexo (by rw [hblocos]; exact hm)
  obtain ⟨-, hrefs⟩ := h.consistent.contagem.cobre.copiarReferencias 2 2 m m
    (fun _ => .inr le_rfl) (fun r _ hr => by
      have := (Fs.mem_emFicheiros.mp hr).2.2
      omega) hcabe
  rw [hblocos] at ha
  refine ⟨_, _, happ, ?_, by rw [Fs.pagina, ha.cache, ha.slot, if_neg (by dsimp only; omega)]; rfl⟩
  have hslot : ∀ q < m + m, ((copiarReferencias fs 2 2 m m).setSize 2
      (fs.sizeAt 2 + fs.sizeAt 2)).slot (2, q) = fs.slot (2, 0) := fun q hq => by
    rw [ha.slot]
    dsimp only
    rw [hblocos]
    split
    · exact h.repete _ (by omega)
    · exact h.repete _ (by omega)
  have hraiz : ((copiarReferencias fs 2 2 m m).setSize 2
      (fs.sizeAt 2 + fs.sizeAt 2)).entradas 1 = fs.entradas 1 := by
    refine Fs.entradas_congr (by rw [ha.size, if_neg (by decide)]) fun q _ => ?_
    rw [Fs.pagina, ha.cache, ha.slot, if_neg fun he => absurd he.1 (by simp)]
    rfl
  constructor
  · exact ha.consistent
  · rw [ha.type, ha.size, if_neg (by decide)]
    exact h.raiz
  · intro i
    rw [Fs.alocado, ha.inodeBmap]
    exact h.alocado i
  · rw [Fs.resolve_of_dir ((ha.type 1).trans h.raiz.1), Fs.procura_congr hraiz,
      ← Fs.resolve_of_dir h.raiz.1]
    exact h.nome
  · intro j hj hj'
    rw [Fs.procura_congr hraiz]
    exact h.livres j hj hj'
  · rw [ha.type, ha.size, if_pos rfl]
    exact ⟨h.ficheiro.1, hsoma⟩
  · intro q hq
    rw [hslot q hq, hslot 0 (by omega)]
  · rw [hslot 0 (by omega), Fs.setSize_referencias, hrefs, h.refs, h.vezes le_rfl, if_pos rfl]
    push_cast
    ring

/-- The next name, while the root has room in its block. -/
theorem criar (h : Repetido fs m k) (hk : k < 15) :
    ∃ fs₁, fsCreate fs 1 (nomeCopia k) = some (fs₁, some (3 + k)) ∧
      Criado .fsFile fs fs₁ 1 (nomeCopia k).val (3 + k) := by
  refine Fs.fsCriar_em_ordem h.consistent .fsFile (by decide) ?_ h.raiz.1 (h.livres k le_rfl hk)
    h.alocado ?_
  · simp [badName, nomeCopia, fsMaxFnameSz]
  · simp only [itabSize]
    omega

/-- What the creation of the next name leaves of file 2 and of the counters. -/
theorem criado (h : Repetido fs m k) {fs₁ : Fs}
    (hr : fsCreate fs 1 (nomeCopia k) = some (fs₁, some (3 + k))) :
    fs₁.referencias = fs.referencias ∧ fs₁.typeAt 2 = .fsFile ∧ fs₁.sizeAt 2 = fs.sizeAt 2 ∧
      ∀ q, fs₁.slot (2, q) = fs.slot (2, q) := by
  obtain ⟨hrefs, hmantem⟩ := h.consistent.contagem.criar_mantem hr
  obtain ⟨ht, hs, -, hslot⟩ := hmantem 2 h.ficheiro.1
  exact ⟨hrefs, ht.trans h.ficheiro.1, hs, hslot⟩

/-- The copy to a new name gives it the blocks of file 2. -/
theorem copia_eq (h : Repetido fs m k) {fs₁ : Fs}
    (hr : fsCreate fs 1 (nomeCopia k) = some (fs₁, some (3 + k)))
    (hc : Criado .fsFile fs fs₁ 1 (nomeCopia k).val (3 + k)) :
    fsCopy fs 1 nomeA 1 (nomeCopia k) =
      some ((copiarReferencias fs₁ 2 (3 + k) 0 m).setSize (3 + k) (fs.sizeAt 2), 0) := by
  rw [Fs.fsCopy_of_criado h.consistent h.nome h.ficheiro.1
    (by simp [badName, nomeCopia, fsMaxFnameSz]) hr hc, fsCopyInodes]
  have htn : (fs₁.inodeTab (3 + k)).type = .fsFile := (hc.type _).trans (if_pos rfl)
  have hsn : (fs₁.inodeTab (3 + k)).size = 0 := (hc.size _).trans (if_pos rfl)
  have hs2 : (fs₁.inodeTab 2).size = fs.sizeAt 2 := (h.criado hr).2.2.1
  rw [if_neg (by rw [htn]; exact not_not.mpr rfl), hsn]
  dsimp only
  rw [offsetToBlocks_zero, libertarDestino, List.range_zero, List.foldl_nil, hs2, h.blocos]

theorem nomeCopia_ne : ∀ j < 15, ∀ k < 15, j ≠ k → (nomeCopia j).val ≠ (nomeCopia k).val := by
  decide

/-- The copies that the counter has room for. -/
theorem copiar (h : Repetido fs m k) (hk : k < 15) (hm : m * (k + 1) + m ≤ 127) :
    ∃ fs' r, fsCopy fs 1 nomeA 1 (nomeCopia k) = some (fs', r) ∧ Repetido fs' m (k + 1) := by
  obtain ⟨fs₁, hr, hc⟩ := h.criar hk
  obtain ⟨hrefs, ht₁, hs₁, hslot₁⟩ := h.criado hr
  have hcopy := h.copia_eq hr hc
  have hcons₁ := hc.consistent
  have hv : ∀ b, fs₁.vezes 2 m b = fs.vezes 2 m b := fun b => by
    rw [Fs.vezes, Finset.filter_congr fun r _ => by rw [hslot₁ r], ← Fs.vezes]
  have hcabe : ∀ b, fs₁.referencias b + fs₁.vezes 2 m b ≤ 127 := fun b => by
    rw [hrefs, hv]
    exact h.cabe le_rfl hm b
  have hn0 : fs₁.sizeAt (3 + k) = 0 := (hc.size _).trans (if_pos rfl)
  obtain ⟨-, hrefs₂⟩ := hcons₁.contagem.cobre.copiarReferencias 2 (3 + k) 0 m
    (fun _ => .inl rfl) (fun r _ hm => by
      have := (Fs.mem_emFicheiros.mp hm).2.2
      rw [hn0] at this
      exact absurd this (Nat.not_lt_zero _)) hcabe
  obtain ⟨fs', hr', hcop⟩ : ∃ fs', fsCopyInodes fs₁ 2 (3 + k) = (fs', 0) ∧
      Copiado fs₁ fs' 2 (3 + k) := by
    have hpart : fs₁.Partilha 2 (3 + k) := hcons₁.partilha (by omega) ht₁
    rcases Fs.fsCopyInodes_spec hcons₁ (fun _ => hpart) ht₁ (fun _ b => by
        have := hcabe b
        rw [hcons₁.acc.refs] at this
        have hle : (fs₁.fileSlots (fs₁.foraDe (3 + k)) b).card ≤
            (fs₁.fileSlots fs₁.emUso b).card :=
          Finset.card_le_card (Finset.filter_subset_filter _ (Finset.filter_subset _ _))
        rw [hs₁, h.blocos]
        omega) with hno | hok
    · have hcriado := Fs.fsCopy_of_criado h.consistent h.nome h.ficheiro.1
        (by simp [badName, nomeCopia, fsMaxFnameSz]) hr hc
      rw [hno, hcopy] at hcriado
      exact absurd (Prod.mk.inj (Option.some.inj hcriado)).2 (by decide)
    · exact hok
  have hcriado := Fs.fsCopy_of_criado h.consistent h.nome h.ficheiro.1
    (by simp [badName, nomeCopia, fsMaxFnameSz]) hr hc
  rw [hr'] at hcriado
  have hfs' : fs'.referencias = (copiarReferencias fs₁ 2 (3 + k) 0 m).referencias := by
    rw [hcopy] at hcriado
    rw [← (Prod.mk.inj (Option.some.inj hcriado)).1]
    rfl
  have hslot : ∀ q, fs'.slot (2, q) = fs.slot (2, q) := fun q => by
    rw [hcop.slot _ (by dsimp only; omega), hslot₁]
  have hne1 : (1 : ℕ) ≠ 3 + k := by omega
  have hne2 : (2 : ℕ) ≠ 3 + k := by omega
  have hraiz₁ : fs₁.typeAt 1 = .fsDir := by
    rw [hc.type, if_neg hne1]
    exact h.raiz.1
  refine ⟨fs', 0, hcriado, ⟨hcop.consistent, ⟨?_, ?_⟩, fun i => ?_, ?_, fun j hj hj' => ?_,
    ⟨?_, ?_⟩, fun q hq => ?_, ?_⟩⟩
  · rw [hcop.type, hraiz₁]
  · rw [hcop.size, if_neg hne1, hc.size, if_neg hne1, if_pos rfl, h.raiz.2]
    ring
  · rw [Fs.alocado, hcop.inodeBmap, ← Fs.alocado, hc.alocado, h.alocado, ← Bool.decide_or,
      decide_eq_decide]
    omega
  · rw [hcop.resolve hcons₁]
    exact hc.resolve_of_some h.consistent h.nome
  · have hres := hcop.resolve hcons₁ 1 (nomeCopia j).val
    rw [Fs.resolve_of_dir ((hcop.type 1).trans hraiz₁), Fs.resolve_of_dir hraiz₁] at hres
    have hvelho := h.livres j (by omega) hj'
    rw [Fs.procura, Option.map_eq_none_iff] at hvelho
    rw [hres, Fs.procura, hc.entradas, List.find?_append, hvelho]
    simp [(nomeCopia_ne k hk j hj' (by omega))]
  · exact (hcop.type 2).trans ht₁
  · rw [hcop.size, if_neg hne2, hs₁]
    exact h.ficheiro.2
  · rw [hslot, hslot]
    exact h.repete q hq
  · rw [hslot, hfs', hrefs₂, hrefs, hv, h.vezes le_rfl, if_pos rfl, h.refs]
    push_cast
    ring

/-- The copy that takes the counter from 120 past 127. -/
theorem estoura (h : Repetido fs 8 14) :
    ∃ fs' r, fsCopy fs 1 nomeA 1 (nomeCopia 14) = some (fs', r) ∧
      ∃ b, 128 ≤ (fs'.nomeiam b).card ∧ fs'.referencias b = -128 := by
  obtain ⟨fs₁, hr, hc⟩ := h.criar (by decide)
  obtain ⟨hrefs, ht₁, -, hslot₁⟩ := h.criado hr
  refine ⟨_, _, h.copia_eq hr hc, fs.slot (2, 0), ?_, ?_⟩
  · have hconta : (fs₁.nomeiam (fs.slot (2, 0))).card = 120 := by
      have := hc.consistent.acc.refs (fs.slot (2, 0))
      rw [hrefs, h.refs, ← hc.consistent.nomeiam_eq] at this
      omega
    have hn0 : fs₁.sizeAt 17 = 0 := (hc.size _).trans (if_pos rfl)
    have htn : fs₁.typeAt 17 = .fsFile := (hc.type _).trans (if_pos rfl)
    have hnovos : Disjoint (fs₁.nomeiam (fs.slot (2, 0))) ({17} ×ˢ Finset.range 8) := by
      refine Finset.disjoint_left.mpr ?_
      rintro ⟨i, q⟩ hp hq
      obtain rfl := Finset.mem_singleton.mp (Finset.mem_product.mp hq).1
      rw [Fs.nomeiam, mem_fibre, Fs.mem_emFicheiros, hn0] at hp
      exact absurd hp.1.2.2 (Nat.not_lt_zero q)
    have hsub : fs₁.nomeiam (fs.slot (2, 0)) ∪ {17} ×ˢ Finset.range 8 ⊆
        ((copiarReferencias fs₁ 2 (3 + 14) 0 8).setSize (3 + 14) (fs.sizeAt 2)).nomeiam
          (fs.slot (2, 0)) := by
      rintro ⟨i, q⟩ hp
      have hsame := copiarReferencias_same fs₁ 2 (3 + 14) 0 8
      rw [Fs.nomeiam, mem_fibre, Fs.mem_emFicheiros, Fs.setSize_typeAt, hsame.type,
        Fs.setSize_sizeAt, hsame.size, Fs.setSize_slot,
        copiarReferencias_slot_of fs₁ (fun _ => .inl rfl)]
      rcases Finset.mem_union.mp hp with hold | hnew
      · rw [Fs.nomeiam, mem_fibre, Fs.mem_emFicheiros] at hold
        obtain ⟨⟨hlt, ht, hq⟩, hs⟩ := hold
        have hi : i ≠ 3 + 14 := by
          rintro rfl
          rw [hn0] at hq
          exact absurd hq (Nat.not_lt_zero q)
        rw [if_neg hi, if_neg fun he => hi he.1]
        exact ⟨⟨hlt, ht, hq⟩, hs⟩
      · obtain ⟨hi, hq⟩ := Finset.mem_product.mp hnew
        obtain rfl := Finset.mem_singleton.mp hi
        have hq8 : q < 8 := Finset.mem_range.mp hq
        rw [if_pos rfl, if_pos ⟨rfl, Nat.zero_le q, by dsimp only; omega⟩, h.blocos, hslot₁]
        refine ⟨⟨⟨by decide, ?_⟩, htn, hq8⟩, h.repete q hq8⟩
        simp only [inodeNumBlks]
        omega
    have := Finset.card_le_card hsub
    rw [Finset.card_union_of_disjoint hnovos, hconta] at this
    simpa using this
  · -- seven references take the counter to 127, and the eighth past it
    obtain ⟨-, hsete⟩ := hc.consistent.contagem.cobre.copiarReferencias 2
      (3 + 14) 0 7 (fun _ => .inl rfl) (fun r _ hm => by
        have hn0 : fs₁.sizeAt (3 + 14) = 0 := (hc.size _).trans (if_pos rfl)
        have := (Fs.mem_emFicheiros.mp hm).2.2
        rw [hn0] at this
        exact absurd this (Nat.not_lt_zero _)) fun b => by
          rw [hrefs, Fs.vezes, Finset.filter_congr fun r _ => by rw [hslot₁ r], ← Fs.vezes]
          exact h.cabe (by decide) (by decide) b
    have hb := hsete (fs.slot (2, 0))
    rw [hrefs, h.refs, Fs.vezes, Finset.filter_congr fun r _ => by rw [hslot₁ r], ← Fs.vezes,
      h.vezes (by decide), if_pos rfl] at hb
    have hde : (copiarReferencias fs₁ 2 (3 + 14) 0 7).slot (2, 7) = fs.slot (2, 0) := by
      rw [copiarReferencias_slot_of fs₁ (fun _ => .inl rfl),
        if_neg fun he => absurd he.1 (by decide),
        hslot₁]
      exact h.repete 7 (by decide)
    rw [Fs.setSize_referencias, Fs.Cobre.copiarReferencias_succ]
    dsimp only
    rw [hde, hb]
    exact (Function.update_self _ _ _).trans (by decide)

/-- `n` copies in a row. -/
theorem copias (h : Repetido fs m 0) (n : ℕ) (hn : n ≤ 15)
    (hm : m * (n + 1) ≤ 127) :
    ∃ fs' rs, Runs.run FsOp.exec fs ((List.range n).map fun k => .copy 1 nomeA 1 (nomeCopia k)) =
      some (fs', rs) ∧ Repetido fs' m n := by
  induction n with
  | zero => exact ⟨fs, [], rfl, h⟩
  | succ n ih =>
      obtain ⟨fs₁, rs, hrun, hrep⟩ := ih (by omega)
        ((Nat.mul_le_mul_left m (Nat.le_succ _)).trans hm)
      obtain ⟨fs₂, r, hcopy, hrep₂⟩ := hrep.copiar (by omega) hm
      rw [List.range_succ, List.map_append]
      exact ⟨fs₂, _, Runs.run_append hrun (Runs.run_one (by
        rw [FsOp.exec, hcopy]
        rfl)), hrep₂⟩

end Repetido

/-- One file of one block. -/
theorem repetido_um (pilha : ℕ → ℤ) :
    ∃ fs rs, Runs.run FsOp.exec (fsFormat (fsNew Fs.discoServidor pilha))
        [.create 1 nomeA, .write 2 0 512 (fun _ => 1) nullBlock] = some (fs, rs) ∧
      Repetido fs 1 0 ∧ byteAt (fs.pagina (2, 0)) 0 = 1 := by
  have h₀ := Fs.inicial_consistent pilha
  obtain ⟨-, -, -, -, -, -, hal, -, htab⟩ := Fs.inicial_spec pilha
  have hraiz := h₀.inodes.root.2
  have hsize : ∀ i, (Fs.inicial pilha).sizeAt i = 0 := fun i => by rw [Fs.sizeAt, htab]; rfl
  have hnil := Fs.inicial_entradas pilha 1
  obtain ⟨fs₁, hr, hc⟩ := Fs.fsCriar_em_ordem h₀ .fsFile (by decide)
    (by decide : ¬badName nomeA) hraiz (by simp [Fs.procura, hnil]) hal (by decide)
  have ht₁ : fs₁.typeAt 2 = .fsFile := (hc.type 2).trans (if_pos rfl)
  have hs₁ : fs₁.sizeAt 2 = 0 := (hc.size 2).trans (if_pos rfl)
  obtain ⟨fs₂, hw, -, he⟩ := Fs.fsWrite_vazio hc.consistent ht₁ hs₁ (by decide : 0 < 512) le_rfl
    (fun _ => 1) nullBlock
  have hraiz₁ : fs₁.typeAt 1 = .fsDir := (hc.type 1).trans hraiz
  have hent : fs₂.entradas 1 = [(nomeA.val, 2)] := by
    rw [Fs.entradas_congr (he.size 1 (by decide)) fun q hq =>
      he.pagina _ (hc.consistent.mem_emUso_iff.mpr hq) (by simp), hc.entradas, hnil]
    rfl
  have hrun₁ : Runs.run FsOp.exec (Fs.inicial pilha) [.create 1 nomeA] =
      some (fs₁, [.inode (some 2)]) := by
    refine Runs.run_one ?_
    rw [FsOp.exec, fsCreate, hr]
    rfl
  have hrun₂ : Runs.run FsOp.exec fs₁ [.write 2 0 512 (fun _ => 1) nullBlock] =
      some (fs₂, [.estado 0]) := by
    refine Runs.run_one ?_
    rw [FsOp.exec, hw]
    rfl
  have hall := Runs.run_append hrun₁ hrun₂
  simp only [List.cons_append, List.nil_append] at hall
  have hs₂ : fs₂.sizeAt 2 = blockSize * 1 := by
    rw [he.tamanho, hs₁]
    rfl
  have hficheiro : ∀ i, fs₂.typeAt i = .fsFile ↔ i = 2 := fun i => by
    rw [he.type, hc.type]
    split
    · rename_i hi
      exact iff_of_true rfl hi
    · rename_i hi
      refine iff_of_false (fun ht => ?_) hi
      rw [Fs.typeAt, htab] at ht
      change (if i = 1 then FsItype.fsDir else .unset) = .fsFile at ht
      split at ht <;> exact FsItype.noConfusion ht
  refine ⟨fs₂, _, hall, ⟨he.consistent, ⟨?_, ?_⟩, fun i => ?_, ?_, fun j _ _ => ?_,
    ⟨(hficheiro 2).mpr rfl, hs₂⟩, fun q hq => by rw [Nat.lt_one_iff.mp hq], ?_⟩, ?_⟩
  · exact (he.type 1).trans hraiz₁
  · rw [he.size 1 (by decide), hc.size, if_neg (by decide), if_pos rfl, hsize]
  · rw [Fs.alocado, he.inodeBmap, ← Fs.alocado, hc.alocado, hal, ← Bool.decide_or,
      decide_eq_decide]
    omega
  · rw [Fs.resolve_of_dir ((he.type 1).trans hraiz₁), Fs.procura, hent]
    rfl
  · rw [Fs.procura, hent]
    rfl
  · have hone : fs₂.fileSlots fs₂.emUso (fs₂.slot (2, 0)) = {(2, 0)} := by
      ext ⟨i, q⟩
      rw [Fs.mem_fileSlots, hficheiro, he.consistent.mem_emUso_iff, Finset.mem_singleton,
        Prod.mk.injEq]
      constructor
      · rintro ⟨hq, rfl, -⟩
        rw [hs₂, offsetToBlocks_mul] at hq
        exact ⟨rfl, Nat.lt_one_iff.mp hq⟩
      · rintro ⟨rfl, rfl⟩
        exact ⟨by rw [hs₂, offsetToBlocks_mul]; exact Nat.one_pos, rfl, rfl⟩
    rw [he.consistent.acc.refs, hone]
    rfl
  · have hbytes := he.bytes fun i q q' ht hq _ _ => by
      rw [← he.type, hficheiro] at ht
      rw [hc.consistent.mem_emUso_iff, ht, hs₁] at hq
      exact absurd hq (Nat.not_lt_zero q)
    have hbyte := congrArg (fun s => s[0]?) hbytes
    rw [Fs.sobrepor_eq_map, Fs.bytes, hs₂] at hbyte
    simp only [List.getElem?_map] at hbyte
    rw [List.getElem?_range (by decide), List.getElem?_range (by omega), Option.map_some,
      Option.map_some, if_pos (by omega)] at hbyte
    exact Option.some.inj hbyte

/-- A file of one block appended to itself three times, and then copied to fifteen names: its block
has 128 references, and the counter holds -128. -/
theorem referencias_estouro :
    ∃ fs rs, Runs.run FsOp.exec (fsFormat (fsNew Fs.discoServidor fun _ => 7))
        ([.create 1 nomeA, .write 2 0 512 (fun _ => 1) nullBlock, .append 1 nomeA 1 nomeA,
          .append 1 nomeA 1 nomeA, .append 1 nomeA 1 nomeA] ++
          (List.range 15).map fun k => .copy 1 nomeA 1 (nomeCopia k)) = some (fs, rs) ∧
      ¬ fs.SemEstouro ∧ ∃ b, 128 ≤ (fs.nomeiam b).card ∧ fs.referencias b = -128 := by
  obtain ⟨fs₁, rs₁, hrun₁, h₁, -⟩ := repetido_um fun _ => 7
  obtain ⟨fs₂, s₂, ha₂, h₂, -⟩ := h₁.anexar (by decide) (by decide)
  obtain ⟨fs₃, s₃, ha₃, h₃, -⟩ := h₂.anexar (by decide) (by decide)
  obtain ⟨fs₄, s₄, ha₄, h₄, -⟩ := h₃.anexar (by decide) (by decide)
  have hrun₄ : Runs.run FsOp.exec fs₁ [.append 1 nomeA 1 nomeA, .append 1 nomeA 1 nomeA,
      .append 1 nomeA 1 nomeA] = some (fs₄, [.inode (some s₂), .inode (some s₃),
        .inode (some s₄)]) := by
    simp only [Runs.run, FsOp.exec, ha₂, ha₃, ha₄, Option.map_some, Option.bind_some]
  obtain ⟨fs₅, rs₅, hrun₅, h₅⟩ := h₄.copias 14 (by decide) (by decide)
  obtain ⟨fs₆, r, hcopy, b, hcard, hrefs⟩ := h₅.estoura
  have hrun₆ : Runs.run FsOp.exec fs₅ [.copy 1 nomeA 1 (nomeCopia 14)] = some (fs₆, [.copia r
      (fs₆.resolve 1 nomeA.val) (fs₆.resolve 1 (nomeCopia 14).val)]) := by
    simp only [Runs.run, FsOp.exec, hcopy, Option.map_some, Option.bind_some]
  have hall := Runs.run_append hrun₁ (Runs.run_append hrun₄ (Runs.run_append hrun₅ hrun₆))
  refine ⟨fs₆, _, Eq.trans ?_ hall, fun hno => ?_, b, hcard, hrefs⟩
  · rw [List.range_succ, List.map_append, List.map_singleton]
    rfl
  · have := hno.cabem b
    omega

end ThreadScheduler.SnfsServer
