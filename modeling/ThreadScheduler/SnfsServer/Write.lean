import Mathlib.Data.List.GetD
import ThreadScheduler.Lib.Redirection
import ThreadScheduler.SnfsServer.FileContent

/-!
# Writing files

`fs_write` reserves the blocks it will need, writes within the blocks the file has and
then within the reserved ones. A refused call leaves the state as it was.
-/
namespace ThreadScheduler.SnfsServer

namespace Fs

/-- Only the slots and pages of file `i` change. -/
structure SoFicheiro (fs fs' : Fs) (live : Finset (ℕ × ℕ)) (i : ℕ) : Prop where
  acc : fs'.Accounts live
  same : SameInodes fs fs'
  slot : ∀ p, p.1 ≠ i → fs'.slot p = fs.slot p
  pagina : ∀ p ∈ live, p.1 ≠ i → fs'.pagina p = fs.pagina p

theorem SoFicheiro.refl {fs : Fs} {live : Finset (ℕ × ℕ)} (h : fs.Accounts live) (i : ℕ) :
    SoFicheiro fs fs live i := ⟨h, SameInodes.refl fs, fun _ _ => rfl, fun _ _ _ => rfl⟩

theorem SoFicheiro.trans {fs fs' fs'' : Fs} {live : Finset (ℕ × ℕ)} {i : ℕ}
    (h : SoFicheiro fs fs' live i) (h' : SoFicheiro fs' fs'' live i) :
    SoFicheiro fs fs'' live i :=
  ⟨h'.acc, h.same.trans h'.same, fun p hp => (h'.slot p hp).trans (h.slot p hp),
    fun p hl hp => (h'.pagina p hl hp).trans (h.pagina p hl hp)⟩

/-- The blocks of an i-node. -/
def slots (fs : Fs) (i : ℕ) (q : ℕ) : ℕ := fs.slot (i, q)

/-- No other slot of the i-node names the block of slot `q`. -/
def Proprio (fs : Fs) (live : Finset (ℕ × ℕ)) (i q : ℕ) : Prop :=
  ∀ r, (i, r) ∈ live → fs.slot (i, r) = fs.slot (i, q) → r = q

theorem Distintos.proprio {fs : Fs} {live : Finset (ℕ × ℕ)} {i q : ℕ} (hd : fs.Distintos live)
    (ht : fs.typeAt i = .fsFile) (hq : (i, q) ∈ live) : fs.Proprio live i q :=
  fun r hr hs => hd i r q ht hr hq hs

/-- One slot takes a block that no other slot of its file names. -/
theorem Distintos.update {fs fs' : Fs} {live live' : Finset (ℕ × ℕ)} {i r : ℕ}
    (hd : fs.Distintos live) (ht : ∀ j, fs'.typeAt j = fs.typeAt j)
    (hsub : ∀ p ∈ live', p ≠ (i, r) → p ∈ live)
    (hslot : ∀ p, p ≠ (i, r) → fs'.slot p = fs.slot p)
    (hnew : ∀ q, (i, q) ∈ live → q ≠ r → fs.slot (i, q) ≠ fs'.slot (i, r)) :
    fs'.Distintos live' := by
  -- the changed slot against another one of its file
  have hne : ∀ j q, (j, q) ∈ live' → (j, q) ≠ (i, r) → j = i →
      fs'.slot (j, q) ≠ fs'.slot (i, r) := by
    rintro j q hq hqr rfl
    rw [hslot _ hqr]
    exact hnew q (hsub _ hq hqr) fun he => hqr (by rw [he])
  intro j q q' htj hq hq' hs
  rw [ht] at htj
  by_cases h1 : (j, q) = (i, r)
  · by_contra hqq
    have hj := (Prod.mk.inj h1).1
    have h2 : (j, q') ≠ (i, r) := fun he => hqq ((Prod.mk.inj h1).2.trans (Prod.mk.inj he).2.symm)
    exact hne j q' hq' h2 hj (by rw [← hs, h1])
  · by_cases h2 : (j, q') = (i, r)
    · exact absurd (by rw [hs, h2]) (hne j q hq h1 (Prod.mk.inj h2).1)
    · rw [hslot _ h1, hslot _ h2] at hs
      exact hd j q q' htj (hsub _ hq h1) (hsub _ hq' h2) hs

/-! ## The reservation -/

/-- The disk never runs full, so the slots asked for are all reserved. -/
theorem reservarBlocos_spec {file : ℕ} (n : ℕ) {fs : Fs} {live : Finset (ℕ × ℕ)}
    (h : fs.Accounts live) (ht : fs.typeAt file = .fsFile) (hfile : file < itabSize) (i : ℕ)
    (hlive : ∀ q, i ≤ q → (file, q) ∉ live) (hn : i + n ≤ inodeNumBlks) :
    ∃ fs' live', reservarBlocos file n i fs = (fs', true) ∧
      (∀ p, p ∈ live' ↔ p ∈ live ∨ p.1 = file ∧ i ≤ p.2 ∧ p.2 < i + n) ∧
      fs'.Accounts live' ∧ SameInodes fs fs' ∧
      (∀ p, (p.1 ≠ file ∨ p.2 < i) → fs'.slot p = fs.slot p) ∧ fs'.cache = fs.cache ∧
      (fs.Distintos live → fs'.Distintos live') ∧
      ∀ q, ((file, q) ∈ live → fs.Proprio live file q) → (file, q) ∈ live' →
        fs'.Proprio live' file q := by
  induction n generalizing fs live i with
  | zero =>
      refine ⟨fs, live, rfl, fun p => ?_, h, SameInodes.refl fs, fun _ _ => rfl, rfl, id,
        fun _ hp hq => hp hq⟩
      refine ⟨.inl, fun hp => hp.elim id fun hno => ?_⟩
      omega
  | succ n ih =>
      obtain ⟨b, hf, hb10, hbits, hfree⟩ := h.exists_free
      have hr := h.reserve (hlive i le_rfl) hfile (by omega) ht hb10 hbits hfree
      generalize hfs₁ : (((fs.setBlock file i b).setBlk b).setRef b (fs.referencias b + 1)) = fs₁
        at hr
      have htype₁ : ∀ j, fs₁.typeAt j = fs.typeAt j := by
        intro j
        rw [← hfs₁]
        exact setBlock_typeAt fs file i b j
      have hsize₁ : ∀ j, fs₁.sizeAt j = fs.sizeAt j := by
        intro j
        rw [← hfs₁]
        exact setBlock_sizeAt fs file i b j
      have hslot₁ : ∀ p, fs₁.slot p = if p = (file, i) then b else fs.slot p := by
        intro p
        rw [← hfs₁]
        exact setBlock_slot fs file i b p
      have hsame₁ : SameInodes fs fs₁ := ⟨by rw [← hfs₁]; rfl, htype₁, hsize₁⟩
      obtain ⟨fs', live', hres, hlive', hacc', hsame', hslot', hcache', hdist', hown'⟩ :=
        ih hr ((htype₁ file).trans ht) (i + 1)
          (fun q hq => by simp [show q ≠ i by omega, hlive q (by omega)]) (by omega)
      refine ⟨fs', live', ?_, fun p => ?_, hacc', hsame₁.trans hsame', fun p hp => ?_, ?_,
        fun hd => hdist' ?_, fun q hp hq => hown' q (fun hq₁ r hr₁ hs => ?_) hq⟩
      · simp only [reservarBlocos, hf, setBlk_referencias, setBlock_referencias, hfs₁]
        exact hres
      · rw [hlive', Finset.mem_insert]
        obtain ⟨j, q⟩ := p
        simp only [Prod.mk.injEq]
        constructor
        · rintro ((⟨rfl, rfl⟩ | hm) | hm)
          · exact .inr ⟨rfl, by omega, by omega⟩
          · exact .inl hm
          · exact .inr ⟨hm.1, by omega, by omega⟩
        · rintro (hm | ⟨rfl, h1, h2⟩)
          · exact .inl (.inr hm)
          · by_cases hq : q = i
            · exact .inl (.inl ⟨rfl, hq⟩)
            · exact .inr ⟨rfl, by omega, by omega⟩
      · rw [hslot' p (hp.imp_right (by omega)), hslot₁, if_neg]
        rintro rfl
        omega
      · rw [hcache', ← hfs₁]
        rfl
      · -- the new block is free, so no slot of the file names it already
        refine hd.update (r := i) htype₁
          (fun p hp hne => (Finset.mem_insert.mp hp).resolve_left hne)
          (fun p hp => by rw [hslot₁, if_neg hp]) fun q hq _ => ?_
        rw [hslot₁, if_pos rfl]
        exact h.slot_ne_of_free hfree hq
      · -- the new block is named by slot `i` only
        have hin : ∀ c, (file, c) ∈ insert (file, i) live → c ≠ i → (file, c) ∈ live ∧
            fs₁.slot (file, c) = fs.slot (file, c) := fun c hc hci => by
          have hne : (file, c) ≠ (file, i) := fun he => hci (Prod.mk.inj he).2
          exact ⟨(Finset.mem_insert.mp hc).resolve_left hne, by rw [hslot₁, if_neg hne]⟩
        have hi : fs₁.slot (file, i) = b := by rw [hslot₁, if_pos rfl]
        by_cases hri : r = i
        · by_contra hrq
          obtain ⟨hql, hqs⟩ := hin q hq₁ fun he => hrq (hri.trans he.symm)
          rw [hri, hi, hqs] at hs
          exact h.slot_ne_of_free hfree hql hs.symm
        · obtain ⟨hrl, hrs⟩ := hin r hr₁ hri
          rw [hrs] at hs
          have hqi : q ≠ i := by
            rintro rfl
            exact h.slot_ne_of_free hfree hrl (hs.trans hi)
          obtain ⟨hql, hqs⟩ := hin q hq₁ hqi
          exact hp hql r hrl (hs.trans hqs)

/-! ## One block -/

theorem byteAt_copiarPara (block : Block) (start num count : ℕ) (buffer : ℕ → Byte) {j : ℕ}
    (hj : j < blockSize) : byteAt (copiarPara block start num count buffer) j =
      if start ≤ j ∧ num + (j - start) < count then buffer (num + (j - start))
      else byteAt block j := by
  simp [byteAt, hj, copiarPara]

section Block

variable {fs : Fs} {live : Finset (ℕ × ℕ)} (h : fs.Accounts live) {file : ℕ}
  (ht : fs.typeAt file = .fsFile)

include h ht

/-- Writing one block of a file. The page goes to the first slot of the file that names the
block; when no other slot does, that is the one meant. -/
theorem gravarBloco_spec (iblock : ℕ) (hib : iblock < inodeNumBlks)
    (hlive : ∀ q ≤ iblock, (file, q) ∈ live) (block : Block) :
    ∃ fs', fs.gravarBloco file ((fs.inodeTab file).blocks iblock) block = some fs' ∧
      SoFicheiro fs fs' live file ∧ (fs.Distintos live → fs'.Distintos live) ∧
      (∀ n, iblock < n → (∀ q < n, (file, q) ∈ live) → ∃ k,
        Redirection.Write n (fs.slots file) (fs'.slots file) fs.cache.conteudo
          fs'.cache.conteudo iblock k block) ∧
      (fs.Proprio live file iblock → ∀ k, (file, k / blockSize) ∈ live →
        fs'.byteFicheiro file k = if k / blockSize = iblock then byteAt block (k % blockSize)
          else fs.byteFicheiro file k) ∧
      ∀ q, (file, q) ∈ live → fs.Proprio live file q → fs'.Proprio live file q := by
  obtain ⟨fs', k, hw, hacc, hsame, hkq, hsk, hfirst, hslot, hnew, hself, hother, hown⟩ :=
    h.escreverBloco hib hlive ht block
  have ht' : (fs.inodeTab file).type = .fsFile := ht
  have hk := hlive k hkq
  refine ⟨fs', by rw [gravarBloco, if_pos ht']; exact hw, ⟨hacc, hsame, fun p hp => ?_,
    fun p hl hp => ?_⟩, fun hd => ?_, fun n hn hall => ⟨k, ?_⟩, fun hp j hj => ?_,
    fun q hq hp r hr hs => ?_⟩
  · exact hslot p fun he => hp (by rw [he])
  · exact hother p hl fun he => hp (by rw [he])
  · refine hd.update hsame.type (fun p hp _ => hp) hslot fun q hq hne => ?_
    have hqk : (file, q) ≠ (file, k) := fun he => hne (Prod.mk.inj he).2
    rw [← hslot _ hqk]
    exact hown _ hq hqk
  · exact ⟨hkq, hsk, hfirst, fun p hp => hslot _ fun he => hp (Prod.mk.inj he).2, hself,
      fun p hp hpk => hother _ (hall p hp) fun he => hpk (Prod.mk.inj he).2,
      fun p hp hpk => hown _ (hall p hp) fun he => hpk (Prod.mk.inj he).2⟩
  · obtain rfl : k = iblock := hp k hk hsk
    split
    · rename_i he
      rw [byteFicheiro, he, hself]
    · rename_i hne
      rw [byteFicheiro, byteFicheiro, hother _ hj (by simpa using hne)]
  · -- the changed slot shares its block with none
    by_contra hrq
    by_cases hrk : r = k
    · subst hrk
      exact hown _ hq (fun he => hrq (Prod.mk.inj he).2.symm) hs.symm
    · have hrk' : (file, r) ≠ (file, k) := fun he => hrk (Prod.mk.inj he).2
      by_cases hqk : q = k
      · subst hqk
        exact hown _ hr hrk' hs
      · rw [hslot _ hrk', hslot _ fun he => hqk (Prod.mk.inj he).2] at hs
        exact hrq (hp r hr hs)

end Block

/-! ## The loops -/

/-- One block of the buffer, position by position: with `num` bytes written before, the
block that holds byte `offset + num` gets the next ones. -/
theorem byteAt_copiarPara_pos (block : Block) (offset num count : ℕ) (buffer : ℕ → Byte) {k : ℕ}
    (hk : k / blockSize = (offset + num) / blockSize) :
    byteAt (copiarPara block ((offset + num) % blockSize) num count buffer) (k % blockSize) =
      if offset + num ≤ k ∧
          k < offset + min count (num + (blockSize - (offset + num) % blockSize)) then
        buffer (k - offset)
      else byteAt block (k % blockSize) := by
  have hmod : k % blockSize < blockSize := Nat.mod_lt _ (by decide)
  have hk' := Nat.div_add_mod k blockSize
  have ha' := Nat.div_add_mod (offset + num) blockSize
  rw [hk] at hk'
  rw [byteAt_copiarPara _ _ _ _ _ hmod]
  by_cases hle : offset + num ≤ k
  · have h1 : (offset + num) % blockSize ≤ k % blockSize := by omega
    have h2 : num + (k % blockSize - (offset + num) % blockSize) = k - offset := by omega
    have h3 : k - offset < count ↔
        k < offset + min count (num + (blockSize - (offset + num) % blockSize)) := by omega
    simp only [h1, h2, hle, true_and, h3]
  · have h1 : ¬ (offset + num) % blockSize ≤ k % blockSize := by omega
    simp only [h1, hle, false_and, if_false]

section Loops

variable {live : Finset (ℕ × ℕ)} (file offset count : ℕ) (buffer : ℕ → Byte)

/-- The loop over the blocks the file has writes the bytes from `num` on until it runs
out of bytes or of blocks. -/
theorem escreverExistentes_spec (n : ℕ) {fs : Fs} (h : fs.Accounts live)
    (ht : fs.typeAt file = .fsFile) (num iblock : ℕ) (block : Block)
    (hlive : ∀ q < iblock + n, (file, q) ∈ live) (hcount : num ≤ count)
    (hpos : num < count → iblock = (offset + num) / blockSize ∧
      (num = 0 ∨ (offset + num) % blockSize = 0)) :
    ∃ fs' num' iblock' block',
      escreverExistentes file offset count buffer n fs num iblock block =
        some (fs', num', iblock', block') ∧
      SoFicheiro fs fs' live file ∧ num ≤ num' ∧ num' ≤ count ∧ iblock' ≤ iblock + n ∧
      (num' < count → iblock' = iblock + n ∧ iblock' = (offset + num') / blockSize ∧
        (num' = 0 ∨ (offset + num') % blockSize = 0)) ∧
      (fs.Distintos live → fs'.Distintos live ∧ ∀ k, (file, k / blockSize) ∈ live →
        fs'.byteFicheiro file k = if offset + num ≤ k ∧ k < offset + num' then
          buffer (k - offset) else fs.byteFicheiro file k) := by
  induction n generalizing fs num iblock block with
  | zero =>
      refine ⟨fs, num, iblock, block, rfl, SoFicheiro.refl h file, le_rfl, hcount,
        le_rfl, fun hlt => ⟨rfl, hpos hlt⟩, fun hd => ⟨hd, fun k _ => (if_neg ?_).symm⟩⟩
      omega
  | succ n ih =>
      rw [escreverExistentes]
      split
      · refine ⟨fs, num, iblock, block, rfl, SoFicheiro.refl h file, le_rfl, hcount,
          Nat.le_add_right _ _, fun hlt => by omega, fun hd => ⟨hd, fun k _ => (if_neg ?_).symm⟩⟩
        omega
      · rename_i hlt
        obtain ⟨hib, hal⟩ := hpos (by omega)
        have hmem := hlive iblock (by omega)
        obtain ⟨c, hread, hacc₁, hc⟩ := h.lerBloco hmem
        have htype : (fs.inodeTab file).type = fs.typeAt file := rfl
        have hslot : (fs.inodeTab file).blocks iblock = fs.slot (file, iblock) := rfl
        simp only [htype, hslot, hread, Option.bind_some]
        -- the first block starts inside, the others at their beginning
        have hstart : (if num = 0 then offset % blockSize else 0) = (offset + num) % blockSize := by
          split
          · rename_i h0
            rw [h0, Nat.add_zero]
          · omega
        rw [hstart]
        obtain ⟨fs₁, hw, hso, hdist, -, hbytes, -⟩ := gravarBloco_spec hacc₁ ht
          iblock (h.bound _ hmem).2 (fun q hq => hlive q (by omega))
          (copiarPara (fs.pagina (file, iblock)) ((offset + num) % blockSize) num count buffer)
        have hso' : SoFicheiro fs fs₁ live file :=
          ⟨hso.acc, ⟨hso.same.inodeBmap, hso.same.type, hso.same.size⟩, hso.slot, fun p hl hp => by
            rw [hso.pagina p hl hp, pagina, withCache_cache, hc]
            rfl⟩
        generalize hnum' : min count (num + (blockSize - (offset + num) % blockSize)) = num' at *
        have hmod : (offset + num) % blockSize < blockSize := Nat.mod_lt _ (by decide)
        have hsplit := Nat.div_add_mod (offset + num) blockSize
        obtain ⟨fs', num'', iblock', block', hloop, hso'', hmono, hle, hib', hend, hrest⟩ :=
          ih hso.acc ((hso.same.type file).trans ht) num' (iblock + 1)
            (copiarPara (fs.pagina (file, iblock)) ((offset + num) % blockSize) num count buffer)
            (fun q hq => hlive q (by omega)) (by omega) (fun hlt' => by
              simp only [blockSize] at *
              omega)
        refine ⟨fs', num'', iblock', block', ?_, hso'.trans hso'', by omega, hle, by omega,
          fun hlt' => ?_,
          fun hd => ?_⟩
        · rw [hw, Option.bind_some]
          exact hloop
        · obtain ⟨h1, h2⟩ := hend hlt'
          exact ⟨by omega, h2⟩
        · obtain ⟨hd', hb'⟩ := hrest (hdist hd)
          have hproprio : (fs.withCache c).Proprio live file iblock := hd.proprio ht hmem
          have hb₁ := hbytes hproprio
          refine ⟨hd', fun k hk => ?_⟩
          rw [hb' k hk, hb₁ k hk, withCache_byteFicheiro hc]
          by_cases hkb : k / blockSize = iblock
          · rw [if_pos hkb, byteAt_copiarPara_pos _ _ _ _ _ (hkb.trans hib), hnum', byteFicheiro,
              hkb]
            split_ifs <;> first | rfl | omega
          · rw [if_neg hkb]
            split_ifs <;> first | rfl | (simp only [blockSize] at *; omega)

/-- The loop over the reserved blocks writes the bytes that are left. Past the last one
its pages hold whatever the buffer held. -/
theorem escreverReservados_spec (n : ℕ) {fs : Fs} (h : fs.Accounts live)
    (ht : fs.typeAt file = .fsFile) (num iblock : ℕ) (block : Block)
    (hlive : ∀ q < iblock + n, (file, q) ∈ live) (hcount : num ≤ count)
    (hpos : num < count → blockSize * iblock = offset + num)
    (hn : num < count → offset + count ≤ blockSize * (iblock + n)) :
    ∃ fs', escreverReservados file count buffer n fs num iblock block = some (fs', count) ∧
      SoFicheiro fs fs' live file ∧ (fs.Distintos live → fs'.Distintos live) ∧
      ((∀ q, iblock ≤ q → q < iblock + n → fs.Proprio live file q) →
        ∀ k, (file, k / blockSize) ∈ live →
        (num < count → k < blockSize * iblock ∨ k < offset + count) →
        fs'.byteFicheiro file k = if offset + num ≤ k ∧ k < offset + count then
          buffer (k - offset) else fs.byteFicheiro file k) := by
  induction n generalizing fs num iblock block with
  | zero =>
      have hdone : num = count := by
        by_contra hne
        have h1 := hpos (by omega)
        have h2 := hn (by omega)
        simp only [blockSize] at *
        omega
      subst hdone
      refine ⟨fs, rfl, SoFicheiro.refl h file, id, fun _ k _ _ => (if_neg ?_).symm⟩
      omega
  | succ n ih =>
      rw [escreverReservados]
      split
      · rename_i hle
        obtain rfl : num = count := by omega
        refine ⟨fs, rfl, SoFicheiro.refl h file, id, fun _ k _ _ => (if_neg ?_).symm⟩
        omega
      · rename_i hlt
        have hal := hpos (by omega)
        have hmem := hlive iblock (by omega)
        have hib : iblock = (offset + num) / blockSize := by
          simp only [blockSize] at *
          omega
        have hstart : (offset + num) % blockSize = 0 := by
          simp only [blockSize] at *
          omega
        obtain ⟨fs₁, hw, hso, hdist, -, hbytes, hown⟩ := gravarBloco_spec h ht iblock
          (h.bound _ hmem).2 (fun q hq => hlive q (by omega)) (copiarPara block 0 num count buffer)
        obtain ⟨fs', hloop, hso', hdist', hrest⟩ :=
          ih hso.acc ((hso.same.type file).trans ht) (min count (num + blockSize)) (iblock + 1)
            (copiarPara block 0 num count buffer) (fun q hq => hlive q (by omega)) (by omega)
            (fun hlt' => by
              simp only [blockSize] at *
              omega)
            (fun _ => by rw [Nat.add_right_comm]; exact hn (by omega))
        refine ⟨fs', ?_, hso.trans hso', hdist' ∘ hdist, fun hp k hk hin => ?_⟩
        · simp only [hw, Option.bind_some]
          exact hloop
        · have hb₁ := hbytes (hp iblock le_rfl (by omega))
          have hb' := hrest fun q hq hqn =>
            hown q (hlive q (by omega)) (hp q (by omega) (by omega))
          have hin := hin (by omega)
          rw [hb' k hk (fun _ => by simp only [blockSize] at *; omega), hb₁ k hk]
          have hpage := byteAt_copiarPara_pos block offset num count buffer (k := k)
          simp only [hstart, Nat.sub_zero] at hpage
          by_cases hkb : k / blockSize = iblock
          · rw [if_pos hkb, hpage (hkb.trans hib)]
            split_ifs <;> first | rfl | (simp only [blockSize] at *; omega)
          · rw [if_neg hkb]
            split_ifs <;> first | rfl | (simp only [blockSize] at *; omega)

end Loops

/-! ## The call -/

/-- `count` bytes written over a byte string, at the end when `offset` is past it. -/
def sobrepor (s : List Byte) (offset count : ℕ) (buffer : ℕ → Byte) : List Byte :=
  s.take offset ++ (List.range count).map buffer ++ s.drop (min offset s.length + count)

theorem sobrepor_eq_map (s : List Byte) (offset count : ℕ) (buffer : ℕ → Byte) :
    sobrepor s offset count buffer =
      (List.range (max (min offset s.length + count) s.length)).map fun k =>
        if min offset s.length ≤ k ∧ k < min offset s.length + count then
          buffer (k - min offset s.length)
        else s.getD k 0#8 := by
  refine List.ext_getElem ?_ fun k h1 h2 => ?_
  · simp only [sobrepor, List.length_append, List.length_take, List.length_map, List.length_range,
      List.length_drop]
    omega
  · simp only [sobrepor, List.length_append, List.length_take, List.length_map, List.length_range,
      List.length_drop] at h1
    simp only [sobrepor, List.getElem_append, List.length_append, List.length_take,
      List.length_map, List.length_range, List.getElem_take, List.getElem_map, List.getElem_range,
      List.getElem_drop]
    by_cases h3 : k < min offset s.length
    · have h4 : k < min offset s.length + count := by omega
      have h5 : ¬ min offset s.length ≤ k := by omega
      rw [dif_pos h4, dif_pos h3, if_neg (by omega), List.getD_eq_getElem]
    · by_cases h4 : k < min offset s.length + count
      · rw [dif_pos h4, dif_neg h3, if_pos ⟨by omega, h4⟩]
      · rw [dif_neg h4, if_neg (by omega), List.getD_eq_getElem _ _ (by omega)]
        congr 1
        omega

/-- What a successful `fs_write` does. -/
structure Escrito (fs fs' : Fs) (file offset count : ℕ) (buffer : ℕ → Byte) : Prop where
  ficheiro : fs.typeAt file = .fsFile
  inodeBmap : fs'.inodeBmap = fs.inodeBmap
  type : ∀ j, fs'.typeAt j = fs.typeAt j
  size : ∀ j, j ≠ file → fs'.sizeAt j = fs.sizeAt j
  tamanho : fs'.sizeAt file = max (min offset (fs.sizeAt file) + count) (fs.sizeAt file)
  slot : ∀ p, p.1 ≠ file → fs'.slot p = fs.slot p
  pagina : ∀ p ∈ fs.emUso, p.1 ≠ file → fs'.pagina p = fs.pagina p
  consistent : fs'.Consistent
  distintos : fs.Distintos fs.emUso → fs'.Distintos fs'.emUso
  bytes : fs.Distintos fs.emUso → fs'.bytes file = sobrepor (fs.bytes file) offset count buffer

/-- The arguments for which `fs_write` answers -1. -/
def EscreverRecusado (fs : Fs) (file offset count : ℕ) : Prop :=
  fs.typeAt file ≠ .fsFile ∨ blockSize * inodeNumBlks < min offset (fs.sizeAt file) + count

/-- `fs_write` either refuses the call or writes its bytes over the file. -/
theorem fsWrite_spec {fs : Fs} (h : fs.Consistent) (file offset count : ℕ) (buffer : ℕ → Byte)
    (lixo : Block) :
    fsWrite fs file offset count buffer lixo = some (fs, -1) ∧
        fs.EscreverRecusado file offset count ∨
      ∃ fs', fsWrite fs file offset count buffer lixo = some (fs', 0) ∧
        Escrito fs fs' file offset count buffer := by
  have hnofile : itabSize ≤ file ∨ fs.alocado file = false → fs.typeAt file ≠ .fsFile := by
    intro hf ht
    have ha := h.alocado_of_type (i := file) (by simp [ht])
    have hlt := h.lt_of_alocado ha
    rcases hf with hf | hf
    · omega
    · simp [ha] at hf
  rw [fsWrite]
  split
  · rename_i hlt
    exact .inl ⟨rfl, .inl (hnofile (.inl hlt))⟩
  split
  · rename_i hset
    exact .inl ⟨rfl, .inl (hnofile (.inr (by simpa [alocado] using hset)))⟩
  split
  · rename_i hfile
    exact .inl ⟨rfl, .inl hfile⟩
  rename_i hlt hset hfile
  have ht : fs.typeAt file = .fsFile := not_not.mp hfile
  have hsize : (fs.inodeTab file).size = fs.sizeAt file := rfl
  simp only [hsize]
  have hoff : (if fs.sizeAt file < offset then fs.sizeAt file else offset) =
      min offset (fs.sizeAt file) := by
    split <;> omega
  rw [hoff]
  generalize ho : min offset (fs.sizeAt file) = o
  generalize hused : offsetToBlocks (fs.sizeAt file) = used
  generalize hreq : max (offsetToBlocks (o + count)) used - used = req
  split
  · rename_i hfits
    refine .inl ⟨rfl, .inr ?_⟩
    have hlast : inodeNumBlks < offsetToBlocks (o + count) := by omega
    rw [ho]
    exact lt_offsetToBlocks.mp hlast
  rename_i hfits
  right
  have hused_le : used ≤ inodeNumBlks := hused ▸ h.offsetToBlocks_le file
  have htotal : used + req = max (offsetToBlocks (o + count)) used := by omega
  -- the reservation
  obtain ⟨fs₁, live, hres, hlive, hacc₁, hsame₁, hslot₁, hcache₁, hdist₁, -⟩ :=
    reservarBlocos_spec req h.acc ht (by omega) used
      (fun q hq => by rw [h.mem_emUso_iff, hused]; omega) (by omega)
  have hmem : ∀ q, q < used + req → (file, q) ∈ live := by
    intro q hq
    rw [hlive, h.mem_emUso_iff, hused]
    by_cases hlt : q < used
    · exact .inl hlt
    · exact .inr ⟨rfl, by omega, hq⟩
  have hpag₁ : ∀ p ∈ fs.emUso, fs₁.pagina p = fs.pagina p := by
    rintro ⟨j, q⟩ hp
    have hq := h.mem_emUso_iff.mp hp
    rw [pagina, pagina, hcache₁, hslot₁]
    by_cases hj : j = file
    · subst hj
      exact .inr (by rw [← hused]; exact hq)
    · exact .inl hj
  -- the two loops
  have hsize_le : fs.sizeAt file ≤ blockSize * used := offsetToBlocks_le.mp hused.le
  have hq : o / blockSize ≤ used := by
    simp only [blockSize] at *
    omega
  obtain ⟨fs₂, num, iblock, block, hloop₂, hso₂, -, hnum, hib, hend, hbytes₂⟩ :=
    escreverExistentes_spec file o count buffer
      (used - o / blockSize) hacc₁ ((hsame₁.type file).trans ht) 0 (o / blockSize) lixo
      (fun q hq' => hmem q (by omega)) (Nat.zero_le _) (fun _ => ⟨rfl, .inl rfl⟩)
  have hend' : num < count → iblock = used ∧ blockSize * iblock = o + num := by
    intro hlt'
    obtain ⟨h1, h2, h3⟩ := hend hlt'
    refine ⟨by omega, ?_⟩
    simp only [blockSize] at *
    omega
  have hsizes : o + count ≤ blockSize * (used + req) := by
    rw [htotal]
    exact (offsetToBlocks_le.mp le_rfl).trans (Nat.mul_le_mul_left _ (Nat.le_max_left _ _))
  have htype₂ : fs₂.typeAt file = .fsFile :=
    (hso₂.same.type file).trans ((hsame₁.type file).trans ht)
  obtain ⟨fs₃, hloop₃, hso₃, hdist₃, hbytes₃⟩ :=
    escreverReservados_spec file o count buffer (used + req - iblock) hso₂.acc htype₂
      num iblock block (fun q hq' => hmem q (by omega)) hnum (fun hlt' => (hend' hlt').2)
      (fun hlt' => by rw [Nat.add_sub_cancel' (by omega)]; exact hsizes)
  have hso := hso₂.trans hso₃
  have hsame := hsame₁.trans hso.same
  -- the new size and the metadata
  have hnew : (fs₃.setSize file (max (o + count) (fs.sizeAt file))).Accounts live :=
    hso.acc.congr rfl rfl rfl (fun p _ => setSize_typeAt _ _ _ _) fun p _ => setSize_slot _ _ _ _
  obtain ⟨c, hc, -, -, -⟩ := fsiStoreFsdata_spec
    (fs₃.setSize file (max (o + count) (fs.sizeAt file)))
  generalize hfs' : fsiStoreFsdata (fs₃.setSize file (max (o + count) (fs.sizeAt file))) = fs'
  have hacc' : fs'.Accounts live := hfs' ▸ hnew.store
  have hslot' : ∀ p, fs'.slot p = fs₃.slot p := by
    intro p
    rw [← hfs', hc]
    exact setSize_slot _ _ _ _
  have htype' : ∀ j, fs'.typeAt j = fs.typeAt j := by
    intro j
    rw [← hfs', hc]
    exact (setSize_typeAt _ _ _ _).trans (hsame.type j)
  have hsize' : ∀ j, fs'.sizeAt j =
      if j = file then max (o + count) (fs.sizeAt file) else fs.sizeAt j := by
    intro j
    rw [← hfs', hc, ← hsame.size j]
    exact setSize_sizeAt _ _ _ _
  have hpag' : ∀ p ∈ live, fs'.pagina p = fs₃.pagina p := by
    intro p hp
    rw [pagina, hslot', ← hfs', store_conteudo _ (hso.acc.range p hp)]
    rfl
  have hbmap' : fs'.inodeBmap = fs.inodeBmap := by
    rw [← hfs', hc]
    exact hsame.inodeBmap
  have ha' : ∀ j, fs'.alocado j = fs.alocado j := fun j => by rw [alocado, alocado, hbmap']
  have huso : fs'.emUso = live := by
    ext ⟨j, r⟩
    rw [hlive, mem_emUso, ha', hsize', mem_emUso]
    by_cases hj : j = file
    · subst hj
      have hset' : fs.alocado j = true := by simpa [alocado] using hset
      have hr : r < offsetToBlocks (max (o + count) (fs.sizeAt j)) ↔ r < used + req := by
        rw [htotal, ← hused, lt_max_iff, lt_offsetToBlocks, lt_offsetToBlocks, lt_offsetToBlocks,
          lt_max_iff]
      simp only [if_true, hr, hset', hused, true_and]
      omega
    · simp [hj]
  have hfull : ∀ j, fs'.sizeAt j ≤ blockSize * inodeNumBlks := by
    intro j
    have := h.inodes.full j
    rw [hsize']
    split
    · rename_i hj
      subst hj
      have : blockSize * (used + req) ≤ blockSize * inodeNumBlks :=
        Nat.mul_le_mul_left _ (by omega)
      omega
    · exact this
  have hslotj : ∀ p, p.1 ≠ file → fs'.slot p = fs.slot p := fun p hp => by
    rw [hslot', hso.slot p hp, hslot₁ p (.inl hp)]
  have hpagj : ∀ p ∈ fs.emUso, p.1 ≠ file → fs'.pagina p = fs.pagina p := by
    intro p hp hpj
    have hl := (hlive p).mpr (.inl hp)
    rw [hpag' p hl, hso.pagina p hl hpj, hpag₁ p hp]
  have hdir : ∀ d, fs.typeAt d = .fsDir → d ≠ file := by
    rintro d hd rfl
    simp [ht] at hd
  refine ⟨fs', ?_, ht, hbmap', htype', fun j hj => by rw [hsize', if_neg hj],
    by rw [hsize', if_pos rfl, ho], hslotj, hpagj, ?_, fun hd => ?_, fun hd => ?_⟩
  · simp only [hres, hloop₂, hloop₃, Option.bind_some, ne_eq, not_true_eq_false, if_false, hfs']
  · refine h.of_files hbmap' htype' (fun j hj => ?_) hfull (fun d hd q _ => hslotj _ (hdir d hd))
      (fun d hd q hq => hpagj _ hq (hdir d hd)) (huso ▸ hacc')
    rw [hsize', if_neg]
    rintro rfl
    exact hj ht
  · have hd₃ := hdist₃ (hbytes₂ (hdist₁ hd)).1
    rw [huso]
    intro j q q' htj hq hq' hs
    rw [htype', ← hsame.type j] at htj
    rw [hslot', hslot'] at hs
    exact hd₃ j q q' htj hq hq' hs
  · obtain ⟨hd₂, hb₂⟩ := hbytes₂ (hdist₁ hd)
    have hb₃ := hbytes₃ fun q _ hq => hd₂.proprio htype₂ (hmem q (by omega))
    have hlen : (fs.bytes file).length = fs.sizeAt file := by simp [bytes]
    rw [sobrepor_eq_map, hlen, ho, bytes, hsize', if_pos rfl]
    refine List.map_congr_left fun k hk => ?_
    have hk' := List.mem_range.mp hk
    have hkl : (file, k / blockSize) ∈ live := by
      have h2 := hsize_le
      refine hmem _ ?_
      have : blockSize * used ≤ blockSize * (used + req) :=
        Nat.mul_le_mul_left _ (Nat.le_add_right _ _)
      simp only [blockSize] at *
      omega
    have hbyte : fs'.byteFicheiro file k = fs₃.byteFicheiro file k := by
      rw [byteFicheiro, hpag' _ hkl, byteFicheiro]
    rw [hbyte, hb₃ k hkl fun hlt' => ?_, hb₂ k hkl]
    · by_cases hin : o ≤ k ∧ k < o + count
      · rw [if_pos hin]
        split_ifs <;> first | rfl | omega
      · have hks : k < fs.sizeAt file := by omega
        have hke : (file, k / blockSize) ∈ fs.emUso := by
          rw [h.mem_emUso_iff, lt_offsetToBlocks]
          simp only [blockSize]
          omega
        rw [if_neg hin, if_neg (by omega), if_neg (by omega), byteFicheiro, hpag₁ _ hke,
          List.getD_eq_getElem _ _ (by omega)]
        simp [bytes, byteFicheiro]
    · have := (hend' hlt').1
      by_cases hks : k < fs.sizeAt file
      · exact .inl (by rw [this]; omega)
      · exact .inr (by omega)

/-! ## The first write -/

/-- What the first write to an empty file does to the disk and the bitmap. -/
structure PrimeiraEscrita (fs fs' : Fs) (file : ℕ) : Prop where
  bloco : fs.findFreeBlk = some (fs'.slot (file, 0))
  slot : ∀ p, p ≠ (file, 0) → fs'.slot p = fs.slot p
  ocupado : ∀ b, fs'.ocupado b = (decide (b = fs'.slot (file, 0)) || fs.ocupado b)
  disco : ∀ b, 10 ≤ b → fs.ocupado b = false →
    fs'.cache.disco.blocks b = fs.cache.disco.blocks b

/-- The first bytes of a file go to the first free block, and stay in the cache. -/
theorem fsWrite_vazio {fs : Fs} (h : fs.Consistent) {file count : ℕ}
    (ht : fs.typeAt file = .fsFile) (hsize : fs.sizeAt file = 0) (h0 : 0 < count)
    (hcount : count ≤ blockSize) (buffer : ℕ → Byte) (lixo : Block) :
    ∃ fs', fsWrite fs file 0 count buffer lixo = some (fs', 0) ∧ PrimeiraEscrita fs fs' file ∧
      Escrito fs fs' file 0 count buffer := by
  suffices hsuf : ∃ fs', fsWrite fs file 0 count buffer lixo = some (fs', 0) ∧
      PrimeiraEscrita fs fs' file by
    obtain ⟨fs', hr, hp⟩ := hsuf
    rcases fsWrite_spec h file 0 count buffer lixo with ⟨hno, -⟩ | ⟨fs₁, hr₁, hw⟩
    · have := (Prod.mk.inj (Option.some.inj (hr.symm.trans hno))).2
      omega
    · obtain ⟨rfl, -⟩ := Prod.mk.inj (Option.some.inj (hr₁.symm.trans hr))
      exact ⟨fs₁, hr, hp, hw⟩
  have ha := h.alocado_of_type (i := file) (by simp [ht])
  have hlt := h.lt_of_alocado ha
  have ha' : bmapIsSet fs.inodeBmap file = true := ha
  have ht' : (fs.inodeTab file).type = .fsFile := ht
  have hsize' : (fs.inodeTab file).size = 0 := hsize
  have hblocks : offsetToBlocks count = 1 := by
    simp only [offsetToBlocks, blockSize] at *
    split <;> omega
  obtain ⟨b, hf, hb10, hbits, hfree⟩ := h.acc.exists_free
  have hr := h.acc.refs_of_free hfree
  have hdead : (file, 0) ∉ fs.emUso := by
    rw [h.mem_emUso_iff, hsize]
    simp
  have hacc := h.acc.reserve hdead hlt (by decide) ht hb10 hbits hfree
  generalize hfs₁ : ((fs.setBlock file 0 b).setBlk b).setRef b (fs.referencias b + 1) = fs₁
    at hacc
  have hslot₁ : ∀ p, fs₁.slot p = if p = (file, 0) then b else fs.slot p := by
    intro p
    rw [← hfs₁]
    exact setBlock_slot fs file 0 b p
  have htype₁ : (fs₁.inodeTab file).type = .fsFile := by
    rw [← hfs₁]
    exact (setBlock_typeAt fs file 0 b file).trans ht
  have hsize₁ : (fs₁.inodeTab file).blocks 0 = b := (hslot₁ (file, 0)).trans (if_pos rfl)
  have href₁ : fs₁.referencias b = 1 := by
    rw [← hfs₁, setRef_referencias _ (by omega) (by omega), if_pos rfl, hr]
    rfl
  have hcache₁ : fs₁.cache = fs.cache := by
    rw [← hfs₁]
    rfl
  have hwrite : escreverBloco fs₁ b file (copiarPara lixo 0 0 count buffer) =
      some (fs₁.escreverCache b (copiarPara lixo 0 0 count buffer)) := by
    simp [escreverBloco, copyOnWrite, href₁, htype₁]
  have hdisco : b < fs₁.cache.disco.numBlocks := by
    rw [hcache₁, h.acc.disco]
    simp only [bmapBits, blockSize, discoServidor] at *
    omega
  obtain ⟨-, -, hholds⟩ := escreverCache_holds hacc.coherent hdisco
    (copiarPara lixo 0 0 count buffer)
  generalize hfs₂ : fs₁.escreverCache b (copiarPara lixo 0 0 count buffer) = fs₂ at hwrite
  obtain ⟨c, hc, -, -, hdisk⟩ := fsiStoreFsdata_spec (fs₂.setSize file count)
  have hslot : ∀ p, (fsiStoreFsdata (fs₂.setSize file count)).slot p =
      if p = (file, 0) then b else fs.slot p := by
    intro p
    rw [hc, withCache_slot, setSize_slot, ← hfs₂, ← hslot₁]
    rfl
  refine ⟨fsiStoreFsdata (fs₂.setSize file count), ?_, ?_, fun p hp => ?_, fun j => ?_,
    fun j hj hjf => ?_⟩
  · have hres : reservarBlocos file 1 0 fs = (fs₁, true) := by
      simp only [reservarBlocos, hf, setBlk_referencias, setBlock_referencias, hfs₁]
    have hmin : min count blockSize = count := Nat.min_eq_left hcount
    simp [fsWrite, Nat.not_le.mpr hlt, ha', ht', hsize', hblocks, hres, escreverExistentes,
      escreverReservados, h0.ne', gravarBloco, htype₁, hsize₁, hwrite, hmin]
  · rw [hslot, if_pos rfl, hf]
  · rw [hslot, if_neg hp]
  · rw [hslot, if_pos rfl, ← setBlk_ocupado fs hbits, hc, ocupado, withCache_blkBmap,
      setSize_blkBmap, ← hfs₂, ← hfs₁]
    rfl
  · have hvj : ¬ fs₁.cache.Valid j := by
      rw [hcache₁]
      exact h.acc.not_valid_of_free hjf
    rw [hc, withCache_cache, hdisk j hj, setSize_cache, ← hfs₂, escreverCache_eq, withCache_cache]
    by_cases hjb : j = b
    · rw [hjb, hholds.disk, hcache₁]
    · rcases hholds.others j hjb with hs | he
      · rw [hs.2, hcache₁]
      · rw [he.2, CacheT.conteudo_of_not_valid hvj, hcache₁]

end Fs

end ThreadScheduler.SnfsServer
