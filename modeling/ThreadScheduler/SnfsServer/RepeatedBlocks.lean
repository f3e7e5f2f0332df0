import ThreadScheduler.SnfsServer.ReferenceOverflow

/-!
# Writing to a file that repeats a block

A file appended to itself names each of its blocks twice. `copy_on_write` is told the number of a
block and gives its private copy to the first slot that names it, so a write to a later slot reaches
the bytes of the earlier one.
-/
namespace ThreadScheduler.SnfsServer

open Redirection

namespace Fs

/-- Page `q` of a file with the bytes of the buffer over it. -/
def paginaEscrita (fs : Fs) (file offset count : ℕ) (buffer : ℕ → Byte) (q : ℕ) : Block := fun i =>
  if offset ≤ blockSize * q + i.val ∧ blockSize * q + i.val < offset + count then
    buffer (blockSize * q + i.val - offset)
  else fs.pagina (file, q) i

theorem byteAt_paginaEscrita (fs : Fs) (file offset count : ℕ) (buffer : ℕ → Byte) (k : ℕ) :
    byteAt (fs.paginaEscrita file offset count buffer (k / blockSize)) (k % blockSize) =
      if offset ≤ k ∧ k < offset + count then buffer (k - offset) else fs.byteFicheiro file k := by
  have hmod : k % blockSize < blockSize := Nat.mod_lt _ (by decide)
  rw [byteAt, dif_pos hmod, paginaEscrita]
  simp only [Nat.div_add_mod, byteFicheiro, byteAt, hmod, dif_pos]

/-- The pages are equal when their bytes are. -/
theorem paginaEscrita_eq_iff (fs : Fs) (file offset count : ℕ) (buffer : ℕ → Byte) (q : ℕ) :
    fs.paginaEscrita file offset count buffer q = fs.pagina (file, q) ↔
      ∀ k, offset ≤ k → k < offset + count → k / blockSize = q →
        buffer (k - offset) = fs.byteFicheiro file k := by
  constructor
  · rintro he k hk hk' rfl
    have := byteAt_paginaEscrita fs file offset count buffer k
    rw [if_pos ⟨hk, hk'⟩, he] at this
    exact this.symm
  · intro hall
    funext i
    rw [paginaEscrita]
    split
    · rename_i hin
      have hi := i.isLt
      rw [hall _ hin.1 hin.2 (by simp only [blockSize] at *; omega),
        byteFicheiro_mul_add fs file q hi, byteAt, dif_pos hi]
    · rfl

theorem copiarPara_eq_paginaEscrita (fs : Fs) {file offset count num q : ℕ} (buffer : ℕ → Byte)
    (hq : q = (offset + num) / blockSize)
    (hpos : num = 0 ∨ (offset + num) % blockSize = 0) :
    copiarPara (fs.pagina (file, q)) ((offset + num) % blockSize) num count buffer =
      fs.paginaEscrita file offset count buffer q := by
  have hsplit := Nat.div_add_mod (offset + num) blockSize
  rw [← hq] at hsplit
  funext i
  have hi := i.isLt
  rw [copiarPara, paginaEscrita]
  by_cases hin : offset ≤ blockSize * q + i.val ∧ blockSize * q + i.val < offset + count
  · have hpos' : num + (i.val - (offset + num) % blockSize) = blockSize * q + i.val - offset := by
      omega
    rw [if_pos hin, hpos', if_pos (by omega)]
  · rw [if_neg hin, if_neg (by omega)]

/-! ## The loop over the blocks of the file -/

section Existentes

variable {fs₀ : Fs} {live : Finset (ℕ × ℕ)} {file offset count n : ℕ} {buffer : ℕ → Byte}

/-- The loop writes its slots one after another, each through the first slot that names its
block. -/
theorem escreverExistentes_redirige (hlive : ∀ q < n, (file, q) ∈ live) (N : ℕ) {fs : Fs}
    (h : fs.Accounts live) (ht : fs.typeAt file = .fsFile) (num iblock : ℕ) (block : Block)
    (hN : iblock + N ≤ n) (hcount : num ≤ count)
    (hpos : num < count → iblock = (offset + num) / blockSize ∧
      (num = 0 ∨ (offset + num) % blockSize = 0))
    (hpast : ∀ k, offset ≤ k → k < offset + num → k / blockSize < iblock)
    (hinicio : offset / blockSize ≤ iblock)
    (hw : Written n (offset / blockSize) (fs₀.slots file) (fs.slots file) fs₀.cache.conteudo
      fs.cache.conteudo (fs₀.paginaEscrita file offset count buffer) iblock)
    {fs' : Fs} {num' iblock' : ℕ} {block' : Block}
    (hrun : escreverExistentes file offset count buffer N fs num iblock block =
      some (fs', num', iblock', block')) :
    Written n (offset / blockSize) (fs₀.slots file) (fs'.slots file) fs₀.cache.conteudo
        fs'.cache.conteudo (fs₀.paginaEscrita file offset count buffer) iblock' ∧
      (∀ r, iblock ≤ r → r < iblock' → blockSize * r < offset + count) ∧
      (∀ k, offset ≤ k → k < offset + num' → k / blockSize < iblock') ∧
      ∀ q, (file, q) ∈ live → fs.Proprio live file q → fs'.Proprio live file q := by
  induction N generalizing fs num iblock block with
  | zero =>
      rw [escreverExistentes, Option.some.injEq, Prod.mk.injEq, Prod.mk.injEq, Prod.mk.injEq]
        at hrun
      obtain ⟨rfl, rfl, rfl, rfl⟩ := hrun
      exact ⟨hw, fun r h1 h2 => absurd h2 (Nat.not_lt.mpr h1), hpast, fun _ _ => id⟩
  | succ N ih =>
      rw [escreverExistentes] at hrun
      split at hrun
      · rw [Option.some.injEq, Prod.mk.injEq, Prod.mk.injEq, Prod.mk.injEq] at hrun
        obtain ⟨rfl, rfl, rfl, rfl⟩ := hrun
        exact ⟨hw, fun r h1 h2 => absurd h2 (Nat.not_lt.mpr h1), hpast, fun _ _ => id⟩
      · rename_i hlt
        obtain ⟨hib, hal⟩ := hpos (by omega)
        have hmem := hlive iblock (by omega)
        obtain ⟨c, hread, hacc₁, hc⟩ := h.lerBloco hmem
        have htype : (fs.inodeTab file).type = fs.typeAt file := rfl
        have hslot : (fs.inodeTab file).blocks iblock = fs.slot (file, iblock) := rfl
        rw [htype, hslot, hread, Option.bind_some] at hrun
        -- the first block starts inside, the others at their beginning
        have hstart : (if num = 0 then offset % blockSize else 0) = (offset + num) % blockSize := by
          split
          · rename_i h0
            rw [h0, Nat.add_zero]
          · omega
        simp only [hstart] at hrun
        obtain ⟨fs₁, hgrava, hso, -, hredir, -, hown⟩ := gravarBloco_spec hacc₁ ht
          iblock (h.bound _ hmem).2 (fun q hq => hlive q (by omega))
          (copiarPara (fs.pagina (file, iblock)) ((offset + num) % blockSize) num count buffer)
        rw [hgrava, Option.bind_some] at hrun
        obtain ⟨k, hk⟩ := hredir n (by omega) hlive
        have hw' : Written n (offset / blockSize) (fs₀.slots file) ((fs.withCache c).slots file)
            fs₀.cache.conteudo (fs.withCache c).cache.conteudo
            (fs₀.paginaEscrita file offset count buffer) iblock := by
          rw [withCache_cache, hc]
          exact hw
        have hw₁ := hw'.write hinicio (by omega) hk fun hold => by
          have hold : fs.pagina (file, iblock) = fs₀.pagina (file, iblock) := by
            rw [withCache_cache, hc] at hold
            exact hold
          rw [hold]
          exact copiarPara_eq_paginaEscrita fs₀ buffer hib hal
        have hmod : (offset + num) % blockSize < blockSize := Nat.mod_lt _ (by decide)
        have hsplit := Nat.div_add_mod (offset + num) blockSize
        rw [← hib] at hsplit
        obtain ⟨hfim, hblocos, hpast', hown'⟩ := ih hso.acc ((hso.same.type file).trans ht)
          (min count (num + (blockSize - (offset + num) % blockSize))) (iblock + 1) _ (by omega)
          (by omega) (fun hlt' => by simp only [blockSize] at *; omega)
          (fun r h1 h2 => by simp only [blockSize] at *; omega) (by omega) hw₁ hrun
        refine ⟨hfim, fun r h1 h2 => ?_, hpast', fun q hq hp => hown' q hq (hown q hq hp)⟩
        by_cases hr : r = iblock
        · subst hr
          omega
        · exact hblocos r (by omega) h2

end Existentes

/-! ## The call -/

/-- The stages of a write: the blocks of the file, up to `iblock`, then those reserved. -/
structure Etapas (fs fs' fs₁ fs₂ : Fs) (file offset count : ℕ) (buffer : ℕ → Byte)
    (num iblock : ℕ) : Prop where
  slot : ∀ q < offsetToBlocks (fs.sizeAt file), fs₁.slots file q = fs.slots file q
  pagina : ∀ q < offsetToBlocks (fs.sizeAt file), fs₁.pagina (file, q) = fs.pagina (file, q)
  escritos : Written (offsetToBlocks (fs.sizeAt file)) (offset / blockSize) (fs₁.slots file)
    (fs₂.slots file) fs₁.cache.conteudo fs₂.cache.conteudo
    (fs₁.paginaEscrita file offset count buffer) iblock
  limite : iblock ≤ offsetToBlocks (fs.sizeAt file)
  num_le : num ≤ count
  resto : num < count → iblock = offsetToBlocks (fs.sizeAt file) ∧
    blockSize * iblock = offset + num
  blocos : ∀ r, offset / blockSize ≤ r → r < iblock → blockSize * r < offset + count
  passados : ∀ k, offset ≤ k → k < offset + num → k / blockSize < iblock
  bytes : ∀ k < max (offset + count) (fs.sizeAt file), fs'.byteFicheiro file k =
    if offset + num ≤ k ∧ k < offset + count then buffer (k - offset)
    else fs₂.byteFicheiro file k

theorem fsWrite_etapas {fs fs' : Fs} (h : fs.Consistent) {file offset count : ℕ}
    {buffer : ℕ → Byte} {lixo : Block}
    (hw : fsWrite fs file offset count buffer lixo = some (fs', 0))
    (hoff : offset ≤ fs.sizeAt file) :
    ∃ fs₁ fs₂ num iblock, Etapas fs fs' fs₁ fs₂ file offset count buffer num iblock := by
  rcases fsWrite_casos hw with ⟨hno, -⟩ | ⟨⟨hfile, hreq⟩, ⟨hno, -⟩ | ⟨-, fs₃,
    ⟨fs₂, num, iblock, block, hex, hnew⟩, hr⟩⟩
  · exact absurd (Prod.mk.inj hno).2 (by decide)
  · exact absurd (Prod.mk.inj hno).2 (by decide)
  obtain ⟨hlt, -, ht⟩ := hfile
  have hr := (Prod.mk.inj hr).1
  rw [Nat.min_eq_left hoff] at hex hr
  have hused := h.offsetToBlocks_le file
  have hsize : fs.sizeAt file ≤ blockSize * offsetToBlocks (fs.sizeAt file) :=
    offsetToBlocks_le.mp le_rfl
  have htotal : offset + count ≤ blockSize *
      (offsetToBlocks (fs.sizeAt file) + blksReq fs file offset count) := by
    refine offsetToBlocks_le.mp ?_
    rw [blksReq, Nat.min_eq_left hoff]
    omega
  -- the reservation
  obtain ⟨fs₁, live, hres, hlive, hacc₁, hsame₁, hslot₁, hcache₁, -, hown₁⟩ :=
    reservarBlocos_spec (blksReq fs file offset count) h.acc ht hlt
      (offsetToBlocks (fs.sizeAt file)) (fun q hq => by rw [h.mem_emUso_iff]; omega) (by omega)
  rw [reservado, hres] at hex
  generalize hu : offsetToBlocks (fs.sizeAt file) = used at *
  generalize hb : blksReq fs file offset count = req at *
  have hmem : ∀ q, q < used + req → (file, q) ∈ live := by
    intro q hq
    rw [hlive, h.mem_emUso_iff, hu]
    by_cases hqu : q < used
    · exact .inl hqu
    · exact .inr ⟨rfl, by omega, hq⟩
  have hslots : ∀ q < used, fs₁.slots file q = fs.slots file q := fun q hq => hslot₁ _ (.inr hq)
  -- the loop over the blocks of the file
  have hinicio : offset / blockSize ≤ used := by
    simp only [blockSize] at *
    omega
  obtain ⟨fs₂', num', iblock', block', hex', hso₂, -, hnum, hib, hend, -⟩ :=
    escreverExistentes_spec file offset count buffer
      (used - offset / blockSize) hacc₁ ((hsame₁.type file).trans ht) 0 (offset / blockSize) lixo
      (fun q hq => hmem q (by omega)) (Nat.zero_le _) (fun _ => ⟨rfl, .inl rfl⟩)
  obtain ⟨rfl, rfl, rfl, rfl⟩ : fs₂ = fs₂' ∧ num = num' ∧ iblock = iblock' ∧ block = block' := by
    simpa using hex.symm.trans hex'
  obtain ⟨hescritos, hblocos, hpassados, hown₂⟩ := escreverExistentes_redirige (n := used)
    (fun q hq => hmem q (by omega)) _ hacc₁ ((hsame₁.type file).trans ht) 0 (offset / blockSize)
    lixo (by omega) (Nat.zero_le _) (fun _ => ⟨rfl, .inl rfl⟩)
    (fun k h1 h2 => absurd h2 (by omega)) le_rfl
    (Written.start fun q hq => ((paginaEscrita_eq_iff fs₁ file offset count buffer q).mpr
      fun k h1 _ h2 => by simp only [blockSize] at *; omega).symm) hex
  have hend' : num < count → iblock = used ∧ blockSize * iblock = offset + num := by
    intro hlt'
    obtain ⟨h1, h2, h3⟩ := hend hlt'
    refine ⟨by omega, ?_⟩
    simp only [blockSize] at *
    omega
  -- the loop over the blocks reserved
  have hacc₂ := hso₂.acc
  have ht₂ : fs₂.typeAt file = .fsFile :=
    (hso₂.same.type file).trans ((hsame₁.type file).trans ht)
  obtain ⟨fs₃', hnew', hso₃, -, hbytes₃⟩ :=
    escreverReservados_spec file offset count buffer (used + req - iblock) hacc₂ ht₂ num iblock
      block (fun q hq => hmem q (by omega)) hnum (fun hlt' => (hend' hlt').2)
      (fun _ => by rw [Nat.add_sub_cancel' (by omega)]; exact htotal)
  obtain rfl : fs₃ = fs₃' := by simpa using hnew.symm.trans hnew'
  refine ⟨fs₁, fs₂, num, iblock, by rwa [hu], fun q hq => ?_, by rwa [hu], by omega, hnum,
    by rwa [hu], hblocos, hpassados, fun k hk => ?_⟩
  · rw [hu] at hq
    exact (congrArg fs₁.cache.conteudo (hslots q hq)).trans (by rw [hcache₁]; rfl)
  have hkl : (file, k / blockSize) ∈ live := by
    refine hmem _ ?_
    have : blockSize * used ≤ blockSize * (used + req) :=
      Nat.mul_le_mul_left _ (Nat.le_add_right _ _)
    simp only [blockSize] at *
    omega
  -- the new size and the metadata change no page
  have hmeta : fs'.byteFicheiro file k = fs₃.byteFicheiro file k := by
    have hslot' : (fsiStoreFsdata (fs₃.setSize file (max (offset + count) (fs.sizeAt file)))).slot
        (file, k / blockSize) = fs₃.slot (file, k / blockSize) := by
      rw [slot_congr (store_inodeTab _)]
      exact setSize_slot _ _ _ _
    rw [hr, byteFicheiro, byteFicheiro, pagina, hslot', store_conteudo _ (hso₃.acc.range _ hkl)]
    rfl
  rw [hmeta]
  by_cases hlt' : num < count
  · obtain ⟨hiu, hnu⟩ := hend' hlt'
    refine hbytes₃ (fun q hq hq' => ?_) k hkl fun _ => ?_
    · refine hown₂ q (hmem q (by omega)) (hown₁ q (fun hmem' => ?_) (hmem q (by omega)))
      rw [h.mem_emUso_iff, hu] at hmem'
      omega
    · simp only [blockSize] at *
      omega
  · -- no byte is left for them
    have hvazio : fs₃ = fs₂ := by
      have hfim : ∀ m, escreverReservados file count buffer m fs₂ num iblock block =
          some (fs₂, num) := by
        intro m
        cases m with
        | zero => rfl
        | succ m => rw [escreverReservados, if_pos (by omega)]
      rw [hfim] at hnew
      exact (Prod.mk.inj (Option.some.inj hnew)).1.symm
    rw [hvazio, if_neg (by omega)]

/-- No slot before the one of `offset` names a block of the file in which the write changes a
byte. -/
def SemRepeticao (fs : Fs) (file offset count : ℕ) (buffer : ℕ → Byte) : Prop :=
  ∀ k, offset ≤ k → k < offset + count → k / blockSize < offsetToBlocks (fs.sizeAt file) →
    (∃ i < offset / blockSize, fs.slot (file, i) = fs.slot (file, k / blockSize)) →
    buffer (k - offset) = fs.byteFicheiro file k

/-- Byte `k` of the file as the call should leave it. -/
def byteEsperado (fs : Fs) (file offset count : ℕ) (buffer : ℕ → Byte) (k : ℕ) : Byte :=
  if offset ≤ k ∧ k < offset + count then buffer (k - offset) else fs.byteFicheiro file k

namespace Etapas

variable {fs fs' fs₁ fs₂ : Fs} {file offset count : ℕ} {buffer : ℕ → Byte} {num iblock : ℕ}

/-- The pages that the loop means to write are those of the file before the call. -/
theorem paginaEscrita (h : Etapas fs fs' fs₁ fs₂ file offset count buffer num iblock) {q : ℕ}
    (hq : q < offsetToBlocks (fs.sizeAt file)) :
    fs₁.paginaEscrita file offset count buffer q = fs.paginaEscrita file offset count buffer q := by
  funext i
  rw [Fs.paginaEscrita, Fs.paginaEscrita, h.pagina q hq]

theorem fits_iff (h : Etapas fs fs' fs₁ fs₂ file offset count buffer num iblock)
    (hoff : offset ≤ fs.sizeAt file) :
    Fits (offset / blockSize) (fs₁.slots file) fs₁.cache.conteudo
        (fs₁.paginaEscrita file offset count buffer) iblock ↔
      fs.SemRepeticao file offset count buffer := by
  have hlim := h.limite
  have hsize : fs.sizeAt file ≤ blockSize * offsetToBlocks (fs.sizeAt file) :=
    offsetToBlocks_le.mp le_rfl
  have hantes : ∀ r < offsetToBlocks (fs.sizeAt file),
      (Before (fs₁.slots file) (offset / blockSize) r ↔
        ∃ i < offset / blockSize, fs.slot (file, i) = fs.slot (file, r)) := fun r hr => by
    refine exists_congr fun i => and_congr_right fun hi => ?_
    rw [h.slot r hr, h.slot i (by simp only [blockSize] at *; omega)]
    rfl
  constructor
  · intro hfits k hk hk' hkb hbefore
    -- the loop reaches the block
    have hki : k / blockSize < iblock := by
      by_cases hlt : num < count
      · rw [(h.resto hlt).1]
        exact hkb
      · exact h.passados k hk (by omega)
    have hpag := hfits (k / blockSize) (Nat.div_le_div_right hk) hki ((hantes _ hkb).mpr hbefore)
    rw [h.paginaEscrita hkb] at hpag
    exact (paginaEscrita_eq_iff fs file offset count buffer _).mp
      (hpag.trans (h.pagina _ hkb)) k hk hk' rfl
  · intro hsem r _ hr hbefore
    have hru : r < offsetToBlocks (fs.sizeAt file) := by omega
    rw [h.paginaEscrita hru]
    refine ((paginaEscrita_eq_iff fs file offset count buffer r).mpr fun k hk hk' hkr => ?_).trans
      (h.pagina r hru).symm
    subst hkr
    exact hsem k hk hk' hru ((hantes _ hru).mp hbefore)

/-- The bytes when no page went astray. -/
theorem bytes_right (h : Etapas fs fs' fs₁ fs₂ file offset count buffer num iblock)
    (hoff : offset ≤ fs.sizeAt file)
    (hr : Right (offsetToBlocks (fs.sizeAt file)) (offset / blockSize) (fs₁.slots file)
      (fs₂.slots file) fs₁.cache.conteudo fs₂.cache.conteudo
      (fs₁.paginaEscrita file offset count buffer) iblock) {k : ℕ}
    (hk : k < max (offset + count) (fs.sizeAt file)) :
    fs'.byteFicheiro file k = fs.byteEsperado file offset count buffer k := by
  have hlim := h.limite
  have hnum := h.num_le
  have hresto := h.resto
  have hsize : fs.sizeAt file ≤ blockSize * offsetToBlocks (fs.sizeAt file) :=
    offsetToBlocks_le.mp le_rfl
  rw [h.bytes k hk, byteEsperado]
  by_cases hki : k / blockSize < iblock
  · -- a page of the first loop
    have hku : k / blockSize < offsetToBlocks (fs.sizeAt file) := by omega
    have hpag : fs₂.pagina (file, k / blockSize) =
        fs.paginaEscrita file offset count buffer (k / blockSize) :=
      (hr.done _ hki).trans (h.paginaEscrita hku)
    rw [if_neg (by simp only [blockSize] at *; omega), byteFicheiro, hpag, byteAt_paginaEscrita]
  · by_cases hlt : num < count
    · -- a page of the second loop
      obtain ⟨hiu, hpos⟩ := hresto hlt
      rw [if_pos (by simp only [blockSize] at *; omega),
        if_pos (by simp only [blockSize] at *; omega)]
    · have hpassou : ¬ (offset ≤ k ∧ k < offset + count) := fun hin =>
        hki (h.passados k hin.1 (by omega))
      have hku : k / blockSize < offsetToBlocks (fs.sizeAt file) := by
        simp only [blockSize] at *
        omega
      rw [if_neg (by omega), if_neg hpassou, byteFicheiro, byteFicheiro, ← h.pagina _ hku]
      exact congrArg (byteAt · _) (hr.rest _ (by omega) hku)

/-- A page that went astray shows in a byte of the file. -/
theorem exists_byte_ne (h : Etapas fs fs' fs₁ fs₂ file offset count buffer num iblock)
    (hlt : offset / blockSize < iblock)
    (ha : Astray (offsetToBlocks (fs.sizeAt file)) (fs₂.slots file) fs₂.cache.conteudo
      (fs₁.paginaEscrita file offset count buffer) iblock) :
    ∃ k < max (offset + count) (fs.sizeAt file),
      fs'.byteFicheiro file k ≠ fs.byteEsperado file offset count buffer k := by
  obtain ⟨q, hq, hne, -⟩ := ha
  have hlim := h.limite
  have hresto := h.resto
  have hultimo := h.blocos (iblock - 1) (by omega) (by omega)
  obtain ⟨i, hi⟩ := Function.ne_iff.mp hne
  have hib := i.isLt
  have hdiv : (blockSize * q + i.val) / blockSize = q := by
    simp only [blockSize] at *
    omega
  have hk : blockSize * q + i.val < offset + count := by
    simp only [blockSize] at *
    omega
  refine ⟨blockSize * q + i.val, lt_max_of_lt_left hk, fun he => hi ?_⟩
  have hlonge : ¬ (offset + num ≤ blockSize * q + i.val ∧
      blockSize * q + i.val < offset + count) := by
    rintro ⟨h1, -⟩
    by_cases hn : num < count
    · have := (hresto hn).2
      simp only [blockSize] at *
      omega
    · have := h.num_le
      omega
  have hesp := byteAt_paginaEscrita fs file offset count buffer (blockSize * q + i.val)
  rw [h.bytes _ (lt_max_of_lt_left hk), if_neg hlonge, byteFicheiro_mul_add fs₂ file q hib, byteAt,
    dif_pos hib, byteEsperado, ← hesp, hdiv, ← h.paginaEscrita (by omega)] at he
  have hmod : (blockSize * q + i.val) % blockSize = i.val := by
    simp only [blockSize] at *
    omega
  rw [hmod, byteAt, dif_pos hib] at he
  exact he

end Etapas

/-- A write within the file leaves the bytes it should exactly when no earlier slot names a block
in which it changes a byte. -/
theorem fsWrite_bytes_iff {fs fs' : Fs} (h : fs.Consistent) {file offset count : ℕ}
    {buffer : ℕ → Byte} {lixo : Block}
    (hw : fsWrite fs file offset count buffer lixo = some (fs', 0))
    (hoff : offset ≤ fs.sizeAt file)
    (hsize : fs'.sizeAt file = max (offset + count) (fs.sizeAt file)) :
    fs'.bytes file = sobrepor (fs.bytes file) offset count buffer ↔
      fs.SemRepeticao file offset count buffer := by
  have hlen : (fs.bytes file).length = fs.sizeAt file := by simp [bytes]
  have hbytes : fs'.bytes file = sobrepor (fs.bytes file) offset count buffer ↔
      ∀ k < max (offset + count) (fs.sizeAt file),
        fs'.byteFicheiro file k = fs.byteEsperado file offset count buffer k := by
    rw [sobrepor_eq_map, hlen, Nat.min_eq_left hoff, bytes, hsize, List.map_inj_left]
    refine forall_congr' fun k => ?_
    rw [List.mem_range]
    refine forall_congr' fun hk => ?_
    rw [byteEsperado]
    by_cases hin : offset ≤ k ∧ k < offset + count
    · rw [if_pos hin, if_pos hin]
    · have hks : k < fs.sizeAt file := by omega
      rw [if_neg hin, if_neg hin, List.getD_eq_getElem _ _ (by omega)]
      simp [bytes]
  rw [hbytes]
  obtain ⟨fs₁, fs₂, num, iblock, he⟩ := fsWrite_etapas h hw hoff
  rw [← he.fits_iff hoff]
  rcases he.escritos with ⟨hr, hfits⟩ | ⟨ha, hno⟩
  · exact iff_of_true (fun k hk => he.bytes_right hoff hr hk) hfits
  · refine iff_of_false (fun hall => ?_) hno
    have hlt : offset / blockSize < iblock := by
      by_contra hle
      exact hno fun r h1 h2 => absurd h2 (by omega)
    obtain ⟨k, hk, hne⟩ := he.exists_byte_ne hlt ha
    exact hne (hall k hk)

end Fs

/-! ## Runs -/

/-- A creation, a write, a copy between different i-nodes, or an append of files of whole blocks. -/
def FsOp.BlocosInteiros (fs : Fs) : FsOp → Prop
  | .create _ _ => True
  | .write _ _ _ _ _ => True
  | .copy d₁ nome₁ d₂ nome₂ => ∀ n, fs.resolve d₁ nome₁.val = some n →
      fs.resolve d₂ nome₂.val = some n → fs.typeAt n ≠ .fsFile
  | .append d₁ nome₁ d₂ nome₂ => ∀ de para, fs.resolve d₁ nome₁.val = some de →
      fs.resolve d₂ nome₂.val = some para → fs.typeAt de = .fsFile →
      fs.typeAt para = .fsFile ∧ blockSize ∣ fs.sizeAt de ∧ blockSize ∣ fs.sizeAt para
  | _ => False

namespace Fs

theorem Consistent.encontra_eq {fs : Fs} (h : fs.Consistent) {d : ℕ} (ht : fs.typeAt d = .fsDir)
    (nome : CString) : fs.encontra d nome.val = fs.resolve d nome.val := by
  rw [encontra, h.fsiDirSearch_eq ht nome.property, resolve_of_dir ht]
  rfl

/-- The slots of the destination count among those of the files. -/
theorem Consistent.card_foraDe_le {fs : Fs} (h : fs.Consistent) {i : ℕ}
    (ht : fs.typeAt i = .fsFile) (b : ℕ) :
    (fs.fileSlots (fs.foraDe i) b).card + fs.vezes i (offsetToBlocks (fs.sizeAt i)) b ≤
      (fs.fileSlots fs.emUso b).card := by
  have hcard : fs.vezes i (offsetToBlocks (fs.sizeAt i)) b =
      ((fs.fileSlots fs.emUso b).filter fun p => p.1 = i).card := by
    rw [vezes, ← Finset.card_image_of_injective _ (Prod.mk_right_injective i)]
    congr 1
    ext ⟨j, q⟩
    simp only [Finset.mem_image, Finset.mem_filter, Finset.mem_range, fileSlots, Prod.mk.injEq,
      h.mem_emUso_iff]
    constructor
    · rintro ⟨r, ⟨hr, hs⟩, rfl, rfl⟩
      exact ⟨⟨hr, ht, hs⟩, rfl⟩
    · rintro ⟨⟨hq, -, hs⟩, rfl⟩
      exact ⟨q, ⟨hq, hs⟩, rfl, rfl⟩
  have hfora : fs.fileSlots (fs.foraDe i) b =
      (fs.fileSlots fs.emUso b).filter fun p => ¬ p.1 = i := by
    rw [fileSlots, fileSlots, foraDe, Finset.filter_filter, Finset.filter_filter]
    exact Finset.filter_congr fun p _ => and_comm
  rw [hcard, hfora, add_comm, Finset.card_filter_add_card_filter_not]

/-- A call whose references fit keeps the accounts. -/
theorem Consistent.exec_inteiros {fs fs' : Fs} (h : fs.Consistent) {op : FsOp}
    (hop : op.ReferenciasCabem fs ∧ op.BlocosInteiros fs) {r : Resposta}
    (hr : op.exec fs = some (fs', r)) : fs'.Consistent := by
  have hok : op.ContasOk fs → fs'.Consistent := fun hok => by
    obtain ⟨fs₁, r₁, hr₁, h₁⟩ := h.exec hok
    obtain ⟨rfl, -⟩ := Prod.mk.inj (Option.some.inj (hr₁.symm.trans hr))
    exact h₁
  cases op with
  | create dir file => exact hok trivial
  | write file offset count buffer lixo => exact hok trivial
  | copy d₁ nome₁ d₂ nome₂ =>
      obtain ⟨⟨fs₁, n⟩, hs, he⟩ := Option.map_eq_some_iff.mp hr
      obtain ⟨rfl, -⟩ := Prod.mk.inj he
      rcases fsCopy_casos hs with ⟨hno, -⟩ | ⟨de, hadm, -⟩
      · obtain ⟨rfl, -⟩ := Prod.mk.inj hno
        exact h
      · refine hok fun de' hde ht => ?_
        rw [← h.encontra_eq hadm.origem.2, hadm.achado] at hde
        obtain rfl := Option.some.inj hde
        have hcabe := hop.1 de hadm
        have hacc : ∀ b, fs.referencias b = (fs.fileSlots fs.emUso b).card := h.acc.refs
        rw [← h.encontra_eq hadm.destino.2]
        refine ⟨fun hnova b => ?_, fun para hpara htp => ⟨fun b => ?_, fun hdp => ?_⟩⟩
        · have := hcabe b
          rw [libertadas, hnova, hacc] at this
          simp only at this
          omega
        · have := hcabe b
          have hle := h.card_foraDe_le htp b
          rw [libertadas, hpara, hacc] at this
          simp only at this
          omega
        · subst hdp
          refine absurd ht (hop.2 de ?_ ?_)
          · rw [← h.encontra_eq hadm.origem.2, hadm.achado]
          · rw [← h.encontra_eq hadm.destino.2, hpara]
  | append d₁ nome₁ d₂ nome₂ =>
      obtain ⟨⟨fs₁, n⟩, hs, he⟩ := Option.map_eq_some_iff.mp hr
      obtain ⟨rfl, -⟩ := Prod.mk.inj he
      rcases fsAppend_casos hs with hno | ⟨de, para, hadm, hpara, -, -⟩
      · obtain ⟨rfl, -⟩ := Prod.mk.inj hno
        exact h
      · refine hok fun de' para' hde hpara' ht _ => ?_
        have hinteiros := hop.2 de' para' hde hpara' ht
        rw [← h.encontra_eq hadm.origem.2, hadm.achado] at hde
        rw [← h.encontra_eq hadm.destino.2, hpara] at hpara'
        obtain rfl := Option.some.inj hde
        obtain rfl := Option.some.inj hpara'
        obtain ⟨htp, ⟨a, ha⟩, ⟨b, hb⟩⟩ := hinteiros
        refine .inr ⟨htp, ?_, fun c => ?_⟩
        · rw [ha, hb, ← Nat.mul_add, offsetToBlocks_mul, offsetToBlocks_mul, offsetToBlocks_mul]
        · have := hop.1 de para hadm hpara c
          rw [h.acc.refs] at this
          omega
  | mkdir => exact hop.2.elim
  | read => exact hop.2.elim
  | remove => exact hop.2.elim
  | defrag => exact hop.2.elim
  | actualizar => exact hop.2.elim

/-- A file reads what a write within it should leave exactly when no page goes astray. -/
theorem Consistent.escrita_iff {fs fs' : Fs} (h : fs.Consistent) {file offset count : ℕ}
    {buffer : ℕ → Byte} {lixo : Block}
    (hw : fsWrite fs file offset count buffer lixo = some (fs', 0))
    (hoff : offset ≤ fs.sizeAt file) :
    (∀ s, Conteudo fs file s → Conteudo fs' file (sobrepor s offset count buffer)) ↔
      fs.SemRepeticao file offset count buffer := by
  obtain ⟨fs₁, hw₁, he⟩ : ∃ fs₁, fsWrite fs file offset count buffer lixo = some (fs₁, 0) ∧
      Escrito fs fs₁ file offset count buffer := by
    rcases fsWrite_spec h file offset count buffer lixo with ⟨hno, -⟩ | hok
    · exact absurd (Prod.mk.inj (Option.some.inj (hw.symm.trans hno))).2 (by decide)
    · exact hok
  obtain ⟨rfl, -⟩ := Prod.mk.inj (Option.some.inj (hw.symm.trans hw₁))
  rw [← fsWrite_bytes_iff h hw hoff (by rw [he.tamanho, Nat.min_eq_left hoff])]
  have ht' : fs'.typeAt file = .fsFile := (he.type file).trans he.ficheiro
  constructor
  · intro hall
    exact ((he.consistent.conteudo_iff ht').mp (hall _ (h.conteudo he.ficheiro))).symm
  · rintro hbytes s hs
    rw [(h.conteudo_iff he.ficheiro).mp hs, he.consistent.conteudo_iff ht', hbytes]

end Fs

/-- In every state that creations, writes, copies between different i-nodes and appends of files of
whole blocks reach with references that fit, a write within a file changes the bytes it should
exactly when no earlier slot names a block in which it changes a byte. -/
theorem escrita_no_lugar_iff (pilha : ℕ → ℤ) (ops : List FsOp)
    (hops : Runs.Permitted FsOp.exec (fun fs op => op.ReferenciasCabem fs ∧ op.BlocosInteiros fs)
      (fsFormat (fsNew Fs.discoServidor pilha)) ops)
    {fs : Fs} {rs : List Resposta}
    (hrun : Runs.run FsOp.exec (fsFormat (fsNew Fs.discoServidor pilha)) ops = some (fs, rs))
    {file offset count : ℕ} {buffer : ℕ → Byte} {lixo : Block} {fs' : Fs}
    (hw : fsWrite fs file offset count buffer lixo = some (fs', 0))
    (hoff : offset ≤ fs.sizeAt file) :
    (∀ s, Conteudo fs file s → Conteudo fs' file (Fs.sobrepor s offset count buffer)) ↔
      fs.SemRepeticao file offset count buffer := by
  have h : fs.Consistent := Runs.run_invariant (I := Fs.Consistent)
    (fun _ _ _ _ hI hop hr => hI.exec_inteiros hop hr) (Fs.inicial_consistent pilha) hops hrun
  exact h.escrita_iff hw hoff

/-! ## A file of one block appended to itself -/

theorem Repetido.escrever {fs : Fs} {m : ℕ} (h : Repetido fs m 0) (hm : m ≤ inodeNumBlks)
    (offset : ℕ) (hoff : offset < blockSize * m) (buffer : ℕ → Byte) (lixo : Block) :
    ∃ fs', fsWrite fs 2 offset 1 buffer lixo = some (fs', 0) := by
  rcases Fs.fsWrite_spec h.consistent 2 offset 1 buffer lixo with ⟨-, hno⟩ | ⟨fs', hw, -⟩
  · rcases hno with ht | hcheio
    · exact absurd h.ficheiro.1 ht
    · rw [h.ficheiro.2, Nat.min_eq_left hoff.le] at hcheio
      have := Nat.mul_le_mul_left blockSize hm
      omega
  · exact ⟨fs', hw⟩

/-- The file that names its block twice is reached with references that fit. -/
theorem ficheiro_repetido (pilha : ℕ → ℤ) :
    ∃ fs rs, Runs.run FsOp.exec (fsFormat (fsNew Fs.discoServidor pilha))
        [.create 1 nomeA, .write 2 0 512 (fun _ => 1) nullBlock, .append 1 nomeA 1 nomeA] =
          some (fs, rs) ∧
      Runs.Permitted FsOp.exec (fun fs op => op.ReferenciasCabem fs ∧ op.BlocosInteiros fs)
        (fsFormat (fsNew Fs.discoServidor pilha))
        [.create 1 nomeA, .write 2 0 512 (fun _ => 1) nullBlock, .append 1 nomeA 1 nomeA] ∧
      Repetido fs 2 0 ∧ byteAt (fs.pagina (2, 0)) 0 = 1 := by
  obtain ⟨fs₁, rs₁, hrun₁, h₁, hbyte₁⟩ := repetido_um pilha
  obtain ⟨fs₂, s₂, happ, h₂, hpag⟩ := h₁.anexar (by decide) (by decide)
  have hrun₂ : Runs.run FsOp.exec fs₁ [.append 1 nomeA 1 nomeA] =
      some (fs₂, [.inode (some s₂)]) := by
    refine Runs.run_one ?_
    rw [FsOp.exec, happ]
    rfl
  have hall := Runs.run_append hrun₁ hrun₂
  simp only [List.cons_append, List.nil_append] at hall
  have hperm₁ : Runs.Permitted FsOp.exec (fun fs op => op.ReferenciasCabem fs ∧ op.BlocosInteiros fs)
      (Fs.inicial pilha) [.create 1 nomeA, .write 2 0 512 (fun _ => 1) nullBlock] := by
    exact ⟨⟨trivial, trivial⟩, fun _ _ _ => ⟨⟨trivial, trivial⟩, fun _ _ _ => trivial⟩⟩
  have hperm₂ : Runs.Permitted FsOp.exec (fun fs op => op.ReferenciasCabem fs ∧ op.BlocosInteiros fs)
      fs₁ [.append 1 nomeA 1 nomeA] := by
    refine ⟨⟨fun de para hadm hpara b => ?_, fun de para hde hpara _ => ?_⟩, fun _ _ _ => trivial⟩
    · rw [h₁.consistent.encontra_eq hadm.destino.2, h₁.nome] at hpara
      obtain rfl := Option.some.inj hpara
      rw [h₁.blocos]
      exact h₁.cabe le_rfl (by decide) b
    · obtain rfl := Option.some.inj (h₁.nome.symm.trans hde)
      obtain rfl := Option.some.inj (h₁.nome.symm.trans hpara)
      rw [h₁.ficheiro.2]
      exact ⟨h₁.ficheiro.1, ⟨1, rfl⟩, ⟨1, rfl⟩⟩
  have hperm := Runs.permitted_append hperm₁ fun fs rs hrun => by
    obtain ⟨rfl, -⟩ := Prod.mk.inj (Option.some.inj (hrun₁.symm.trans hrun))
    exact hperm₂
  simp only [List.cons_append, List.nil_append] at hperm
  exact ⟨fs₂, _, hall, hperm, h₂, by rw [hpag, hbyte₁]⟩

/-- A byte at the start of a file that repeats its block. -/
theorem escrita_no_lugar_inicio :
    ∃ fs rs fs', Runs.run FsOp.exec (fsFormat (fsNew Fs.discoServidor fun _ => 7))
        [.create 1 nomeA, .write 2 0 512 (fun _ => 1) nullBlock, .append 1 nomeA 1 nomeA] =
          some (fs, rs) ∧
      fsWrite fs 2 0 1 (fun _ => 2) nullBlock = some (fs', 0) ∧
      ∀ s, Conteudo fs 2 s → Conteudo fs' 2 (Fs.sobrepor s 0 1 fun _ => 2) := by
  obtain ⟨fs, rs, hrun, hperm, h, -⟩ := ficheiro_repetido fun _ => 7
  obtain ⟨fs', hw⟩ := h.escrever (by decide) 0 (by decide) (fun _ => 2) nullBlock
  refine ⟨fs, rs, fs', hrun, hw, ?_⟩
  refine (escrita_no_lugar_iff _ _ hperm hrun hw (Nat.zero_le _)).mpr fun k _ _ _ hantes => ?_
  obtain ⟨i, hi, -⟩ := hantes
  exact absurd hi (Nat.not_lt_zero i)

/-- A byte in the second of two slots that name one block reaches the first one. -/
theorem escrita_fora_do_lugar :
    ∃ fs rs fs', Runs.run FsOp.exec (fsFormat (fsNew Fs.discoServidor fun _ => 7))
        [.create 1 nomeA, .write 2 0 512 (fun _ => 1) nullBlock, .append 1 nomeA 1 nomeA] =
          some (fs, rs) ∧
      fsWrite fs 2 512 1 (fun _ => 2) nullBlock = some (fs', 0) ∧ 512 ≤ fs.sizeAt 2 ∧
      ¬ ∀ s, Conteudo fs 2 s → Conteudo fs' 2 (Fs.sobrepor s 512 1 fun _ => 2) := by
  obtain ⟨fs, rs, hrun, -, h, hbyte⟩ := ficheiro_repetido fun _ => 7
  obtain ⟨fs', hw⟩ := h.escrever (by decide) 512 (by decide) (fun _ => 2) nullBlock
  have hsize : 512 ≤ fs.sizeAt 2 := by
    rw [h.ficheiro.2]
    decide
  refine ⟨fs, rs, fs', hrun, hw, hsize, ?_⟩
  rw [h.consistent.escrita_iff hw hsize]
  intro hsem
  have hum := hsem 512 le_rfl (by decide) (by rw [h.blocos]; decide)
    ⟨0, by decide, (h.repete 1 (by decide)).symm⟩
  have hpag : fs.pagina (2, 512 / blockSize) = fs.pagina (2, 0) :=
    congrArg fs.cache.conteudo (h.repete 1 (by decide))
  rw [Fs.byteFicheiro, hpag] at hum
  exact absurd (hum.trans hbyte) (by decide)

end ThreadScheduler.SnfsServer
