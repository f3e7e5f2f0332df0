import ThreadScheduler.SnfsServer.Remove

/-!
# Reading and writing files

The content of a file is one byte string, laid over the pages of its slots. `fs_read`
answers a piece of it. `fs_write` overlays it; its loops are followed byte position by
byte position, so the partial first and last blocks are no special case.
-/
namespace ThreadScheduler.SnfsServer

namespace Fs

/-- Byte `k` of the pages of an i-node. -/
def byteFicheiro (fs : Fs) (i k : ℕ) : Byte :=
  byteAt (fs.pagina (i, k / blockSize)) (k % blockSize)

/-- The content of a file. -/
def bytes (fs : Fs) (i : ℕ) : List Byte := (List.range (fs.sizeAt i)).map (fs.byteFicheiro i)

/-- No file of `live` names a block twice. -/
def Distintos (fs : Fs) (live : Finset (ℕ × ℕ)) : Prop :=
  ∀ i q q', fs.typeAt i = .fsFile → (i, q) ∈ live → (i, q') ∈ live →
    fs.slot (i, q) = fs.slot (i, q') → q = q'

theorem bytes_congr {fs fs' : Fs} {i : ℕ} (hs : fs'.sizeAt i = fs.sizeAt i)
    (hp : ∀ q < offsetToBlocks (fs.sizeAt i), fs'.pagina (i, q) = fs.pagina (i, q)) :
    fs'.bytes i = fs.bytes i := by
  simp only [bytes, hs]
  refine List.map_congr_left fun k hk => ?_
  have hk' := List.mem_range.mp hk
  have hq : k / blockSize < offsetToBlocks (fs.sizeAt i) := by
    rw [lt_offsetToBlocks]
    simp only [blockSize]
    omega
  simp only [byteFicheiro, hp _ hq]

theorem byteFicheiro_mul_add (fs : Fs) (i q : ℕ) {j : ℕ} (hj : j < blockSize) :
    fs.byteFicheiro i (blockSize * q + j) = byteAt (fs.pagina (i, q)) j := by
  have hdiv : (blockSize * q + j) / blockSize = q := by
    simp only [blockSize] at *
    omega
  have hmod : (blockSize * q + j) % blockSize = j := by
    simp only [blockSize] at *
    omega
  rw [byteFicheiro, hdiv, hmod]

/-- The bytes of a piece of one page. -/
theorem map_page (fs : Fs) (i : ℕ) {a num : ℕ} (h : a % blockSize + num ≤ blockSize) :
    (List.range num).map (fun k => byteAt (fs.pagina (i, a / blockSize)) (a % blockSize + k)) =
      (List.range' a num).map (fs.byteFicheiro i) := by
  rw [List.range_eq_range', ← Nat.add_zero a, ← List.map_add_range', List.map_map, Nat.add_zero]
  refine List.map_congr_left fun k hk => ?_
  have hk' := (List.mem_range'_1.mp hk).2
  have hj : a % blockSize + k < blockSize := by omega
  have := byteFicheiro_mul_add fs i (a / blockSize) hj
  rw [← Nat.add_assoc, Nat.div_add_mod] at this
  rw [← this]
  rfl

/-- Moving blocks through the cache changes no byte. -/
theorem withCache_byteFicheiro {fs : Fs} {c : CacheT} (hc : c.conteudo = fs.cache.conteudo)
    (i : ℕ) : (fs.withCache c).byteFicheiro i = fs.byteFicheiro i := by
  funext k
  simp only [byteFicheiro, pagina, withCache_cache, hc, withCache_slot]

/-! ## Reading -/

/-- The loop of `fs_read` collects the bytes from its position on. -/
theorem fsReadLoop_eq {live : Finset (ℕ × ℕ)} {file : ℕ} (offset max n : ℕ) {fs : Fs}
    (h : fs.Layout live) (iblock pos : ℕ) (buffer : List Byte)
    (hlive : ∀ q < iblock + n, (file, q) ∈ live)
    (hpos : pos < max → iblock = (offset + pos) / blockSize ∧
      (pos = 0 ∨ (offset + pos) % blockSize = 0))
    (hn : offset + max ≤ blockSize * (iblock + n)) :
    ∃ c, fsReadLoop file offset max n fs iblock pos buffer = some (fs.withCache c, buffer ++
        (List.range' (offset + pos) (max - pos)).map (fs.byteFicheiro file)) ∧
      (fs.withCache c).Layout live ∧ c.conteudo = fs.cache.conteudo := by
  induction n generalizing fs iblock pos buffer with
  | zero =>
      have hdone : max - pos = 0 := by
        simp only [blockSize] at *
        omega
      exact ⟨fs.cache, by simp [fsReadLoop, hdone, Fs.withCache], h, rfl⟩
  | succ n ih =>
      rw [fsReadLoop]
      split
      · rename_i hle
        exact ⟨fs.cache, by simp [Nat.sub_eq_zero_of_le hle, Fs.withCache], h, rfl⟩
      · rename_i hlt
        obtain ⟨hib, hpos⟩ := hpos (by omega)
        have hmem := hlive iblock (by omega)
        obtain ⟨c₁, hread, hacc₁, hc₁⟩ := h.lerBloco hmem
        have htype : (fs.inodeTab file).type = fs.typeAt file := rfl
        have hslot : (fs.inodeTab file).blocks iblock = fs.slot (file, iblock) := rfl
        simp only [htype, hslot, hread, Option.bind_some]
        -- the first block starts inside, the others at their beginning
        have hstart : (if pos = 0 then offset % blockSize else 0) = (offset + pos) % blockSize := by
          split
          · rename_i h0
            rw [h0, Nat.add_zero]
          · omega
        rw [hstart]
        generalize hnum : min (blockSize - (offset + pos) % blockSize) (max - pos) = num
        have hnext : pos + num < max → (offset + pos) % blockSize + num = blockSize := by
          have := Nat.mod_lt (offset + pos) (show 0 < blockSize by decide)
          omega
        have hsplit := Nat.div_add_mod (offset + pos) blockSize
        obtain ⟨c, hloop, hacc, hc⟩ := ih hacc₁ (iblock + 1) (pos + num)
          (buffer ++ (List.range num).map
            fun k => byteAt (fs.pagina (file, iblock)) ((offset + pos) % blockSize + k))
          (fun q hq => hlive q (by omega))
          (fun hlt' => by
            have := hnext hlt'
            simp only [blockSize] at *
            omega)
          (by rw [Nat.add_right_comm]; exact hn)
        refine ⟨c, ?_, hacc, hc.trans hc₁⟩
        rw [hloop, withCache_byteFicheiro hc₁, hib, map_page fs file (by omega), List.append_assoc,
          ← List.map_append, ← Nat.add_assoc, List.range'_append_1]
        have hcount : num + (max - (pos + num)) = max - pos := by omega
        rw [hcount]
        rfl

/-- `fs_read` of a file answers the bytes between `offset` and `offset + count`. -/
theorem Layout.fsRead_eq {fs : Fs} {live : Finset (ℕ × ℕ)} (h : fs.Layout live) {file : ℕ}
    (hlt : file < itabSize) (ha : fs.alocado file = true) (ht : fs.typeAt file = .fsFile)
    (hlive : ∀ q < offsetToBlocks (fs.sizeAt file), (file, q) ∈ live) (offset count : ℕ) :
    ∃ c, fsRead fs file offset count =
        some (fs.withCache c, some (((fs.bytes file).drop offset).take count)) ∧
      (fs.withCache c).Layout live ∧ c.conteudo = fs.cache.conteudo := by
  have ha' : bmapIsSet fs.inodeBmap file = true := ha
  have ht' : (fs.inodeTab file).type = .fsFile := ht
  have hsize : (fs.inodeTab file).size = fs.sizeAt file := rfl
  simp only [fsRead, Nat.not_le.mpr hlt, if_false, ha', Bool.not_true, Bool.false_eq_true, ht',
    ne_eq, not_true_eq_false, hsize]
  split
  · rename_i hle
    refine ⟨fs.cache, ?_, h, rfl⟩
    rw [List.drop_eq_nil_of_le (by simpa [bytes] using hle)]
    simp [Fs.withCache]
  · rename_i hgt
    have hq : offset / blockSize < offsetToBlocks (fs.sizeAt file) := by
      rw [lt_offsetToBlocks]
      simp only [blockSize] at *
      omega
    have hblocks := offsetToBlocks_le (q := offsetToBlocks (fs.sizeAt file)) |>.mp le_rfl
    obtain ⟨c, hloop, hacc, hc⟩ := fsReadLoop_eq offset
      (min count (fs.sizeAt file - offset))
      (offsetToBlocks (fs.sizeAt file) - offset / blockSize) h (offset / blockSize) 0 []
      (fun q hq' => hlive q (by rwa [Nat.add_sub_cancel' hq.le] at hq'))
      (fun _ => ⟨rfl, .inl rfl⟩) (by rw [Nat.add_sub_cancel' hq.le]; omega)
    refine ⟨c, ?_, hacc, hc⟩
    rw [hloop, Option.map_some]
    have htake : (List.range' offset (fs.sizeAt file - offset)).take count =
        List.range' offset (min count (fs.sizeAt file - offset)) := by
      rcases Nat.le_total count (fs.sizeAt file - offset) with hle | hle
      · rw [List.take_range'_of_length_ge hle, Nat.min_eq_left hle]
      · rw [List.take_range'_of_length_le hle, Nat.min_eq_right hle]
    simp [bytes, List.range_eq_range', ← List.map_drop, ← List.map_take, htake]

/-- Reading keeps the invariant. -/
theorem Consistent.fsRead_eq {fs : Fs} (h : fs.Consistent) {file : ℕ}
    (ht : fs.typeAt file = .fsFile) (offset count : ℕ) :
    ∃ c, fsRead fs file offset count =
        some (fs.withCache c, some (((fs.bytes file).drop offset).take count)) ∧
      (fs.withCache c).Consistent ∧ c.conteudo = fs.cache.conteudo := by
  have ha := h.alocado_of_type (i := file) (by simp [ht])
  obtain ⟨c, hr, hl, hc⟩ := h.acc.toLayout.fsRead_eq (h.lt_of_alocado ha) ha ht
    (fun q => h.mem_emUso_iff.mpr) offset count
  exact ⟨c, hr, h.withCache (h.acc.of_layout hl) hc, hc⟩

end Fs

end ThreadScheduler.SnfsServer
