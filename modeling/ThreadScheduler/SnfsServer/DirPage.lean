import ThreadScheduler.SnfsServer.Fs

/-!
# Directory pages

A page is read and written entry by entry: 14 characters of name and a two-byte
i-node number. The string functions of `fs.c` see an entry as its `nameAt` and its
`inodeidAt`, and storing one entry leaves the others as they are.
-/
namespace ThreadScheduler.SnfsServer

theorem byteAt_poke (page : Block) {k : ℕ} (hk : k < blockSize) (v : Byte) (j : ℕ) :
    byteAt (poke page k v) j = if j = k then v else byteAt page j := by
  by_cases hj : j < blockSize
  · simp [byteAt, hj, poke]
  · have hne : j ≠ k := by omega
    simp [byteAt, hj, hne]

/-- A copied string stands at its offset, followed by its terminator. -/
theorem byteAt_strcpy (page : Block) {off : ℕ} {s : List Byte} (h : off + s.length < blockSize)
    (j : ℕ) : byteAt (strcpy page off s) j =
      if h : off ≤ j ∧ j < off + s.length then s.get ⟨j - off, by omega⟩
      else if j = off + s.length then 0#8 else byteAt page j := by
  induction s generalizing page off with
  | nil =>
      have hno : ¬ (off ≤ j ∧ j < off + ([] : List Byte).length) := by simp
      have hoff : off < blockSize := h
      rw [dif_neg hno, strcpy, byteAt_poke page hoff, List.length_nil, Nat.add_zero]
  | cons c cs ih =>
      simp only [List.length_cons] at h ⊢
      rw [strcpy, ih _ (by omega), byteAt_poke page (by omega)]
      by_cases h1 : j = off
      · subst h1
        have hne : ¬ (j = j + 1 + cs.length) := by omega
        simp [hne]
      · by_cases h2 : off + 1 ≤ j ∧ j < off + 1 + cs.length
        · have h3 : off ≤ j ∧ j < off + (cs.length + 1) := by omega
          have hidx : j - off = j - (off + 1) + 1 := by omega
          simp [h2, h3, hidx]
        · have h3 : ¬ (off ≤ j ∧ j < off + (cs.length + 1)) := by omega
          have h4 : j = off + 1 + cs.length ↔ j = off + (cs.length + 1) := by omega
          rw [dif_neg h2, dif_neg h3, if_neg h1, ite_cond_congr (propext h4)]

theorem byteAt_setInodeid (page : Block) {i : ℕ} (hi : i < dirPageEntries) (id j : ℕ) :
    byteAt (setInodeid page i id) j =
      if j = 16 * i + 15 then BitVec.ofNat 8 (id / 256)
      else if j = 16 * i + 14 then BitVec.ofNat 8 id else byteAt page j := by
  simp only [dirPageEntries] at hi
  rw [setInodeid, byteAt_poke _ (by simp only [blockSize]; omega),
    byteAt_poke _ (by simp only [blockSize]; omega)]

/-- Comparing with a page string is comparing with the string read from the page. -/
theorem strcmpEq_iff (page : Block) {off n : ℕ} (h : off + n = blockSize) {s : List Byte}
    (hs : 0#8 ∉ s) : strcmpEq page off s = true ↔ cstrAt page off n = s := by
  induction n generalizing off s with
  | zero =>
      have hb : byteAt page off = 0#8 := dif_neg (by omega)
      cases s with
      | nil => simp [strcmpEq, cstrAt, hb]
      | cons c cs =>
          have hc : c ≠ 0#8 := fun he => hs (by simp [he])
          simp [strcmpEq, cstrAt, hb, Ne.symm hc]
  | succ n ih =>
      cases s with
      | nil =>
          by_cases hb : byteAt page off = 0#8 <;> simp [strcmpEq, cstrAt, hb]
      | cons c cs =>
          have hc : c ≠ 0#8 := fun he => hs (by simp [he])
          have hcs : 0#8 ∉ cs := fun he => hs (List.mem_cons_of_mem _ he)
          have := @ih (off + 1) (by omega) cs hcs
          by_cases hb : byteAt page off = 0#8
          · simp [strcmpEq, cstrAt, hb, Ne.symm hc]
          · simp [strcmpEq, cstrAt, hb, this]

theorem strcmpEq_nameAt (page : Block) {i : ℕ} (hi : i < dirPageEntries) {s : List Byte}
    (hs : 0#8 ∉ s) : strcmpEq page (16 * i) s = decide (nameAt page i = s) := by
  have hsum : 16 * i + (blockSize - 16 * i) = blockSize := by
    simp only [dirPageEntries, blockSize] at *
    omega
  rw [Bool.eq_iff_iff, strcmpEq_iff page hsum hs, decide_eq_true_eq]
  rfl

/-- A string that ends within `m` characters depends on those only. -/
theorem cstrAt_congr {page page' : Block} {off n m : ℕ} (hm : (cstrAt page off n).length < m)
    (hmn : m ≤ n) (h : ∀ j, off ≤ j → j < off + m → byteAt page' j = byteAt page j) :
    cstrAt page' off n = cstrAt page off n := by
  induction n generalizing off m with
  | zero => rfl
  | succ n ih =>
      have h0 := h off le_rfl (by omega)
      simp only [cstrAt, h0] at hm ⊢
      split
      · rfl
      · rename_i hb
        rw [if_neg hb, List.length_cons] at hm
        rw [ih (m := m - 1) (by omega) (by omega) fun j h1 h2 => h j (by omega) (by omega)]

/-- The name is terminated inside its 14 characters. -/
def NameFits (page : Block) (i : ℕ) : Prop := (nameAt page i).length < fsMaxFnameSz

theorem nameAt_congr {page page' : Block} {i : ℕ} (hi : i < dirPageEntries) (hf : NameFits page i)
    (h : ∀ j, 16 * i ≤ j → j < 16 * i + 14 → byteAt page' j = byteAt page j) :
    nameAt page' i = nameAt page i := by
  refine cstrAt_congr (m := 14) hf ?_ h
  simp only [dirPageEntries, blockSize] at *
  omega

section Store

variable (page : Block) {i : ℕ} (hi : i < dirPageEntries) {s : List Byte}
  (hlen : s.length < fsMaxFnameSz)

include hi hlen

/-- The bytes of the other entries stay. -/
theorem byteAt_store_of_outside (id : ℕ) {j : ℕ} (hj : j < 16 * i ∨ 16 * i + 16 ≤ j) :
    byteAt (setInodeid (strcpy page (16 * i) s) i id) j = byteAt page j := by
  simp only [dirPageEntries, fsMaxFnameSz] at hi hlen
  have h1 : ¬ (16 * i ≤ j ∧ j < 16 * i + s.length) := by omega
  rw [byteAt_setInodeid _ hi, if_neg (by omega), if_neg (by omega),
    byteAt_strcpy _ (by simp only [blockSize]; omega), dif_neg h1, if_neg (by omega)]

theorem nameAt_store_self (hs : 0#8 ∉ s) (id : ℕ) :
    nameAt (setInodeid (strcpy page (16 * i) s) i id) i = s := by
  have hi' := hi
  simp only [dirPageEntries, fsMaxFnameSz] at hi' hlen
  have hcmp : ∀ (t : List Byte) (off : ℕ), (∀ k (hk : k < t.length),
      byteAt (setInodeid (strcpy page (16 * i) s) i id) (off + k) = t.get ⟨k, hk⟩) →
      byteAt (setInodeid (strcpy page (16 * i) s) i id) (off + t.length) = 0#8 →
      strcmpEq (setInodeid (strcpy page (16 * i) s) i id) off t = true := by
    intro t
    induction t with
    | nil =>
        intro off _ h0
        simpa [strcmpEq] using h0
    | cons c cs ih =>
        intro off hk h0
        have hc := hk 0 (by simp)
        simp only [strcmpEq, Bool.and_eq_true, beq_iff_eq]
        refine ⟨by simpa using hc, ih (off + 1) (fun k hk' => ?_) ?_⟩
        · have := hk (k + 1) (by simp; omega)
          simpa [Nat.add_assoc, Nat.add_comm 1 k] using this
        · rw [List.length_cons] at h0
          rw [← h0]
          congr 1
          omega
  have := hcmp s (16 * i) (fun k hk => ?_) ?_
  · rwa [strcmpEq_nameAt _ hi hs, decide_eq_true_eq] at this
  · have hin : 16 * i ≤ 16 * i + k ∧ 16 * i + k < 16 * i + s.length := by omega
    rw [byteAt_setInodeid _ hi, if_neg (by omega), if_neg (by omega),
      byteAt_strcpy _ (by simp only [blockSize]; omega), dif_pos hin]
    simp
  · rw [byteAt_setInodeid _ hi, if_neg (by omega), if_neg (by omega),
      byteAt_strcpy _ (by simp only [blockSize]; omega), dif_neg (by omega), if_pos rfl]

theorem nameAt_store_of_ne (id : ℕ) {j : ℕ} (hj : j < dirPageEntries) (hne : j ≠ i)
    (hf : NameFits page j) :
    nameAt (setInodeid (strcpy page (16 * i) s) i id) j = nameAt page j :=
  nameAt_congr hj hf fun k h1 h2 =>
    byteAt_store_of_outside page hi hlen id (by omega)

theorem inodeidAt_store_of_ne (id : ℕ) {j : ℕ} (hne : j ≠ i) :
    inodeidAt (setInodeid (strcpy page (16 * i) s) i id) j = inodeidAt page j := by
  simp only [inodeidAt]
  rw [byteAt_store_of_outside page hi hlen id (by omega),
    byteAt_store_of_outside page hi hlen id (by omega)]

end Store

theorem inodeidAt_setInodeid (page : Block) {i : ℕ} (hi : i < dirPageEntries) {id : ℕ}
    (hid : id < 65536) : inodeidAt (setInodeid page i id) i = id := by
  simp only [inodeidAt, byteAt_setInodeid _ hi, if_true]
  rw [if_neg (by omega)]
  simp only [BitVec.toNat_ofNat]
  omega

/-! ## Scanning a page -/

/-- The scan of a page finds the first entry with the name. -/
theorem procurarNaPagina_eq (page : Block) {file : List Byte} (hs : 0#8 ∉ file) (i n : ℕ)
    (h : i + n ≤ dirPageEntries) : procurarNaPagina page file i n =
      ((List.range' i n).find? fun k => nameAt page k = file).map (inodeidAt page) := by
  induction n generalizing i with
  | zero => rfl
  | succ n ih =>
      rw [procurarNaPagina, List.range'_succ, List.find?_cons,
        strcmpEq_nameAt page (by omega) hs]
      by_cases hn : nameAt page i = file
      · simp [hn]
      · simp [hn, ih (i + 1) (by omega)]

theorem indiceNaPagina_isSome (page : Block) {name : List Byte} (hs : 0#8 ∉ name) (n : ℕ)
    (h : n ≤ dirPageEntries) :
    (indiceNaPagina page name n).isSome = (List.range n).any fun k => nameAt page k = name := by
  induction n with
  | zero => rfl
  | succ n ih =>
      rw [indiceNaPagina, strcmpEq_nameAt page (by omega) hs, List.range_succ, List.any_append]
      by_cases hn : nameAt page n = name
      · simp [hn]
      · simp [hn, ih (by omega)]

end ThreadScheduler.SnfsServer
