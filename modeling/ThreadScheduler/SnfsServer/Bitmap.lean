import ThreadScheduler.SnfsServer.Block

/-!
# Bitmaps

The `BMAP_*` macros and `fsi_bmap_find_free` of `fs.c`, over the 512 characters
of a map. Bit `num` is bit `num % 8` of character `num / 8`.
-/
namespace ThreadScheduler.SnfsServer

/-- The number of bits a map has. -/
abbrev bmapBits : ℕ := 8 * blockSize

/-- `BMAP_SET`. The source does not check `num`: past the map it would write to the field of
`fs_` behind it, which is left out. -/
def bmapSet (bmap : Block) (num : ℕ) : Block := fun i =>
  if i.val = num / 8 then bmap i ||| (0x1#8 <<< (num % 8)) else bmap i

/-- `BMAP_CLR`, with the same left out. -/
def bmapClr (bmap : Block) (num : ℕ) : Block := fun i =>
  if i.val = num / 8 then bmap i &&& ~~~(0x1#8 <<< (num % 8)) else bmap i

/-- `BMAP_ISSET`. Past the map the source would read the field of `fs_` behind it; here such a
bit is clear. -/
def bmapIsSet (bmap : Block) (num : ℕ) : Bool :=
  if h : num / 8 < blockSize then bmap ⟨num / 8, h⟩ &&& (0x1#8 <<< (num % 8)) != 0 else false

/-- `fsi_bmap_find_free`: the first clear bit below `size`. -/
def fsiBmapFindFree (bmap : Block) (size : ℕ) : Option ℕ :=
  (List.range size).find? fun i => !bmapIsSet bmap i

theorem mask_getLsbD {i k : ℕ} (hi : i < 8) :
    (0x1#8 <<< k).getLsbD i = decide (i = k) := by
  simp only [BitVec.getLsbD_shiftLeft, BitVec.getLsbD_one, hi, decide_true, Bool.true_and]
  by_cases h : i = k
  · simp [h]
  · by_cases hlt : i < k
    · simp [h, hlt]
    · have : i - k ≠ 0 := by omega
      simp [h, this]

theorem mask_ne_zero_iff (x : Byte) {k : ℕ} (hk : k < 8) :
    (x &&& (0x1#8 <<< k) != 0) = x.getLsbD k := by
  cases hx : x.getLsbD k with
  | false =>
      have hz : x &&& (0x1#8 <<< k) = 0#8 := by
        apply BitVec.eq_of_getLsbD_eq
        intro i hi
        rw [BitVec.getLsbD_and, mask_getLsbD hi, BitVec.getLsbD_zero]
        by_cases hik : i = k
        · rw [hik, hx, Bool.false_and]
        · simp [hik]
      simp [hz]
  | true =>
      rw [bne_iff_ne]
      intro hz
      have := congrArg (fun y => y.getLsbD k) hz
      simp [mask_getLsbD hk, hx] at this

theorem bmapIsSet_eq {bmap : Block} {num : ℕ} (h : num / 8 < blockSize) :
    bmapIsSet bmap num = (bmap ⟨num / 8, h⟩).getLsbD (num % 8) := by
  rw [bmapIsSet, dif_pos h, mask_ne_zero_iff _ (Nat.mod_lt _ (by decide))]

theorem bmapIsSet_of_ge (bmap : Block) {num : ℕ} (h : bmapBits ≤ num) :
    bmapIsSet bmap num = false := dif_neg (by simp only [bmapBits] at h; omega)

theorem lt_of_bmapIsSet {bmap : Block} {num : ℕ} (h : bmapIsSet bmap num = true) :
    num < bmapBits := by
  by_contra hge
  rw [bmapIsSet_of_ge bmap (by omega)] at h
  exact Bool.noConfusion h

theorem bmapIsSet_set {bmap : Block} {a : ℕ} (ha : a < bmapBits) (b : ℕ) :
    bmapIsSet (bmapSet bmap a) b = (decide (b = a) || bmapIsSet bmap b) := by
  by_cases hb : b < bmapBits
  · have hb' : b / 8 < blockSize := by simp only [bmapBits] at hb; omega
    rw [bmapIsSet_eq hb', bmapIsSet_eq hb', bmapSet]
    by_cases hq : b / 8 = a / 8
    · have hiff : b % 8 = a % 8 ↔ b = a := by omega
      rw [if_pos hq, BitVec.getLsbD_or, mask_getLsbD (Nat.mod_lt _ (by decide)), Bool.or_comm]
      simp only [hiff]
    · have hne : b ≠ a := fun h => hq (by rw [h])
      simp [hq, hne]
  · have hge : bmapBits ≤ b := by omega
    have hne : b ≠ a := by omega
    simp [bmapIsSet_of_ge _ hge, hne]

theorem bmapSet_of_ge (bmap : Block) {num : ℕ} (h : bmapBits ≤ num) : bmapSet bmap num = bmap := by
  funext i
  have hi := i.isLt
  simp only [bmapBits, blockSize] at h hi
  rw [bmapSet, if_neg (by omega)]

/-- A bit that is set stays set, whichever bit is set next. -/
theorem bmapIsSet_set_of_set {bmap : Block} {b : ℕ} (h : bmapIsSet bmap b = true) (a : ℕ) :
    bmapIsSet (bmapSet bmap a) b = true := by
  rcases Nat.lt_or_ge a bmapBits with ha | ha
  · rw [bmapIsSet_set ha, h, Bool.or_true]
  · rw [bmapSet_of_ge bmap ha, h]

theorem bmapIsSet_clr (bmap : Block) (a b : ℕ) :
    bmapIsSet (bmapClr bmap a) b = (!decide (b = a) && bmapIsSet bmap b) := by
  by_cases hb : b < bmapBits
  · have hb' : b / 8 < blockSize := by simp only [bmapBits] at hb; omega
    rw [bmapIsSet_eq hb', bmapIsSet_eq hb', bmapClr]
    by_cases hq : b / 8 = a / 8
    · have hiff : b % 8 = a % 8 ↔ b = a := by omega
      have hm : b % 8 < 8 := Nat.mod_lt _ (by decide)
      rw [if_pos hq, BitVec.getLsbD_and, BitVec.getLsbD_not, mask_getLsbD hm, Bool.and_comm]
      simp only [hiff, hm, decide_true, Bool.true_and]
    · have hne : b ≠ a := fun h => hq (by rw [h])
      simp [hq, hne]
  · have hge : bmapBits ≤ b := by omega
    simp [bmapIsSet_of_ge _ hge]

theorem fsiBmapFindFree_eq_some {bmap : Block} {size b : ℕ}
    (h : fsiBmapFindFree bmap size = some b) : b < size ∧ bmapIsSet bmap b = false := by
  have hm := List.mem_of_find?_eq_some h
  have hp := List.find?_some h
  exact ⟨List.mem_range.mp hm, by simpa using hp⟩

theorem fsiBmapFindFree_le {bmap : Block} {size b c : ℕ} (h : fsiBmapFindFree bmap size = some b)
    (hfree : bmapIsSet bmap c = false) : b ≤ c := by
  by_contra hlt
  have := (List.find?_range_eq_some.mp h).2.2 c (by omega)
  simp [hfree] at this

theorem fsiBmapFindFree_eq_none {bmap : Block} {size : ℕ} :
    fsiBmapFindFree bmap size = none ↔ ∀ b < size, bmapIsSet bmap b = true := by
  simp [fsiBmapFindFree]

end ThreadScheduler.SnfsServer
