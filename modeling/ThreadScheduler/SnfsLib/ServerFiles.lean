import ThreadScheduler.SnfsLib.Client

/-!
# The requests and the files

A request for a piece of a file answers the bytes of the piece, and one to write lays its bytes over
the file. Two pieces one after the other are one piece.
-/
namespace ThreadScheduler.SnfsServer

variable {fs : Fs}

/-! ## Pieces of a file -/

namespace Fs

/-- Only the first `count` bytes are written. -/
theorem sobrepor_congr {s : List Byte} {offset count : ℕ} {buffer buffer' : ℕ → Byte}
    (h : ∀ k < count, buffer k = buffer' k) :
    sobrepor s offset count buffer = sobrepor s offset count buffer' := by
  have hmap : (List.range count).map buffer = (List.range count).map buffer' :=
    List.map_congr_left fun k hk => h k (List.mem_range.mp hk)
  rw [sobrepor, sobrepor, hmap]

@[simp] theorem length_sobrepor (s : List Byte) (offset count : ℕ) (buffer : ℕ → Byte) :
    (sobrepor s offset count buffer).length = max (min offset s.length + count) s.length := by
  rw [sobrepor_eq_map, List.length_map, List.length_range]

theorem sobrepor_zero {s : List Byte} {offset : ℕ} (h : offset ≤ s.length) (buffer : ℕ → Byte) :
    sobrepor s offset 0 buffer = s := by
  simp [sobrepor, Nat.min_eq_left h]

/-- A piece and the piece after it, laid over a file, are one piece. -/
theorem sobrepor_seguinte {s : List Byte} {offset : ℕ} (h : offset ≤ s.length) (a b : ℕ)
    (buffer : ℕ → Byte) :
    sobrepor (sobrepor s offset a buffer) (offset + a) b (fun k => buffer (a + k)) =
      sobrepor s offset (a + b) buffer := by
  have hmin : min offset s.length = offset := Nat.min_eq_left h
  have hmin' : min (offset + a) (sobrepor s offset a buffer).length = offset + a := by
    rw [length_sobrepor]
    omega
  have hlen : (s.take offset ++ (List.range a).map buffer).length = offset + a := by
    rw [List.length_append, List.length_take, List.length_map, List.length_range, hmin]
  have hs : sobrepor s offset a buffer =
      (s.take offset ++ (List.range a).map buffer) ++ s.drop (offset + a) := by
    rw [sobrepor, hmin]
  have htake : (sobrepor s offset a buffer).take (offset + a) =
      s.take offset ++ (List.range a).map buffer := by
    rw [hs, ← hlen, List.take_left]
  have hdrop : (sobrepor s offset a buffer).drop (offset + a + b) = s.drop (offset + a + b) := by
    rw [hs, List.drop_append,
      List.drop_eq_nil_of_le (hlen.le.trans (Nat.le_add_right _ _)), List.nil_append, hlen,
      List.drop_drop, Nat.add_sub_cancel_left]
  have hrange : (List.range (a + b)).map buffer =
      (List.range a).map buffer ++ (List.range b).map fun k => buffer (a + k) := by
    rw [List.range_add, List.map_append, List.map_map]
    rfl
  rw [sobrepor, hmin', htake, hdrop, sobrepor, hmin, hrange, Nat.add_assoc]
  simp only [List.append_assoc]

/-- A file of the model is an i-node with a type. -/
theorem modelo_some {file : ℕ} {s : List Byte} (h : fs.modelo file = some s) :
    fs.alocado file = true ∧ fs.typeAt file = .fsFile ∧ fs.bytes file = s := by
  rw [modelo] at h
  split at h
  · rename_i hfile
    exact ⟨hfile.1, hfile.2, Option.some.inj h⟩
  · cases h

theorem length_modelo {file : ℕ} {s : List Byte} (h : fs.modelo file = some s) :
    s.length = fs.sizeAt file := by
  rw [← (modelo_some h).2.2, bytes, List.length_map, List.length_range]

end Fs

end ThreadScheduler.SnfsServer

namespace ThreadScheduler.SnfsLib
open SnfsServer

/-! ## Pieces of a buffer -/

/-- Only the first `count` bytes are copied. -/
theorem memcpy_congr {dest src src' : ℕ → Byte} {pos count : ℕ} (h : ∀ k < count, src k = src' k) :
    memcpy dest pos src count = memcpy dest pos src' count := by
  funext k
  unfold memcpy
  split_ifs with hk
  · exact h (k - pos) (by omega)
  · rfl

@[simp] theorem memcpy_zero (dest src : ℕ → Byte) (pos : ℕ) : memcpy dest pos src 0 = dest := by
  funext k
  rw [memcpy, if_neg (by omega)]

theorem memcpy_of_lt {dest src : ℕ → Byte} {count k : ℕ} (h : k < count) :
    memcpy dest 0 src count k = src k := by
  rw [memcpy, if_pos ⟨Nat.zero_le k, by omega⟩, Nat.sub_zero]

/-- A piece and the piece after it, copied to a buffer, are one piece. -/
theorem memcpy_seguinte (dest : ℕ → Byte) (pos a b : ℕ) (src : ℕ → Byte) :
    memcpy (memcpy dest pos src a) (pos + a) (fun k => src (a + k)) b =
      memcpy dest pos src (a + b) := by
  funext k
  unfold memcpy
  by_cases hb : pos + a ≤ k ∧ k < pos + a + b
  · have hk : a + (k - (pos + a)) = k - pos := by omega
    rw [if_pos hb, if_pos (by omega), ← hk]
  · rw [if_neg hb]
    by_cases ha : pos ≤ k ∧ k < pos + a
    · rw [if_pos ha, if_pos (by omega)]
    · rw [if_neg ha, if_neg (by omega)]

/-! ## The requests -/

variable {fs : Fs} {fileId : ℕ} {s : List Byte}

section Exacto

variable (h : fs.Exacto) (hs : fs.modelo fileId = some s)
include h hs

/-- A handle of a file is its i-node. -/
theorem toInodeid_ficheiro : toInodeid fileId = fileId := by
  have hlt := h.consistent.lt_of_alocado (Fs.modelo_some hs).1
  unfold itabSize at hlt
  exact Nat.mod_eq_of_lt (by omega)

theorem servidorFs_read (lixo : Fs → ℕ → Block) {count : ℕ} (hcount : count ≤ maxReadData)
    (offset : ℕ) :
    ∃ fs', (servidorFs lixo).read fs fileId offset count =
        some (fs', some ((s.drop offset).take count)) ∧
      fs'.Exacto ∧ fs'.modelo = fs.modelo := by
  obtain ⟨fs', hread, hex, hm⟩ := h.fsRead_eq fileId offset count
  refine ⟨fs', ?_, hex, hm⟩
  rw [Modelo.ler, hs] at hread
  rw [servidorFs]
  dsimp only
  rw [snfsRead, if_pos hcount, toInodeid_ficheiro h hs, hread]
  rfl

/-- A write that fits in the blocks of an i-node is made, and the answer has the size after it. -/
theorem servidorFs_write (lixo : Fs → ℕ → Block) (offset : ℕ) {count : ℕ}
    (hcount : count ≤ maxWriteData)
    (hfits : min offset s.length + count ≤ blockSize * inodeNumBlks) (data : ℕ → Byte) :
    ∃ fs', (servidorFs lixo).write fs fileId offset count data =
        some (fs', some (fs'.sizeAt fileId)) ∧
      fs'.Exacto ∧ fs'.modelo =
        Function.update fs.modelo fileId (some (Fs.sobrepor s offset count data)) := by
  obtain ⟨-, ht, -⟩ := Fs.modelo_some hs
  rcases Fs.fsWrite_spec h.consistent fileId offset count data (lixo fs offset) with
    ⟨-, hno | hno⟩ | ⟨fs', hw, he⟩
  · exact absurd ht hno
  · rw [← Fs.length_modelo hs] at hno
    omega
  · obtain ⟨hex, hm⟩ := h.escrito he
    refine ⟨fs', ?_, hex, by rw [hm, hs]; rfl⟩
    have ht' : fs'.typeAt fileId ≠ .unset := by
      rw [he.type fileId, ht]
      decide
    obtain ⟨attrs, hattrs⟩ := he.consistent.fsGetAttrs_of_type ht'
    rw [servidorFs]
    dsimp only
    rw [snfsWrite, if_pos hcount, toInodeid_ficheiro h hs, hw, Option.bind_some]
    dsimp only
    rw [if_pos rfl, hattrs, ← Fs.fsGetAttrs_size hattrs]
    rfl

end Exacto

end ThreadScheduler.SnfsLib
