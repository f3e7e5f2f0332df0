import ThreadScheduler.SnfsLib.ReadLoop

/-!
# Transfers in pieces

The loops of `my_read` and `my_write` send one request for each 1024 bytes. What they leave is what
one transfer of all the bytes would leave.
-/
namespace ThreadScheduler.SnfsLib
open SnfsServer

variable {lixo : Fs → ℕ → Block} {fileId n : ℕ} {s : List Byte} {buffer : ℕ → Byte}

theorem toInt_contador {counter : BitVec 32} (h : counter.toNat < 2 ^ 31) :
    counter.toInt = counter.toNat :=
  BitVec.toInt_eq_toNat_of_lt (by omega)

/-! ## Writing -/

/-- What `k` bytes of the loop of `my_write` leave: they are over the file. -/
structure Gravado (fileId : ℕ) (buffer : ℕ → Byte) (s : List Byte) (k : ℕ) (l l' : Escrita Fs) :
    Prop where
  exacto : l'.servidor.Exacto
  modelo : l'.servidor.modelo = Function.update l.servidor.modelo fileId
    (some (Fs.sobrepor s l.writeOffset.toNat k fun j => buffer (l.counter.toNat + j)))
  writeOffset : l'.writeOffset.toNat = l.writeOffset.toNat + k
  numBytes : l'.numBytes.toNat = l.numBytes.toNat - k
  counter : l'.counter.toNat = l.counter.toNat + k
  size : l'.size =
    if k = 0 then l.size else .ofNat 32 (max (l.writeOffset.toNat + k) s.length)

namespace Gravado

variable {l l₁ l₂ : Escrita Fs}

theorem zero (h : l.servidor.Exacto) (hs : l.servidor.modelo fileId = some s)
    (hoff : l.writeOffset.toNat ≤ s.length) : Gravado fileId buffer s 0 l l where
  exacto := h
  modelo := by rw [Fs.sobrepor_zero hoff, ← hs, Function.update_eq_self]
  writeOffset := rfl
  numBytes := rfl
  counter := rfl
  size := by rw [if_pos rfl]

theorem modelo_ficheiro {k : ℕ} (h : Gravado fileId buffer s k l l₁) :
    l₁.servidor.modelo fileId =
      some (Fs.sobrepor s l.writeOffset.toNat k fun j => buffer (l.counter.toNat + j)) := by
  rw [h.modelo, Function.update_self]

/-- Some bytes, and those after them. -/
theorem trans {a b : ℕ} (hoff : l.writeOffset.toNat ≤ s.length)
    (h₁ : Gravado fileId buffer s a l l₁)
    (h₂ : Gravado fileId buffer
      (Fs.sobrepor s l.writeOffset.toNat a fun j => buffer (l.counter.toNat + j)) b l₁ l₂) :
    Gravado fileId buffer s (a + b) l l₂ where
  exacto := h₂.exacto
  modelo := by
    have hseg := Fs.sobrepor_seguinte hoff a b fun j => buffer (l.counter.toNat + j)
    simp only [← Nat.add_assoc] at hseg
    rw [h₂.modelo, h₁.modelo, Function.update_idem, h₁.writeOffset, h₁.counter, hseg]
  writeOffset := by rw [h₂.writeOffset, h₁.writeOffset, Nat.add_assoc]
  numBytes := by rw [h₂.numBytes, h₁.numBytes, Nat.sub_sub]
  counter := by rw [h₂.counter, h₁.counter, Nat.add_assoc]
  size := by
    rw [h₂.size, h₁.size, h₁.writeOffset, Fs.length_sobrepor]
    by_cases hb : b = 0
    · subst hb
      rfl
    · rw [if_neg hb, if_neg (by omega)]
      refine congrArg (BitVec.ofNat 32) ?_
      omega

end Gravado

theorem myWriteLoop_zero {servidor : Servidor Fs} {l : Escrita Fs} (h : l.numBytes.toNat = 0)
    (hcounter : l.counter.toNat < 2 ^ 31) :
    myWriteLoop servidor fileId buffer (n + 1) l =
      some (l, ((l.counter.toNat + l.numBytes.toNat : ℕ) : ℤ)) := by
  rw [myWriteLoop, if_pos (BitVec.eq_of_toNat_eq h), toInt_contador hcounter, h, Nat.add_zero]

/-- One request writes one piece. -/
theorem myWriteLoop_bloco (lixo : Fs → ℕ → Block) (buffer : ℕ → Byte) {l : Escrita Fs}
    (h : l.servidor.Exacto)
    (hs : l.servidor.modelo fileId = some s) (hoff : l.writeOffset.toNat ≤ s.length)
    (hfits : l.writeOffset.toNat + l.numBytes.toNat ≤ blockSize * inodeNumBlks)
    (hcounter : l.counter.toNat + l.numBytes.toNat < 2 ^ 31)
    (hblk : min l.wBytes.toNat l.numBytes.toNat = min maxWriteData l.numBytes.toNat)
    (hne : l.numBytes.toNat ≠ 0) :
    ∃ l', (∀ n, myWriteLoop (servidorFs lixo) fileId buffer (n + 1) l =
        myWriteLoop (servidorFs lixo) fileId buffer n l') ∧
      Gravado fileId buffer s (min maxWriteData l.numBytes.toNat) l l' ∧
      l'.wBytes.toNat = min maxWriteData l.numBytes.toNat := by
  have hzero : l.numBytes ≠ 0 := fun he => hne (by rw [he]; rfl)
  have hw := toNat_bloco hblk
  generalize hwb : (if l.numBytes < l.wBytes then l.numBytes else l.wBytes) = wBytes at hw
  generalize hdata : memcpy (fun _ => 0#8) 0 (fun k => buffer (l.counter.toNat + k))
    wBytes.toNat = data
  rw [← hw]
  have hle : wBytes.toNat ≤ l.numBytes.toNat := hw.le.trans (Nat.min_le_right _ _)
  have hlim : blockSize * inodeNumBlks = 5120 := rfl
  obtain ⟨fs, hwrite, hex, hm⟩ := servidorFs_write h hs lixo l.writeOffset.toNat
    (hw.le.trans (Nat.min_le_left _ _)) (by omega) data
  have hsob : Fs.sobrepor s l.writeOffset.toNat wBytes.toNat data =
      Fs.sobrepor s l.writeOffset.toNat wBytes.toNat fun k => buffer (l.counter.toNat + k) :=
    Fs.sobrepor_congr fun k hk => by rw [← hdata, memcpy_of_lt hk]
  rw [hsob] at hm
  refine ⟨⟨fs, .ofNat 32 (fs.sizeAt fileId), l.writeOffset + wBytes, l.numBytes - wBytes, wBytes,
    l.counter + wBytes⟩, fun n => ?_, ⟨hex, hm, ?_, ?_, ?_, ?_⟩, rfl⟩
  · rw [myWriteLoop, if_neg hzero]
    dsimp only
    rw [hwb, hdata, hwrite, Option.bind_some]
  · exact BitVec.toNat_add_of_lt (by omega)
  · exact BitVec.toNat_sub_of_le (BitVec.le_def.mpr hle)
  · exact BitVec.toNat_add_of_lt (by omega)
  · have hs' : fs.modelo fileId = some (Fs.sobrepor s l.writeOffset.toNat wBytes.toNat
        fun k => buffer (l.counter.toNat + k)) := by
      rw [hm, Function.update_self]
    have hpos : wBytes.toNat ≠ 0 := by
      rw [hw]
      unfold maxWriteData
      omega
    rw [if_neg hpos, ← Fs.length_modelo hs', Fs.length_sobrepor, Nat.min_eq_left hoff]

/-- The loop writes all its bytes, in as many pieces as it takes. -/
theorem myWriteLoop_spec (lixo : Fs → ℕ → Block) (buffer : ℕ → Byte) {l : Escrita Fs}
    (h : l.servidor.Exacto)
    (hs : l.servidor.modelo fileId = some s) (hoff : l.writeOffset.toNat ≤ s.length)
    (hfits : l.writeOffset.toNat + l.numBytes.toNat ≤ blockSize * inodeNumBlks)
    (hcounter : l.counter.toNat + l.numBytes.toNat < 2 ^ 31)
    (hblk : min l.wBytes.toNat l.numBytes.toNat = min maxWriteData l.numBytes.toNat)
    (hn : l.numBytes.toNat ≤ maxWriteData * n) :
    ∃ l', myWriteLoop (servidorFs lixo) fileId buffer (n + 1) l =
        some (l', ((l.counter.toNat + l.numBytes.toNat : ℕ) : ℤ)) ∧
      Gravado fileId buffer s l.numBytes.toNat l l' := by
  induction n generalizing l s with
  | zero =>
      have hzero : l.numBytes.toNat = 0 := by omega
      exact ⟨l, myWriteLoop_zero hzero (by omega), hzero ▸ Gravado.zero h hs hoff⟩
  | succ n ih =>
      by_cases hzero : l.numBytes.toNat = 0
      · exact ⟨l, myWriteLoop_zero hzero (by omega), hzero ▸ Gravado.zero h hs hoff⟩
      obtain ⟨l₁, hstep, hg, hw⟩ :=
        myWriteLoop_bloco lixo buffer h hs hoff hfits hcounter hblk hzero
      have hsum : min maxWriteData l.numBytes.toNat +
          (l.numBytes.toNat - min maxWriteData l.numBytes.toNat) = l.numBytes.toNat := by omega
      obtain ⟨l₂, hloop, hg₂⟩ := ih hg.exacto hg.modelo_ficheiro
        (by rw [Fs.length_sobrepor, hg.writeOffset]; omega)
        (by rw [hg.writeOffset, hg.numBytes]; omega) (by rw [hg.counter, hg.numBytes]; omega)
        (by rw [hw, hg.numBytes]; omega) (by rw [hg.numBytes]; unfold maxWriteData at *; omega)
      rw [hg.numBytes] at hg₂
      refine ⟨l₂, ?_, hsum ▸ hg.trans hoff hg₂⟩
      rw [hstep, hloop, hg.counter, hg.numBytes, Nat.add_assoc, hsum]

/-! ## Reading -/

/-- What `k` bytes of the loop of `my_read` leave: they are in the buffer. -/
structure Lido (s : List Byte) (k : ℕ) (l l' : Leitura Fs) : Prop where
  exacto : l'.servidor.Exacto
  modelo : l'.servidor.modelo = l.servidor.modelo
  readOffset : l'.readOffset.toNat = l.readOffset.toNat + k
  numBytes : l'.numBytes.toNat = l.numBytes.toNat - k
  counter : l'.counter.toNat = l.counter.toNat + k
  buffer : l'.buffer =
    memcpy l.buffer l.counter.toNat (fun j => s.getD (l.readOffset.toNat + j) 0#8) k

namespace Lido

variable {l l₁ l₂ : Leitura Fs}

theorem zero (h : l.servidor.Exacto) : Lido s 0 l l where
  exacto := h
  modelo := rfl
  readOffset := rfl
  numBytes := rfl
  counter := rfl
  buffer := by rw [memcpy_zero]

/-- Some bytes, and those after them. -/
theorem trans {a b : ℕ} (h₁ : Lido s a l l₁) (h₂ : Lido s b l₁ l₂) : Lido s (a + b) l l₂ where
  exacto := h₂.exacto
  modelo := h₂.modelo.trans h₁.modelo
  readOffset := by rw [h₂.readOffset, h₁.readOffset, Nat.add_assoc]
  numBytes := by rw [h₂.numBytes, h₁.numBytes, Nat.sub_sub]
  counter := by rw [h₂.counter, h₁.counter, Nat.add_assoc]
  buffer := by
    have hseg := memcpy_seguinte l.buffer l.counter.toNat a b
      fun j => s.getD (l.readOffset.toNat + j) 0#8
    simp only [← Nat.add_assoc] at hseg
    rw [h₂.buffer, h₁.buffer, h₁.readOffset, h₁.counter, hseg]

end Lido

theorem myReadLoop_zero {servidor : Servidor Fs} {l : Leitura Fs} (h : l.numBytes.toNat = 0)
    (hcounter : l.counter.toNat < 2 ^ 31) :
    myReadLoop servidor fileId (n + 1) l =
      some (l, ((l.counter.toNat + l.numBytes.toNat : ℕ) : ℤ)) := by
  rw [myReadLoop, if_pos (BitVec.eq_of_toNat_eq h), toInt_contador hcounter, h, Nat.add_zero]

/-- One request reads one piece. -/
theorem myReadLoop_bloco (lixo : Fs → ℕ → Block) {l : Leitura Fs} (h : l.servidor.Exacto)
    (hs : l.servidor.modelo fileId = some s) (hlen : s.length < 2 ^ 31)
    (hfits : l.readOffset.toNat + l.numBytes.toNat ≤ s.length)
    (hcounter : l.counter.toNat + l.numBytes.toNat < 2 ^ 31)
    (hblk : min l.rBytes.toNat l.numBytes.toNat = min maxReadData l.numBytes.toNat)
    (hne : l.numBytes.toNat ≠ 0) :
    ∃ l', (∀ n, myReadLoop (servidorFs lixo) fileId (n + 1) l =
        myReadLoop (servidorFs lixo) fileId n l') ∧
      Lido s (min maxReadData l.numBytes.toNat) l l' ∧
      l'.rBytes.toNat = min maxReadData l.numBytes.toNat := by
  have hzero : l.numBytes ≠ 0 := fun he => hne (by rw [he]; rfl)
  have hr := toNat_bloco hblk
  generalize hrb : (if l.numBytes < l.rBytes then l.numBytes else l.rBytes) = rBytes at hr
  rw [← hr]
  have hle : rBytes.toNat ≤ l.numBytes.toNat := hr.le.trans (Nat.min_le_right _ _)
  obtain ⟨fs, hread, hex, hm⟩ := servidorFs_read h hs lixo
    (hr.le.trans (Nat.min_le_left _ _)) l.readOffset.toNat
  generalize hdata : (s.drop l.readOffset.toNat).take rBytes.toNat = data at hread
  -- the answer has all that was asked for
  have hnread : data.length = rBytes.toNat := by
    rw [← hdata, List.length_take, List.length_drop]
    omega
  have hnread' : BitVec.ofNat 32 data.length = rBytes := by
    rw [hnread, BitVec.ofNat_toNat, BitVec.setWidth_eq]
  have hgetD : ∀ k < rBytes.toNat, data.getD k 0#8 = s.getD (l.readOffset.toNat + k) 0#8 := by
    intro k hk
    rw [← hdata, List.getD_eq_getElem?_getD, List.getElem?_take_of_lt hk, List.getElem?_drop,
      List.getD_eq_getElem?_getD]
  refine ⟨⟨fs, l.readOffset + rBytes, l.numBytes - rBytes, rBytes,
    memcpy l.buffer l.counter.toNat (fun k => data.getD k 0#8) rBytes.toNat, l.counter + rBytes⟩,
    fun n => ?_, ⟨hex, hm, ?_, ?_, ?_, memcpy_congr hgetD⟩, rfl⟩
  · rw [myReadLoop, if_neg hzero]
    dsimp only
    rw [hrb, hread, Option.bind_some]
    dsimp only
    rw [hnread']
  · exact BitVec.toNat_add_of_lt (by omega)
  · exact BitVec.toNat_sub_of_le (BitVec.le_def.mpr hle)
  · exact BitVec.toNat_add_of_lt (by omega)

/-- The loop reads all its bytes, in as many pieces as it takes. -/
theorem myReadLoop_spec (lixo : Fs → ℕ → Block) {l : Leitura Fs} (h : l.servidor.Exacto)
    (hs : l.servidor.modelo fileId = some s) (hlen : s.length < 2 ^ 31)
    (hfits : l.readOffset.toNat + l.numBytes.toNat ≤ s.length)
    (hcounter : l.counter.toNat + l.numBytes.toNat < 2 ^ 31)
    (hblk : min l.rBytes.toNat l.numBytes.toNat = min maxReadData l.numBytes.toNat)
    (hn : l.numBytes.toNat ≤ maxReadData * n) :
    ∃ l', myReadLoop (servidorFs lixo) fileId (n + 1) l =
        some (l', ((l.counter.toNat + l.numBytes.toNat : ℕ) : ℤ)) ∧
      Lido s l.numBytes.toNat l l' := by
  induction n generalizing l with
  | zero =>
      have hzero : l.numBytes.toNat = 0 := by omega
      exact ⟨l, myReadLoop_zero hzero (by omega), hzero ▸ Lido.zero h⟩
  | succ n ih =>
      by_cases hzero : l.numBytes.toNat = 0
      · exact ⟨l, myReadLoop_zero hzero (by omega), hzero ▸ Lido.zero h⟩
      obtain ⟨l₁, hstep, hg, hr⟩ :=
        myReadLoop_bloco lixo h hs hlen hfits hcounter hblk hzero
      have hsum : min maxReadData l.numBytes.toNat +
          (l.numBytes.toNat - min maxReadData l.numBytes.toNat) = l.numBytes.toNat := by omega
      obtain ⟨l₂, hloop, hg₂⟩ := ih hg.exacto (by rw [hg.modelo]; exact hs)
        (by rw [hg.readOffset, hg.numBytes]; omega) (by rw [hg.counter, hg.numBytes]; omega)
        (by rw [hr, hg.numBytes]; omega) (by rw [hg.numBytes]; unfold maxReadData at *; omega)
      rw [hg.numBytes] at hg₂
      refine ⟨l₂, ?_, hsum ▸ hg.trans hg₂⟩
      rw [hstep, hloop, hg.counter, hg.numBytes, Nat.add_assoc, hsum]

/-! ## The two calls -/

/-- `my_write` has written `n` bytes over the file, all at once. -/
structure EscritaInteira (fs fs' : Fs) (fdesc fdesc' : FileDesc) (s : List Byte)
    (buffer : ℕ → Byte) (n : ℕ) : Prop where
  modelo : fs'.modelo = Function.update fs.modelo fdesc.fileId
    (some (Fs.sobrepor s fdesc.writeOffset.toNat n buffer))
  size : fdesc'.size.toNat = if n = 0 then fdesc.size.toNat else fs'.sizeAt fdesc.fileId
  writeOffset : fdesc'.writeOffset.toNat = fdesc.writeOffset.toNat + n
  readOffset : fdesc'.readOffset = fdesc.readOffset

/-- `my_read` has read `m` bytes of the file, all at once. -/
structure LeituraInteira (fs fs' : Fs) (fdesc fdesc' : FileDesc) (s : List Byte)
    (buffer buffer' : ℕ → Byte) (m : ℕ) : Prop where
  modelo : fs'.modelo = fs.modelo
  buffer : ∀ k, buffer' k =
    if k < m then s.getD (fdesc.readOffset.toNat + k) 0#8 else buffer k
  readOffset : fdesc'.readOffset.toNat = fdesc.readOffset.toNat + m
  size : fdesc'.size = fdesc.size
  writeOffset : fdesc'.writeOffset = fdesc.writeOffset

theorem queueNodeGet_fileId {queue : List FileDesc} {fdesc : FileDesc}
    (h : queueNodeGet queue fileId = some fdesc) : fdesc.fileId = fileId := by
  simpa using List.find?_some h

/-- An i-node has ten blocks. -/
theorem length_le_of_modelo {fs : Fs} (h : fs.Exacto) (hs : fs.modelo fileId = some s) :
    s.length ≤ blockSize * inodeNumBlks := by
  rw [Fs.length_modelo hs]
  exact h.consistent.inodes.full fileId

/-- Where the descriptor has the size of the file, no more is asked for than is there. -/
theorem toNat_aLer {fdesc : FileDesc} {numBytes : BitVec 32} (hsize : fdesc.size.toNat = s.length)
    (hoff : fdesc.readOffset.toNat ≤ s.length) (hnum : numBytes.toNat < 2 ^ 31)
    (hlen : s.length < 2 ^ 31) :
    (aLer fdesc numBytes).toNat = min numBytes.toNat (s.length - fdesc.readOffset.toNat) := by
  have hsum : (fdesc.readOffset + numBytes).toNat = fdesc.readOffset.toNat + numBytes.toNat :=
    BitVec.toNat_add_of_lt (by omega)
  have hsub : (fdesc.size - fdesc.readOffset).toNat = fdesc.size.toNat - fdesc.readOffset.toNat :=
    BitVec.toNat_sub_of_le (BitVec.le_def.mpr (by omega))
  rw [aLer]
  split_ifs with hlt
  · rw [BitVec.lt_def, hsum] at hlt
    rw [hsub]
    omega
  · rw [BitVec.lt_def, hsum] at hlt
    omega

section Chamadas

variable {fs : Fs} {c : Cliente} {fdesc : FileDesc} (h : fs.Exacto)
  (hlib : c.libInitted = true) (hfd : queueNodeGet c.openFilesList fileId = some fdesc)
  (hs : fs.modelo fileId = some s)
include h hlib hfd hs

theorem myWrite_inteira {numBytes : BitVec 32} (hoff : fdesc.writeOffset.toNat ≤ s.length)
    (hfits : fdesc.writeOffset.toNat + numBytes.toNat ≤ blockSize * inodeNumBlks)
    (hn : numBytes.toNat ≤ maxWriteData * n) :
    ∃ c' fs' fdesc', myWrite (servidorFs lixo) (n + 1) c fs fileId buffer numBytes =
        some (c', fs', (numBytes.toNat : ℤ)) ∧
      queueNodeGet c'.openFilesList fileId = some fdesc' ∧
      EscritaInteira fs fs' fdesc fdesc' s buffer numBytes.toNat := by
  have hlim : blockSize * inodeNumBlks = 5120 := rfl
  obtain rfl := queueNodeGet_fileId hfd
  obtain ⟨l, hloop, hg⟩ := myWriteLoop_spec lixo buffer (n := n)
    (l := ⟨fs, fdesc.size, fdesc.writeOffset, numBytes,
      if BitVec.ofNat 32 maxWriteData < numBytes then .ofNat 32 maxWriteData else numBytes, 0⟩)
    h hs hoff hfits (by simp; omega) (min_primeiro numBytes) hn
  have hzero : (0 : BitVec 32).toNat = 0 := rfl
  have hficheiro := hg.modelo_ficheiro
  have hsize := hg.size
  simp only [hzero, Nat.zero_add] at hloop hficheiro hsize
  refine ⟨{ c with
      openFilesList := queueNodeSet c.openFilesList
        { fdesc with size := l.size, writeOffset := l.writeOffset } }, l.servidor,
    { fdesc with size := l.size, writeOffset := l.writeOffset }, ?_, ?_,
    ⟨?_, ?_, hg.writeOffset, rfl⟩⟩
  · rw [myWrite, if_neg (by simp [hlib]), hfd]
    dsimp only
    rw [hloop]
    rfl
  · exact queueNodeGet_set hfd
  · rw [hg.modelo]
    simp only [hzero, Nat.zero_add]
  · dsimp only
    rw [hsize, ← Fs.length_modelo hficheiro, Fs.length_sobrepor, Nat.min_eq_left hoff]
    split_ifs with hn
    · rfl
    · have hs' := length_le_of_modelo h hs
      rw [BitVec.toNat_ofNat, Nat.mod_eq_of_lt (by omega)]

theorem myRead_inteira {numBytes : BitVec 32} (hsize : fdesc.size.toNat = s.length)
    (hoff : fdesc.readOffset.toNat ≤ s.length) (hnum : numBytes.toNat < 2 ^ 31)
    (hn : numBytes.toNat ≤ maxReadData * n) :
    ∃ c' fs' fdesc' buffer', myRead (servidorFs lixo) (n + 1) c fs fileId buffer numBytes =
        some (c', fs', buffer',
          ((min numBytes.toNat (s.length - fdesc.readOffset.toNat) : ℕ) : ℤ)) ∧
      queueNodeGet c'.openFilesList fileId = some fdesc' ∧
      LeituraInteira fs fs' fdesc fdesc' s buffer buffer'
        (min numBytes.toNat (s.length - fdesc.readOffset.toNat)) := by
  have hlim : blockSize * inodeNumBlks = 5120 := rfl
  have hs' := length_le_of_modelo h hs
  have haLer := toNat_aLer hsize hoff hnum (by omega)
  by_cases hfim : fdesc.readOffset = fdesc.size
  · have hzero : min numBytes.toNat (s.length - fdesc.readOffset.toNat) = 0 := by
      rw [hfim, hsize, Nat.sub_self, Nat.min_zero]
    rw [hzero]
    refine ⟨c, fs, fdesc, buffer, ?_, hfd, rfl, fun k => ?_, rfl, rfl, rfl⟩
    · rw [myRead, if_neg (by simp [hlib]), hfd]
      dsimp only
      rw [if_pos hfim]
      rfl
    · rw [if_neg (Nat.not_lt_zero k)]
  obtain rfl := queueNodeGet_fileId hfd
  obtain ⟨l, hloop, hg⟩ := myReadLoop_spec lixo (n := n)
    (l := ⟨fs, fdesc.readOffset, aLer fdesc numBytes,
      if BitVec.ofNat 32 maxReadData < aLer fdesc numBytes then .ofNat 32 maxReadData
        else aLer fdesc numBytes, buffer, 0⟩) h hs (by omega)
    (by dsimp only; rw [haLer]; omega) (by simp; omega) (min_primeiro (aLer fdesc numBytes))
    (by dsimp only; rw [haLer]; omega)
  have hzero : (0 : BitVec 32).toNat = 0 := rfl
  have hbuffer := hg.buffer
  have hoffset := hg.readOffset
  simp only [hzero, Nat.zero_add, haLer] at hloop hbuffer hoffset
  refine ⟨{ c with
      openFilesList := queueNodeSet c.openFilesList
        { fdesc with readOffset := l.readOffset } }, l.servidor,
    { fdesc with readOffset := l.readOffset }, l.buffer, ?_, ?_,
    ⟨hg.modelo, fun k => ?_, hoffset, rfl, rfl⟩⟩
  · rw [myRead, if_neg (by simp [hlib]), hfd]
    dsimp only
    rw [if_neg hfim, ← aLer, hloop]
    rfl
  · exact queueNodeGet_set hfd
  · rw [hbuffer, memcpy, Nat.sub_zero, Nat.zero_add]
    simp only [Nat.zero_le, true_and]

end Chamadas

/-- In every state that calls reach which append nothing and copy no file onto itself, `my_write`
writes all its bytes as one transfer would, and its descriptor has the size of the file if there is
a byte to write; and where the descriptor has the size of the file, `my_read` reads as one transfer
would all the bytes that are there. -/
theorem transferencias_inteiras (pilha : ℕ → ℤ) (ops : List FsOp)
    (hops : Runs.Permitted FsOp.exec FsOp.SemAnexo (fsFormat (fsNew Fs.discoServidor pilha)) ops)
    {fs : Fs} {rs : List Resposta}
    (hrun : Runs.run FsOp.exec (fsFormat (fsNew Fs.discoServidor pilha)) ops = some (fs, rs))
    {c : Cliente} {fdesc : FileDesc} (hlib : c.libInitted = true)
    (hfd : queueNodeGet c.openFilesList fileId = some fdesc) (hs : fs.modelo fileId = some s)
    (lixo : Fs → ℕ → Block) (buffer : ℕ → Byte) (numBytes : BitVec 32) :
    (fdesc.writeOffset.toNat ≤ s.length →
      fdesc.writeOffset.toNat + numBytes.toNat ≤ blockSize * inodeNumBlks →
      ∀ n, numBytes.toNat ≤ maxWriteData * n → ∃ c' fs' fdesc',
        myWrite (servidorFs lixo) (n + 1) c fs fileId buffer numBytes =
          some (c', fs', (numBytes.toNat : ℤ)) ∧
        queueNodeGet c'.openFilesList fileId = some fdesc' ∧
        EscritaInteira fs fs' fdesc fdesc' s buffer numBytes.toNat) ∧
    (fdesc.size.toNat = s.length → fdesc.readOffset.toNat ≤ s.length →
      numBytes.toNat < 2 ^ 31 →
      ∀ n, numBytes.toNat ≤ maxReadData * n → ∃ c' fs' fdesc' buffer',
        myRead (servidorFs lixo) (n + 1) c fs fileId buffer numBytes =
          some (c', fs', buffer',
            ((min numBytes.toNat (s.length - fdesc.readOffset.toNat) : ℕ) : ℤ)) ∧
        queueNodeGet c'.openFilesList fileId = some fdesc' ∧
        LeituraInteira fs fs' fdesc fdesc' s buffer buffer'
          (min numBytes.toNat (s.length - fdesc.readOffset.toNat))) := by
  obtain ⟨fs₀, rs₀, hr₀, h⟩ := Fs.exacto_of_run pilha hops
  obtain ⟨rfl, rfl⟩ := Prod.mk.inj (Option.some.inj (hr₀.symm.trans hrun))
  constructor
  · intro hoff hfits n hn
    exact myWrite_inteira h hlib hfd hs hoff hfits hn
  · intro hsize hoff hnum n hn
    exact myRead_inteira h hlib hfd hs hsize hoff hnum hn

/-- A file of 1500 bytes. -/
def chamadasLongas : List FsOp :=
  [.create 1 nomeA, .write 2 0 1000 (fun _ => 1) nullBlock, .write 2 1000 500 (fun _ => 1) nullBlock]

set_option maxRecDepth 100000 in
/-- 2500 bytes are written behind it in three requests, and 1300 read from it in two. -/
theorem transferencias_inteiras_pedacos :
    ∃ fs rs s, Runs.run FsOp.exec (fsFormat (fsNew Fs.discoServidor fun _ => 7)) chamadasLongas =
        some (fs, rs) ∧ s.length = 1500 ∧
      (∃ c' fs' fdesc',
        myWrite (servidorFs fun _ _ => nullBlock) 4 ⟨true, 1, [⟨2, 1500, 200, 1500⟩]⟩ fs 2
          (fun _ => 2) 2500 = some (c', fs', 2500) ∧
        queueNodeGet c'.openFilesList 2 = some fdesc' ∧
        EscritaInteira fs fs' ⟨2, 1500, 200, 1500⟩ fdesc' s (fun _ => 2) 2500) ∧
      ∃ c' fs' fdesc' buffer',
        myRead (servidorFs fun _ _ => nullBlock) 4 ⟨true, 1, [⟨2, 1500, 200, 1500⟩]⟩ fs 2
          (fun _ => 2) 2500 = some (c', fs', buffer', 1300) ∧
        queueNodeGet c'.openFilesList 2 = some fdesc' ∧
        LeituraInteira fs fs' ⟨2, 1500, 200, 1500⟩ fdesc' s (fun _ => 2) buffer' 1300 := by
  have hops : Runs.Permitted FsOp.exec FsOp.SemAnexo
      (fsFormat (fsNew Fs.discoServidor fun _ => 7)) chamadasLongas := by
    rw [Fs.fsFormat_eq_formatado]
    decide +kernel
  obtain ⟨fs, rs, hrun, hfile, hsize⟩ : ∃ fs rs,
      Runs.run FsOp.exec (fsFormat (fsNew Fs.discoServidor fun _ => 7)) chamadasLongas =
        some (fs, rs) ∧ fs.typeAt 2 = .fsFile ∧ fs.sizeAt 2 = 1500 := by
    rw [Fs.fsFormat_eq_formatado]
    exact Runs.exists_run_of_any (by decide +kernel)
  obtain ⟨fs₀, rs₀, hrun₀, hex⟩ := Fs.exacto_of_run (fun _ => 7) hops
  obtain ⟨rfl, rfl⟩ := Prod.mk.inj (Option.some.inj (hrun₀.symm.trans hrun))
  have hs := Fs.modelo_of_file hex.consistent hfile
  have hlen := (Fs.length_modelo hs).trans hsize
  obtain ⟨hwrite, hread⟩ := transferencias_inteiras (fun _ => 7) _ hops hrun
    (c := ⟨true, 1, [⟨2, 1500, 200, 1500⟩]⟩) rfl (show queueNodeGet [(⟨2, 1500, 200, 1500⟩ :
      FileDesc)] 2 = some ⟨2, 1500, 200, 1500⟩ from rfl) hs (fun _ _ => nullBlock) (fun _ => 2) 2500
  rw [hlen] at hwrite hread
  exact ⟨_, _, _, hrun, hlen, hwrite (by decide) (by decide) 3 (by decide),
    hread (by decide) (by decide) (by decide) 3 (by decide)⟩

/-- A file opened twice, and written through the first descriptor: no byte written through the
second one leaves it with its old size. -/
theorem myWrite_nada :
    ∃ fs fs' c₁ c₂ c₃ c₄, Runs.run FsOp.exec (fsFormat (fsNew Fs.discoServidor fun _ => 7))
        [.create 1 nomeA, .create 1 nomeB] = some (fs, [.inode (some 2), .inode (some 3)]) ∧
      myOpen ⟨true, 0, []⟩ fs (trajeto [componenteA]) 0 0 0 = some (c₁, fs, 2) ∧
      myOpen c₁ fs (trajeto [componenteA]) 0 0 0 = some (c₂, fs, 2) ∧
      myWrite (servidorFs fun _ _ => nullBlock) 2 c₂ fs 2 (fun _ => 1) 1 = some (c₃, fs', 1) ∧
      myClose c₃ 2 = (c₄, 0) ∧
      myWrite (servidorFs fun _ _ => nullBlock) 1 c₄ fs' 2 (fun _ => 1) 0 = some (c₄, fs', 0) ∧
      queueNodeGet c₄.openFilesList 2 = some ⟨2, 0, 0, 0⟩ ∧ fs'.sizeAt 2 = 1 := by
  obtain ⟨fs, hrun, hd⟩ := dois_ficheiros fun _ => 7
  obtain ⟨fs₁, rs₁, hrun₁, -, hl⟩ := Fs.ligado_of_run (fun _ => 7)
    [.create 1 nomeA, .create 1 nomeB]
    (Runs.permitted_of_forall (by simp [FsOp.SemRemocao]))
  obtain rfl : fs = fs₁ := (Prod.mk.inj (Option.some.inj (hrun.symm.trans hrun₁))).1
  have hcons := hd.exacto.consistent
  have hnome : fs.resolve 1 componenteA.val.val = some 2 := by
    rw [Fs.resolve_of_dir hd.raiz.1, Fs.procura, hd.entradas]
    rfl
  have hsize : fs.sizeAt 2 = 0 := hd.vazio 2 (by decide)
  have hs : fs.modelo 2 = some [] := by
    rw [Fs.modelo_of_file hcons hd.ficheiro.1, Fs.bytes, hsize]
    rfl
  have hopen := fun c hlib hmax =>
    myOpen_raiz hcons hl hnome (by simp [hd.ficheiro.1]) c hlib hmax 0 0 0
  rw [hsize] at hopen
  obtain ⟨l, hloop, hg⟩ := myWriteLoop_spec (fun _ _ => nullBlock) (fun _ => 1) (n := 1)
    (l := ⟨fs, 0, 0, 1, 1, 0⟩) hd.exacto hs (Nat.zero_le _)
    (by dsimp only; decide) (by dsimp only; decide) rfl (by dsimp only; decide)
  refine ⟨fs, l.servidor, ⟨true, 1, [⟨2, 0, 0, 0⟩]⟩, ⟨true, 2, [⟨2, 0, 0, 0⟩, ⟨2, 0, 0, 0⟩]⟩,
    ⟨true, 2, [⟨2, l.size, 0, l.writeOffset⟩, ⟨2, 0, 0, 0⟩]⟩, ⟨true, 1, [⟨2, 0, 0, 0⟩]⟩, hrun,
    hopen _ rfl (by decide), hopen _ rfl (by decide), ?_, rfl, rfl, rfl, ?_⟩
  · have hget : queueNodeGet [(⟨2, 0, 0, 0⟩ : FileDesc), ⟨2, 0, 0, 0⟩] 2 = some ⟨2, 0, 0, 0⟩ := rfl
    have hum : (if BitVec.ofNat 32 maxWriteData < 1 then BitVec.ofNat 32 maxWriteData else 1) = 1 :=
      rfl
    rw [myWrite, if_neg (by simp), hget]
    dsimp only
    rw [hum, hloop]
    rfl
  · rw [← Fs.length_modelo hg.modelo_ficheiro, Fs.length_sobrepor]
    rfl

end ThreadScheduler.SnfsLib
