import ThreadScheduler.SnfsLib.OpenSizes
import ThreadScheduler.SnfsLib.ServerFiles
import ThreadScheduler.SnfsServer.ExactAccounts

/-!
# The loop of `my_read`

The loop goes on until it has the bytes it wants. What it wants is computed from the size in the
descriptor, which the server's file can have left behind, and an answer with no bytes is a success.
-/
namespace ThreadScheduler.SnfsLib
open SnfsServer

/-! ## The server as its answers -/

/-- A request for `count` bytes, which brought `nread`. -/
structure Pedido where
  count : ℕ
  nread : ℕ
  deriving DecidableEq

/-- A server whose answer `i` is `RES_ERROR`, or as many of the bytes `r i` as are asked for; its
state is what it has been asked. -/
def servidorDe (r : ℕ → Option (List Byte)) : Servidor (List Pedido) where
  read feitos _ _ count :=
    match r feitos.length with
    | none => some (feitos ++ [⟨count, 0⟩], none)
    | some data => some (feitos ++ [⟨count, (data.take count).length⟩], some (data.take count))
  write feitos _ _ _ _ := some (feitos, none)

/-- No request is for more than what is left of `n` after what the requests before it brought. -/
def SemExceder (n : ℕ) : List Pedido → Prop
  | [] => True
  | p :: ps => p.count ≤ n ∧ SemExceder (n - p.nread) ps

/-- The bytes that `k` answers from `i` on can bring, 1024 at most each. -/
def trazidos (r : ℕ → Option (List Byte)) : ℕ → ℕ → ℕ
  | _, 0 => 0
  | i, k + 1 => min maxReadData ((r i).elim 0 List.length) + trazidos r (i + 1) k

/-- The requests for `m` bytes from answer `i` on, for up to `n` tests of the condition. -/
def pedidos (r : ℕ → Option (List Byte)) : ℕ → ℕ → ℕ → Option (List Pedido)
  | 0, _, _ => none
  | n + 1, i, m =>
      if m = 0 then some []
      else
        match r i with
        | none => some [⟨min maxReadData m, 0⟩]
        | some data =>
            let nread := min (min maxReadData m) data.length
            (pedidos r n (i + 1) (m - nread)).map fun ps => ⟨min maxReadData m, nread⟩ :: ps

variable {r : ℕ → Option (List Byte)} {fileId n i m : ℕ}

theorem servidorDe_none {feitos : List Pedido} (h : r feitos.length = none)
    (fhandle offset count : ℕ) :
    (servidorDe r).read feitos fhandle offset count = some (feitos ++ [⟨count, 0⟩], none) := by
  simp only [servidorDe, h]

theorem servidorDe_some {feitos : List Pedido} {data : List Byte}
    (h : r feitos.length = some data) (fhandle offset count : ℕ) :
    (servidorDe r).read feitos fhandle offset count =
      some (feitos ++ [⟨count, min count data.length⟩], some (data.take count)) := by
  simp only [servidorDe, h, List.length_take]

/-- The size of a piece: 1024 bytes, or what is left. -/
theorem toNat_bloco {max numBytes : BitVec 32} {tecto : ℕ}
    (h : min max.toNat numBytes.toNat = min tecto numBytes.toNat) :
    (if numBytes < max then numBytes else max).toNat = min tecto numBytes.toNat := by
  rw [← h]
  split_ifs with hlt
  · rw [Nat.min_eq_right (Nat.le_of_lt (BitVec.lt_def.mp hlt))]
  · rw [Nat.min_eq_left (Nat.le_of_not_lt (mt BitVec.lt_def.mpr hlt))]

/-- The loop makes these requests: the block it asks for is never other than 1024 bytes, or what is
left. -/
theorem myReadLoop_pedidos (r : ℕ → Option (List Byte)) (fileId n : ℕ) (l : Leitura (List Pedido))
    (hr : min l.rBytes.toNat l.numBytes.toNat = min maxReadData l.numBytes.toNat) :
    (myReadLoop (servidorDe r) fileId n l).map (fun x => x.1.servidor) =
      (pedidos r n l.servidor.length l.numBytes.toNat).map (l.servidor ++ ·) := by
  induction n generalizing l with
  | zero => rfl
  | succ n ih =>
      rw [myReadLoop, pedidos]
      by_cases hzero : l.numBytes = 0
      · rw [if_pos hzero, if_pos (by rw [hzero]; rfl)]
        simp
      · have hne : l.numBytes.toNat ≠ 0 := fun h => hzero (BitVec.eq_of_toNat_eq h)
        have hblk := toNat_bloco hr
        rw [if_neg hzero, if_neg hne]
        dsimp only
        cases hres : r l.servidor.length with
        | none =>
            rw [servidorDe_none hres, hblk]
            rfl
        | some data =>
            have hlen : (data.take (min maxReadData l.numBytes.toNat)).length =
                min (min maxReadData l.numBytes.toNat) data.length := List.length_take
            have hsub : (l.numBytes - BitVec.ofNat 32
                (data.take (min maxReadData l.numBytes.toNat)).length).toNat =
                  l.numBytes.toNat - min (min maxReadData l.numBytes.toNat) data.length := by
              have hlt := l.numBytes.isLt
              rw [hlen, BitVec.toNat_sub, BitVec.toNat_ofNat]
              unfold maxReadData
              omega
            rw [servidorDe_some hres, hblk, Option.bind_some]
            dsimp only
            rw [ih _ ?_]
            · dsimp only
              rw [hsub, List.length_append, List.length_singleton, Option.map_map]
              refine congrArg (fun f => Option.map f _) (funext fun ps => ?_)
              exact (List.append_cons _ _ _).symm
            · dsimp only
              rw [hsub, hblk]
              omega

/-! ## Ending -/

/-- With `k` more answers from `i` on, the loop ends and has not gone past `n` bytes. -/
def Basta (r : ℕ → Option (List Byte)) (i m n k : ℕ) : Prop :=
  (m ≤ n ∧ (r (i + k) = none ∨ m ≤ trazidos r i k)) ∨
    (n < m ∧ r (i + k) = none ∧ trazidos r i k + maxReadData ≤ n)

theorem pedidos_succ_some {data : List Byte} (hm : m ≠ 0) (h : r i = some data) :
    pedidos r (n + 1) i m =
      (pedidos r n (i + 1) (m - min (min maxReadData m) data.length)).map fun ps =>
        ⟨min maxReadData m, min (min maxReadData m) data.length⟩ :: ps := by
  rw [pedidos, if_neg hm, h]

theorem trazidos_succ {data : List Byte} (h : r i = some data) (k : ℕ) :
    trazidos r i (k + 1) = min maxReadData data.length + trazidos r (i + 1) k := by
  rw [trazidos, h]
  rfl

/-- Requests that end within the bounds: enough has come, or an error. -/
theorem basta_of_pedidos {ps : List Pedido} {b : ℕ} (h : pedidos r n i m = some ps)
    (hps : SemExceder b ps) : ∃ k, Basta r i m b k := by
  induction n generalizing i m b ps with
  | zero => cases h
  | succ n ih =>
      by_cases hm : m = 0
      · exact ⟨0, Or.inl ⟨by omega, Or.inr (by omega)⟩⟩
      cases hres : r i with
      | none =>
          rw [pedidos, if_neg hm, hres] at h
          obtain rfl := Option.some.inj h
          have hb : min maxReadData m ≤ b := hps.1
          refine ⟨0, ?_⟩
          by_cases hmb : m ≤ b
          · exact Or.inl ⟨hmb, Or.inl hres⟩
          · refine Or.inr ⟨Nat.lt_of_not_le hmb, hres, ?_⟩
            rw [trazidos]
            omega
      | some data =>
          rw [pedidos_succ_some hm hres] at h
          obtain ⟨qs, hqs, rfl⟩ := Option.map_eq_some_iff.mp h
          obtain ⟨hb, hqs'⟩ := hps
          dsimp only at hb hqs'
          obtain ⟨k, hk⟩ := ih hqs hqs'
          refine ⟨k + 1, ?_⟩
          have hi : i + (k + 1) = i + 1 + k := by omega
          rw [Basta, trazidos_succ hres, hi]
          obtain ⟨hle, hnone | hgot⟩ | ⟨hlt, hnone, hgot⟩ := hk
          · exact Or.inl ⟨by omega, Or.inl hnone⟩
          · exact Or.inl ⟨by omega, Or.inr (by omega)⟩
          · exact Or.inr ⟨by omega, hnone, by omega⟩

/-- Enough answers, or an error in time, end the requests within the bounds. -/
theorem pedidos_of_basta {b k : ℕ} (h : Basta r i m b k) :
    ∃ n ps, pedidos r n i m = some ps ∧ SemExceder b ps := by
  induction k generalizing i m b with
  | zero =>
      by_cases hm : m = 0
      · exact ⟨1, [], by rw [pedidos, if_pos hm], trivial⟩
      have hfim : r i = none ∧ min maxReadData m ≤ b := by
        obtain ⟨hle, hnone | hgot⟩ | ⟨hlt, hnone, hgot⟩ := h
        · exact ⟨hnone, by omega⟩
        · rw [trazidos] at hgot
          omega
        · rw [trazidos] at hgot
          exact ⟨hnone, by omega⟩
      exact ⟨1, [⟨min maxReadData m, 0⟩], by rw [pedidos, if_neg hm, hfim.1], hfim.2, trivial⟩
  | succ k ih =>
      by_cases hm : m = 0
      · exact ⟨1, [], by rw [pedidos, if_pos hm], trivial⟩
      cases hres : r i with
      | none =>
          refine ⟨1, [⟨min maxReadData m, 0⟩], by rw [pedidos, if_neg hm, hres], ?_, trivial⟩
          obtain ⟨hle, -⟩ | ⟨hlt, hnone, hgot⟩ := h
          · exact (Nat.min_le_right _ _).trans hle
          · dsimp only
            omega
      | some data =>
          have hi : i + (k + 1) = i + 1 + k := by omega
          rw [Basta, trazidos_succ hres, hi] at h
          have hk : Basta r (i + 1) (m - min (min maxReadData m) data.length)
              (b - min (min maxReadData m) data.length) k := by
            obtain ⟨hle, hnone | hgot⟩ | ⟨hlt, hnone, hgot⟩ := h
            · exact Or.inl ⟨by omega, Or.inl hnone⟩
            · exact Or.inl ⟨by omega, Or.inr (by omega)⟩
            · exact Or.inr ⟨by omega, hnone, by omega⟩
          obtain ⟨n, ps, hps, hb⟩ := ih hk
          refine ⟨n + 1, ⟨min maxReadData m, min (min maxReadData m) data.length⟩ :: ps, ?_, ?_, hb⟩
          · rw [pedidos_succ_some hm hres, hps]
            rfl
          · dsimp only
            obtain ⟨hle, -⟩ | ⟨hlt, hnone, hgot⟩ := h
            · omega
            · omega

/-- What `k` answers from `i` on leave out of the requests for `m` bytes. -/
def faltas (r : ℕ → Option (List Byte)) : ℕ → ℕ → ℕ → ℕ
  | _, _, 0 => 0
  | i, m, k + 1 =>
      (min maxReadData m - (r i).elim 0 List.length) +
        faltas r (i + 1) (m - min maxReadData ((r i).elim 0 List.length)) k

/-- With `k` more answers from `i` on, the loop ends; what has come and what has been left out are
`n` bytes at most. -/
def BastaSemFalta (r : ℕ → Option (List Byte)) (i m n k : ℕ) : Prop :=
  (m ≤ trazidos r i k ∧ m + faltas r i m k ≤ n) ∨
    (r (i + k) = none ∧
      min m (trazidos r i k) + faltas r i m k + min maxReadData (m - trazidos r i k) ≤ n)

/-- One more answer takes its request off both counts. -/
theorem bastaSemFalta_succ {data : List Byte} (h : r i = some data) (k b : ℕ) :
    BastaSemFalta r i m b (k + 1) ↔ min maxReadData m ≤ b ∧
      BastaSemFalta r (i + 1) (m - min (min maxReadData m) data.length)
        (b - min maxReadData m) k := by
  have hi : i + (k + 1) = i + 1 + k := by omega
  have hm : m - min maxReadData data.length = m - min (min maxReadData m) data.length := by omega
  rw [BastaSemFalta, BastaSemFalta, trazidos_succ h, faltas, h, hi, Option.elim_some, hm]
  generalize trazidos r (i + 1) k = t
  generalize faltas r (i + 1) (m - min (min maxReadData m) data.length) k = f
  -- what comes and what is left out of the request make up the request
  have hsoma : min m (min maxReadData data.length + t) + (min maxReadData m - data.length) =
      min maxReadData m + min (m - min (min maxReadData m) data.length) t := by omega
  have hresto : m - (min maxReadData data.length + t) =
      m - min (min maxReadData m) data.length - t := by omega
  rw [hresto]
  generalize min maxReadData (m - min (min maxReadData m) data.length - t) = e
  constructor
  · rintro (⟨hgot, hb⟩ | ⟨hnone, hb⟩)
    · rw [Nat.min_eq_left hgot] at hsoma
      exact ⟨by omega, Or.inl ⟨by omega, by omega⟩⟩
    · exact ⟨by omega, Or.inr ⟨hnone, by omega⟩⟩
  · rintro ⟨hle, ⟨hgot, hb⟩ | ⟨hnone, hb⟩⟩
    · have hgot' : m ≤ min maxReadData data.length + t := by omega
      rw [Nat.min_eq_left hgot', Nat.min_eq_left hgot] at hsoma
      exact Or.inl ⟨hgot', by omega⟩
    · exact Or.inr ⟨hnone, by omega⟩

theorem semFalta_of_pedidos {ps : List Pedido} {b : ℕ} (h : pedidos r n i m = some ps)
    (hps : (ps.map Pedido.count).sum ≤ b) : ∃ k, BastaSemFalta r i m b k := by
  induction n generalizing i m b ps with
  | zero => cases h
  | succ n ih =>
      by_cases hm : m = 0
      · exact ⟨0, Or.inl ⟨by omega, by rw [faltas]; omega⟩⟩
      cases hres : r i with
      | none =>
          rw [pedidos, if_neg hm, hres] at h
          obtain rfl := Option.some.inj h
          refine ⟨0, Or.inr ⟨hres, ?_⟩⟩
          simpa [trazidos, faltas] using hps
      | some data =>
          rw [pedidos_succ_some hm hres] at h
          obtain ⟨qs, hqs, rfl⟩ := Option.map_eq_some_iff.mp h
          rw [List.map_cons, List.sum_cons] at hps
          dsimp only at hps
          obtain ⟨k, hk⟩ := ih (b := b - min maxReadData m) hqs (by omega)
          exact ⟨k + 1, (bastaSemFalta_succ hres k b).mpr ⟨by omega, hk⟩⟩

theorem pedidos_of_semFalta {b k : ℕ} (h : BastaSemFalta r i m b k) :
    ∃ n ps, pedidos r n i m = some ps ∧ (ps.map Pedido.count).sum ≤ b := by
  induction k generalizing i m b with
  | zero =>
      by_cases hm : m = 0
      · exact ⟨1, [], by rw [pedidos, if_pos hm], Nat.zero_le _⟩
      obtain ⟨hgot, -⟩ | ⟨hnone, hb⟩ := h
      · rw [trazidos] at hgot
        omega
      · rw [Nat.add_zero] at hnone
        refine ⟨1, [⟨min maxReadData m, 0⟩], by rw [pedidos, if_neg hm, hnone], ?_⟩
        simpa [trazidos, faltas] using hb
  | succ k ih =>
      by_cases hm : m = 0
      · exact ⟨1, [], by rw [pedidos, if_pos hm], Nat.zero_le _⟩
      cases hres : r i with
      | none =>
          refine ⟨1, [⟨min maxReadData m, 0⟩], by rw [pedidos, if_neg hm, hres], ?_⟩
          have hfalta : min maxReadData m ≤ faltas r i m (k + 1) := by
            rw [faltas, hres]
            exact Nat.le_add_right _ _
          have hle : min maxReadData m ≤ b := by
            obtain ⟨-, hb⟩ | ⟨-, hb⟩ := h
            · omega
            · omega
          simpa using hle
      | some data =>
          obtain ⟨hle, hk⟩ := (bastaSemFalta_succ hres k b).mp h
          obtain ⟨n, ps, hps, hsum⟩ := ih hk
          refine ⟨n + 1, ⟨min maxReadData m, min (min maxReadData m) data.length⟩ :: ps, ?_, ?_⟩
          · rw [pedidos_succ_some hm hres, hps]
            rfl
          · rw [List.map_cons, List.sum_cons]
            dsimp only
            omega

/-- The count that the comparison with the size leaves; it wraps where the offset is past the
size. -/
def aLer (fdesc : FileDesc) (numBytes : BitVec 32) : BitVec 32 :=
  if fdesc.size < fdesc.readOffset + numBytes then fdesc.size - fdesc.readOffset else numBytes

/-- The first block is 1024 bytes, or all of them. -/
theorem min_primeiro (m : BitVec 32) :
    min (if BitVec.ofNat 32 maxReadData < m then BitVec.ofNat 32 maxReadData else m).toNat m.toNat =
      min maxReadData m.toNat := by
  have h1024 : (BitVec.ofNat 32 maxReadData).toNat = maxReadData := rfl
  split_ifs with hlt
  · rw [h1024]
  · rw [BitVec.lt_def, h1024] at hlt
    omega

section MyRead

variable {c : Cliente} {fdesc : FileDesc} (hlib : c.libInitted = true)
  (hfd : queueNodeGet c.openFilesList fileId = some fdesc)
include hlib hfd

theorem myRead_pedidos (hne : fdesc.readOffset ≠ fdesc.size) (buffer : ℕ → Byte)
    (numBytes : BitVec 32) (r : ℕ → Option (List Byte)) :
    (myRead (servidorDe r) n c [] fileId buffer numBytes).map (fun x => x.2.1) =
      pedidos r n 0 (aLer fdesc numBytes).toNat := by
  rw [myRead, hlib, if_neg (by simp), hfd]
  dsimp only
  rw [if_neg hne, Option.map_map]
  have hloop := myReadLoop_pedidos r fileId n
    ⟨[], fdesc.readOffset, aLer fdesc numBytes, _, buffer, 0⟩ (min_primeiro (aLer fdesc numBytes))
  simp only [List.nil_append, Option.map_id'] at hloop
  exact hloop

/-- What `my_read` ends with, in terms of the requests. -/
theorem myRead_iff_pedidos (hne : fdesc.readOffset ≠ fdesc.size) (buffer : ℕ → Byte)
    (numBytes : BitVec 32) (r : ℕ → Option (List Byte)) (P : List Pedido → Prop) :
    (∃ n c' ps buffer' res,
        myRead (servidorDe r) n c [] fileId buffer numBytes = some (c', ps, buffer', res) ∧ P ps) ↔
      ∃ n ps, pedidos r n 0 (aLer fdesc numBytes).toNat = some ps ∧ P ps := by
  constructor
  · rintro ⟨n, c', ps, buffer', res, hread, hps⟩
    refine ⟨n, ps, ?_, hps⟩
    rw [← myRead_pedidos hlib hfd hne buffer numBytes r, hread]
    rfl
  · rintro ⟨n, ps, hped, hps⟩
    rw [← myRead_pedidos hlib hfd hne buffer numBytes r] at hped
    obtain ⟨⟨c', ps', buffer', res⟩, hread, rfl⟩ := Option.map_eq_some_iff.mp hped
    exact ⟨n, c', ps', buffer', res, hread, hps⟩

/-- `my_read` at the size of the descriptor makes no request. -/
theorem myRead_no_fim (heq : fdesc.readOffset = fdesc.size) (buffer : ℕ → Byte)
    (numBytes : BitVec 32) (r : ℕ → Option (List Byte)) :
    myRead (servidorDe r) n c [] fileId buffer numBytes = some (c, [], buffer, 0) := by
  rw [myRead, hlib, hfd]
  simp [heq]

/-- `my_read` ends and never asks for more than is left of `numBytes` just when the descriptor is at
its size, or the answers bring the bytes that the loop wants, or an error comes in time. It ends and
the counts of its requests come to `numBytes` at most just when, besides, the answers fall short by
no more than the comparison with the size took off. -/
theorem myRead_termina (buffer : ℕ → Byte) (numBytes : BitVec 32) (r : ℕ → Option (List Byte)) :
    ((∃ n c' ps buffer' res,
        myRead (servidorDe r) n c [] fileId buffer numBytes = some (c', ps, buffer', res) ∧
        SemExceder numBytes.toNat ps) ↔
      fdesc.readOffset = fdesc.size ∨
        ∃ k, Basta r 0 (aLer fdesc numBytes).toNat numBytes.toNat k) ∧
    ((∃ n c' ps buffer' res,
        myRead (servidorDe r) n c [] fileId buffer numBytes = some (c', ps, buffer', res) ∧
        (ps.map Pedido.count).sum ≤ numBytes.toNat) ↔
      fdesc.readOffset = fdesc.size ∨
        ∃ k, BastaSemFalta r 0 (aLer fdesc numBytes).toNat numBytes.toNat k) := by
  by_cases hfim : fdesc.readOffset = fdesc.size
  · have hread := fun n => myRead_no_fim (n := n) hlib hfd hfim buffer numBytes r
    exact ⟨iff_of_true ⟨0, _, _, _, _, hread 0, trivial⟩ (Or.inl hfim),
      iff_of_true ⟨0, _, _, _, _, hread 0, Nat.zero_le _⟩ (Or.inl hfim)⟩
  · rw [or_iff_right hfim, or_iff_right hfim,
      myRead_iff_pedidos hlib hfd hfim buffer numBytes r (SemExceder numBytes.toNat),
      myRead_iff_pedidos hlib hfd hfim buffer numBytes r
        fun ps => (ps.map Pedido.count).sum ≤ numBytes.toNat]
    constructor
    · exact ⟨fun ⟨n, ps, h, hps⟩ => basta_of_pedidos h hps, fun ⟨k, hk⟩ => pedidos_of_basta hk⟩
    · exact ⟨fun ⟨n, ps, h, hps⟩ => semFalta_of_pedidos h hps,
        fun ⟨k, hk⟩ => pedidos_of_semFalta hk⟩

end MyRead

/-- One byte of a file of ten, and a server that brings it. -/
theorem myRead_termina_byte :
    ∃ n c' ps buffer' res,
      myRead (servidorDe fun _ => some [7#8]) n ⟨true, 1, [⟨2, 10, 0, 0⟩]⟩ [] 2 (fun _ => 0#8) 1 =
        some (c', ps, buffer', res) ∧ SemExceder 1 ps := by
  have hfd : queueNodeGet [(⟨2, 10, 0, 0⟩ : FileDesc)] 2 = some ⟨2, 10, 0, 0⟩ := rfl
  have hcond : Basta (fun _ => some [7#8]) 0 (aLer ⟨2, 10, 0, 0⟩ 1).toNat 1 1 :=
    Or.inl ⟨by decide, Or.inr (by decide)⟩
  exact (myRead_termina (c := ⟨true, 1, [⟨2, 10, 0, 0⟩]⟩) rfl hfd (fun _ => 0#8) 1
    fun _ => some [7#8]).1.mpr (Or.inr ⟨1, hcond⟩)

/-! ## A file that has become shorter -/

/-- From the end of the server's file on, every answer has no bytes. -/
theorem myReadLoop_semFim {lixo : Fs → ℕ → Block} {s : List Byte} {l : Leitura Fs}
    (h : l.servidor.Exacto) (hs : l.servidor.modelo fileId = some s)
    (hoff : s.length ≤ l.readOffset.toNat)
    (hblk : min l.rBytes.toNat l.numBytes.toNat = min maxReadData l.numBytes.toNat)
    (hne : l.numBytes ≠ 0) : myReadLoop (servidorFs lixo) fileId n l = none := by
  induction n generalizing l with
  | zero => rfl
  | succ n ih =>
      have hr := toNat_bloco hblk
      obtain ⟨fs, hread, hex, hm⟩ := servidorFs_read h hs lixo
        (hr.le.trans (Nat.min_le_left _ _)) l.readOffset.toNat
      rw [List.drop_eq_nil_of_le hoff, List.take_nil] at hread
      rw [myReadLoop, if_neg hne]
      dsimp only
      rw [hread, Option.bind_some]
      dsimp only [List.length_nil]
      refine ih hex (hm ▸ hs) ?_ ?_ ?_
      · simpa using hoff
      · dsimp only
        rw [hr]
        simp
      · simpa using hne

/-- "a". -/
def componenteA : Componente := ⟨nomeA, by decide, by decide, by decide, by decide⟩

/-- A file of one byte is opened, and then an empty file is copied over it. -/
theorem myRead_semFim :
    ∃ fs fs' c, Runs.run FsOp.exec (fsFormat (fsNew Fs.discoServidor fun _ => 7))
        [.create 1 nomeA, .create 1 nomeB, .write 2 0 1 (fun _ => 1) nullBlock] =
          some (fs, [.inode (some 2), .inode (some 3), .estado 0]) ∧
      myOpen ⟨true, 0, []⟩ fs (trajeto [componenteA]) 0 0 0 = some (c, fs, 2) ∧
      fsCopy fs 1 nomeB 1 nomeA = some (fs', 0) ∧
      ∀ lixo n buffer, myRead (servidorFs lixo) n c fs' 2 buffer 1 = none := by
  obtain ⟨fs, hrun, hd⟩ := ficheiro_escrito fun _ => 7
  obtain ⟨fs₁, rs₁, hrun₁, -, hl⟩ := Fs.ligado_of_run (fun _ => 7)
    [.create 1 nomeA, .create 1 nomeB, .write 2 0 1 (fun _ => 1) nullBlock]
    (Runs.permitted_of_forall (by simp [FsOp.SemRemocao]))
  obtain rfl : fs = fs₁ := (Prod.mk.inj (Option.some.inj (hrun.symm.trans hrun₁))).1
  have hnome : fs.resolve 1 componenteA.val.val = some 2 := hd.nomes.1
  have hopen := myOpen_raiz hd.exacto.consistent hl hnome (by simp [hd.ficheiro.1]) ⟨true, 0, []⟩
    rfl (by decide) 0 0 0
  -- the copy of the empty file
  have hcopy := Fs.fsCopy_of_resolve hd.exacto.consistent hd.nomes.2 hd.ficheiro.2 hd.nomes.1
  have hpartilha : fs.Partilha 3 2 := hd.exacto.consistent.partilha (by decide) hd.ficheiro.2
  obtain hno | ⟨fs', hyes, hcop⟩ := Fs.fsCopyInodes_spec hd.exacto.consistent
    (fun _ => hpartilha) hd.ficheiro.2
    fun _ => hd.exacto.distintos.cabe hd.exacto.consistent hd.ficheiro.2
  · have ht : (fs.inodeTab 2).type = .fsFile := hd.ficheiro.1
    simp [fsCopyInodes, ht] at hno
  obtain ⟨hex, hm⟩ := hd.exacto.copiado hcop
  have hvazio : fs'.modelo 2 = some [] := by
    rw [hm, Function.update_self, Fs.modelo_of_file hd.exacto.consistent hd.ficheiro.2, Fs.bytes,
      hd.tamanho.2]
    rfl
  rw [hd.tamanho.1] at hopen
  refine ⟨fs, fs', ⟨true, 1, [⟨2, 1, 0, 0⟩]⟩, hrun, hopen, by rw [hcopy, hyes], ?_⟩
  intro lixo n buffer
  have hget : queueNodeGet [(⟨2, 1, 0, 0⟩ : FileDesc)] 2 = some ⟨2, 1, 0, 0⟩ := rfl
  rw [myRead, if_neg (by simp), hget]
  dsimp only
  have hum : (if (1#32) < 0 + 1 then (1#32) - 0 else 1) ≠ 0 := by decide
  rw [if_neg (by decide), myReadLoop_semFim hex hvazio (Nat.zero_le _) rfl hum]
  rfl

end ThreadScheduler.SnfsLib
