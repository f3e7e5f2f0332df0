import ThreadScheduler.SnfsServer.CreateRemove
import ThreadScheduler.SnfsServer.UsageWalk

/-!
# The report of disk usage is complete

The first block of the root is the first one of all to be taken, and it is kept for as long as
anything is in use. So the insertion that loses a second reference to the lowest block never has
one to lose, and the report lists every slot in use once.
-/
namespace ThreadScheduler.SnfsServer

namespace Fs

variable {fs fs' : Fs}

/-- The first block of the root, if it has one, is block 10. -/
def RaizNoDez (fs : Fs) : Prop := fs.sizeAt 1 ≠ 0 → fs.slot (1, 0) = 10

/-- Where something is in use, the root has an entry. -/
theorem EmArvore.raiz_ocupada (h : fs.EmArvore) {s : ℕ × ℕ} (hs : s ∈ fs.emUso) :
    fs.sizeAt 1 ≠ 0 := by
  have hcons := h.exacto.consistent
  have hpos := hcons.pos_of_mem hs
  obtain ⟨c, hc⟩ := h.alcancado s.1 (by omega) (mem_emUso.mp hs).2.2.1
  intro hz
  cases c with
  | nil =>
      have hum : 1 = s.1 := Option.some.inj hc
      have hlt := hcons.lt_of_mem hs
      rw [← hum, hz] at hlt
      exact absurd hlt (Nat.not_lt_zero _)
  | cons nome resto =>
      rw [no, PathTree.follow, resolve_of_vazio fun _ => hz] at hc
      cases hc

theorem EmArvore.raizPrimeira (h : fs.EmArvore) (hr : fs.RaizNoDez) : fs.RaizPrimeira := by
  intro s hs
  have hcons := h.exacto.consistent
  have hz := h.raiz_ocupada hs
  have hdez := hr hz
  have hraiz : (1, 0) ∈ fs.emUso := by
    rw [hcons.mem_emUso_iff, lt_offsetToBlocks]
    omega
  constructor
  · intro he
    exact hcons.acc.dirOwn _ hraiz s hs hcons.inodes.root.2 (he.trans hdez.symm)
  · rintro rfl
    exact hdez

/-! ## The calls -/

/-- The slots of the directory that it had in use before the creation. -/
theorem fsCriar_slot_dir {tipo : FsItype} {d n q : ℕ} {file : CString}
    (hr : fsCriar tipo fs d file = some (fs', some n)) (hdn : d ≠ n)
    (hq : q < offsetToBlocks (fs.sizeAt d)) : fs'.slot (d, q) = fs.slot (d, q) := by
  rcases fsCriar_casos hr with ⟨he, -⟩ | ⟨finode, fs₁, -, hv, he⟩
  · cases he
  · obtain ⟨rfl, hfin⟩ := Prod.mk.inj he
    obtain rfl := Option.some.inj hfin
    rw [slot_congr (store_inodeTab _), comNovo_slot, if_neg hdn, hv.slot_dir hq]

/-- The first entry of the root takes the first block of all. -/
theorem EmArvore.raizNoDez_criar (h : fs.EmArvore) (hdez : fs.RaizNoDez) {tipo : FsItype}
    (htipo : tipo ≠ .unset) {d : ℕ} {file : CString} {n : Option ℕ}
    (hr : fsCriar tipo fs d file = some (fs', n)) : fs'.RaizNoDez := by
  have hcons := h.exacto.consistent
  rcases fsCriar_spec hcons tipo htipo d file with ⟨hno, -⟩ | ⟨fs₁, m, hyes, hc⟩
  · obtain ⟨rfl, -⟩ := Prod.mk.inj (Option.some.inj (hno.symm.trans hr))
    exact hdez
  obtain ⟨rfl, rfl⟩ := Prod.mk.inj (Option.some.inj (hyes.symm.trans hr))
  have hm1 : 1 ≠ m := hc.ne_of_alocado hcons.inodes.root.1
  intro hz
  by_cases hd : d = 1
  · subst hd
    by_cases hvazia : fs.sizeAt 1 = 0
    · -- nothing is in use, and the blocks below 10 are reserved
      have hfree := hc.bloco hvazia
      have hlivre : fs.ocupado 10 = false := by
        cases ho : fs.ocupado 10 with
        | false => rfl
        | true =>
            obtain ⟨s, hs, -⟩ := (hcons.acc.bits 10 le_rfl).mp ho
            exact absurd hvazia (h.raiz_ocupada hs)
      have hle := fsiBmapFindFree_le hfree hlivre
      have hge : 10 ≤ fs₁.slot (1, 0) := by
        by_contra hlt
        have hres := hcons.acc.reserved (fs₁.slot (1, 0)) (by omega)
        have hset : fs.ocupado (fs₁.slot (1, 0)) = false := (fsiBmapFindFree_eq_some hfree).2
        rw [hset] at hres
        cases hres
      omega
    · rw [fsCriar_slot_dir hr hm1 (lt_offsetToBlocks.mpr (by omega))]
      exact hdez hvazia
  · rw [hc.slot _ (Ne.symm hd), if_neg hm1]
    rw [hc.size, if_neg hm1, if_neg (Ne.symm hd)] at hz
    exact hdez hz

/-- The slots of the directory that it has in use after the removal. -/
theorem fsRemove_slot_dir (h : fs.Consistent) {d n q : ℕ} {nome : CString}
    (hr : fsRemove fs d nome = some (fs', some n)) (hrem : Removido fs fs' d nome.val n)
    (hq : q < offsetToBlocks (fs.sizeAt d - 16)) : fs'.slot (d, q) = fs.slot (d, q) := by
  have hdn : d ≠ n := hrem.ne.symm
  rcases fsRemove_casos hr with ⟨he, -⟩ | ⟨idFile, -, ⟨he, -⟩ | ⟨-, fs₂, ok, hent, he⟩⟩
  · cases he
  · cases he
  cases ok with
  | false => cases he
  | true =>
      obtain ⟨rfl, hid⟩ := Prod.mk.inj he
      obtain rfl := Option.some.inj hid
      rw [slot_congr (store_inodeTab _), semInode_slot, if_neg hdn]
      -- the blocks of the i-node go first
      obtain ⟨fs₁, hsem, hacc, hsame, hslot, -⟩ := removerBlocos_spec h.acc n
        (offsetToBlocks (fs.sizeAt n)) 0 fun r _ hr => h.mem_emUso_iff.mpr (by omega)
      have hsem' : semBlocos fs n = (fs₁, true) := hsem
      rw [hsem'] at hent
      have hdir₁ : fs₁.typeAt d = .fsDir := (hsame.type d).trans hrem.dir
      have hslotd : ∀ r, fs₁.slot (d, r) = fs.slot (d, r) := fun r => by
        rw [hslot, if_neg fun he => hdn he.1]
      rw [← hslotd]
      refine (removerEntrada_casos hdir₁ hent).slot_dir_of hdir₁ ?_ ?_ (by rwa [hsame.size])
      · rw [hsame.size]
        exact (h.dirs d hrem.dir).align
      · rw [hsame.size]
        by_cases hlive : fs.sizeAt d / 16 / dirPageEntries < offsetToBlocks (fs.sizeAt d)
        · exact hacc.refs_of_dir (Finset.mem_filter.mpr ⟨h.mem_emUso_iff.mpr hlive,
            fun he => hdn he.1⟩) hdir₁
        · rw [hslotd, (h.dirs d hrem.dir).clear _ (Nat.not_lt.mp hlive)]
          exact hacc.refs_of_lt (by decide)

theorem libertarDestino_inodeTab (fs : Fs) (i n : ℕ) :
    (libertarDestino fs i n).inodeTab = fs.inodeTab := by
  induction n with
  | zero => rfl
  | succ n ih =>
      rw [libertarDestino, List.range_succ, List.foldl_append]
      exact (apagarBloco_inodeTab _ _ _).trans ih

/-- A copy leaves the directories as they are. -/
theorem fsCopyInodes_dir (de para : ℕ) {d : ℕ} (ht : fs.typeAt d = .fsDir) (q : ℕ) :
    (fsCopyInodes fs de para).1.sizeAt d = fs.sizeAt d ∧
      (fsCopyInodes fs de para).1.slot (d, q) = fs.slot (d, q) := by
  rw [fsCopyInodes]
  split
  · exact ⟨rfl, rfl⟩
  · rename_i hfile
    have hne : d ≠ para := by
      rintro rfl
      exact hfile (by rw [show (fs.inodeTab d).type = _ from ht]; decide)
    have hsame := (libertarDestino_same fs para
      (offsetToBlocks (fs.inodeTab para).size)).trans
      (copiarReferencias_same _ de para 0 (offsetToBlocks
        ((libertarDestino fs para (offsetToBlocks (fs.inodeTab para).size)).inodeTab de).size))
    constructor
    · exact (setSize_sizeAt _ _ _ _).trans ((if_neg hne).trans (hsame.size d))
    · refine (setSize_slot _ _ _ _).trans ?_
      rw [copiarReferencias_slot_of _ fun _ => .inl rfl, if_neg fun he => hne he.1,
        slot_congr (libertarDestino_inodeTab _ _ _)]

theorem RaizNoDez.copiar (h : fs.RaizNoDez) (ht : fs.typeAt 1 = .fsDir) (de para : ℕ) :
    (fsCopyInodes fs de para).1.RaizNoDez := by
  obtain ⟨hsize, hslot⟩ := fsCopyInodes_dir de para ht 0
  intro hz
  rw [hsize] at hz
  rw [hslot]
  exact h hz

theorem EmArvore.raizNoDez_copiar (h : fs.EmArvore) (hdez : fs.RaizNoDez) {d₁ d₂ : ℕ}
    {nome₁ nome₂ : CString} {r : ℤ} (hr : fsCopy fs d₁ nome₁ d₂ nome₂ = some (fs', r)) :
    fs'.RaizNoDez := by
  have hraiz := h.exacto.consistent.inodes.root.2
  rcases fsCopy_casos hr with ⟨he, -⟩ | ⟨de, -, ⟨para, -, he⟩ | ⟨-, hcasos⟩⟩
  · rw [(Prod.mk.inj he).1]
    exact hdez
  · rw [(Prod.mk.inj he).1]
    exact hdez.copiar hraiz de para
  · rcases hcasos with ⟨-, he⟩ | ⟨fs₁, n, hcriar, -, hfim⟩
    · rw [(Prod.mk.inj he).1]
      exact hdez
    · have hdez₁ := h.raizNoDez_criar hdez (by decide) hcriar
      have hraiz₁ : fs₁.typeAt 1 = .fsDir := by
        rcases fsCriar_spec h.exacto.consistent .fsFile (by decide) d₂ nome₂ with
          ⟨hno, -⟩ | ⟨fs₂, m, hyes, hc⟩
        · cases hno.symm.trans hcriar
        · obtain ⟨rfl, -⟩ := Prod.mk.inj (Option.some.inj (hyes.symm.trans hcriar))
          exact hc.consistent.inodes.root.2
      rcases hfim with ⟨-, he⟩ | ⟨para, -, he⟩
      · rw [(Prod.mk.inj he).1]
        exact hdez₁
      · rw [(Prod.mk.inj he).1]
        exact hdez₁.copiar hraiz₁ de para

theorem EmArvore.raizNoDez_remover (h : fs.EmArvore) (hdez : fs.RaizNoDez) {d : ℕ}
    {nome : CString} {n : Option ℕ} (hr : fsRemove fs d nome = some (fs', n)) :
    fs'.RaizNoDez := by
  have hcons := h.exacto.consistent
  rcases fsRemove_spec hcons d nome with ⟨hno, -⟩ | ⟨fs₁, m, hyes, hrem⟩
  · obtain ⟨rfl, -⟩ := Prod.mk.inj (Option.some.inj (hno.symm.trans hr))
    exact hdez
  obtain ⟨rfl, rfl⟩ := Prod.mk.inj (Option.some.inj (hyes.symm.trans hr))
  have hm1 : 1 ≠ m := by
    rintro rfl
    obtain ⟨-, -, hge, -⟩ := (hcons.dirs d hrem.dir).entries _ (mem_of_procura hrem.achado)
    exact absurd (show 2 ≤ 1 from hge) (by decide)
  intro hz
  rw [hrem.size, if_neg hm1] at hz
  by_cases hd : d = 1
  · subst hd
    rw [if_pos rfl] at hz
    rw [fsRemove_slot_dir hcons hr hrem (lt_offsetToBlocks.mpr (by omega))]
    exact hdez (by omega)
  · rw [if_neg (Ne.symm hd)] at hz
    rw [hrem.slot _ (Ne.symm hd), if_neg hm1]
    exact hdez hz

theorem EmArvore.raizNoDez_exec (h : fs.EmArvore) (hdez : fs.RaizNoDez) {op : FsOp}
    (hop : op.EmOrdem fs) {r : Resposta} (he : op.exec fs = some (fs', r)) : fs'.RaizNoDez := by
  have hcons := h.exacto.consistent
  cases op with
  | create dir file =>
      obtain ⟨⟨fs₁, n⟩, hr, he⟩ := Option.map_eq_some_iff.mp he
      obtain ⟨rfl, -⟩ := Prod.mk.inj he
      exact h.raizNoDez_criar hdez (by decide) hr
  | mkdir dir newdir =>
      obtain ⟨⟨fs₁, n⟩, hr, he⟩ := Option.map_eq_some_iff.mp he
      obtain ⟨rfl, -⟩ := Prod.mk.inj he
      exact h.raizNoDez_criar hdez (by decide) hr
  | write file offset count buffer lixo =>
      obtain ⟨⟨fs₁, n⟩, hr, he⟩ := Option.map_eq_some_iff.mp he
      obtain ⟨rfl, -⟩ := Prod.mk.inj he
      rcases fsWrite_spec hcons file offset count buffer lixo with ⟨hno, -⟩ | ⟨fs₂, hyes, hw⟩
      · obtain ⟨rfl, -⟩ := Prod.mk.inj (Option.some.inj (hno.symm.trans hr))
        exact hdez
      · obtain ⟨rfl, -⟩ := Prod.mk.inj (Option.some.inj (hyes.symm.trans hr))
        have hf : 1 ≠ file := by
          rintro rfl
          cases hcons.inodes.root.2.symm.trans hw.ficheiro
        intro hz
        rw [hw.size 1 hf] at hz
        rw [hw.slot _ hf]
        exact hdez hz
  | read file offset count =>
      obtain ⟨⟨fs₁, n⟩, hr, he⟩ := Option.map_eq_some_iff.mp he
      obtain ⟨rfl, -⟩ := Prod.mk.inj he
      by_cases ht : fs.typeAt file = .fsFile
      · obtain ⟨c, hr', -, -⟩ := hcons.fsRead_eq ht offset count
        obtain ⟨rfl, -⟩ := Prod.mk.inj (Option.some.inj (hr'.symm.trans hr))
        exact hdez
      · have ht' : (fs.inodeTab file).type ≠ .fsFile := ht
        simp only [fsRead, ht', ne_eq, not_false_eq_true, if_true] at hr
        have hsame : fs₁ = fs := by
          split_ifs at hr <;> exact (Prod.mk.inj (Option.some.inj hr)).1.symm
        rw [hsame]
        exact hdez
  | copy d₁ nome₁ d₂ nome₂ =>
      obtain ⟨⟨fs₁, n⟩, hr, he⟩ := Option.map_eq_some_iff.mp he
      obtain ⟨rfl, -⟩ := Prod.mk.inj he
      exact h.raizNoDez_copiar hdez hr
  | remove d nome =>
      obtain ⟨⟨fs₁, n⟩, hr, he⟩ := Option.map_eq_some_iff.mp he
      obtain ⟨rfl, -⟩ := Prod.mk.inj he
      exact h.raizNoDez_remover hdez hr
  | append _ _ _ _ => exact absurd hop id
  | defrag => exact absurd hop id
  | actualizar intervalo =>
      obtain ⟨rfl, -⟩ := Prod.mk.inj (Option.some.inj he)
      exact hdez

theorem inicial_raizNoDez (pilha : ℕ → ℤ) : (inicial pilha).RaizNoDez := by
  obtain ⟨-, -, -, -, -, -, -, -, htab⟩ := inicial_spec pilha
  intro hz
  exact absurd (show (inicial pilha).sizeAt 1 = 0 by rw [sizeAt, htab]; rfl) hz

/-- The walk ends: the path of an entry is longer than that of its directory. -/
theorem EmArvore.gerarListaReferencias_isSome (h : fs.EmArvore)
    {caminho : ℕ → List (List Byte)} (hcam : ∀ p i, fs.no p = some i → caminho i = p) :
    ∃ n, (gerarListaReferencias fs n).isSome = true := by
  have hcons := h.exacto.consistent
  have hrank : ∀ d i, fs.Nomeia d i → (caminho d).length < (caminho i).length ∧
      (caminho i).length ≤ (Finset.range itabSize).sup fun j => (caminho j).length := by
    intro d i hn
    obtain ⟨hd, e, he, rfl⟩ := hcons.nomeia_iff.mp hn
    obtain ⟨p, hp, -⟩ := h.existe_no hd
    have hno : fs.no (p ++ [e.1]) = some e.2 := by
      rw [no_concat hp, resolve_of_dir hd]
      exact (procura_iff_mem (hcons.dirs d hd).nodup _ _).mpr he
    have hlt := ((hcons.dirs d hd).entries e he).2.2.2
    refine ⟨?_, Finset.le_sup (f := fun j => (caminho j).length) (Finset.mem_range.mpr hlt)⟩
    rw [hcam p d hp, hcam _ _ hno, List.length_append]
    exact Nat.lt_succ_self _
  exact ⟨_, gerarListaReferenciasAux_isSome hrank
    ((Finset.range itabSize).sup (fun j => (caminho j).length) + 1) 1 (by omega)
    (Finset.le_sup (f := fun j => (caminho j).length)
      (Finset.mem_range.mpr (by decide : 1 < itabSize))) [] newList⟩

end Fs

/-- After any run of calls in order on the formatted disk, `fs_diskUsage` ends if every path fits in
its buffers, and writes behind one otherwise. Its report, read back, has every slot in use once,
under the path of its i-node. -/
theorem fsDiskUsage_after_run (pilha : ℕ → ℤ) (ops : List FsOp)
    (hops : Runs.Permitted FsOp.exec FsOp.EmOrdem
      (fsFormat (fsNew Fs.discoServidor pilha)) ops) :
    ∃ (fs : Fs) (rs : List Resposta) (caminho : ℕ → List (List Byte)),
      Runs.run FsOp.exec (fsFormat (fsNew Fs.discoServidor pilha)) ops = some (fs, rs) ∧
      (∀ s ∈ fs.emUso, fs.no (caminho s.1) = some s.1) ∧
      (fs.CaminhosCabem → ∃ (n : ℕ) (linhas : List Linha) (usos : List (ℕ × List Byte)),
        (∀ m ≥ n, fsDiskUsage fs m = some linhas) ∧ lerLinhas 0 1 linhas = some usos ∧
        (usos : Multiset (ℕ × List Byte)) =
          ∑ s ∈ fs.emUso, {(fs.slot s, textoDe (caminho s.1))}) ∧
      (¬ fs.CaminhosCabem → ∀ m, fsDiskUsage fs m = none) := by
  obtain ⟨fs, rs, hrun, h, hdez⟩ := Runs.run_total (I := fun fs => fs.EmArvore ∧ fs.RaizNoDez)
    (fun s a hI ha => by
      obtain ⟨s₁, o, he, h₁, -⟩ := hI.1.exec ha
      exact ⟨s₁, o, he, h₁, hI.1.raizNoDez_exec hI.2 ha he⟩)
    ⟨Fs.inicial_emArvore pilha, Fs.inicial_raizNoDez pilha⟩ hops
  -- the path of an i-node
  obtain ⟨caminho, hcam⟩ : ∃ caminho : ℕ → List (List Byte),
      ∀ p i, fs.no p = some i → caminho i = p := by
    have hex : ∀ i, ∃ c, ∀ p, fs.no p = some i → c = p := by
      intro i
      by_cases hi : ∃ p, fs.no p = some i
      · obtain ⟨p, hp⟩ := hi
        exact ⟨p, fun q hq => h.rooted.follow_inj hp hq⟩
      · exact ⟨[], fun p hp => absurd ⟨p, hp⟩ hi⟩
    choose caminho hcaminho using hex
    exact ⟨caminho, fun p i hp => hcaminho i p hp⟩
  refine ⟨fs, rs, caminho, hrun, fun s hs => Fs.no_caminho h hcam hs, fun hcabe => ?_,
    fun hcabe m => ?_⟩
  · obtain ⟨n, hn⟩ := h.gerarListaReferencias_isSome hcam
    obtain ⟨lista, hl⟩ := Option.isSome_iff_exists.mp hn
    have hbuf : ∀ m ≥ n, gerarListaReferenciasBuf fs m 1 (texto []) newList = some lista :=
      fun m hm => Fs.gerarListaReferenciasBuf_of_cabem h hcabe rfl
        (Fs.gerarListaReferencias_mono hm hl)
    obtain ⟨hboa, hpares⟩ := Fs.gerarListaReferenciasAux_acresce h hcam (h.raizPrimeira hdez)
      (show fs.no [] = some 1 from rfl) (iff_of_true rfl rfl) ListaRef.Boa.vazia hl
    obtain ⟨linhas, himpressas, hlidas⟩ := lerLinhas_diskUsage (hbuf n le_rfl) hboa
    refine ⟨n, linhas, lista.pares, fun m hm => ?_, hlidas, ?_⟩
    · have hbuf' : ∀ m ≥ n, gerarListaReferenciasBuf fs m 1 [] newList = some lista := hbuf
      rw [← himpressas, fsDiskUsage, fsDiskUsage, hbuf' m hm, hbuf' n le_rfl]
    · have htudo : fs.abaixo caminho [] = fs.emUso :=
        Finset.filter_true_of_mem fun s _ => List.nil_prefix
      rw [hpares, htudo]
      exact zero_add _
  · cases hl : gerarListaReferenciasBuf fs m 1 [] newList with
    | none => rw [fsDiskUsage, hl, Option.bind_none]
    | some lista =>
        have hcabe' : fs.CaminhosCabem := fun p i hp =>
          Fs.length_le_of_gerarListaReferenciasBuf h (show fs.no [] = some 1 from rfl)
            (Nat.zero_le _) hl p hp
        exact absurd hcabe' hcabe

set_option maxRecDepth 100000 in
theorem fsDiskUsage_after_run_copia :
    ∃ (fs : Fs) (rs : List Resposta) (caminho : ℕ → List (List Byte)) (n : ℕ)
      (linhas : List Linha) (usos : List (ℕ × List Byte)),
      Runs.run FsOp.exec (fsFormat (fsNew Fs.discoServidor fun _ => 7)) chamadasPartilhadas =
        some (fs, rs) ∧
      fs.slot (4, 1) = fs.slot (3, 1) ∧ {(3, 1), (4, 1)} ⊆ fs.emUso ∧
      (∀ s ∈ fs.emUso, fs.no (caminho s.1) = some s.1) ∧
      (∀ m ≥ n, fsDiskUsage fs m = some linhas) ∧ lerLinhas 0 1 linhas = some usos ∧
      (usos : Multiset (ℕ × List Byte)) =
        ∑ s ∈ fs.emUso, {(fs.slot s, textoDe (caminho s.1))} := by
  obtain ⟨fs, rs, caminho, hrun, hcam, hcabe, -⟩ := fsDiskUsage_after_run (fun _ => 7)
    chamadasPartilhadas (by rw [Fs.fsFormat_eq_formatado]; decide +kernel)
  obtain ⟨fs', rs', hrun', hslot, huso, hent⟩ : ∃ fs rs,
      Runs.run FsOp.exec (fsFormat (fsNew Fs.discoServidor fun _ => 7)) chamadasPartilhadas =
        some (fs, rs) ∧ fs.slot (4, 1) = fs.slot (3, 1) ∧ {(3, 1), (4, 1)} ⊆ fs.emUso ∧
      ∀ d < itabSize, fs.typeAt d = .fsDir → ∀ e ∈ fs.entradas d,
        e.2 < itabSize ∧ 2 * (d - 1) + (barra :: e.1).length ≤ 2 * (e.2 - 1) := by
    rw [Fs.fsFormat_eq_formatado]
    exact Runs.exists_run_of_any (by decide +kernel)
  obtain ⟨rfl, -⟩ := Prod.mk.inj (Option.some.inj (hrun'.symm.trans hrun))
  -- the names have one character
  obtain ⟨n, linhas, usos, hlinhas⟩ := hcabe (Fs.caminhosCabem_of_entradas (fun i => 2 * (i - 1))
    hent fun i hi => by simp only [itabSize, maxPathNameSize] at hi ⊢; omega)
  exact ⟨fs', rs, caminho, n, linhas, usos, hrun, hslot, huso, hcam, hlinhas⟩

end ThreadScheduler.SnfsServer
