import ThreadScheduler.SnfsServer.CacheAges
import ThreadScheduler.SnfsServer.NameTree
import ThreadScheduler.SnfsServer.StoredTables

/-!
# The disk alone

The cache writes with delay, and the calls store the tables at once. After sweeps of ten seconds
behind the last change, a file system that starts from the disk shows the same names and files.
-/
namespace ThreadScheduler.SnfsServer

open CacheT

/-- `fs_new` over a disk that holds something already. -/
def Fs.doDisco (disco : Blocks) (pilha : ℕ → ℤ) : Fs :=
  fsiLoadFsdata
    { cache := criarCache dimCache disco pilha
      referencias := fun _ => 0
      inodeBmap := nullBlock
      blkBmap := nullBlock
      inodeTab := fun _ => fsiInodeInit .unset }

theorem fsNew_eq (numBlocks : ℕ) (pilha : ℕ → ℤ) :
    fsNew numBlocks pilha = Fs.doDisco (blockNew numBlocks) pilha := rfl

namespace FsOp

/-- Time does not run back. -/
def Relogio : FsOp → Prop
  | actualizar intervalo => 0 ≤ intervalo
  | _ => True

instance : DecidablePred Relogio
  | actualizar intervalo => inferInstanceAs (Decidable (0 ≤ intervalo))
  | create _ _ | mkdir _ _ | write _ _ _ _ _ | read _ _ _ | copy _ _ _ _ | remove _ _
  | append _ _ _ _ | defrag => isTrue trivial

/-- A read, or a sweep. -/
def Sossegada : FsOp → Prop
  | read _ _ _ => True
  | actualizar intervalo => 0 ≤ intervalo
  | _ => False

/-- The seconds that pass with a call. -/
def segundos : FsOp → ℤ
  | actualizar intervalo => intervalo
  | _ => 0

end FsOp

/-! ## The cache comes to rest -/

theorem CacheT.Assente.exec {fs fs' : Fs} (h : fs.cache.Assente) (hc : fs.cache.Coherent) {op : FsOp}
    (hop : op.Relogio) {r : Resposta} (he : op.exec fs = some (fs', r)) : fs'.cache.Assente := by
  rcases FsOp.exec_passos he with hp | ⟨t, rfl, rfl⟩
  · exact hp.mantem (fun _ _ ha hpasso => ha.passo hpasso) h
  · exact h.varrer hc hop

/-- The tables are those of `fs₀` and so is what the cache shows, and what is modified in it has been
there for `T` seconds. -/
structure Repouso (fs₀ : Fs) (T : ℤ) (fs : Fs) : Prop where
  arvore : fs.EmArvore
  tabelas : fs = fs₀.withCache fs.cache
  conteudo : fs.cache.conteudo = fs₀.cache.conteudo
  arrumada : fs.cache.Arrumada
  desde : fs.cache.Desde T

theorem leituras_repouso {c c' : CacheT} {T : ℤ} (h : Leituras c c') (hc : c.Coherent)
    (harr : c.Arrumada) (hd : c.Desde T) :
    c'.Coherent ∧ c'.Arrumada ∧ c'.Desde T ∧ c'.conteudo = c.conteudo := by
  induction h with
  | refl => exact ⟨hc, harr, hd, rfl⟩
  | tail _ hler ih =>
      obtain ⟨hc, harr, hd, hcont⟩ := ih
      obtain ⟨b, bloco, hler⟩ := hler
      obtain ⟨hb, hherda⟩ := herda_ler harr hler
      obtain ⟨c₁, hler₁, hc₁, hholds⟩ := lerCache_holds hc hb
      obtain ⟨c₂, bloco₂, hler₂, hcar⟩ := lerCache_carregada harr hb
      obtain ⟨rfl, rfl⟩ := Prod.mk.inj (Option.some.inj (hler₁.symm.trans hler))
      obtain ⟨rfl, rfl⟩ := Prod.mk.inj (Option.some.inj (hler₂.symm.trans hler))
      refine ⟨hc₁, hcar.arrumada, hherda.desde hd, ?_⟩
      rw [hholds.conteudo, Function.update_eq_self, hcont]

theorem Repouso.exec {fs₀ fs : Fs} {T : ℤ} (h : Repouso fs₀ T fs) {op : FsOp}
    (hop : op.Sossegada) : ∃ fs' r, op.exec fs = some (fs', r) ∧
      Repouso fs₀ (T + op.segundos) fs' := by
  have hcoh := h.arvore.exacto.consistent.acc.coherent
  cases op with
  | read file offset count =>
      obtain ⟨fs', r, he, h', -⟩ := h.arvore.exec
        (show FsOp.EmOrdem fs (.read file offset count) from trivial)
      obtain ⟨⟨fs₁, lido⟩, hr, hx⟩ := Option.map_eq_some_iff.mp he
      obtain ⟨rfl, -⟩ := Prod.mk.inj hx
      obtain ⟨c, rfl, hler⟩ := Fs.fsRead_leituras hr
      obtain ⟨-, harr, hd, hcont⟩ := leituras_repouso hler hcoh h.arrumada h.desde
      refine ⟨_, r, he, h', ?_, hcont.trans h.conteudo, harr, ?_⟩
      · rw [h.tabelas]
        rfl
      · have hseg : T + (FsOp.read file offset count).segundos = T := add_zero T
        rw [hseg]
        exact hd
  | actualizar t =>
      obtain ⟨fs', r, he, h', -⟩ := h.arvore.exec
        (show FsOp.EmOrdem fs (.actualizar t) from trivial)
      obtain ⟨rfl, -⟩ := Prod.mk.inj (Option.some.inj he)
      have hs := actualizarCache_settled hcoh t
      refine ⟨_, r, he, h', ?_, (funext hs.conteudo).trans h.conteudo,
        (actualizarCache_varrida h.arrumada t).arrumada, h.desde.varrer h.arrumada t⟩
      rw [h.tabelas]
      rfl
  | create _ _ => exact hop.elim
  | mkdir _ _ => exact hop.elim
  | write _ _ _ _ _ => exact hop.elim
  | copy _ _ _ _ => exact hop.elim
  | remove _ _ => exact hop.elim
  | append _ _ _ _ => exact hop.elim
  | defrag => exact hop.elim

theorem Repouso.run {fs₀ fs : Fs} {T : ℤ} (h : Repouso fs₀ T fs) {ops : List FsOp}
    (hops : ∀ op ∈ ops, op.Sossegada) : ∃ fs' rs, Runs.run FsOp.exec fs ops = some (fs', rs) ∧
      Repouso fs₀ (T + (ops.map FsOp.segundos).sum) fs' := by
  induction ops generalizing fs T with
  | nil => exact ⟨fs, [], rfl, by simpa using h⟩
  | cons op ops ih =>
      obtain ⟨hop, hops⟩ := List.forall_mem_cons.mp hops
      obtain ⟨fs₁, r, he, h₁⟩ := h.exec hop
      obtain ⟨fs', rs, hr, h'⟩ := ih h₁ hops
      refine ⟨fs', r :: rs, by rw [Runs.run, he, Option.bind_some, hr]; rfl, ?_⟩
      rw [List.map_cons, List.sum_cons, ← add_assoc]
      exact h'

/-- The tables that the disk held are there still. -/
theorem Repouso.gravadas {fs₀ fs : Fs} {T : ℤ} (h : Repouso fs₀ T fs)
    (hcons : fs₀.Consistent) (hg : fs₀.TabelasGravadas) : fs.TabelasGravadas := by
  have hcons' := h.arvore.exacto.consistent
  have hread : ∀ b < 10, fs.readDisk b = fs₀.readDisk b := by
    intro b hb
    have hnum : ∀ fs : Fs, fs.Consistent → b < fs.cache.disco.numBlocks := by
      intro fs hc
      rw [hc.acc.disco]
      exact hb.trans (by decide)
    rw [Fs.readDisk, Fs.readDisk, blockRead_of_lt (hnum fs hcons'), blockRead_of_lt (hnum fs₀ hcons)]
    dsimp only
    rw [← conteudo_of_not_valid (hcons'.acc.not_valid_of_lt hb), h.conteudo,
      conteudo_of_not_valid (hcons.acc.not_valid_of_lt hb)]
  have ht := h.tabelas
  refine ⟨?_, ?_, fun j hj => ?_⟩
  · rw [hread 0 (by decide), hg.blkBmap, ht]
    rfl
  · rw [hread 1 (by decide), hg.inodeBmap, ht]
    rfl
  · rw [hread (j + 2) (by omega), hg.inodeTab j hj, ht]
    rfl

theorem Repouso.vista {fs₀ fs : Fs} {T : ℤ} (h : Repouso fs₀ T fs) (h₀ : fs₀.EmArvore) :
    fs.vista = fs₀.vista := by
  have hex : (fs₀.withCache fs.cache).Exacto := h.tabelas ▸ h.arvore.exacto
  obtain ⟨-, hmod⟩ := h₀.exacto.withCache h.conteudo hex.consistent
  obtain ⟨-, hno⟩ := h₀.mesmosNomes hex (Fs.mesmosNomes_withCache h.conteudo)
  rw [h.tabelas, Fs.vista, hno, hmod]
  rfl

/-! ## Starting from the disk -/

namespace Fs

variable {fs : Fs} (pilha : ℕ → ℤ)

section Recuperaveis

variable (hrec : fs.Recuperaveis) (hdisco : ∀ b, fs.cache.conteudo b = fs.cache.disco.blocks b)

include hrec

include hdisco

end Recuperaveis

end Fs

/-! ## Runs -/

theorem FsOp.Feita.relogio {op : FsOp} {r : Resposta} (h : op.Feita r) : op.Relogio := by
  cases op with
  | actualizar _ => exact h.elim
  | _ => trivial

end ThreadScheduler.SnfsServer
