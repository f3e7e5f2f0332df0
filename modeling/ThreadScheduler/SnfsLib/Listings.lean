import ThreadScheduler.SnfsLib.PathEffects

/-!
# Listings of directories

`my_listdir` writes the names one after another in a buffer of its own. They are read back from
there as the entries of the directory, each of them once.
-/
namespace ThreadScheduler.SnfsServer

theorem zero_notMem_cstrAt (page : Block) (off n : ℕ) : 0#8 ∉ cstrAt page off n := by
  induction n generalizing off with
  | zero => simp [cstrAt]
  | succ n ih =>
      rw [cstrAt]
      split
      · simp
      · rename_i hne
        rw [List.mem_cons, not_or]
        exact ⟨fun he => hne he.symm, ih (off + 1)⟩

theorem zero_notMem_entradas {fs : Fs} {d : ℕ} {e : List Byte × ℕ} (he : e ∈ fs.entradas d) :
    0#8 ∉ e.1 := by
  obtain ⟨k, -, rfl⟩ := List.mem_map.mp he
  exact zero_notMem_cstrAt _ _ _

/-- The names in the list of the response. -/
theorem preencherLista_nomes {entries : List (List Byte × FsItype)}
    (htipo : ∀ e ∈ entries, e.2 ≠ .unset) (hcurto : ∀ e ∈ entries, e.1.length ≤ maxFileNameSize) :
    ∃ list, preencherLista entries = some list ∧ list.map Prod.fst = entries.map Prod.fst := by
  induction entries with
  | nil => exact ⟨[], rfl, rfl⟩
  | cons e entries ih =>
      obtain ⟨list, hlist, hnomes⟩ := ih (fun x hx => htipo x (.tail _ hx))
        fun x hx => hcurto x (.tail _ hx)
      have htake : e.1.take maxFileNameSize = e.1 :=
        List.take_of_length_le (hcurto e List.mem_cons_self)
      have hne := htipo e List.mem_cons_self
      obtain ⟨name, type⟩ := e
      cases type with
      | unset => exact absurd rfl hne
      | fsFile => exact ⟨_, by rw [preencherLista, hlist]; rfl, by simp [hnomes, htake]⟩
      | fsDir => exact ⟨_, by rw [preencherLista, hlist]; rfl, by simp [hnomes, htake]⟩

end ThreadScheduler.SnfsServer

namespace ThreadScheduler.SnfsLib
open SnfsServer CBuffers

/-- The names that were written are read back, if they fit. -/
theorem escreverNomes_lidos (names : List (List Byte)) (fnames : List Byte)
    (hzero : ∀ name ∈ names, 0#8 ∉ name) (hcurto : ∀ name ∈ names, name.length < maxFileNameSize)
    (hcabe : (maxFileNameSize + 1) * names.length ≤ fnames.length) :
    ∃ buf, escreverNomes fnames names = some buf ∧ buf.length = fnames.length ∧
      strings 0#8 names.length buf = some names := by
  induction names generalizing fnames with
  | nil => exact ⟨fnames, rfl, rfl, rfl⟩
  | cons name names ih =>
      have hz := hzero name List.mem_cons_self
      have hc := hcurto name List.mem_cons_self
      rw [List.length_cons] at hcabe
      have hlt : name.length < fnames.length := by
        simp only [maxFileNameSize] at hc hcabe
        omega
      have hdrop : (name ++ 0#8 :: fnames.drop (name.length + 1)).drop (name.length + 1) =
          fnames.drop (name.length + 1) := by
        rw [← List.drop_drop, List.drop_left, List.drop_one, List.tail_cons]
      have htake : (name ++ 0#8 :: fnames.drop (name.length + 1)).take (name.length + 1) =
          name ++ [0#8] := by
        rw [List.take_length_add_append]
        rfl
      obtain ⟨buf, hbuf, hlen, hlidos⟩ := ih (fnames.drop (name.length + 1))
        (fun x hx => hzero x (.tail _ hx)) (fun x hx => hcurto x (.tail _ hx))
        (by
          rw [List.length_drop]
          simp only [maxFileNameSize] at hc hcabe ⊢
          omega)
      refine ⟨name ++ 0#8 :: buf, ?_, ?_, ?_⟩
      · rw [escreverNomes, (holds_filled hz hc).contents_eq, Option.bind_some, CBuffers.strcpy,
          if_pos hlt, Option.bind_some, hdrop, hbuf, htake, Option.map_some, List.append_assoc]
        rfl
      · rw [List.length_append, List.length_cons, hlen, List.length_drop]
        omega
      · rw [List.length_cons, strings_append hz, hlidos]
        rfl

/-- The path of a directory: that of the root has a spelling of its own. -/
def rota (cs : List Componente) : CString :=
  if cs = [] then ⟨[barra], by decide⟩ else trajeto cs

variable {fs : Fs} {cs : List Componente}

/-- The handle of the directory to list. -/
theorem rota_dir (h : fs.EmArvore) (hlen : (rota cs).val.length < maxPathNameSize) (lixo : ℕ) :
    myparse (rota cs) = some 0 ∧
      (if (rota cs).val.length = 1 ∧ (rota cs).val.head? = some barra then some (fs, some 1)
        else (snfsLookup fs (rota cs) lixo).map fun (fs, dir, procura) =>
          (fs, procura.map fun _ => dir)) = some (fs, fs.no (nomes cs)) := by
  by_cases hne : cs = []
  · subst hne
    exact ⟨by decide, rfl⟩
  · have hr : rota cs = trajeto cs := if_neg hne
    rw [hr] at hlen ⊢
    refine ⟨myparse_trajeto hne hlen, ?_⟩
    have hlong : (trajeto cs).val.length ≠ 1 := by
      obtain ⟨inicio, ultimo, rfl⟩ := (List.eq_nil_or_concat' cs).resolve_left hne
      have hpos := List.length_pos_of_ne_nil ultimo.property.naoVazio
      rw [trajeto_concat, List.length_append, List.length_cons]
      omega
    rw [if_neg fun he => hlong he.1, snfsLookup_trajeto h hne hlen]
    cases fs.no (nomes cs) <;> rfl

/-- `my_listdir` lists the names in a directory, each of them once. -/
theorem myListdir_vista (h : fs.EmArvore) (hlen : (rota cs).val.length < maxPathNameSize)
    (c : Cliente) (lixo : ℕ) (memoria : ℕ → Byte) :
    ∃ r, myListdir c fs (rota cs) lixo memoria = some (fs, r) ∧
      ((∃ n buf names, r = some (n, buf) ∧ fs.vista.Pasta (nomes cs) ∧
          strings 0#8 n buf = some names ∧ names.Nodup ∧
          ∀ y, y ∈ names ↔ (fs.no (nomes cs ++ [y])).isSome) ∨
        r = none ∧ (c.libInitted = true → ¬ fs.vista.Pasta (nomes cs))) := by
  cases hlib : c.libInitted with
  | false => exact ⟨none, by simp [myListdir, hlib], .inr ⟨rfl, fun he => nomatch he⟩⟩
  | true =>
      obtain ⟨hparse, hdir⟩ := rota_dir h hlen lixo
      rw [myListdir, hlib, if_neg (by simp), hparse, Option.bind_some, if_neg (by simp), hdir,
        Option.bind_some]
      dsimp only
      cases hno : fs.no (nomes cs) with
      | none =>
          refine ⟨none, rfl, .inr ⟨rfl, fun _ => ?_⟩⟩
          rintro ⟨n, hn, -⟩
          have hn : fs.no (nomes cs) = some n := hn
          rw [hno] at hn
          cases hn
      | some d =>
          have hcons := h.exacto.consistent
          have hlt := hcons.lt_of_alocado (h.alocado_no hno).2
          dsimp only
          rw [snfsReaddir, SnfsServer.snfsReaddir, toInodeid_of_lt hlt,
            show (BitVec.ofNat 32 maxReaddirEntries).toInt = 64 by decide]
          by_cases ht : fs.typeAt d = .fsDir
          · have hok := hcons.dirs d ht
            have hle := hcons.sizeAt_dir_le ht
            have htake : (fs.entradas d).take (64 : ℤ).toNat = fs.entradas d :=
              List.take_of_length_le (by rw [Fs.length_entradas]; omega)
            have hread := hcons.fsReaddir_eq ht (show (0 : ℤ) ≤ 64 by decide)
            rw [htake] at hread
            have hcurto : ∀ e ∈ (fs.entradas d).map fun e => (e.1, fs.typeAt e.2),
                e.1.length < maxFileNameSize := by
              rw [List.forall_mem_map]
              exact fun e he => (hok.entries e he).2.1
            obtain ⟨list, hlist, hnames⟩ := preencherLista_nomes
              (h.ligado.fsReaddir_tipos hcons hread) fun e he => (hcurto e he).le
            rw [List.map_map] at hnames
            have hnames : list.map Prod.fst = (fs.entradas d).map Prod.fst := hnames
            obtain ⟨buf, hbuf, -, hlidos⟩ := escreverNomes_lidos (list.map Prod.fst)
              ((List.range ((maxFileNameSize + 1) * list.length)).map memoria)
              (by
                rw [hnames, List.forall_mem_map]
                exact fun e he => zero_notMem_entradas he)
              (by
                rw [hnames, List.forall_mem_map]
                exact fun e he => (hok.entries e he).2.1)
              (by simp)
            rw [List.length_map] at hlidos
            refine ⟨some (list.length, buf), ?_, .inl ⟨_, buf, _, rfl, (h.pasta_iff hno).mpr ht,
              hlidos, ?_, fun y => ?_⟩⟩
            · rw [hread, Option.bind_some]
              dsimp only
              rw [hlist, Option.map_some, Option.map_some, Option.bind_some]
              dsimp only
              rw [hbuf]
              rfl
            · rw [hnames]
              exact hok.nodup
            · rw [hnames, Fs.mem_nomes_iff hno ht]
          · rw [Fs.fsReaddir_recusado fun he => ht he.1]
            exact ⟨none, rfl, .inr ⟨rfl, fun _ hp => ht ((h.pasta_iff hno).mp hp)⟩⟩

end ThreadScheduler.SnfsLib
