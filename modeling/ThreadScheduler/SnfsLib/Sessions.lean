import ThreadScheduler.SnfsLib.Listings
import ThreadScheduler.SnfsLib.ReadLoop

/-!
# Sessions

Calls on paths, and requests to read and write, are made one after another by clients in whatever
state. What each of them may do is said on the paths and the files alone.
-/
namespace ThreadScheduler.SnfsLib
open SnfsServer CBuffers

/-- A call of a client, with what it finds in variables that have not been set; of `my_read` and
`my_write`, one request. -/
inductive Chamada where
  | abrir (c : Cliente) (cs : List Componente) (flags : ℤ) (lixo lixo' : ℕ)
  | mkdir (c : Cliente) (cs : List Componente) (lixo : ℕ → ℕ)
  | remove (c : Cliente) (cs : List Componente) (lixo : ℕ → ℕ)
  | copy (c : Cliente) (cs cs' : List Componente) (lixo : ℕ → ℕ)
  | listdir (c : Cliente) (cs : List Componente) (lixo : ℕ) (memoria : ℕ → Byte)
  | read (fhandle offset count : ℕ)
  | write (fhandle offset count : ℕ) (data : ℕ → Byte) (lixo : Block)

/-- What a call gives back. -/
inductive Retorno where
  | valor (r : ℤ)
  | listagem (r : Option (ℕ × List Byte))
  | lido (data : Option (List Byte))
  | escrito (fsize : Option ℕ)

namespace Chamada

def exec (fs : Fs) : Chamada → Option (Fs × Retorno)
  | abrir c cs flags lixo lixo' =>
      (myOpen c fs (trajeto cs) flags lixo lixo').map fun (_, fs, r) => (fs, .valor r)
  | mkdir c cs lixo => (myMkdir c fs (trajeto cs) lixo).map fun (fs, r) => (fs, .valor r)
  | remove c cs lixo => (myRemove c fs (trajeto cs) lixo).map fun (fs, r) => (fs, .valor r)
  | copy c cs cs' lixo =>
      (myCopy c fs (trajeto cs) (trajeto cs') lixo).map fun (fs, r) => (fs, .valor r)
  | listdir c cs lixo memoria =>
      (myListdir c fs (rota cs) lixo memoria).map fun (fs, r) => (fs, .listagem r)
  | read fhandle offset count =>
      ((servidorFs fun _ _ => nullBlock).read fs fhandle offset count).map fun (fs, r) =>
        (fs, .lido r)
  | write fhandle offset count data lixo =>
      ((servidorFs fun _ _ => lixo).write fs fhandle offset count data).map fun (fs, r) =>
        (fs, .escrito r)

/-- The paths fit in their buffers. What is removed is the last entry of its directory, if it is
removed at all, and a file that is copied onto itself shares its blocks. -/
def Admitida (fs : Fs) : Chamada → Prop
  | abrir _ cs _ _ _ => cs ≠ [] ∧ (trajeto cs).val.length < maxPathNameSize
  | mkdir _ cs _ => cs ≠ [] ∧ (trajeto cs).val.length < maxPathNameSize
  | remove _ cs _ => ∃ hne : cs ≠ [], (trajeto cs).val.length < maxPathNameSize ∧
      ∀ d, fs.no (nomes cs.dropLast) = some d →
        fs.RemoverRecusado d (cs.getLast hne).val ∨
          (fs.entradas d).getLast?.map Prod.fst = some (cs.getLast hne).val.val
  | copy _ cs cs' _ => (cs ≠ [] ∧ (trajeto cs).val.length < maxPathNameSize) ∧
      (cs' ≠ [] ∧ (trajeto cs').val.length < maxPathNameSize) ∧
      (cs = cs' → ∀ n, fs.no (nomes cs) = some n → fs.typeAt n = .fsFile → fs.Partilha n n)
  | listdir _ cs _ _ => (rota cs).val.length < maxPathNameSize
  | read _ _ _ => True
  | write _ _ _ _ _ => True

instance decidableAdmitida (fs : Fs) : ∀ a, Decidable (Admitida fs a)
  | abrir _ cs _ _ _ | mkdir _ cs _ =>
      inferInstanceAs (Decidable (cs ≠ [] ∧ (trajeto cs).val.length < maxPathNameSize))
  | remove _ cs _ =>
      inferInstanceAs (Decidable (∃ hne : cs ≠ [], (trajeto cs).val.length < maxPathNameSize ∧
        ∀ d ∈ fs.no (nomes cs.dropLast), fs.RemoverRecusado d (cs.getLast hne).val ∨
          (fs.entradas d).getLast?.map Prod.fst = some (cs.getLast hne).val.val))
  | copy _ cs cs' _ =>
      inferInstanceAs (Decidable ((cs ≠ [] ∧ (trajeto cs).val.length < maxPathNameSize) ∧
        (cs' ≠ [] ∧ (trajeto cs').val.length < maxPathNameSize) ∧
        (cs = cs' → ∀ n ∈ fs.no (nomes cs), fs.typeAt n = .fsFile → fs.Partilha n n)))
  | listdir _ cs _ _ => inferInstanceAs (Decidable ((rota cs).val.length < maxPathNameSize))
  | read _ _ _ | write _ _ _ _ _ => isTrue trivial

end Chamada

/-- What a call may do, on the paths and the files. A call that fails says why, unless the library
was not initialized. -/
def Efeito (m : Vista) : Chamada → Retorno → Vista → Prop
  | .abrir c cs flags _ _, .valor r, m' =>
      (∃ n : ℕ, r = n ∧ m.no (nomes cs) = some n ∧ m' = m) ∨
      (∃ n : ℕ, r = n ∧ flags = oCreate ∧ m.Cria (nomes cs) n (some []) m') ∨
      r = -1 ∧ m' = m ∧ (c.libInitted = true → c.openFiles < maxOpenFiles →
        m.no (nomes cs) = none ∧ (flags = oCreate → ¬ m.Livre (nomes cs)))
  | .mkdir c cs _, .valor r, m' =>
      r = 0 ∧ (∃ n, m.Cria (nomes cs) n none m') ∨
      r = -1 ∧ m' = m ∧ (c.libInitted = true → ¬ m.Livre (nomes cs))
  | .remove c cs _, .valor r, m' =>
      r = 1 ∧ m.Apaga (nomes cs) m' ∨
      r = 0 ∧ m' = m ∧ (c.libInitted = true → m.no (nomes cs) = none ∨
        m.Pasta (nomes cs) ∧ ∃ y, (m.no (nomes cs ++ [y])).isSome)
  | .copy c cs cs' _, .valor r, m' =>
      r = 1 ∧ m.Copia (nomes cs) (nomes cs') m' ∨
      -- the file was made before the server saw that a directory cannot be copied
      r = 0 ∧ m.Pasta (nomes cs) ∧ (∃ n, m.Cria (nomes cs') n (some []) m') ∨
      r = 0 ∧ m' = m ∧ (c.libInitted = true → m.no (nomes cs) = none ∨
        ¬ m.Livre (nomes cs') ∧
          (m.Pasta (nomes cs) ∨ ∀ s, ¬ m.Ficheiro (nomes cs') s))
  | .listdir c cs _ _, .listagem r, m' => m' = m ∧
      ((∃ n buf names, r = some (n, buf) ∧ m.Pasta (nomes cs) ∧ strings 0#8 n buf = some names ∧
          names.Nodup ∧ ∀ y, y ∈ names ↔ (m.no (nomes cs ++ [y])).isSome) ∨
        r = none ∧ (c.libInitted = true → ¬ m.Pasta (nomes cs)))
  | .read fhandle offset count, .lido r, m' => m' = m ∧
      r = if count ≤ maxReadData then m.conteudo.ler (toInodeid fhandle) offset count else none
  | .write fhandle offset count data _, .escrito r, m' =>
      (∃ s, m.conteudo (toInodeid fhandle) = some s ∧
        r = some (Fs.sobrepor s offset count data).length ∧
        m' = ⟨m.no, Function.update m.conteudo (toInodeid fhandle)
          (some (Fs.sobrepor s offset count data))⟩) ∨
      r = none ∧ m' = m ∧ (count ≤ maxWriteData → ∀ s, m.conteudo (toInodeid fhandle) = some s →
        blockSize * inodeNumBlks < min offset s.length + count)
  | _, _, _ => False

section Pedidos

variable {fs : Fs}

/-- A request to read brings the bytes of the file. -/
theorem read_vista (h : fs.EmArvore) (fhandle offset count : ℕ) (lixo : Fs → ℕ → Block) :
    ∃ fs' r, (servidorFs lixo).read fs fhandle offset count = some (fs', r) ∧ fs'.EmArvore ∧
      fs'.vista = fs.vista ∧
      r = if count ≤ maxReadData then fs.modelo.ler (toInodeid fhandle) offset count else none := by
  rw [servidorFs]
  dsimp only
  rw [snfsRead]
  by_cases hcount : count ≤ maxReadData
  · obtain ⟨fs', r, hr, hex, hm⟩ := h.exacto.fsRead_nomes (toInodeid fhandle) offset count
    obtain ⟨fs₁, hr', -, hmod⟩ := h.exacto.fsRead_eq (toInodeid fhandle) offset count
    obtain ⟨rfl, rfl⟩ := Prod.mk.inj (Option.some.inj (hr.symm.trans hr'))
    obtain ⟨h', hno⟩ := h.mesmosNomes hex hm
    refine ⟨fs', _, ?_, h', congrArg₂ Vista.mk hno hmod, (if_pos hcount).symm⟩
    rw [if_pos hcount, hr, Option.map_some, Option.map_some]
    cases fs.modelo.ler (toInodeid fhandle) offset count <;> rfl
  · exact ⟨fs, none, by rw [if_neg hcount]; rfl, h, rfl, (if_neg hcount).symm⟩

/-- A request to write lays its bytes over the file. -/
theorem write_vista (h : fs.EmArvore) (fhandle offset count : ℕ) (data : ℕ → Byte)
    (lixo : Fs → ℕ → Block) :
    ∃ fs' r, (servidorFs lixo).write fs fhandle offset count data = some (fs', r) ∧
      fs'.EmArvore ∧
      ((∃ s, fs.modelo (toInodeid fhandle) = some s ∧
          r = some (Fs.sobrepor s offset count data).length ∧
          fs'.vista = ⟨fs.no, Function.update fs.modelo (toInodeid fhandle)
            (some (Fs.sobrepor s offset count data))⟩) ∨
        r = none ∧ fs' = fs ∧ (count ≤ maxWriteData →
          ∀ s, fs.modelo (toInodeid fhandle) = some s →
            blockSize * inodeNumBlks < min offset s.length + count)) := by
  have hcons := h.exacto.consistent
  rw [servidorFs]
  dsimp only
  rw [snfsWrite]
  by_cases hcount : count ≤ maxWriteData
  · rw [if_pos hcount]
    rcases Fs.fsWrite_spec hcons (toInodeid fhandle) offset count data (lixo fs offset) with
      ⟨hr, hrec⟩ | ⟨fs', hr, hw⟩
    · refine ⟨fs, none, by rw [hr]; rfl, h, .inr ⟨rfl, rfl, fun _ s hs => ?_⟩⟩
      rcases hrec with hno | hno
      · exact absurd (Fs.modelo_some hs).2.1 hno
      · rwa [Fs.length_modelo hs]
    · obtain ⟨hex, hm⟩ := h.exacto.escrito hw
      obtain ⟨h', hno⟩ := h.mesmosNomes hex (hw.mesmosNomes hcons)
      have hs := Fs.modelo_of_file hcons hw.ficheiro
      rw [hs, Option.map_some] at hm
      have hs' : fs'.modelo (toInodeid fhandle) =
          some (Fs.sobrepor (fs.bytes (toInodeid fhandle)) offset count data) := by
        rw [hm, Function.update_self]
      have ht : fs'.typeAt (toInodeid fhandle) ≠ .unset := by
        rw [hw.type, hw.ficheiro]
        decide
      obtain ⟨attrs, hattrs⟩ := hw.consistent.fsGetAttrs_of_type ht
      refine ⟨fs', some attrs.size, ?_, h', .inl ⟨_, hs, ?_, congrArg₂ Vista.mk hno hm⟩⟩
      · rw [hr, Option.bind_some]
        dsimp only
        rw [if_pos rfl, hattrs]
        rfl
      · rw [Fs.length_modelo hs', Fs.fsGetAttrs_size hattrs]
  · exact ⟨fs, none, by rw [if_neg hcount]; rfl, h, .inr ⟨rfl, rfl, fun hc => absurd hc hcount⟩⟩

end Pedidos

/-- One call. -/
theorem Chamada.exec_efeito {fs : Fs} (h : fs.EmArvore) {a : Chamada} (ha : a.Admitida fs) :
    ∃ fs' r, a.exec fs = some (fs', r) ∧ fs'.EmArvore ∧ Efeito fs.vista a r fs'.vista := by
  cases a with
  | abrir c cs flags lixo lixo' =>
      obtain ⟨c', fs', r, hr, h', he⟩ := myOpen_vista h ha.1 ha.2 c flags lixo lixo'
      refine ⟨fs', .valor r, by rw [exec, hr]; rfl, h', ?_⟩
      obtain ⟨n, hn, hno, rfl⟩ | hcria | ⟨hfalha, rfl, hporque⟩ := he
      · exact .inl ⟨n, hn, hno, rfl⟩
      · exact .inr (.inl hcria)
      · exact .inr (.inr ⟨hfalha, rfl, hporque⟩)
  | mkdir c cs lixo =>
      obtain ⟨fs', r, hr, h', he⟩ := myMkdir_vista h ha.1 ha.2 c lixo
      refine ⟨fs', .valor r, by rw [exec, hr]; rfl, h', ?_⟩
      obtain hcria | ⟨hfalha, rfl, hporque⟩ := he
      · exact .inl hcria
      · exact .inr ⟨hfalha, rfl, hporque⟩
  | remove c cs lixo =>
      obtain ⟨hne, hlen, hultimo⟩ := ha
      obtain ⟨fs', r, hr, h', he⟩ := myRemove_vista h hne hlen hultimo c lixo
      refine ⟨fs', .valor r, by rw [exec, hr]; rfl, h', ?_⟩
      obtain hapaga | ⟨hfalha, rfl, hporque⟩ := he
      · exact .inl hapaga
      · exact .inr ⟨hfalha, rfl, hporque⟩
  | copy c cs cs' lixo =>
      obtain ⟨⟨hne, hlen⟩, ⟨hne', hlen'⟩, hpart⟩ := ha
      obtain ⟨fs', r, hr, h', he⟩ := myCopy_vista h hne hne' hlen hlen' hpart c lixo
      refine ⟨fs', .valor r, by rw [exec, hr]; rfl, h', ?_⟩
      obtain hcopia | hcria | ⟨hfalha, rfl, hporque⟩ := he
      · exact .inl hcopia
      · exact .inr (.inl hcria)
      · exact .inr (.inr ⟨hfalha, rfl, hporque⟩)
  | listdir c cs lixo memoria =>
      obtain ⟨r, hr, he⟩ := myListdir_vista h ha c lixo memoria
      exact ⟨fs, .listagem r, by rw [exec, hr]; rfl, h, rfl, he⟩
  | read fhandle offset count =>
      obtain ⟨fs', r, hr, h', hv, he⟩ := read_vista h fhandle offset count fun _ _ => nullBlock
      exact ⟨fs', .lido r, by rw [exec, hr]; rfl, h', hv, he⟩
  | write fhandle offset count data lixo =>
      obtain ⟨fs', r, hr, h', he⟩ := write_vista h fhandle offset count data fun _ _ => lixo
      refine ⟨fs', .escrito r, by rw [exec, hr]; rfl, h', ?_⟩
      obtain hescrito | ⟨hfalha, rfl, hporque⟩ := he
      · exact .inl hescrito
      · exact .inr ⟨hfalha, rfl, hporque⟩

/-- No session of admitted calls stops the server or overflows a buffer of a client, and every call
of it does to the paths and the files what it may do. -/
theorem sessao_efeitos (pilha : ℕ → ℤ) (as : List Chamada)
    (has : Runs.Permitted Chamada.exec Chamada.Admitida
      (fsFormat (fsNew Fs.discoServidor pilha)) as) :
    ∃ fs rs, Runs.run Chamada.exec (fsFormat (fsNew Fs.discoServidor pilha)) as = some (fs, rs) ∧
      Runs.Trace Efeito Vista.inicial as rs fs.vista := by
  obtain ⟨fs, rs, hr, -, ht⟩ := Runs.run_trace (I := Fs.EmArvore) Fs.vista
    (fun s a h ha => Chamada.exec_efeito h ha) (Fs.inicial_emArvore pilha) has
  have hvazia : (Fs.inicial pilha).vista = Vista.inicial :=
    congrArg₂ Vista.mk (Fs.inicial_no pilha) (Fs.inicial_modelo pilha)
  refine ⟨fs, rs, hr, ?_⟩
  rw [← hvazia]
  exact ht

def componenteB : Componente := ⟨nomeB, by decide, by decide, by decide, by decide⟩

/-- A file in a directory is written and copied, and its directory listed; then it is removed. -/
def sessaoCurta : List Chamada :=
  [.mkdir ⟨true, 0, []⟩ [componenteA] fun _ => 7,
    .abrir ⟨true, 0, []⟩ [componenteA, componenteA] oCreate 7 7,
    .write 3 0 600 (fun _ => 1) nullBlock,
    .copy ⟨true, 0, []⟩ [componenteA, componenteA] [componenteB] fun _ => 7,
    .write 4 0 1 (fun _ => 2) nullBlock,
    .listdir ⟨true, 0, []⟩ [componenteA] 7 fun _ => 1,
    .remove ⟨true, 0, []⟩ [componenteA, componenteA] fun _ => 7]

set_option maxRecDepth 100000 in
theorem sessao_efeitos_curta :
    ∃ fs rs, Runs.run Chamada.exec (fsFormat (fsNew Fs.discoServidor fun _ => 7)) sessaoCurta =
        some (fs, rs) ∧
      Runs.Trace Efeito Vista.inicial sessaoCurta rs fs.vista :=
  sessao_efeitos (fun _ => 7) _ (by rw [Fs.fsFormat_eq_formatado]; decide +kernel)

end ThreadScheduler.SnfsLib
