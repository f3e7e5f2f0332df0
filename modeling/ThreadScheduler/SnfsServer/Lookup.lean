import ThreadScheduler.SnfsServer.Refinement

/-!
# Path lookup

`fs_lookup`: the path is cut into names, and each name is searched in the directory that the names
before it led to. A path of nothing but slashes is found at once, and `*fileid` is not set.
-/
namespace ThreadScheduler.SnfsServer

/-- `'/'`. -/
abbrev barra : Byte := 47#8

/-- `MAX_PATH_NAME_SIZE`. -/
abbrev maxPathNameSize : ℕ := 200

/-- The tokens that `strtok(..,"/")` gives, one after another. -/
def strtok (line : List Byte) : List (List Byte) :=
  (line.splitOn barra).filter fun token => token ≠ []

/-- The loop of `fs_lookup`: its status, and `*fileid` if it has been set. -/
def fsLookupLoop (fs : Fs) (dir : ℕ) (fileid : Option ℕ) :
    List (List Byte) → Option (Fs × ℤ × Option ℕ)
  | [] => some (fs, 1, fileid)
  | token :: tokens =>
      if !bmapIsSet fs.inodeBmap dir then some (fs, -1, fileid)
      else if (fs.inodeTab dir).type ≠ .fsDir then some (fs, -1, fileid)
      else
        (fsiDirSearch fs dir token).bind fun (fs, found) =>
          match found with
          | none => some (fs, 0, fileid)
          | some fid => fsLookupLoop fs fid (some fid) tokens

/-- `fs_lookup`; a longer path runs over the end of `line`. -/
def fsLookup (fs : Fs) (file : CString) : Option (Fs × ℤ × Option ℕ) :=
  if file.val.head? ≠ some barra then some (fs, -1, none)
  else if maxPathNameSize ≤ file.val.length then none
  else fsLookupLoop fs 1 none (strtok file.val)

/-- The characters of a token are characters of the path. -/
theorem subset_of_mem_splitOn (line : List Byte) {token : List Byte}
    (ht : token ∈ line.splitOn barra) : token ⊆ line := by
  induction line generalizing token with
  | nil =>
      rw [List.splitOn_nil, List.mem_singleton] at ht
      rw [ht]
      exact List.nil_subset _
  | cons c line ih =>
      rw [List.splitOn, List.splitOnP_cons_eq_if_modifyHead] at ht
      split at ht
      · obtain rfl | ht := List.mem_cons.mp ht
        · exact List.nil_subset _
        · exact List.subset_cons_of_subset c (ih ht)
      · cases hs : line.splitOnP (· == barra) with
        | nil => exact absurd hs (List.splitOnP_ne_nil _ _)
        | cons m ms =>
            rw [hs] at ht
            have ih' : ∀ token ∈ m :: ms, token ⊆ line := fun token h =>
              ih (by rwa [List.splitOn, hs])
            obtain rfl | ht := List.mem_cons.mp ht
            · exact List.cons_subset_cons c (ih' m List.mem_cons_self)
            · exact List.subset_cons_of_subset c (ih' token (List.mem_cons_of_mem m ht))

theorem zero_notMem_strtok (pname : CString) {token : List Byte}
    (ht : token ∈ strtok pname.val) : 0#8 ∉ token := fun h =>
  pname.property (subset_of_mem_splitOn pname.val (List.mem_of_mem_filter ht) h)

/-- The path `/n1/../nk`. -/
def caminho (nomes : List CString) : List Byte := nomes.flatMap fun nome => barra :: nome.val

theorem splitOn_caminho {nomes : List CString} (hbarra : ∀ nome ∈ nomes, barra ∉ nome.val)
    {m : List Byte} (hm : barra ∉ m) :
    (m ++ caminho nomes).splitOn barra = m :: nomes.map Subtype.val := by
  induction nomes generalizing m with
  | nil => rw [caminho, List.flatMap_nil, List.append_nil, List.splitOn_eq_singleton hm]; rfl
  | cons nome nomes ih =>
      have hnome := hbarra nome List.mem_cons_self
      have hrest := ih (fun x hx => hbarra x (List.mem_cons_of_mem nome hx)) hnome
      have hcons : m ++ caminho (nome :: nomes) = m ++ barra :: (nome.val ++ caminho nomes) := by
        simp [caminho]
      rw [hcons, List.splitOn_append_cons_self, hrest, List.splitOn_eq_singleton hm]
      rfl

/-- The tokens of a path are its names. -/
theorem strtok_caminho {nomes : List CString} (hbarra : ∀ nome ∈ nomes, barra ∉ nome.val)
    (hvazio : ∀ nome ∈ nomes, nome.val ≠ []) : strtok (caminho nomes) = nomes.map Subtype.val := by
  have hsplit := splitOn_caminho hbarra (m := []) List.not_mem_nil
  rw [List.nil_append] at hsplit
  rw [strtok, hsplit, List.filter_cons_of_neg (by simp), List.filter_eq_self]
  intro x hx
  obtain ⟨nome, hmem, rfl⟩ := List.mem_map.mp hx
  simpa using hvazio nome hmem

theorem zero_notMem_caminho (nomes : List CString) : 0#8 ∉ caminho nomes := by
  intro h
  obtain ⟨nome, -, hmem⟩ := List.mem_flatMap.mp h
  obtain h | h := List.mem_cons.mp hmem
  · exact absurd h (by decide)
  · exact nome.property h

end ThreadScheduler.SnfsServer
