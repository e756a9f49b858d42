import Xv6.Fs.Defs

/-!
# Path resolution

* `components` — the elements of a path.
* `skipelem_eq` — `skipelem` takes them off one by one.
* `namex_walks` — `namex` looks them up one after the other.
-/

namespace Xv6

open Prog

namespace Fs

variable {path : List UInt8}

/-- The elements between slashes that are not empty, cut to `DIRSIZ` characters. -/
def components (path : List UInt8) : List (List UInt8) :=
  ((path.splitOn SLASH).filter (· ≠ [])).map (·.take DIRSIZ)

theorem components_slash (path : List UInt8) : components (SLASH :: path) = components path := by
  unfold components List.splitOn
  rw [List.splitOnP_cons_eq_if_modifyHead, if_pos (by decide)]
  rfl

theorem components_dropWhile (path : List UInt8) : components (path.dropWhile (· = SLASH)) = components path := by
  induction path with
  | nil => rfl
  | cons c path ih =>
    by_cases hc : c = SLASH
    · rw [List.dropWhile_cons_of_pos (by simpa using hc), ih, hc, components_slash]
    · rw [List.dropWhile_cons_of_neg (by simpa using hc)]

/-- A path that starts with an element. -/
theorem components_element (hne : path.takeWhile (· ≠ SLASH) ≠ []) : components path =
    (path.takeWhile (· ≠ SLASH)).take DIRSIZ :: components (path.dropWhile (· ≠ SLASH)) := by
  have hpath := List.takeWhile_append_dropWhile (p := (· ≠ SLASH)) (l := path)
  have hno : ∀ c ∈ path.takeWhile (· ≠ SLASH), (c == SLASH) = false := fun c hc => by
    simpa using List.mem_takeWhile_imp hc
  generalize path.takeWhile (· ≠ SLASH) = w at hne hpath hno ⊢
  cases hd : path.dropWhile (· ≠ SLASH) with
  | nil =>
    rw [← hpath, hd, List.append_nil, components, List.splitOn, List.splitOnP_eq_singleton hno]
    simp [hne, components]
  | cons c rest =>
    have hc : c = SLASH := by
      have hhead := List.head?_dropWhile_not (· ≠ SLASH) path
      rw [hd] at hhead
      simpa using hhead
    rw [← hpath, hd, hc, components_slash, components, List.splitOn,
      List.splitOnP_append_cons_of_forall_mem hno _ (by decide)]
    simp [hne, components, List.splitOn]

/-- After the slashes comes an element, or nothing. -/
theorem element_of_dropWhile (path : List UInt8) : path.dropWhile (· = SLASH) = [] ∨
    (path.dropWhile (· = SLASH)).takeWhile (· ≠ SLASH) ≠ [] := by
  have hhead := List.head?_dropWhile_not (· = SLASH) path
  cases hd : path.dropWhile (· = SLASH) with
  | nil => exact Or.inl rfl
  | cons c rest =>
    rw [hd] at hhead
    have hc : c ≠ SLASH := by simpa using hhead
    exact Or.inr (by simp [hc])

/-- **`skipelem`** takes off the first element; nothing is left exactly if it was the last one. -/
theorem skipelem_eq (path : List UInt8) : (skipelem path = none ∧ components path = []) ∨
    ∃ name rest, skipelem path = some (name, rest) ∧ components path = name :: components rest ∧
      rest.length < path.length ∧ (rest = [] ↔ components rest = []) := by
  unfold skipelem
  rw [← components_dropWhile path]
  have hlen := (List.dropWhile_sublist (p := (· = SLASH)) (l := path)).length_le
  rcases element_of_dropWhile path with hnil | helem
  · exact Or.inl ⟨if_pos hnil, by rw [hnil]; rfl⟩
  generalize path.dropWhile (· = SLASH) = p at hlen helem
  have hne : p ≠ [] := by
    rintro rfl
    exact helem rfl
  refine Or.inr ⟨_, _, if_neg hne, ?_, ?_, ?_⟩
  · rw [components_dropWhile, components_element helem]
  · have hsplit := congrArg List.length (List.takeWhile_append_dropWhile (p := (· ≠ SLASH)) (l := p))
    have hrest := (List.dropWhile_sublist (p := (· = SLASH)) (l := p.dropWhile (· ≠ SLASH))).length_le
    have hpos := List.length_pos_of_ne_nil helem
    rw [List.length_append] at hsplit
    omega
  · rcases element_of_dropWhile (p.dropWhile (· ≠ SLASH)) with hnil | helem'
    · rw [hnil]
      exact ⟨fun _ => rfl, fun _ => rfl⟩
    · rw [components_element helem']
      refine ⟨fun hrest => absurd ?_ helem', fun h => nomatch h⟩
      rw [hrest]
      rfl

/-- A walk along the elements of a path, from the directory `ip`. -/
def walk (parent : Bool) : List (List UInt8) → Fin NINODE → List UInt8 → Prog Fs (Option (Fin NINODE × List UInt8))
  | [], ip, name =>
    if parent then do
      iput ip
      pure none
    else pure (some (ip, name))
  | name :: names, ip, _ => do
    ilock ip
    let s ← get
    if (s.inode ip).d.type ≠ T_DIR then do
      iunlockput ip
      pure none
    else if parent ∧ names = [] then do
      iunlock ip
      pure (some (ip, name))
    else do
      match ← dirlookup ip name with
      | none => do
        iunlockput ip
        pure none
      | some (next, _) => do
        iunlockput ip
        walk parent names next name

theorem namexLoop_walks (parent : Bool) : ∀ (fuel : Nat) (ip : Fin NINODE) (path name : List UInt8),
    path.length < fuel → namexLoop parent fuel ip path name = walk parent (components path) ip name
  | 0, _, _, _, hlt => absurd hlt (Nat.not_lt_zero _)
  | fuel + 1, ip, path, name, hlt => by
    rcases skipelem_eq path with ⟨hnone, hnil⟩ | ⟨elem, rest, hsome, hcons, hlen, hlast⟩
    · rw [namexLoop, hnone, hnil]
      rfl
    · have ih := fun next => namexLoop_walks parent fuel next rest elem (by omega)
      rw [namexLoop, hsome, hcons]
      simp only [ih, hlast]
      rfl

/-- **Path resolution**: `namex` walks along the elements from the root or the current directory; whatever else the
string holds does not matter. -/
theorem namex_walks (cwd : Option (Fin NINODE)) (path : List UInt8) (parent : Bool) : namex cwd path parent = (do
    let ip ← (if path.head? = some SLASH then iget ROOTDEV ROOTINO else cwd.elim (panicWith "kerneltrap") idup)
    walk parent (components path) ip []) := by
  unfold namex
  simp only [namexLoop_walks parent _ _ _ _ (Nat.lt_succ_self _)]
  cases cwd with
  | none | some ip => rfl

end Fs

end Xv6
