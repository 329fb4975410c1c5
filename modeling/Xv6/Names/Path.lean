import Xv6.Names.Dirent

/-!
# Path names

`namex` peels a path from the front with `skipelem`. The elements it gets are the components of the
path: its maximal pieces without a slash, cut to `DIRSIZ` bytes.
-/

namespace Xv6.Names

open List

abbrev Path := List UInt8

/-- `'/'`. -/
def slash : UInt8 := 47

/-- Copy the next path element into `name`; the rest of the path, without leading slashes, and
`name`. -/
def skipelem (path : Path) : Option (Path × List UInt8) :=
  match path.dropWhile (· = slash) with
  | [] => none
  | c :: path =>
    let s := (c :: path).takeWhile (· ≠ slash)
    let path := (c :: path).dropWhile (· ≠ slash)
    some (path.dropWhile (· = slash), s.take DIRSIZ)

def pieces : Path → List (List UInt8)
  | [] => [[]]
  | c :: path => if c = slash then [] :: pieces path else (pieces path).modifyHead (c :: ·)

def components (path : Path) : List (List UInt8) :=
  ((pieces path).filter (· ≠ [])).map (take DIRSIZ)

theorem components_slash (path : Path) : components (slash :: path) = components path := by
  simp [components, pieces]

theorem components_dropWhile (path : Path) :
    components (path.dropWhile (· = slash)) = components path := by
  induction path with
  | nil => rfl
  | cons c path ih =>
  by_cases hc : c = slash
  · rw [dropWhile_cons_of_pos (by simpa using hc), ih, hc, components_slash]
  · rw [dropWhile_cons_of_neg (by simpa using hc)]

theorem pieces_eq (path : Path) : pieces path = path.takeWhile (· ≠ slash) ::
    match path.dropWhile (· ≠ slash) with
    | [] => []
    | _ :: rest => pieces rest := by
  induction path with
  | nil => rfl
  | cons c path ih =>
  by_cases hc : c = slash
  · simp [pieces, hc]
  · rw [pieces, if_neg hc, ih, takeWhile_cons_of_pos (by simpa using hc),
      dropWhile_cons_of_pos (by simpa using hc)]
    rfl

theorem components_cons {c : UInt8} (hc : c ≠ slash) (path : Path) :
    components (c :: path) = ((c :: path).takeWhile (· ≠ slash)).take DIRSIZ ::
      components ((c :: path).dropWhile (· ≠ slash)) := by
  have hne : (c :: path).takeWhile (· ≠ slash) ≠ [] := by
    rw [takeWhile_cons_of_pos (by simpa using hc)]
    exact cons_ne_nil _ _
  have hrest : components ((c :: path).dropWhile (· ≠ slash)) =
      ((match (c :: path).dropWhile (· ≠ slash) with
        | [] => []
        | _ :: rest => pieces rest).filter (· ≠ [])).map (take DIRSIZ) := by
    cases hd : (c :: path).dropWhile (· ≠ slash) with
    | nil => rfl
    | cons a rest =>
    have ha : a = slash := by
      have := head?_dropWhile_not (· ≠ slash) (c :: path)
      rw [hd] at this
      simpa using this
    rw [ha, components_slash]
    rfl
  rw [hrest, components, pieces_eq, filter_cons_of_pos (by simpa using hne), map_cons]

theorem skipelem_eq_none {path : Path} (h : skipelem path = none) : components path = [] := by
  rw [← components_dropWhile]
  unfold skipelem at h
  split at h
  · next hd => rw [hd]; rfl
  · cases h

theorem skipelem_eq_some {path rest : Path} {name : List UInt8}
    (h : skipelem path = some (rest, name)) :
    components path = name :: components rest ∧ (rest = [] ↔ components rest = []) ∧
      rest.length < path.length := by
  unfold skipelem at h
  split at h
  · cases h
  next c path' hd =>
  have hc : c ≠ slash := by
    have := head?_dropWhile_not (· = slash) path
    rw [hd] at this
    simpa using this
  cases h
  have hlen : (c :: path').length ≤ path.length := hd ▸ (dropWhile_suffix _).length_le
  refine ⟨?_, ⟨fun h => by rw [h]; rfl, fun h => ?_⟩, ?_⟩
  · rw [← components_dropWhile, hd, components_cons hc, components_dropWhile]
  · -- what is left starts with a name, unless it is empty
    cases hr : ((c :: path').dropWhile (· ≠ slash)).dropWhile (· = slash) with
    | nil => rfl
    | cons a rest =>
    have ha : a ≠ slash := by
      have := head?_dropWhile_not (· = slash) ((c :: path').dropWhile (· ≠ slash))
      rw [hr] at this
      simpa using this
    rw [hr, components_cons ha] at h
    cases h
  · calc (((c :: path').dropWhile (· ≠ slash)).dropWhile (· = slash)).length
        ≤ ((c :: path').dropWhile (· ≠ slash)).length := (dropWhile_suffix _).length_le
      _ ≤ path'.length := by
          rw [dropWhile_cons_of_pos (by simpa using hc)]
          exact (dropWhile_suffix _).length_le
      _ < path.length := hlen

end Xv6.Names
