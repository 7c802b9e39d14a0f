import Mathlib.Data.List.Sort
import ProjectGraph.Proofs.FileTree.Search

/-! # What a search selects

A search goes down a tree, segment by segment. `Finds` says which paths the segments of a pattern lead to,
without the order and the failures of the search. The results come in increasing order, each path once. -/

namespace ProjectGraph.FileTree

/-- The segment leads from a position along the names `below` to the next position, from where the rest
of the segments can lead on. -/
inductive Enters (t : FileTree) (directoriesOnly : Bool) (rest : List Segment) :
    Segment → Position → List String → Position → Prop
  | name {text : String} {pos next : Position} (step : t.step pos text = .ok next)
      (opens : directoriesOnly ∨ rest ≠ [] → t.entryAt next = some .directory) :
      Enters t directoriesOnly rest (.name text) pos [text] next
  | wild {pattern : Wildcard} {pos : Position} {name : String}
      (present : (t.entryAt (pos ++ [name])).isSome)
      (opens : directoriesOnly ∨ rest ≠ [] → t.entryAt (pos ++ [name]) = some .directory)
      (fits : pattern.fits name) : Enters t directoriesOnly rest (.wild pattern) pos [name] (pos ++ [name])
  | deep {pos : Position} {below : List String}
      (opens : below ≠ [] → t.entryAt (pos ++ below) = some .directory) :
      Enters t directoriesOnly rest .deep pos below (pos ++ below)

/-- The segments lead from a position along these names. -/
inductive Finds (t : FileTree) (directoriesOnly : Bool) : List Segment → Position → List String → Prop
  | nil {pos : Position} : Finds t directoriesOnly [] pos []
  | cons {segment : Segment} {rest : List Segment} {pos next : Position} {below names : List String}
      (enters : t.Enters directoriesOnly rest segment pos below next)
      (found : Finds t directoriesOnly rest next names) :
      Finds t directoriesOnly (segment :: rest) pos (below ++ names)

variable {t : FileTree} {root : PathName} {directoriesOnly : Bool} {segment : Segment}
  {rest segments : List Segment} {pos next : Position} {name text pattern : String}
  {spelled path : List String} {paths found : List (List String)}

/-! ## Steps along names -/

/-- A step along a name other than `..` leads to the entry of this name. -/
theorem step_eq_ok_iff (hup : name ≠ "..") :
    t.step pos name = .ok next ↔ next = pos ++ [name] ∧ t.entryAt pos = some .directory ∧
      ¬ HasNull name ∧ name.utf8ByteSize ≤ nameLimit ∧ (t.entryAt next).isSome := by
  unfold step
  cases hpos : t.entryAt pos with
  | none => simp
  | some e =>
    cases e with
    | file content => simp
    | directory =>
      simp only [if_neg hup]
      split
      · next hnull => simp [hnull]
      · next hnull =>
        split
        · next hlong => simp [Nat.not_le.2 hlong]
        · next hlong =>
          split
          · next hentry =>
            constructor
            · rintro ⟨⟩
              exact ⟨rfl, trivial, hnull, Nat.not_lt.1 hlong, hentry⟩
            · rintro ⟨rfl, -⟩
              rfl
          · next hentry =>
            refine ⟨(nomatch ·), ?_⟩
            rintro ⟨rfl, -, -, -, hsome⟩
            exact absurd hsome hentry

/-- There is no step along a name with a null character. -/
theorem not_hasNull_of_step (h : t.step pos name = .ok next) : ¬ HasNull name := by
  by_cases hup : name = ".."
  · rw [hup]
    decide
  · exact ((step_eq_ok_iff hup).1 h).2.2.1

/-! ## Selecting in rounds -/

/-- What is selected is selected in rounds: one for each way in which the first segment leads on. -/
structure Rounds (t : FileTree) (root : PathName) (directoriesOnly : Bool) (segment : Segment)
    (rest : List Segment) (pos : Position) (spelled : List String) (paths : List (List String)) :
    Prop where
  round : ∀ path ∈ paths, ∃ below next paths', t.Enters directoriesOnly rest segment pos below next ∧
    t.select root directoriesOnly rest next (spelled ++ below) = .ok paths' ∧ path ∈ paths'
  subset : ∀ below next, t.Enters directoriesOnly rest segment pos below next →
    ∃ paths', t.select root directoriesOnly rest next (spelled ++ below) = .ok paths' ∧ paths' ⊆ paths

/-- The test that ends a search at an entry that is no directory. -/
theorem goesOn_iff (directoriesOnly : Bool) (rest : List Segment) (e : Option Entry) :
    ((directoriesOnly || !rest.isEmpty) && e != some .directory) = false ↔
      (directoriesOnly ∨ rest ≠ [] → e = some .directory) := by
  cases directoriesOnly <;> cases rest <;> simp

/-- A segment that leads nowhere selects nothing. -/
theorem rounds_nil (h : ∀ below next, ¬ t.Enters directoriesOnly rest segment pos below next) :
    t.Rounds root directoriesOnly segment rest pos spelled [] where
  round _ hpath := absurd hpath List.not_mem_nil
  subset below next henters := absurd henters (h below next)

theorem rounds_name
    (h : t.select root directoriesOnly (.name text :: rest) pos spelled = .ok paths) :
    t.Rounds root directoriesOnly (.name text) rest pos spelled paths := by
  simp only [select] at h
  split at h
  · next hnull =>
    cases h
    refine rounds_nil fun below next henters => ?_
    cases henters with
    | name step opens => exact not_hasNull_of_step step hnull
  · obtain ⟨-, -, h⟩ := exists_of_ok_bind h
    cases hstep : t.step pos text with
    | error obstacle =>
      have hnone : ∀ below next, ¬ t.Enters directoriesOnly rest (.name text) pos below next := by
        intro below next henters
        cases henters with
        | name step opens =>
          rw [hstep] at step
          cases step
      rw [hstep] at h
      cases obstacle <;> cases h <;> exact rounds_nil hnone
    | ok next =>
      rw [hstep] at h
      simp only at h
      have hgoes := goesOn_iff directoriesOnly rest (t.entryAt next)
      split at h
      · next hends =>
        cases h
        refine rounds_nil fun below next' henters => ?_
        cases henters with
        | name step opens =>
          rw [hstep] at step
          cases step
          rw [hgoes.2 opens] at hends
          cases hends
      · next hends =>
        have hopens := hgoes.1 (Bool.eq_false_of_not_eq_true hends)
        constructor
        · exact fun path hpath => ⟨[text], next, paths, .name hstep hopens, h, hpath⟩
        · intro below next' henters
          cases henters with
          | name step opens =>
            rw [hstep] at step
            cases step
            exact ⟨paths, h, List.Subset.refl paths⟩

theorem rounds_wild {pattern : Wildcard}
    (h : t.select root directoriesOnly (.wild pattern :: rest) pos spelled = .ok paths) :
    t.Rounds root directoriesOnly (.wild pattern) rest pos spelled paths := by
  simp only [select] at h
  obtain ⟨-, -, h⟩ := exists_of_ok_bind h
  obtain ⟨found, hfound, h⟩ := exists_of_ok_bind h
  cases h
  have hgoes := fun e => goesOn_iff directoriesOnly rest (some e)
  constructor
  · intro path hpath
    obtain ⟨paths, hpaths, hpath⟩ := List.mem_flatten.1 hpath
    obtain ⟨⟨name, e⟩, hchild, h⟩ := exists_of_mem_of_mapM_eq_ok hfound paths hpaths
    have hentry := mem_children.1 hchild
    split at h
    · cases h
      cases hpath
    · next hends =>
      split at h
      · next hfits =>
        refine ⟨[name], _, paths, .wild (Option.isSome_of_eq_some hentry) ?_ hfits, h, hpath⟩
        rw [hentry]
        exact (hgoes e).1 (by simpa using hends)
      · cases h
        cases hpath
  · intro below next henters
    cases henters with
    | @wild _ _ name present opens fits =>
      obtain ⟨e, he⟩ := Option.isSome_iff_exists.1 present
      rw [he] at opens
      obtain ⟨paths, hpaths, h⟩ := exists_of_mapM_eq_ok hfound _ (mem_children.2 he)
      have hends := (hgoes e).2 opens
      simp only at h
      rw [if_neg (by simpa using hends), if_pos fits] at h
      exact ⟨paths, h, fun path hpath => List.mem_flatten.2 ⟨paths, hpaths, hpath⟩⟩

theorem rounds_deep (h : t.select root directoriesOnly (.deep :: rest) pos spelled = .ok paths) :
    t.Rounds root directoriesOnly .deep rest pos spelled paths := by
  simp only [select] at h
  obtain ⟨found, hfound, h⟩ := exists_of_ok_bind h
  cases h
  have hbelow : ∀ {below}, below ∈ [] :: t.directoriesBelow pos ↔
      (below ≠ [] → t.entryAt (pos ++ below) = some .directory) := by
    intro below
    rw [List.mem_cons, mem_directoriesBelow]
    by_cases hnil : below = [] <;> simp [hnil]
  -- The check at the end of a round only lets it fail.
  have hround : ∀ {below paths}, (do
      let selected ← t.select root directoriesOnly rest (pos ++ below) (spelled ++ below)
      checkLength (root ++ ⟨0, spelled ++ below⟩)
      return selected) = Except.ok paths →
        t.select root directoriesOnly rest (pos ++ below) (spelled ++ below) = .ok paths := by
    intro below paths h
    obtain ⟨selected, hselected, h⟩ := exists_of_ok_bind h
    obtain ⟨-, -, h⟩ := exists_of_ok_bind h
    cases h
    exact hselected
  constructor
  · intro path hpath
    obtain ⟨paths, hpaths, hpath⟩ := List.mem_flatten.1 hpath
    obtain ⟨below, hmem, h⟩ := exists_of_mem_of_mapM_eq_ok hfound paths hpaths
    exact ⟨below, _, paths, .deep (hbelow.1 hmem), hround h, hpath⟩
  · intro below next henters
    cases henters with
    | deep opens =>
      obtain ⟨paths, hpaths, h⟩ := exists_of_mapM_eq_ok hfound below (hbelow.2 opens)
      exact ⟨paths, hround h, fun path hpath => List.mem_flatten.2 ⟨paths, hpaths, hpath⟩⟩

/-- A search that does not fail selects what its segments find. -/
theorem mem_select_iff (h : t.select root directoriesOnly segments pos spelled = .ok paths) :
    path ∈ paths ↔ ∃ names, path = spelled ++ names ∧ t.Finds directoriesOnly segments pos names := by
  induction segments generalizing pos spelled paths with
  | nil =>
    cases h
    rw [List.mem_singleton]
    constructor
    · rintro rfl
      exact ⟨[], by simp, .nil⟩
    · rintro ⟨names, rfl, hfinds⟩
      cases hfinds
      simp
  | cons segment rest ih =>
    have hrounds : t.Rounds root directoriesOnly segment rest pos spelled paths := by
      cases segment with
      | name => exact rounds_name h
      | wild => exact rounds_wild h
      | deep => exact rounds_deep h
    constructor
    · intro hpath
      obtain ⟨below, next, paths', henters, hselect, hpath⟩ := hrounds.round path hpath
      obtain ⟨names, rfl, hfinds⟩ := (ih hselect).1 hpath
      exact ⟨below ++ names, by simp, .cons henters hfinds⟩
    · rintro ⟨names, rfl, hfinds⟩
      cases hfinds with
      | cons enters found =>
        obtain ⟨paths', hselect, hsubset⟩ := hrounds.subset _ _ enters
        exact hsubset ((ih hselect).2 ⟨_, by simp, found⟩)

/-! ## Searching -/

/-- A search that does not fail lists what its pattern finds from the root, if that is a directory. -/
theorem mem_search_iff (h : t.search root pattern = .ok found) :
    path ∈ found ↔ ∃ parsed pos, SearchPattern.parse pattern = .ok parsed ∧ t.locate root = .ok pos ∧
      t.entryAt pos = some .directory ∧ t.Finds parsed.directoriesOnly parsed.segments pos path := by
  obtain ⟨parsed, hparsed, h⟩ := exists_of_ok_bind h
  rw [hparsed]
  unfold isDirectory at h
  cases hlocate : t.locate root with
  | error obstacle =>
    rw [hlocate] at h
    cases obstacle <;> cases h <;> simp
  | ok pos =>
    rw [hlocate] at h
    by_cases hpos : t.entryAt pos = some .directory
    · simp only [hpos, decide_true] at h
      obtain ⟨selected, hselected, h⟩ := exists_of_ok_bind (α := List (List String)) h
      cases h
      rw [mem_sortPaths, mem_select_iff hselected]
      simp [hpos]
    · simp only [hpos, decide_false] at h
      cases h
      simp [hpos]

theorem pairwise_insertPath (path : List String) (h : found.Pairwise (· < ·)) :
    (insertPath path found).Pairwise (· < ·) := by
  induction found with
  | nil => simp [insertPath]
  | cons q qs ih =>
    obtain ⟨hfirst, hrest⟩ := List.pairwise_cons.1 h
    rw [insertPath]
    split
    · next hlt =>
      refine List.pairwise_cons.2 ⟨fun p hp => ?_, h⟩
      rcases List.mem_cons.1 hp with rfl | hp
      · exact hlt
      · exact List.lt_trans hlt (hfirst p hp)
    · next hle =>
      split
      · exact h
      · next hne =>
        refine List.pairwise_cons.2 ⟨fun p hp => ?_, ih hrest⟩
        rcases mem_insertPath.1 hp with rfl | hp
        · by_contra hnot
          exact hne (List.le_antisymm (List.not_lt.1 hnot) (List.not_lt.1 hle))
        · exact hfirst p hp

theorem pairwise_sortPaths (paths : List (List String)) : (sortPaths paths).Pairwise (· < ·) := by
  induction paths with
  | nil => exact .nil
  | cons path paths ih => exact pairwise_insertPath path ih

/-- What is found comes in increasing order, each path once. -/
theorem pairwise_search (h : t.search root pattern = .ok found) : found.Pairwise (· < ·) := by
  obtain ⟨parsed, -, h⟩ := exists_of_ok_bind h
  obtain ⟨present, -, h⟩ := exists_of_ok_bind h
  split at h
  · split at h
    · obtain ⟨selected, -, h⟩ := exists_of_ok_bind h
      cases h
      exact pairwise_sortPaths selected
    · cases h
      exact .nil
  · cases h
    exact .nil

end ProjectGraph.FileTree
