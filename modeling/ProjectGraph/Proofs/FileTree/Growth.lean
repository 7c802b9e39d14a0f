import Mathlib.Data.List.Basic
import ProjectGraph.FileTree.Edit
import ProjectGraph.Proofs.Outcome

/-! # Growing file trees

Making directories and writing files never takes anything away: a directory stays one, and so does a
file that stands in a directory, though its content may be another one. -/

namespace ProjectGraph

namespace FileTree

/-- What there is in directories of the first tree is there in the second one. -/
structure Keeps (t u : FileTree) : Prop where
  home : u.home = t.home
  directory : ∀ pos, t.entryAt pos = some .directory → u.entryAt pos = some .directory
  file : ∀ pos name content, t.entryAt pos = some .directory →
    t.entryAt (pos ++ [name]) = some (.file content) →
      ∃ content', u.entryAt (pos ++ [name]) = some (.file content')

variable {t u v : FileTree} {pos : Position} {name : String}

namespace Keeps

theorem refl (t : FileTree) : t.Keeps t := ⟨rfl, fun _ h => h, fun _ _ content _ h => ⟨content, h⟩⟩

theorem trans (h : t.Keeps u) (h' : u.Keeps v) : t.Keeps v where
  home := h'.home.trans h.home
  directory pos hpos := h'.directory pos (h.directory pos hpos)
  file pos name content hpos hfile := by
    obtain ⟨content', hfile⟩ := h.file pos name content hpos hfile
    exact h'.file pos name content' (h.directory pos hpos) hfile

/-- An entry of a directory stays what it is, a directory or a file. -/
theorem entry (h : t.Keeps u) (hpos : t.entryAt pos = some .directory) {e : Entry}
    (he : t.entryAt (pos ++ [name]) = some e) :
    ∃ e', u.entryAt (pos ++ [name]) = some e' ∧ (e = .directory ↔ e' = .directory) := by
  cases e with
  | directory => exact ⟨_, h.directory _ he, Iff.rfl⟩
  | file content =>
    obtain ⟨content', he'⟩ := h.file pos name content hpos he
    exact ⟨_, he', by simp⟩

end Keeps

/-! ## Putting entries -/

theorem entryAt_put (t : FileTree) (pos : Position) (e : Entry) (pos' : Position) (hne : pos' ≠ []) :
    (t.put pos e).entryAt pos' = if pos = pos' then some e else t.entryAt pos' := by
  simp [entryAt, put, hne]

theorem keeps_put_directory (h : t.entryAt pos = some .directory → t.entryAt (pos ++ [name]) = none) :
    t.Keeps (t.put (pos ++ [name]) .directory) where
  home := rfl
  directory pos' hpos' := by
    by_cases hroot : pos' = []
    · rw [hroot, entryAt, if_pos rfl]
    · rw [entryAt_put t _ _ _ hroot, hpos', ite_self]
  file pos' name' content hpos' hfile := by
    have hne : pos ++ [name] ≠ pos' ++ [name'] := by
      intro hsame
      obtain ⟨rfl, -⟩ := List.append_inj' hsame rfl
      rw [← hsame, h hpos'] at hfile
      cases hfile
    exact ⟨content, by rw [entryAt_put t _ _ _ (by simp), if_neg hne, hfile]⟩

theorem keeps_put_file (h : t.entryAt (pos ++ [name]) ≠ some .directory) (content : String) :
    t.Keeps (t.put (pos ++ [name]) (.file content)) where
  home := rfl
  directory pos' hpos' := by
    by_cases hroot : pos' = []
    · rw [hroot, entryAt, if_pos rfl]
    · have hne : pos ++ [name] ≠ pos' := fun hsame => h (hsame ▸ hpos')
      rw [entryAt_put t _ _ _ hroot, if_neg hne, hpos']
  file pos' name' content' _ hfile := by
    rw [entryAt_put t _ _ _ (by simp)]
    split
    · exact ⟨content, rfl⟩
    · exact ⟨content', hfile⟩

/-! ## Locating paths -/

/-- A path that leads somewhere is looked up component by component. -/
theorem locate_of_ok {p : PathName} (h : t.locate p = .ok pos) :
    p.components.foldlM t.step (t.start p) = .ok pos := by
  unfold locate at h
  split at h
  · cases h
  · split at h
    · cases h
    · exact h

theorem Keeps.start (h : t.Keeps u) (p : PathName) : u.start p = t.start p := by
  rw [FileTree.start, FileTree.start, h.home]

/-- Where the parent of a path leads to a directory, and the path to nothing, there is no entry. -/
theorem entryAt_of_locate {p : PathName} (hnull : ¬ p.components.any fun name => HasNull name)
    (hmissing : t.locate p = .error .missing) (hname : p.components.getLast? = some name)
    (hup : name ≠ "..") (hparent : t.locate p.parent = .ok pos)
    (hpos : t.entryAt pos = some .directory) : t.entryAt (pos ++ [name]) = none := by
  have hparent : p.parent.components.foldlM t.step (t.start p) = .ok pos := locate_of_ok hparent
  have hcomponents : p.parent.components ++ [name] = p.components :=
    List.dropLast_append_getLast? name hname
  have hlong : ¬ IsTooLong p := by
    intro hlong
    rw [locate, if_neg hnull, if_pos hlong] at hmissing
    cases hmissing
  have hstep : t.step pos name = .error .missing := by
    rw [locate, if_neg hnull, if_neg hlong, ← hcomponents, List.foldlM_append, hparent] at hmissing
    exact (bind_pure (t.step pos name)).symm.trans hmissing
  have hclean : ¬ HasNull name := by
    rintro hname
    refine hnull (List.any_eq_true.2 ⟨name, ?_, decide_eq_true hname⟩)
    rw [← hcomponents]
    simp
  rw [step, hpos] at hstep
  simp only [if_neg hup, if_neg hclean] at hstep
  split at hstep
  · cases hstep
  · split at hstep
    · cases hstep
    · next habsent => exact Option.not_isSome_iff_eq_none.1 habsent

end FileTree

/-! ## Changes of a tree -/

namespace TreeEdit

open FileTree

variable {α β : Type} {x : TreeEdit α} {t u : FileTree}

/-- Whether the change fails or not, the tree grows. -/
def Grows (x : TreeEdit α) : Prop := ∀ t : FileTree, t.Keeps (stateAfter x t)

theorem Grows.of_ok (hx : Grows x) {a : α} (h : x t = .ok a u) : t.Keeps u := by
  have hgrows := hx t
  rwa [stateAfter_of_ok h] at hgrows

theorem Grows.of_error (hx : Grows x) {e : FileError} (h : x t = .error e u) : t.Keeps u := by
  have hgrows := hx t
  rwa [stateAfter_of_error h] at hgrows

theorem Grows.bind {f : α → TreeEdit β} (hx : Grows x) (hf : ∀ a, Grows (f a)) : Grows (x >>= f) := by
  intro t
  cases h : x t with
  | ok a u =>
    have hrest := hf a u
    unfold stateAfter at hrest ⊢
    rw [bind_of_ok h]
    exact (hx.of_ok h).trans hrest
  | error e u =>
    rw [stateAfter_of_error (bind_of_error h)]
    exact hx.of_error h

theorem Grows.get_bind {f : FileTree → TreeEdit α} (hf : ∀ t : FileTree, t.Keeps (stateAfter (f t) t)) :
    Grows (get >>= f) := hf

/-- A directory is made where nothing is. -/
theorem grows_makeDirectory (p : PathName) : Grows (makeDirectory p) := by
  refine Grows.get_bind fun t => ?_
  by_cases hnull : p.components.any fun name => HasNull name
  · simp only [if_pos hnull]
    exact .refl t
  · simp only [if_neg hnull]
    cases hlocate : t.locate p with
    | ok => exact .refl t
    | error obstacle =>
      cases obstacle with
      | notADirectory | nameTooLong => exact .refl t
      | missing =>
        cases hname : p.components.getLast? with
        | none => exact .refl t
        | some name =>
          cases hparent : t.locate p.parent with
          | error => exact .refl t
          | ok pos =>
            by_cases hup : name = ".."
            · simp only [if_pos hup]
              exact .refl t
            · simp only [if_neg hup]
              exact keeps_put_directory (entryAt_of_locate hnull hlocate hname hup hparent)

theorem grows_orPresent (p : PathName) (e : FileError) : Grows (orPresent p e) := by
  intro t
  unfold stateAfter orPresent
  rw [get_bind]
  cases t.isDirectory p with
  | ok present => cases present <;> exact .refl t
  | error e => exact .refl t

theorem grows_ensureDirectory (p : PathName) : Grows (ensureDirectory p) := by
  intro t
  have hmake := grows_makeDirectory p
  unfold stateAfter ensureDirectory
  cases h : makeDirectory p t with
  | ok _ u => exact hmake.of_ok h
  | error e u =>
    have hu := hmake.of_error h
    cases e with
    | nullCharacter | noSuchFile => exact hu
    | _ => exact hu.trans (grows_orPresent p _ u)

/-- The directories above a path are made first, as far as they are missing. -/
theorem grows_ensureDirectoriesBelow (slashes : Nat) (above : List String) :
    Grows (ensureDirectoriesBelow slashes above) := by
  induction above with
  | nil => exact grows_ensureDirectory ⟨slashes, []⟩
  | cons name above ih =>
    intro t
    have hmake := grows_makeDirectory ⟨slashes, (name :: above).reverse⟩
    have hagain := ih.bind fun _ => grows_ensureDirectory ⟨slashes, (name :: above).reverse⟩
    unfold stateAfter at hagain ⊢
    unfold ensureDirectoriesBelow
    simp only
    cases h : makeDirectory ⟨slashes, (name :: above).reverse⟩ t with
    | ok _ u => exact hmake.of_ok h
    | error e u =>
      have hu := hmake.of_error h
      cases e with
      | nullCharacter => exact hu
      | noSuchFile => exact hu.trans (hagain u)
      | _ => exact hu.trans (grows_orPresent _ _ u)

theorem grows_writeFile (p : PathName) (content : String) : Grows (writeFile p content) := by
  refine Grows.get_bind fun t => ?_
  by_cases hlong : IsTooLong p
  · simp only [if_pos hlong]
    exact .refl t
  · simp only [if_neg hlong]
    cases t.locate p.parent with
    | error => exact .refl t
    | ok pos =>
      cases p.components.getLast? with
      | none => exact .refl t
      | some name =>
        by_cases htaken : t.entryAt (pos ++ [name]) = some .directory
        · simp only [if_pos htaken]
          exact .refl t
        · simp only [if_neg htaken]
          exact keeps_put_file htaken content

theorem grows_installFile (p : PathName) (name content : String) :
    Grows (installFile p name content) := by
  refine Grows.get_bind fun t => ?_
  split
  · exact grows_writeFile _ content t
  · exact grows_writeFile p content t

end TreeEdit
end ProjectGraph
