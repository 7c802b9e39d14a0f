import ProjectGraph.Build.TargetBuild
import ProjectGraph.Proofs.Operations.Performs

/-! # Builds on the files around a project

The parts of a build that look at files, write files or report lines leave the project as it is.
Edits, in turn, leave the files as they are. -/

namespace ProjectGraph

/-- The state that a part of a build leaves has the same files, and the same builder. -/
structure BuildState.SameFiles (s s' : BuildState) : Prop where
  tree : s'.workspace.tree = s.workspace.tree
  builder : s'.builder = s.builder

namespace BuildState.SameFiles

variable {s s' s'' : BuildState}

theorem refl (s : BuildState) : s.SameFiles s := ⟨rfl, rfl⟩

theorem trans (h : s.SameFiles s') (h' : s'.SameFiles s'') : s.SameFiles s'' :=
  ⟨h'.tree.trans h.tree, h'.builder.trans h.builder⟩

/-- A state with another project has the same files. -/
theorem of_eq {p : Project} (h : s' = { s with workspace.project := p }) : s.SameFiles s' := by
  rw [h]
  exact ⟨rfl, rfl⟩

end BuildState.SameFiles

namespace Build

variable {α β : Type}

/-! ## Parts that leave the project as it is -/

/-- The part of a build never changes the project, and fails for reasons outside of the project. -/
def OnFiles (x : Build α) : Prop :=
  ∀ s, Leads x s (fun _ s' => s'.project = s.project) fun e s' =>
    s'.project = s.project ∧ e.IsOuter ∧ ¬ e.IsCheck

namespace OnFiles

theorem bind {x : Build α} {f : α → Build β} (hx : OnFiles x) (hf : ∀ a, OnFiles (f a)) :
    OnFiles (x >>= f) := by
  intro s
  refine Leads.bind (Leads.mono (hx s) (fun _ _ h => h) fun _ _ h => h) fun a s' hs' => ?_
  refine Leads.mono (hf a s') (fun _ _ h => ?_) fun _ _ h => ⟨?_, h.2⟩
  · rw [h, hs']
  · rw [h.1, hs']

theorem say (line : String) : OnFiles (say line) := fun _ => Leads.of_eq_ok rfl rfl

theorem editTree (x : TreeEdit α) : OnFiles (editTree x) := by
  intro s
  cases hx : x s.workspace.tree with
  | ok a t =>
    have hedit : Build.editTree x s = .ok a { s with workspace.tree := t } := by
      rw [Build.editTree, hx]
    exact Leads.of_eq_ok hedit rfl
  | error e t =>
    have hedit : Build.editTree x s = .error (.file e) { s with workspace.tree := t } := by
      rw [Build.editTree, hx]
    exact Leads.of_eq_error hedit ⟨rfl, trivial, id⟩

theorem installTemplate : OnFiles installTemplate := by
  intro s
  refine Leads.bind_read (a := s) rfl ?_
  simp only
  split
  · exact Leads.of_eq_ok (a := ()) rfl rfl
  · cases s.builder.templatePath with
    | none => exact Leads.of_eq_error (e := .noScriptsDirectory) rfl ⟨rfl, trivial, id⟩
    | some path =>
      have hmark : OnFiles (modify fun s => { s with builder.templateInstalled := true } : Build Unit) :=
        fun _ => Leads.of_eq_ok rfl rfl
      exact ((say _).bind fun _ => (editTree _).bind fun _ => (editTree _).bind fun _ => hmark) s

/-- A part of a build that leaves the project alone takes no step. -/
theorem performs [IdScheme] {A : Project → Step → Prop} {x : Build α} {s : BuildState}
    (h : OnFiles x) : Build.Performs A x s fun _ s' => s'.project = s.project := by
  refine Leads.mono (h s) (fun _ _ h => ⟨?_, h⟩) fun _ _ h => ⟨?_, .outer h.2.1, h.2.2⟩
  · rw [h]
    exact .refl
  · rw [h.1]
    exact .refl

end OnFiles

/-! ## Edits in a row -/

theorem edit_bind (x : Edit α) (f : α → Edit β) :
    edit (x >>= f) = edit x >>= fun a => edit (f a) := by
  funext s
  cases hx : x s.project with
  | ok a p =>
    rw [bind_of_ok (edit_of_eq_ok hx), edit_eq, edit_eq, bind_of_ok hx]
    rfl
  | error e p => rw [bind_of_error (edit_of_eq_error hx), edit_of_eq_error (bind_of_error hx)]

theorem edit_pure (a : α) : edit (pure a : Edit α) = pure a := rfl

theorem edit_discard (x : Edit α) : edit (discard x) = discard (edit x) := by
  funext s
  cases hx : x s.project with
  | ok a p => rw [discard_of_ok (edit_of_eq_ok hx), edit_of_eq_ok (discard_of_ok hx)]
  | error e p => rw [discard_of_error (edit_of_eq_error hx), edit_of_eq_error (discard_of_error hx)]

/-- An edit that leaves the project alone leaves the state alone. -/
theorem edit_of_ok {x : Edit α} {s : BuildState} {a : α} (h : x s.project = .ok a s.project) :
    edit x s = .ok a s :=
  edit_of_eq_ok h

end Build
end ProjectGraph
