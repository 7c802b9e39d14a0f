import ProjectGraph.Build.TargetBuild
import ProjectGraph.Proofs.Indifferent.Operations

/-! # Parts of a build that do not read settings

Resolving files, installing the script and whatever follows on the composition of settings does the same
for other settings. -/

namespace ProjectGraph

/-- The state with the settings of the objects of its project changed. -/
def BuildState.mapSettings (f : ObjectId → Settings → Settings) (s : BuildState) : BuildState :=
  { s with workspace.project := s.workspace.project.mapSettings f }

/-- The build does the same whatever settings objects have. -/
abbrev Build.Indifferent {α : Type} (f : ObjectId → Settings → Settings) (x : Build α) : Prop :=
  Intertwined (BuildState.mapSettings f) (fun a => a) x x

namespace Build

variable {f : ObjectId → Settings → Settings} {α : Type} {t : ObjectId}

theorem tree_mapSettings (f : ObjectId → Settings → Settings) (s : BuildState) :
    (s.mapSettings f).workspace.tree = s.workspace.tree := rfl

theorem builder_mapSettings (f : ObjectId → Settings → Settings) (s : BuildState) :
    (s.mapSettings f).builder = s.builder := rfl

/-- An edit that leads to a changed project leads to a changed state, whether it has started from a
changed one or not. -/
theorem edit_mapSettings {x y : Edit α} {s u : BuildState}
    (hu : ∀ p : Project, { u with workspace.project := p.mapSettings f } =
      BuildState.mapSettings f { s with workspace.project := p })
    (h : y u.workspace.project =
      mapResult (fun a => a) (Project.mapSettings f) (x s.workspace.project)) :
    edit y u = mapResult (fun a => a) (BuildState.mapSettings f) (edit x s) := by
  unfold edit
  rw [h]
  cases x s.workspace.project with
  | ok a p => exact congrArg (EStateM.Result.ok a) (hu p)
  | error e p => exact congrArg (EStateM.Result.error e) (hu p)

theorem indifferent_edit {x : Edit α} (h : Edit.Indifferent f x) : Build.Indifferent f (edit x) :=
  fun s => edit_mapSettings (fun _ => rfl) (h s.workspace.project)

theorem indifferent_say (line : String) : Build.Indifferent f (say line) := .modify fun _ => rfl

theorem indifferent_resolveFiles (patterns : List String) (exclude : Option (List (List String))) :
    Build.Indifferent f (resolveFiles patterns exclude) := by
  intro s
  unfold resolveFiles
  rw [tree_mapSettings, builder_mapSettings]
  cases s.workspace.tree.resolveFiles s.builder.root patterns exclude <;> rfl

theorem indifferent_editTree (x : TreeEdit α) : Build.Indifferent f (editTree x) := by
  intro s
  unfold editTree
  rw [tree_mapSettings]
  cases x s.workspace.tree <;> rfl

theorem indifferent_installTemplate : Build.Indifferent f installTemplate := by
  have hmark : Build.Indifferent f (modify fun s => { s with builder.templateInstalled := true }) :=
    .modify fun _ => rfl
  refine Intertwined.get.bind fun s => ?_
  rw [builder_mapSettings]
  dsimp only
  split
  · exact .pure ()
  · cases s.builder.templatePath with
    | none => exact .throw _
    | some path => exact (indifferent_say _).bind_id fun _ =>
        (indifferent_editTree _).bind_id fun _ => (indifferent_editTree _).bind_id fun _ => hmark

variable [IdScheme]

theorem indifferent_addCopyFrameworksPhase (t : ObjectId) (frameworks : List String) :
    Build.Indifferent f (addCopyFrameworksPhase t frameworks) := by
  have hrest : ∀ body, Build.Indifferent f (edit (Project.addScriptPhase t copyFrameworksSlot
      ⟨copyFrameworksName, body, frameworks⟩)) := fun body =>
    indifferent_edit (Project.indifferent_addScriptPhase t _ _)
  refine Intertwined.get.bind fun s => ?_
  rw [builder_mapSettings]
  cases s.builder.scriptsDirectory with
  | none => exact hrest _
  | some directory => exact indifferent_installTemplate.bind_id fun _ => hrest _

theorem indifferent_addResourceFiles (t : ObjectId) (patterns : Option (List String)) :
    Build.Indifferent f (addResourceFiles t patterns) := by
  cases patterns with
  | none => exact .pure ()
  | some patterns => exact (indifferent_resolveFiles patterns none).bind_id fun files =>
      indifferent_edit (Project.indifferent_addFiles t .resources files)

end Build
end ProjectGraph
