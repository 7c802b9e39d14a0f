import ProjectGraph.Proofs.Builds.Built
import ProjectGraph.Proofs.FileTree.Search
import ProjectGraph.Proofs.Text.PathNames

/-! # Installing the script

A build reports one line and leaves the files as they are, unless it has a test copy frameworks by a
script that its builder has yet to install. What the phase runs is what has been installed. -/

namespace ProjectGraph

/-! ## Where the script goes -/

namespace Builder

/-- The path of the script from the root on. -/
def scriptPath (directory : PathName) : PathName := directory ++ .single CopyScript.fileName

theorem scriptPath_relative {directory : PathName} (h : ¬ directory.IsAbsolute) :
    ¬ (scriptPath directory).IsAbsolute := by
  rw [scriptPath, PathName.append_single]
  exact h

/-- A relative path of the script is run below the root. -/
theorem runInstalled_eq {directory : PathName} (h : ¬ directory.IsAbsolute) :
    runInstalled directory = "exec \"${SRCROOT}/" ++ (scriptPath directory).text ++ "\"" := by
  have hne : (scriptPath directory).components ≠ [] := by
    simp [scriptPath, PathName.append_single]
  unfold runInstalled
  simp only
  rw [PathName.append_assoc]
  show "exec \"" ++ (PathName.single _ ++ scriptPath directory).text ++ "\"" = _
  rw [PathName.text_single_append _ (scriptPath_relative h) hne]
  simp only [← String.append_assoc]
  rfl

theorem templatePath_eq {b : Builder} {directory : PathName} (h : b.scriptsDirectory = some directory) :
    b.templatePath = some (b.root ++ scriptPath directory) := by
  rw [templatePath, h, Option.map_some, PathName.append_assoc]
  rfl

/-- The builder has nothing to install: there is no directory for scripts, or the script is there. -/
def Provided (b : Builder) : Prop := b.scriptsDirectory = none ∨ b.templateInstalled = true

theorem not_provided {b : Builder} {path : PathName} (hplace : b.templatePath = some path)
    (hnew : b.templateInstalled = false) : ¬ b.Provided := by
  rintro (hnone | hinstalled)
  · rw [templatePath, hnone] at hplace
    cases hplace
  · rw [hnew] at hinstalled
    cases hinstalled

/-- The line that reports that the script is being installed at a path. -/
def installLine (path : PathName) : String :=
  "copying " ++ CopyScript.fileName ++ " to " ++ path.parent.text

end Builder

/-! ## What is installed -/

namespace FileTree

variable {t u : FileTree} {directory : PathName}

/-- Makes the directory of a path, with those above it, and writes the script to the path. -/
def installScript (path : PathName) : TreeEdit Unit := do
  ensureDirectories path.parent
  installFile path CopyScript.fileName CopyScript.text

theorem keeps_of_installScript {path : PathName} (h : installScript path t = .ok () u) : t.Keeps u := by
  obtain ⟨_, v, hensure, hinstall⟩ := exists_of_bind_eq_ok h
  have hdirectories := (TreeEdit.grows_ensureDirectoriesBelow _ _).of_ok hensure
  exact hdirectories.trans ((TreeEdit.grows_installFile _ _ _).of_ok hinstall)

/-- The directory contains the script, under the name of its file. -/
def HasScript (t : FileTree) (directory : PathName) : Prop :=
  ∃ pos, t.locate directory = .ok pos ∧
    t.entryAt (pos ++ [CopyScript.fileName]) = some (.file CopyScript.text)

theorem hasScript_of_writeFile
    (h : writeFile (Builder.scriptPath directory) CopyScript.text t = .ok () u) :
    u.HasScript directory := by
  have hkeeps := (TreeEdit.grows_writeFile (Builder.scriptPath directory) CopyScript.text).of_ok h
  rw [writeFile, get_bind] at h
  split at h
  · cases h
  · have hlast : (Builder.scriptPath directory).components.getLast? = some CopyScript.fileName := by
      simp [Builder.scriptPath, PathName.append_single]
    rw [hlast, Builder.scriptPath, PathName.parent_append_single] at h
    cases hpos : t.locate directory with
    | error e =>
      rw [hpos] at h
      cases h
    | ok pos =>
      rw [hpos] at h
      simp only at h
      split at h
      · cases h
      · cases h
        refine ⟨pos, (locate_of_keeps hkeeps directory).1 pos hpos, ?_⟩
        rw [entryAt_put _ _ _ _ (by simp), if_pos rfl]

theorem isDirectory_of_keeps (h : t.Keeps u) {p : PathName} (hp : t.isDirectory p = .ok true) :
    u.isDirectory p = .ok true := by
  unfold isDirectory at hp ⊢
  cases hpos : t.locate p with
  | ok pos =>
    rw [hpos] at hp
    rw [(locate_of_keeps h p).1 pos hpos]
    simp only [Except.ok.injEq, decide_eq_true_eq] at hp ⊢
    exact h.directory pos hp
  | error obstacle =>
    rw [hpos] at hp
    cases obstacle <;> cases hp

/-- If installing succeeds, the script is in the directory, or in a directory that has its name. -/
theorem hasScript_of_installScript
    (h : installScript (Builder.scriptPath directory) t = .ok () u) :
    u.HasScript directory ∨
      u.isDirectory (Builder.scriptPath directory) = .ok true ∧
        u.HasScript (Builder.scriptPath directory) := by
  obtain ⟨_, v, -, h⟩ := exists_of_bind_eq_ok h
  have hkeeps := (TreeEdit.grows_installFile _ _ _).of_ok h
  rw [installFile, get_bind] at h
  cases hdirectory : v.isDirectory (Builder.scriptPath directory) with
  | error e =>
    rw [hdirectory] at h
    exact .inl (hasScript_of_writeFile h)
  | ok isDirectory =>
    rw [hdirectory] at h
    cases isDirectory with
    | false => exact .inl (hasScript_of_writeFile h)
    | true => exact .inr ⟨isDirectory_of_keeps hkeeps hdirectory, hasScript_of_writeFile h⟩

end FileTree

/-! ## What is done to the files -/

namespace BuildState

variable {s s' s'' : BuildState} {path : PathName} {e : Option Error} {lines lines' : List String}
  {earlier later : List String}

/-- The second state has the same files and the same builder, and these lines have been reported. -/
structure Reports (s s' : BuildState) (lines : List String) : Prop extends s.SameFiles s' where
  printed : s'.workspace.printed = s.workspace.printed ++ lines

/-- Up to the second state, which a failure may have led to, the script has been installed at a path
once, or this has been tried. Lines have been reported before it and after it. -/
structure Installs (s : BuildState) (path : PathName) (e : Option Error) (s' : BuildState)
    (earlier later : List String) : Prop where
  place : s.builder.templatePath = some path
  pending : s.builder.templateInstalled = false
  tree : s'.workspace.tree = stateAfter (FileTree.installScript path) s.workspace.tree
  builder : s'.builder =
    { s.builder with
      templateInstalled := (failureOf (FileTree.installScript path) s.workspace.tree).isNone }
  printed : s'.workspace.printed =
    s.workspace.printed ++ (earlier ++ Builder.installLine path :: later)
  succeeds : e = none → failureOf (FileTree.installScript path) s.workspace.tree = none

namespace Reports

theorem refl (s : BuildState) : s.Reports s [] := ⟨.refl s, (List.append_nil _).symm⟩

theorem trans (h : s.Reports s' lines) (h' : s'.Reports s'' lines') :
    s.Reports s'' (lines ++ lines') where
  toSameFiles := h.toSameFiles.trans h'.toSameFiles
  printed := by rw [h'.printed, h.printed, List.append_assoc]

/-- A state with another project has the same files, and the same lines. -/
theorem of_eq {p : Project} (h : s' = { s with workspace.project := p }) : s.Reports s' [] where
  toSameFiles := .of_eq h
  printed := by rw [h, List.append_nil]

theorem installs (h : s.Reports s' lines) (h' : s'.Installs path e s'' earlier later) :
    s.Installs path e s'' (lines ++ earlier) later where
  place := h.builder ▸ h'.place
  pending := h.builder ▸ h'.pending
  tree := by rw [h'.tree, h.tree]
  builder := by rw [h'.builder, h.builder, h.tree]
  printed := by rw [h'.printed, h.printed, List.append_assoc, List.append_assoc]
  succeeds := h.tree ▸ h'.succeeds

end Reports

namespace Installs

theorem reports (h : s.Installs path none s' earlier later) (h' : s'.Reports s'' lines)
    (e : Option Error) :
    s.Installs path e s'' earlier (later ++ lines) where
  place := h.place
  pending := h.pending
  tree := h'.tree.trans h.tree
  builder := h'.builder.trans h.builder
  printed := by rw [h'.printed, h.printed]; simp only [List.append_assoc, List.cons_append]
  succeeds _ := h.succeeds rfl

theorem scriptsDirectory (h : s.Installs path e s' earlier later) :
    s'.builder.scriptsDirectory = s.builder.scriptsDirectory := by
  rw [h.builder]

theorem not_provided (h : s.Installs path e s' earlier later) : ¬ s.builder.Provided :=
  Builder.not_provided h.place h.pending

/-- After the script has been installed it is not installed once more. -/
theorem not_installs (h : s.Installs path none s' earlier later) {path' : PathName}
    {earlier' later' : List String} : ¬ s'.Installs path' e s'' earlier' later' := by
  intro h'
  have hpending := h'.pending
  rw [h.builder, h.succeeds rfl] at hpending
  cases hpending

end Installs
end BuildState

namespace Build

variable {α β : Type} {s : BuildState}

/-- The part of a build reports nothing and leaves the files as they are, whether it fails or not. -/
def Silent (x : Build α) : Prop := ∀ s : BuildState, s.Reports (stateAfter x s) []

namespace Silent

theorem pure (a : α) : Silent (pure a) := fun s => .refl s

theorem bind {x : Build α} {f : α → Build β} (hx : Silent x) (hf : ∀ a, Silent (f a)) :
    Silent (x >>= f) := by
  intro s
  have hfirst := hx s
  cases h : x s with
  | ok a s' =>
    rw [stateAfter_of_ok h] at hfirst
    rw [stateAfter_bind_of_ok h]
    exact hfirst.trans (hf a s')
  | error e s' =>
    rw [stateAfter_of_error h] at hfirst
    rw [stateAfter_bind_of_error h]
    exact hfirst

theorem edit (x : Edit α) : Silent (edit x) := by
  intro s
  cases h : x s.project with
  | ok a p =>
    rw [stateAfter_of_ok (edit_of_eq_ok h)]
    exact .of_eq rfl
  | error e p =>
    rw [stateAfter_of_error (edit_of_eq_error h)]
    exact .of_eq rfl

theorem resolveFiles (patterns : List String) (exclude : Option (List (List String))) :
    Silent (resolveFiles patterns exclude) := by
  intro s
  unfold stateAfter Build.resolveFiles
  cases s.workspace.tree.resolveFiles s.builder.root patterns exclude <;> exact .refl s

theorem fileAll [IdScheme] (t : ObjectId) (kind : PhaseKind) (patterns : List String)
    (exclude : Option (List (List String))) : Silent (fileAll t kind patterns exclude) :=
  (resolveFiles patterns exclude).bind fun files => edit (Project.addFiles t kind files)

theorem addResourceFiles [IdScheme] (t : ObjectId) (resources : Option (List String)) :
    Silent (addResourceFiles t resources) := by
  cases resources with
  | none => exact pure ()
  | some patterns => exact fileAll t .resources patterns none

end Silent

/-! ## Installing -/

theorem editTree_of_eq_ok {x : TreeEdit α} {a : α} {t : FileTree} (h : x s.workspace.tree = .ok a t) :
    editTree x s = .ok a { s with workspace.tree := t } := by
  rw [editTree, h]

theorem editTree_of_eq_error {x : TreeEdit α} {e : FileError} {t : FileTree}
    (h : x s.workspace.tree = .error e t) :
    editTree x s = .error (.file e) { s with workspace.tree := t } := by
  rw [editTree, h]

theorem editTree_bind (x : TreeEdit α) (f : α → TreeEdit β) :
    editTree (x >>= f) = editTree x >>= fun a => editTree (f a) := by
  funext s
  cases hx : x s.workspace.tree with
  | ok a t =>
    rw [bind_of_ok (editTree_of_eq_ok hx), editTree, editTree, bind_of_ok hx]
  | error e t => rw [bind_of_error (editTree_of_eq_error hx), editTree_of_eq_error (bind_of_error hx)]

/-- A builder that has yet to install the script reports that it does so, and tries to. If it fails, it
has still to install the script. -/
theorem installTemplate_eq {path : PathName} (hplace : s.builder.templatePath = some path)
    (hnew : s.builder.templateInstalled = false) :
    installTemplate s =
      match FileTree.installScript path s.workspace.tree with
      | .ok () t =>
        .ok ()
          { workspace.project := s.workspace.project
            workspace.tree := t
            workspace.printed := s.workspace.printed ++ [Builder.installLine path]
            builder := { s.builder with templateInstalled := true } }
      | .error e t =>
        .error (.file e)
          { s with
            workspace.tree := t
            workspace.printed := s.workspace.printed ++ [Builder.installLine path] } := by
  let s₀ : BuildState :=
    { s with workspace.printed := s.workspace.printed ++ [Builder.installLine path] }
  have hsay : say (Builder.installLine path) s = .ok () s₀ := rfl
  have hrest : installTemplate s =
      (editTree (FileTree.installScript path) >>= fun _ =>
        modify fun s => { s with builder.templateInstalled := true } : Build Unit) s₀ := by
    rw [installTemplate, get_bind]
    simp only [hnew, Bool.false_eq_true, if_false, hplace]
    rw [FileTree.installScript, editTree_bind, bind_assoc]
    exact bind_of_ok hsay
  rw [hrest]
  cases hinstall : FileTree.installScript path s.workspace.tree with
  | ok _ t => exact bind_of_ok (editTree_of_eq_ok (s := s₀) hinstall)
  | error e t => exact bind_of_error (editTree_of_eq_error (s := s₀) hinstall)

/-- A builder that has installed the script has nothing left to install. -/
theorem installTemplate_of_installed (h : s.builder.templateInstalled = true) :
    installTemplate s = .ok () s := by
  rw [installTemplate, get_bind]
  simp only [if_pos h]
  rfl

theorem installs_installTemplate {path : PathName} (hplace : s.builder.templatePath = some path)
    (hnew : s.builder.templateInstalled = false) :
    s.Installs path (failureOf installTemplate s) (stateAfter installTemplate s) [] [] := by
  have hinstall := installTemplate_eq hplace hnew
  cases hscript : FileTree.installScript path s.workspace.tree with
  | ok _ t =>
    rw [hscript] at hinstall
    rw [stateAfter_of_ok hinstall]
    refine ⟨hplace, hnew, (stateAfter_of_ok hscript).symm, ?_, rfl, fun _ => failureOf_of_ok hscript⟩
    rw [failureOf_of_ok hscript]
    rfl
  | error e t =>
    rw [hscript] at hinstall
    rw [stateAfter_of_error hinstall]
    refine ⟨hplace, hnew, (stateAfter_of_error hscript).symm, ?_, rfl, fun hnone => ?_⟩
    · rw [failureOf_of_error hscript]
      show s.builder = { s.builder with templateInstalled := false }
      rw [← hnew]
    · rw [failureOf_of_error hinstall] at hnone
      cases hnone

variable [IdScheme] {t : ObjectId} {d : Target}

theorem addCopyFrameworksPhase_of_none (h : s.builder.scriptsDirectory = none) (t : ObjectId)
    (names : List String) :
    addCopyFrameworksPhase t names s =
      edit (Project.addScriptPhase t copyFrameworksSlot ⟨copyFrameworksName, s.builder.copyBody, names⟩)
        s := by
  rw [addCopyFrameworksPhase, get_bind, Builder.copyBody, h]
  rfl

theorem addCopyFrameworksPhase_of_some {directory : PathName}
    (h : s.builder.scriptsDirectory = some directory) (t : ObjectId) (names : List String) :
    addCopyFrameworksPhase t names s =
      (installTemplate >>= fun _ => edit (Project.addScriptPhase t copyFrameworksSlot
        ⟨copyFrameworksName, s.builder.copyBody, names⟩)) s := by
  rw [addCopyFrameworksPhase, get_bind, Builder.copyBody, h]
  simp only [pure_bind]

/-- Having a target copy frameworks installs the script, unless the builder has nothing to install. -/
theorem account_addCopyFrameworksPhase (t : ObjectId) (names : List String) (s : BuildState) :
    s.Reports (stateAfter (addCopyFrameworksPhase t names) s) [] ∧ s.builder.Provided ∨
      ∃ path, s.Installs path (failureOf (addCopyFrameworksPhase t names) s)
        (stateAfter (addCopyFrameworksPhase t names) s) [] [] := by
  unfold stateAfter failureOf
  cases hdirectory : s.builder.scriptsDirectory with
  | none =>
    rw [addCopyFrameworksPhase_of_none hdirectory]
    exact .inl ⟨Silent.edit _ s, .inl hdirectory⟩
  | some directory =>
    rw [addCopyFrameworksPhase_of_some hdirectory]
    cases hnew : s.builder.templateInstalled with
    | true =>
      rw [bind_of_ok (installTemplate_of_installed hnew)]
      exact .inl ⟨Silent.edit _ s, .inr hnew⟩
    | false =>
      have hinstalls := installs_installTemplate (Builder.templatePath_eq hdirectory) hnew
      refine .inr ⟨s.builder.root ++ Builder.scriptPath directory, ?_⟩
      cases hinstall : installTemplate s with
      | ok _ s' =>
        rw [failureOf_of_ok hinstall, stateAfter_of_ok hinstall] at hinstalls
        rw [bind_of_ok hinstall]
        exact hinstalls.reports (Silent.edit _ s') _
      | error e s' =>
        rw [failureOf_of_error hinstall, stateAfter_of_error hinstall] at hinstalls
        rw [bind_of_error hinstall]
        exact hinstalls

end Build

/-- Whenever this builder has a target copy frameworks, it reports that it installs the script at a path,
and tries to. If it fails, the project stays as it is, and so does the builder, which will try again. -/
def Builder.TriesToInstall [IdScheme] (b : Builder) (path : PathName) : Prop :=
  ∀ (s : BuildState) (t : ObjectId) (names : List String), s.builder = b →
    let s' := stateAfter (Build.addCopyFrameworksPhase t names) s
    s'.workspace.tree = stateAfter (FileTree.installScript path) s.workspace.tree ∧
    s'.workspace.printed = s.workspace.printed ++ [Builder.installLine path] ∧
    ∀ e, failureOf (FileTree.installScript path) s.workspace.tree = some e →
      failureOf (Build.addCopyFrameworksPhase t names) s = some (.file e) ∧
        s'.workspace.project = s.workspace.project ∧ s'.builder = b

theorem Builder.triesToInstall [IdScheme] {b : Builder} {directory : PathName}
    (hdirectory : b.scriptsDirectory = some directory) (hnew : b.templateInstalled = false) :
    b.TriesToInstall (b.root ++ scriptPath directory) := by
  rintro s t names rfl
  have hinstall := Build.installTemplate_eq (templatePath_eq hdirectory) hnew
  have hadd := Build.addCopyFrameworksPhase_of_some hdirectory t names
  cases hscript : FileTree.installScript (s.builder.root ++ scriptPath directory) s.workspace.tree with
  | ok _ tree =>
    rw [hscript] at hinstall
    rw [bind_of_ok hinstall] at hadd
    rw [stateAfter_of_ok hscript, failureOf_of_ok hscript, stateAfter, hadd]
    have hsilent := Build.Silent.edit (Project.addScriptPhase t copyFrameworksSlot
      ⟨copyFrameworksName, s.builder.copyBody, names⟩)
    refine ⟨(hsilent _).tree, (hsilent _).printed.trans (List.append_nil _), ?_⟩
    rintro _ ⟨⟩
  | error e tree =>
    rw [hscript] at hinstall
    rw [bind_of_error hinstall] at hadd
    rw [stateAfter_of_error hadd, failureOf_of_error hadd, stateAfter_of_error hscript,
      failureOf_of_error hscript]
    refine ⟨rfl, rfl, ?_⟩
    rintro _ ⟨⟩
    exact ⟨rfl, rfl, rfl⟩

namespace Build

variable [IdScheme] {s : BuildState} {t : ObjectId}

/-! ## Whole builds -/

theorem reports_prepare (d : Target) (s : BuildState) :
    s.Reports (stateAfter (prepare d) s) ["generating " ++ d.name] := by
  let s₀ : BuildState :=
    { s with workspace.printed := s.workspace.printed ++ ["generating " ++ d.name] }
  have hsay : say ("generating " ++ d.name) s = .ok () s₀ := rfl
  have hfirst : s.Reports s₀ ["generating " ++ d.name] := ⟨⟨rfl, rfl⟩, rfl⟩
  have hrest : Silent (do
      let t ← edit (Project.enter d)
      fileAll t .sources d.includeFiles d.excludeFiles
      edit (Project.equip t d)
      return t) :=
    (Silent.edit _).bind fun t => (Silent.fileAll t _ _ _).bind fun _ => (Silent.edit _).bind fun _ =>
      .pure t
  rw [prepare, stateAfter_bind_of_ok hsay]
  exact hfirst.trans (hrest s₀)

/-- The rest of a build leaves the files as they are, unless the target is a test that depends on what
no product stands for, and the script has yet to be installed. -/
theorem account_complete {a : NativeTarget} (hs : s.project.WellFormed)
    (ha : s.project.content? t = some (.target a)) (d : Target) :
    (s.Reports (stateAfter (complete t d) s) [] ∧
      (failureOf (complete t d) s = none → d.isTest →
        s.project.thirdParty (Project.frameworkNames d.dependencies) ≠ [] → s.builder.Provided)) ∨
      d.isTest ∧ s.project.thirdParty (Project.frameworkNames d.dependencies) ≠ [] ∧
        ∃ path, s.Installs path (failureOf (complete t d) s) (stateAfter (complete t d) s) [] [] := by
  have hlinks := (Project.performs_linkDependencies hs ha d.dependencies).edit
  have hfirst := Silent.edit (Project.linkDependencies t d.dependencies) s
  rw [complete]
  cases hlink : edit (Project.linkDependencies t d.dependencies) s with
  | error e s₁ =>
    rw [stateAfter_bind_of_error hlink, failureOf_bind_of_error hlink, ← stateAfter_of_error hlink]
    refine .inl ⟨hfirst, ?_⟩
    rintro ⟨⟩
  | ok names s₁ =>
    obtain ⟨-, ⟨hnames, -⟩, -⟩ := Leads.of_ok hlinks hlink
    rw [stateAfter_of_ok hlink] at hfirst
    rw [stateAfter_bind_of_ok hlink, failureOf_bind_of_ok hlink, ← hnames]
    have hsecond := Silent.addResourceFiles t d.resourceFiles s₁
    cases hresources : addResourceFiles t d.resourceFiles s₁ with
    | error e s₂ =>
      rw [stateAfter_bind_of_error hresources, failureOf_bind_of_error hresources,
        ← stateAfter_of_error hresources]
      refine .inl ⟨hfirst.trans hsecond, ?_⟩
      rintro ⟨⟩
    | ok _ s₂ =>
      rw [stateAfter_of_ok hresources] at hsecond
      rw [stateAfter_bind_of_ok hresources, failureOf_bind_of_ok hresources]
      have hboth := hfirst.trans hsecond
      cases hcopy : d.isTest && !names.isEmpty with
      | false =>
        refine .inl ⟨hboth, fun _ htest hne => ?_⟩
        rw [htest] at hcopy
        simp [hne] at hcopy
      | true =>
        simp only [Bool.and_eq_true, Bool.not_eq_true', List.isEmpty_eq_false_iff] at hcopy
        simp only [if_true, bind_pure_comp]
        rw [stateAfter_map, failureOf_map]
        rcases account_addCopyFrameworksPhase t names s₂ with ⟨h, hprovided⟩ | ⟨path, h⟩
        · rw [hboth.builder] at hprovided
          exact .inl ⟨hboth.trans h, fun _ _ _ => hprovided⟩
        · exact .inr ⟨hcopy.1, hcopy.2, path, hboth.installs h⟩

end Build
end ProjectGraph
