import ProjectGraph.Proofs.Builds.PhaseOrder
import ProjectGraph.Proofs.Twins.Files

/-! # Builds on twins

A build runs in step on twins, on the same files, provided that all it looks for is read. -/

namespace ProjectGraph

open Project

/-- Two states with the files of one from before, and with related projects. -/
structure BuildState.Beside (r : BuildState) (J : Project → Project → Prop) (s u : BuildState) :
    Prop where
  projects : J s.project u.project
  left : r.SameFiles s
  right : r.SameFiles u

namespace BuildState.Beside

variable {r s u : BuildState} {J J' : Project → Project → Prop}

/-- An edit that runs in step on the projects runs in step in a build. -/
theorem edit {α : Type} {x : Edit α} (h : Beside r J s u) (hx : InStep J' x s.project u.project) :
    InStep (Beside r J') (Build.edit x) s u := by
  intro a s' b u' hs hu
  obtain ⟨hxs, hfiles⟩ := Build.exists_of_edit_eq_ok hs
  obtain ⟨hxu, hfiles'⟩ := Build.exists_of_edit_eq_ok hu
  obtain ⟨rfl, hJ⟩ := hx _ _ _ _ hxs hxu
  exact ⟨rfl, hJ, h.left.trans hfiles, h.right.trans hfiles'⟩

theorem say (h : Beside r J s u) (line : String) : InStep (Beside r J) (Build.say line) s u :=
  .of_ok rfl rfl ⟨h.projects, h.left.trans ⟨rfl, rfl⟩, h.right.trans ⟨rfl, rfl⟩⟩

end BuildState.Beside

namespace Fork

variable [IdScheme] {F : Fork} {p q : Project} {t : ObjectId} {d : Target} {r s u : BuildState}

/-- All that the build of a target looks for is read. -/
structure ReadsFor (F : Fork) (d : Target) (tree : FileTree) (root : PathName) : Prop where
  name : F.name = d.name
  paths : ∀ path ∈ (d.filings tree root).map Prod.fst, F.ReadsFile path
  product : F.ReadsProduct d.productPath
  dependencies : ∀ n ∈ frameworkNames d.dependencies, F.ReadsProduct n

namespace ReadsFor

variable {tree : FileTree} {root : PathName}

theorem infoPlist (h : F.ReadsFor d tree root) : F.ReadsFile d.infoPlist :=
  h.paths _ (by simp [Target.filings, Target.plainFilings])

theorem header (h : F.ReadsFor d tree root) {path : String} (hpath : d.filedHeader = some path) :
    F.ReadsFile path :=
  h.paths _ (by simp [Target.filings, Target.plainFilings, hpath])

theorem sources (h : F.ReadsFor d tree root) :
    ∀ path ∈ tree.selected root d.includeFiles d.excludeFiles, F.ReadsFile path := by
  intro path hpath
  refine h.paths path (List.mem_map.2 ⟨d.filing .sources path, ?_, rfl⟩)
  simp only [Target.filings, Target.sourceFilings, List.mem_append]
  exact .inl (.inr (List.mem_map_of_mem hpath))

theorem resources (h : F.ReadsFor d tree root) {patterns : List String}
    (hpatterns : d.resourceFiles = some patterns) :
    ∀ path ∈ tree.selected root patterns none, F.ReadsFile path := by
  intro path hpath
  refine h.paths path (List.mem_map.2 ⟨d.filing .resources path, ?_, rfl⟩)
  simp only [Target.filings, Target.resourceFilings, hpatterns, List.mem_append]
  exact .inr (by simpa using List.mem_map_of_mem hpath)

end ReadsFor

/-! ## Parts of a build -/

theorem Twins.inStep_enter {tree : FileTree} {root : PathName} (h : F.Twins p q)
    (hread : F.ReadsFor d tree root) (hnew : ∀ t, q.IsNamed t F.name → p.IsNamed t F.name) :
    InStep F.Twins (enter d) p q := by
  have htarget : InStep F.Twins (newNativeTarget d.name d.kind) p q :=
    hread.name ▸ h.inStep_newNativeTarget hnew d.kind
  refine htarget.bind fun t p₁ q₁ hs _ h₁ => ?_
  obtain ⟨-, hnamed⟩ := Leads.of_ok (performs_newNativeTarget h.left.wellFormed d.name d.kind) hs
  have h₁ : F.TwinsAt t p₁ q₁ := ⟨h₁, hread.name ▸ hnamed.isNamed⟩
  refine (h₁.inStep_newConfigurationList _ _ _).bind fun _ _ _ _ _ h₂ => ?_
  refine (h₂.inStep_addBuildScripts .pre d.preBuildScripts).bind fun _ _ _ _ _ h₃ => ?_
  refine (h₃.inStep_addInfoPlist hread.infoPlist).bind fun _ _ _ _ _ h₄ => ?_
  refine (h₄.inStep_addFrameworkHeader fun _ => hread.header).bind fun _ _ _ _ _ h₅ => ?_
  exact .pure t h₅.toTwins

namespace TwinsAt

theorem inStep_equip {tree : FileTree} {root : PathName} (h : F.TwinsAt t p q)
    (hread : F.ReadsFor d tree root) : InStep (F.TwinsAt t) (equip t d) p q := by
  refine (h.inStep_composeSettings d).bind fun _ _ _ _ _ h₁ => ?_
  refine (h₁.inStep_newProductReference hread.product).discard.bind fun _ _ _ _ _ h₂ => ?_
  refine (h₂.inStep_addBuildPhase .resources).bind fun _ _ _ _ _ h₃ => ?_
  refine (h₃.inStep_addBuildPhase .frameworks).bind fun _ _ _ _ _ h₄ => ?_
  exact h₄.inStep_addBuildScripts .post d.postBuildScripts

theorem inStep_fileAll (h : r.Beside (F.TwinsAt t) s u) (kind : PhaseKind) {patterns : List String}
    {exclude : Option (List (List String))}
    (hread : ∀ path ∈ r.workspace.tree.selected r.builder.root patterns exclude, F.ReadsFile path) :
    InStep (r.Beside (F.TwinsAt t)) (Build.fileAll t kind patterns exclude) s u := by
  cases hfiles : r.workspace.tree.resolveFiles r.builder.root patterns exclude with
  | error e =>
    have hresolve : Build.resolveFiles patterns exclude s = .error (.file e) s := by
      rw [Build.resolveFiles, h.left.tree, h.left.builder, hfiles]
    exact .of_error (bind_of_error hresolve)
  | ok files =>
    have hresolve : ∀ v, r.SameFiles v → Build.resolveFiles patterns exclude v = .ok files v := by
      intro v hv
      rw [Build.resolveFiles, hv.tree, hv.builder, hfiles]
    rw [FileTree.selected, hfiles] at hread
    refine .bind_read (hresolve s h.left) (hresolve u h.right) ?_
    exact h.edit (h.projects.inStep_addFiles kind hread)

theorem inStep_addCopyFrameworksPhase (h : r.Beside (F.TwinsAt t) s u)
    (hb : r.builder.scriptsDirectory = none) (names : List String) :
    InStep (r.Beside (F.TwinsAt t)) (Build.addCopyFrameworksPhase t names) s u := by
  have heq : ∀ v, r.SameFiles v → Build.addCopyFrameworksPhase t names v =
      Build.edit (addScriptPhase t copyFrameworksSlot
        ⟨copyFrameworksName, CopyScript.text, names⟩) v := by
    intro v hv
    rw [Build.addCopyFrameworksPhase, get_bind, hv.builder, hb]
    rfl
  exact .congr (heq s h.left) (heq u h.right) (h.edit (h.projects.inStep_addScriptPhase _ _))

theorem inStep_complete (h : r.Beside (F.TwinsAt t) s u) (hb : r.builder.scriptsDirectory = none)
    (hread : F.ReadsFor d r.workspace.tree r.builder.root) :
    InStep (r.Beside (F.TwinsAt t)) (Build.complete t d) s u := by
  refine (h.edit (h.projects.inStep_linkDependencies hread.dependencies)).bind
    fun names s₁ u₁ _ _ h₁ => ?_
  have hresources : InStep (r.Beside (F.TwinsAt t)) (Build.addResourceFiles t d.resourceFiles) s₁ u₁ := by
    cases hpatterns : d.resourceFiles with
    | none => exact .pure _ h₁
    | some patterns => exact inStep_fileAll h₁ .resources (hread.resources hpatterns)
  refine hresources.bind fun _ s₂ u₂ _ _ h₂ => ?_
  split
  · exact (inStep_addCopyFrameworksPhase h₂ hb names).bind fun _ _ _ _ _ h₃ => .pure names h₃
  · exact .pure names h₂

end TwinsAt

/-! ## The whole build -/

theorem Twins.inStep_prepare (h : r.Beside F.Twins s u)
    (hread : F.ReadsFor d r.workspace.tree r.builder.root)
    (hnew : ∀ t, u.project.IsNamed t F.name → s.project.IsNamed t F.name) :
    InStep (r.Beside F.Twins) (Build.prepare d) s u := by
  refine (h.say _).bind fun _ s₁ u₁ hs hu h₁ => ?_
  cases hs
  cases hu
  refine (h₁.edit (h₁.projects.inStep_enter hread hnew)).bind fun t s₂ u₂ hs _ h₂ => ?_
  obtain ⟨henter, -⟩ := Build.exists_of_edit_eq_ok hs
  obtain ⟨-, hentered⟩ := Leads.of_ok (performs_enter h₁.projects.left.wellFormed d s.project) henter
  have h₂ : r.Beside (F.TwinsAt t) s₂ u₂ :=
    ⟨⟨h₂.projects, hread.name ▸ hentered.isNamed⟩, h₂.left, h₂.right⟩
  refine (TwinsAt.inStep_fileAll h₂ .sources hread.sources).bind fun _ s₃ u₃ _ _ h₃ => ?_
  refine (h₃.edit (h₃.projects.inStep_equip hread)).bind fun _ s₄ u₄ _ _ h₄ => ?_
  exact .pure t ⟨h₄.projects.toTwins, h₄.left, h₄.right⟩

/-- The build of a target runs in step on twins. -/
theorem Twins.inStep_build (h : r.Beside F.Twins s u) (hb : r.builder.scriptsDirectory = none)
    (hread : F.ReadsFor d r.workspace.tree r.builder.root)
    (hnew : ∀ t, u.project.IsNamed t F.name → s.project.IsNamed t F.name) :
    InStep (r.Beside F.Twins) (Build.build d) s u := by
  rw [Build.build_eq]
  refine InStep.map ?_ _
  refine (Twins.inStep_prepare h hread hnew).bind fun t s₁ u₁ hs _ h₁ => ?_
  obtain ⟨-, -, hprepared⟩ := Leads.of_ok (Build.performs_prepare h.projects.left.wellFormed d) hs
  have h₁ : r.Beside (F.TwinsAt t) s₁ u₁ :=
    ⟨⟨h₁.projects, hread.name ▸ hprepared.entered.isNamed⟩, h₁.left, h₁.right⟩
  refine (TwinsAt.inStep_complete h₁ hb hread).bind fun names s₂ u₂ _ _ h₂ => ?_
  exact .pure (t, names) ⟨h₂.projects.toTwins, h₂.left, h₂.right⟩

end Fork
end ProjectGraph
