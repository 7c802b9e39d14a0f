import ProjectGraph.Proofs.Builds.Members
import ProjectGraph.Proofs.Digest
import ProjectGraph.Proofs.Runs.Again
import ProjectGraph.Proofs.Runs.History

/-! # What is linked

A build links products that are registered at that moment, and products are registered by builds. A
target's own product is registered before its dependencies are linked, so a target that names itself as
a dependency is linked with itself. A build that fails after it has registered its product leaves the
product for later builds to link. -/

namespace ProjectGraph

section

variable [IdScheme]

/-! ## What a build links -/

theorem InBuild.name_of_files {d : Target} {q : Project} {s : Step} {name : String} {kind : PhaseKind}
    {file : ObjectId} (h : InBuild d q s) (hs : s.Files name kind file) : name = d.name := by
  obtain ⟨i, f, rfl, rfl, -, -⟩ := hs
  cases h with
  | buildFile target => exact target

/-- What is linked after a build was linked before, or it is a product that the target depends on. -/
theorem Path.joins_frameworks {d : Target} {p q : Project} {name : String} {file : ObjectId}
    (hpq : Path (BuildStep d p) p q) (hp : p.WellFormed) (h : q.Joins name .frameworks file) :
    p.Joins name .frameworks file ∨ name = d.name ∧
      ∃ n ∈ Project.frameworkNames d.dependencies, ∃ f, q.product? n = some f ∧ f.id = file := by
  induction hpq with
  | refl => exact .inl h
  | @step q s path due fresh allowed ih =>
    have hq := path.wellFormed hp
    have hgrow := Step.grows_apply due
    rcases Step.joins_apply hq due fresh h with hold | hnew
    · refine (ih hold).imp_right ?_
      rintro ⟨hname, n, hn, f, hf, hid⟩
      exact ⟨hname, n, hn, f, Project.product?_of_grows hq hf hgrow, hid⟩
    · obtain ⟨n, hn, f, hf, hid⟩ := allowed.links name file (allowed.inBuild.name_of_files hnew ▸ hnew)
      exact .inr ⟨allowed.inBuild.name_of_files hnew, n, hn, f,
        Project.product?_of_grows hq hf hgrow, hid⟩

namespace Attempt

variable {a : Attempt} {name path : String}

/-- The build makes a product with this path. -/
def Registers (a : Attempt) (path : String) : Prop :=
  a.before.project.product? path = none ∧ a.after.project.product? path ≠ none

/-- What a build links is a product that its target depends on. -/
theorem product?_of_linked (ha : a.before.project.Regular)
    (hafter : path ∈ a.after.project.linkedPaths name)
    (hbefore : path ∉ a.before.project.linkedPaths name) :
    name = a.target.name ∧ path ∈ Project.frameworkNames a.target.dependencies ∧
      a.after.project.product? path ≠ none := by
  have hpath := a.path ha.wellFormed
  have hafter' := hpath.regular_of_buildStep ha
  obtain ⟨file, g, hjoins, hg, rfl⟩ :=
    (Project.mem_linkedPaths hafter'.wellFormed hafter'.owned).1 hafter
  rcases hpath.joins_frameworks ha.wellFormed hjoins with hold | ⟨hname, n, hn, f, hf, rfl⟩
  · obtain ⟨g', hg'⟩ := hold.exists_file ha.wellFormed
    have hsame := hpath.grows.file hg'
    rw [hg] at hsame
    cases hsame
    exact absurd ((Project.mem_linkedPaths ha.wellFormed ha.owned).2 ⟨file, _, hold, hg', rfl⟩) hbefore
  · obtain ⟨hfile, rfl⟩ := Project.content?_of_product? hf
    rw [hg] at hfile
    cases hfile
    exact ⟨hname, hn, by simp [hf]⟩

end Attempt

/-! ## Where products come from -/

theorem Path.product?_of_aimedSteps {p q : Project} {name n : String}
    (hpq : Path (Project.AimedSteps name) p q) (hp : p.WellFormed) (h : q.product? n ≠ none) :
    p.product? n ≠ none := by
  induction hpq with
  | refl => exact h
  | step path due fresh allowed ih =>
    rcases Step.product?_apply (path.wellFormed hp) due fresh h with hold | ⟨type, rfl⟩ | rfl
    · exact ih hold
    · rcases allowed.schemeSteps with ⟨new, -, h⟩ | ⟨n, -, change, h⟩ <;> cases h
    · rcases allowed.schemeSteps with ⟨new, -, h⟩ | ⟨n, -, change, h⟩ <;> cases h

/-- A product comes from the build of its target. -/
theorem Trace.exists_registers {p q : Project} {as : List Attempt} {n : String} (h : Trace p as q)
    (hp : p.Regular) (hn : q.product? n ≠ none) :
    p.product? n ≠ none ∨ ∃ a ∈ as, a.target.productPath = n ∧ a.Registers n := by
  induction h with
  | refl => exact .inl hn
  | build a trace ih =>
    have ha := trace.regular hp
    have hbuild := (a.path ha.wellFormed).mono fun _ _ hs => hs.inBuild
    by_cases hbefore : a.before.project.product? n = none
    · rcases hbuild.product?_of_inBuild ha.wellFormed ha.apart hn with hold | hown
      · exact absurd hbefore hold
      · exact .inr ⟨a, by simp, hown.symm, hbefore, hn⟩
    · refine (ih hbefore).imp_right ?_
      rintro ⟨e, he, hrest⟩
      exact ⟨e, List.mem_append_left _ he, hrest⟩
  | schemes trace path ih => exact ih (path.product?_of_aimedSteps (trace.wellFormed hp.wellFormed) hn)

theorem Project.product?_of_ofValue {name : String} {value : Value} {p : Project}
    (h : ofValue name value = .ok p) (n : String) : p.product? n = none := by
  by_contra hn
  have hp := (wellFormed_of_ofValue h).1
  obtain ⟨i, f, -, hf, -⟩ := (product?_ne_none_iff hp).1 hn
  obtain ⟨names, h⟩ := exists_create_of_ofValue h
  exact isInitial_of_create h hf

/-! ## Linked products -/

/-- A build adds to a target, if anything, frameworks that the target depends on. Each of them is the
target's own product or one that an earlier build has registered, whether that build has failed since
or not. -/
theorem BuildHistory.linked_of_registered {as earlier later : List Attempt} {a : Attempt} {q : Project}
    {name path : String} (h : BuildHistory as q) (has : as = earlier ++ a :: later)
    (hafter : path ∈ a.after.project.linkedPaths name)
    (hbefore : path ∉ a.before.project.linkedPaths name) :
    name = a.target.name ∧ path ∈ Project.frameworkNames a.target.dependencies ∧
      (path = a.target.productPath ∨
        ∃ e ∈ earlier, e.target.productPath = path ∧ e.Registers path) := by
  obtain ⟨project, value, p, hnew, htrace⟩ := h.exists_trace
  have hp := Project.regular_of_ofValue hnew
  obtain ⟨hearlier, -⟩ := htrace.split has
  have ha := hearlier.regular hp
  obtain ⟨hname, hdepends, hproduct⟩ := Attempt.product?_of_linked ha hafter hbefore
  refine ⟨hname, hdepends, ?_⟩
  have hbuild := (a.path ha.wellFormed).mono fun _ _ hs => hs.inBuild
  rcases hbuild.product?_of_inBuild ha.wellFormed ha.apart hproduct with hold | hown
  · refine .inr ((hearlier.exists_registers hp hold).resolve_left fun hn => ?_)
    exact hn (Project.product?_of_ofValue hnew path)
  · exact .inl hown

end

/-! ## A target that depends on itself -/

/-- A framework without files, for one platform. -/
def bareFramework (name : String) (dependencies : List String) : Target :=
  { dependentFramework.target with
    name := name
    infoPlist := "Info.plist"
    includeFiles := []
    dependencies := some dependencies }

/-- A build of the first target of a project, in an empty directory. -/
def firstBuild (d : Target) (p : Project) : Attempt := ⟨d, ⟨⟨p, .withHome [], []⟩, .ofPaths "." none⟩⟩

/-- A framework that depends on itself. -/
def selfDependent : Target := bareFramework "App" ["App"]

/-- A framework that depends on another one. -/
def dependentOnApp : Target := bareFramework "Kit" ["App"]

/-- The build of a framework that depends on itself completes. It links the framework, and so does the
build of another one after it. -/
theorem exists_selfDependent :
    ∃ (p : Project) (app kit : Attempt), Project.ofValue "App" (.text "Debug") = .ok p ∧
      app = firstBuild selfDependent p ∧ kit = ⟨dependentOnApp, app.after⟩ ∧ app.Completes ∧
        ("App.framework" ∈ app.after.project.linkedPaths "App" ∧
          "App.framework" ∉ app.before.project.linkedPaths "App") ∧
        "App.framework" ∈ kit.after.project.linkedPaths "Kit" ∧
          "App.framework" ∉ kit.before.project.linkedPaths "Kit" := by
  have hlinked : (Project.ofValue "App" (.text "Debug")).toOption.any fun p =>
      let app := firstBuild selfDependent p
      let kit : Attempt := ⟨dependentOnApp, app.after⟩
      app.Completes ∧
        ("App.framework" ∈ app.after.project.linkedPaths "App" ∧
          "App.framework" ∉ app.before.project.linkedPaths "App") ∧
        "App.framework" ∈ kit.after.project.linkedPaths "Kit" ∧
          "App.framework" ∉ kit.before.project.linkedPaths "Kit" := by
    rw [ObjectId.digestScheme_eq]
    decide +kernel
  obtain ⟨p, hnew, hp⟩ := Project.exists_of_ofValue hlinked
  exact ⟨p, _, _, hnew, rfl, rfl, of_decide_eq_true hp⟩

/-- A build can complete that links a framework which no earlier build has made: the target's own. -/
theorem BuildHistory.linked_of_selfDependent :
    ∃ a : Attempt, BuildHistory ([] ++ a :: []) a.after.project ∧ a.Completes ∧
      a.target = selfDependent ∧ "App.framework" ∈ a.after.project.linkedPaths "App" ∧
        "App.framework" ∉ a.before.project.linkedPaths "App" := by
  obtain ⟨p, app, -, hnew, rfl, -, hcompletes, hlinked, -⟩ := exists_selfDependent
  exact ⟨_, .build _ (.new hnew), hcompletes, rfl, hlinked⟩

/-- What the second build links, the first one has registered. -/
theorem BuildHistory.linked_of_dependentOnApp :
    ∃ a b : Attempt, BuildHistory ([a] ++ b :: []) b.after.project ∧
      "App.framework" ∈ b.after.project.linkedPaths "Kit" ∧ a.target.productPath = "App.framework" ∧
        a.Registers "App.framework" := by
  obtain ⟨p, app, kit, hnew, happ, rfl, -, -, hafter, hbefore⟩ := exists_selfDependent
  have hfirst : BuildHistory [app] app.after.project := by
    rw [happ]
    exact .build _ (.new hnew)
  have hhistory : BuildHistory ([app] ++ [⟨dependentOnApp, app.after⟩]) _ := .build _ hfirst
  have hlast : [app] ++ [⟨dependentOnApp, app.after⟩] =
      [app] ++ (⟨dependentOnApp, app.after⟩ :: [] : List Attempt) := rfl
  obtain ⟨-, -, hown | ⟨e, he, hpath, hregisters⟩⟩ :=
    hhistory.linked_of_registered hlast hafter hbefore
  · have hother : "App.framework" ≠ dependentOnApp.productPath := by decide
    exact absurd hown hother
  · rw [List.mem_singleton.1 he] at hpath hregisters
    exact ⟨app, _, hhistory, hafter, hpath, hregisters⟩

/-! ## A framework and its tests -/

/-- A tree with a header, a source file and a resource. -/
def frameworkTree : FileTree where
  home := []
  entries :=
    ⟨[(["App"], .directory), (["App", "Core.h"], .file ""), (["App", "Main.swift"], .file ""),
      (["App", "logo.png"], .file "")], by decide⟩

/-- A framework with its tests. They are linked with it, and need another framework. -/
def testedCore : Declaration where
  target :=
    { dependentFramework.target with
      name := "Core"
      header := some "App/Core.h"
      resourceFiles := some ["App/*.png"]
      dependencies := none }
  test := some
    { dependentFramework.target with
      name := "CoreTests"
      kind := .unitTestBundle
      dependencies := some ["Core", "Quick"] }

/-- The framework once more, and another one that is linked with it. -/
def testedAndDependent : List Declaration :=
  [testedCore, { target := bareFramework "Kit" ["Core"] }]

/-- The project has references of every kind, and a scheme that tests what is linked with a framework. -/
structure Project.Furnished (p : Project) : Prop where
  links : ∀ kind, p.linked kind ≠ []
  tests : ∃ s ∈ p.schemes, ∃ r ∈ s.testables, p.linkedPaths r.targetName ≠ []

/-- A run over the framework and its tests succeeds and furnishes a new project. In a second run all
builds complete. -/
theorem exists_testedCore :
    ∃ (p : Project) (w : Workspace), Project.ofValue "App" (.text "Debug") = .ok p ∧
      plainGenerator.run [testedCore] ⟨p, frameworkTree, []⟩ = .ok () w ∧ Reachable w.project ∧
        w.project.Furnished ∧ ∀ a ∈ plainGenerator.attempts testedAndDependent w, a.Completes := by
  have hruns : (Project.ofValue "App" (.text "Debug")).toOption.any fun p =>
      let new : Workspace := ⟨p, frameworkTree, []⟩
      let w := stateAfter (plainGenerator.run [testedCore]) new
      failureOf (plainGenerator.run [testedCore]) new = none ∧
        (∀ kind ∈ LinkKind.all, w.project.linked kind ≠ []) ∧
        (∃ s ∈ w.project.schemes, ∃ r ∈ s.testables, w.project.linkedPaths r.targetName ≠ []) ∧
        failureOf (testedAndDependent.forM Generator.buildDeclaration) (plainGenerator.startState w) =
          none := by
    rw [ObjectId.digestScheme_eq]
    decide +kernel
  obtain ⟨p, hnew, hp⟩ := Project.exists_of_ofValue hruns
  obtain ⟨hsucceeds, hlinks, htests, hbuilds⟩ := of_decide_eq_true hp
  obtain ⟨⟨⟩, hrun⟩ := exists_of_failureOf_eq_none hsucceeds
  obtain ⟨_, hforM⟩ := exists_of_failureOf_eq_none hbuilds
  have hw := Reachable.of_run (w := ⟨p, frameworkTree, []⟩) (.new hnew) hrun
  exact ⟨p, _, hnew, hrun, hw, ⟨fun kind => hlinks kind kind.mem_all, htests⟩,
    Generator.completes_of_forM hw.wellFormed rfl hforM⟩

end ProjectGraph
