import ProjectGraph.Proofs.Builds.PhaseOrder
import ProjectGraph.Proofs.Digest
import ProjectGraph.Proofs.Runs.Copying

/-! # The phases of a built target

The phases of a new target are those that its description calls for, in the order in which a build
makes them. Whether there is a phase of sources depends on what the project has filed before. -/

namespace ProjectGraph

section

variable [IdScheme] {p : Project} {s s' : BuildState} {d : Target} {t : ObjectId}

theorem Project.tidy_of_ofValue {name : String} {value : Value} (h : ofValue name value = .ok p) :
    p.Tidy := by
  obtain ⟨names, h⟩ := exists_create_of_ofValue h
  exact ⟨wellFormed_of_create h, owned_of_create h, apart_of_create h,
    fun i path type hi => (isInitial_of_create h hi).elim⟩

theorem Reachable.tidy (h : Reachable p) : p.Tidy := by
  induction h with
  | new new => exact Project.tidy_of_ofValue new
  | move reachable move ih => exact (move.outcome ih.wellFormed ih.owned).1.tidy ih

/-- A build that completes gives a target of a new name the phases that its description calls for, in
order. The target lists all phases of its name. -/
theorem Reachable.phases_of_build (h : Reachable s.project)
    (hnew : ∀ u a, s.project.content? u = some (.target a) → a.name ≠ d.name)
    (hbuild : Build.build d s = .ok t s') :
    ∃ a, s'.project.content? t = some (.target a) ∧ a.name = d.name ∧
      (∃ hasSources : Bool,
        (hasSources ↔
          ∃ path ∈ s.workspace.tree.selected s.builder.root d.includeFiles d.excludeFiles,
            path ≠ d.infoPlist ∧ d.filedHeader ≠ some path ∧ ∀ i, ¬ s.project.Source path i) ∧
        a.buildPhases.map s'.project.roleBehind =
          (d.roles hasSources s.builder.copyBody
            (s'.project.thirdParty (Project.frameworkNames d.dependencies))).map some) ∧
      ∀ i x, s'.project.content? i = some (.phase x) → x.target = d.name →
        i ∈ a.buildPhases.map Reference.id := by
  rw [Build.build_eq] at hbuild
  obtain ⟨⟨t', names⟩, hreported, rfl⟩ := exists_of_map_eq_ok hbuild
  obtain ⟨hasSources, hstands, hsources, rfl⟩ := Build.stands_reportedBuild h.tidy hnew hreported
  have hp := hstands.tidy.wellFormed
  obtain ⟨a, ha, hname⟩ := hstands.named
  refine ⟨a, ha, hname, ⟨hasSources, hsources, ?_⟩, fun i x hx htarget => ?_⟩
  · rw [Project.map_roleBehind hp ha, hstands.roles_eq]
  · obtain ⟨b, hb, r, hr, hid⟩ :=
      (hstands.tidy.owned.phaseIn hp ha hx (htarget.trans hname.symm)).exists_mem
    rw [ha] at hb
    cases hb
    exact List.mem_map.2 ⟨r, hr, hid⟩

end

/-! ## A test with scripts -/

def lintScript : Script := ⟨"Lint", "lint", []⟩

def signScript : Script := ⟨"Sign", "sign", ["Tests.xctest"]⟩

/-- A test bundle with a script on either side of its files, and with a third-party dependency. -/
def scriptedTest : Target :=
  { bareTest "Tests" ["Quick"] with
    includeFiles := ["App/*.swift"]
    preBuildScripts := some [lintScript]
    postBuildScripts := some [signScript] }

/-- The test gets all phases that a test can have. -/
theorem phases_of_scriptedTest :
    ∃ (p : Project) (tests : Attempt) (t : ObjectId) (a : NativeTarget),
      Project.ofValue "App" (.text "Debug") = .ok p ∧
      tests = ⟨scriptedTest, ⟨⟨p, oneSource, []⟩, .ofPaths "." none⟩⟩ ∧
      Build.build scriptedTest tests.before = .ok t tests.after ∧
      tests.after.project.content? t = some (.target a) ∧
      a.buildPhases.map tests.after.project.roleBehind =
        [.script "pre:0" lintScript, .files .sources, .files .resources, .files .frameworks,
          .script "post:0" signScript, .script copyFrameworksSlot
            ⟨copyFrameworksName, CopyScript.text, ["Quick.framework"]⟩].map some := by
  have hcompletes : (Project.ofValue "App" (.text "Debug")).toOption.any fun p =>
      let tests : Attempt := ⟨scriptedTest, ⟨⟨p, oneSource, []⟩, .ofPaths "." none⟩⟩
      tests.Completes ∧ tests.after.project.thirdParty ["Quick.framework"] = ["Quick.framework"] := by
    rw [ObjectId.digestScheme_eq]
    decide +kernel
  obtain ⟨p, hnew, hp⟩ := Project.exists_of_ofValue hcompletes
  obtain ⟨hcompletes, hthirdParty⟩ := of_decide_eq_true hp
  let tests : Attempt := ⟨scriptedTest, ⟨⟨p, oneSource, []⟩, .ofPaths "." none⟩⟩
  obtain ⟨t, hbuild⟩ : ∃ t, Build.build scriptedTest tests.before = .ok t tests.after :=
    exists_of_failureOf_eq_none hcompletes
  obtain ⟨names, hcreate⟩ := Project.exists_create_of_ofValue hnew
  obtain ⟨a, ha, -, ⟨hasSources, hsources, hphases⟩, -⟩ :=
    Reachable.phases_of_build (s := tests.before) (.new hnew)
      (fun u a ha => (Project.isInitial_of_create hcreate ha).elim) hbuild
  have hselected : oneSource.selected (.parse ".") scriptedTest.includeFiles scriptedTest.excludeFiles =
      ["App/Main.swift"] := by
    decide +kernel
  have hmade : hasSources = true := by
    refine hsources.2 ⟨"App/Main.swift", ?_, by decide, by decide,
      fun i hi => (Project.isInitial_of_create hcreate hi).elim⟩
    show _ ∈ oneSource.selected (.parse ".") scriptedTest.includeFiles scriptedTest.excludeFiles
    rw [hselected]
    exact List.mem_singleton_self _
  have hnames : tests.after.project.thirdParty (Project.frameworkNames scriptedTest.dependencies) =
      ["Quick.framework"] := hthirdParty
  rw [hmade, hnames] at hphases
  exact ⟨p, tests, t, a, hnew, rfl, hbuild, ha, hphases⟩

end ProjectGraph
