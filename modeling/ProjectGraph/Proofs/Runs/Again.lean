import ProjectGraph.ObjectId.Digest
import ProjectGraph.Proofs.Digest
import ProjectGraph.Proofs.Runs.Reachable

/-! # The same run once more

A run without a directory for scripts that has succeeded succeeds again, and leaves the whole project
as it is. The one exception is a run that makes a product after it has taken the same name for a
third-party dependency: the next run would link the product. -/

namespace ProjectGraph

namespace Generator

theorem run_again [IdScheme] {g : Generator} {ds : List Declaration} {w w' : Workspace}
    (hw : Reachable w.project) (hscripts : g.scriptsDirectory = none) (hrun : g.run ds w = .ok () w')
    (hopen : ∀ n ∈ g.thirdParty ds w, w'.project.product? n = none) :
    w'.tree = w.tree ∧
      ∃ w'', g.run ds w' = .ok () w'' ∧ w''.project = w'.project ∧ w''.tree = w'.tree := by
  have hb : (g.startState w).builder.scriptsDirectory = none := by
    show g.scriptsDirectory.map PathName.parse = none
    rw [hscripts]
    rfl
  rw [run_eq] at hrun
  unfold thirdParty at hopen
  cases hreported : Build.reportedRun ds (g.startState w) with
  | error e s =>
    rw [hreported] at hrun
    cases hrun
  | ok names s =>
    rw [hreported] at hrun hopen
    cases hrun
    obtain ⟨hfiles, names', printed, hagain⟩ :=
      Build.reportedRun_again (s := g.startState w) hw.wellFormed hw.owned hb hreported hopen
    refine ⟨hfiles.tree, { s.workspace with printed := printed }, ?_, rfl, rfl⟩
    -- The second run starts with the builder that the first one has ended with.
    have hstart : g.startState s.workspace = s := by
      obtain ⟨w', b⟩ := s
      exact congrArg (BuildState.mk w') hfiles.builder.symm
    rw [run_eq, hstart, hagain]

/-! ## A run that can be repeated -/

/-- The run succeeds, and makes no product that it has taken for a third-party dependency. -/
def leavesOpen [IdScheme] (g : Generator) (ds : List Declaration) (w : Workspace) : Bool :=
  match Build.reportedRun ds (g.startState w) with
  | .ok names s => names.all fun n => (s.project.product? n).isNone
  | .error _ _ => false

theorem exists_of_leavesOpen [IdScheme] {g : Generator} {ds : List Declaration} {w : Workspace}
    (h : g.leavesOpen ds w) :
    ∃ w', g.run ds w = .ok () w' ∧ ∀ n ∈ g.thirdParty ds w, w'.project.product? n = none := by
  unfold leavesOpen at h
  rw [run_eq, thirdParty]
  cases hreported : Build.reportedRun ds (g.startState w) with
  | error e s =>
    rw [hreported] at h
    cases h
  | ok names s =>
    rw [hreported] at h
    refine ⟨s.workspace, rfl, fun n hn => ?_⟩
    exact Option.isNone_iff_eq_none.1 (List.all_eq_true.1 h n hn)

end Generator

/-- A framework with one source file, which needs another framework. -/
def dependentFramework : Declaration where
  target :=
    { name := "App"
      platforms := [{ kind := .ios, minimumVersion := "12.0" }]
      language := { kind := .swift, version := "5" }
      infoPlist := "App/Info.plist"
      bundleId := "app"
      includeFiles := ["App/*.swift"]
      dependencies := some ["Quick"]
      platforms_nodup := List.nodup_singleton _ }

/-- A tree with one source file, at home in its top directory. -/
def oneSource : FileTree where
  home := []
  entries := ⟨[(["App"], .directory), (["App", "Main.swift"], .file "")], by decide⟩

/-- A generator for the home of a tree. -/
def plainGenerator : Generator := ⟨".", none⟩

/-- It can be set up in any tree with a home. -/
theorem start_of_ofValue [IdScheme] (tree : FileTree) (hhome : tree.isDirectory (.parse ".") = .ok true)
    {p : Project} (h : Project.ofValue "App" (.text "Debug") = .ok p) :
    Generator.start tree { projectName := "App", buildConfig := .text "Debug" } =
      .ok (plainGenerator, p) := by
  rw [Generator.start, h]
  show (Generator.ofPaths tree "." none >>= fun g => pure (g, p)) = _
  rw [Generator.ofPaths, hhome]
  rfl

/-- The run of a framework that takes `Quick` for a third-party dependency can be repeated. -/
theorem run_again_of_dependentFramework :
    ∃ p w' w'', Project.ofValue "App" (.text "Debug") = .ok p ∧
      plainGenerator.run [dependentFramework] ⟨p, oneSource, []⟩ = .ok () w' ∧
      plainGenerator.run [dependentFramework] w' = .ok () w'' ∧ w''.project = w'.project := by
  have hopen : (Project.ofValue "App" (.text "Debug")).toOption.any fun p =>
      plainGenerator.leavesOpen [dependentFramework] ⟨p, oneSource, []⟩ := by
    rw [ObjectId.digestScheme_eq]
    decide +kernel
  obtain ⟨p, hnew, hp⟩ := Project.exists_of_ofValue hopen
  obtain ⟨w', hrun, hthirdParty⟩ := Generator.exists_of_leavesOpen hp
  obtain ⟨-, w'', hagain, hproject, -⟩ :=
    Generator.run_again (w := ⟨p, oneSource, []⟩) (.new hnew) rfl hrun hthirdParty
  exact ⟨p, w', w'', hnew, hrun, hagain, hproject⟩

end ProjectGraph
