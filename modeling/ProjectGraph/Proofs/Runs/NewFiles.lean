import ProjectGraph.Proofs.Builds.NewFiles
import ProjectGraph.Proofs.Digest
import ProjectGraph.Proofs.Runs.Clash
import ProjectGraph.Proofs.Runs.Linking

/-! # Adding files to a target

Lists of paths are added to a target path by path, and a path with a source is passed over. In a project
that has been built, what is added in the end are the paths that had no source at the start, each of them
once, in the order in which they first occur. -/

namespace ProjectGraph

open Project

section

variable [IdScheme] {as : List Attempt} {p q : Project} {t : ObjectId} {a : NativeTarget}

/-- The files of the new paths come to the end of the phase of the kind, which is made if there are any,
and of the groups of their directories. Each new path gets one source. What has been filed goes into no
further phase, all directories of the paths have their groups, and nothing else changes. -/
theorem BuildHistory.files_of_addFiles (h : BuildHistory as p) (ha : p.content? t = some (.target a))
    {kind : PhaseKind} {paths : List (List String)} (hadd : addFiles t kind paths p = .ok ⟨⟩ q) :
    (∀ path, path ∈ p.newPaths paths.flatten ↔ path ∈ paths.flatten ∧ ∀ i, ¬ p.Source path i) ∧
      q.pathsIn t kind = p.pathsIn t kind ++ p.newPaths paths.flatten ∧
      (∀ path ∈ p.newPaths paths.flatten, ∃! i, q.Source path i) ∧
      p.FilesNew q t kind (p.newPaths paths.flatten) ∧
      (∀ path ∈ paths.flatten, ∃ i g, q.directoryGroup (Text.directoryOf path) = some i ∧
        q.content? i = some (.group g)) ∧
      p.FilesOnly q t a kind := by
  have hs := h.regular.toSearchable
  have hp := hs.wellFormed
  obtain ⟨hpq, hfiled⟩ := Leads.of_ok (performs_addFiles hp ha kind paths) hadd
  have hloop := hadd
  rw [addFiles_eq] at hloop
  have hnew := filesNew_forM_addFile hs ha hloop
  refine ⟨fun path => ?_, hnew.pathsIn_eq hp hpq.grows, fun path hpath => ?_, hnew, ?_,
    filesOnly_of_path hpq hp hs.owned ha⟩
  · rw [newPaths, List.mem_eraseDups, List.mem_filter, Bool.not_eq_true', ← Bool.not_eq_true,
      hasSource_iff hp, not_exists]
  · refine ⟨sourceId path, (hnew.sources path _).2 (.inr ⟨hpath, rfl⟩), fun i hi => ?_⟩
    exact (((hnew.sources path i).1 hi).resolve_left (hnew.new path hpath i)).2
  · intro path hpath
    obtain ⟨ps, hps, hmem⟩ := List.mem_flatten.1 hpath
    obtain ⟨f, i, g, hi, hg, -⟩ := hfiled ps hps path hmem
    exact ⟨i, g, hi, hg⟩

end

/-- Lists of paths with a repeat and with a path that has a source. The last directory is spelled by a
way through another one. -/
def strewnPaths : List (List String) :=
  [["App/Main.swift", "App/Sub/B.swift", "App/A.swift"], ["App/Sub/../C.swift", "App/A.swift"]]

/-- A framework with one source file gets three more. Two of them come to the end of the group of the
source file, after the group that has been made for the third one. -/
theorem BuildHistory.files_of_strewnPaths :
    ∃ (p : Project) (app : Attempt) (t group : ObjectId) (a : NativeTarget) (q : Project),
      Project.ofValue "App" (.text "Debug") = .ok p ∧
      app = ⟨dependentFramework.target, ⟨⟨p, oneSource, []⟩, .ofPaths "." none⟩⟩ ∧
      BuildHistory [app] app.after.project ∧
      app.after.project.content? t = some (.target a) ∧
      addFiles t .sources strewnPaths app.after.project = .ok ⟨⟩ q ∧
      app.after.project.pathsIn t .sources = ["App/Main.swift"] ∧
      q.pathsIn t .sources =
        ["App/Main.swift", "App/Sub/B.swift", "App/A.swift", "App/Sub/../C.swift"] ∧
      q.directoryGroup "App" = some group ∧
      (q.childrenOf group).map Reference.comment =
        [some "Info.plist", some "Main.swift", some "Sub", some "A.swift", some "C.swift"] ∧
      app.after.project.FilesNew q t .sources ["App/Sub/B.swift", "App/A.swift", "App/Sub/../C.swift"] := by
  let t := IdScheme.ofKey "PBXNativeTarget:App"
  have hbuilt : (Project.ofValue "App" (.text "Debug")).toOption.any fun p =>
      let app : Attempt := ⟨dependentFramework.target, ⟨⟨p, oneSource, []⟩, .ofPaths "." none⟩⟩
      let q := stateAfter (addFiles t .sources strewnPaths) app.after.project
      ((app.after.project.content? t).bind Content.target?).isSome ∧
        failureOf (addFiles t .sources strewnPaths) app.after.project = none ∧
        app.after.project.pathsIn t .sources = ["App/Main.swift"] ∧
        app.after.project.newPaths strewnPaths.flatten =
          ["App/Sub/B.swift", "App/A.swift", "App/Sub/../C.swift"] ∧
        (q.directoryGroup "App").any fun group =>
          (q.childrenOf group).map Reference.comment =
            [some "Info.plist", some "Main.swift", some "Sub", some "A.swift", some "C.swift"] := by
    rw [ObjectId.digestScheme_eq]
    decide +kernel
  obtain ⟨p, hnew, hp⟩ := Project.exists_of_ofValue hbuilt
  obtain ⟨htarget, hadd, hbefore, hpaths, hgroup⟩ := of_decide_eq_true hp
  let app : Attempt := ⟨dependentFramework.target, ⟨⟨p, oneSource, []⟩, .ofPaths "." none⟩⟩
  have hhistory : BuildHistory [app] app.after.project := .build app (.new hnew)
  obtain ⟨a, ha⟩ := Option.isSome_iff_exists.1 htarget
  have hc := content?_of_target? ha
  obtain ⟨⟨⟩, hadd⟩ := exists_of_failureOf_eq_none hadd
  obtain ⟨group, hi, hchildren⟩ := (Option.any_eq_true _ _).1 hgroup
  obtain ⟨-, hafter, -, hfiles, -⟩ := hhistory.files_of_addFiles hc hadd
  rw [hbefore, hpaths] at hafter
  rw [hpaths] at hfiles
  exact ⟨p, app, t, group, a, _, hnew, rfl, hhistory, hc, hadd, hbefore, hafter, hi,
    of_decide_eq_true hchildren, hfiles⟩

end ProjectGraph
