import ProjectGraph.Proofs.Builds.Frame
import ProjectGraph.Proofs.Digest
import ProjectGraph.Proofs.Runs.Linking

/-! # Spared targets

Whatever has been done to a project, a build leaves the targets of other names as they are, also if it
fails halfway. -/

namespace ProjectGraph

/-- A build spares the targets of other names, whether it fails or not. -/
theorem Reachable.spares_of_build [IdScheme] {s : BuildState} (h : Reachable s.project) (d : Target) :
    s.project.Spares (stateAfter (Build.build d) s).project d.name :=
  (Attempt.path ⟨d, s⟩ h.wellFormed).spares h.wellFormed h.owned

/-- A framework with an information property list outside of the project. -/
def strayFramework : Target := { bareFramework "App" [] with infoPlist := "/lib/Info.plist" }

/-- A build that fails when it files its property list spares the framework that has been built
before. -/
theorem spares_of_strayFramework :
    ∃ (p : Project) (kit : Attempt), Project.ofValue "App" (.text "Debug") = .ok p ∧
      kit = firstBuild (bareFramework "Kit" []) p ∧ kit.Completes ∧
      failureOf (Build.build strayFramework) kit.after = some (.endlessDirectory "/lib") ∧
      kit.after.project.Spares (stateAfter (Build.build strayFramework) kit.after).project "App" := by
  have hfails : (Project.ofValue "App" (.text "Debug")).toOption.any fun p =>
      let kit := firstBuild (bareFramework "Kit" []) p
      kit.Completes ∧
        failureOf (Build.build strayFramework) kit.after = some (.endlessDirectory "/lib") := by
    rw [ObjectId.digestScheme_eq]
    decide +kernel
  obtain ⟨p, hnew, hp⟩ := Project.exists_of_ofValue hfails
  obtain ⟨hcompletes, hfails⟩ := of_decide_eq_true hp
  let kit := firstBuild (bareFramework "Kit" []) p
  have hkit : Reachable kit.after.project :=
    .move (.new hnew) (.build kit.before (bareFramework "Kit" []))
  exact ⟨p, kit, hnew, rfl, hcompletes, hfails, hkit.spares_of_build strayFramework⟩

end ProjectGraph
