import ProjectGraph.Proofs.Digest
import ProjectGraph.Proofs.Runs.Linking
import ProjectGraph.Proofs.Runs.PhaseOrder
import ProjectGraph.Proofs.Twins.Crossing

/-! # Builds in either order

Two independent targets can be built in either order. Both orders lead to the same objects, and only the
order of what they share differs. -/

namespace ProjectGraph

section

variable [IdScheme] {p : Project} {s s₁ s₂ s₃ s₄ : BuildState} {d e : Target} {t t' u u' : ObjectId}

theorem Project.neat_of_ofValue {name : String} {value : Value} (h : ofValue name value = .ok p) :
    p.Neat where
  toTidy := tidy_of_ofValue h
  placed := by
    obtain ⟨names, h⟩ := exists_create_of_ofValue h
    exact placed_of_create h

theorem Reachable.neat (h : Reachable p) : p.Neat := by
  induction h with
  | new new => exact Project.neat_of_ofValue new
  | move reachable move ih => exact (move.outcome ih.wellFormed ih.owned).1.neat ih

/-- What a build without a directory for scripts leads to. -/
theorem Build.outcome_of_build (hs : s.project.WellFormed) (hb : s.builder.scriptsDirectory = none)
    (h : Build.build d s = .ok t s₁) :
    Path (BuildStep d s.project) s.project s₁.project ∧ s.SameFiles s₁ ∧
      s.project.Gains s₁.project (d.filings s.workspace.tree s.builder.root) := by
  rw [build_eq] at h
  obtain ⟨⟨t', names⟩, hreported, rfl⟩ := exists_of_map_eq_ok h
  obtain ⟨hpath, hfiles, -⟩ := Leads.of_ok (performs_reportedBuild hs d) hreported
  exact ⟨hpath, hfiles hb, files_reportedBuild hs d _ _ hreported⟩

/-- Whatever has been done to a project, independent targets can be built in either order, if both
orders succeed. -/
theorem Reachable.permuted_of_builds (h : Reachable s.project)
    (hscripts : s.builder.scriptsDirectory = none)
    (hind : d.Independent e s.workspace.tree s.builder.root) (hd : Build.build d s = .ok t s₁)
    (hde : Build.build e s₁ = .ok u s₂) (he : Build.build e s = .ok u' s₃)
    (hed : Build.build d s₃ = .ok t' s₄) :
    s₂.project.Permuted s₄.project ∧ t' = t ∧ u' = u := by
  have hneat := h.neat
  have hp := hneat.wellFormed
  obtain ⟨hpath₁, hfiles₁, hgains₁⟩ := Build.outcome_of_build hp hscripts hd
  obtain ⟨hpath₃, hfiles₃, hgains₃⟩ := Build.outcome_of_build hp hscripts he
  obtain ⟨hpath₂, -⟩ :=
    Build.outcome_of_build (hpath₁.wellFormed hp) (hfiles₁.builder ▸ hscripts) hde
  obtain ⟨hpath₄, -⟩ :=
    Build.outcome_of_build (hpath₃.wellFormed hp) (hfiles₃.builder ▸ hscripts) hed
  obtain ⟨rfl, htwins⟩ :=
    Fork.twins_of_builds hneat hscripts hpath₃ hfiles₃ hgains₃ hind hd hed
  obtain ⟨rfl, htwins'⟩ :=
    Fork.twins_of_builds hneat hscripts hpath₁ hfiles₁ hgains₁ hind.symm he hde
  have hcrossing : Crossing d e s.workspace.tree s.builder.root s.project s₁.project s₃.project
      s₂.project s₄.project :=
    ⟨hneat, hpath₁, hpath₃, hpath₂, hpath₄, ⟨_, htwins⟩, ⟨_, htwins'⟩⟩
  exact ⟨hcrossing.permuted, rfl, rfl⟩

end

/-! ## Two frameworks -/

/-- A framework with its information property list beside those of other targets. -/
def supportedFramework (name : String) : Target :=
  { bareFramework name [] with infoPlist := "Support/" ++ name ++ ".plist" }

/-- Two frameworks with property lists in one directory are built in either order. Both projects have the
same objects, but they are not equal. -/
theorem permuted_of_supportedFrameworks :
    ∃ (p : Project) (kit app app' kit' : Attempt), Project.ofValue "App" (.text "Debug") = .ok p ∧
      kit = firstBuild (supportedFramework "Kit") p ∧ app = ⟨supportedFramework "App", kit.after⟩ ∧
      app' = firstBuild (supportedFramework "App") p ∧ kit' = ⟨supportedFramework "Kit", app'.after⟩ ∧
      (kit.Completes ∧ app.Completes ∧ app'.Completes ∧ kit'.Completes) ∧
      app.after.project.Permuted kit'.after.project ∧ app.after.project ≠ kit'.after.project := by
  have hsucceeds : (Project.ofValue "App" (.text "Debug")).toOption.any fun p =>
      let kit := firstBuild (supportedFramework "Kit") p
      let app : Attempt := ⟨supportedFramework "App", kit.after⟩
      let app' := firstBuild (supportedFramework "App") p
      let kit' : Attempt := ⟨supportedFramework "Kit", app'.after⟩
      (kit.Completes ∧ app.Completes ∧ app'.Completes ∧ kit'.Completes) ∧
        app.after.project ≠ kit'.after.project := by
    rw [ObjectId.digestScheme_eq]
    decide +kernel
  obtain ⟨p, hnew, hp⟩ := Project.exists_of_ofValue hsucceeds
  obtain ⟨hcompletes, hne⟩ := of_decide_eq_true hp
  obtain ⟨hkit, happ, happ', hkit'⟩ := hcompletes
  let kit := firstBuild (supportedFramework "Kit") p
  let app' := firstBuild (supportedFramework "App") p
  obtain ⟨t, hd⟩ := exists_of_failureOf_eq_none hkit
  obtain ⟨u, hde⟩ := exists_of_failureOf_eq_none happ
  obtain ⟨u', he⟩ := exists_of_failureOf_eq_none happ'
  obtain ⟨t', hed⟩ := exists_of_failureOf_eq_none hkit'
  have hind : (supportedFramework "Kit").Independent (supportedFramework "App") (.withHome [])
      (.parse ".") := by
    constructor <;> decide +kernel
  have hpermuted := Reachable.permuted_of_builds (s := kit.before) (.new hnew) rfl hind hd hde he hed
  exact ⟨p, kit, ⟨_, kit.after⟩, app', ⟨_, app'.after⟩, hnew, rfl, rfl, rfl, rfl,
    ⟨hkit, happ, happ', hkit'⟩, hpermuted.1, hne⟩

end ProjectGraph
