import ProjectGraph.Proofs.Builds.Declarations
import ProjectGraph.Proofs.Runs.Check

/-! # Runs of a generator

A run that succeeds realizes its declarations one after the other. The later ones spare the earlier
ones, so all of them are realized in the end, and the same run changes nothing then. -/

namespace ProjectGraph

/-- The steps of a run over these declarations. -/
def InRun [IdScheme] (ds : List Declaration) (q : Project) (s : Step) : Prop :=
  ∃ d ∈ ds, InDeclaration d q s

/-- The names of all targets of declarations, in order. -/
def targetNames (ds : List Declaration) : List String :=
  (ds.flatMap Declaration.targets).map fun t => t.name

theorem targetNames_cons (d : Declaration) (ds : List Declaration) :
    targetNames (d :: ds) = (d.targets.map fun t => t.name) ++ targetNames ds := by
  simp [targetNames]

theorem checkNames_eq_ok {ds : List Declaration} : checkNames ds = .ok () ↔ (targetNames ds).Nodup := by
  rw [targetNames, ← firstRepeat?_eq_none_iff, checkNames]
  cases firstRepeat? ((ds.flatMap Declaration.targets).map fun t => t.name) <;> simp

theorem isOuter_of_checkNames {ds : List Declaration} {e : Error} (h : checkNames ds = .error e) :
    e.IsOuter := by
  unfold checkNames at h
  split at h
  · cases h
    trivial
  · cases h

namespace Build

open Project

variable [IdScheme] {s s' : BuildState} {ds : List Declaration} {names : List String}

/-! ## Declarations in a row -/

/-- Builds declarations in order, and returns all third-party dependencies. -/
def reportedDeclarations : List Declaration → Build (List String)
  | [] => return []
  | d :: ds => do
    let names ← reportedDeclaration d
    let rest ← reportedDeclarations ds
    return names ++ rest

theorem forM_buildDeclaration_eq (ds : List Declaration) :
    ds.forM Generator.buildDeclaration = discard (reportedDeclarations ds) := by
  induction ds with
  | nil => rfl
  | cons d ds ih =>
    show (Generator.buildDeclaration d >>= fun _ => ds.forM Generator.buildDeclaration) = _
    rw [ih, buildDeclaration_eq, reportedDeclarations, discard_eq_bind, discard_eq_bind,
      discard_eq_bind]
    simp only [bind_assoc, pure_bind]

/-- All declarations are realized after they have been built. -/
theorem performs_reportedDeclarations (hs : s.project.WellFormed) (ho : s.project.Owned)
    (hnames : (targetNames ds).Nodup) :
    Build.Performs (InRun ds) (reportedDeclarations ds) s fun names s' =>
      (∀ d ∈ ds, Presents s.project s'.project d) ∧
        (s.builder.scriptsDirectory = none → s.SameFiles s' ∧
          ∀ d ∈ ds, ∃ ns, ns ⊆ names ∧ s'.project.Realized s.workspace.tree s.builder d ns) := by
  induction ds generalizing s with
  | nil => exact .of_ok rfl ⟨by simp, fun _ => ⟨.refl s, by simp⟩⟩
  | cons d ds ih =>
    rw [targetNames_cons, List.nodup_append] at hnames
    obtain ⟨hd, hds, hne⟩ := hnames
    have hother : ∀ d' ∈ ds, ∀ e ∈ d.targets, ∀ e' ∈ d'.targets, e'.name ≠ e.name := by
      intro d' hd' e he e' he' hsame
      refine hne e.name (List.mem_map_of_mem he) e'.name ?_ hsame.symm
      exact List.mem_map_of_mem (List.mem_flatMap.2 ⟨d', hd', he'⟩)
    -- The first declaration spares the later ones.
    have hfirst : Build.Performs (InRun (d :: ds)) (reportedDeclaration d) s fun names s' =>
        (∀ d' ∈ ds, Path (Step.SparesDeclaration d') s.project s'.project) ∧
          Presents s.project s'.project d ∧ (s.builder.scriptsDirectory = none →
            s.SameFiles s' ∧ s'.project.Realized s.workspace.tree s.builder d names) := by
      refine (performs_reportedDeclaration hs ho hd).mono (fun q s h => ⟨d, by simp, h⟩)
        fun _ s' hpath h => ⟨fun d' hd' => hpath.restrict ?_, h⟩
      intro q s hq _ hstep
      exact hstep.spares (hq.wellFormed hs) (hq.owned hs ho) fun e he e' he' =>
        (hother d' hd' e' he' e he).symm
    refine hfirst.bind fun names₁ s₁ h₁ ⟨hbefore, hpresents₁, hrealized₁⟩ => ?_
    have hp₁ := h₁.wellFormed hs
    have ho₁ := h₁.owned hs ho
    -- The later declarations spare the first one.
    have hspares : ∀ q, Path (InRun ds) s₁.project q → Path (Step.SparesDeclaration d) s₁.project q := by
      refine fun q hq => hq.restrict ?_
      rintro q' s hq' - ⟨d', hd', hs⟩
      exact hs.spares (hq'.wellFormed hp₁) (hq'.owned hp₁ ho₁) (hother d' hd')
    have hrest : Build.Performs (InRun (d :: ds)) (reportedDeclarations ds) s₁ fun names s' =>
        (∀ d' ∈ d :: ds, Presents s.project s'.project d') ∧
          (s.builder.scriptsDirectory = none → s₁.SameFiles s' ∧
            s'.project.Realized s.workspace.tree s.builder d names₁ ∧
            ∀ d ∈ ds, ∃ ns, ns ⊆ names ∧ s'.project.Realized s.workspace.tree s.builder d ns) := by
      refine (ih hp₁ ho₁ hds).mono ?_ fun names s' hpath h => ⟨?_, fun hb => ?_⟩
      · rintro q s ⟨d', hd', h⟩
        exact ⟨d', List.mem_cons_of_mem d hd', h⟩
      · intro d' hd'
        rcases List.mem_cons.1 hd' with rfl | hd'
        · exact hpresents₁.path hp₁ (hspares _ hpath)
        · exact (h.1 d' hd').of_path (hbefore d' hd')
      · obtain ⟨hfiles₁, hrealized⟩ := hrealized₁ hb
        rw [hfiles₁.builder, hfiles₁.tree] at h
        obtain ⟨hfiles, hall⟩ := h.2 hb
        exact ⟨hfiles, hrealized.path hp₁ (hspares _ hpath), hall⟩
    refine hrest.bind fun names₂ s₂ h₂ ⟨hpresents, h⟩ => .of_ok rfl ⟨hpresents, fun hb => ?_⟩
    obtain ⟨hfiles, hrealized, hall⟩ := h hb
    refine ⟨(hrealized₁ hb).1.trans hfiles, ?_⟩
    intro d' hd'
    rcases List.mem_cons.1 hd' with rfl | hd'
    · exact ⟨names₁, List.subset_append_left names₁ names₂, hrealized⟩
    · obtain ⟨ns, hns, hrealized'⟩ := hall d' hd'
      exact ⟨ns, List.Subset.trans hns (List.subset_append_right names₁ names₂), hrealized'⟩

/-- Declarations that have been realized are not changed by building them. -/
theorem reportedDeclarations_of_realized (hs : s.project.WellFormed)
    (hb : s.builder.scriptsDirectory = none)
    (h : ∀ d ∈ ds, ∃ ns, (∀ n ∈ ns, s.project.product? n = none) ∧
      s.project.Realized s.workspace.tree s.builder d ns) :
    ∃ names printed,
      reportedDeclarations ds s = .ok names { s with workspace.printed := printed } := by
  induction ds generalizing s with
  | nil => exact ⟨[], s.workspace.printed, rfl⟩
  | cons d ds ih =>
    obtain ⟨ns, hopen, hrealized⟩ := h d (by simp)
    obtain ⟨printed, hfirst⟩ := reportedDeclaration_of_realized hs hb hrealized hopen
    obtain ⟨names, printed', hrest⟩ := ih (s := { s with workspace.printed := printed }) hs hb
      fun d' hd' => h d' (List.mem_cons_of_mem d hd')
    refine ⟨ns ++ names, printed', ?_⟩
    rw [reportedDeclarations, bind_of_ok hfirst, bind_of_ok hrest]
    rfl

/-! ## Whole runs -/

/-- Builds all declared targets, checks the project, and returns all third-party dependencies. -/
def reportedRun (ds : List Declaration) : Build (List String) := do
  match checkNames ds with
  | .ok () => pure ()
  | .error e => throw e
  let names ← reportedDeclarations ds
  edit Generator.checkProject
  return names

theorem reportedRun_of_nodup (h : (targetNames ds).Nodup) :
    reportedRun ds = do
      let names ← reportedDeclarations ds
      edit Generator.checkProject
      return names := by
  unfold reportedRun
  rw [checkNames_eq_ok.2 h]

theorem buildAll_eq (ds : List Declaration) :
    Generator.buildAll ds = discard (reportedRun ds) := by
  unfold Generator.buildAll reportedRun
  cases checkNames ds with
  | ok =>
    simp only [forM_buildDeclaration_eq, discard_eq_bind, bind_assoc, pure_bind]
    refine bind_congr fun _ => ?_
    exact (bind_pure_unit (x := edit Generator.checkProject)).symm
  | error e => rfl

theorem performs_reportedRun (hs : s.project.WellFormed) (ho : s.project.Owned)
    (ds : List Declaration) :
    Concludes BuildState.project (InRun ds) (reportedRun ds) s fun names s' =>
      (targetNames ds).Nodup ∧ Generator.checkProject s'.project = .ok () s'.project ∧
        (∀ d ∈ ds, Presents s.project s'.project d) ∧
        (s.builder.scriptsDirectory = none → s.SameFiles s' ∧
          ∀ d ∈ ds, ∃ ns, ns ⊆ names ∧ s'.project.Realized s.workspace.tree s.builder d ns) := by
  cases hcheck : checkNames ds with
  | error e =>
    have hfails : reportedRun ds s = .error e s := by
      unfold reportedRun
      rw [hcheck]
      rfl
    exact Leads.of_eq_error hfails ⟨.refl, .outer (isOuter_of_checkNames hcheck)⟩
  | ok =>
    have hnodup := checkNames_eq_ok.1 hcheck
    rw [reportedRun_of_nodup hnodup]
    have hbuilds := (performs_reportedDeclarations hs ho hnodup).concludes
    refine Leads.bind hbuilds fun names s₁ h₁ => ?_
    obtain ⟨hpath, hrealized⟩ := h₁
    have hp₁ := hpath.wellFormed hs
    rcases Generator.checkProject_cases hp₁ with hok | ⟨e, he, hcheck⟩
    · have hedit : (edit Generator.checkProject >>= fun _ => pure names) s₁ = .ok names s₁ :=
        bind_of_ok (edit_of_ok hok)
      exact Leads.of_eq_ok hedit ⟨hpath, hnodup, hok, hrealized⟩
    · exact Leads.of_eq_error (bind_of_error (edit_of_eq_error he)) ⟨hpath, .outer hcheck.isOuter⟩

/-- A run that has succeeded succeeds again and changes nothing, if it has made no product that it has
taken for a third-party dependency. -/
theorem reportedRun_again (hs : s.project.WellFormed) (ho : s.project.Owned)
    (hb : s.builder.scriptsDirectory = none) (h : reportedRun ds s = .ok names s')
    (hopen : ∀ n ∈ names, s'.project.product? n = none) :
    s.SameFiles s' ∧ ∃ names' printed,
      reportedRun ds s' = .ok names' { s' with workspace.printed := printed } := by
  obtain ⟨hpath, hnodup, hchecked, -, hrealized⟩ := Leads.of_ok (performs_reportedRun hs ho ds) h
  obtain ⟨hfiles, hall⟩ := hrealized hb
  refine ⟨hfiles, ?_⟩
  have hp' := hpath.wellFormed hs
  rw [← hfiles.tree, ← hfiles.builder] at hall
  rw [← hfiles.builder] at hb
  obtain ⟨names', printed, hagain⟩ := reportedDeclarations_of_realized hp' hb fun d hd => by
    obtain ⟨ns, hns, hrealized⟩ := hall d hd
    exact ⟨ns, fun n hn => hopen n (hns hn), hrealized⟩
  refine ⟨names', printed, ?_⟩
  let s'' : BuildState := { s' with workspace.printed := printed }
  have hcheck : edit Generator.checkProject s'' = .ok () s'' := edit_of_ok hchecked
  rw [reportedRun_of_nodup hnodup, bind_of_ok hagain, bind_of_ok hcheck]
  rfl

end Build

namespace Generator

variable [IdScheme] {w w' : Workspace}

/-- The state in which a run of a generator starts. -/
def startState (g : Generator) (w : Workspace) : BuildState := ⟨w, .ofPaths g.root g.scriptsDirectory⟩

/-- The dependencies that a run finds to be third-party ones at the moment when it links them. -/
def thirdParty (g : Generator) (ds : List Declaration) (w : Workspace) : List String :=
  match Build.reportedRun ds (g.startState w) with
  | .ok names _ => names
  | .error _ _ => []

theorem run_eq (g : Generator) (ds : List Declaration) (w : Workspace) :
    g.run ds w =
      match Build.reportedRun ds (g.startState w) with
      | .ok _ s => .ok () s.workspace
      | .error e s => .error e s.workspace := by
  have hall : buildAll ds (g.startState w) =
      match Build.reportedRun ds (g.startState w) with
      | .ok _ s => .ok () s
      | .error e s => .error e s := by
    rw [Build.buildAll_eq]
    show EStateM.map _ (Build.reportedRun ds) _ = _
    unfold EStateM.map
    cases Build.reportedRun ds (g.startState w) <;> rfl
  unfold startState at *
  rw [run, hall]
  cases Build.reportedRun ds ⟨w, .ofPaths g.root g.scriptsDirectory⟩ <;> rfl

theorem exists_reported_of_run {g : Generator} {ds : List Declaration} (h : g.run ds w = .ok () w') :
    ∃ names s, Build.reportedRun ds (g.startState w) = .ok names s ∧ s.workspace = w' := by
  rw [run_eq] at h
  cases hreported : Build.reportedRun ds (g.startState w) with
  | ok names s =>
    rw [hreported] at h
    cases h
    exact ⟨names, s, rfl, rfl⟩
  | error e s =>
    rw [hreported] at h
    cases h

/-- A run takes the steps of its declarations. -/
theorem performs_run (hp : w.project.WellFormed) (ho : w.project.Owned) (g : Generator)
    (ds : List Declaration) :
    Concludes Workspace.project (InRun ds) (g.run ds) w fun _ _ => True := by
  have hreported := Build.performs_reportedRun (s := g.startState w) hp ho ds
  have hrun := run_eq g ds w
  cases hx : Build.reportedRun ds (g.startState w) with
  | ok names s =>
    rw [hx] at hrun
    exact Leads.of_eq_ok hrun ⟨(Leads.of_ok hreported hx).1, trivial⟩
  | error e s =>
    rw [hx] at hrun
    exact Leads.of_eq_error hrun (Leads.of_error hreported hx)

end Generator
end ProjectGraph
