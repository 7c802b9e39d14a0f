import ProjectGraph.Proofs.Document.Snapshots
import ProjectGraph.Proofs.Runs.Linking

/-! # Accepted projects

A build that completes leaves its target with a list of configurations and with a product. So a project
passes its checks after runs whose builds have all completed, and only the remains of a build that has
failed can make a later run complain about a target. -/

namespace ProjectGraph

section

variable [IdScheme] {p q : Project} {as : List Attempt} {a : Attempt} {i : ObjectId}

/-! ## Complete targets -/

/-- Each target has a list of configurations and a product. -/
def Project.Complete (p : Project) : Prop :=
  ∀ i a, p.content? i = some (.target a) → a.configurationList.isSome ∧ a.productReference.isSome

theorem Project.complete_of_ofValue {name : String} {value : Value} (h : ofValue name value = .ok p) :
    p.Complete := by
  intro i a ha
  obtain ⟨names, h⟩ := exists_create_of_ofValue h
  exact (isInitial_of_create h ha).elim

omit [IdScheme] in
/-- What is there of a target stays. -/
theorem Project.Complete.of_grows {b : NativeTarget} (hc : p.Complete) (hpq : p.Grows q)
    (hb : q.content? i = some (.target b)) (ha : ∃ a, p.content? i = some (.target a)) :
    b.configurationList.isSome ∧ b.productReference.isSome := by
  obtain ⟨a, ha⟩ := ha
  obtain ⟨b', hb', -, -, -, hlist, hproduct⟩ := hpq.target ha
  rw [hb] at hb'
  cases hb'
  obtain ⟨hhasList, hhasProduct⟩ := hc i a ha
  obtain ⟨r, hr⟩ := Option.isSome_iff_exists.1 hhasList
  exact ⟨by rw [hlist r hr]; rfl, hproduct hhasProduct⟩

/-- A build that completes leaves nothing out of its target. -/
theorem Attempt.Completes.finished {b : NativeTarget} (h : a.Completes)
    (ha : a.before.project.WellFormed) (hb : a.after.project.content? i = some (.target b))
    (hname : b.name = a.target.name) : b.configurationList.isSome ∧ b.productReference.isSome := by
  obtain ⟨t, ht⟩ := exists_of_failureOf_eq_none h
  obtain ⟨-, names, hbuilt⟩ := Leads.of_ok (Build.performs_build ha a.target) ht
  -- The target of the name is the one that has been built.
  obtain ⟨c, hc, hcname⟩ := hbuilt.established.isNamed
  obtain rfl : i = t := ((a.path ha).wellFormed ha).target_unique hb hc (hname.trans hcname.symm)
  obtain ⟨e, r, he, hlist⟩ := hbuilt.prepared.entered.list
  obtain ⟨f, e', -, he', hproduct⟩ := hbuilt.prepared.equipped.product
  change a.after.project.content? i = _ at he he'
  rw [hb] at he he'
  cases he
  cases he'
  simp [hlist, hproduct]

theorem Attempt.Completes.complete (h : a.Completes) (ha : a.before.project.WellFormed)
    (hc : a.before.project.Complete) : a.after.project.Complete := by
  intro i b hb
  by_cases hname : b.name = a.target.name
  · exact h.finished ha hb hname
  · exact hc.of_grows (a.path ha).grows hb
      (((a.path ha).mono fun _ _ hs => hs.inBuild).exists_target_of_inBuild ha hb hname)

theorem Trace.complete (h : Trace p as q) (hp : p.WellFormed) (hall : ∀ a ∈ as, a.Completes)
    (hc : p.Complete) : q.Complete := by
  induction h with
  | refl => exact hc
  | build a trace ih =>
    exact (hall a (by simp)).complete (trace.wellFormed hp) (ih fun b hb => hall b (by simp [hb]))
  | schemes _ path ih =>
    intro i b hb
    rw [Project.content?_of_path_schemeSteps (path.mono fun _ _ hs => hs.schemeSteps)] at hb
    exact ih hall i b hb

/-! ## Checks without findings -/

/-- The checks find no fault with the project. -/
def Project.Faultless (p : Project) : Prop :=
  ∃ s, Project.snapshot p = .ok s p ∧
    s.referenceProblems = [] ∧ s.targetProblems = .ok [] ∧ s.schemeProblems = []

namespace Project

variable {r : ProjectRecord}

/-- A regular project refers to nothing that it does not hold, and has no values of unknown types. -/
theorem Regular.referenceProblems (hp : p.Regular) (hr : p.content? p.record = some (.project r)) :
    (p.snapshotOf r).referenceProblems = [] :=
  (Snapshot.referenceProblems_eq_nil_iff _).2 ⟨closed_snapshotOf hp.wellFormed hp.owned hr,
    clean_snapshotOf hp.wellFormed hp.owned hr hp.sound.settings hp.sound.fileSettings⟩

/-- In a complete project targets lack nothing. -/
theorem Complete.targetProblems (hc : p.Complete) (hp : p.WellFormed)
    (hr : p.content? p.record = some (.project r)) : (p.snapshotOf r).targetProblems = .ok [] := by
  refine (Snapshot.targetProblems_eq_nil_iff _).2 fun o ho => ?_
  obtain ⟨ref, -, hfound⟩ := mem_objectsAt.1 ho
  obtain ⟨a, ha⟩ := p.mem_nativeTargets hp hr ho
  have hcontent := content?_of_find? hfound
  rw [ha] at hcontent
  exact (Snapshot.has_parts_of_target ha).2 (hc _ a hcontent)

/-- The schemes of a regular project name its targets. -/
theorem Regular.schemeProblems (hp : p.Regular) (hr : p.content? p.record = some (.project r)) :
    (p.snapshotOf r).schemeProblems = [] := by
  refine (Snapshot.schemeProblems_eq_nil_iff _).2 fun scheme hscheme entry hentry => ?_
  obtain ⟨a, ha⟩ := hp.sound.scheme scheme hscheme entry hentry
  obtain ⟨ref, href, hid⟩ := List.mem_map.1 (hp.owned.mem_targets hp.wellFormed hr ha)
  obtain ⟨o, ho, -⟩ := exists_find?_of_content? ha
  exact ⟨o, mem_objectsAt.2 ⟨ref, href, hid ▸ ho⟩, id_of_find? ho⟩

theorem Regular.faultless (hp : p.Regular) (hc : p.Complete) : p.Faultless := by
  obtain ⟨r, hr⟩ := hp.wellFormed.record
  exact ⟨p.snapshotOf r, snapshot_eq hp.wellFormed hr, hp.referenceProblems hr,
    hc.targetProblems hp.wellFormed hr, hp.schemeProblems hr⟩

omit [IdScheme] in
/-- A project without faults passes its checks. -/
theorem Faultless.checkProject (h : p.Faultless) : Generator.checkProject p = .ok () p := by
  obtain ⟨s, hs, hreferences, htargets, hschemes⟩ := h
  have hcheck : s.check = .ok () := by
    unfold Snapshot.check
    rw [htargets, hreferences, hschemes]
    rfl
  rw [Generator.checkProject, bind_of_ok hs, hcheck]
  rfl

end Project

/-! ## Runs of one generator -/

/-- Runs of one generator lead to the project from the one that it has started with. Between them the
files may change. These are the outcomes of the runs. -/
inductive Generator.Runs (g : Generator) : List (Option Error) → Project → Prop
  | start {tree config p} (start : Generator.start tree config = .ok (g, p)) : Runs g [] p
  | run {outcomes} {w : Workspace} (runs : Runs g outcomes w.project) (ds : List Declaration) :
      Runs g (outcomes ++ [failureOf (g.run ds) w]) (stateAfter (g.run ds) w).project

namespace Generator

variable {g : Generator} {ds : List Declaration} {w : Workspace} {outcomes : List (Option Error)}

theorem Runs.regular (h : g.Runs outcomes p) : p.Regular := by
  induction h with
  | start start => exact Project.regular_of_ofValue (ofValue_of_start start)
  | run _ ds ih => exact (trace_run ih.wellFormed g ds).regular ih

/-- Runs that all succeed keep targets complete. -/
theorem Runs.complete (h : g.Runs outcomes p) (hall : ∀ e ∈ outcomes, e = none) : p.Complete := by
  induction h with
  | start start => exact Project.complete_of_ofValue (ofValue_of_start start)
  | @run outcomes w runs ds ih =>
    have hw := runs.regular
    obtain ⟨_, hrun⟩ := exists_of_failureOf_eq_none (hall (failureOf (g.run ds) w) (by simp))
    exact (trace_run hw.wellFormed g ds).complete hw.wellFormed
      (completes_of_run hw.wellFormed hw.owned hrun) (ih fun e he => hall e (by simp [he]))

/-- After runs that have all succeeded, a run that completes its builds succeeds, too, and leaves a
project without faults. So a run complains about targets only if one of those runs has failed. -/
theorem Runs.accepts (h : g.Runs outcomes w.project) (ds : List Declaration) :
    ((∀ e ∈ outcomes, e = none) → checkNames ds = .ok () → (∀ a ∈ g.attempts ds w, a.Completes) →
      ∃ w', g.run ds w = .ok () w' ∧ w'.project.Faultless) ∧
    ∀ problems, failureOf (g.run ds) w = some (.invalidTargets problems) →
      ∃ e ∈ outcomes, e ≠ none := by
  have hw := h.regular
  have htrace := trace_run hw.wellFormed g ds
  have hcases := run_cases hw.wellFormed hw.owned g ds
  have hsucceeds : (∀ e ∈ outcomes, e = none) → checkNames ds = .ok () →
      (∀ a ∈ g.attempts ds w, a.Completes) →
        failureOf (g.run ds) w = none ∧ (stateAfter (g.run ds) w).project.Faultless := by
    intro hall hnames hbuilds
    have hfaultless := (htrace.regular hw).faultless
      (htrace.complete hw.wellFormed hbuilds (h.complete hall))
    rcases hcases with ⟨e, -, -, hnot⟩ | ⟨-, -, hcheck⟩
    · exact absurd ⟨hnames, hbuilds⟩ hnot
    · rw [hcheck]
      exact ⟨failureOf_of_ok hfaultless.checkProject, hfaultless⟩
  constructor
  · intro hall hnames hbuilds
    obtain ⟨hnone, hfaultless⟩ := hsucceeds hall hnames hbuilds
    obtain ⟨_, hrun⟩ := exists_of_failureOf_eq_none hnone
    exact ⟨_, hrun, hfaultless⟩
  · intro problems hfails
    rcases hcases with ⟨e, he, hcheck, -⟩ | ⟨hnames, hbuilds, -⟩
    · rw [hfails] at he
      cases he
      exact absurd trivial hcheck
    · by_contra hnone
      push Not at hnone
      obtain ⟨hsuccess, -⟩ := hsucceeds hnone hnames hbuilds
      rw [hfails] at hsuccess
      cases hsuccess

end Generator

end

/-- A second run, over two frameworks and the tests of one of them, leaves a project without faults. -/
theorem accepts_of_testedAndDependent :
    ∃ (p : Project) (w w' : Workspace),
      Generator.start frameworkTree { projectName := "App", buildConfig := .text "Debug" } =
        .ok (plainGenerator, p) ∧
      plainGenerator.run [testedCore] ⟨p, frameworkTree, []⟩ = .ok () w ∧ w.project.Furnished ∧
        plainGenerator.run testedAndDependent w = .ok () w' ∧ w'.project.Faultless := by
  obtain ⟨p, w, hnew, hrun, -, hfurnished, hcompletes⟩ := exists_testedCore
  have hstart := start_of_ofValue frameworkTree rfl hnew
  have hruns : plainGenerator.Runs [none] w.project := by
    have hfirst := (Generator.Runs.start hstart).run (w := ⟨p, frameworkTree, []⟩) [testedCore]
    rwa [failureOf_of_ok hrun, stateAfter_of_ok hrun] at hfirst
  obtain ⟨w', hagain, hfaultless⟩ := (hruns.accepts testedAndDependent).1 (by simp) rfl hcompletes
  exact ⟨p, w, w', hstart, hrun, hfurnished, hagain, hfaultless⟩

end ProjectGraph
