import ProjectGraph.Proofs.Runs.Regular

/-! # Histories

The history of a project is a list of attempts to build a target, by hand or in the runs of a
generator. Between them runs set up schemes, which fails in no case. -/

namespace ProjectGraph

/-- A build of a target, with the state that it starts in. -/
structure Attempt where
  target : Target
  before : BuildState

variable [IdScheme]

namespace Attempt

/-- The state that the build leaves, whether it fails or not. -/
def after (a : Attempt) : BuildState := stateAfter (Build.build a.target) a.before

/-- The error with which the build fails, if it does. -/
def failure (a : Attempt) : Option Error := failureOf (Build.build a.target) a.before

/-- The build succeeds. -/
def Completes (a : Attempt) : Prop := failureOf (Build.build a.target) a.before = none

instance (a : Attempt) : Decidable a.Completes :=
  inferInstanceAs (Decidable (failureOf (Build.build a.target) a.before = none))

end Attempt

/-! ## The attempts of a run -/

/-- What is attempted after a part of a build, if this part succeeds. -/
def Build.onSuccess {α : Type} (x : Build α) (s : BuildState)
    (next : α → BuildState → List Attempt) : List Attempt :=
  match x s with
  | .ok a s' => next a s'
  | .error _ _ => []

omit [IdScheme] in
theorem Build.onSuccess_nil {α : Type} (x : Build α) (s : BuildState) :
    x.onSuccess s (fun _ _ => []) = [] := by
  unfold onSuccess
  split <;> rfl

/-- The builds of a declaration. The test target is built if the target has been. -/
def Declaration.attempts (d : Declaration) (s : BuildState) : List Attempt :=
  ⟨d.target, s⟩ ::
    (Build.build d.target).onSuccess s fun _ s' => d.test.toList.map fun e => ⟨e, s'⟩

/-- The builds of declarations in a row, up to the first one that fails. -/
def attemptsOf : List Declaration → BuildState → List Attempt
  | [], _ => []
  | d :: ds, s => d.attempts s ++ (Generator.buildDeclaration d).onSuccess s fun _ => attemptsOf ds

/-- The builds of a run. There are none if two targets have one name. -/
def Generator.attempts (g : Generator) (ds : List Declaration) (w : Workspace) : List Attempt :=
  match checkNames ds with
  | .ok () => attemptsOf ds (g.startState w)
  | .error _ => []

/-! ## Histories -/

/-- Builds and steps on schemes lead from one project to the other. The builds are these. -/
inductive Trace (p : Project) : List Attempt → Project → Prop
  | refl : Trace p [] p
  | build {as} (a : Attempt) (trace : Trace p as a.before.project) : Trace p (as ++ [a]) a.after.project
  | schemes {as q r name} (trace : Trace p as q) (path : Path (Project.AimedSteps name) q r) :
      Trace p as r

/-- Builds and runs lead to the project from a new one. The builds are these. -/
inductive BuildHistory : List Attempt → Project → Prop
  | new {name value p} (new : Project.ofValue name value = .ok p) : BuildHistory [] p
  | build {as} (a : Attempt) (history : BuildHistory as a.before.project) :
      BuildHistory (as ++ [a]) a.after.project
  | run {as} {w : Workspace} (history : BuildHistory as w.project) (g : Generator)
      (ds : List Declaration) : BuildHistory (as ++ g.attempts ds w) (stateAfter (g.run ds) w).project

theorem Trace.trans {p q r : Project} {as bs : List Attempt} (h : Trace p as q) (h' : Trace q bs r) :
    Trace p (as ++ bs) r := by
  induction h' with
  | refl => simpa using h
  | build a _ ih => simpa using ih.build a
  | schemes _ path ih => exact ih.schemes path

/-- A trace leads up to each of its builds, and from there on. -/
theorem Trace.split {p q : Project} {as earlier later : List Attempt} {a : Attempt} (h : Trace p as q)
    (has : as = earlier ++ a :: later) :
    Trace p earlier a.before.project ∧ Trace a.after.project later q := by
  induction h generalizing later with
  | refl => simp at has
  | build b trace ih =>
    cases List.eq_nil_or_concat later with
    | inl hnil =>
      rw [hnil] at has ⊢
      obtain ⟨rfl, hb⟩ := List.append_inj' has rfl
      cases hb
      exact ⟨trace, .refl⟩
    | inr hconcat =>
      obtain ⟨later', b', rfl⟩ := hconcat
      rw [List.concat_eq_append, ← List.cons_append, ← List.append_assoc] at has
      obtain ⟨rfl, hb⟩ := List.append_inj' has rfl
      cases hb
      obtain ⟨hfirst, hrest⟩ := ih rfl
      rw [List.concat_eq_append]
      exact ⟨hfirst, hrest.build b⟩
  | schemes _ path ih =>
    obtain ⟨hfirst, hrest⟩ := ih has
    exact ⟨hfirst, hrest.schemes path⟩

/-! ## What a build takes -/

theorem Attempt.path (a : Attempt) (h : a.before.project.WellFormed) :
    Path (BuildStep a.target a.before.project) a.before.project a.after.project :=
  (Build.performs_build h a.target).outcome.1

/-- A build that succeeds reports the dependencies that no product stands for. -/
theorem Attempt.Completes.exists_reported {a : Attempt} (h : a.Completes) :
    ∃ t names, Build.reportedBuild a.target a.before = .ok (t, names) a.after := by
  obtain ⟨t, ht⟩ := exists_of_failureOf_eq_none h
  rw [Build.build_eq] at ht
  obtain ⟨r, hr, -⟩ := exists_of_map_eq_ok ht
  refine ⟨r.1, r.2, ?_⟩
  rw [hr, Attempt.after, Build.build_eq]

theorem Trace.wellFormed {p q : Project} {as : List Attempt} (h : Trace p as q) (hp : p.WellFormed) :
    q.WellFormed := by
  induction h with
  | refl => exact hp
  | build a _ ih => exact (a.path ih).wellFormed ih
  | schemes _ path ih => exact path.wellFormed ih

theorem Trace.grows {p q : Project} {as : List Attempt} (h : Trace p as q) (hp : p.WellFormed) :
    p.Grows q := by
  induction h with
  | refl => exact .refl p
  | build a trace ih => exact ih.trans (a.path (trace.wellFormed hp)).grows
  | schemes _ path ih => exact ih.trans path.grows

theorem Trace.regular {p q : Project} {as : List Attempt} (h : Trace p as q) (hp : p.Regular) :
    q.Regular := by
  induction h with
  | refl => exact hp
  | build a _ ih => exact (a.path ih.wellFormed).regular_of_buildStep ih
  | schemes _ path ih => exact path.regular_of_aimedSteps ih

/-! ## What a run takes -/

/-- A part of a build attempts builds of targets. It fails as the first of them that fails. -/
structure Build.Attempts {α : Type} (x : Build α) (s : BuildState) (as : List Attempt) : Prop where
  trace : Trace s.project as (stateAfter x s).project
  failure : failureOf x s = as.findSome? Attempt.failure

namespace Build.Attempts

variable {α β : Type} {x : Build α} {s s' : BuildState} {as : List Attempt}

theorem completes_iff (hx : x.Attempts s as) : failureOf x s = none ↔ ∀ a ∈ as, a.Completes := by
  rw [hx.failure, List.findSome?_eq_none_iff]
  rfl

theorem wellFormed {a : α} (hx : x.Attempts s as) (h : x s = .ok a s') (hs : s.project.WellFormed) :
    s'.project.WellFormed := by
  have htrace := hx.trace
  rw [stateAfter_of_ok h] at htrace
  exact htrace.wellFormed hs

theorem build (d : Target) (s : BuildState) : (Build.build d).Attempts s [⟨d, s⟩] where
  trace := .build ⟨d, s⟩ .refl
  failure := by simp [Attempt.failure]

theorem of_ok {a : α} {name : String} (hx : x s = .ok a s')
    (hpath : Path (Project.AimedSteps name) s.project s'.project) : x.Attempts s [] where
  trace := by
    rw [stateAfter_of_ok hx]
    exact .schemes .refl hpath
  failure := by simp [failureOf_of_ok hx]

theorem pure (a : α) (s : BuildState) : (pure a : Build α).Attempts s [] where
  trace := .refl
  failure := by simp [failureOf_of_ok (show (Pure.pure a : Build α) s = .ok a s from rfl)]

theorem map (hx : x.Attempts s as) (f : α → β) : (f <$> x).Attempts s as := by
  constructor
  · rw [stateAfter_map]
    exact hx.trace
  · rw [failureOf_map]
    exact hx.failure

/-- The second part attempts its builds if the first one succeeds. -/
theorem bind {f : α → Build β} (hx : x.Attempts s as) (next : α → BuildState → List Attempt)
    (hf : ∀ a s', x s = .ok a s' → (f a).Attempts s' (next a s')) :
    (x >>= f).Attempts s (as ++ x.onSuccess s next) := by
  obtain ⟨htrace, hfailure⟩ := hx
  unfold onSuccess
  cases h : x s with
  | ok a s' =>
    rw [stateAfter_of_ok h] at htrace
    rw [failureOf_of_ok h] at hfailure
    have hrest := hf a s' h
    constructor
    · rw [stateAfter_bind_of_ok h]
      exact htrace.trans hrest.trace
    · rw [failureOf_bind_of_ok h, List.findSome?_append, ← hfailure, Option.none_or]
      exact hrest.failure
  | error e s' =>
    rw [stateAfter_of_error h] at htrace
    rw [failureOf_of_error h] at hfailure
    rw [List.append_nil]
    exact ⟨(stateAfter_bind_of_error h).symm ▸ htrace, (failureOf_bind_of_error h).symm ▸ hfailure⟩

end Build.Attempts

section

variable {s : BuildState} {d : Declaration} {ds : List Declaration}

/-- The scheme of a declaration is set up once its targets have been built. -/
theorem Build.attempts_configureScheme {t : ObjectId} (hs : s.project.WellFormed) (d : Declaration)
    (ht : s.project.Produces t) (test : Option ObjectId)
    (htest : ∀ u ∈ test, s.project.Produces u) :
    Build.Attempts (discard <| Build.edit (Project.configureScheme d t test)) s [] := by
  obtain ⟨name, q, hq, hpath⟩ := Project.exists_aimed_configureScheme hs d ht test htest
  exact .of_ok (discard_of_ok (edit_of_eq_ok hq)) hpath

theorem Build.produces_of_build {t : ObjectId} {s' : BuildState} (hs : s.project.WellFormed)
    {d : Target} (h : Build.build d s = .ok t s') :
    s'.project.WellFormed ∧ s'.project.Produces t := by
  obtain ⟨hpath, names, hbuilt⟩ := Leads.of_ok (performs_build hs d) h
  exact ⟨hpath.wellFormed hs, hbuilt.established.produces⟩

theorem Generator.attempts_buildDeclaration (hs : s.project.WellFormed) (d : Declaration) :
    (buildDeclaration d).Attempts s (d.attempts s) := by
  refine (Build.Attempts.build d.target s).bind _ fun t s₁ h₁ => ?_
  obtain ⟨hs₁, ht⟩ := Build.produces_of_build hs h₁
  cases d.test with
  | none => exact Build.attempts_configureScheme hs₁ d ht none (by simp)
  | some e =>
    have htest := ((Build.Attempts.build e s₁).map some).bind (fun _ _ => [])
      (f := fun test => discard <| Build.edit (Project.configureScheme d t test)) fun test s₂ h₂ => by
        obtain ⟨u, hu, rfl⟩ := exists_of_map_eq_ok h₂
        obtain ⟨hs₂, hu'⟩ := Build.produces_of_build hs₁ hu
        have ht' := ht.grows (Leads.of_ok (Build.performs_build hs₁ e) hu).1.grows
        exact Build.attempts_configureScheme hs₂ d ht' (some u) (by rintro _ ⟨⟩; exact hu')
    rw [Build.onSuccess_nil] at htest
    exact htest

theorem Generator.attempts_forM (hs : s.project.WellFormed) (ds : List Declaration) :
    (ds.forM buildDeclaration).Attempts s (attemptsOf ds s) := by
  induction ds generalizing s with
  | nil => exact .pure PUnit.unit s
  | cons d ds ih =>
    have hfirst := attempts_buildDeclaration hs d
    exact hfirst.bind (fun _ => attemptsOf ds) fun _ s' h => ih (hfirst.wellFormed h hs)

end

/-! ## Runs of generators -/

namespace Generator

variable {g : Generator} {ds : List Declaration} {w : Workspace} {s : BuildState}

theorem stateAfter_run (g : Generator) (ds : List Declaration) (w : Workspace) :
    stateAfter (g.run ds) w = (stateAfter (buildAll ds) (g.startState w)).workspace := by
  unfold stateAfter run startState
  cases buildAll ds ⟨w, .ofPaths g.root g.scriptsDirectory⟩ <;> rfl

theorem failureOf_run (g : Generator) (ds : List Declaration) (w : Workspace) :
    failureOf (g.run ds) w = failureOf (buildAll ds) (g.startState w) := by
  unfold failureOf run startState
  cases buildAll ds ⟨w, .ofPaths g.root g.scriptsDirectory⟩ <;> rfl

theorem buildAll_of_checkNames (h : checkNames ds = .ok ()) :
    buildAll ds = ds.forM buildDeclaration >>= fun _ => Build.edit checkProject := by
  rw [buildAll, h]

/-- Nothing is built if two targets have one name. -/
theorem buildAll_of_error {e : Error} (h : checkNames ds = .error e) (s : BuildState) :
    buildAll ds s = .error e s := by
  rw [buildAll, h]
  rfl

theorem attempts_of_checkNames (h : checkNames ds = .ok ()) (g : Generator) (w : Workspace) :
    g.attempts ds w = attemptsOf ds (g.startState w) := by
  rw [attempts, h]

/-- Where the builds of a run come to their end, each of them has completed. -/
theorem completes_of_forM {v : PUnit} {s' : BuildState} (hw : w.project.WellFormed)
    (hnames : checkNames ds = .ok ())
    (hbuilds : ds.forM buildDeclaration (g.startState w) = .ok v s') :
    ∀ a ∈ g.attempts ds w, a.Completes := by
  rw [attempts_of_checkNames hnames]
  exact (attempts_forM (s := g.startState w) hw ds).completes_iff.1 (failureOf_of_ok hbuilds)

theorem stateAfter_checkProject (hs : s.project.WellFormed) :
    stateAfter (Build.edit checkProject) s = s := by
  rcases checkProject_cases hs with h | ⟨e, h, -⟩
  · exact stateAfter_of_ok (Build.edit_of_ok h)
  · exact stateAfter_of_error (Build.edit_of_eq_error h)

/-- A run that builds anything ends where the last build and its scheme have led to. -/
theorem stateAfter_buildAll (hs : s.project.WellFormed) (h : checkNames ds = .ok ()) :
    stateAfter (buildAll ds) s = stateAfter (ds.forM buildDeclaration) s := by
  rw [buildAll_of_checkNames h]
  cases hbuilds : ds.forM buildDeclaration s with
  | ok u s' =>
    have hcheck := stateAfter_checkProject ((attempts_forM hs ds).wellFormed hbuilds hs)
    rw [stateAfter_of_ok hbuilds]
    unfold stateAfter at hcheck ⊢
    rw [bind_of_ok hbuilds]
    exact hcheck
  | error e s' => rw [stateAfter_of_error hbuilds, stateAfter_of_error (bind_of_error hbuilds)]

/-- A run is a trace of its attempts. -/
theorem trace_run (hw : w.project.WellFormed) (g : Generator) (ds : List Declaration) :
    Trace w.project (g.attempts ds w) (stateAfter (g.run ds) w).project := by
  rw [stateAfter_run]
  cases h : checkNames ds with
  | ok =>
    rw [attempts_of_checkNames h]
    have htrace := (attempts_forM (s := g.startState w) hw ds).trace
    rw [← stateAfter_buildAll (s := g.startState w) hw h] at htrace
    exact htrace
  | error e =>
    rw [stateAfter_of_error (buildAll_of_error h _), attempts, h]
    exact .refl

/-- A run fails in its builds, or it builds everything and ends as the check of its project does. -/
theorem run_cases (hw : w.project.WellFormed) (hwo : w.project.Owned) (g : Generator)
    (ds : List Declaration) :
    (∃ e, failureOf (g.run ds) w = some e ∧ ¬ e.IsCheck ∧
      ¬ (checkNames ds = .ok () ∧ ∀ a ∈ g.attempts ds w, a.Completes)) ∨
    (checkNames ds = .ok () ∧ (∀ a ∈ g.attempts ds w, a.Completes) ∧
      failureOf (g.run ds) w = failureOf checkProject (stateAfter (g.run ds) w).project) := by
  rw [failureOf_run, stateAfter_run]
  cases hnames : checkNames ds with
  | error e =>
    refine .inl ⟨e, failureOf_of_error (buildAll_of_error hnames _), ?_, by simp⟩
    unfold checkNames at hnames
    split at hnames <;> cases hnames
    exact id
  | ok =>
    have hcompletes := (attempts_forM (s := g.startState w) hw ds).completes_iff
    rw [← attempts_of_checkNames hnames] at hcompletes
    cases hbuilds : ds.forM buildDeclaration (g.startState w) with
    | ok u s' =>
      have hcheck : failureOf (buildAll ds) (g.startState w) = failureOf checkProject s'.project := by
        rw [buildAll_of_checkNames hnames]
        unfold failureOf
        rw [bind_of_ok hbuilds, Build.edit_eq]
        cases checkProject s'.project <;> rfl
      have hstate := stateAfter_buildAll (s := g.startState w) hw hnames
      rw [stateAfter_of_ok hbuilds] at hstate
      rw [failureOf_of_ok hbuilds] at hcompletes
      refine .inr ⟨rfl, hcompletes.1 rfl, ?_⟩
      rw [hcheck, hstate]
      rfl
    | error e s' =>
      have hfails : failureOf (buildAll ds) (g.startState w) = some e := by
        rw [buildAll_of_checkNames hnames]
        exact failureOf_of_error (bind_of_error hbuilds)
      rw [failureOf_of_error hbuilds] at hcompletes
      refine .inl ⟨e, hfails, ?_, fun h => absurd (hcompletes.2 h.2) (by simp)⟩
      -- The builds of declarations check nothing.
      have hreported := Build.performs_reportedDeclarations (s := g.startState w) hw hwo
        (checkNames_eq_ok.1 hnames)
      refine hreported.discard.not_isCheck (e := e) ?_
      rw [← Build.forM_buildDeclaration_eq]
      exact failureOf_of_error hbuilds

/-- A run that fails halfway fails as one of its builds does. -/
theorem exists_attempt_of_failure (hw : w.project.WellFormed) {e : Error}
    (h : failureOf (g.run ds) w = some e) (he : ¬ e.IsOuter) :
    ∃ a ∈ g.attempts ds w, a.failure = some e := by
  rw [failureOf_run] at h
  cases hnames : checkNames ds with
  | error e' =>
    unfold buildAll failureOf at h
    rw [hnames] at h
    cases h
    exact absurd (isOuter_of_checkNames hnames) he
  | ok =>
    have hattempts := attempts_forM (s := g.startState w) hw ds
    have hfailure := hattempts.failure
    rw [buildAll_of_checkNames hnames] at h
    rw [attempts_of_checkNames hnames]
    cases hbuilds : ds.forM buildDeclaration (g.startState w) with
    | error e' s' =>
      rw [failureOf_of_error (bind_of_error hbuilds)] at h
      cases h
      rw [failureOf_of_error hbuilds] at hfailure
      exact List.exists_of_findSome?_eq_some hfailure.symm
    | ok u s' =>
      rw [failureOf, bind_of_ok hbuilds] at h
      rcases checkProject_cases (hattempts.wellFormed hbuilds hw) with hcheck | ⟨e', hcheck, he'⟩
      · rw [Build.edit_of_eq_ok hcheck] at h
        cases h
      · rw [Build.edit_of_eq_error hcheck] at h
        cases h
        exact absurd he'.isOuter he

/-- The builds of a run that succeeds have all succeeded. -/
theorem completes_of_run {w' : Workspace} (hw : w.project.WellFormed) (hwo : w.project.Owned)
    (h : g.run ds w = .ok () w') : ∀ a ∈ g.attempts ds w, a.Completes := by
  rcases run_cases hw hwo g ds with ⟨e, he, -⟩ | ⟨-, hcompletes, -⟩
  · rw [failureOf_of_ok h] at he
    cases he
  · exact hcompletes

end Generator

/-! ## The targets of a run -/

/-- A declaration attempts to build its targets. -/
theorem Declaration.sublist_attempts (d : Declaration) (s : BuildState) :
    ((d.attempts s).map Attempt.target).Sublist d.targets := by
  unfold attempts targets Build.onSuccess
  refine List.Sublist.cons_cons _ ?_
  split
  · rw [List.map_map]
    exact (List.map_id _).symm ▸ List.Sublist.refl _
  · exact List.nil_sublist _

theorem sublist_attemptsOf (ds : List Declaration) (s : BuildState) :
    ((attemptsOf ds s).map Attempt.target).Sublist (ds.flatMap Declaration.targets) := by
  induction ds generalizing s with
  | nil => exact List.Sublist.refl _
  | cons d ds ih =>
    rw [attemptsOf, List.map_append, List.flatMap_cons]
    refine (d.sublist_attempts s).append ?_
    unfold Build.onSuccess
    split
    · exact ih _
    · exact List.nil_sublist _

/-- If the building of a declaration succeeds, all its targets have been built. -/
theorem Declaration.attempts_of_ok {d : Declaration} {s s' : BuildState} {v : Unit}
    (h : Generator.buildDeclaration d s = .ok v s') : (d.attempts s).map Attempt.target = d.targets := by
  obtain ⟨t, s₁, hbuild, -⟩ := exists_of_bind_eq_ok h
  simp [Declaration.attempts, Declaration.targets, Build.onSuccess, hbuild, Function.comp_def]

theorem attemptsOf_of_ok {ds : List Declaration} {s s' : BuildState} {v : PUnit}
    (h : ds.forM Generator.buildDeclaration s = .ok v s') :
    (attemptsOf ds s).map Attempt.target = ds.flatMap Declaration.targets := by
  induction ds generalizing s with
  | nil => rfl
  | cons d ds ih =>
    obtain ⟨_, s₁, hfirst, hrest⟩ := exists_of_bind_eq_ok h
    rw [attemptsOf, List.map_append, List.flatMap_cons, Declaration.attempts_of_ok hfirst,
      Build.onSuccess, hfirst]
    simp only [ih hrest]

/-- The targets that a run attempts to build have different names. -/
theorem Generator.nodup_attempts (g : Generator) (ds : List Declaration) (w : Workspace) :
    ((g.attempts ds w).map fun a => a.target.name).Nodup := by
  cases h : checkNames ds with
  | ok =>
    rw [attempts_of_checkNames h]
    have hsublist := (sublist_attemptsOf ds (g.startState w)).map fun t => t.name
    rw [List.map_map] at hsublist
    exact (checkNames_eq_ok.1 h).sublist hsublist
  | error e =>
    rw [attempts, h]
    exact List.nodup_nil

/-! ## Traces of histories -/

theorem RunReachable.regular {p : Project} (h : RunReachable p) : p.Regular := by
  induction h with
  | new new => exact Project.regular_of_ofValue new
  | run _ g ds ih => exact (Generator.trace_run ih.wellFormed g ds).regular ih

theorem BuildHistory.exists_trace {as : List Attempt} {q : Project} (h : BuildHistory as q) :
    ∃ name value p, Project.ofValue name value = .ok p ∧ Trace p as q := by
  induction h with
  | new new => exact ⟨_, _, _, new, .refl⟩
  | build a _ ih =>
    obtain ⟨name, value, p, hnew, htrace⟩ := ih
    exact ⟨name, value, p, hnew, htrace.build a⟩
  | run _ g ds ih =>
    obtain ⟨name, value, p, hnew, htrace⟩ := ih
    have hregular := htrace.regular (Project.regular_of_ofValue hnew)
    exact ⟨name, value, p, hnew, htrace.trans (Generator.trace_run hregular.wellFormed g ds)⟩

theorem BuildHistory.regular {as : List Attempt} {q : Project} (h : BuildHistory as q) : q.Regular := by
  obtain ⟨_, _, p, hnew, htrace⟩ := h.exists_trace
  exact htrace.regular (Project.regular_of_ofValue hnew)

theorem BuildHistory.of_run {as : List Attempt} {w w' : Workspace} {g : Generator}
    {ds : List Declaration} (h : BuildHistory as w.project) (hrun : g.run ds w = .ok () w') :
    BuildHistory (as ++ g.attempts ds w) w'.project := by
  have hlast := h.run g ds
  rwa [stateAfter_of_ok hrun] at hlast

end ProjectGraph
