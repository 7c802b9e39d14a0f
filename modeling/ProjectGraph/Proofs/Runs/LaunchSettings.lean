import ProjectGraph.Proofs.Digest
import ProjectGraph.Proofs.Runs.Schemes
import ProjectGraph.Proofs.Schemes.SetUp

/-! # Launch settings of reachable projects

Whatever has been done to a project before, setting up the scheme of a target resolves each setting by
itself, leaves all else as it is, and has nothing to do the next time. -/

namespace ProjectGraph

/-- However a project has come about, the scheme of a target is what a declaration makes of the scheme
that the target had, or of a new one. The launch arguments and the environment variables are those of
the declared test target, or else those of the declared target, or else those of before, each by itself.
What is tested changes only if a target that is to be tested is given. Nothing but this one scheme
changes, and the same declaration changes nothing any more. -/
theorem ConfigureReachable.launch_settings [IdScheme] {p : Project} (h : ConfigureReachable p)
    {t : ObjectId} {a : NativeTarget} (ha : p.content? t = some (.target a)) (d : Declaration)
    {test : Option ObjectId} (htest : ∀ u ∈ test, ∃ b, p.content? u = some (.target b)) :
    ∃ q s, Project.configureScheme d t test p = .ok a.name q ∧
      q.scheme? a.name = some s ∧
      (p.schemeOf t a).SetUp s d (test.bind p.entryOf) ∧
      (test.bind p.entryOf).map BuildableReference.target = test ∧
      q = { p with schemes := q.schemes } ∧
      ((q.schemes.filter fun s => s.name ≠ a.name) = p.schemes.filter fun s => s.name ≠ a.name) ∧
      Project.configureScheme d t test q = .ok a.name q := by
  obtain ⟨hp, -, harranged⟩ := h.invariant
  let s := SchemeChange.applyAll (p.schemeOf t a)
    (Project.declaredChanges d (test.bind p.entryOf))
  have hfirst : Project.configureScheme d t test p = .ok a.name (p.withScheme s) :=
    Project.configureScheme_eq_withScheme hp harranged.names ha d htest
  have hsetUp := SchemeChange.setUp_applyAll (p.schemeOf t a) d (test.bind p.entryOf)
  have hname : s.name = a.name := hsetUp.name.trans (Project.name_schemeOf p t a)
  have hentry : (test.bind p.entryOf).map BuildableReference.target = test := by
    cases test with
    | none => rfl
    | some u =>
      obtain ⟨b, hb⟩ := htest u rfl
      rw [Option.bind_some, Project.entryOf_of_target hb]
      rfl
  refine ⟨p.withScheme s, s, hfirst, ?_, hsetUp, hentry, rfl, ?_, ?_⟩
  · rw [← hname]
    exact Project.scheme?_withScheme p s
  · rw [← hname]
    exact Project.filter_withScheme p s
  · exact Project.configureScheme_of_configureScheme hp ha d htest hfirst

/-- A framework with launch settings, and a test bundle that declares that there are no launch
arguments. -/
def verboseFramework : Declaration where
  target :=
    { bareFramework "App" [] with
      launchArguments := some ["-verbose"]
      environmentVariables := some (.single "MODE" "app")
      enableCodeCoverage := true }
  test := some { bareTest "Tests" [] with launchArguments := some [] }

/-- The scheme of a framework that has no tests is set up by hand. It has the launch arguments of the
test bundle, the environment of the framework, and tests the framework itself. -/
theorem ConfigureReachable.launch_settings_of_verboseFramework :
    ∃ (p q : Project) (t : ObjectId) (a : NativeTarget) (s s' : Scheme), ConfigureReachable p ∧
      p.content? t = some (.target a) ∧ p.scheme? a.name = some s ∧ s.codeCoverage = false ∧
      Project.configureScheme verboseFramework t (some t) p = .ok a.name q ∧
      q.scheme? a.name = some s' ∧ s'.launchArguments = [] ∧
      s'.environmentVariables = [{ key := "MODE", value := "app", isEnabled := true }] ∧
      s'.testables = [p.buildableOf t a] ∧ s'.codeCoverage = true ∧
      Project.configureScheme verboseFramework t (some t) q = .ok a.name q := by
  let t := IdScheme.ofKey "PBXNativeTarget:App"
  have hrun : (Project.ofValue "App" (.text "Debug")).toOption.any fun p =>
      let q := (stateAfter (plainGenerator.run [{ target := bareFramework "App" [] }])
        ⟨p, .withHome [], []⟩).project
      ((q.content? t).bind Content.target?).map NativeTarget.name = some "App" ∧
      (q.scheme? "App").map Scheme.codeCoverage = some false := by
    rw [ObjectId.digestScheme_eq]
    decide +kernel
  obtain ⟨p₀, hnew, hp⟩ := Project.exists_of_ofValue hrun
  have hmove := Move.run ⟨p₀, .withHome [], []⟩ plainGenerator [{ target := bareFramework "App" [] }]
  obtain ⟨htarget, hscheme⟩ := of_decide_eq_true hp
  generalize (stateAfter (plainGenerator.run [{ target := bareFramework "App" [] }])
    ⟨p₀, .withHome [], []⟩).project = p at hmove htarget hscheme
  have hreachable : ConfigureReachable p := (ConfigureReachable.new hnew).move hmove
  obtain ⟨a, ha, hname⟩ := Option.map_eq_some_iff.1 htarget
  obtain ⟨s, hs, hcoverage⟩ := Option.map_eq_some_iff.1 hscheme
  have hcontent := Project.content?_of_target? ha
  have htest : ∀ u ∈ some t, ∃ b, p.content? u = some (.target b) := by
    rintro _ ⟨⟩
    exact ⟨a, hcontent⟩
  obtain ⟨q, s', hq, hs', hsetUp, -, -, -, hagain⟩ :=
    hreachable.launch_settings hcontent verboseFramework htest
  rw [Option.bind_some, Project.entryOf_of_target hcontent] at hsetUp
  rw [← hname] at hs
  exact ⟨p, q, t, a, s, s', hreachable, hcontent, hs, hcoverage, hq, hs', hsetUp.launchArguments,
    hsetUp.environmentVariables, hsetUp.testables, hsetUp.codeCoverage, hagain⟩

end ProjectGraph
