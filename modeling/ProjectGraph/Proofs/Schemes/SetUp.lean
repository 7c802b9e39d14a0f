import ProjectGraph.Proofs.Operations.Schemes
import ProjectGraph.Proofs.Schemes.Arranged

/-! # Setting up the scheme of a target

A declaration resolves each launch setting by itself: what its test target declares comes before what its
target declares, and a setting that neither of them declares stays as it is in the scheme. -/

namespace ProjectGraph

/-! ## Resolving settings -/

namespace Declaration

/-- The launch arguments that are declared: those of the test target, or else those of the target. -/
def launchArguments (d : Declaration) : Option (List String) :=
  (d.test.bind fun test => test.launchArguments).or d.target.launchArguments

/-- The environment variables that are declared: those of the test target, or else those of the
target. -/
def environmentVariables (d : Declaration) : Option (Table String String) :=
  (d.test.bind fun test => test.environmentVariables).or d.target.environmentVariables

end Declaration

/-- The second scheme is what a declaration makes of the first one, with this entry for the target that
is to be tested. -/
structure Scheme.SetUp (s s' : Scheme) (d : Declaration) (test : Option BuildableReference) : Prop where
  name : s'.name = s.name
  configuration : s'.configuration = s.configuration
  launchArguments : s'.launchArguments =
    (d.launchArguments.map fun arguments =>
      arguments.map fun text => { text := text, isEnabled := true }).getD s.launchArguments
  environmentVariables : s'.environmentVariables =
    (d.environmentVariables.map fun environment =>
      environment.entries.map fun e => { key := e.1, value := e.2, isEnabled := true }).getD
        s.environmentVariables
  testables : s'.testables = (test.map fun entry => [entry]).getD s.testables
  codeCoverage : s'.codeCoverage =
    (test.map fun _ => d.target.enableCodeCoverage).getD s.codeCoverage
  buildEntries : s'.buildEntries =
    (test.map fun entry => (s.addBuildEntry entry).buildEntries).getD s.buildEntries

namespace SchemeChange

open Project

variable {s : Scheme} {d : Declaration} {test : Option BuildableReference}

theorem last_append {γ α : Type} (f : γ → Option α) (a : α) (cs cs' : List γ) :
    last f a (cs ++ cs') = last f (last f a cs) cs' :=
  List.foldl_append

theorem last_arguments_launchChanges (a : List LaunchArgument) (d : Target) :
    last arguments? a (launchChanges d) =
      (d.launchArguments.map fun arguments => arguments.map fun text => { text := text }).getD a := by
  unfold launchChanges
  cases d.launchArguments <;> cases d.environmentVariables <;> rfl

theorem last_environment_launchChanges (a : List EnvironmentVariable) (d : Target) :
    last environment? a (launchChanges d) =
      (d.environmentVariables.map fun environment =>
        environment.entries.map fun e => { key := e.1, value := e.2 }).getD a := by
  unfold launchChanges
  cases d.launchArguments <;> cases d.environmentVariables <;> rfl

/-- Launch settings are no tests. -/
theorem tests?_of_mem_launchChanges {c : SchemeChange} {d : Target} (h : c ∈ launchChanges d) :
    c.tests? = none := by
  simp only [launchChanges, List.mem_append, List.mem_map] at h
  rcases h with ⟨_, -, rfl⟩ | ⟨_, -, rfl⟩ <;> rfl

/-- What a declaration changes: first the test, then what the target declares, and then what the test
target declares. -/
theorem last_declaredChanges {α : Type} (f : SchemeChange → Option α) (a : α) (d : Declaration)
    (test : Option BuildableReference) :
    last f a (declaredChanges d test) =
      last f
        (last f (last f a (test.toList.map fun entry => .testables [entry] d.target.enableCodeCoverage))
          (launchChanges d.target))
        (d.test.toList.flatMap launchChanges) := by
  rw [declaredChanges, last_append, last_append]

/-- A setting that tests do not change is resolved by what the test target declares, and else by what the
target declares. -/
theorem last_setting_declaredChanges {α : Type} {f : SchemeChange → Option α} {g : Target → Option α}
    (hf : ∀ entries codeCoverage, f (.testables entries codeCoverage) = none)
    (hg : ∀ a e, last f a (launchChanges e) = (g e).getD a) (a : α) (d : Declaration)
    (test : Option BuildableReference) :
    last f a (declaredChanges d test) = ((d.test.bind g).or (g d.target)).getD a := by
  have htest : last f a (test.toList.map fun entry =>
      .testables [entry] d.target.enableCodeCoverage) = a := by
    refine last_eq_of_none (fun c hc => ?_) a
    obtain ⟨entry, -, rfl⟩ := List.mem_map.1 hc
    exact hf _ _
  rw [last_declaredChanges, htest, hg]
  cases d.test with
  | none => rfl
  | some e =>
    rw [Option.toList_some, List.flatMap_singleton, hg, Option.bind_some]
    cases g e <;> rfl

/-- A declaration has no tests but the one of its test target. -/
theorem last_tests_declaredChanges (a : List BuildableReference × Bool) (d : Declaration)
    (test : Option BuildableReference) :
    last tests? a (declaredChanges d test) =
      (test.map fun entry => ([entry], d.target.enableCodeCoverage)).getD a := by
  rw [last_declaredChanges, last_eq_of_none, last_eq_of_none fun c => tests?_of_mem_launchChanges]
  · cases test <;> rfl
  · intro c hc
    obtain ⟨e, -, hc⟩ := List.mem_flatMap.1 hc
    exact tests?_of_mem_launchChanges hc

/-- What a scheme builds does not depend on its tests. -/
theorem buildEntries_setTestables (s : Scheme) (entry : BuildableReference) (codeCoverage : Bool) :
    (s.setTestables [entry] codeCoverage).buildEntries = (s.addBuildEntry entry).buildEntries := by
  simp only [Scheme.setTestables, List.foldl_cons, List.foldl_nil, Scheme.addBuildEntry]
  split <;> rfl

/-- What a scheme builds does not depend on launch settings. -/
theorem buildEntries_launchSettings (s : Scheme) (d : Declaration) :
    (applyAll s (launchChanges d.target ++ d.test.toList.flatMap launchChanges)).buildEntries =
      s.buildEntries := by
  refine buildEntries_applyAll fun refs codeCoverage hc => ?_
  have htests : (testables refs codeCoverage).tests? = none := by
    rcases List.mem_append.1 hc with hc | hc
    · exact tests?_of_mem_launchChanges hc
    · obtain ⟨e, -, hc⟩ := List.mem_flatMap.1 hc
      exact tests?_of_mem_launchChanges hc
  cases htests

/-- The changes of a declaration resolve the settings field by field. -/
theorem setUp_applyAll (s : Scheme) (d : Declaration) (test : Option BuildableReference) :
    s.SetUp (applyAll s (declaredChanges d test)) d test := by
  obtain ⟨entries, heq⟩ := applyAll_eq s (declaredChanges d test)
  constructor
  case name => rw [heq]
  case configuration => rw [heq]
  case launchArguments =>
    rw [heq]
    show last arguments? s.launchArguments (declaredChanges d test) = _
    rw [last_setting_declaredChanges (fun _ _ => rfl) last_arguments_launchChanges,
      Declaration.launchArguments, Option.map_or, Option.map_bind]
    rfl
  case environmentVariables =>
    rw [heq]
    show last environment? s.environmentVariables (declaredChanges d test) = _
    rw [last_setting_declaredChanges (fun _ _ => rfl) last_environment_launchChanges,
      Declaration.environmentVariables, Option.map_or, Option.map_bind]
    rfl
  case testables =>
    rw [heq]
    show (last tests? (s.testables, s.codeCoverage) (declaredChanges d test)).1 = _
    rw [last_tests_declaredChanges]
    cases test <;> rfl
  case codeCoverage =>
    rw [heq]
    show (last tests? (s.testables, s.codeCoverage) (declaredChanges d test)).2 = _
    rw [last_tests_declaredChanges]
    cases test <;> rfl
  case buildEntries =>
    cases test with
    | none => exact buildEntries_launchSettings s d
    | some entry =>
      exact (buildEntries_launchSettings ((testables [entry] d.target.enableCodeCoverage).apply s) d).trans
        (buildEntries_setTestables s entry _)

end SchemeChange

/-! ## The scheme of a target -/

namespace Project

variable {p q : Project} {t : ObjectId} {a : NativeTarget}

/-- The scheme with which the setting up begins: that of the target, or a new one. -/
def schemeOf (p : Project) (t : ObjectId) (a : NativeTarget) : Scheme :=
  (p.scheme? a.name).getD (p.newScheme t a)

theorem name_schemeOf (p : Project) (t : ObjectId) (a : NativeTarget) : (p.schemeOf t a).name = a.name := by
  unfold schemeOf
  cases hs : p.scheme? a.name with
  | none => rfl
  | some s => simpa using List.find?_some hs

/-- How schemes refer to the target under an id. -/
def entryOf (p : Project) (t : ObjectId) : Option BuildableReference :=
  ((p.content? t).bind Content.target?).map (p.buildableOf t)

theorem entryOf_of_target (ha : p.content? t = some (.target a)) :
    p.entryOf t = some (p.buildableOf t a) := by
  rw [entryOf, ha]
  rfl

/-- The project with this scheme in the place of the one of its name, or after all others. -/
def withScheme (p : Project) (s : Scheme) : Project :=
  { p with
    schemes :=
      if (p.scheme? s.name).isSome then p.schemes.map fun s' => if s'.name = s.name then s else s'
      else p.schemes ++ [s] }

/-- The scheme is found under its name then. -/
theorem scheme?_withScheme (p : Project) (s : Scheme) : (p.withScheme s).scheme? s.name = some s := by
  cases hold : p.scheme? s.name with
  | some old =>
    have hschemes : (p.withScheme s).schemes =
        p.schemes.map fun s' => if s'.name = s.name then s else s' := by
      rw [withScheme, hold]
      rfl
    -- What is replaced keeps its name.
    have hkeeps : ((fun s' : Scheme => decide (s'.name = s.name)) ∘
        fun s' => if s'.name = s.name then s else s') = fun s' => decide (s'.name = s.name) := by
      funext s'
      by_cases hname : s'.name = s.name <;> simp [hname]
    have hfound : old.name = s.name := by simpa using List.find?_some hold
    rw [scheme?, hschemes, List.find?_map, hkeeps]
    show (p.scheme? s.name).map _ = _
    rw [hold, Option.map_some, if_pos hfound]
  | none =>
    have hschemes : (p.withScheme s).schemes = p.schemes ++ [s] := by
      rw [withScheme, hold]
      rfl
    rw [scheme?, hschemes, List.find?_append]
    show (p.scheme? s.name).or _ = _
    rw [hold]
    simp

/-- The schemes of other names stay as they are. -/
theorem filter_withScheme (p : Project) (s : Scheme) :
    ((p.withScheme s).schemes.filter fun s' => s'.name ≠ s.name) =
      p.schemes.filter fun s' => s'.name ≠ s.name := by
  unfold withScheme
  split
  · have hkeeps : ((fun s' : Scheme => decide (s'.name ≠ s.name)) ∘
        fun s' => if s'.name = s.name then s else s') = fun s' => decide (s'.name ≠ s.name) := by
      funext s'
      by_cases hname : s'.name = s.name <;> simp [hname]
    simp only
    rw [List.filter_map, hkeeps]
    refine (List.map_congr_left (g := id) fun s' hs' => if_neg ?_).trans (List.map_id _)
    simpa using (List.mem_filter.1 hs').2
  · simp

/-- Where schemes have names of their own, changing those of a name is changing one scheme. -/
theorem changeScheme_eq_withScheme (hnodup : (p.schemes.map Scheme.name).Nodup) {s : Scheme}
    (hs : s ∈ p.schemes) (cs : List SchemeChange) :
    p.changeScheme s.name cs = p.withScheme (SchemeChange.applyAll s cs) := by
  have hsome : (p.scheme? (SchemeChange.applyAll s cs).name).isSome := by
    rw [SchemeChange.name_applyAll]
    exact scheme?_isSome_iff.2 ⟨s, hs, rfl⟩
  rw [changeScheme, withScheme, if_pos hsome, SchemeChange.name_applyAll]
  refine congrArg (fun schemes => { p with schemes := schemes }) (List.map_congr_left fun s' hs' => ?_)
  by_cases hname : s'.name = s.name
  · have hsame : s' = s := by
      have hfound := find?_of_nodup_map hnodup hs'
      rw [hname, find?_of_nodup_map hnodup hs] at hfound
      exact (Option.some.inj hfound).symm
    rw [if_pos hname, if_pos hname, hsame]
  · rw [if_neg hname, if_neg hname]

variable [IdScheme]

omit [IdScheme] in
/-- A registered target that is to be tested has an entry. -/
theorem testEntryOf {test : Option ObjectId}
    (h : ∀ u ∈ test, ∃ b, p.content? u = some (.target b)) :
    (∀ u, test = some u → ∃ b, p.content? u = some (.target b) ∧
      test.bind p.entryOf = some (p.buildableOf u b)) ∧ (test = none → test.bind p.entryOf = none) := by
  constructor
  · rintro u rfl
    obtain ⟨b, hb⟩ := h u rfl
    exact ⟨b, hb, entryOf_of_target hb⟩
  · rintro rfl
    rfl

/-- The scheme of a registered target is set up by a declaration, with an entry for the test target if
one is given. -/
theorem configureScheme_eq_withScheme (hp : p.WellFormed)
    (hnodup : (p.schemes.map Scheme.name).Nodup) (ha : p.content? t = some (.target a))
    (d : Declaration) {test : Option ObjectId}
    (htest : ∀ u ∈ test, ∃ b, p.content? u = some (.target b)) :
    configureScheme d t test p = .ok a.name (p.withScheme
      (SchemeChange.applyAll (p.schemeOf t a) (declaredChanges d (test.bind p.entryOf)))) := by
  obtain ⟨hsome, hnone⟩ := testEntryOf htest
  cases hs : p.scheme? a.name with
  | some s =>
    have hmem := List.mem_of_find?_eq_some hs
    have hname : s.name = a.name := by simpa using List.find?_some hs
    have hfor := schemeFor_of_mem ha ⟨s, hmem, hname⟩
    have hof : p.schemeOf t a = s := by rw [schemeOf, hs, Option.getD_some]
    rw [configureScheme_eq hp d hfor hsome hnone, hof, ← hname, changeScheme_eq_withScheme hnodup hmem]
  | none =>
    have hfor := schemeFor_of_none hp ha hs
    obtain ⟨q, hq, hpath, -⟩ := exists_schemeFor hp ha
    rw [hfor] at hq
    cases hq
    have hof : p.schemeOf t a = p.newScheme t a := by rw [schemeOf, hs, Option.getD_none]
    -- The new scheme comes last, and the others do not have its name.
    have hnew : (p.schemes ++ [p.newScheme t a]).map
        (fun s => if s.name = a.name then
          SchemeChange.applyAll s (declaredChanges d (test.bind p.entryOf)) else s) =
        p.schemes ++ [SchemeChange.applyAll (p.newScheme t a)
          (declaredChanges d (test.bind p.entryOf))] := by
      rw [List.map_append, List.map_singleton, if_pos (show (p.newScheme t a).name = a.name from rfl)]
      refine congrArg (· ++ _) ((List.map_congr_left (g := id) fun s hs' => if_neg fun hname => ?_).trans
        (List.map_id _))
      have hfound := scheme?_isSome_iff.2 ⟨s, hs', hname⟩
      rw [hs] at hfound
      cases hfound
    have habsent : ¬(p.scheme? (p.newScheme t a).name).isSome := by
      rw [show (p.newScheme t a).name = a.name from rfl, hs]
      exact Bool.false_ne_true
    rw [configureScheme_eq (hpath.wellFormed hp) d hfor hsome hnone, hof, changeScheme, hnew,
      withScheme, SchemeChange.name_applyAll, if_neg habsent]

/-- Once the scheme of a target has been set up, there is nothing to do any more. -/
theorem configureScheme_of_configureScheme (hp : p.WellFormed) (ha : p.content? t = some (.target a))
    (d : Declaration) {test : Option ObjectId}
    (htest : ∀ u ∈ test, ∃ b, p.content? u = some (.target b)) {name : String}
    (h : configureScheme d t test p = .ok name q) : configureScheme d t test q = .ok name q := by
  obtain ⟨hsome, hnone⟩ := testEntryOf htest
  obtain ⟨q', hq', hpath, hsettled⟩ := exists_configureScheme hp d ha test _ hsome hnone
  rw [hq'] at h
  cases h
  have hcontent := content?_of_path_schemeSteps (hpath.mono fun _ _ h => h.schemeSteps)
  refine configureScheme_of_settled (hpath.wellFormed hp) d ((hcontent t).trans ha) ?_ hnone hsettled
  intro u hu
  obtain ⟨b, hb, hentry⟩ := hsome u hu
  exact ⟨b, (hcontent u).trans hb, by rw [hentry, buildableOf_congr hcontent]⟩

end Project
end ProjectGraph
