import ProjectGraph.Proofs.Builds.Owners
import ProjectGraph.Proofs.Runs.History

/-! # Configurations of different targets

The configurations of a target have keys that no others have, as long as the names of the targets and
of the configurations keep the owners apart. Then a target can always be given its configurations, and a
run finds no id taken. Names that differ are not enough for this. -/

namespace ProjectGraph

open Project

section

variable [IdScheme] {p q : Project} {d : Target} {ds : List Declaration}

/-! ## Reachable projects are settled -/

theorem Project.settled_of_ofValue {name : String} {value : Value} (h : ofValue name value = .ok p) :
    p.Settled := by
  obtain ⟨names, h⟩ := exists_create_of_ofValue h
  obtain ⟨hne, hp, hn⟩ := eq_of_create h
  have hnames : p.configurationNames = names := by rw [hp]; rfl
  have hcases : ∀ {i c}, p.content? i = some c → c = .group newMainGroup ∨
      c = .group newProductsGroup ∨ (∃ n ∈ names, c = .configuration (newConfiguration n)) ∨
      c = .configurationList (newProjectList names hne) ∨ c = .project (newRecord name names hne) :=
    fun h => mem_initialContents.1 ((content?_initial hp hn).1 h).1
  constructor
  · have hids : p.objects.map Object.id = (initialContents name names hne).map Content.id := by
      rw [hp]
      simp [Content.object]
    have hsublist : (names.map fun n => Content.configuration (newConfiguration n)).Sublist
        (initialContents name names hne) :=
      ((List.sublist_append_left _ _).cons _).cons _
    rw [hids] at hn
    have hconfigurations := hn.sublist (hsublist.map Content.id)
    rw [List.map_map] at hconfigurations
    exact hnames ▸ hconfigurations.of_map
  · intro i c hc
    rcases hcases hc with h | h | ⟨n, hmem, h⟩ | h | h <;> cases h
    exact ⟨.inl rfl, hnames ▸ hmem⟩
  · intro i l hl
    rcases hcases hl with h | h | ⟨n, -, h⟩ | h | h <;> cases h
    exact .inl rfl

theorem Attempt.settled (hinj : Function.Injective IdScheme.ofKey) (a : Attempt)
    (hp : a.before.project.WellFormed) (h : a.before.project.Settled)
    (hap : a.after.project.OwnersApart) : a.after.project.Settled := by
  obtain ⟨q, hq, hset, hpath, -⟩ := Build.exists_settled_build hinj hp h hap
  exact hpath.settled (fun _ _ h => h.2) hq hset

theorem Trace.settled (hinj : Function.Injective IdScheme.ofKey) {as : List Attempt} (h : Trace p as q)
    (hp : p.WellFormed) (hset : p.Settled) (hap : q.OwnersApart) : q.Settled := by
  induction h with
  | refl => exact hset
  | build a trace ih =>
    have hwf := trace.wellFormed hp
    exact a.settled hinj hwf (ih (hap.of_grows (a.path hwf).grows)) hap
  | schemes trace path ih =>
    refine path.settled (fun _ _ h => ?_) (trace.wellFormed hp) (ih (hap.of_grows path.grows))
    exact Step.not_isConfiguring_of_schemeSteps h.schemeSteps

/-- An operation that gives configurations to a target succeeds. -/
theorem Operation.settled (hinj : Function.Injective IdScheme.ofKey) (hp : p.WellFormed)
    {op : Operation} (hv : op.Valid p) (h : p.Settled)
    (hap : (stateAfter op.run p).OwnersApart) : (stateAfter op.run p).Settled := by
  have hperforms := op.performs hp hv
  have hpath := hperforms.outcome.1
  by_cases hop : op.Configures
  · cases op with
    | newConfigurationList t platform language kind =>
      obtain ⟨a, ha⟩ := hv
      obtain ⟨q, hq, hset, -⟩ := exists_settled_newConfigurationList hinj hp h
        (hap.of_grows hpath.grows) ha platform language kind
      have hrun : (Operation.newConfigurationList t platform language kind).run p = .ok () q := hq
      rw [stateAfter_of_ok hrun]
      exact hset
    | _ => cases hop
  · exact hpath.settled (fun _ _ hs hconfiguring => hop (hs.configuring hconfiguring)) hp h

/-- All configurations of a reachable project are in use, if their owners are apart. -/
theorem Reachable.settled (hinj : Function.Injective IdScheme.ofKey) (h : Reachable p)
    (hap : p.OwnersApart) : p.Settled := by
  induction h with
  | new new => exact settled_of_ofValue new
  | move reachable move ih =>
    have hp := reachable.wellFormed
    have hset := ih (hap.of_grows (move.outcome hp reachable.owned).1.grows)
    cases move with
    | operation op valid => exact Operation.settled hinj hp valid hset hap
    | build s d => exact Attempt.settled hinj ⟨d, s⟩ hp hset hap
    | run w g ds => exact (Generator.trace_run hp g ds).settled hinj hp hset hap

/-! ## Runs -/

/-- A build in which owners stay apart finds no id taken. -/
theorem Attempt.failure_ne_duplicateId (hinj : Function.Injective IdScheme.ofKey) (a : Attempt)
    (h : a.before.project.Regular) (hset : a.before.project.Settled)
    (hap : a.after.project.OwnersApart) (i : ObjectId) (key : String) :
    a.failure ≠ some (.duplicateId i key) := by
  intro hfailure
  have hafter := (a.path h.wellFormed).regular_of_buildStep h
  obtain ⟨q, -, -, -, hfails⟩ := Build.exists_settled_build hinj h.wellFormed hset hap
  cases hfails _ hfailure with
  | clash due allowed new taken =>
    obtain ⟨c, hc⟩ := Option.ne_none_iff_exists'.1 taken
    have hnew := Step.not_isConfigurational_of_new allowed.2 new
    have hid := hafter.wellFormed.id_eq _ c hc
    exact Step.key_ne_of_due hafter.wellFormed hafter.owned hafter.findable due allowed.1.orderly new
      hnew hc (hinj hid).symm
  | outer outer => cases outer

/-- The names of targets after a run are those from before and those of the declarations. -/
theorem Path.namesTarget_of_inRun {name : String} (hpq : Path (InRun ds) p q) (hp : p.WellFormed)
    (h : q.NamesTarget name) : p.NamesTarget name ∨ name ∈ targetNames ds := by
  induction hpq with
  | refl => exact .inl h
  | step path due fresh allowed ih =>
    obtain ⟨t, a, ha, rfl⟩ := h
    rcases Step.content?_apply_grows (path.wellFormed hp) due fresh ha with ⟨c, hc, hgrow⟩ | ⟨hnew, -⟩
    · cases hgrow with
      | target name => exact ih ⟨t, _, hc, name.symm⟩
    · obtain ⟨d, hd, ⟨e, he, h⟩ | hscheme⟩ := allowed
      · cases h with
        | target =>
          cases hnew
          exact .inr (List.mem_map_of_mem (List.mem_flatMap.2 ⟨d, hd, he⟩))
        | _ => cases hnew
      · rcases hscheme with ⟨new, -, rfl⟩ | ⟨n, -, change, rfl⟩ <;> cases hnew

/-- Owners stay apart if the declarations keep them apart. -/
theorem Path.ownersApart_of_inRun (hpq : Path (InRun ds) p q) (hp : p.WellFormed)
    (hap : OwnersApart p.configurationNames
      fun name => p.NamesTarget name ∨ name ∈ targetNames ds) : q.OwnersApart := by
  unfold Project.OwnersApart
  rw [hpq.grows.configurationNames]
  exact hap.mono fun name => hpq.namesTarget_of_inRun hp

/-- A run whose targets keep owners apart finds no id taken. -/
theorem RunReachable.failure_ne_duplicateId (hinj : Function.Injective IdScheme.ofKey) {w : Workspace}
    (h : RunReachable w.project) (g : Generator) (ds : List Declaration)
    (hap : OwnersApart w.project.configurationNames
      fun name => w.project.NamesTarget name ∨ name ∈ targetNames ds) (i : ObjectId) (key : String) :
    failureOf (g.run ds) w ≠ some (.duplicateId i key) := by
  intro hfailure
  have hw := h.reachable.wellFormed
  have hpath := (Generator.performs_run hw h.reachable.owned g ds).outcome.1
  have hend := hpath.ownersApart_of_inRun hw hap
  -- The build that fails comes after the earlier ones, and owners have been apart all the time.
  obtain ⟨a, ha, hfails⟩ := Generator.exists_attempt_of_failure hw hfailure id
  obtain ⟨earlier, later, has⟩ := List.append_of_mem ha
  obtain ⟨hearlier, hlater⟩ := (Generator.trace_run hw g ds).split has
  have hregular := hearlier.regular h.regular
  have hbuild := a.path hregular.wellFormed
  have hafter := hend.of_grows (hlater.grows (hbuild.wellFormed hregular.wellFormed))
  have hbefore := hafter.of_grows hbuild.grows
  have hstart := h.reachable.settled hinj (hbefore.of_grows (hearlier.grows hw))
  have hset := hearlier.settled hinj hw hstart hbefore
  exact a.failure_ne_duplicateId hinj hregular hset hafter i key hfails

/-- If ids tell keys apart and names keep the owners of configurations apart, each target of a reachable
project that has no list of configurations can be given one, with one new configuration for each name.
A run over declarations whose names keep owners apart finds no id taken. -/
theorem Reachable.configured_of_ownersApart (hinj : Function.Injective IdScheme.ofKey)
    (h : Reachable p) (hap : p.OwnersApart) :
    (∀ t a platform language kind, p.content? t = some (.target a) → a.configurationList = none →
      ∃ q, newConfigurationList t platform language kind p = .ok () q ∧
        p.Configured q t a
          (p.configurationNames.map (defaultConfiguration a.name platform language kind))) ∧
    (RunReachable p → ∀ (w : Workspace) (g : Generator) (ds : List Declaration), w.project = p →
      OwnersApart p.configurationNames (fun name => p.NamesTarget name ∨ name ∈ targetNames ds) →
        ∀ i key, failureOf (g.run ds) w ≠ some (.duplicateId i key)) := by
  constructor
  · intro t a platform language kind ha hnone
    exact exists_newConfigurationList hinj h.wellFormed (h.settled hinj hap) hap ha hnone platform
      language kind
  · rintro hrun w g ds rfl hnames
    exact hrun.failure_ne_duplicateId hinj g ds hnames

end

/-- A framework with a name of its own. -/
def frameworkNamedKit : Declaration where
  target := { frameworkNamedProject.target with name := "Kit" }

/-- A target that has just been made is given two configurations. A run that declares it finds no id
taken. -/
theorem configured_of_frameworkNamedKit :
    letI : IdScheme := spelledScheme
    ∃ (p q r : Project) (t : ObjectId) (a : NativeTarget),
      Project.ofValue "App" (.list [.text "Debug", .text "Release"]) = .ok p ∧
      q = stateAfter (Operation.newNativeTarget "Kit" .framework).run p ∧ q.OwnersApart ∧
      q.content? t = some (.target a) ∧ a.configurationList = none ∧
      newConfigurationList t .ios .swift .framework q = .ok () r ∧
      q.Configured r t a
        (["Debug", "Release"].map (defaultConfiguration a.name .ios .swift .framework)) ∧
      ∀ i key, failureOf (Generator.run ⟨".", none⟩ [frameworkNamedKit]) ⟨p, .withHome [], []⟩ ≠
        some (.duplicateId i key) := by
  let _ : IdScheme := spelledScheme
  let op : Operation := .newNativeTarget "Kit" .framework
  let t := IdScheme.ofKey "PBXNativeTarget:Kit"
  have hmade : (Project.ofValue "App" (.list [.text "Debug", .text "Release"])).toOption.any fun p =>
      p.configurationNames = ["Debug", "Release"] ∧
        (((stateAfter op.run p).content? t).bind Content.target?).any
          fun a => a.configurationList = none := by
    decide +kernel
  obtain ⟨p, hnew, hp⟩ := Project.exists_of_ofValue hmade
  obtain ⟨hnames, htarget⟩ := of_decide_eq_true hp
  obtain ⟨a, hview, hnone⟩ := (Option.any_eq_true _ _).1 htarget
  have ha := content?_of_target? hview
  have hreachable : Reachable p := .new hnew
  have hwf := hreachable.wellFormed
  have hpath : Path (InRun [frameworkNamedKit]) p (stateAfter op.run p) := by
    refine (performs_newNativeTarget hwf "Kit" .framework).discard.outcome.1.mono ?_
    rintro q _ rfl
    have hmem : frameworkNamedKit.target ∈ frameworkNamedKit.targets := by simp [Declaration.targets]
    exact ⟨_, List.mem_singleton_self _, .inl ⟨_, hmem, .target⟩⟩
  have hkit : ∀ name, (p.NamesTarget name ∨ name ∈ targetNames [frameworkNamedKit]) → name = "Kit" := by
    rintro name (⟨u, b, hb, -⟩ | h)
    · obtain ⟨names, hcreate⟩ := exists_create_of_ofValue hnew
      exact absurd (isInitial_of_create hcreate hb) id
    · simpa [targetNames, Declaration.targets, frameworkNamedKit] using h
  have hap : OwnersApart p.configurationNames
      fun name => p.NamesTarget name ∨ name ∈ targetNames [frameworkNamedKit] := by
    rw [hnames]
    refine .of_colonFree (by decide) (fun h => ?_) fun h => ?_
    · exact absurd (hkit _ h) (by decide)
    · exact absurd (hkit _ h.1) (by decide)
  have hap' := hpath.ownersApart_of_inRun hwf hap
  obtain ⟨hlists, -⟩ := Reachable.configured_of_ownersApart ofKey_spelledScheme_injective
    (.move hreachable (.operation op trivial)) hap'
  obtain ⟨-, hruns⟩ := Reachable.configured_of_ownersApart ofKey_spelledScheme_injective hreachable
    (hap.mono fun _ => .inl)
  obtain ⟨r, hr, hconfigured⟩ := hlists t a .ios .swift .framework ha (of_decide_eq_true hnone)
  rw [hpath.grows.configurationNames, hnames] at hconfigured
  exact ⟨p, _, r, t, a, hnew, rfl, hap', ha, of_decide_eq_true hnone, hr, hconfigured,
    hruns (.new hnew) ⟨p, .withHome [], []⟩ ⟨".", none⟩ [frameworkNamedKit] rfl hap⟩

/-- Names that differ are not enough: ids tell keys apart, there is only one target, and its name is the
one by which the project's own configurations go. -/
theorem duplicate_of_targetNamedProject :
    letI : IdScheme := spelledScheme
    ∃ (p q : Project) (t i : ObjectId) (a : NativeTarget),
      Function.Injective IdScheme.ofKey ∧ Project.ofValue "App" (.text "Debug") = .ok p ∧
      q = stateAfter (Operation.newNativeTarget "PROJECT" .framework).run p ∧ Reachable q ∧
      q.content? t = some (.target a) ∧ a.name = "PROJECT" ∧ a.configurationList = none ∧
      (∀ name, q.NamesTarget name → name = "PROJECT") ∧
      failureOf (newConfigurationList t .ios .swift .framework) q =
        some (.duplicateId i "XCBuildConfiguration:PROJECT:Debug") ∧
      failureOf (Generator.run ⟨".", none⟩ [frameworkNamedProject]) ⟨p, .withHome [], []⟩ =
        some (.duplicateId i "XCBuildConfiguration:PROJECT:Debug") := by
  let _ : IdScheme := spelledScheme
  let op : Operation := .newNativeTarget "PROJECT" .framework
  let t := IdScheme.ofKey "PBXNativeTarget:PROJECT"
  let key := "XCBuildConfiguration:PROJECT:Debug"
  have hclash : (Project.ofValue "App" (.text "Debug")).toOption.any fun p =>
      let q := stateAfter op.run p
      ((q.content? t).bind Content.target?).any
        (fun a => a.name = "PROJECT" ∧ a.configurationList = none) ∧
      (q.objects.all fun o => o.content.target?.all fun a => a.name = "PROJECT") ∧
      failureOf (newConfigurationList t .ios .swift .framework) q =
        some (.duplicateId (IdScheme.ofKey key) key) ∧
      failureOf (Generator.run ⟨".", none⟩ [frameworkNamedProject]) ⟨p, .withHome [], []⟩ =
        some (.duplicateId (IdScheme.ofKey key) key) := by
    decide +kernel
  obtain ⟨p, hnew, hp⟩ := Project.exists_of_ofValue hclash
  obtain ⟨htarget, hnamed, hlist, hrun⟩ := of_decide_eq_true hp
  obtain ⟨a, hview, h⟩ := (Option.any_eq_true _ _).1 htarget
  obtain ⟨hname, hnone⟩ := of_decide_eq_true h
  have ha := content?_of_target? hview
  have hreachable : Reachable (stateAfter op.run p) := .move (.new hnew) (.operation op trivial)
  refine ⟨p, _, t, IdScheme.ofKey key, a, ofKey_spelledScheme_injective, hnew, rfl, hreachable, ha,
    hname, hnone, fun name h => ?_, hlist, hrun⟩
  exact of_decide_eq_true (h.of_all (f := fun name => name = "PROJECT") hnamed)

end ProjectGraph
