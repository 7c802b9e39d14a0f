import ProjectGraph.Proofs.Digest
import ProjectGraph.Proofs.Runs.Linking

/-! # What is copied

A test bundle copies the frameworks that no product stands for. The list of them is set anew by each
build that finds such a framework, so it has nothing in common with what is linked. A build that finds
none leaves the list as it is: what it links now may be copied still. -/

namespace ProjectGraph

section

variable [IdScheme] {p q : Project} {s : Step} {name slot : String} {kind : PhaseKind} {file : ObjectId}
  {script : Script} {as : List Attempt} {a : Attempt}

/-! ## Builds of other targets -/

theorem InBuild.name_of_sets {d : Target} (h : InBuild d q s) (hs : s.Sets q name slot) :
    name = d.name := by
  rcases hs with ⟨i, new, rfl⟩ | ⟨t, b, i, new, rfl, hb, rfl⟩
  · cases h
    rfl
  · cases h with
    | script target => exact Project.IsNamed.unique ⟨b, hb, rfl⟩ target

omit [IdScheme] in
theorem Step.not_sets_of_aimedSteps {owner : String} (h : Project.AimedSteps owner q s) :
    ¬ s.Sets q name slot := by
  rintro (⟨i, new, rfl⟩ | ⟨t, b, i, new, rfl, -⟩)
  · rcases h.schemeSteps with ⟨new, -, h⟩ | ⟨n, -, change, h⟩ <;> cases h
  · rcases h.schemeSteps with ⟨new, -, h⟩ | ⟨n, -, change, h⟩ <;> cases h

/-- Builds of other targets leave the scripts of a target as they are. -/
theorem Trace.scripted_iff (h : Trace p as q) (hp : p.WellFormed)
    (hne : ∀ a ∈ as, a.target.name ≠ name) :
    q.Scripted name slot script ↔ p.Scripted name slot script := by
  induction h with
  | refl => exact .rfl
  | build a trace ih =>
    have ha := trace.wellFormed hp
    refine ((a.path ha).scripted_iff ha fun r s _ hs hsets => ?_).trans
      (ih fun b hb => hne b (List.mem_append_left _ hb))
    exact hne a (by simp) (hs.inBuild.name_of_sets hsets).symm
  | schemes trace path ih =>
    exact (path.scripted_iff (trace.wellFormed hp) fun _ _ _ => Step.not_sets_of_aimedSteps).trans (ih hne)

/-- Builds of other targets leave the files of a target's phases as they are. -/
theorem Trace.joins_iff (h : Trace p as q) (hp : p.WellFormed)
    (hne : ∀ a ∈ as, a.target.name ≠ name) : q.Joins name kind file ↔ p.Joins name kind file := by
  induction h with
  | refl => exact .rfl
  | build a trace ih =>
    have ha := trace.wellFormed hp
    refine ((a.path ha).joins_iff ha fun r s _ hs hfiles => ?_).trans
      (ih fun b hb => hne b (List.mem_append_left _ hb))
    exact hne a (by simp) (hs.inBuild.name_of_files hfiles).symm
  | schemes trace path ih =>
    exact (path.joins_iff (trace.wellFormed hp) fun _ _ _ => Step.not_files_of_aimedSteps).trans (ih hne)

theorem Trace.mem_linkedPaths_iff {path : String} (h : Trace p as q) (hp : p.Regular)
    (hne : ∀ a ∈ as, a.target.name ≠ name) :
    path ∈ q.linkedPaths name ↔ path ∈ p.linkedPaths name := by
  have hq := h.regular hp
  rw [Project.mem_linkedPaths hq.wellFormed hq.owned, Project.mem_linkedPaths hp.wellFormed hp.owned]
  refine exists_congr fun file => ?_
  constructor
  · rintro ⟨g, hjoins, hg, rfl⟩
    have hold := (h.joins_iff hp.wellFormed hne).1 hjoins
    obtain ⟨g', hg'⟩ := hold.exists_file hp.wellFormed
    have hsame := (h.grows hp.wellFormed).file hg'
    rw [hg] at hsame
    cases hsame
    exact ⟨_, hold, hg', rfl⟩
  · rintro ⟨g, hjoins, hg, rfl⟩
    have hgrows := h.grows hp.wellFormed
    exact ⟨g, hjoins.grows hgrows, hgrows.file hg, rfl⟩

/-! ## What a build leaves to copy -/

/-- The dependencies that no product stands for when the build is over. -/
def Attempt.thirdParty (a : Attempt) : List String :=
  a.after.project.thirdParty (Project.frameworkNames a.target.dependencies)

theorem Project.copyInputs_congr (hp : p.WellFormed) (hpo : p.Owned) (hq : q.WellFormed)
    (hqo : q.Owned) (h : ∀ script, q.Scripted name copyFrameworksSlot script ↔
      p.Scripted name copyFrameworksSlot script) : q.copyInputs name = p.copyInputs name := by
  apply Option.ext
  intro inputs
  rw [copyInputs_eq_some hq hqo, copyInputs_eq_some hp hpo]
  exact exists_congr fun script => and_congr_left fun _ => h script

/-- The phase in a target's slot for copying runs the script in the slot. -/
theorem Project.HasScript.scripted {t : ObjectId} (hp : p.WellFormed) (h : p.HasScript t slot script)
    (ht : p.IsNamed t name) : p.Scripted name slot script := by
  obtain ⟨b, hb, rfl⟩ := ht
  obtain ⟨x, hx, hrole⟩ := h
  exact ⟨x.id, x.content, hx.content?.1, hx.target hp hb, hrole⟩

/-- A test that completes and depends on what no product stands for copies this. -/
theorem Attempt.Completes.scripted (h : a.Completes) (hp : a.before.project.WellFormed)
    (hapart : a.before.project.Apart) (htest : a.target.isTest) (hne : a.thirdParty ≠ []) :
    a.after.project.Scripted a.target.name copyFrameworksSlot
      ⟨copyFrameworksName, a.before.builder.copyBody, a.thirdParty⟩ := by
  obtain ⟨t, names, hreported⟩ := h.exists_reported
  obtain ⟨hpath, -, hbuilt, hopen, -⟩ :=
    Leads.of_ok (Build.performs_reportedBuild hp a.target) hreported
  have hnames : a.thirdParty = names := hbuilt.completed.thirdParty_eq (hopen hapart)
  rw [hnames] at hne ⊢
  exact (hbuilt.completed.copies htest hne).scripted (hpath.wellFormed hp) hbuilt.established.isNamed

/-- A test that completes copies what no product stands for, or goes on copying what it has copied. -/
theorem Attempt.Completes.copyInputs (h : a.Completes) (ha : a.before.project.Regular)
    (htest : a.target.isTest) :
    a.after.project.copyInputs a.target.name =
      if a.thirdParty = [] then a.before.project.copyInputs a.target.name
      else some a.thirdParty := by
  have hpath := a.path ha.wellFormed
  have hafter := hpath.regular_of_buildStep ha
  split
  · next hnil =>
    obtain ⟨t, names, hreported⟩ := h.exists_reported
    obtain ⟨-, -, hbuilt, hopen, hprepare⟩ :=
      Leads.of_ok (Build.performs_reportedBuild ha.wellFormed a.target) hreported
    have hnames : a.thirdParty = names := hbuilt.completed.thirdParty_eq (hopen ha.apart)
    rw [hnames] at hnil
    refine Project.copyInputs_congr ha.wellFormed ha.owned hafter.wellFormed hafter.owned fun script => ?_
    refine (hprepare hnil).scripted_iff ha.wellFormed fun _ _ _ hs => ?_
    exact Step.not_sets hs.slot _
  · next hne =>
    rw [Project.copyInputs_eq_some hafter.wellFormed hafter.owned]
    exact ⟨_, h.scripted ha.wellFormed ha.apart htest hne, rfl⟩

/-- What is linked after a build is a product. -/
theorem Project.product?_of_linkedPaths {path : String} (hp : p.Regular)
    (h : path ∈ p.linkedPaths name) : p.product? path ≠ none := by
  obtain ⟨file, g, hjoins, hg, rfl⟩ := (mem_linkedPaths hp.wellFormed hp.owned).1 h
  obtain ⟨n, f, hf, rfl⟩ := hp.sound.linked file name hjoins
  obtain ⟨hfile, rfl⟩ := content?_of_product? hf
  rw [hg] at hfile
  cases hfile
  simp [hf]

/-! ## What a run leaves to copy -/

/-- After a run that succeeds no test copies a dependency that it has found to be a third-party one and
is linked with. The frameworks that the test copies are the third-party ones, if it has found any.
Otherwise they are the ones that it has copied before the run. -/
theorem RunReachable.copyInputs_of_run {w w' : Workspace} {g : Generator} {ds : List Declaration}
    (h : RunReachable w.project) (hrun : g.run ds w = .ok () w') (ha : a ∈ g.attempts ds w)
    (htest : a.target.isTest) :
    (∀ path ∈ w'.project.linkedPaths a.target.name, path ∉ a.thirdParty) ∧
      w'.project.copyInputs a.target.name =
        if a.thirdParty = [] then w.project.copyInputs a.target.name else some a.thirdParty := by
  have hw := h.regular
  obtain ⟨earlier, later, has⟩ := List.append_of_mem ha
  have htrace := Generator.trace_run hw.wellFormed g ds
  rw [stateAfter_of_ok hrun] at htrace
  obtain ⟨hearlier, hlater⟩ := htrace.split has
  have hbefore := hearlier.regular hw
  have hafter := (a.path hbefore.wellFormed).regular_of_buildStep hbefore
  have hw' := hlater.regular hafter
  -- The run builds no other target of the name.
  have hnodup := g.nodup_attempts ds w
  rw [has, List.map_append, List.map_cons, List.nodup_append, List.nodup_cons] at hnodup
  obtain ⟨-, ⟨hlaterNames, -⟩, hearlierNames⟩ := hnodup
  have hne : ∀ e ∈ earlier, e.target.name ≠ a.target.name := fun e he =>
    hearlierNames _ (List.mem_map_of_mem he) _ (by simp)
  have hne' : ∀ e ∈ later, e.target.name ≠ a.target.name := fun e he heq =>
    hlaterNames (heq ▸ List.mem_map_of_mem he)
  constructor
  · intro path hpath hmem
    rw [hlater.mem_linkedPaths_iff hafter hne'] at hpath
    exact Project.product?_of_linkedPaths hafter hpath (Project.mem_thirdParty.1 hmem).2
  · have hcompletes := Generator.completes_of_run hw.wellFormed hw.owned hrun a ha
    rw [Project.copyInputs_congr hafter.wellFormed hafter.owned hw'.wellFormed hw'.owned fun _ =>
        hlater.scripted_iff hafter.wellFormed hne',
      hcompletes.copyInputs hbefore htest,
      Project.copyInputs_congr hw.wellFormed hw.owned hbefore.wellFormed hbefore.owned fun _ =>
        hearlier.scripted_iff hw.wellFormed hne]

end

/-! ## A framework that is both linked and copied -/

/-- A test bundle without files, for one platform. -/
def bareTest (name : String) (dependencies : List String) : Target :=
  { bareFramework name dependencies with kind := .unitTestBundle }

/-- A test bundle that depends on a framework which is declared after it. -/
def testBeforeFramework : List Declaration :=
  [{ target := bareTest "Tests" ["Core"] }, { target := bareFramework "Core" [] }]

/-- A test bundle takes a framework that is built after it for a third-party one, and links it in the
next run. -/
theorem exists_testBeforeFramework :
    ∃ p w w', Project.ofValue "App" (.text "Debug") = .ok p ∧
      (firstBuild (bareTest "Tests" ["Core"]) p).thirdParty = ["Core.framework"] ∧
        plainGenerator.run testBeforeFramework ⟨p, .withHome [], []⟩ = .ok () w ∧
          plainGenerator.run testBeforeFramework w = .ok () w' ∧
            w'.project.linkedPaths "Tests" = ["Core.framework"] ∧
              w'.project.copyInputs "Tests" = some ["Core.framework"] := by
  have hboth : (Project.ofValue "App" (.text "Debug")).toOption.any fun p =>
      let run := plainGenerator.run testBeforeFramework
      let w : Workspace := ⟨p, .withHome [], []⟩
      let w' := stateAfter run w
      let w'' := stateAfter run w'
      (firstBuild (bareTest "Tests" ["Core"]) p).thirdParty = ["Core.framework"] ∧
        failureOf run w = none ∧ failureOf run w' = none ∧
          w''.project.linkedPaths "Tests" = ["Core.framework"] ∧
            w''.project.copyInputs "Tests" = some ["Core.framework"] := by
    rw [ObjectId.digestScheme_eq]
    decide +kernel
  obtain ⟨p, hnew, hp⟩ := Project.exists_of_ofValue hboth
  obtain ⟨hthirdParty, hfirst, hsecond, hrest⟩ := of_decide_eq_true hp
  obtain ⟨_, hfirst⟩ := exists_of_failureOf_eq_none hfirst
  obtain ⟨_, hsecond⟩ := exists_of_failureOf_eq_none hsecond
  exact ⟨p, _, _, hnew, hthirdParty, hfirst, hsecond, hrest⟩

/-- Two runs of the same declarations both succeed. After the second one the test bundle is linked with
a framework that it still copies. -/
theorem linked_and_copied_of_testBeforeFramework :
    ∃ p w w', Project.ofValue "App" (.text "Debug") = .ok p ∧
      plainGenerator.run testBeforeFramework ⟨p, .withHome [], []⟩ = .ok () w ∧
        plainGenerator.run testBeforeFramework w = .ok () w' ∧
          w'.project.linkedPaths "Tests" = ["Core.framework"] ∧
            w'.project.copyInputs "Tests" = some ["Core.framework"] := by
  obtain ⟨p, w, w', hnew, -, hrest⟩ := exists_testBeforeFramework
  exact ⟨p, w, w', hnew, hrest⟩

/-- After the first run the test bundle copies the framework, and is not linked with it. -/
theorem copyInputs_of_testBeforeFramework :
    ∃ p w, Project.ofValue "App" (.text "Debug") = .ok p ∧
      plainGenerator.run testBeforeFramework ⟨p, .withHome [], []⟩ = .ok () w ∧
        w.project.copyInputs "Tests" = some ["Core.framework"] ∧
          "Core.framework" ∉ w.project.linkedPaths "Tests" := by
  obtain ⟨p, w, w', hnew, hthirdParty, hrun, -⟩ := exists_testBeforeFramework
  have hattempt : firstBuild (bareTest "Tests" ["Core"]) p ∈
      plainGenerator.attempts testBeforeFramework ⟨p, .withHome [], []⟩ := by
    rw [Generator.attempts_of_checkNames rfl]
    exact List.mem_append_left _ (List.mem_cons_self ..)
  obtain ⟨hdisjoint, hcopied⟩ := RunReachable.copyInputs_of_run (.new hnew) hrun hattempt rfl
  rw [hthirdParty] at hdisjoint hcopied
  exact ⟨p, w, hnew, hrun, hcopied, fun h => hdisjoint _ h (List.mem_singleton_self _)⟩

end ProjectGraph
