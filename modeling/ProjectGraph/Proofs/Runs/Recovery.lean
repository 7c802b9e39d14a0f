import ProjectGraph.Proofs.Builds.Frame
import ProjectGraph.Proofs.Builds.Obstacles
import ProjectGraph.Proofs.Digest
import ProjectGraph.Proofs.Runs.Owners
import ProjectGraph.Proofs.Runs.Split

/-! # Runs after failed runs

A run that fails in the middle of a target leaves the target in the project, without the parts that it
has not come to. No later build is kept from completing by such remains, and a build of the same target
adds what it lacks. But each run checks all targets of the project, so it is refused as long as one of
them has not been finished. -/

namespace ProjectGraph

open Project

section

variable [IdScheme] {p q : Project} {as : List Attempt} {a : Attempt} {name : String}

/-! ## Unfinished targets -/

/-- The project has a target with this name that lacks its configurations or its product. -/
def Project.Unfinished (p : Project) (name : String) : Prop :=
  ∃ t b, p.content? t = some (.target b) ∧ b.name = name ∧
    (b.configurationList = none ∨ b.productReference = none)

omit [IdScheme] in
theorem Project.complete_iff : p.Complete ↔ ∀ name, ¬ p.Unfinished name := by
  constructor
  · rintro h name ⟨t, b, hb, -, hlacks⟩
    obtain ⟨hlist, hproduct⟩ := h t b hb
    rcases hlacks with hnone | hnone
    · simp [hnone] at hlist
    · simp [hnone] at hproduct
  · intro h t b hb
    simp only [Option.isSome_iff_ne_none]
    exact ⟨fun hnone => h b.name ⟨t, b, hb, rfl, .inl hnone⟩,
      fun hnone => h b.name ⟨t, b, hb, rfl, .inr hnone⟩⟩

/-- A build that completes finishes its target, and no other one. -/
theorem Attempt.Completes.unfinished_iff (h : a.Completes) (ha : a.before.project.Regular) :
    a.after.project.Unfinished name ↔ a.before.project.Unfinished name ∧ name ≠ a.target.name := by
  have hpath := a.path ha.wellFormed
  have hspares := hpath.spares ha.wellFormed ha.owned
  constructor
  · rintro ⟨t, b, hb, rfl, hlacks⟩
    have hne : b.name ≠ a.target.name := by
      intro hname
      obtain ⟨hlist, hproduct⟩ := h.finished ha.wellFormed hb hname
      rcases hlacks with hnone | hnone
      · simp [hnone] at hlist
      · simp [hnone] at hproduct
    obtain ⟨c, hc⟩ := (hpath.mono fun _ _ hs => hs.inBuild).exists_target_of_inBuild ha.wellFormed hb hne
    obtain ⟨c', hc', hname, -⟩ := hpath.grows.target hc
    rw [hb] at hc'
    cases hc'
    obtain ⟨-, hsame⟩ := hspares.others t c hc (hname ▸ hne) t .refl
    rw [hb] at hsame
    exact ⟨⟨t, b, hsame.symm, rfl, hlacks⟩, hne⟩
  · rintro ⟨⟨t, b, hb, rfl, hlacks⟩, hne⟩
    obtain ⟨-, hsame⟩ := hspares.others t b hb hne t .refl
    exact ⟨t, b, hsame.trans hb, rfl, hlacks⟩

/-- Builds that complete finish their targets, and no other ones. -/
theorem Trace.unfinished_iff (h : Trace p as q) (hp : p.Regular) (hall : ∀ a ∈ as, a.Completes) :
    q.Unfinished name ↔ p.Unfinished name ∧ ∀ a ∈ as, name ≠ a.target.name := by
  induction h with
  | refl => simp
  | build a trace ih =>
    rw [(hall a (by simp)).unfinished_iff (trace.regular hp), ih fun b hb => hall b (by simp [hb])]
    simp only [List.mem_append, List.mem_singleton]
    constructor
    · rintro ⟨⟨h, hne⟩, hlast⟩
      refine ⟨h, ?_⟩
      rintro b (hb | rfl)
      · exact hne b hb
      · exact hlast
    · rintro ⟨h, hne⟩
      exact ⟨⟨h, fun b hb => hne b (.inl hb)⟩, hne a (.inr rfl)⟩
  | schemes _ path ih =>
    rw [← ih hall]
    unfold Project.Unfinished
    simp only [Project.content?_of_path_schemeSteps (path.mono fun _ _ hs => hs.schemeSteps)]

/-! ## The check of unfinished targets -/

/-- A regular project passes its check, or the check reports targets that have not been finished. -/
theorem Project.Regular.checkProject_of_unfinished (hp : p.Regular) (h : p.Unfinished name) :
    ∃ problems, Generator.checkProject p = .error (.invalidTargets problems) p := by
  obtain ⟨r, hr⟩ := hp.wellFormed.record
  obtain ⟨t, b, hb, -, hlacks⟩ := h
  obtain ⟨ref, href, rfl⟩ := List.mem_map.1 (hp.owned.mem_targets hp.wellFormed hr hb)
  obtain ⟨o, ho, hcontent⟩ := exists_find?_of_content? hb
  have hmem : o ∈ p.objectsAt r.targets := mem_objectsAt.2 ⟨ref, href, ho⟩
  obtain ⟨found, hfound⟩ := Snapshot.mapM_lacksOf fun o => p.mem_nativeTargets hp.wellFormed hr (o := o)
  have htargets : (p.snapshotOf r).targetProblems = .ok found.flatten := by
    show ((p.objectsAt r.targets).mapM Snapshot.lacksOf >>= fun ps => pure ps.flatten) = _
    rw [hfound]
    rfl
  -- The unfinished target is one of those that the check goes through.
  have hproblems : found.flatten ≠ [] := by
    intro hnone
    rw [hnone, Snapshot.targetProblems_eq_nil_iff] at htargets
    obtain ⟨hlist, hproduct⟩ := (Snapshot.has_parts_of_target hcontent).1 (htargets o hmem)
    rcases hlacks with hlacks | hlacks
    · simp [hlacks] at hlist
    · simp [hlacks] at hproduct
  have hcheck : (p.snapshotOf r).check = .error (.invalidTargets found.flatten) := by
    unfold Snapshot.check
    rw [htargets, hp.referenceProblems hr, hp.schemeProblems hr]
    show (if found.flatten ++ [] ≠ [] then Except.error (Error.invalidTargets (found.flatten ++ []))
      else .ok ()) = _
    rw [List.append_nil, if_pos hproblems]
  exact ⟨_, by rw [Generator.checkProject_eq hp.wellFormed hr, hcheck]⟩

end

section

variable [IdScheme] {s s' u u' : BuildState} {d : Target} {ds : List Declaration} {t : ObjectId}

/-! ## Building into two projects -/

/-- The first state knows at least as many products as the second one, and they have the same files,
apart from the script. -/
structure BuildState.Trails (s u : BuildState) : Prop where
  files : s.Follows u
  regular : s.project.Regular
  model : u.project.Regular
  products : ∀ n, u.project.product? n ≠ none → s.project.product? n ≠ none

namespace Build

theorem unhindered_build (h : s.Trails u) (hbuild : build d u = .ok t u') :
    Unhindered (build d) s fun t s' => s'.Trails u' ∧ s'.project.Produces t := by
  have hmodel := ((Leads.of_ok (performs_build h.model.wellFormed d) hbuild).1).regular_of_buildStep h.model
  rw [build_eq] at hbuild
  obtain ⟨r, hreported, -⟩ := exists_of_map_eq_ok hbuild
  have hfirst := unhindered_reportedBuild h.files h.regular.wellFormed h.model.wellFormed h.model.apart
    h.products hreported
  have hmap : Unhindered (build d) s fun _ s' =>
      s'.Follows u' ∧ ∀ n, u'.project.product? n ≠ none → s'.project.product? n ≠ none := by
    rw [build_eq, ← bind_pure_comp]
    exact Leads.bind hfirst fun _ _ h => Leads.of_eq_ok rfl h
  refine ((performs_build h.regular.wellFormed d).and hmap).mono ?_ fun _ _ h => h.2
  rintro t s' ⟨⟨hpath, names, hbuilt⟩, hfiles, hproducts⟩
  exact ⟨⟨hfiles, hpath.regular_of_buildStep h.regular, hmodel, hproducts⟩, hbuilt.established.produces⟩

/-- A part of a build that attempts no build keeps regular projects regular, and makes no products. -/
theorem Attempts.keeps {α : Type} {x : Build α} {a : α} (hx : x.Attempts s []) (hs : s.project.Regular)
    (h : x s = .ok a s') :
    s'.project.Regular ∧ ∀ n, s'.project.product? n ≠ none ↔ s.project.product? n ≠ none := by
  have htrace := hx.trace
  rw [stateAfter_of_ok h] at htrace
  refine ⟨htrace.regular hs, fun n => ⟨fun hn => ?_, fun hn => ?_⟩⟩
  · simpa using htrace.exists_registers hs hn
  · obtain ⟨f, hf⟩ := Option.ne_none_iff_exists'.1 hn
    rw [product?_of_grows hs.wellFormed hf (htrace.grows hs.wellFormed)]
    simp

/-- Schemes are set up in both projects. -/
theorem unhindered_edit_of_attempts {α : Type} {x y : Edit α} {v : PUnit} (h : s.Trails u)
    (hs : Attempts (discard (edit x)) s []) (hu : Attempts (discard (edit y)) u [])
    (hok : discard (edit y) u = .ok v u') :
    Unhindered (discard (edit x)) s fun _ s' => s'.Trails u' := by
  obtain ⟨_, hx⟩ := exists_of_failureOf_eq_none (hs.completes_iff.2 (by simp))
  obtain ⟨hregular, hproducts⟩ := hs.keeps h.regular hx
  obtain ⟨hmodel, hproducts'⟩ := hu.keeps h.model hok
  obtain ⟨_, hedit⟩ := exists_of_discard_eq_ok hx
  obtain ⟨_, hedit'⟩ := exists_of_discard_eq_ok hok
  refine Leads.of_eq_ok hx ⟨?_, hregular, hmodel, fun n hn => ?_⟩
  · exact h.files.of_sameFiles (exists_of_edit_eq_ok hedit).2 (exists_of_edit_eq_ok hedit').2
  · exact (hproducts n).2 (h.products n ((hproducts' n).1 hn))

theorem unhindered_buildDeclaration {e : Declaration} {v : Unit} (h : s.Trails u)
    (hok : Generator.buildDeclaration e u = .ok v u') :
    Unhindered (Generator.buildDeclaration e) s fun _ s' => s'.Trails u' := by
  obtain ⟨t', u₁, htarget, hok⟩ := exists_of_bind_eq_ok hok
  obtain ⟨hu₁, ht'⟩ := produces_of_build h.model.wellFormed htarget
  refine Leads.bind (unhindered_build h htarget) ?_
  rintro t s₁ ⟨h₁, ht⟩
  have hs₁ := h₁.regular.wellFormed
  cases htest : e.test with
  | none =>
    rw [htest] at hok
    exact unhindered_edit_of_attempts h₁ (attempts_configureScheme hs₁ e ht none (by simp))
      (attempts_configureScheme hu₁ e ht' none (by simp)) hok
  | some test =>
    rw [htest] at hok
    obtain ⟨_, u₂, hmap, hok⟩ := exists_of_bind_eq_ok hok
    obtain ⟨v, hbuild, rfl⟩ := exists_of_map_eq_ok hmap
    obtain ⟨hu₂, hv'⟩ := produces_of_build hu₁ hbuild
    have ht' := ht'.grows (Leads.of_ok (performs_build hu₁ test) hbuild).1.grows
    have htests : Unhindered (some <$> build test) s₁ fun r s₂ => s₂.Trails u₂ ∧
        s₂.project.Produces t ∧ ∀ v ∈ r, s₂.project.Produces v := by
      rw [← bind_pure_comp]
      refine Leads.bind ((performs_build hs₁ test).and (unhindered_build h₁ hbuild) |>.mono
        (fun _ _ h => h) fun _ _ h => h.2) ?_
      rintro v s₂ ⟨⟨hpath, -⟩, h₂, hv⟩
      exact Leads.of_eq_ok rfl ⟨h₂, ht.grows hpath.grows, by rintro _ ⟨⟩; exact hv⟩
    refine Leads.bind htests ?_
    rintro r s₂ ⟨h₂, ht, hr⟩
    exact unhindered_edit_of_attempts h₂
      (attempts_configureScheme h₂.regular.wellFormed e ht r hr)
      (attempts_configureScheme hu₂ e ht' (some v) (by rintro _ ⟨⟩; exact hv')) hok

theorem unhindered_forM {v : PUnit} (h : s.Trails u)
    (hok : ds.forM Generator.buildDeclaration u = .ok v u') :
    Unhindered (ds.forM Generator.buildDeclaration) s fun _ s' => s'.Trails u' := by
  induction ds generalizing s u with
  | nil =>
    cases hok
    exact Leads.of_eq_ok (a := PUnit.unit) rfl h
  | cons e ds ih =>
    obtain ⟨_, u₁, hfirst, hrest⟩ := exists_of_bind_eq_ok hok
    exact Leads.bind (unhindered_buildDeclaration h hfirst) fun _ s₁ h₁ => ih h₁ hrest

end Build

/-! ## Runs on used generators -/

namespace Generator

variable {g : Generator} {w w₁ : Workspace} {outcomes : List (Option Error)} {config : Config}
  {p₀ : Project} {lines : List String}

theorem Runs.runReachable {p : Project} (h : g.Runs outcomes p) : RunReachable p := by
  induction h with
  | start start => exact .new (ofValue_of_start start)
  | run _ ds ih => exact ih.run g ds

/-- What is unfinished after a run that has built its targets has been so before, and has not been
built. -/
theorem unfinished_run_iff {s' : BuildState} {v : PUnit} (hw : w.project.Regular)
    (hnames : checkNames ds = .ok ())
    (hbuilds : ds.forM buildDeclaration (g.startState w) = .ok v s') (name : String) :
    (stateAfter (g.run ds) w).project.Unfinished name ↔
      w.project.Unfinished name ∧ name ∉ targetNames ds := by
  have htargets : (g.attempts ds w).map Attempt.target = ds.flatMap Declaration.targets := by
    rw [attempts_of_checkNames hnames]
    exact attemptsOf_of_ok hbuilds
  have hcompletes := completes_of_forM hw.wellFormed hnames hbuilds
  rw [(trace_run hw.wellFormed g ds).unfinished_iff hw hcompletes, targetNames, ← htargets]
  simp [eq_comm]

/-- A run that succeeds on a new generator ends on a used one in one of three ways. It succeeds, and
then it has built each target that earlier runs have left unfinished. It comes upon an id that is taken,
which cannot be if ids tell keys apart and names keep the owners of configurations apart. Or all of its
builds complete, and its check refuses the project because of an unfinished target that the run does not
declare. -/
theorem Runs.outcome_of_fresh (h : g.Runs outcomes w.project)
    (hstart : Generator.start w.tree config = .ok (g, p₀))
    (hfresh : g.run ds ⟨p₀, w.tree, lines⟩ = .ok () w₁) :
    (failureOf (g.run ds) w = none ∧
      ∀ name, w.project.Unfinished name → name ∈ targetNames ds) ∨
    (∃ i key, failureOf (g.run ds) w = some (.duplicateId i key) ∧
      ¬ (Function.Injective IdScheme.ofKey ∧ OwnersApart w.project.configurationNames
        fun name => w.project.NamesTarget name ∨ name ∈ targetNames ds)) ∨
    (∀ a ∈ g.attempts ds w, a.Completes) ∧
      ∃ problems name, failureOf (g.run ds) w = some (.invalidTargets problems) ∧
        w.project.Unfinished name ∧ name ∉ targetNames ds := by
  have hw := h.regular
  have hnew := ofValue_of_start hstart
  have hp₀ := regular_of_ofValue hnew
  obtain ⟨hnames, u, hu, -⟩ := exists_of_run_eq_ok hp₀.wellFormed hfresh
  have htrails : (g.startState w).Trails (g.startState ⟨p₀, w.tree, lines⟩) :=
    ⟨.inl ⟨rfl, rfl⟩, hw, hp₀, fun n hn => absurd (product?_of_ofValue hnew n) hn⟩
  have hunhindered := Build.unhindered_forM htrails hu
  cases hbuilds : ds.forM buildDeclaration (g.startState w) with
  | error e s' =>
    -- The files are no obstacle, so an id has been taken.
    have hinner : ¬ e.IsOuter := Leads.of_error hunhindered hbuilds
    have hfails : failureOf (g.run ds) w = some e := by
      rw [failureOf_run, buildAll_of_checkNames hnames]
      exact failureOf_of_error (bind_of_error hbuilds)
    cases (performs_run hw.wellFormed hw.owned g ds).outcome.2 e hfails with
    | outer outer => exact absurd outer hinner
    | @clash _ c _ _ _ _ =>
      refine .inr (.inl ⟨c.id, c.key, hfails, ?_⟩)
      rintro ⟨hinj, hap⟩
      exact h.runReachable.failure_ne_duplicateId hinj g ds hap c.id c.key hfails
  | ok v s' =>
    have hcompletes := completes_of_forM hw.wellFormed hnames hbuilds
    have hcheck := ((run_cases hw.wellFormed hw.owned g ds).resolve_left
      fun ⟨_, _, _, hnot⟩ => hnot ⟨hnames, hcompletes⟩).2.2
    have hregular := (trace_run hw.wellFormed g ds).regular hw
    have hleft := unfinished_run_iff hw hnames hbuilds
    by_cases hfinished : ∀ name, ¬ (stateAfter (g.run ds) w).project.Unfinished name
    · have hfaultless := hregular.faultless (complete_iff.2 hfinished)
      refine .inl ⟨hcheck.trans (failureOf_of_ok hfaultless.checkProject), fun name hname => ?_⟩
      by_contra hnot
      exact hfinished name ((hleft name).2 ⟨hname, hnot⟩)
    · push Not at hfinished
      obtain ⟨name, hname⟩ := hfinished
      obtain ⟨problems, hrefused⟩ := hregular.checkProject_of_unfinished hname
      have hfails := hcheck.trans (failureOf_of_error hrefused)
      exact .inr (.inr ⟨hcompletes, problems, name, hfails, (hleft name).1 hname⟩)

end Generator

end

/-! ## A framework that cannot be searched for -/

/-- A framework with a pattern that is refused. -/
def unsearchable : Declaration where
  target := { bareFramework "App" [] with includeFiles := [""] }

/-- The run of a framework fails because of a pattern. On the same generator the framework is built
without this pattern, as it is on a new one. -/
theorem outcome_of_unsearchable :
    letI : IdScheme := spelledScheme
    ∃ (p : Project) (w w₁ : Workspace) (e : Error),
      Generator.start (.withHome []) { projectName := "App", buildConfig := .text "Debug" } =
        .ok (plainGenerator, p) ∧
      plainGenerator.Runs [some e] w.project ∧ w.tree = .withHome [] ∧ w.project.Unfinished "App" ∧
      plainGenerator.run [{ target := bareFramework "App" [] }] ⟨p, w.tree, []⟩ = .ok () w₁ ∧
      failureOf (plainGenerator.run [{ target := bareFramework "App" [] }]) w = none := by
  let _ : IdScheme := spelledScheme
  let t := IdScheme.ofKey "PBXNativeTarget:App"
  let ds : List Declaration := [{ target := bareFramework "App" [] }]
  have hruns : (Project.ofValue "App" (.text "Debug")).toOption.any fun p =>
      let new : Workspace := ⟨p, .withHome [], []⟩
      let used := stateAfter (plainGenerator.run [unsearchable]) new
      failureOf (plainGenerator.run [unsearchable]) new = some (.file .emptyPattern) ∧
      used.tree = .withHome [] ∧ failureOf (plainGenerator.run ds) new = none ∧
      used.project.configurationNames = ["Debug"] ∧
      ((used.project.content? t).bind Content.target?).any
        (fun a => a.name = "App" ∧ a.productReference = none) ∧
      used.project.objects.all fun o => o.content.target?.all fun a => a.name = "App" := by
    decide +kernel
  obtain ⟨p, hnew, hp⟩ := Project.exists_of_ofValue hruns
  obtain ⟨hfails, htree, hfresh, hnames, htarget, hnamed⟩ := of_decide_eq_true hp
  obtain ⟨_, hrun⟩ := exists_of_failureOf_eq_none hfresh
  obtain ⟨a, hview, h⟩ := (Option.any_eq_true _ _).1 htarget
  obtain ⟨hname, hnone⟩ := of_decide_eq_true h
  have hstart := start_of_ofValue (.withHome []) rfl hnew
  let w := stateAfter (plainGenerator.run [unsearchable]) ⟨p, .withHome [], []⟩
  have hused : plainGenerator.Runs [some (.file .emptyPattern)] w.project := by
    have hlast := (Generator.Runs.start hstart).run (w := ⟨p, .withHome [], []⟩) [unsearchable]
    rwa [hfails] at hlast
  have happ : ∀ name, w.project.NamesTarget name → name = "App" := fun name h =>
    of_decide_eq_true (h.of_all (f := fun name => name = "App") hnamed)
  have hap : OwnersApart w.project.configurationNames
      fun name => w.project.NamesTarget name ∨ name ∈ targetNames ds := by
    have hall : ∀ name, (w.project.NamesTarget name ∨ name ∈ targetNames ds) → name = "App" := by
      rintro name (h | h)
      · exact happ name h
      · simpa [ds, targetNames, Declaration.targets, bareFramework] using h
    rw [show w.project.configurationNames = ["Debug"] from hnames]
    refine .of_colonFree (by decide) (fun h => ?_) fun h => ?_
    · exact absurd (hall _ h) (by decide)
    · exact absurd (hall _ h.1) (by decide)
  have hunfinished : w.project.Unfinished "App" :=
    ⟨t, a, content?_of_target? hview, hname, .inr hnone⟩
  rw [show Workspace.mk p (.withHome []) [] = ⟨p, w.tree, []⟩ by rw [htree]] at hrun
  refine ⟨p, w, _, _, hstart, hused, htree, hunfinished, hrun, ?_⟩
  rcases hused.outcome_of_fresh (htree.symm ▸ hstart) hrun with ⟨hnone, -⟩ | ⟨i, key, -, hnot⟩ |
    ⟨-, problems, name, -, ⟨u, b, hb, hname, -⟩, hnot⟩
  · exact hnone
  · exact absurd ⟨ofKey_spelledScheme_injective, hap⟩ hnot
  · rw [happ name ⟨u, b, hb, hname⟩] at hnot
    exact absurd (by decide) hnot

/-- A failed run can keep a generator from accepting any other target: it has left a target without a
product, and the next run does not build this target. -/
theorem invalidTargets_of_unsearchable :
    ∃ (p : Project) (w w₁ : Workspace),
      Generator.start (.withHome []) { projectName := "App", buildConfig := .text "Debug" } =
        .ok (plainGenerator, p) ∧
      w = stateAfter (plainGenerator.run [unsearchable]) ⟨p, .withHome [], []⟩ ∧
      failureOf (plainGenerator.run [unsearchable]) ⟨p, .withHome [], []⟩ =
        some (.file .emptyPattern) ∧
      w.tree = .withHome [] ∧
      plainGenerator.run [{ target := bareFramework "Kit" [] }] ⟨p, .withHome [], []⟩ = .ok () w₁ ∧
      failureOf (plainGenerator.run [{ target := bareFramework "Kit" [] }]) w =
        some (.invalidTargets ["Target App has no product reference"]) := by
  have hruns : (Project.ofValue "App" (.text "Debug")).toOption.any fun p =>
      let new : Workspace := ⟨p, .withHome [], []⟩
      let used := stateAfter (plainGenerator.run [unsearchable]) new
      failureOf (plainGenerator.run [unsearchable]) new = some (.file .emptyPattern) ∧
      used.tree = .withHome [] ∧
      failureOf (plainGenerator.run [{ target := bareFramework "Kit" [] }]) new = none ∧
      failureOf (plainGenerator.run [{ target := bareFramework "Kit" [] }]) used =
        some (.invalidTargets ["Target App has no product reference"]) := by
    rw [ObjectId.digestScheme_eq]
    decide +kernel
  obtain ⟨p, hnew, hp⟩ := Project.exists_of_ofValue hruns
  obtain ⟨hfails, htree, hfresh, hrefused⟩ := of_decide_eq_true hp
  obtain ⟨_, hrun⟩ := exists_of_failureOf_eq_none hfresh
  exact ⟨p, _, _, start_of_ofValue _ rfl hnew, rfl, hfails, htree, hrun, hrefused⟩

/-- An id can be taken, too, even if ids tell keys apart: names of targets and configurations can make up
the same key. -/
theorem duplicateId_of_nestedName :
    letI : IdScheme := spelledScheme
    ∃ p i, Project.ofValue "App" (.list [.text "Y", .text "X:Y"]) = .ok p ∧
      failureOf (plainGenerator.run [{ target := bareFramework "App:X" [] }]) ⟨p, .withHome [], []⟩ =
        none ∧
      failureOf (plainGenerator.run [{ target := bareFramework "App:X" [] }])
          (stateAfter (plainGenerator.run [{ target := bareFramework "App" [] }])
            ⟨p, .withHome [], []⟩) =
        some (.duplicateId i "XCBuildConfiguration:App:X:Y") := by
  let _ : IdScheme := spelledScheme
  let i := IdScheme.ofKey "XCBuildConfiguration:App:X:Y"
  have hruns : (Project.ofValue "App" (.list [.text "Y", .text "X:Y"])).toOption.any fun p =>
      failureOf (plainGenerator.run [{ target := bareFramework "App:X" [] }]) ⟨p, .withHome [], []⟩ =
        none ∧
      failureOf (plainGenerator.run [{ target := bareFramework "App:X" [] }])
          (stateAfter (plainGenerator.run [{ target := bareFramework "App" [] }])
            ⟨p, .withHome [], []⟩) =
        some (.duplicateId i "XCBuildConfiguration:App:X:Y") := by
    decide +kernel
  obtain ⟨p, hnew, hp⟩ := Project.exists_of_ofValue hruns
  exact ⟨p, i, hnew, of_decide_eq_true hp⟩

end ProjectGraph
