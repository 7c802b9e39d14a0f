import ProjectGraph.Proofs.Digest
import ProjectGraph.Proofs.Runs.Copying
import ProjectGraph.Proofs.Schemes.Arranged

/-! # Schemes of reachable projects

Whatever is done to a project, each scheme belongs to the target of its name. Runs of generators make
schemes for exactly those declarations of which they have built all targets. -/

namespace ProjectGraph

section

variable [IdScheme] {p q : Project} {e : Option Error} {as : List Attempt} {s : BuildState}

/-! ## Moves keep schemes in order -/

theorem Project.schemes_of_ofValue {name : String} {value : Value} (h : ofValue name value = .ok p) :
    p.schemes = [] := by
  obtain ⟨names, h⟩ := exists_create_of_ofValue h
  obtain ⟨hne, heq, -⟩ := eq_of_create h
  rw [heq]
  rfl

theorem Project.schemesArranged_of_ofValue {name : String} {value : Value}
    (h : ofValue name value = .ok p) : p.SchemesArranged := by
  have hnil := schemes_of_ofValue h
  constructor <;> simp [hnil]

theorem Attempt.schemesArranged (a : Attempt) (hp : a.before.project.WellFormed)
    (h : a.before.project.SchemesArranged) : a.after.project.SchemesArranged :=
  h.grows (a.path hp).grows (a.path hp).schemes_of_buildStep

theorem Trace.schemesArranged (h : Trace p as q) (hp : p.WellFormed) (ho : p.Owned)
    (ha : p.SchemesArranged) : q.SchemesArranged := by
  suffices q.Owned ∧ q.SchemesArranged from this.2
  induction h with
  | refl => exact ⟨ho, ha⟩
  | build a trace ih =>
    have hbefore := trace.wellFormed hp
    exact ⟨(a.path hbefore).owned hbefore ih.1, a.schemesArranged hbefore ih.2⟩
  | schemes trace path ih =>
    have hbefore := trace.wellFormed hp
    exact ⟨path.owned hbefore ih.1, path.schemesArranged hbefore ih.1
      (fun _ _ hs => hs.toArrangingSteps.arranging) ih.2⟩

theorem Move.schemesArranged (h : Move p e q) (hp : p.WellFormed) (ho : p.Owned)
    (ha : p.SchemesArranged) : q.SchemesArranged := by
  cases h with
  | operation op valid =>
    exact (op.performs hp valid).outcome.1.schemesArranged hp ho (fun _ _ hs => hs.arranging) ha
  | build s d => exact Attempt.schemesArranged ⟨d, s⟩ hp ha
  | run w g ds => exact (Generator.trace_run hp g ds).schemesArranged hp ho ha

/-! ## Projects whose schemes have been set up -/

/-- Moves, and the setting up of schemes by hand, lead to the project from a new one. The targets that a
scheme is set up for are targets of the project, and any description can be given for them. -/
inductive ConfigureReachable : Project → Prop
  | new {name : String} {value : Value} {p : Project} (new : Project.ofValue name value = .ok p) :
      ConfigureReachable p
  | move {p q : Project} {e : Option Error} (reachable : ConfigureReachable p) (move : Move p e q) :
      ConfigureReachable q
  | configure {p : Project} (reachable : ConfigureReachable p) (d : Declaration) (t : ObjectId)
      (test : Option ObjectId) (target : ∃ a, p.content? t = some (.target a))
      (testTarget : ∀ u ∈ test, ∃ b, p.content? u = some (.target b)) :
      ConfigureReachable (stateAfter (Project.configureScheme d t test) p)

theorem ConfigureReachable.invariant (h : ConfigureReachable p) :
    p.WellFormed ∧ p.Owned ∧ p.SchemesArranged := by
  induction h with
  | new new =>
    obtain ⟨hp, ho⟩ := Project.wellFormed_of_ofValue new
    exact ⟨hp, ho, Project.schemesArranged_of_ofValue new⟩
  | move _ move ih =>
    obtain ⟨hp, ho, ha⟩ := ih
    obtain ⟨hpath, -⟩ := move.outcome hp ho
    exact ⟨hpath.wellFormed hp, hpath.owned hp ho, move.schemesArranged hp ho ha⟩
  | configure _ d t test target testTarget ih =>
    obtain ⟨hp, ho, ha⟩ := ih
    obtain ⟨a, htarget⟩ := target
    obtain ⟨q, hq, hpath, -⟩ := Project.exists_arranging_configureScheme hp d htarget test testTarget
    rw [stateAfter_of_ok hq]
    exact ⟨hpath.wellFormed hp, hpath.owned hp ho,
      hpath.schemesArranged hp ho (fun _ _ hs => hs.arranging) ha⟩

theorem Reachable.configureReachable (h : Reachable p) : ConfigureReachable p := by
  induction h with
  | new new => exact .new new
  | move _ move ih => exact ih.move move

/-! ## Schemes of declarations -/

/-- All targets of the declaration have been built in these attempts. -/
def Declaration.CompletedIn (d : Declaration) (as : List Attempt) : Prop :=
  ∀ t ∈ d.targets, ∃ a ∈ as, a.target = t ∧ a.Completes

instance (d : Declaration) (as : List Attempt) : Decidable (d.CompletedIn as) :=
  inferInstanceAs (Decidable (∀ t ∈ d.targets, ∃ a ∈ as, a.target = t ∧ a.Completes))

/-- The declarations of a run of which all targets have been built, in order. -/
def Generator.completed (g : Generator) (ds : List Declaration) (w : Workspace) : List Declaration :=
  ds.filter fun d => d.CompletedIn (g.attempts ds w)

/-- Runs lead to the project from a new one, whether they have failed or not. The targets of these
declarations have been built, in this order. -/
inductive RunHistory : List Declaration → Project → Prop
  | new {name : String} {value : Value} {p : Project} (new : Project.ofValue name value = .ok p) :
      RunHistory [] p
  | run {ds : List Declaration} {w : Workspace} (history : RunHistory ds w.project) (g : Generator)
      (next : List Declaration) :
      RunHistory (ds ++ g.completed next w) (stateAfter (g.run next) w).project

theorem RunHistory.runReachable {ds : List Declaration} (h : RunHistory ds p) : RunReachable p := by
  induction h with
  | new new => exact .new new
  | run _ g next ih => exact ih.run g next

/-- The project has one scheme for each of the names, in order of first occurrence, and no others. -/
def Project.HasSchemesFor (p : Project) (names : List String) : Prop :=
  p.schemes.map Scheme.name = names.eraseDups

theorem Project.HasSchemesFor.configure {name : String} {names : List String} (h : p.HasSchemesFor names)
    (hpq : Path (Project.ArrangingSteps name) p q) (hmem : ∃ s ∈ q.schemes, s.name = name) :
    q.HasSchemesFor (names ++ [name]) := by
  unfold HasSchemesFor at *
  have hsame : name ∈ p.schemes.map Scheme.name ↔ name ∈ names := by
    rw [h, List.mem_eraseDups]
  have hnew : ∀ q new, Project.ArrangingSteps name q (.scheme new) → new.name = name := by
    rintro q new ⟨⟨_, hname, ⟨⟩⟩ | ⟨_, -, _, ⟨⟩⟩, -⟩
    exact List.mem_singleton.1 hname
  rw [List.eraseDups_append]
  rcases hpq.schemeNames hnew with hq | ⟨habsent, hq⟩
  · have hold : name ∈ names := by
      obtain ⟨s, hs, hname⟩ := hmem
      rw [← hsame, ← hq, ← hname]
      exact List.mem_map_of_mem hs
    simp [hq, h, List.removeAll, hold]
  · rw [hsame] at habsent
    have hone : [name].eraseDups = [name] := rfl
    simp [hq, h, List.removeAll, habsent, hone]

theorem Build.schemes_of_build (hs : s.project.WellFormed) (d : Target) :
    (stateAfter (Build.build d) s).project.schemes = s.project.schemes :=
  (Attempt.path ⟨d, s⟩ hs).schemes_of_buildStep

/-- The scheme of a declaration whose targets have been built comes last, or has been there. -/
theorem Build.schemes_of_configureScheme {names : List String} {t : ObjectId}
    (hs : s.project.WellFormed) (d : Declaration) (ht : s.project.IsNamed t d.target.name)
    (test : Option ObjectId) (htest : ∀ u ∈ test, ∃ b, s.project.content? u = some (.target b))
    (h : s.project.HasSchemesFor names) :
    ∃ s', (discard <| Build.edit (Project.configureScheme d t test)) s = .ok () s' ∧
      s'.project.HasSchemesFor (names ++ [d.target.name]) := by
  obtain ⟨a, ha, hname⟩ := ht
  obtain ⟨q, hq, hpath, hmem⟩ := Project.exists_arranging_configureScheme hs d ha test htest
  rw [hname] at hpath hmem
  exact ⟨_, discard_of_ok (Build.edit_of_eq_ok hq), h.configure hpath hmem⟩

/-- A declaration whose targets can be built gets its scheme. Otherwise schemes stay as they are. -/
theorem Generator.schemes_of_buildDeclaration {names : List String} (hs : s.project.WellFormed)
    (d : Declaration) (h : s.project.HasSchemesFor names) :
    (∃ s', buildDeclaration d s = .ok () s' ∧ s'.project.HasSchemesFor (names ++ [d.target.name])) ∨
      ∃ e s', buildDeclaration d s = .error e s' ∧ s'.project.HasSchemesFor names := by
  have hkept : ∀ {s : BuildState} (e : Target), s.project.WellFormed → s.project.HasSchemesFor names →
      (stateAfter (Build.build e) s).project.HasSchemesFor names := by
    intro s e hs h
    unfold Project.HasSchemesFor
    rw [Build.schemes_of_build hs e]
    exact h
  unfold buildDeclaration
  cases h₁ : Build.build d.target s with
  | error e s₁ =>
    have hs₁ := hkept d.target hs h
    rw [stateAfter_of_error h₁] at hs₁
    exact .inr ⟨e, s₁, bind_of_error h₁, hs₁⟩
  | ok t s₁ =>
    obtain ⟨hpath₁, _, hbuilt⟩ := Leads.of_ok (Build.performs_build hs d.target) h₁
    have hp₁ := hpath₁.wellFormed hs
    have hs₁ := hkept d.target hs h
    have ht := hbuilt.established.isNamed
    rw [stateAfter_of_ok h₁] at hs₁
    rw [bind_of_ok h₁]
    cases d.test with
    | none => exact .inl (Build.schemes_of_configureScheme hp₁ d ht none (by simp) hs₁)
    | some e =>
      simp only
      cases h₂ : Build.build e s₁ with
      | error e' s₂ =>
        have hs₂ := hkept e hp₁ hs₁
        rw [stateAfter_of_error h₂] at hs₂
        exact .inr ⟨e', s₂, bind_of_error (map_of_error h₂), hs₂⟩
      | ok u s₂ =>
        obtain ⟨hpath₂, _, hbuilt'⟩ := Leads.of_ok (Build.performs_build hp₁ e) h₂
        obtain ⟨b, hb, -⟩ := hbuilt'.established.isNamed
        have hs₂ := hkept e hp₁ hs₁
        rw [stateAfter_of_ok h₂] at hs₂
        rw [bind_of_ok (map_of_ok h₂)]
        exact .inl (Build.schemes_of_configureScheme (hpath₂.wellFormed hp₁) d (ht.grows hpath₂.grows)
          (some u) (by rintro _ ⟨⟩; exact ⟨b, hb⟩) hs₂)

/-! ## Which declarations a run completes -/

section

variable {d : Declaration} {ds : List Declaration} {bs : List Attempt}

theorem Declaration.not_completedIn (h : ∀ a ∈ as, a.target ∉ d.targets) : ¬ d.CompletedIn as := by
  intro hcompleted
  obtain ⟨a, ha, htarget, -⟩ := hcompleted d.target (by simp [targets])
  exact h a ha (htarget ▸ by simp [targets])

theorem Declaration.completedIn_append_left (h : ∀ b ∈ bs, b.target ∉ d.targets) :
    d.CompletedIn (as ++ bs) ↔ d.CompletedIn as := by
  refine forall₂_congr fun t ht => ⟨?_, ?_⟩
  · rintro ⟨a, ha, rfl, hcompletes⟩
    rcases List.mem_append.1 ha with ha | ha
    · exact ⟨a, ha, rfl, hcompletes⟩
    · exact absurd ht (h a ha)
  · rintro ⟨a, ha, rfl, hcompletes⟩
    exact ⟨a, List.mem_append_left _ ha, rfl, hcompletes⟩

theorem Declaration.completedIn_append_right (h : ∀ a ∈ as, a.target ∉ d.targets) :
    d.CompletedIn (as ++ bs) ↔ d.CompletedIn bs := by
  refine forall₂_congr fun t ht => ⟨?_, ?_⟩
  · rintro ⟨a, ha, rfl, hcompletes⟩
    rcases List.mem_append.1 ha with ha | ha
    · exact absurd ht (h a ha)
    · exact ⟨a, ha, rfl, hcompletes⟩
  · rintro ⟨a, ha, rfl, hcompletes⟩
    exact ⟨a, List.mem_append_right _ ha, rfl, hcompletes⟩

omit [IdScheme] in
/-- Declarations of one run have no targets in common. -/
theorem disjoint_targets (h : (targetNames (d :: ds)).Nodup) {d' : Declaration} (hd' : d' ∈ ds)
    {t : Target} (ht : t ∈ d.targets) : t ∉ d'.targets := by
  rw [targetNames_cons, List.nodup_append] at h
  intro ht'
  exact h.2.2 t.name (List.mem_map_of_mem ht) t.name
    (List.mem_map_of_mem (List.mem_flatMap.2 ⟨d', hd', ht'⟩)) rfl

/-- The first declaration of a run attempts targets of its own only. -/
theorem Declaration.target_not_mem (hn : (targetNames (d :: ds)).Nodup) {d' : Declaration} (hd' : d' ∈ ds) :
    ∀ a ∈ d.attempts s, a.target ∉ d'.targets := fun _ ha =>
  disjoint_targets hn hd' ((d.sublist_attempts s).subset (List.mem_map_of_mem ha))

/-- A declaration is completed by its own attempts if none of them fails. -/
theorem Declaration.completedIn_iff (hs : s.project.WellFormed) (hn : (targetNames (d :: ds)).Nodup) :
    d.CompletedIn (d.attempts s) ↔ failureOf (Generator.buildDeclaration d) s = none := by
  rw [targetNames_cons, List.nodup_append] at hn
  have hattempts := Generator.attempts_buildDeclaration hs d
  rw [hattempts.completes_iff]
  constructor
  · intro h a ha
    obtain ⟨b, hb, htarget, hcompletes⟩ :=
      h a.target ((d.sublist_attempts s).subset (List.mem_map_of_mem ha))
    -- No target is attempted twice.
    have hnodup := (List.Nodup.of_map _ hn.1).sublist (d.sublist_attempts s)
    obtain rfl := List.inj_on_of_nodup_map hnodup hb ha htarget
    exact hcompletes
  · intro h t ht
    obtain ⟨_, hok⟩ := exists_of_failureOf_eq_none (hattempts.completes_iff.2 h)
    rw [← attempts_of_ok hok] at ht
    obtain ⟨a, ha, rfl⟩ := List.mem_map.1 ht
    exact ⟨a, ha, rfl, h a ha⟩

/-- The targets that are attempted later do not bear on the first declaration, and its own not on the
later ones. -/
theorem Generator.filter_completedIn_of_ok {s' : BuildState} (hs : s.project.WellFormed)
    (hn : (targetNames (d :: ds)).Nodup) (hok : buildDeclaration d s = .ok () s') :
    (d :: ds).filter (fun d' => d'.CompletedIn (attemptsOf (d :: ds) s)) =
      d :: ds.filter fun d' => d'.CompletedIn (attemptsOf ds s') := by
  have hattempts : attemptsOf (d :: ds) s = d.attempts s ++ attemptsOf ds s' := by
    rw [attemptsOf, Build.onSuccess, hok]
  have hlater : ∀ b ∈ attemptsOf ds s', b.target ∉ d.targets := by
    intro b hb ht
    obtain ⟨d', hd', hmem⟩ := List.mem_flatMap.1
      ((sublist_attemptsOf ds s').subset (List.mem_map_of_mem hb))
    exact disjoint_targets hn hd' ht hmem
  have hfirst : d.CompletedIn (d.attempts s ++ attemptsOf ds s') := by
    rw [Declaration.completedIn_append_left hlater, Declaration.completedIn_iff hs hn,
      failureOf_of_ok hok]
  rw [hattempts, List.filter_cons_of_pos (by simpa using hfirst)]
  refine congrArg (d :: ·) (List.filter_congr fun d' hd' => decide_eq_decide.2 ?_)
  exact Declaration.completedIn_append_right (Declaration.target_not_mem hn hd')

theorem Generator.filter_completedIn_of_error {s' : BuildState} {e : Error} (hs : s.project.WellFormed)
    (hn : (targetNames (d :: ds)).Nodup) (herror : buildDeclaration d s = .error e s') :
    (d :: ds).filter (fun d' => d'.CompletedIn (attemptsOf (d :: ds) s)) = [] := by
  have hattempts : attemptsOf (d :: ds) s = d.attempts s := by
    rw [attemptsOf, Build.onSuccess, herror, List.append_nil]
  rw [hattempts, List.filter_eq_nil_iff]
  intro d' hd'
  rw [decide_eq_true_eq]
  rcases List.mem_cons.1 hd' with rfl | hd'
  · rw [Declaration.completedIn_iff hs hn, failureOf_of_error herror]
    exact Option.some_ne_none e
  · exact Declaration.not_completedIn (Declaration.target_not_mem hn hd')

/-- Declarations that are built in order get their schemes in this order, up to the first one that
fails. -/
theorem Generator.schemes_of_forM {names : List String} (hs : s.project.WellFormed)
    (hn : (targetNames ds).Nodup) (h : s.project.HasSchemesFor names) :
    (stateAfter (ds.forM buildDeclaration) s).project.HasSchemesFor
      (names ++ (ds.filter fun d => d.CompletedIn (attemptsOf ds s)).map fun d => d.target.name) := by
  induction ds generalizing s names with
  | nil => simpa [stateAfter, List.forM, pure, EStateM.pure] using h
  | cons d ds ih =>
    change (stateAfter (buildDeclaration d >>= fun _ => ds.forM buildDeclaration) s).project.HasSchemesFor _
    rcases schemes_of_buildDeclaration hs d h with ⟨s', hok, hs'⟩ | ⟨e, s', herror, hs'⟩
    · have hrest := hn
      rw [targetNames_cons, List.nodup_append] at hrest
      have hlast := ih ((attempts_buildDeclaration hs d).wellFormed hok hs) hrest.2.1 hs'
      rw [List.append_assoc] at hlast
      rw [filter_completedIn_of_ok hs hn hok, List.map_cons, stateAfter, bind_of_ok hok]
      exact hlast
    · rw [filter_completedIn_of_error hs hn herror, List.map_nil, List.append_nil,
        stateAfter_of_error (bind_of_error herror)]
      exact hs'

theorem Generator.schemes_of_run {names : List String} {w : Workspace} (hw : w.project.WellFormed)
    (g : Generator) (ds : List Declaration) (h : w.project.HasSchemesFor names) :
    (stateAfter (g.run ds) w).project.HasSchemesFor
      (names ++ (g.completed ds w).map fun d => d.target.name) := by
  unfold completed
  rw [stateAfter_run]
  cases hnames : checkNames ds with
  | ok =>
    rw [attempts_of_checkNames hnames, stateAfter_buildAll (s := g.startState w) hw hnames]
    exact schemes_of_forM (s := g.startState w) hw (checkNames_eq_ok.1 hnames) h
  | error e =>
    have hnone : ds.filter (fun d => d.CompletedIn (g.attempts ds w)) = [] := by
      rw [attempts, hnames, List.filter_eq_nil_iff]
      intro d _
      have hnever : ¬ d.CompletedIn [] := Declaration.not_completedIn (by simp)
      simpa using hnever
    rw [stateAfter_of_error (buildAll_of_error hnames _), hnone, List.map_nil, List.append_nil]
    exact h

/-- A run that succeeds has built everything. -/
theorem Generator.completed_of_run {g : Generator} {w w' : Workspace} (hw : w.project.WellFormed)
    (hwo : w.project.Owned) (h : g.run ds w = .ok () w') : g.completed ds w = ds := by
  rcases run_cases hw hwo g ds with ⟨e, he, -⟩ | ⟨hnames, hcompletes, -⟩
  · rw [failureOf_of_ok h] at he
    cases he
  · unfold completed
    rw [attempts_of_checkNames hnames] at *
    have hbuilds := (attempts_forM (s := g.startState w) hw ds).completes_iff.2 hcompletes
    obtain ⟨_, hbuilds⟩ := exists_of_failureOf_eq_none hbuilds
    rw [List.filter_eq_self]
    refine fun d hd => decide_eq_true fun t ht => ?_
    have hmem : t ∈ ds.flatMap Declaration.targets := List.mem_flatMap.2 ⟨d, hd, ht⟩
    rw [← attemptsOf_of_ok hbuilds] at hmem
    obtain ⟨a, ha, rfl⟩ := List.mem_map.1 hmem
    exact ⟨a, ha, rfl, hcompletes a ha⟩

theorem RunHistory.hasSchemesFor (h : RunHistory ds p) :
    p.HasSchemesFor (ds.map fun d => d.target.name) := by
  induction h with
  | new new =>
    unfold Project.HasSchemesFor
    rw [Project.schemes_of_ofValue new]
    rfl
  | run history g next ih =>
    rw [List.map_append]
    exact Generator.schemes_of_run history.runReachable.reachable.wellFormed g next ih

end

/-! ## Schemes of reachable projects -/

/-- However a project has come about, each scheme stands under its own name, which is that of the target
that it builds first, builds listed targets only, each of them once, and builds what it tests. A
project that generators have made by themselves has a scheme for each declaration of which all targets
have been built, in order of first completion, and no others. -/
theorem schemes_belong_to_targets :
    (∀ p, ConfigureReachable p →
      (p.schemes.map Scheme.name).Nodup ∧
        ∀ s ∈ p.schemes, p.scheme? s.name = some s ∧ p.Arranges s) ∧
      ∀ ds p, RunHistory ds p →
        p.schemes.map Scheme.name = (ds.map fun d => d.target.name).eraseDups := by
  refine ⟨fun p h => ?_, fun ds p h => h.hasSchemesFor⟩
  obtain ⟨-, -, harranged⟩ := h.invariant
  exact ⟨harranged.names, fun s hs => ⟨harranged.scheme?_eq hs, harranged.arranges s hs⟩⟩

end

/-! ## A run that fails -/

/-- A framework with a test bundle, both without files. -/
def testedFramework : Declaration :=
  { target := bareFramework "App" [], test := some (bareTest "Tests" []) }

/-- A framework whose configurations clash with those of the project. -/
def clashingFramework : Declaration := { target := bareFramework "PROJECT" [] }

/-- After a run that succeeds and one that fails there is a scheme for what the first one has built. It
can be set up by hand to test the framework itself, and goes on building the test bundle. -/
theorem schemes_belong_of_clashingFramework :
    ∃ (p q : Project) (t : ObjectId), RunHistory [testedFramework] p ∧
      p.schemes.map Scheme.name = ["App"] ∧
      q = stateAfter (Project.configureScheme testedFramework t (some t)) p ∧ ConfigureReachable q ∧
      (q.schemes.map fun s => (s.builtTargets.length, s.testables.map BuildableReference.target)) =
        [(2, [t])] ∧
      (q.schemes.map Scheme.name).Nodup ∧
        ∀ s ∈ q.schemes, q.scheme? s.name = some s ∧ q.Arranges s := by
  let t := IdScheme.ofKey "PBXNativeTarget:App"
  have hruns : (Project.ofValue "App" (.text "Debug")).toOption.any fun p =>
      let w₁ := stateAfter (plainGenerator.run [testedFramework]) ⟨p, .withHome [], []⟩
      let w₂ := stateAfter (plainGenerator.run [clashingFramework]) w₁
      let q := stateAfter (Project.configureScheme testedFramework t (some t)) w₂.project
      failureOf (plainGenerator.run [testedFramework]) ⟨p, .withHome [], []⟩ = none ∧
      plainGenerator.completed [clashingFramework] w₁ = [] ∧
      ((w₂.project.content? t).bind Content.target?).isSome ∧
      (q.schemes.map fun s => (s.builtTargets.length, s.testables.map BuildableReference.target)) =
        [(2, [t])] := by
    rw [ObjectId.digestScheme_eq]
    decide +kernel
  obtain ⟨p, hnew, hp⟩ := Project.exists_of_ofValue hruns
  obtain ⟨hsucceeds, hnone, ht, hbuilt⟩ := of_decide_eq_true hp
  obtain ⟨_, hrun⟩ := exists_of_failureOf_eq_none hsucceeds
  obtain ⟨hwellFormed, howned⟩ := Project.wellFormed_of_ofValue hnew
  obtain ⟨a, ha⟩ := Option.isSome_iff_exists.1 ht
  have htarget := Project.content?_of_target? ha
  have hhistory := (RunHistory.run (w := ⟨p, .withHome [], []⟩) (.new hnew) plainGenerator
    [testedFramework]).run plainGenerator [clashingFramework]
  rw [Generator.completed_of_run (w := ⟨p, .withHome [], []⟩) hwellFormed howned hrun, hnone] at hhistory
  have hconfigured := hhistory.runReachable.reachable.configureReachable.configure testedFramework t
    (some t) ⟨a, htarget⟩ (by rintro _ ⟨⟩; exact ⟨a, htarget⟩)
  exact ⟨_, _, t, hhistory, schemes_belong_to_targets.2 _ _ hhistory, rfl, hconfigured, hbuilt,
    schemes_belong_to_targets.1 _ hconfigured⟩

end ProjectGraph
