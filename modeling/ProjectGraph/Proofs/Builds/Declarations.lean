import ProjectGraph.Generator
import ProjectGraph.Proofs.Builds.Built
import ProjectGraph.Proofs.Builds.Frame

/-! # Building declarations

A declaration is realized when its targets have been built and its scheme has been set up. It stays
so while later steps spare it, and realizing it again changes nothing. -/

namespace ProjectGraph

/-! ## The scheme of a declaration -/

/-- How a scheme refers to the target of a description that has been built. -/
def Target.entry (d : Target) (t : ObjectId) : BuildableReference := ⟨t, d.name, some d.productPath⟩

namespace Project

variable [IdScheme] {p q : Project} {d : Target} {t : ObjectId} {names : List String}
  {tree : FileTree} {b : Builder}

/-- The target of a description is there under this id, with the product that it declares. -/
structure Established (p : Project) (d : Target) (t : ObjectId) : Prop where
  isNamed : p.IsNamed t d.name
  product : p.HasProduct t d.productPath

theorem Established.path (hp : p.WellFormed) (h : p.Established d t) (hpq : Path (Step.Spares d.name) p q) :
    q.Established d t where
  isNamed := h.isNamed.grows hpq.grows
  product := h.product.respects hp h.isNamed (hpq.mono fun _ _ => Step.Spares.respects)

omit [IdScheme] in
theorem Established.produces (h : p.Established d t) : p.Produces t := by
  obtain ⟨f, a, -, ha, hr⟩ := h.product
  exact ⟨a, ha, by rw [hr]; rfl⟩

omit [IdScheme] in
theorem Established.buildableOf (h : p.Established d t) :
    ∃ a, p.content? t = some (.target a) ∧ a.name = d.name ∧ p.buildableOf t a = d.entry t := by
  obtain ⟨f, a, hf, ha, hr⟩ := h.product
  obtain ⟨b', hb, hname⟩ := h.isNamed
  rw [ha] at hb
  cases hb
  obtain ⟨hfile, hpath⟩ := content?_of_product? hf
  refine ⟨a, ha, hname, ?_⟩
  rw [Project.buildableOf, productNameOf, hr, hname]
  simp [hfile, Content.file?, hpath, Target.entry]

omit [IdScheme] in
theorem Built.established (h : p.Built tree b d t names) : p.Established d t where
  isNamed := h.prepared.entered.isNamed
  product := h.prepared.equipped.product

/-- The test target of a declaration, if it has one, has been built under this id. -/
def TestBuilt (p : Project) (tree : FileTree) (b : Builder) (names : List String) :
    Option Target → Option ObjectId → Prop
  | none, none => names = []
  | some e, some u => p.Built tree b e u names
  | _, _ => False

/-- What the scheme of a declaration tests. -/
def testEntry : Option Target → Option ObjectId → Option BuildableReference
  | some e, some u => some (e.entry u)
  | _, _ => none

omit [IdScheme] in
theorem TestBuilt.buildableOf {e : Option Target} {test : Option ObjectId}
    (h : p.TestBuilt tree b names e test) :
    (∀ u, test = some u → ∃ a, p.content? u = some (.target a) ∧
      testEntry e test = some (p.buildableOf u a)) ∧ (test = none → testEntry e test = none) := by
  cases e <;> cases test
  · exact ⟨by simp, fun _ => rfl⟩
  · cases h
  · cases h
  · next e u =>
    refine ⟨?_, by simp⟩
    rintro _ ⟨⟩
    obtain ⟨a, ha, -, hentry⟩ := (Built.established h).buildableOf
    exact ⟨a, ha, by rw [hentry, testEntry]⟩

/-- The scheme of a declaration has been set up. -/
def SchemeDone (p : Project) (d : Declaration) (test : Option ObjectId) : Prop :=
  p.SchemeSettled d.target.name (declaredChanges d (testEntry d.test test))

theorem configureScheme_of_done {d : Declaration} {test : Option ObjectId} (hp : p.WellFormed)
    (ht : p.IsNamed t d.target.name) (htest : p.TestBuilt tree b names d.test test)
    (h : p.SchemeDone d test) : configureScheme d t test p = .ok d.target.name p := by
  obtain ⟨a, ha, hname⟩ := ht
  obtain ⟨hsome, hnone⟩ := htest.buildableOf
  rw [SchemeDone, ← hname] at h
  rw [configureScheme_of_settled hp d ha hsome hnone h, hname]

theorem performs_configureScheme {d : Declaration} {test : Option ObjectId} {a : NativeTarget}
    (hp : p.WellFormed) (ha : p.content? t = some (.target a)) (hname : a.name = d.target.name)
    (htest : p.TestBuilt tree b names d.test test) :
    Edit.Performs
      (MentioningSteps d.target.name (p.buildableOf t a :: (testEntry d.test test).toList))
      (configureScheme d t test) p fun _ q => q.SchemeDone d test := by
  obtain ⟨hsome, hnone⟩ := htest.buildableOf
  obtain ⟨q, hq, hpath, hsettled⟩ := exists_configureScheme hp d ha _ _ hsome hnone
  rw [hname] at hpath hsettled
  exact Leads.of_eq_ok hq ⟨hpath, hsettled⟩

end Project

/-! ## The steps of a declaration -/

section

variable [IdScheme] {d d' : Declaration} {q : Project} {s : Step}

/-- The steps of building a declaration. -/
def InDeclaration (d : Declaration) (q : Project) (s : Step) : Prop :=
  (∃ e ∈ d.targets, InBuild e q s) ∨ Project.SchemeSteps [d.target.name] q s

/-- The step replaces nothing of the targets and the scheme of a declaration. -/
structure Step.SparesDeclaration (d : Declaration) (q : Project) (s : Step) : Prop where
  target : ∀ e ∈ d.targets, s.Spares e.name q
  newScheme : ∀ new, s = .scheme new → new.name ≠ d.target.name
  scheme : ∀ n c, s = .schemeChange n c → n ≠ d.target.name

/-- Declarations whose targets have other names do not meet. -/
theorem InDeclaration.spares (hq : q.WellFormed) (ho : q.Owned)
    (hne : ∀ e ∈ d.targets, ∀ e' ∈ d'.targets, e'.name ≠ e.name) (h : InDeclaration d' q s) :
    s.SparesDeclaration d q := by
  have hname := hne d.target (by simp [Declaration.targets]) d'.target (by simp [Declaration.targets])
  rcases h with ⟨e', he', h⟩ | h
  · refine ⟨fun e he => h.spares hq ho (hne e he e' he'), ?_, ?_⟩
    · rintro new rfl
      cases h
    · rintro n c rfl
      cases h
  · refine ⟨fun e he => Step.spares_of_schemeSteps h, ?_, ?_⟩
    · rintro new rfl
      rcases h with ⟨new', hnew, h⟩ | ⟨m, -, change, h⟩
      · cases h
        rw [List.mem_singleton.1 hnew]
        exact hname
      · cases h
    · rintro n c rfl
      rcases h with ⟨new, -, h⟩ | ⟨m, hm, change, h⟩
      · cases h
      · cases h
        rw [List.mem_singleton.1 hm]
        exact hname

end

/-! ## Realized declarations -/

namespace Project

variable [IdScheme] {p q : Project} {d : Declaration} {names : List String} {tree : FileTree}
  {b : Builder} {test : Option ObjectId}

/-- The targets of the declaration have been built, with these third-party dependencies, and its
scheme has been set up. -/
def Realized (p : Project) (tree : FileTree) (b : Builder) (d : Declaration) (names : List String) :
    Prop :=
  ∃ t test own others, names = own ++ others ∧ p.Built tree b d.target t own ∧
    p.TestBuilt tree b others d.test test ∧ p.SchemeDone d test

theorem TestBuilt.path {e : Option Target} (hp : p.WellFormed) (h : p.TestBuilt tree b names e test)
    (hpq : ∀ d, e = some d → Path (Step.Spares d.name) p q) : q.TestBuilt tree b names e test := by
  cases e <;> cases test
  · exact h
  · cases h
  · cases h
  · next e u => exact Built.path hp h (hpq e rfl)

theorem Realized.path (hp : p.WellFormed) (h : p.Realized tree b d names)
    (hpq : Path (Step.SparesDeclaration d) p q) : q.Realized tree b d names := by
  obtain ⟨t, test, own, others, rfl, hbuilt, htest, hscheme⟩ := h
  refine ⟨t, test, own, others, rfl, ?_, ?_, ?_⟩
  · exact hbuilt.path hp (hpq.mono fun q s h => h.target d.target (by simp [Declaration.targets]))
  · refine htest.path hp fun e he => hpq.mono fun q s h => h.target e ?_
    simp [Declaration.targets, he]
  · exact hscheme.path hpq (fun _ new h => h.newScheme new rfl) fun _ n c h => h.scheme n c rfl

/-- What the building of a declaration leaves, whatever the files are: its targets are there, and its scheme
tests what it declares. What the scheme mentions it has mentioned in `p₀` already, or it mentions
targets of the declaration as it declares them. -/
structure Presents (p₀ p : Project) (d : Declaration) : Prop where
  target : ∃ t, p.Established d.target t
  scheme : ∃ s ∈ p.schemes, s.name = d.target.name
  test : ∀ e, d.test = some e → ∃ u, p.Established e u ∧
    ∀ s ∈ p.schemes, s.name = d.target.name → s.testables = [e.entry u]
  mentions : ∀ r, p.Mentions d.target.name r →
    p₀.Mentions d.target.name r ∨ ∃ e ∈ d.targets, ∃ u, p.Established e u ∧ r = e.entry u

omit [IdScheme] in
theorem presents_of_done {p₀ : Project} {t : ObjectId} (ht : p.Established d.target t)
    (htest : p.TestBuilt tree b names d.test test) (hdone : p.SchemeDone d test)
    (hmentions : ∀ r, p.Mentions d.target.name r →
      p₀.Mentions d.target.name r ∨ r ∈ d.target.entry t :: (testEntry d.test test).toList) :
    Presents p₀ p d where
  target := ⟨t, ht⟩
  scheme := hdone.1
  test e he := by
    unfold SchemeDone at hdone
    rw [he] at htest hdone
    cases test with
    | none => cases htest
    | some u => exact ⟨u, Built.established htest, fun s hs hname => hdone.testables hs hname⟩
  mentions r hr := by
    refine (hmentions r hr).imp_right fun hentry => ?_
    rcases List.mem_cons.1 hentry with rfl | hentry
    · exact ⟨d.target, by simp [Declaration.targets], t, ht, rfl⟩
    · cases htests : d.test with
      | none => simp [htests, testEntry] at hentry
      | some e =>
        rw [htests] at htest hentry
        cases test with
        | none => cases htest
        | some u =>
          refine ⟨e, by simp [Declaration.targets, htests], u, Built.established htest, ?_⟩
          simpa [testEntry, eq_comm] using hentry

theorem mem_schemes_iff_of_spares (hpq : Path (Step.SparesDeclaration d) p q) {s : Scheme}
    (hname : s.name = d.target.name) : s ∈ q.schemes ↔ s ∈ p.schemes :=
  hpq.mem_schemes_iff (fun _ new h => h.newScheme new rfl) (fun _ n c h => h.scheme n c rfl) hname

/-- What has come before does not matter if it has spared the declaration. -/
theorem Presents.of_path {p₀ : Project} (h : Presents p q d)
    (hpq : Path (Step.SparesDeclaration d) p₀ p) : Presents p₀ q d where
  target := h.target
  scheme := h.scheme
  test := h.test
  mentions r hr := by
    refine (h.mentions r hr).imp_left ?_
    rintro ⟨s, hs, hname, hmem⟩
    exact ⟨s, (mem_schemes_iff_of_spares hpq hname).1 hs, hname, hmem⟩

theorem Presents.path {p₀ : Project} (hp : p.WellFormed) (h : Presents p₀ p d)
    (hpq : Path (Step.SparesDeclaration d) p q) : Presents p₀ q d := by
  have hsame : ∀ s : Scheme, s.name = d.target.name → (s ∈ q.schemes ↔ s ∈ p.schemes) :=
    fun s => mem_schemes_iff_of_spares hpq
  have hestablished : ∀ e ∈ d.targets, ∀ u, p.Established e u → q.Established e u := fun e he u hu =>
    hu.path hp (hpq.mono fun _ _ h => h.target e he)
  constructor
  · obtain ⟨t, ht⟩ := h.target
    exact ⟨t, hestablished d.target (by simp [Declaration.targets]) t ht⟩
  · obtain ⟨s, hs, hname⟩ := h.scheme
    exact ⟨s, (hsame s hname).2 hs, hname⟩
  · intro e he
    obtain ⟨u, hu, htests⟩ := h.test e he
    exact ⟨u, hestablished e (by simp [Declaration.targets, he]) u hu,
      fun s hs hname => htests s ((hsame s hname).1 hs) hname⟩
  · rintro r ⟨s, hs, hname, hr⟩
    refine (h.mentions r ⟨s, (hsame s hname).1 hs, hname, hr⟩).imp_right ?_
    rintro ⟨e, he, u, hu, rfl⟩
    exact ⟨e, he, u, hestablished e he u hu, rfl⟩

end Project

/-! ## Building a declaration -/

namespace Build

open Project

variable [IdScheme] {d : Declaration} {s : BuildState} {names : List String}

/-- Builds the test target of a declaration, if it has one. -/
def reportedTestBuild : Option Target → Build (Option ObjectId × List String)
  | none => return (none, [])
  | some e => do
    let (u, names) ← reportedBuild e
    return (some u, names)

/-- Builds a declaration, and returns the third-party dependencies of its targets. -/
def reportedDeclaration (d : Declaration) : Build (List String) := do
  let (t, own) ← reportedBuild d.target
  let (test, others) ← reportedTestBuild d.test
  discard <| edit (configureScheme d t test)
  return own ++ others

theorem testBuild_bind (test : Option Target) (rest : Option ObjectId → Build Unit) :
    (match test with
      | some e => some <$> build e >>= rest
      | none => pure none >>= rest) = reportedTestBuild test >>= fun r => rest r.1 := by
  cases test with
  | none => rfl
  | some e => simp only [build_eq, reportedTestBuild, bind_map_left, bind_assoc, pure_bind]

theorem buildDeclaration_eq (d : Declaration) :
    Generator.buildDeclaration d = discard (reportedDeclaration d) := by
  unfold Generator.buildDeclaration reportedDeclaration
  rw [build_eq, bind_map_left, discard_eq_bind (reportedBuild d.target >>= _), bind_assoc]
  refine bind_congr fun r => (testBuild_bind d.test _).trans ?_
  rw [bind_assoc]
  refine bind_congr fun r' => ?_
  rw [bind_assoc]
  simp only [pure_bind]
  rw [discard_eq_bind, bind_assoc]
  rfl

theorem performs_reportedTestBuild (hs : s.project.WellFormed) (test : Option Target) :
    Build.Performs (fun q s => ∃ e, test = some e ∧ InBuild e q s) (reportedTestBuild test) s
      fun r s' => (s.builder.scriptsDirectory = none → s.SameFiles s') ∧
        s'.project.TestBuilt s.workspace.tree s.builder r.2 test r.1 := by
  cases test with
  | none => exact .of_ok rfl ⟨fun _ => .refl s, rfl⟩
  | some e =>
    refine ((performs_reportedBuild hs e).weaken fun q s h => ⟨e, rfl, h.inBuild⟩).bind ?_
    exact fun r s' _ h => .of_ok rfl ⟨h.1, h.2.1⟩

/-- Configuring the scheme of a declaration whose targets have been built completes what it is to show. -/
theorem performs_schemeOfBuilt {p₀ p : Project} {tree tree' : FileTree} {builder builder' : Builder}
    {t : ObjectId} {test : Option ObjectId} {own others : List String} (hp : p.WellFormed)
    (hschemes : p.schemes = p₀.schemes) (hbuilt : p.Built tree builder d.target t own)
    (htest : p.TestBuilt tree' builder' others d.test test) :
    Edit.Performs (InDeclaration d) (configureScheme d t test) p fun _ q =>
      q.Built tree builder d.target t own ∧ q.TestBuilt tree' builder' others d.test test ∧
        q.SchemeDone d test ∧ Presents p₀ q d := by
  obtain ⟨a, ha, hname, hentry⟩ := hbuilt.established.buildableOf
  have hsteps := performs_configureScheme hp ha hname htest
  rw [hentry] at hsteps
  refine hsteps.mono (fun _ _ h => .inr h.schemeSteps) ?_
  intro _ q hpath hdone
  have hspares : ∀ name, Path (Step.Spares name) p q := fun name =>
    hpath.mono fun _ _ h => Step.spares_of_schemeSteps h.schemeSteps
  have hbuilt' := hbuilt.path hp (hspares _)
  have htest' := htest.path hp fun e _ => hspares _
  refine ⟨hbuilt', htest', hdone, presents_of_done hbuilt'.established htest' hdone fun r hr => ?_⟩
  rcases hpath.mentions hr with hold | ⟨_, _, -, -, hstep, hnew⟩
  · unfold Mentions at hold
    rw [hschemes] at hold
    exact .inl hold
  · exact .inr (hstep.mentions _ r hnew)

theorem performs_reportedDeclaration (hs : s.project.WellFormed) (ho : s.project.Owned)
    (hnames : (d.targets.map fun e => e.name).Nodup) :
    Build.Performs (InDeclaration d) (reportedDeclaration d) s fun names s' =>
      Presents s.project s'.project d ∧ (s.builder.scriptsDirectory = none →
        s.SameFiles s' ∧ s'.project.Realized s.workspace.tree s.builder d names) := by
  have htarget : d.target ∈ d.targets := by simp [Declaration.targets]
  have hfirst : Build.Performs (InDeclaration d) (reportedBuild d.target) s fun r s' =>
      s'.project.schemes = s.project.schemes ∧ (s.builder.scriptsDirectory = none → s.SameFiles s') ∧
        s'.project.Built s.workspace.tree s.builder d.target r.1 r.2 :=
    (performs_reportedBuild hs d.target).mono (fun q s h => .inl ⟨_, htarget, h.inBuild⟩)
      fun r s' hpath h => ⟨hpath.schemes_of_buildStep, h.1, h.2.1⟩
  refine hfirst.bind ?_
  rintro ⟨t, own⟩ s₁ h₁ ⟨hschemes₁, hfiles₁, hbuilt₁⟩
  have hp₁ := h₁.wellFormed hs
  have ho₁ := h₁.owned hs ho
  -- The test target has another name, so its build spares the target.
  have htest : Build.Performs (InDeclaration d) (reportedTestBuild d.test) s₁ fun r s' =>
      s'.project.schemes = s.project.schemes ∧
        s'.project.Built s.workspace.tree s.builder d.target t own ∧
        (s₁.builder.scriptsDirectory = none → s₁.SameFiles s') ∧
          s'.project.TestBuilt s₁.workspace.tree s₁.builder r.2 d.test r.1 := by
    refine (performs_reportedTestBuild hp₁ d.test).mono ?_ fun r s' hpath h => ⟨?_, ?_, h⟩
    · rintro q s ⟨e, he, h⟩
      exact .inl ⟨e, by simp [Declaration.targets, he], h⟩
    · exact (hpath.schemes_of_builds fun q s ⟨e, _, h⟩ => ⟨e, h⟩).trans hschemes₁
    · refine hbuilt₁.path hp₁ (hpath.restrict ?_)
      rintro q s hq - ⟨e, he, h⟩
      refine h.spares (hq.wellFormed hp₁) (hq.owned hp₁ ho₁) ?_
      simp only [Declaration.targets, he, Option.toList_some, List.map_cons, List.map_nil,
        List.nodup_cons, List.mem_singleton] at hnames
      exact Ne.symm hnames.1
  refine htest.bind ?_
  rintro ⟨test, others⟩ s₂ h₂ ⟨hschemes₂, hbuilt₂, hfiles₂, htest₂⟩
  have hp₂ := h₂.wellFormed hp₁
  have hscheme := performs_schemeOfBuilt hp₂ hschemes₂ hbuilt₂ htest₂
  refine hscheme.edit.discard.bind ?_
  rintro _ s₃ h₃ ⟨_, ⟨hbuilt₃, htest₃, hdone, hpresents⟩, hstate₃⟩
  refine .of_ok rfl ⟨hpresents, fun hb => ?_⟩
  have hfiles₁ := hfiles₁ hb
  rw [hfiles₁.builder] at hfiles₂ htest₃
  rw [hfiles₁.tree] at htest₃
  exact ⟨hfiles₁.trans ((hfiles₂ hb).trans (.of_eq hstate₃)),
    t, test, own, others, rfl, hbuilt₃, htest₃, hdone⟩

/-! ### Building a declaration again -/

theorem reportedTestBuild_of_testBuilt {e : Option Target} {test : Option ObjectId}
    (hs : s.project.WellFormed) (hb : s.builder.scriptsDirectory = none)
    (h : s.project.TestBuilt s.workspace.tree s.builder names e test)
    (hopen : ∀ n ∈ names, s.project.product? n = none) :
    ∃ printed, reportedTestBuild e s = .ok (test, names) { s with workspace.printed := printed } := by
  cases e <;> cases test
  · obtain rfl : names = [] := h
    exact ⟨s.workspace.printed, rfl⟩
  · cases h
  · cases h
  · next e u =>
    refine ⟨s.workspace.printed ++ ["generating " ++ e.name], ?_⟩
    rw [reportedTestBuild, bind_of_ok (reportedBuild_of_built hs hb h hopen)]
    rfl

/-- A declaration that has been realized is not changed by building it. -/
theorem reportedDeclaration_of_realized (hs : s.project.WellFormed)
    (hb : s.builder.scriptsDirectory = none)
    (h : s.project.Realized s.workspace.tree s.builder d names)
    (hopen : ∀ n ∈ names, s.project.product? n = none) :
    ∃ printed, reportedDeclaration d s = .ok names { s with workspace.printed := printed } := by
  obtain ⟨t, test, own, others, rfl, hbuilt, htest, hdone⟩ := h
  have hbuild := reportedBuild_of_built hs hb hbuilt fun n hn =>
    hopen n (List.mem_append_left others hn)
  let s₁ : BuildState :=
    { s with workspace.printed := s.workspace.printed ++ ["generating " ++ d.target.name] }
  obtain ⟨printed, htests⟩ := reportedTestBuild_of_testBuilt (s := s₁) hs hb htest fun n hn =>
    hopen n (List.mem_append_right own hn)
  let s₂ : BuildState := { s₁ with workspace.printed := printed }
  have hscheme : edit (configureScheme d t test) s₂ = .ok d.target.name s₂ :=
    edit_of_ok (configureScheme_of_done hs hbuilt.established.isNamed htest hdone)
  refine ⟨printed, ?_⟩
  rw [reportedDeclaration, bind_of_ok hbuild]
  simp only
  rw [bind_of_ok htests]
  simp only
  rw [bind_of_ok (discard_of_ok hscheme)]
  rfl

end Build
end ProjectGraph
