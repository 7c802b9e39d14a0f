import ProjectGraph.Proofs.Builds.Filing
import ProjectGraph.Proofs.Builds.Members
import ProjectGraph.Proofs.Digest
import ProjectGraph.Proofs.Runs.Copying

/-! # What runs file

No file is in two phases of sources or resources, whatever has been run before. After the first run of
a generator the phase that a file is in can be told from the declarations: it is the one of the first
filing of its path. -/

namespace ProjectGraph

section

variable [IdScheme]

/-! ## Filing in runs -/

namespace Build

open Project

variable {d : Declaration} {s : BuildState} {ds : List Declaration}

theorem files_reportedTestBuild (hs : s.project.WellFormed) (test : Option Target) :
    Build.Files (reportedTestBuild test) s
      (test.toList.flatMap fun e => e.filings s.workspace.tree s.builder.root) := by
  cases test with
  | none => exact .pure (none, []) s
  | some e =>
    rw [Option.toList_some, List.flatMap_singleton]
    exact (files_reportedBuild hs e).bind_pure fun r => (some r.1, r.2)

theorem files_reportedDeclaration (hs : s.project.WellFormed)
    (hb : s.builder.scriptsDirectory = none) (d : Declaration) :
    Build.Files (reportedDeclaration d) s
      (d.targets.flatMap fun e => e.filings s.workspace.tree s.builder.root) := by
  rw [Declaration.targets, List.flatMap_cons]
  refine (files_reportedBuild hs d.target).bind (performs_reportedBuild hs d.target) ?_
  rintro ⟨t, own⟩ s₁ h₁ ⟨hfiles₁, hbuilt, -⟩
  have hp₁ := h₁.wellFormed hs
  have htest := files_reportedTestBuild hp₁ d.test
  rw [(hfiles₁ hb).tree, (hfiles₁ hb).builder] at htest
  refine htest.bind_nil (performs_reportedTestBuild hp₁ d.test) ?_
  rintro ⟨test, others⟩ s₂ h₂ ⟨-, htested⟩
  obtain ⟨a, ha, hname⟩ := hbuilt.established.isNamed.grows h₂.grows
  exact .bind_quiet (performs_configureScheme (h₂.wellFormed hp₁) ha hname htested).edit.discard
    (fun _ _ h => Step.quiet_of_schemeSteps h.schemeSteps) fun _ s₃ _ _ => .pure _ s₃

theorem files_reportedDeclarations (hs : s.project.WellFormed) (ho : s.project.Owned)
    (hb : s.builder.scriptsDirectory = none) (hnames : (targetNames ds).Nodup) :
    Build.Files (reportedDeclarations ds) s
      ((ds.flatMap Declaration.targets).flatMap fun e =>
        e.filings s.workspace.tree s.builder.root) := by
  induction ds generalizing s with
  | nil => exact .pure [] s
  | cons d ds ih =>
    rw [targetNames_cons, List.nodup_append] at hnames
    obtain ⟨hd, hds, -⟩ := hnames
    rw [List.flatMap_cons, List.flatMap_append]
    refine (files_reportedDeclaration hs hb d).bind (performs_reportedDeclaration hs ho hd) ?_
    intro names s₁ h₁ ⟨_, hrealized⟩
    obtain ⟨hfiles, -⟩ := hrealized hb
    have hrest := ih (h₁.wellFormed hs) (h₁.owned hs ho) (hfiles.builder ▸ hb) hds
    rw [hfiles.tree, hfiles.builder] at hrest
    exact hrest.bind_pure fun rest => names ++ rest

end Build

namespace Generator

variable {tree : FileTree} {config : Config} {g : Generator} {ds : List Declaration} {p : Project}
  {w w' : Workspace}

omit [IdScheme] in
/-- What a run files, in order. -/
def filings (g : Generator) (ds : List Declaration) (w : Workspace) : List Filing :=
  (ds.flatMap Declaration.targets).flatMap fun d => d.filings w.tree (.parse g.root)

theorem files_checkProject {s : BuildState} (hs : s.project.WellFormed) :
    Build.Files (Build.edit checkProject) s [] := by
  intro u s' h
  have hsame := stateAfter_checkProject hs
  rw [stateAfter_of_ok h] at hsame
  rw [hsame]
  exact .refl _

theorem gains_of_run (hw : w.project.WellFormed) (hwo : w.project.Owned)
    (hscripts : g.scriptsDirectory = none) (h : g.run ds w = .ok () w') :
    ∀ es, w.project.FiledBy es → w'.project.FiledBy (es ++ g.filings ds w) := by
  let s := g.startState w
  have hb : s.builder.scriptsDirectory = none := by
    show g.scriptsDirectory.map PathName.parse = none
    rw [hscripts]
    rfl
  obtain ⟨names, s', hreported, rfl⟩ := exists_reported_of_run h
  obtain ⟨-, hnodup, -⟩ := Leads.of_ok (Build.performs_reportedRun (s := s) hw hwo ds) hreported
  have hbuilds := Build.performs_reportedDeclarations (s := s) hw hwo hnodup
  have hfiles := (Build.files_reportedDeclarations (s := s) hw hwo hb hnodup).bind_nil hbuilds
    fun names s₁ hpath _ => (files_checkProject (hpath.wellFormed hw)).bind_pure fun _ => names
  refine (hfiles names s' ?_).filedBy
  rw [← Build.reportedRun_of_nodup hnodup]
  exact hreported

end Generator

/-! ## Phases of sources and resources -/

namespace Project

variable {p : Project} {i j : ObjectId} {path name : String}

/-- Each source or resource is in one phase, and there it is listed once. -/
structure ClaimsOnce (p : Project) : Prop where
  phase_unique : ∀ path i j, p.Member i path → p.Member j path → i = j
  nodup : ∀ i q kind, p.content? i = some (.phase q) → q.role = .files kind → kind.claims →
    ((p.filesOf q).map FileReference.path).Nodup

/-- A member of a phase has a source, which a build file has put there. -/
theorem Regular.exists_source_of_member (h : p.Regular) (hm : p.Member i path) :
    ∃ q kind f, p.content? i = some (.phase q) ∧ q.role = .files kind ∧ kind.claims ∧
      p.Joins q.target kind f ∧ p.Source path f := by
  obtain ⟨q, kind, hq, hrole, hkind, hpath⟩ := hm
  obtain ⟨f, g, hjoins, hg, rfl⟩ := exists_joins_of_mem_filesOf h.wellFormed hq hrole hpath
  obtain ⟨path, hsource⟩ := h.sound.source f q.target kind hkind hjoins
  rw [hsource] at hg
  cases hg
  exact ⟨q, kind, f, hq, hrole, hkind, hjoins, hsource⟩

/-- Phases of files with one target and one kind are one. -/
theorem WellFormed.phase_unique (hp : p.WellFormed) {q q' : BuildPhase} {kind : PhaseKind}
    (hq : p.content? i = some (.phase q)) (hq' : p.content? j = some (.phase q'))
    (htarget : q.target = q'.target) (hrole : q.role = .files kind) (hrole' : q'.role = .files kind) :
    i = j := by
  refine hp.eq_of_key_eq hq hq' (?_ : q.key = q'.key)
  unfold BuildPhase.key
  rw [htarget, hrole, hrole']

theorem Regular.member_unique (h : p.Regular) (hi : p.Member i path) (hj : p.Member j path) :
    i = j := by
  obtain ⟨q, kind, f, hq, hrole, hkind, hjoins, hf⟩ := h.exists_source_of_member hi
  obtain ⟨q', kind', f', hq', hrole', hkind', hjoins', hf'⟩ := h.exists_source_of_member hj
  obtain rfl := h.wellFormed.source_unique hf hf'
  obtain ⟨htarget, rfl⟩ := h.sound.claimed f _ kind _ kind' hkind hkind' hjoins hjoins'
  exact h.wellFormed.phase_unique hq hq' htarget hrole hrole'

/-- A phase of sources or resources has no two files with one path. -/
theorem Regular.nodup_filesOf (h : p.Regular) {q : BuildPhase} {kind : PhaseKind}
    (hq : p.content? i = some (.phase q)) (hrole : q.role = .files kind) (hkind : kind.claims) :
    ((p.filesOf q).map FileReference.path).Nodup := by
  rw [List.Nodup, List.pairwise_map, filesOf, List.pairwise_filterMap]
  have hsource : ∀ r ∈ q.files, ∀ f g, p.content? r.id = some (.buildFile f) →
      p.content? f.file.id = some (.file g) → p.Source g.path f.file.id := by
    intro r hr f g hf hg
    obtain ⟨htarget, hplace⟩ := h.wellFormed.buildFiles i q hq r hr f hf
    rw [hrole] at hplace
    obtain ⟨path, hsource⟩ := h.sound.source f.file.id f.target f.phase
      (Sum.inl.inj hplace ▸ hkind) ⟨r.id, f, hf, rfl, rfl, rfl⟩
    rw [hsource] at hg
    cases hg
    exact hsource
  refine (h.owned.pairwise_files h.wellFormed hq).imp_of_mem fun {r r'} hr hr' hne => ?_
  intro g hg g' hg' hpath
  obtain ⟨f, hf, hfile⟩ := fileBehind_eq_some.1 hg
  obtain ⟨f', hf', hfile'⟩ := fileBehind_eq_some.1 hg'
  have hgsource := hsource r hr f g hf hfile
  rw [hpath] at hgsource
  exact hne f f' hf hf' (h.wellFormed.source_unique hgsource (hsource r' hr' f' g' hf' hfile'))

theorem Regular.claimsOnce (h : p.Regular) : p.ClaimsOnce where
  phase_unique _ _ _ hi hj := h.member_unique hi hj
  nodup _ _ _ hq hrole hkind := h.nodup_filesOf hq hrole hkind

end Project

/-! ## The first run -/

namespace Project

variable {p : Project} {i : ObjectId} {path name : String} {kind : PhaseKind} {fs : List Filing}

theorem filedBy_of_ofValue {value : Value} (h : ofValue name value = .ok p) : p.FiledBy [] := by
  obtain ⟨names, hnew⟩ := exists_create_of_ofValue h
  have hsource : ∀ path i, ¬ p.Source path i := fun path i hi => isInitial_of_create hnew hi
  refine ⟨(regular_of_ofValue h).toSearchable, ?_, ?_⟩
  · simp [hsource]
  · exact fun i path name kind hi => absurd hi (hsource path i)

theorem FiledBy.existsUnique_source (h : p.FiledBy fs) (hpath : (fs.lookup path).isSome) :
    ∃! i, p.Source path i := by
  obtain ⟨i, hi⟩ := (h.exists_iff path).2 hpath
  exact ⟨i, hi, fun j hj => h.wellFormed.source_unique hj hi⟩

/-- A member of a phase has been filed into one. -/
theorem FiledBy.exists_lookup_of_member (h : p.FiledBy fs) (hp : p.Regular) (hm : p.Member i path) :
    ∃ name kind, fs.lookup path = some (some (name, kind)) := by
  obtain ⟨q, kind, f, -, -, hkind, hjoins, hf⟩ := hp.exists_source_of_member hm
  exact ⟨q.target, kind, (h.joins_iff f path q.target kind hf hkind).1 hjoins⟩

/-- What has been filed into a phase is a member of it, and of no other one. -/
theorem FiledBy.exists_phase (h : p.FiledBy fs) (hp : p.Regular) (hkind : kind.claims)
    (hpath : fs.lookup path = some (some (name, kind))) :
    ∃ x ∈ p.phasesOf name, x.content.role = .files kind ∧ ∀ i, p.Member i path ↔ i = x.id := by
  obtain ⟨f, hf, -⟩ := h.existsUnique_source (by rw [hpath]; rfl)
  have hjoins := (h.joins_iff f path name kind hf hkind).2 hpath
  obtain ⟨i, q, hq, htarget, hrole, hlisted⟩ :=
    exists_phase_of_joins h.wellFormed h.owned hjoins hf
  have hmember : p.Member i path := ⟨q, kind, hq, hrole, hkind, hlisted⟩
  refine ⟨⟨i, q⟩, (mem_phasesOf h.wellFormed h.owned).2 ⟨hq, htarget⟩, hrole, fun j => ?_⟩
  constructor
  · exact fun hj => hp.member_unique hj hmember
  · rintro rfl
    exact hmember

end Project

omit [IdScheme] in
/-- Files go into phases of sources and resources only. -/
theorem Target.claims_of_mem_filings {d : Target} {tree : FileTree} {root : PathName}
    {path name : String} {kind : PhaseKind} (h : (path, some (name, kind)) ∈ d.filings tree root) :
    kind.claims := by
  unfold filings at h
  rcases List.mem_append.1 h with h | h
  · rcases List.mem_append.1 h with h | h
    · obtain ⟨path', -, h⟩ := List.mem_map.1 h
      cases h
    · obtain ⟨path', -, h⟩ := List.mem_map.1 h
      cases h
      rfl
  · obtain ⟨patterns, -, h⟩ := List.mem_flatMap.1 h
    obtain ⟨path', -, h⟩ := List.mem_map.1 h
    cases h
    rfl

/-- No source or resource is in two phases, whatever has been run. In the first run of a new generator
the first filing of a path decides: the path has one source, and it is in the phase that this filing
puts it into and in no other one, or in no phase if it is filed as a property list or as a header. No
other path is in a phase. -/
theorem Generator.filed_once :
    (∀ p, RunReachable p → p.ClaimsOnce) ∧
      ∀ (tree : FileTree) (config : Config) (g : Generator) (w w' : Workspace)
        (ds : List Declaration), Generator.start tree config = .ok (g, w.project) →
        g.scriptsDirectory = none → g.run ds w = .ok () w' → ∀ path,
          (∀ name kind, (g.filings ds w).lookup path = some (some (name, kind)) →
            (∃! i, w'.project.Source path i) ∧ ∃ x ∈ w'.project.phasesOf name,
              x.content.role = .files kind ∧ ∀ i, w'.project.Member i path ↔ i = x.id) ∧
          ((g.filings ds w).lookup path = some none →
            (∃! i, w'.project.Source path i) ∧ ∀ i, ¬ w'.project.Member i path) ∧
          ((g.filings ds w).lookup path = none →
            ∀ i, ¬ w'.project.Source path i ∧ ¬ w'.project.Member i path) := by
  refine ⟨fun p h => h.regular.claimsOnce, ?_⟩
  intro tree config g w w' ds hstart hscripts hrun path
  have hnew := Generator.ofValue_of_start hstart
  have hw := Project.regular_of_ofValue hnew
  have hfiled : w'.project.FiledBy (g.filings ds w) :=
    Generator.gains_of_run hw.wellFormed hw.owned hscripts hrun [] (Project.filedBy_of_ofValue hnew)
  have hw' : w'.project.Regular := by
    have htrace := Generator.trace_run hw.wellFormed g ds
    rw [stateAfter_of_ok hrun] at htrace
    exact htrace.regular hw
  have hmember : ∀ i, w'.project.Member i path →
      ∃ name kind, (g.filings ds w).lookup path = some (some (name, kind)) :=
    fun i hi => hfiled.exists_lookup_of_member hw' hi
  refine ⟨fun name kind hpath => ?_, fun hpath => ?_, fun hpath i => ?_⟩
  · have hfiling : (path, some (name, kind)) ∈ g.filings ds w := by
      obtain ⟨earlier, later, heq, -⟩ := List.lookup_eq_some_iff.1 hpath
      simp [heq]
    obtain ⟨d, -, hmem⟩ := List.mem_flatMap.1 hfiling
    exact ⟨hfiled.existsUnique_source (by rw [hpath]; rfl),
      hfiled.exists_phase hw' (Target.claims_of_mem_filings hmem) hpath⟩
  · refine ⟨hfiled.existsUnique_source (by rw [hpath]; rfl), fun i hi => ?_⟩
    obtain ⟨name, kind, h⟩ := hmember i hi
    rw [hpath] at h
    cases h
  · constructor
    · intro hi
      have hsome := (hfiled.exists_iff path).1 ⟨i, hi⟩
      rw [hpath] at hsome
      cases hsome
    · intro hi
      obtain ⟨name, kind, h⟩ := hmember i hi
      rw [hpath] at h
      cases h

end

/-! ## A source of two targets -/

/-- A framework and its tests, which both have the only source file. -/
def sharedSource : Declaration :=
  { dependentFramework with test := some { bareTest "AppTests" [] with includeFiles := ["App/*.swift"] } }

/-- The source is in the sources of the framework, which is built first, and nowhere else. -/
theorem filed_once_of_sharedSource :
    ∃ p w', Generator.start oneSource { projectName := "App", buildConfig := .text "Debug" } =
        .ok (plainGenerator, p) ∧
      plainGenerator.run [sharedSource] ⟨p, oneSource, []⟩ = .ok () w' ∧ w'.project.ClaimsOnce ∧
        (∃! i, w'.project.Source "App/Main.swift" i) ∧ ∃ x ∈ w'.project.phasesOf "App",
          x.content.role = .files .sources ∧
            ∀ i, w'.project.Member i "App/Main.swift" ↔ i = x.id := by
  have hsucceeds : (Project.ofValue "App" (.text "Debug")).toOption.any fun p =>
      failureOf (plainGenerator.run [sharedSource]) ⟨p, oneSource, []⟩ = none := by
    rw [ObjectId.digestScheme_eq]
    decide +kernel
  obtain ⟨p, hnew, hp⟩ := Project.exists_of_ofValue hsucceeds
  obtain ⟨u, hrun⟩ := exists_of_failureOf_eq_none (of_decide_eq_true hp)
  have hstart : Generator.start oneSource { projectName := "App", buildConfig := .text "Debug" } =
      .ok (plainGenerator, p) := by
    rw [Generator.start, hnew]
    rfl
  have hfirst : (plainGenerator.filings [sharedSource] ⟨p, oneSource, []⟩).lookup "App/Main.swift" =
      some (some ("App", .sources)) := by
    show ([sharedSource].flatMap Declaration.targets |>.flatMap fun d =>
      d.filings oneSource (.parse ".")).lookup "App/Main.swift" = _
    decide +kernel
  obtain ⟨honce, hfirstRun⟩ := Generator.filed_once
  obtain ⟨hsource, hphase⟩ :=
    (hfirstRun _ _ _ ⟨p, oneSource, []⟩ _ [sharedSource] hstart rfl hrun "App/Main.swift").1 _ _ hfirst
  have hreachable := RunReachable.run (w := ⟨p, oneSource, []⟩) (.new hnew) plainGenerator [sharedSource]
  rw [stateAfter_of_ok hrun] at hreachable
  exact ⟨p, _, hstart, hrun, honce _ hreachable, hsource, hphase⟩

end ProjectGraph
