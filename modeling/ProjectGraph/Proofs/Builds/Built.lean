import ProjectGraph.Proofs.Builds.Files
import ProjectGraph.Proofs.Builds.Parts

/-! # Building a target

A build that succeeds brings the target about. What it has brought about lasts while later steps spare
the target, and the same build changes nothing then. -/

namespace ProjectGraph

/-! ## A build and what it reports -/

/-- The script that copies frameworks, as the phases of a builder run it. -/
def Builder.copyBody (b : Builder) : String :=
  match b.scriptsDirectory with
  | none => CopyScript.text
  | some directory => runInstalled directory

namespace Build

variable [IdScheme] {d : Target} {t : ObjectId} {s : BuildState}

/-- Files what patterns select, into a phase of a target. -/
def fileAll (t : ObjectId) (kind : PhaseKind) (patterns : List String)
    (exclude : Option (List (List String))) : Build Unit := do
  let files ← resolveFiles patterns exclude
  edit (Project.addFiles t kind files)

/-- The build of a target up to its settings. -/
def place (d : Target) : Build ObjectId := do
  say ("generating " ++ d.name)
  let t ← edit (Project.enter d)
  fileAll t .sources d.includeFiles d.excludeFiles
  return t

/-- The build of a target up to its dependencies. -/
def prepare (d : Target) : Build ObjectId := do
  say ("generating " ++ d.name)
  let t ← edit (Project.enter d)
  fileAll t .sources d.includeFiles d.excludeFiles
  edit (Project.equip t d)
  return t

/-- The rest of the build. It returns the dependencies that no product of the project stands for. -/
def complete (t : ObjectId) (d : Target) : Build (List String) := do
  let thirdParty ← edit (Project.linkDependencies t d.dependencies)
  addResourceFiles t d.resourceFiles
  if d.isTest && !thirdParty.isEmpty then addCopyFrameworksPhase t thirdParty
  return thirdParty

/-- Builds a target, and returns its id and its third-party dependencies. -/
def reportedBuild (d : Target) : Build (ObjectId × List String) := do
  let t ← prepare d
  let thirdParty ← complete t d
  return (t, thirdParty)

theorem build_eq (d : Target) : build d = Prod.fst <$> reportedBuild d := by
  have hheader : ∀ (t : ObjectId) (rest : Build ObjectId),
      (if !d.isTest then do edit (Project.addFrameworkHeader t d.header); rest else rest) =
        (do edit (Project.addFrameworkHeader t d.filedHeader); rest) := by
    intro t rest
    unfold Target.filedHeader
    cases d.isTest with
    | true => exact (pure_bind () fun _ => rest).symm
    | false => rfl
  have hcopy : ∀ (t : ObjectId) (names : List String),
      (if d.isTest && !names.isEmpty then do addCopyFrameworksPhase t names; pure t else pure t) =
        (if d.isTest && !names.isEmpty then do addCopyFrameworksPhase t names; pure names
          else pure names) >>= fun _ => pure t := by
    intro t names
    split
    · simp only [bind_assoc, pure_bind]
    · simp only [pure_bind]
  unfold build reportedBuild prepare complete Project.enter Project.equip
  simp only [edit_bind, edit_pure, edit_discard, map_bind, bind_assoc, pure_bind, map_pure]
  refine bind_congr fun _ => bind_congr fun t => bind_congr fun _ => bind_congr fun _ =>
    bind_congr fun _ => (hheader t _).trans ?_
  refine bind_congr fun _ => bind_congr fun _ => bind_congr fun _ => bind_congr fun _ =>
    bind_congr fun _ => bind_congr fun _ => bind_congr fun _ => bind_congr fun names =>
    bind_congr fun _ => ?_
  exact hcopy t names

end Build

/-! ## What a build brings about -/

namespace Project

variable [IdScheme] {p q : Project} {d : Target} {t : ObjectId} {names : List String}
  {tree : FileTree} {b : Builder}

/-- All files below a root that the patterns select are filed. -/
def Selects (p : Project) (tree : FileTree) (root : PathName) (patterns : List String)
    (exclude : Option (List (List String))) : Prop :=
  ∃ files, tree.resolveFiles root patterns exclude = .ok files ∧
    ∀ paths ∈ files, ∀ path ∈ paths, p.IsFiled path

theorem Selects.grows {root : PathName} {patterns : List String}
    {exclude : Option (List (List String))} (hp : p.WellFormed)
    (h : p.Selects tree root patterns exclude) (hpq : p.Grows q) :
    q.Selects tree root patterns exclude := by
  obtain ⟨files, hfiles, hfiled⟩ := h
  exact ⟨files, hfiles, fun paths hpaths path hpath => (hfiled paths hpaths path hpath).grows hp hpq⟩

/-- The target has been prepared for its dependencies. -/
structure Prepared (p : Project) (tree : FileTree) (b : Builder) (d : Target) (t : ObjectId) :
    Prop where
  entered : p.Entered d t
  sources : p.Selects tree b.root d.includeFiles d.excludeFiles
  equipped : p.Equipped d t

theorem Prepared.path (hp : p.WellFormed) (h : p.Prepared tree b d t)
    (hpq : Path (Step.Respects d) p q) : q.Prepared tree b d t where
  entered := h.entered.path hp hpq
  sources := h.sources.grows hp hpq.grows
  equipped := h.equipped.path hp h.entered hpq

/-- The target links all of its dependencies but these, and copies these if it is a test. -/
structure Completed (p : Project) (tree : FileTree) (b : Builder) (d : Target) (t : ObjectId)
    (names : List String) : Prop where
  names_eq : names = (frameworkNames d.dependencies).filter (· ∈ names)
  links : ∀ n ∈ frameworkNames d.dependencies, n ∉ names →
    ∃ f, p.product? n = some f ∧ p.Holds t .frameworks f.id
  resources : ∀ patterns, d.resourceFiles = some patterns → p.Selects tree b.root patterns none
  copies : d.isTest → names ≠ [] →
    p.HasScript t copyFrameworksSlot ⟨copyFrameworksName, b.copyBody, names⟩

theorem Completed.path (hp : p.WellFormed) (h : p.Completed tree b d t names)
    (ht : p.IsNamed t d.name) (hpq : Path (Step.Spares d.name) p q) : q.Completed tree b d t names where
  names_eq := h.names_eq
  links n hn hnot := by
    obtain ⟨f, hf, hholds⟩ := h.links n hn hnot
    exact ⟨f, product?_of_grows hp hf hpq.grows, hholds.grows hp hpq.grows⟩
  resources patterns hpatterns := (h.resources patterns hpatterns).grows hp hpq.grows
  copies htest hne := by
    obtain ⟨a, ha, hname⟩ := ht
    refine (h.copies htest hne).path hp ha hpq fun q' i j new c _ hstep hc hsame => ?_
    exact absurd ⟨c, hc, hsame.trans hname⟩ (hstep.script i j _ new rfl)

omit [IdScheme] in
/-- The names that the target does not link are third-party ones as long as no product has one. -/
theorem Completed.thirdParty_eq (h : p.Completed tree b d t names)
    (hopen : ∀ n ∈ names, p.product? n = none) :
    p.thirdParty (frameworkNames d.dependencies) = names := by
  rw [h.names_eq, thirdParty]
  apply List.filter_congr
  intro n hn
  by_cases hmem : n ∈ names
  · simp [hmem, hopen n hmem]
  · obtain ⟨f, hf, -⟩ := h.links n hn hmem
    simp [hmem, hf]

omit [IdScheme] in
/-- The target links what products have the names of its dependencies. -/
theorem Completed.links_of_open (h : p.Completed tree b d t names)
    (hopen : ∀ n ∈ names, p.product? n = none) : p.Links t (frameworkNames d.dependencies) := by
  intro n hn f hf
  have hnot : n ∉ names := by
    intro hmem
    rw [hopen n hmem] at hf
    cases hf
  obtain ⟨f', hf', hholds⟩ := h.links n hn hnot
  rw [hf] at hf'
  cases hf'
  exact hholds

/-- The target has been built. -/
structure Built (p : Project) (tree : FileTree) (b : Builder) (d : Target) (t : ObjectId)
    (names : List String) : Prop where
  prepared : p.Prepared tree b d t
  completed : p.Completed tree b d t names

theorem Built.path (hp : p.WellFormed) (h : p.Built tree b d t names)
    (hpq : Path (Step.Spares d.name) p q) : q.Built tree b d t names where
  prepared := h.prepared.path hp (hpq.mono fun _ _ => Step.Spares.respects)
  completed := h.completed.path hp h.prepared.entered.isNamed hpq

end Project

/-! ## Building -/

namespace Build

open Project

variable [IdScheme] {d : Target} {t : ObjectId} {s : BuildState}

theorem fileAll_of_selects {patterns : List String} {exclude : Option (List (List String))}
    (hs : s.project.WellFormed)
    (h : s.project.Selects s.workspace.tree s.builder.root patterns exclude) (kind : PhaseKind) :
    fileAll t kind patterns exclude s = .ok () s := by
  obtain ⟨files, hfiles, hfiled⟩ := h
  have hresolve : resolveFiles patterns exclude s = .ok files s := by rw [resolveFiles, hfiles]
  rw [fileAll, bind_of_ok hresolve]
  exact edit_of_ok (addFiles_of_isFiled hs hfiled kind)

theorem performs_fileAll (hs : s.project.WellFormed) (ht : s.project.IsNamed t d.name)
    (kind : PhaseKind) (hkind : kind.claims) (patterns : List String)
    (exclude : Option (List (List String))) (p₀ : Project) :
    Build.Performs (PrepareStep d p₀) (fileAll t kind patterns exclude) s fun _ s' =>
      s.SameFiles s' ∧ s'.project.Selects s.workspace.tree s.builder.root patterns exclude := by
  obtain ⟨a, ha, hname⟩ := ht
  cases hfiles : s.workspace.tree.resolveFiles s.builder.root patterns exclude with
  | error e =>
    have hresolve : resolveFiles patterns exclude s = .error (.file e) s := by
      rw [resolveFiles, hfiles]
    exact .of_outer (bind_of_error hresolve) trivial id
  | ok files =>
    have hresolve : resolveFiles patterns exclude s = .ok files s := by rw [resolveFiles, hfiles]
    refine .bind_read hresolve ?_
    refine (performs_addFiles hs ha kind files).edit.mono ?_ ?_
    · exact fun q s h => .of_addingSteps hkind (hname ▸ h)
    · rintro _ s' - ⟨hfiled, hstate⟩
      exact ⟨.of_eq hstate, files, hfiles, hfiled⟩

/-! ### Preparing -/

theorem performs_place (hs : s.project.WellFormed) (d : Target) :
    Build.Performs (PrepareStep d s.project) (place d) s fun t s' =>
      s.SameFiles s' ∧ s'.project.Entered d t ∧
        s'.project.Selects s.workspace.tree s.builder.root d.includeFiles d.excludeFiles := by
  let s₀ : BuildState :=
    { s with workspace.printed := s.workspace.printed ++ ["generating " ++ d.name] }
  have hs₀ : s.SameFiles s₀ := ⟨rfl, rfl⟩
  have hsay : Build.Performs (PrepareStep d s.project) (say ("generating " ++ d.name)) s
      fun _ s' => s' = s₀ :=
    Leads.of_eq_ok (a := ()) rfl ⟨.refl, rfl⟩
  refine hsay.bind ?_
  rintro _ _ - rfl
  refine (performs_enter (p := s₀.project) hs d s.project).edit.bind ?_
  rintro t s₁ h₁ ⟨hentered, hstate₁⟩
  have hs₁ := hs₀.trans (.of_eq hstate₁)
  have hp₁ := h₁.wellFormed hs
  refine (performs_fileAll hp₁ hentered.isNamed .sources rfl d.includeFiles d.excludeFiles
    s.project).bind ?_
  rintro _ s₂ h₂ ⟨hfiles₂, hsources⟩
  rw [hs₁.tree, hs₁.builder] at hsources
  exact .of_ok rfl ⟨hs₁.trans hfiles₂,
    hentered.path hp₁ (h₂.mono fun _ _ h => h.inBuild.respects), hsources⟩

theorem prepare_eq (d : Target) : prepare d = do
    let t ← place d
    edit (Project.equip t d)
    return t := by
  simp only [prepare, place, bind_assoc, pure_bind]

theorem performs_prepare (hs : s.project.WellFormed) (d : Target) :
    Build.Performs (PrepareStep d s.project) (prepare d) s fun t s' =>
      s.SameFiles s' ∧ s'.project.Prepared s.workspace.tree s.builder d t := by
  rw [prepare_eq]
  refine (performs_place hs d).bind ?_
  rintro t s₁ h₁ ⟨hfiles₁, hentered, hsources⟩
  have hp₁ := h₁.wellFormed hs
  have hsound : s.project.Sound → s₁.project.Sound :=
    (h₁.mono fun _ _ h => h.toBuildStep).sound_of_buildStep hs
  refine (performs_equip hp₁ hentered hsound).edit.bind ?_
  rintro _ s₂ h₂ ⟨hequipped, hstate₂⟩
  refine .of_ok rfl ⟨hfiles₁.trans (.of_eq hstate₂), ?_, ?_, hequipped⟩
  · exact hentered.path hp₁ (h₂.mono fun _ _ h => h.inBuild.respects)
  · exact hsources.grows hp₁ h₂.grows

theorem prepare_of_prepared (hs : s.project.WellFormed)
    (h : s.project.Prepared s.workspace.tree s.builder d t) :
    prepare d s = .ok t
      { s with workspace.printed := s.workspace.printed ++ ["generating " ++ d.name] } := by
  let s₀ : BuildState :=
    { s with workspace.printed := s.workspace.printed ++ ["generating " ++ d.name] }
  have hsay : say ("generating " ++ d.name) s = .ok () s₀ := rfl
  have henter : edit (enter d) s₀ = .ok t s₀ := edit_of_ok (enter_of_entered hs h.entered)
  have hsources : fileAll t .sources d.includeFiles d.excludeFiles s₀ = .ok () s₀ :=
    fileAll_of_selects (s := s₀) hs h.sources .sources
  have hequip : edit (equip t d) s₀ = .ok () s₀ :=
    edit_of_ok (equip_of_equipped hs h.entered.isNamed h.equipped)
  rw [prepare, bind_of_ok hsay, bind_of_ok henter, bind_of_ok hsources, bind_of_ok hequip]
  rfl

/-! ### Completing -/

theorem addResourceFiles_of_selects (hs : s.project.WellFormed)
    (h : ∀ patterns, d.resourceFiles = some patterns →
      s.project.Selects s.workspace.tree s.builder.root patterns none) :
    addResourceFiles t d.resourceFiles s = .ok () s := by
  cases hresources : d.resourceFiles with
  | none => rfl
  | some patterns => exact fileAll_of_selects hs (h patterns hresources) .resources

theorem performs_addResourceFiles (hs : s.project.WellFormed) (ht : s.project.IsNamed t d.name)
    (p₀ : Project) :
    Build.Performs (PrepareStep d p₀) (addResourceFiles t d.resourceFiles) s fun _ s' =>
      s.SameFiles s' ∧ ∀ patterns, d.resourceFiles = some patterns →
        s'.project.Selects s.workspace.tree s.builder.root patterns none := by
  cases d.resourceFiles with
  | none => exact .of_ok (a := ()) rfl ⟨.refl s, by simp⟩
  | some patterns =>
    refine (performs_fileAll hs ht .resources rfl patterns none p₀).mono (fun _ _ h => h) ?_
    rintro _ s' - ⟨hfiles, hselects⟩
    refine ⟨hfiles, ?_⟩
    rintro _ ⟨⟩
    exact hselects

theorem addCopyFrameworksPhase_of_hasScript {names : List String} (hs : s.project.WellFormed)
    (hb : s.builder.scriptsDirectory = none)
    (h : s.project.HasScript t copyFrameworksSlot
      ⟨copyFrameworksName, s.builder.copyBody, names⟩) :
    addCopyFrameworksPhase t names s = .ok () s := by
  rw [Builder.copyBody, hb] at h
  rw [addCopyFrameworksPhase, get_bind, hb]
  exact edit_of_ok (addScriptPhase_of_hasScript hs h)

theorem performs_addCopyFrameworksPhase (hs : s.project.WellFormed)
    (ht : s.project.IsNamed t d.name) (names : List String) :
    Build.Performs (ScriptSteps t d.name copyFrameworksSlot
        ⟨copyFrameworksName, s.builder.copyBody, names⟩)
      (addCopyFrameworksPhase t names) s fun _ s' =>
      (s.builder.scriptsDirectory = none → s.SameFiles s') ∧
        s'.project.HasScript t copyFrameworksSlot
          ⟨copyFrameworksName, s.builder.copyBody, names⟩ := by
  have hscript : ∀ (body : String) (s' : BuildState), s'.project = s.project →
      Build.Performs (ScriptSteps t d.name copyFrameworksSlot ⟨copyFrameworksName, body, names⟩)
        (edit (addScriptPhase t copyFrameworksSlot ⟨copyFrameworksName, body, names⟩)) s'
        fun _ s'' => s''.project.HasScript t copyFrameworksSlot ⟨copyFrameworksName, body, names⟩ ∧
          s'.SameFiles s'' := by
    intro body s' hproject
    obtain ⟨a, ha, hname⟩ := ht
    have hadd := performs_addScriptPhase (hproject ▸ hs) (hproject ▸ ha) copyFrameworksSlot
      ⟨copyFrameworksName, body, names⟩
    rw [hname] at hadd
    exact hadd.edit.mono (fun _ _ h => h) fun _ s'' _ h => ⟨h.1, .of_eq h.2⟩
  refine .bind_read (a := s) rfl ?_
  unfold Builder.copyBody
  cases hdirectory : s.builder.scriptsDirectory with
  | none =>
    refine (hscript CopyScript.text s rfl).mono (fun _ _ h => h) ?_
    exact fun _ s' _ h => ⟨fun _ => h.2, h.1⟩
  | some directory =>
    refine OnFiles.installTemplate.performs.bind fun _ s' _ hs' => ?_
    refine (hscript _ s' hs').mono (fun _ _ h => h) ?_
    exact fun _ s'' _ h => ⟨by simp, h.1⟩

theorem performs_complete (hs : s.project.WellFormed) (ht : s.project.IsNamed t d.name)
    (p₀ : Project) :
    Build.Performs (CopyingStep d s.builder.copyBody p₀) (complete t d) s fun names s' =>
      (s.builder.scriptsDirectory = none → s.SameFiles s') ∧
        s'.project.Completed s.workspace.tree s.builder d t names ∧
        (∀ n ∈ names, s.project.product? n = none) ∧
        (names = [] → Path (PrepareStep d p₀) s.project s'.project) := by
  obtain ⟨a, ha, hname⟩ := ht
  have hlink : Edit.Performs (PrepareStep d p₀) (linkDependencies t d.dependencies) s.project _ :=
    (performs_linkDependencies hs ha d.dependencies).weaken fun _ _ h => .of_linkingSteps (hname ▸ h)
  refine (hlink.edit.widen fun _ _ h => h.toCopyingStep _).bind ?_
  rintro names s₁ h₁ ⟨hprepare₁, ⟨hnames, hholds⟩, hstate₁⟩
  have hfiles₁ : s.SameFiles s₁ := .of_eq hstate₁
  have hp₁ := h₁.wellFormed hs
  have hnamed₁ : s₁.project.IsNamed t d.name := IsNamed.grows ⟨a, ha, hname⟩ h₁.grows
  refine ((performs_addResourceFiles hp₁ hnamed₁ p₀).widen fun _ _ h => h.toCopyingStep _).bind ?_
  rintro _ s₂ h₂ ⟨hprepare₂, hfiles₂, hresources⟩
  have hfiles := hfiles₁.trans hfiles₂
  have hp₂ := h₂.wellFormed hp₁
  rw [hfiles₁.tree, hfiles₁.builder] at hresources
  have hopen : ∀ n ∈ names, s.project.product? n = none := by
    intro n hn
    rw [hnames] at hn
    exact (mem_thirdParty.1 hn).2
  -- Whatever comes last, the names that are products are linked.
  have hcompleted : ∀ q, Path (CopyingStep d s.builder.copyBody p₀) s₂.project q →
      (d.isTest → names ≠ [] →
        q.HasScript t copyFrameworksSlot ⟨copyFrameworksName, s.builder.copyBody, names⟩) →
      q.Completed s.workspace.tree s.builder d t names := by
    intro q hq hcopies
    constructor
    · rw [hnames]
      refine List.filter_congr fun n hn => ?_
      rw [Bool.eq_iff_iff]
      simp [mem_thirdParty, hn]
    · intro n hn hnot
      cases hf : s.project.product? n with
      | none => exact absurd (hnames ▸ mem_thirdParty.2 ⟨hn, hf⟩) hnot
      | some f =>
        have hpath := h₂.trans hq
        exact ⟨f, product?_of_grows hs hf (h₁.trans hpath).grows,
          (hholds n hn f hf).grows hp₁ hpath.grows⟩
    · exact fun patterns hpatterns => (hresources patterns hpatterns).grows hp₂ hq.grows
    · exact hcopies
  cases hcopy : d.isTest && !names.isEmpty with
  | false =>
    refine .of_ok rfl ⟨fun _ => hfiles, hcompleted _ .refl fun htest hne => ?_, hopen,
      fun _ => hprepare₁.trans hprepare₂⟩
    rw [htest] at hcopy
    simp [hne] at hcopy
  | true =>
    have hnamed₂ := hnamed₁.grows h₂.grows
    refine ((performs_addCopyFrameworksPhase hp₂ hnamed₂ names).restrict ?_).bind ?_
    · intro q s' hpath _ h
      refine ⟨.of_scriptSteps (hnamed₂.grows hpath.grows) (.inr ⟨rfl, rfl⟩) h, fun script hscript => ?_⟩
      rw [hfiles.builder] at h
      rcases h with rfl | ⟨j, rfl⟩ <;> cases hscript <;> rfl
    rintro _ s₃ h₃ ⟨hfiles₃, hscript⟩
    rw [hfiles.builder] at hfiles₃ hscript
    refine .of_ok rfl ⟨fun hb => hfiles.trans (hfiles₃ hb), hcompleted _ h₃ fun _ _ => hscript, hopen,
      fun hnil => ?_⟩
    rw [hnil] at hcopy
    simp at hcopy

theorem complete_of_completed {names : List String} (hs : s.project.WellFormed)
    (hb : s.builder.scriptsDirectory = none)
    (h : s.project.Completed s.workspace.tree s.builder d t names)
    (hopen : ∀ n ∈ names, s.project.product? n = none) : complete t d s = .ok names s := by
  have hlink : edit (linkDependencies t d.dependencies) s = .ok names s := by
    apply edit_of_ok
    rw [linkDependencies_of_links hs (h.links_of_open hopen), h.thirdParty_eq hopen]
  rw [complete, bind_of_ok hlink, bind_of_ok (addResourceFiles_of_selects hs h.resources)]
  cases hcopy : d.isTest && !names.isEmpty with
  | false => rfl
  | true =>
    simp only [Bool.and_eq_true, Bool.not_eq_true', List.isEmpty_eq_false_iff] at hcopy
    show (addCopyFrameworksPhase t names >>= fun _ => pure names) s = _
    rw [bind_of_ok (addCopyFrameworksPhase_of_hasScript hs hb (h.copies hcopy.1 hcopy.2))]
    rfl

/-! ### The whole build -/

theorem performs_copyingBuild (hs : s.project.WellFormed) (d : Target) :
    Build.Performs (CopyingStep d s.builder.copyBody s.project) (reportedBuild d) s fun r s' =>
      (s.builder.scriptsDirectory = none → s.SameFiles s') ∧
        s'.project.Built s.workspace.tree s.builder d r.1 r.2 ∧
        (s.project.Apart → ∀ n ∈ r.2, s'.project.product? n = none) ∧
        (r.2 = [] → Path (PrepareStep d s.project) s.project s'.project) := by
  refine ((performs_prepare hs d).widen fun _ _ h => h.toCopyingStep _).bind ?_
  rintro t s₁ h₁ ⟨hprepare, hfiles₁, hprepared⟩
  have hp₁ := h₁.wellFormed hs
  have hnamed := hprepared.entered.isNamed
  -- The rest of the build respects what has been prepared.
  have hcomplete := performs_complete hp₁ hnamed s.project
  rw [hfiles₁.builder] at hcomplete
  refine hcomplete.bind ?_
  rintro names s₂ h₂ ⟨hfiles₂, hcompleted, hopen, hnil⟩
  rw [hfiles₁.tree] at hcompleted
  have hbuild := h₂.mono fun _ _ h => h.inBuild
  refine .of_ok rfl ⟨fun hb => hfiles₁.trans (hfiles₂ hb), ⟨?_, hcompleted⟩, fun hapart n hn => ?_,
    fun hn => hprepare.trans (hnil hn)⟩
  · exact hprepared.path hp₁ (hbuild.mono fun _ _ => InBuild.respects)
  · -- The only product that a build makes is there before its target is linked.
    by_contra hproduct
    rcases hbuild.product?_of_inBuild hp₁ (h₁.apart hs hapart) hproduct with hold | rfl
    · exact hold (hopen n hn)
    · obtain ⟨f, -, hf, -⟩ := hprepared.equipped.product
      rw [hopen _ hn] at hf
      cases hf

theorem performs_reportedBuild (hs : s.project.WellFormed) (d : Target) :
    Build.Performs (BuildStep d s.project) (reportedBuild d) s fun r s' =>
      (s.builder.scriptsDirectory = none → s.SameFiles s') ∧
        s'.project.Built s.workspace.tree s.builder d r.1 r.2 ∧
        (s.project.Apart → ∀ n ∈ r.2, s'.project.product? n = none) ∧
        (r.2 = [] → Path (PrepareStep d s.project) s.project s'.project) :=
  (performs_copyingBuild hs d).weaken fun _ _ h => h.toBuildStep

theorem performs_build (hs : s.project.WellFormed) (d : Target) :
    Build.Performs (BuildStep d s.project) (build d) s fun t s' =>
      ∃ names, s'.project.Built s.workspace.tree s.builder d t names := by
  rw [build_eq]
  exact Performs.map (performs_reportedBuild hs d) fun r _ h => ⟨r.2, h.2.1⟩

/-- A target that has been built is not changed by its build. -/
theorem reportedBuild_of_built {names : List String} (hs : s.project.WellFormed)
    (hb : s.builder.scriptsDirectory = none)
    (h : s.project.Built s.workspace.tree s.builder d t names)
    (hopen : ∀ n ∈ names, s.project.product? n = none) :
    reportedBuild d s = .ok (t, names)
      { s with workspace.printed := s.workspace.printed ++ ["generating " ++ d.name] } := by
  let s₀ : BuildState :=
    { s with workspace.printed := s.workspace.printed ++ ["generating " ++ d.name] }
  have hcomplete : complete t d s₀ = .ok names s₀ :=
    complete_of_completed (s := s₀) hs hb h.completed hopen
  rw [reportedBuild, bind_of_ok (prepare_of_prepared hs h.prepared), bind_of_ok hcomplete]
  rfl

end Build
end ProjectGraph
