import ProjectGraph.Proofs.Builds.Built
import ProjectGraph.Proofs.Builds.Filed

/-! # What builds file

A build files paths in this order: the property list of the target, its header, its sources and its
resources. All other parts of it file nothing. -/

namespace ProjectGraph

/-! ## The filings of a target -/

/-- The files that patterns select below a root, in order. Patterns that are refused select nothing. -/
def FileTree.selected (tree : FileTree) (root : PathName) (patterns : List String)
    (exclude : Option (List (List String))) : List String :=
  match tree.resolveFiles root patterns exclude with
  | .ok files => files.flatten
  | .error _ => []

namespace Target

variable (d : Target) (tree : FileTree) (root : PathName)

/-- The filing of a path into a phase of the target. -/
def filing (kind : PhaseKind) (path : String) : Filing := (path, some (d.name, kind))

/-- The filing of the property list and the header. -/
def plainFilings : List Filing := (d.infoPlist :: d.filedHeader.toList).map fun path => (path, none)

def sourceFilings : List Filing :=
  (tree.selected root d.includeFiles d.excludeFiles).map (d.filing .sources)

def resourceFilings : List Filing :=
  d.resourceFiles.toList.flatMap fun patterns =>
    (tree.selected root patterns none).map (d.filing .resources)

/-- What a build of the target files, in order. -/
def filings : List Filing := d.plainFilings ++ d.sourceFilings tree root ++ d.resourceFilings tree root

end Target

/-! ## What operations file -/

/-- Where the operation succeeds, it files these, in order. -/
def Files [IdScheme] {σ α : Type} (view : σ → Project) (x : EStateM Error σ α) (s : σ)
    (fs : List Filing) : Prop :=
  ∀ a s', x s = .ok a s' → (view s).Gains (view s') fs

abbrev Edit.Files [IdScheme] {α : Type} (x : Edit α) (p : Project) (fs : List Filing) : Prop :=
  ProjectGraph.Files (fun p => p) x p fs

abbrev Build.Files [IdScheme] {α : Type} (x : Build α) (s : BuildState) (fs : List Filing) : Prop :=
  ProjectGraph.Files BuildState.project x s fs

namespace Files

variable [IdScheme] {σ α β : Type} {view : σ → Project} {A : Project → Step → Prop}
  {x : EStateM Error σ α} {f : α → EStateM Error σ β} {s : σ} {a : α} {R : α → σ → Prop}
  {fs es : List Filing}

theorem pure (a : α) (s : σ) : Files view (pure a) s [] := by
  rintro _ _ ⟨⟩
  exact .refl _

theorem of_error {e : Error} {s' : σ} (h : x s = .error e s') : Files view x s fs := by
  intro a s'' h'
  rw [h] at h'
  cases h'

/-- An operation of quiet steps files nothing. -/
theorem of_quiet (hx : Performs view A x s R) (hA : ∀ q t, A q t → t.Quiet) : Files view x s [] :=
  fun _ _ h => (Leads.of_ok hx h).1.gains_of_quiet hA

theorem bind (hx : Files view x s fs) (hR : Performs view A x s R)
    (hf : ∀ a s', Path A (view s) (view s') → R a s' → Files view (f a) s' es) :
    Files view (x >>= f) s (fs ++ es) := by
  intro b s'' h
  obtain ⟨a, s', ha, hb⟩ := exists_of_bind_eq_ok h
  obtain ⟨hpath, hR⟩ := Leads.of_ok hR ha
  exact (hx a s' ha).trans (hf a s' hpath hR b s'' hb)

theorem bind_quiet (hx : Performs view A x s R) (hA : ∀ q t, A q t → t.Quiet)
    (hf : ∀ a s', Path A (view s) (view s') → R a s' → Files view (f a) s' es) :
    Files view (x >>= f) s es :=
  (of_quiet hx hA).bind hx hf

/-- What comes last and files nothing makes no difference. -/
theorem bind_nil (hx : Files view x s fs) (hR : Performs view A x s R)
    (hf : ∀ a s', Path A (view s) (view s') → R a s' → Files view (f a) s' []) :
    Files view (x >>= f) s fs := by
  have hbind := hx.bind hR hf
  rwa [List.append_nil] at hbind

theorem bind_pure (hx : Files view x s fs) (g : α → β) :
    Files view (x >>= fun a => Pure.pure (g a)) s fs := by
  intro b s'' h
  obtain ⟨a, s', ha, hb⟩ := exists_of_bind_eq_ok h
  cases hb
  exact hx a s'' ha

theorem bind_read (hx : x s = .ok a s) (hf : Files view (f a) s fs) : Files view (x >>= f) s fs := by
  intro b s' h
  rw [bind_of_ok hx] at h
  exact hf b s' h

theorem discard (hx : Files view x s fs) : Files view (discard x) s fs := by
  intro u s' h
  obtain ⟨a, ha⟩ := exists_of_discard_eq_ok h
  exact hx a s' ha

/-- A loop files what its rounds file. -/
theorem forM {xs : List β} {f : β → EStateM Error σ PUnit} {K : β → σ → Prop} {e : β → List Filing}
    (hround : ∀ y ∈ xs, ∀ s', Path A (view s) (view s') →
      Performs view A (f y) s' (fun _ => K y) ∧ Files view (f y) s' (e y)) :
    Files view (xs.forM f) s (xs.flatMap e) := by
  induction xs generalizing s with
  | nil => exact .pure PUnit.unit s
  | cons y ys ih =>
    obtain ⟨hperforms, hfiles⟩ := hround y (by simp) s .refl
    refine hfiles.bind hperforms fun _ s' hpath _ => ih fun z hz s'' hpath' => ?_
    exact hround z (List.mem_cons_of_mem y hz) s'' (hpath.trans hpath')

end Files

theorem Edit.Files.edit [IdScheme] {α : Type} {x : Edit α} {s : BuildState} {fs : List Filing}
    (h : Edit.Files x s.project fs) : Build.Files (Build.edit x) s fs := by
  intro a s' hedit
  rw [Build.edit_eq] at hedit
  cases hx : x s.project with
  | ok b p =>
    rw [hx] at hedit
    cases hedit
    exact h a p hx
  | error e p =>
    rw [hx] at hedit
    cases hedit

namespace Project

variable [IdScheme] {p q : Project} {t : ObjectId} {path : String}

/-! ### Filing files -/

theorem files_fileReferenceFor (hp : p.WellFormed) (path : String) :
    Edit.Files (fileReferenceFor path) p [(path, none)] := by
  intro f q h
  obtain ⟨hpath, hfiled⟩ := Leads.of_ok (performs_fileReferenceFor hp path) h
  exact hpath.gains_of_filingSteps ⟨f, hfiled⟩

theorem files_addInfoPlist (hp : p.WellFormed) (path : String) :
    Edit.Files (addInfoPlist path) p [(path, none)] :=
  (files_fileReferenceFor hp path).discard

theorem files_addFrameworkHeader (hp : p.WellFormed) {a : NativeTarget}
    (ha : p.content? t = some (.target a)) (header : Option String) :
    Edit.Files (addFrameworkHeader t header) p (header.toList.map fun path => (path, none)) := by
  cases header with
  | none => exact .pure () p
  | some path =>
    refine (files_fileReferenceFor hp path).bind_nil (performs_fileReferenceFor hp path)
      fun f q hpq hf => ?_
    obtain ⟨b, hb, -⟩ := hpq.grows.target ha
    refine .of_quiet (performs_addFileToPhase (hpq.wellFormed hp) hb .headers hf.content? _) ?_
    exact fun _ _ => Step.quiet_of_fileSteps (by decide)

/-- The file that a phase holds is in it by a build file. -/
theorem Holds.joins {kind : PhaseKind} {file : ObjectId} (hp : p.WellFormed)
    (h : p.Holds t kind file) {a : NativeTarget} (ha : p.content? t = some (.target a)) :
    p.Joins a.name kind file := by
  obtain ⟨x, f, hx, hf⟩ := h
  obtain ⟨hphase, hplace⟩ := hx.content?
  obtain ⟨r, hr, hid, c, hc, hview⟩ := exists_of_first hf
  obtain ⟨rfl, hfile⟩ := Content.buildFileOf?_eq_some.1 hview
  obtain ⟨htarget, hkind⟩ := hp.buildFiles x.id x.content hphase r hr f.content hc
  refine ⟨r.id, f.content, hc, htarget.trans (hx.target hp ha), ?_, hfile⟩
  rw [hplace] at hkind
  exact (Sum.inl.inj hkind).symm

/-- A new path goes into the phase, one that is filed stays where it is. -/
theorem files_addFile (hp : p.WellFormed) {a : NativeTarget} (ha : p.content? t = some (.target a))
    (kind : PhaseKind) (path : String) :
    Edit.Files (addFile t kind path) p [(path, some (a.name, kind))] := by
  intro u q h
  obtain ⟨i, r, hgroup, h⟩ := exists_of_bind_eq_ok h
  obtain ⟨hpr, hi⟩ := Leads.of_ok (performs_groupForPath p (Text.directoryOf path)) hgroup
  have hquiet : p.Gains r [] := hpr.gains_of_quiet <| by
    rintro q s ⟨j, above, name, rfl, -⟩
    exact ⟨rfl, by simp [Step.slot?]⟩
  refine hquiet.trans ?_
  have hr := hpr.wellFormed hp
  obtain ⟨g, hg⟩ := hr.fileGroup hi
  rw [bind_of_ok (findFileReference_eq hr hg path)] at h
  cases hfirst : r.first (Content.fileAt? path) g.children with
  | some f =>
    rw [hfirst] at h
    cases h
    exact gains_of_isFiled ⟨f, i, g, hi, hg, hfirst⟩ _
  | none =>
    rw [hfirst] at h
    obtain ⟨f, r', hfile, h⟩ := exists_of_bind_eq_ok h
    obtain ⟨hrr', hfiled, -, hfree⟩ :=
      Leads.of_ok (performs_newFileReference_of_fileGroup hr hi hg hfirst) hfile
    have hgains := hrr'.gains_of_filingSteps ⟨f, hfiled⟩
    have hr' := hrr'.wellFormed hr
    obtain ⟨b, hb, hname, -⟩ := (hpr.grows.trans hrr'.grows).target ha
    obtain ⟨hpath, hholds⟩ :=
      Leads.of_ok (performs_addFileToPhase hr' hb kind hfiled.content? none) h
    refine ⟨fun fs hfs => ?_, fun path' j hj => ?_⟩
    · have hfs' := hgains.filedBy fs hfs
      have hsource := hfs'.source hfiled
      have hnew : fs.lookup path = none := by
        rw [← Option.not_isSome_iff_eq_none, ← hfs.exists_iff]
        rintro ⟨j, hj⟩
        rw [← hr'.source_unique (hrr'.grows.file hj) hsource, hj] at hfree
        cases hfree
      obtain ⟨c, hc, hname', -⟩ := hpath.grows.target hb
      have hjoins := hholds.joins (hpath.wellFormed hr') hc
      rw [hname'] at hjoins
      rw [← hname]
      exact hpath.filedBy_of_fileSteps hfs' hnew hsource hjoins
    · have hj' : r'.Source path' j := hpath.source_of_source (by
        rintro r j (h | ⟨k, b, h, -⟩) <;> cases h) hj
      exact hgains.sources path' j hj'

theorem files_forM_addFile (hp : p.WellFormed) {a : NativeTarget}
    (ha : p.content? t = some (.target a)) (kind : PhaseKind) (paths : List String) :
    Edit.Files (paths.forM (addFile t kind)) p (paths.map fun path => (path, some (a.name, kind))) := by
  rw [List.map_eq_flatMap]
  refine Files.forM (A := AddingSteps t a.name kind) (K := fun path q => q.IsFiled path) ?_
  intro path _ q hpq
  obtain ⟨b, hb, hname, -⟩ := hpq.grows.target ha
  rw [← hname]
  exact ⟨performs_addFile (hpq.wellFormed hp) hb kind path, files_addFile (hpq.wellFormed hp) hb kind path⟩

theorem files_addFiles (hp : p.WellFormed) {a : NativeTarget}
    (ha : p.content? t = some (.target a)) (kind : PhaseKind) (paths : List (List String)) :
    Edit.Files (addFiles t kind paths) p
      (paths.flatten.map fun path => (path, some (a.name, kind))) := by
  rw [List.map_flatten, ← List.flatMap_def]
  refine Files.forM (A := AddingSteps t a.name kind)
    (K := fun ps q => ∀ path ∈ ps, q.IsFiled path) ?_
  intro ps _ q hpq
  obtain ⟨b, hb, hname, -⟩ := hpq.grows.target ha
  have hq := hpq.wellFormed hp
  rw [← hname]
  exact ⟨performs_forM_addFile hq hb kind ps, files_forM_addFile hq hb kind ps⟩

/-! ### Builds -/

variable {d : Target}

theorem files_enter (hp : p.WellFormed) (d : Target) : Edit.Files (enter d) p d.plainFilings := by
  have hplain : d.plainFilings =
      [(d.infoPlist, none)] ++ d.filedHeader.toList.map fun path => (path, none) := rfl
  rw [hplain]
  refine Files.bind_quiet (performs_newNativeTarget hp d.name d.kind) ?_ fun t p₁ h₁ htarget => ?_
  · rintro q s rfl
    exact Step.quiet_of_isQuiet rfl rfl
  have hp₁ := h₁.wellFormed hp
  obtain ⟨a₁, ha₁, -⟩ := htarget.isNamed
  refine Files.bind_quiet (performs_newConfigurationList hp₁ ha₁ _ _ _)
    (fun _ _ => Step.quiet_of_listSteps) fun _ p₂ h₂ _ => ?_
  have hp₂ := h₂.wellFormed hp₁
  obtain ⟨a₂, ha₂, -⟩ := h₂.grows.target ha₁
  refine Files.bind_quiet (performs_addBuildScripts hp₂ ha₂ .pre d.preBuildScripts)
    (fun _ _ => Step.quiet_of_stageSteps (.inl rfl)) fun _ p₃ h₃ _ => ?_
  have hp₃ := h₃.wellFormed hp₂
  obtain ⟨a₃, ha₃, -⟩ := h₃.grows.target ha₂
  refine Files.bind (files_addInfoPlist hp₃ d.infoPlist) (performs_addInfoPlist hp₃ d.infoPlist)
    fun _ p₄ h₄ _ => ?_
  obtain ⟨a₄, ha₄, -⟩ := h₄.grows.target ha₃
  exact (files_addFrameworkHeader (h₄.wellFormed hp₃) ha₄ d.filedHeader).bind_pure fun _ => t

theorem files_equip (hp : p.WellFormed) (he : p.Entered d t) : Edit.Files (equip t d) p [] := by
  refine Files.bind_quiet (performs_composeSettings hp he.list d)
    (fun _ _ => Step.quiet_of_settingsSteps) fun _ p₁ h₁ _ => ?_
  have hp₁ := h₁.wellFormed hp
  obtain ⟨a₁, ha₁, -⟩ := he.isNamed.grows h₁.grows
  refine Files.bind_quiet (performs_newProductReference hp₁ ha₁ d.name d.kind).discard
    (fun _ _ => Step.quiet_of_productSteps) fun _ p₂ h₂ _ => ?_
  have hp₂ := h₂.wellFormed hp₁
  obtain ⟨a₂, ha₂, -⟩ := h₂.grows.target ha₁
  refine Files.bind_quiet (performs_addBuildPhase hp₂ ha₂ .resources) ?_ fun _ p₃ h₃ _ => ?_
  · rintro q s rfl
    exact Step.quiet_of_isQuiet rfl rfl
  have hp₃ := h₃.wellFormed hp₂
  obtain ⟨a₃, ha₃, -⟩ := h₃.grows.target ha₂
  refine Files.bind_quiet (performs_addBuildPhase hp₃ ha₃ .frameworks) ?_ fun _ p₄ h₄ _ => ?_
  · rintro q s rfl
    exact Step.quiet_of_isQuiet rfl rfl
  obtain ⟨a₄, ha₄, -⟩ := h₄.grows.target ha₃
  exact .of_quiet (performs_addBuildScripts (h₄.wellFormed hp₃) ha₄ .post d.postBuildScripts)
    fun _ _ => Step.quiet_of_stageSteps (.inr rfl)

end Project

namespace Build

open Project

variable [IdScheme] {d : Target} {t : ObjectId} {s : BuildState}

theorem files_fileAll (hs : s.project.WellFormed) (ht : s.project.IsNamed t d.name) (kind : PhaseKind)
    (patterns : List String) (exclude : Option (List (List String))) :
    Build.Files (fileAll t kind patterns exclude) s
      ((s.workspace.tree.selected s.builder.root patterns exclude).map (d.filing kind)) := by
  obtain ⟨a, ha, hname⟩ := ht
  cases hfiles : s.workspace.tree.resolveFiles s.builder.root patterns exclude with
  | error e =>
    have hresolve : resolveFiles patterns exclude s = .error (.file e) s := by
      rw [resolveFiles, hfiles]
    exact .of_error (bind_of_error hresolve)
  | ok files =>
    have hresolve : resolveFiles patterns exclude s = .ok files s := by rw [resolveFiles, hfiles]
    refine .bind_read hresolve ?_
    have hadd := (files_addFiles hs ha kind files).edit
    rw [hname] at hadd
    rw [FileTree.selected, hfiles]
    exact hadd

theorem files_prepare (hs : s.project.WellFormed) (d : Target) :
    Build.Files (prepare d) s
      (d.plainFilings ++ d.sourceFilings s.workspace.tree s.builder.root) := by
  let s₀ : BuildState :=
    { s with workspace.printed := s.workspace.printed ++ ["generating " ++ d.name] }
  have hsay : Build.Performs (fun _ s => s.Quiet) (say ("generating " ++ d.name)) s fun _ s' => s' = s₀ :=
    Leads.of_eq_ok (a := ()) rfl ⟨.refl, rfl⟩
  refine Files.bind_quiet hsay (fun _ _ h => h) ?_
  rintro _ _ - rfl
  refine (files_enter (p := s₀.project) hs d).edit.bind
    (performs_enter (p := s₀.project) hs d s.project).edit ?_
  rintro t s₁ h₁ ⟨hentered, hstate₁⟩
  have hp₁ := h₁.wellFormed hs
  have hfiles₁ : s₀.SameFiles s₁ := .of_eq hstate₁
  have hsources := files_fileAll hp₁ hentered.isNamed .sources d.includeFiles d.excludeFiles
  rw [hfiles₁.tree, hfiles₁.builder] at hsources
  refine hsources.bind_nil (performs_fileAll hp₁ hentered.isNamed .sources rfl
    d.includeFiles d.excludeFiles s.project) fun _ s₂ h₂ _ => ?_
  have hentered₂ := hentered.path hp₁ (h₂.mono fun _ _ h => h.inBuild.respects)
  exact (files_equip (h₂.wellFormed hp₁) hentered₂).edit.bind_pure fun _ => t

theorem files_addResourceFiles (hs : s.project.WellFormed) (ht : s.project.IsNamed t d.name) :
    Build.Files (addResourceFiles t d.resourceFiles) s
      (d.resourceFilings s.workspace.tree s.builder.root) := by
  unfold Target.resourceFilings
  cases d.resourceFiles with
  | none => exact .pure () s
  | some patterns =>
    have hall := files_fileAll hs ht .resources patterns none
    rw [Option.toList_some, List.flatMap_singleton]
    exact hall

theorem files_complete (hs : s.project.WellFormed) (ht : s.project.IsNamed t d.name) :
    Build.Files (complete t d) s (d.resourceFilings s.workspace.tree s.builder.root) := by
  obtain ⟨a, ha, hname⟩ := ht
  refine Files.bind_quiet (performs_linkDependencies hs ha d.dependencies).edit
    (fun _ _ => Step.quiet_of_linkingSteps) ?_
  rintro names s₁ h₁ ⟨-, hstate₁⟩
  have hfiles₁ : s.SameFiles s₁ := .of_eq hstate₁
  have hp₁ := h₁.wellFormed hs
  have hnamed₁ : s₁.project.IsNamed t d.name := IsNamed.grows ⟨a, ha, hname⟩ h₁.grows
  have hresources := files_addResourceFiles hp₁ hnamed₁
  rw [hfiles₁.tree, hfiles₁.builder] at hresources
  refine hresources.bind_nil (performs_addResourceFiles hp₁ hnamed₁ s.project) fun _ s₂ h₂ _ => ?_
  split
  · refine Files.bind_quiet (performs_addCopyFrameworksPhase (h₂.wellFormed hp₁)
      (hnamed₁.grows h₂.grows) names) ?_ fun _ s₃ _ _ => .pure names s₃
    exact fun _ _ => Step.quiet_of_scriptSteps (.inl rfl)
  · exact .pure names s₂

theorem files_reportedBuild (hs : s.project.WellFormed) (d : Target) :
    Build.Files (reportedBuild d) s (d.filings s.workspace.tree s.builder.root) := by
  refine (files_prepare hs d).bind (performs_prepare hs d) ?_
  rintro t s₁ h₁ ⟨hfiles₁, hprepared⟩
  have hcomplete := files_complete (h₁.wellFormed hs) hprepared.entered.isNamed
  rw [hfiles₁.tree, hfiles₁.builder] at hcomplete
  exact hcomplete.bind_pure fun names => (t, names)

end Build
end ProjectGraph
