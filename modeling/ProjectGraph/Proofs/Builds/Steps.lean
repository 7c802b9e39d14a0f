import ProjectGraph.Proofs.Builds.Sound
import ProjectGraph.Proofs.Keys.Findable
import ProjectGraph.Proofs.Operations.Configurations
import ProjectGraph.Proofs.Operations.Dependencies
import ProjectGraph.Proofs.Operations.Files
import ProjectGraph.Proofs.Operations.Schemes
import ProjectGraph.Proofs.Operations.Scripts
import ProjectGraph.Proofs.Operations.Settings
import ProjectGraph.Proofs.Ownership.Apart
import ProjectGraph.Proofs.Ownership.Unique

/-! # The steps of a build

A build of a target works on what belongs to targets of its name, and on files. What another target
has been given it leaves as it is. -/

namespace ProjectGraph

/-! ## Targets by name -/

namespace Project

variable {p q : Project} {t : ObjectId} {name name' : String}

/-- A target of this name is registered under the id. -/
def IsNamed (p : Project) (t : ObjectId) (name : String) : Prop :=
  ∃ a, p.content? t = some (.target a) ∧ a.name = name

theorem IsNamed.unique (h : p.IsNamed t name) (h' : p.IsNamed t name') : name = name' := by
  obtain ⟨a, ha, rfl⟩ := h
  obtain ⟨b, hb, rfl⟩ := h'
  rw [ha] at hb
  cases hb
  rfl

theorem IsNamed.grows (h : p.IsNamed t name) (hpq : p.Grows q) : q.IsNamed t name := by
  obtain ⟨a, ha, rfl⟩ := h
  obtain ⟨b, hb, hname, -⟩ := hpq.target ha
  exact ⟨b, hb, hname⟩

end Project

/-! ## What a build does -/

namespace Target

/-- The target declares the script for one of its stages. -/
def Declares (d : Target) (slot : String) (script : Script) : Prop :=
  Project.Declares .pre 0 (d.preBuildScripts.getD []) slot script ∨
    Project.Declares .post 0 (d.postBuildScripts.getD []) slot script

/-- The path of the target's product. -/
abbrev productPath (d : Target) : String := Project.productPath d.name d.kind

/-- The build of the target gives the slot this script. -/
def Runs (d : Target) (slot : String) (script : Script) : Prop :=
  d.Declares slot script ∨ slot = copyFrameworksSlot ∧ script.name = copyFrameworksName

theorem Declares.ne_copyFrameworks {d : Target} {slot : String} {script : Script}
    (h : d.Declares slot script) : slot ≠ copyFrameworksSlot := by
  rcases h with ⟨k, -, rfl⟩ | ⟨k, -, rfl⟩
  · exact scriptSlot_pre_ne_copyFrameworks _
  · exact scriptSlot_post_ne_copyFrameworks _

/-- A slot is declared one script. -/
theorem Declares.unique {d : Target} {slot : String} {script script' : Script}
    (h : d.Declares slot script) (h' : d.Declares slot script') : script' = script := by
  rcases h with h | h <;> rcases h' with h' | h'
  · exact h.unique h'
  · obtain ⟨k, -, rfl⟩ := h
    obtain ⟨k', -, hslot⟩ := h'
    exact absurd hslot (scriptSlot_pre_ne_post _ _)
  · obtain ⟨k, -, rfl⟩ := h
    obtain ⟨k', -, hslot⟩ := h'
    exact absurd hslot.symm (scriptSlot_pre_ne_post _ _)
  · exact h.unique h'

/-- A slot is given scripts of one name only. -/
theorem Runs.name_unique {d : Target} {slot : String} {script script' : Script}
    (h : d.Runs slot script) (h' : d.Runs slot script') : script'.name = script.name := by
  rcases h with h | ⟨hslot, hname⟩ <;> rcases h' with h' | ⟨hslot', hname'⟩
  · rw [h.unique h']
  · exact absurd hslot' h.ne_copyFrameworks
  · exact absurd hslot h'.ne_copyFrameworks
  · rw [hname, hname']

theorem Runs.isBuildSlot {d : Target} {slot : String} {script : Script}
    (h : d.Runs slot script) : IsBuildSlot slot := by
  rcases h with (⟨k, -, rfl⟩ | ⟨k, -, rfl⟩) | ⟨rfl, -⟩
  · exact .inr ⟨.pre, _, .inl rfl, rfl⟩
  · exact .inr ⟨.post, _, .inr rfl, rfl⟩
  · exact .inl rfl

end Target

/-- The steps of a build of a target. -/
inductive InBuild [IdScheme] (d : Target) (q : Project) : Step → Prop
  | target {i} : InBuild d q (.attach i (.target d.name d.kind))
  | phase {t kind} : InBuild d q (.attach t (.phase d.name (.files kind)))
  | newScript {t slot script} (runs : d.Runs slot script) :
      InBuild d q (.attach t (.phase d.name (.script slot script)))
  | buildFile {i f} (target : f.target = d.name) : InBuild d q (.attach i (.buildFile f))
  | group {i above name} : InBuild d q (.attach i (.group above name))
  | source {i path} (place : q.fileGroup path = some i) (absent : ∀ f, ¬ q.Filed path f) :
      InBuild d q (.attach i (.source path))
  | newProduct {i type} : InBuild d q (.attach i (.product d.productPath type))
  | configuration {c} (owner : c.owner = d.name) : InBuild d q (.configuration c)
  | configurationList {t l} (owner : l.owner = d.name) : InBuild d q (.configurationList t l)
  | settings {t i} {s₀ : Settings} (target : q.IsNamed t d.name) (configures : q.Configures t i) :
      InBuild d q (.settings i (Settings.compose d s₀.plain))
  | product {t f} (target : q.IsNamed t d.name) (first : q.product? d.productPath = some f) :
      InBuild d q (.product t ⟨f.id, some d.productPath⟩)
  | script {t j slot script} (target : q.IsNamed t d.name) (runs : d.Runs slot script) :
      InBuild d q (.script t j slot script)

/-- The slot whose script a step sets. -/
def Step.slot? : Step → Option String
  | attach _ (.phase _ (.script slot _)) => some slot
  | script _ _ slot _ => some slot
  | _ => none

theorem Step.not_sets {q : Project} {s : Step} {slot : String} (h : s.slot? ≠ some slot)
    (name : String) : ¬ s.Sets q name slot := by
  rintro (⟨i, new, rfl⟩ | ⟨t, a, i, new, rfl, -⟩) <;> exact h rfl

namespace Step

/-- The step registers a configuration or a list of configurations. -/
def isConfiguring : Step → Bool
  | configuration _ | configurationList .. => true
  | _ => false

theorem not_isConfiguring_of_isPlain {s : Step} (h : s.isPlain) : ¬ s.isConfiguring := by
  cases s <;> first | exact Bool.false_ne_true | cases h

/-- The step makes configurations for a target of this name only, and only while the target has no list
of them. -/
def ListsFor (name : String) (q : Project) (s : Step) : Prop :=
  s.isConfiguring →
    ∃ t, q.IsNamed t name ∧ ¬ q.HasList t ∧ ∀ u l, s = .configurationList u l → u = t

end Step

/-- A step of a build that has started at a project. It links what the target depends on, is sound if
the project is, and makes configurations for the target only. -/
structure BuildStep [IdScheme] (d : Target) (p q : Project) (s : Step) : Prop where
  inBuild : InBuild d q s
  links : ∀ name file, s.Files name .frameworks file →
    ∃ n ∈ Project.frameworkNames d.dependencies, ∃ f, q.product? n = some f ∧ f.id = file
  sound : p.Sound → s.Sound q
  lists : s.ListsFor d.name q

/-- A step of a build that does not make the target copy frameworks. -/
structure PrepareStep [IdScheme] (d : Target) (p q : Project) (s : Step) : Prop
    extends BuildStep d p q s where
  slot : s.slot? ≠ some copyFrameworksSlot

/-- A step of a build that has the target copy frameworks by a script with this body, if at all. -/
structure CopyingStep [IdScheme] (d : Target) (body : String) (p q : Project) (s : Step) : Prop
    extends BuildStep d p q s where
  body : ∀ script, s.script? = some (copyFrameworksSlot, script) → script.body = body

theorem Path.sound_of_buildStep [IdScheme] {d : Target} {p q : Project}
    (hpq : Path (BuildStep d p) p q) (hp : p.WellFormed) (h : p.Sound) : q.Sound :=
  (hpq.mono fun _ _ hs => hs.sound h).sound hp h

/-! The steps of the operations that a build is made of. -/

section

open Project

variable [IdScheme] {d : Target} {p q : Project} {s : Step} {t : ObjectId}

theorem BuildStep.of_isPlain (h : InBuild d q s) (hs : s.isPlain) : BuildStep d p q s where
  inBuild := h
  links name file hfiles := absurd hfiles (Step.not_files_of_isPlain hs name _ file)
  sound _ := Step.sound_of_isPlain hs
  lists h := absurd h (Step.not_isConfiguring_of_isPlain hs)

theorem BuildStep.of_scriptSteps {slot : String} {script : Script} (ht : q.IsNamed t d.name)
    (hruns : d.Runs slot script) (h : ScriptSteps t d.name slot script q s) : BuildStep d p q s := by
  rcases h with rfl | ⟨j, rfl⟩
  · exact .of_isPlain (.newScript hruns) rfl
  · exact .of_isPlain (.script ht hruns) rfl

namespace PrepareStep

theorem of_isPlain (h : InBuild d q s) (hs : s.isPlain) (hslot : s.slot? ≠ some copyFrameworksSlot) :
    PrepareStep d p q s where
  toBuildStep := .of_isPlain h hs
  slot := hslot

theorem toCopyingStep (h : PrepareStep d p q s) (body : String) : CopyingStep d body p q s where
  toBuildStep := h.toBuildStep
  body script hs := by
    refine absurd ?_ h.slot
    unfold Step.script? at hs
    split at hs <;> cases hs <;> rfl

theorem target {i : ObjectId} : PrepareStep d p q (.attach i (.target d.name d.kind)) :=
  .of_isPlain .target rfl (by simp [Step.slot?])

theorem phase {kind : PhaseKind} : PrepareStep d p q (.attach t (.phase d.name (.files kind))) :=
  .of_isPlain .phase rfl (by simp [Step.slot?])

theorem of_listSteps (ht : q.IsNamed t d.name) (h : ListSteps t d.name q s) :
    PrepareStep d p q s := by
  obtain ⟨hnone, ⟨platform, language, kind, name, rfl⟩ | ⟨l, rfl, howner⟩⟩ := h
  · refine ⟨⟨.configuration rfl, ?_, fun _ => ?_, fun _ => ⟨t, ht, hnone, by simp⟩⟩,
      by simp [Step.slot?]⟩
    · rintro name' file ⟨i, f, hs, -⟩
      cases hs
    · constructor
      · rintro name' k file - ⟨i, f, hs, -⟩
        cases hs
      · rintro name' file ⟨i, f, hs, -⟩
        cases hs
      · rintro i f ⟨⟩
      · rintro c ⟨⟩
        exact Settings.clean_defaults platform language kind name
      all_goals
        intros
        contradiction
  · refine ⟨⟨.configurationList howner, ?_, fun _ => ?_, fun _ => ⟨t, ht, hnone, ?_⟩⟩,
      by simp [Step.slot?]⟩
    · rintro name' file ⟨i, f, hs, -⟩
      cases hs
    · constructor
      · rintro name' k file - ⟨i, f, hs, -⟩
        cases hs
      · rintro name' file ⟨i, f, hs, -⟩
        cases hs
      all_goals
        intros
        contradiction
    · rintro u k ⟨⟩
      rfl

theorem of_stageSteps {stage : Stage} {scripts : List Script} (ht : q.IsNamed t d.name)
    (hdeclares : ∀ slot script, Project.Declares stage 0 scripts slot script → d.Declares slot script)
    (h : StageSteps t d.name stage 0 scripts q s) : PrepareStep d p q s := by
  obtain ⟨slot, script, hslot, h⟩ := h
  have hdeclared := hdeclares slot script hslot
  refine ⟨.of_scriptSteps ht (.inl hdeclared) h, ?_⟩
  rcases h with rfl | ⟨j, rfl⟩ <;> simpa [Step.slot?] using hdeclared.ne_copyFrameworks

theorem of_filingSteps {path : String} (h : FilingSteps path q s) : PrepareStep d p q s := by
  rcases h with ⟨i, above, name, rfl, -⟩ | ⟨i, rfl, hplace, habsent⟩
  · exact .of_isPlain .group rfl (by simp [Step.slot?])
  · exact .of_isPlain (.source hplace habsent) rfl (by simp [Step.slot?])

/-- A step that puts a file into a phase of the target. -/
theorem of_fileSteps {kind : PhaseKind} {file : ObjectId} {settings : Option Settings}
    (hclaims : kind.claims →
      (∃ path, q.content? file = some (.file (.source path))) ∧ q.Alone d.name kind file)
    (hlinks : kind = .frameworks → ∃ n ∈ frameworkNames d.dependencies,
      ∃ f, q.product? n = some f ∧ f.id = file)
    (hsettings : ∀ x ∈ settings, x.Clean) (h : FileSteps t d.name kind file settings q s) :
    PrepareStep d p q s := by
  rcases h with rfl | ⟨i, f, rfl, htarget, rfl, rfl, rfl⟩
  · exact .phase
  · have hsound : (Step.attach i (.buildFile f)).Sound q := by
      refine Step.sound_of_buildFile (htarget ▸ hclaims) (fun hkind => ?_) hsettings
      obtain ⟨n, -, f, hf, hid⟩ := hlinks hkind
      exact ⟨n, f, hf, hid⟩
    refine ⟨⟨.buildFile htarget, ?_, fun _ => hsound, by simp [Step.ListsFor, Step.isConfiguring]⟩,
      by simp [Step.slot?]⟩
    rintro name file ⟨j, g, hs, -, hkind, rfl⟩
    cases hs
    exact hlinks hkind

theorem of_addingSteps {kind : PhaseKind} (hkind : kind.claims)
    (h : AddingSteps t d.name kind q s) : PrepareStep d p q s := by
  obtain ⟨path, h | ⟨file, h, hsource, halone⟩⟩ := h
  · exact of_filingSteps h
  · refine of_fileSteps (fun _ => ⟨⟨path, hsource⟩, halone⟩) ?_ (by simp) h
    rintro rfl
    cases hkind

theorem of_headerSteps {path : String} (h : HeaderSteps t d.name path q s) : PrepareStep d p q s := by
  rcases h with h | ⟨file, h⟩
  · exact of_filingSteps h
  · exact of_fileSteps (by simp [PhaseKind.claims]) (by simp) (by decide) h

theorem of_linkingSteps (h : LinkingSteps t d.name (frameworkNames d.dependencies) q s) :
    PrepareStep d p q s := by
  obtain ⟨n, hn, f, hf, h⟩ := h
  exact of_fileSteps (by simp [PhaseKind.claims]) (fun _ => ⟨n, hn, f, hf, rfl⟩) (by simp) h

theorem of_settingsSteps {r : Project} (hsound : p.Sound → r.Sound) (ht : q.IsNamed t d.name)
    (h : SettingsSteps d t r q s) : PrepareStep d p q s := by
  obtain ⟨i, c, hc, rfl, hconfigures⟩ := h
  refine ⟨⟨.settings ht hconfigures, ?_, fun h => ?_, by simp [Step.ListsFor, Step.isConfiguring]⟩,
    by simp [Step.slot?]⟩
  · rintro name file ⟨j, f, hs, -⟩
    cases hs
  · constructor
    · rintro name k file - ⟨j, f, hs, -⟩
      cases hs
    · rintro name file ⟨j, f, hs, -⟩
      cases hs
    · rintro j f ⟨⟩
    · rintro c ⟨⟩
    · rintro j new ⟨⟩
      exact ((hsound h).settings i c hc).plain.compose d
    all_goals
      intros
      contradiction

theorem of_productSteps (ht : q.IsNamed t d.name) (h : ProductSteps t d.productPath q s) :
    PrepareStep d p q s := by
  rcases h with ⟨type, rfl⟩ | ⟨f, hf, rfl⟩
  · exact .of_isPlain .newProduct rfl (by simp [Step.slot?])
  · exact .of_isPlain (.product ht hf) rfl (by simp [Step.slot?])

end PrepareStep

end

/-! ## What a build leaves as it is -/

namespace Step

variable {d : Target} {q : Project} {s : Step} {name : String}

/-- The step sets nothing of the target that the target declares otherwise. -/
structure Respects (d : Target) (q : Project) (s : Step) : Prop where
  script : ∀ t j slot new script, s = .script t j slot new → q.IsNamed t d.name →
    d.Declares slot script → new = script
  settings : ∀ t i new, s = .settings i new → q.IsNamed t d.name → q.Configures t i →
    ∃ s₀ : Settings, new = Settings.compose d s₀.plain
  product : ∀ t r, s = .product t r → q.IsNamed t d.name →
    ∃ f, q.product? d.productPath = some f ∧ r = ⟨f.id, some d.productPath⟩

/-- The step replaces nothing of targets of the name. -/
structure Spares (name : String) (q : Project) (s : Step) : Prop where
  script : ∀ t j slot new, s = .script t j slot new → ¬ q.IsNamed t name
  settings : ∀ t i new, s = .settings i new → q.IsNamed t name → ¬ q.Configures t i
  product : ∀ t r, s = .product t r → ¬ q.IsNamed t name

theorem Spares.respects (h : s.Spares d.name q) : s.Respects d q where
  script t j slot new _ hs ht _ := absurd ht (h.script t j slot new hs)
  settings t i new hs ht hconfigures := absurd hconfigures (h.settings t i new hs ht)
  product t r hs ht := absurd ht (h.product t r hs)

theorem orderly_of_schemeSteps {names : List String} (h : Project.SchemeSteps names q s) :
    s.Orderly q := by
  rcases h with ⟨new, -, rfl⟩ | ⟨name, -, change, rfl⟩ <;> constructor <;> intros <;> contradiction

theorem not_isConfiguring_of_schemeSteps {names : List String} (h : Project.SchemeSteps names q s) :
    ¬ s.isConfiguring := by
  rcases h with ⟨new, -, rfl⟩ | ⟨name, -, change, rfl⟩ <;> exact Bool.false_ne_true

theorem spares_of_schemeSteps {names : List String} (h : Project.SchemeSteps names q s) :
    s.Spares name q := by
  rcases h with ⟨new, -, rfl⟩ | ⟨n, -, change, rfl⟩ <;> constructor <;> intros <;> contradiction

end Step

namespace InBuild

variable [IdScheme] {d : Target} {q : Project} {s : Step} {name : String}

/-- A build puts files and scripts where they are looked for. -/
theorem orderly (h : InBuild d q s) : s.Orderly q where
  source i path hs := by
    cases h with
    | source place absent =>
      cases hs
      exact ⟨place, absent⟩
    | _ => cases hs
  script i owner slot script hs := by
    cases h with
    | newScript runs =>
      cases hs
      exact runs.isBuildSlot
    | _ => cases hs

/-- A build sets what its target declares. -/
theorem respects (h : InBuild d q s) : s.Respects d q where
  script t j slot new script hs ht hdeclares := by
    cases h with
    | script target runs =>
      cases hs
      rcases runs with runs | ⟨rfl, -⟩
      · exact hdeclares.unique runs
      · exact absurd rfl hdeclares.ne_copyFrameworks
    | _ => cases hs
  settings t i new hs ht hconfigures := by
    cases h with
    | settings target configures =>
      cases hs
      exact ⟨_, rfl⟩
    | _ => cases hs
  product t r hs ht := by
    cases h with
    | product target first =>
      cases hs
      exact ⟨_, first, rfl⟩
    | _ => cases hs

/-- A build leaves the targets of other names as they are. -/
theorem spares (hq : q.WellFormed) (ho : q.Owned) (hne : d.name ≠ name) (h : InBuild d q s) :
    s.Spares name q where
  script t j slot new hs ht := by
    cases h with
    | script target runs =>
      cases hs
      exact hne (target.unique ht)
    | _ => cases hs
  settings t i new hs ht hconfigures := by
    cases h with
    | settings target configures =>
      cases hs
      have hsame := ho.configures_unique hq configures hconfigures
      exact hne (target.unique (hsame ▸ ht))
    | _ => cases hs
  product t r hs ht := by
    cases h with
    | product target first =>
      cases hs
      exact hne (target.unique ht)
    | _ => cases hs

end InBuild

/-- Builds leave schemes as they are. -/
theorem Path.schemes_of_builds [IdScheme] {A : Project → Step → Prop} {p q : Project}
    (hpq : Path A p q) (hA : ∀ q s, A q s → ∃ d, InBuild d q s) : q.schemes = p.schemes := by
  induction hpq with
  | refl => rfl
  | step _ _ _ allowed ih =>
    obtain ⟨d, h⟩ := hA _ _ allowed
    rw [← ih]
    cases h <;> rfl

/-- A build makes one product only. -/
theorem Path.product?_of_inBuild [IdScheme] {d : Target} {p q : Project} {n : String}
    (hpq : Path (InBuild d) p q) (hp : p.WellFormed) (ha : p.Apart) (h : q.product? n ≠ none) :
    p.product? n ≠ none ∨ n = d.productPath := by
  induction hpq with
  | refl => exact .inl h
  | @step q s path due fresh allowed ih =>
    rcases Step.product?_apply (path.wellFormed hp) due fresh h with hold | ⟨type, rfl⟩ | rfl
    · exact ih hold
    · cases allowed
      exact .inr rfl
    · cases allowed with
      | source place => exact absurd place ((path.apart hp ha).fileGroup_ne n)

/-- A build registers no targets of other names. -/
theorem Path.exists_target_of_inBuild [IdScheme] {d : Target} {p q : Project} {i : ObjectId}
    {b : NativeTarget} (hpq : Path (InBuild d) p q) (hp : p.WellFormed)
    (hb : q.content? i = some (.target b)) (hne : b.name ≠ d.name) :
    ∃ a, p.content? i = some (.target a) := by
  induction hpq generalizing b with
  | refl => exact ⟨b, hb⟩
  | step path due fresh allowed ih =>
    rcases Step.content?_apply_grows (path.wellFormed hp) due fresh hb with ⟨c, hc, hgrow⟩ | ⟨hnew, -⟩
    · cases hgrow with
      | target hname => exact ih hc (hname ▸ hne)
    · cases allowed with
      | target =>
        cases hnew
        exact absurd rfl hne
      | _ => cases hnew

end ProjectGraph
