import ProjectGraph.Proofs.Builds.Owners
import ProjectGraph.Proofs.Builds.PhaseOrder
import ProjectGraph.Proofs.Settings.Keys

/-! # The settings that a build leaves

A new target is given its configurations with their defaults, and then it is put over their settings
once. No other part of a build sets settings. -/

namespace ProjectGraph

open Project

/-- The step sets the settings of a configuration. -/
def Step.isSetting : Step → Bool
  | .settings .. => true
  | _ => false

namespace Step

variable {q : Project} {s : Step} {t : ObjectId} {owner path : String}

theorem not_isSetting_of_filingSteps (h : FilingSteps path q s) : ¬ s.isSetting := by
  rcases h with ⟨i, above, name, rfl, -⟩ | ⟨i, rfl, -⟩ <;> exact Bool.false_ne_true

theorem not_isSetting_of_fileSteps {kind : PhaseKind} {file : ObjectId} {settings : Option Settings}
    (h : FileSteps t owner kind file settings q s) : ¬ s.isSetting := by
  rcases h with rfl | ⟨i, f, rfl, -⟩ <;> exact Bool.false_ne_true

theorem not_isSetting_of_headerSteps (h : HeaderSteps t owner path q s) : ¬ s.isSetting := by
  rcases h with h | ⟨file, h⟩
  · exact not_isSetting_of_filingSteps h
  · exact not_isSetting_of_fileSteps h

theorem not_isSetting_of_addingSteps {kind : PhaseKind} (h : AddingSteps t owner kind q s) :
    ¬ s.isSetting := by
  obtain ⟨path, h | ⟨file, h, -⟩⟩ := h
  · exact not_isSetting_of_filingSteps h
  · exact not_isSetting_of_fileSteps h

theorem not_isSetting_of_linkingSteps {names : List String} (h : LinkingSteps t owner names q s) :
    ¬ s.isSetting := by
  obtain ⟨n, -, f, -, h⟩ := h
  exact not_isSetting_of_fileSteps h

theorem not_isSetting_of_productSteps (h : ProductSteps t path q s) : ¬ s.isSetting := by
  rcases h with ⟨type, rfl⟩ | ⟨f, -, rfl⟩ <;> exact Bool.false_ne_true

theorem not_isSetting_of_scriptSteps {slot : String} {script : Script}
    (h : ScriptSteps t owner slot script q s) : ¬ s.isSetting := by
  rcases h with rfl | ⟨j, rfl⟩ <;> exact Bool.false_ne_true

theorem not_isSetting_of_stageSteps {stage : Stage} {index : Nat} {scripts : List Script}
    (h : StageSteps t owner stage index scripts q s) : ¬ s.isSetting := by
  obtain ⟨slot, script, -, h⟩ := h
  exact not_isSetting_of_scriptSteps h

end Step

namespace Project

variable [IdScheme] {p q : Project} {t i : ObjectId} {d : Target} {cs : List Configuration}
  {A : Project → Step → Prop}

/-! ## The configurations of a target -/

/-- The target has its list, which leads to these configurations, in order. -/
def HasConfigurations (p : Project) (t : ObjectId) (cs : List Configuration) : Prop :=
  ∃ a r, p.content? t = some (.target a) ∧ a.configurationList = some r ∧
    (p.configurationsOf a).map (fun r => p.content? r.id) = cs.map fun c => some (.configuration c)

omit [IdScheme] in
theorem HasConfigurations.hasList (h : p.HasConfigurations t cs) : p.HasList t := by
  obtain ⟨a, r, ha, hr, -⟩ := h
  exact ⟨a, r, ha, hr⟩

omit [IdScheme] in
theorem map_content?_of_revised {refs : List Reference} {f : Configuration → Configuration}
    (h : refs.map (fun r => p.content? r.id) = cs.map fun c => some (.configuration c))
    (hf : ∀ r ∈ refs, ∀ c, p.content? r.id = some (.configuration c) →
      q.content? r.id = some (.configuration (f c))) :
    refs.map (fun r => q.content? r.id) = (cs.map f).map fun c => some (.configuration c) := by
  induction refs generalizing cs with
  | nil =>
    cases cs with
    | nil => rfl
    | cons => cases h
  | cons r refs ih =>
    cases cs with
    | nil => cases h
    | cons c cs =>
      obtain ⟨hc, hcs⟩ := List.cons.inj h
      exact List.cons_eq_cons.2 ⟨hf r (by simp) c hc,
        ih hcs fun r' hr' => hf r' (List.mem_cons_of_mem r hr')⟩

/-- The configurations of a target are revised as they are one by one. -/
theorem HasConfigurations.map (h : p.HasConfigurations t cs) (hp : p.WellFormed) (hpq : p.Grows q)
    {f : Configuration → Configuration}
    (hf : ∀ i c, p.Configures t i → p.content? i = some (.configuration c) →
      q.content? i = some (.configuration (f c))) : q.HasConfigurations t (cs.map f) := by
  obtain ⟨a, r, ha, hr, hcs⟩ := h
  obtain ⟨b, hb, -, -, -, hlist, -⟩ := hpq.target ha
  refine ⟨b, r, hb, hlist r hr, ?_⟩
  rw [configurationsOf_of_grows hp hpq ha hb hr]
  exact map_content?_of_revised hcs fun ref href c =>
    hf ref.id c ⟨a, ha, List.mem_map_of_mem href⟩

/-- A configuration keeps its settings while none are set. -/
theorem content?_configuration_of_path (hpq : Path A p q) (hA : ∀ r s, A r s → ¬ s.isSetting)
    {c : Configuration} (hc : p.content? i = some (.configuration c)) :
    q.content? i = some (.configuration c) := by
  induction hpq with
  | refl => exact hc
  | @step r s _ _ _ allowed ih =>
    rw [Step.content?_apply_of_some ih]
    cases s with
    | settings => exact absurd rfl (hA _ _ allowed)
    | attach owner x =>
      simp only [Step.reviseContent]
      split
      · cases x <;> rfl
      · rfl
    | configurationList | product | script =>
      simp only [Step.reviseContent]
      split <;> rfl
    | configuration | scheme | schemeChange => rfl

theorem HasConfigurations.keep (h : p.HasConfigurations t cs) (hp : p.WellFormed) (hpq : Path A p q)
    (hA : ∀ r s, A r s → ¬ s.isSetting) : q.HasConfigurations t cs := by
  have hmap := h.map (f := id) hp hpq.grows fun i c _ hc => content?_configuration_of_path hpq hA hc
  rwa [List.map_id] at hmap

/-! ## Composing -/

/-- A configuration with the settings of a target over its own. -/
def composed (d : Target) (c : Configuration) : Configuration :=
  { c with settings := Settings.compose d c.settings.plain }

/-- While settings are composed, a configuration has its old ones or the composed ones. -/
theorem content?_of_settingsSteps (hpq : Path (SettingsSteps d t p) p q) {c : Configuration}
    (hc : p.content? i = some (.configuration c)) :
    q.content? i = some (.configuration c) ∨ q.content? i = some (.configuration (composed d c)) := by
  induction hpq with
  | refl => exact .inl hc
  | @step r s _ _ _ allowed ih =>
    obtain ⟨j, e, he, rfl, -⟩ := allowed
    by_cases hij : i = j
    · subst hij
      rw [hc] at he
      cases he
      right
      rcases ih with ih | ih <;> rw [Step.content?_apply_of_some ih] <;>
        simp [Step.reviseContent, Content.withSettings, composed]
    · rcases ih with ih | ih <;> rw [Step.content?_apply_of_some ih, Step.reviseContent, if_neg hij]
      · exact .inl rfl
      · exact .inr rfl

/-- Settings that are composed already are left as they are, so it does not matter which ones. -/
theorem HasConfigurations.compose (h : p.HasConfigurations t cs) (hp : p.WellFormed)
    (hpq : Path (SettingsSteps d t p) p q) (hcomposed : q.Composed d t) :
    q.HasConfigurations t (cs.map (composed d)) := by
  refine h.map hp hpq.grows fun i c hconfigures hc => ?_
  rcases content?_of_settingsSteps hpq hc with hq | hq
  · obtain ⟨e, s, he, hs⟩ := hcomposed i (hconfigures.grows hp hpq.grows)
    rw [hq] at he
    cases he
    have hsame : composed d c = c := by
      unfold composed
      rw [hs, Settings.compose_plain_compose, ← hs]
    rw [hsame]
    exact hq
  · exact hq

/-! ## A new target -/

/-- A target that is made has no list of configurations. -/
theorem exists_target_of_newNativeTarget (hp : p.WellFormed) {name : String} {kind : TargetKind}
    (hnew : ∀ u a, p.content? u = some (.target a) → a.name ≠ name)
    (h : newNativeTarget name kind p = .ok t q) :
    ∃ a, q.content? t = some (.target a) ∧ a.name = name ∧ a.configurationList = none := by
  obtain ⟨hpq, htarget⟩ := Leads.of_ok (performs_newNativeTarget hp name kind) h
  have hall : ∀ u a, q.content? u = some (.target a) → a.name = name → a.configurationList = none := by
    clear htarget h
    change Path _ p q at hpq
    induction hpq with
    | refl => exact fun u a ha hname => absurd hname (hnew u a ha)
    | step _ _ _ allowed ih =>
      subst allowed
      intro u a ha hname
      have hkept : ∀ c : Content,
          (Step.attach p.record (.target name kind)).reviseContent u c = .target a → c = .target a := by
        intro c hc
        simp only [Step.reviseContent] at hc
        split at hc
        · cases c with
          | target => exact hc
          | _ => cases hc
        · exact hc
      rcases Step.content?_apply_cases ha with ⟨c, hc, hrevised⟩ | ⟨c, hc, -, hrevised⟩
      · exact ih u a (hkept c hrevised.symm ▸ hc) hname
      · cases hc
        cases hkept _ hrevised.symm
        rfl
  obtain ⟨a, ha, hname⟩ := htarget.exists_target
  exact ⟨a, ha, hname, hall t a ha hname⟩

/-- A target that has no list is given one that leads to its configurations, with their defaults. -/
theorem configured_of_newConfigurationList {a : NativeTarget}
    (ha : p.content? t = some (.target a)) (hnone : a.configurationList = none)
    {platform : PlatformKind} {language : LanguageKind} {kind : TargetKind}
    (h : newConfigurationList t platform language kind p = .ok () q) :
    p.Configured q t a
      (p.configurationNames.map (defaultConfiguration a.name platform language kind)) := by
  let cs := p.configurationNames.map (defaultConfiguration a.name platform language kind)
  rw [newConfigurationList_eq ha hnone] at h
  obtain ⟨_, p₁, hconfigurations, h⟩ := exists_of_bind_eq_ok h
  have hregistered := (Leads.of_ok (performs_registerConfigurations cs) hconfigurations).2
  cases hfree : p₁.content? (Content.configurationList (p.listFor a cs)).id with
  | some c =>
    rw [bind_of_error (register_of_taken (Option.ne_none_iff_exists'.2 ⟨c, hfree⟩))] at h
    cases h
  | none =>
    rw [bind_of_ok (register_of_free hfree)] at h
    cases h
    exact .of_registered ha hregistered hfree

theorem Configured.hasConfigurations {a : NativeTarget} (h : p.Configured q t a cs) :
    q.HasConfigurations t cs := by
  refine ⟨_, _, h.target, rfl, ?_⟩
  have hrefs : q.configurationsOf { a with
      configurationList := (some ⟨(Content.configurationList (p.listFor a cs)).id, none⟩) } =
        cs.map configurationReference := by
    rw [configurationsOf, Option.bind_some, h.list]
    rfl
  rw [hrefs, List.map_map]
  exact List.map_congr_left fun c hc => h.registered c hc

/-! ## Parts of a build -/

/-- There is a target of this name, which has these configurations. -/
structure Carries (p : Project) (name : String) (t : ObjectId) (cs : List Configuration) : Prop where
  wellFormed : p.WellFormed
  named : p.IsNamed t name
  configurations : p.HasConfigurations t cs

theorem Carries.keep {name : String} (h : p.Carries name t cs) (hpq : Path A p q)
    (hA : ∀ r s, A r s → ¬ s.isSetting) : q.Carries name t cs where
  wellFormed := hpq.wellFormed h.wellFormed
  named := h.named.grows hpq.grows
  configurations := h.configurations.keep h.wellFormed hpq hA

/-- The configurations that a new target is given, with their defaults. -/
def defaultConfigurations (p : Project) (d : Target) : List Configuration :=
  p.configurationNames.map
    (defaultConfiguration d.name (configurationPlatform d.platforms) d.language.kind d.kind)

/-- A new target is entered with its defaults. -/
theorem carries_enter (hp : p.WellFormed)
    (hnew : ∀ u a, p.content? u = some (.target a) → a.name ≠ d.name) (h : enter d p = .ok t q) :
    q.Carries d.name t (p.defaultConfigurations d) := by
  obtain ⟨t', p₁, htarget, h⟩ := exists_of_bind_eq_ok h
  obtain ⟨h₁, hnamed⟩ := Leads.of_ok (performs_newNativeTarget hp d.name d.kind) htarget
  obtain ⟨a₁, ha₁, hname₁, hnone⟩ := exists_target_of_newNativeTarget hp hnew htarget
  have hp₁ := h₁.wellFormed hp
  obtain ⟨_, p₂, hlist, h⟩ := exists_of_bind_eq_ok h
  obtain ⟨h₂, -⟩ := Leads.of_ok (performs_newConfigurationList hp₁ ha₁ _ _ _) hlist
  have hcarries₂ : p₂.Carries d.name t' (p.defaultConfigurations d) := by
    refine ⟨h₂.wellFormed hp₁, hnamed.isNamed.grows h₂.grows, ?_⟩
    have hconfigured := (configured_of_newConfigurationList ha₁ hnone hlist).hasConfigurations
    rwa [hname₁, h₁.grows.configurationNames] at hconfigured
  obtain ⟨a₂, ha₂, -⟩ := hcarries₂.named
  obtain ⟨_, p₃, hscripts, h⟩ := exists_of_bind_eq_ok h
  obtain ⟨h₃, -⟩ := Leads.of_ok (performs_addBuildScripts hcarries₂.wellFormed ha₂ .pre _) hscripts
  have hcarries₃ := hcarries₂.keep h₃ fun _ _ => Step.not_isSetting_of_stageSteps
  obtain ⟨_, p₄, hplist, h⟩ := exists_of_bind_eq_ok h
  obtain ⟨h₄, -⟩ := Leads.of_ok (performs_addInfoPlist hcarries₃.wellFormed _) hplist
  have hcarries₄ := hcarries₃.keep h₄ fun _ _ => Step.not_isSetting_of_filingSteps
  obtain ⟨a₄, ha₄, -⟩ := hcarries₄.named
  obtain ⟨_, p₅, hheader, h⟩ := exists_of_bind_eq_ok h
  obtain ⟨h₅, -⟩ :=
    Leads.of_ok (performs_addFrameworkHeader hcarries₄.wellFormed ha₄ d.filedHeader) hheader
  cases h
  refine hcarries₄.keep h₅ fun r s hs => ?_
  obtain ⟨path, -, hs⟩ := hs
  exact Step.not_isSetting_of_headerSteps hs

/-- Where a target is equipped, it is put over its settings. -/
theorem carries_equip (h : p.Carries d.name t cs) (hequip : equip t d p = .ok () q) :
    q.Carries d.name t (cs.map (composed d)) := by
  obtain ⟨_, p₁, hsettings, hequip⟩ := exists_of_bind_eq_ok hequip
  obtain ⟨h₁, hcomposed⟩ :=
    Leads.of_ok (performs_composeSettings h.wellFormed h.configurations.hasList d) hsettings
  have hcarries₁ : p₁.Carries d.name t (cs.map (composed d)) :=
    ⟨h₁.wellFormed h.wellFormed, h.named.grows h₁.grows,
      h.configurations.compose h.wellFormed h₁ hcomposed⟩
  obtain ⟨a₁, ha₁, -⟩ := hcarries₁.named
  obtain ⟨_, p₂, hproduct, hequip⟩ := exists_of_bind_eq_ok hequip
  obtain ⟨h₂, -⟩ := Leads.of_ok
    (performs_newProductReference hcarries₁.wellFormed ha₁ d.name d.kind).discard hproduct
  have hcarries₂ := hcarries₁.keep h₂ fun _ _ => Step.not_isSetting_of_productSteps
  obtain ⟨a₂, ha₂, -⟩ := hcarries₂.named
  obtain ⟨_, p₃, hresources, hequip⟩ := exists_of_bind_eq_ok hequip
  obtain ⟨h₃, -⟩ := Leads.of_ok (performs_addBuildPhase hcarries₂.wellFormed ha₂ .resources) hresources
  have hcarries₃ := hcarries₂.keep h₃ fun _ _ hs => hs ▸ Bool.false_ne_true
  obtain ⟨a₃, ha₃, -⟩ := hcarries₃.named
  obtain ⟨_, p₄, hframeworks, hscripts⟩ := exists_of_bind_eq_ok hequip
  obtain ⟨h₄, -⟩ :=
    Leads.of_ok (performs_addBuildPhase hcarries₃.wellFormed ha₃ .frameworks) hframeworks
  have hcarries₄ := hcarries₃.keep h₄ fun _ _ hs => hs ▸ Bool.false_ne_true
  obtain ⟨a₄, ha₄, -⟩ := hcarries₄.named
  obtain ⟨h₅, -⟩ := Leads.of_ok (performs_addBuildScripts hcarries₄.wellFormed ha₄ .post _) hscripts
  exact hcarries₄.keep h₅ fun _ _ => Step.not_isSetting_of_stageSteps

end Project

namespace Build

variable [IdScheme] {d : Target} {t : ObjectId} {s s' : BuildState} {cs : List Configuration}

theorem carries_fileAll {name : String} {kind : PhaseKind} {patterns : List String}
    {exclude : Option (List (List String))} (hs : s.project.Carries name t cs)
    (h : fileAll t kind patterns exclude s = .ok () s') : s'.project.Carries name t cs := by
  obtain ⟨files, hadd, -, -⟩ := exists_of_fileAll_eq_ok h
  obtain ⟨a, ha, -⟩ := hs.named
  obtain ⟨hpath, -⟩ := Leads.of_ok (performs_addFiles hs.wellFormed ha kind files) hadd
  exact hs.keep hpath fun _ _ => Step.not_isSetting_of_addingSteps

theorem carries_prepare (hs : s.project.WellFormed)
    (hnew : ∀ u a, s.project.content? u = some (.target a) → a.name ≠ d.name)
    (h : prepare d s = .ok t s') :
    s'.project.Carries d.name t ((s.project.defaultConfigurations d).map (composed d)) := by
  obtain ⟨_, s₀, hsay, h⟩ := exists_of_bind_eq_ok h
  cases hsay
  obtain ⟨t', s₁, henter, h⟩ := exists_of_bind_eq_ok h
  have hcarries₁ := carries_enter hs hnew (exists_of_edit_eq_ok henter).1
  obtain ⟨_, s₂, hfile, h⟩ := exists_of_bind_eq_ok h
  have hcarries₂ := carries_fileAll hcarries₁ hfile
  obtain ⟨_, s₃, hequip, h⟩ := exists_of_bind_eq_ok h
  cases h
  exact carries_equip hcarries₂ (exists_of_edit_eq_ok hequip).1

theorem carries_complete {names : List String} (hs : s.project.Carries d.name t cs)
    (h : complete t d s = .ok names s') : s'.project.Carries d.name t cs := by
  obtain ⟨names', s₁, hlink, h⟩ := exists_of_bind_eq_ok h
  obtain ⟨hlink, -⟩ := exists_of_edit_eq_ok hlink
  obtain ⟨a, ha, -⟩ := hs.named
  obtain ⟨h₁, -⟩ := Leads.of_ok (performs_linkDependencies hs.wellFormed ha d.dependencies) hlink
  have hcarries₁ := hs.keep h₁ fun _ _ => Step.not_isSetting_of_linkingSteps
  obtain ⟨_, s₂, hresources, h⟩ := exists_of_bind_eq_ok h
  have hcarries₂ : s₂.project.Carries d.name t cs := by
    cases hpatterns : d.resourceFiles with
    | none =>
      rw [hpatterns] at hresources
      cases hresources
      exact hcarries₁
    | some patterns =>
      rw [hpatterns] at hresources
      exact carries_fileAll hcarries₁ hresources
  split at h
  · obtain ⟨_, s₃, hadd, h⟩ := exists_of_bind_eq_ok h
    cases h
    obtain ⟨a₂, ha₂, -⟩ := hcarries₂.named
    obtain ⟨h₃, -⟩ := Leads.of_ok (performs_addScriptPhase hcarries₂.wellFormed ha₂ _ _)
      (addScriptPhase_of_addCopyFrameworksPhase hadd)
    exact hcarries₂.keep h₃ fun _ _ => Step.not_isSetting_of_scriptSteps
  · cases h
    exact hcarries₂

/-- A build that completes leaves a new target with its defaults, under its own settings. -/
theorem carries_build (hs : s.project.WellFormed)
    (hnew : ∀ u a, s.project.content? u = some (.target a) → a.name ≠ d.name)
    (h : build d s = .ok t s') :
    s'.project.Carries d.name t ((s.project.defaultConfigurations d).map (composed d)) := by
  rw [build_eq] at h
  obtain ⟨⟨t', names⟩, hreported, rfl⟩ := exists_of_map_eq_ok h
  obtain ⟨t', s₁, hprepare, h⟩ := exists_of_bind_eq_ok hreported
  obtain ⟨names', s₂, hcomplete, h⟩ := exists_of_bind_eq_ok h
  cases h
  exact carries_complete (carries_prepare hs hnew hprepare) hcomplete

end Build
end ProjectGraph
