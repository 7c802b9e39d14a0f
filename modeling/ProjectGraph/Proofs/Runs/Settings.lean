import ProjectGraph.Proofs.Builds.Settings
import ProjectGraph.Proofs.Digest
import ProjectGraph.Proofs.Runs.PhaseOrder

/-! # The settings of a built target

A new target gets one configuration for each configuration name of the project. Its settings are the
defaults for that name, under those of the target, and they tell which platforms are declared. -/

namespace ProjectGraph

/-- The settings fit the target: defaults that it strips are gone, and of the keys of platforms there
are those of the declared ones, with what has been declared. -/
structure Settings.Fit (d : Target) (s : Settings) : Prop where
  stripped : ∀ key ∈ strippedKeys, key ∉ s.keys
  declared : ∀ platform ∈ d.platforms,
    s.get? platform.kind.deploymentKey = some (.text platform.minimumVersion) ∧
      s.get? platform.kind.searchPathKey = some (.list platform.searchPaths)
  undeclared : ∀ kind, (∀ platform ∈ d.platforms, platform.kind ≠ kind) →
    kind.deploymentKey ∉ s.keys ∧ kind.searchPathKey ∉ s.keys

/-- The configuration of this name that a new target ends up with. -/
def builtConfiguration (d : Target) (name : String) : Configuration where
  name := name
  owner := d.name
  settings := Settings.compose d (Settings.defaults (configurationPlatform d.platforms)
    d.language.kind d.kind name).plain

theorem fit_builtConfiguration (d : Target) (name : String) :
    (builtConfiguration d name).settings.Fit d := by
  have hdefaults : ∀ key ∈ Settings.platformKeys, key ∉ (Settings.defaults
      (configurationPlatform d.platforms) d.language.kind d.kind name).plain.keys := by
    intro key hkey
    rw [Settings.keys_plain]
    exact Settings.platformKey_not_mem_defaults hkey _ _ _ name
  obtain ⟨hdeclared, hundeclared⟩ := Settings.platforms_compose hdefaults d
  exact ⟨fun key => Settings.stripped_not_mem_compose d _, hdeclared, hundeclared⟩

section

variable [IdScheme] {s s' : BuildState} {d : Target} {t : ObjectId}

/-- A build that completes gives a target of a new name its configurations, one for each name of the
project. Their settings fit the target, and agree on all keys that it composes. -/
theorem Reachable.settings_of_build (h : Reachable s.project)
    (hnew : ∀ u a, s.project.content? u = some (.target a) → a.name ≠ d.name)
    (hbuild : Build.build d s = .ok t s') :
    ∃ a cs, s'.project.content? t = some (.target a) ∧ a.name = d.name ∧
      (s'.project.configurationsOf a).map (fun r => s'.project.content? r.id) =
        cs.map (fun c => some (.configuration c)) ∧
      cs = s.project.configurationNames.map (builtConfiguration d) ∧
      (∀ c ∈ cs, c.settings.Fit d) ∧
      ∀ c ∈ cs, ∀ c' ∈ cs, ∀ key ∈ (Settings.targetEntries d).map Prod.fst,
        c.settings.get? key = c'.settings.get? key := by
  have hcarries := Build.carries_build h.wellFormed hnew hbuild
  obtain ⟨a, ha, hname⟩ := hcarries.named
  obtain ⟨a', r, ha', -, hconfigurations⟩ := hcarries.configurations
  rw [ha] at ha'
  cases ha'
  have hbuilt : (s.project.defaultConfigurations d).map (Project.composed d) =
      s.project.configurationNames.map (builtConfiguration d) := by
    rw [Project.defaultConfigurations, List.map_map]
    rfl
  rw [hbuilt] at hconfigurations
  refine ⟨a, s.project.configurationNames.map (builtConfiguration d), ha, hname, hconfigurations, rfl,
    fun c hc => ?_, fun c hc c' hc' key hkey => ?_⟩
  · obtain ⟨n, -, rfl⟩ := List.mem_map.1 hc
    exact fit_builtConfiguration d n
  · obtain ⟨n, -, rfl⟩ := List.mem_map.1 hc
    obtain ⟨n', -, rfl⟩ := List.mem_map.1 hc'
    obtain ⟨e, he, rfl⟩ := List.mem_map.1 hkey
    exact (Settings.get?_compose_of_mem he _).trans (Settings.get?_compose_of_mem he _).symm

end

/-- A framework for iOS has the same deployment target in both of its configurations, and none for
macOS. -/
theorem settings_of_bareFramework :
    ∃ (p : Project) (kit : Attempt) (t : ObjectId) (a : NativeTarget) (debug staging : Configuration),
      Project.ofValue "App" (.list [.text "DEBUG", .text "Staging"]) = .ok p ∧
      kit = firstBuild (bareFramework "Kit" []) p ∧
      Build.build kit.target kit.before = .ok t kit.after ∧
      kit.after.project.content? t = some (.target a) ∧
      (kit.after.project.configurationsOf a).map (fun r => kit.after.project.content? r.id) =
        [some (.configuration debug), some (.configuration staging)] ∧
      debug.settings.get? "IPHONEOS_DEPLOYMENT_TARGET" = some (.text "12.0") ∧
      staging.settings.get? "IPHONEOS_DEPLOYMENT_TARGET" = some (.text "12.0") ∧
      "MACOSX_DEPLOYMENT_TARGET" ∉ staging.settings.keys := by
  have hcompletes :
      (Project.ofValue "App" (.list [.text "DEBUG", .text "Staging"])).toOption.any fun p =>
        (firstBuild (bareFramework "Kit" []) p).Completes ∧
          p.configurationNames = ["DEBUG", "Staging"] := by
    rw [ObjectId.digestScheme_eq]
    decide +kernel
  obtain ⟨p, hnew, hp⟩ := Project.exists_of_ofValue hcompletes
  obtain ⟨hcompletes, hnames⟩ := of_decide_eq_true hp
  let kit := firstBuild (bareFramework "Kit" []) p
  obtain ⟨t, hbuild⟩ : ∃ t, Build.build kit.target kit.before = .ok t kit.after :=
    exists_of_failureOf_eq_none hcompletes
  obtain ⟨names, hcreate⟩ := Project.exists_create_of_ofValue hnew
  obtain ⟨a, cs, ha, -, hconfigurations, rfl, hfit, -⟩ :=
    Reachable.settings_of_build (s := kit.before) (.new hnew)
      (fun u a ha => (Project.isInitial_of_create hcreate ha).elim) hbuild
  have hnames : kit.before.project.configurationNames = ["DEBUG", "Staging"] := hnames
  rw [hnames] at hconfigurations hfit
  have hdebug := hfit (builtConfiguration kit.target "DEBUG") (by simp)
  have hstaging := hfit (builtConfiguration kit.target "Staging") (by simp)
  have hios : (⟨.ios, "12.0", ["$(inherited)"]⟩ : Platform) ∈ kit.target.platforms :=
    List.mem_singleton_self _
  have hmacos : ∀ platform ∈ kit.target.platforms, platform.kind ≠ .macos := by
    intro platform hplatform
    rw [List.mem_singleton.1 hplatform]
    decide
  exact ⟨p, kit, t, a, _, _, hnew, rfl, hbuild, ha, hconfigurations, (hdebug.declared _ hios).1,
    (hstaging.declared _ hios).1, (hstaging.undeclared .macos hmacos).1⟩

end ProjectGraph
