import ProjectGraph.Proofs.Builds.Steps

/-! # The edits of a build

A build edits the project in two rows of operations, around the filing of its sources. The first one
enters the target into the project; the second one gives it its settings, its product and its phases.
What they bring about lasts while all steps respect the target, and is not brought about again. -/

namespace ProjectGraph

/-- The header to file for a target. Tests have none. -/
def Target.filedHeader (d : Target) : Option String := if d.isTest then none else d.header

namespace Project

variable [IdScheme] {p q : Project} {d : Target} {t : ObjectId}

omit [IdScheme] in
theorem HasTarget.isNamed {name : String} (h : p.HasTarget name t) : p.IsNamed t name :=
  h.exists_target

/-- A declared script stays in its slot. -/
theorem HasScript.respects {slot : String} {script : Script} (hp : p.WellFormed)
    (h : p.HasScript t slot script) (ht : p.IsNamed t d.name) (hd : d.Declares slot script)
    (hpq : Path (Step.Respects d) p q) : q.HasScript t slot script := by
  obtain ⟨a, ha, hname⟩ := ht
  refine h.path hp ha hpq fun q' i j new b _ hstep hb hsame => ?_
  exact hstep.script i j slot new script rfl ⟨b, hb, hsame.trans hname⟩ hd

/-! ## Entering a target -/

/-- Enters a target, with its configurations, its first scripts, its property list and its header. -/
def enter (d : Target) : Edit ObjectId := do
  let t ← newNativeTarget d.name d.kind
  newConfigurationList t (configurationPlatform d.platforms) d.language.kind d.kind
  addBuildScripts t .pre d.preBuildScripts
  addInfoPlist d.infoPlist
  addFrameworkHeader t d.filedHeader
  return t

/-- The target has been entered. -/
structure Entered (p : Project) (d : Target) (t : ObjectId) : Prop where
  target : p.HasTarget d.name t
  list : p.HasList t
  scripts : ∀ slot script, Declares .pre 0 (d.preBuildScripts.getD []) slot script →
    p.HasScript t slot script
  infoPlist : p.IsFiled d.infoPlist
  header : ∀ path, d.filedHeader = some path → p.HasHeader t path

namespace Entered

omit [IdScheme] in
theorem isNamed (h : p.Entered d t) : p.IsNamed t d.name := h.target.isNamed

theorem path (hp : p.WellFormed) (h : p.Entered d t) (hpq : Path (Step.Respects d) p q) :
    q.Entered d t where
  target := h.target.grows hp hpq.grows
  list := h.list.grows hpq.grows
  scripts slot script hd := (h.scripts slot script hd).respects hp h.isNamed (.inl hd) hpq
  infoPlist := h.infoPlist.grows hp hpq.grows
  header path hpath := (h.header path hpath).grows hp hpq.grows

end Entered

theorem enter_of_entered (hp : p.WellFormed) (h : p.Entered d t) : enter d p = .ok t p := by
  rw [enter, bind_of_ok (newNativeTarget_of_hasTarget hp h.target d.kind),
    bind_of_ok (newConfigurationList_of_hasList h.list _ _ _),
    bind_of_ok (addBuildScripts_of_hasScript hp h.scripts),
    bind_of_ok (addInfoPlist_of_isFiled hp h.infoPlist),
    bind_of_ok (addFrameworkHeader_of_hasHeader hp h.header)]
  rfl

theorem performs_enter (hp : p.WellFormed) (d : Target) (p₀ : Project) :
    Edit.Performs (PrepareStep d p₀) (enter d) p fun t q => q.Entered d t := by
  refine ((performs_newNativeTarget hp d.name d.kind).weaken ?_).bind fun t p₁ h₁ htarget => ?_
  · rintro q s rfl
    exact .target
  have hp₁ := h₁.wellFormed hp
  obtain ⟨a₁, ha₁, hname₁⟩ := htarget.isNamed
  refine ((performs_newConfigurationList hp₁ ha₁ _ _ _).restrict ?_).bind fun _ p₂ h₂ hlist => ?_
  · exact fun q s hpath _ h => .of_listSteps (htarget.isNamed.grows hpath.grows) (hname₁ ▸ h)
  have hp₂ := h₂.wellFormed hp₁
  obtain ⟨a₂, ha₂, hname₂⟩ := htarget.isNamed.grows h₂.grows
  refine ((performs_addBuildScripts hp₂ ha₂ .pre d.preBuildScripts).restrict ?_).bind
    fun _ p₃ h₃ hscripts => ?_
  · exact fun q s hpath _ h => .of_stageSteps (IsNamed.grows ⟨a₂, ha₂, hname₂⟩ hpath.grows)
      (fun slot script hd => .inl hd) (hname₂ ▸ h)
  have hp₃ := h₃.wellFormed hp₂
  refine ((performs_addInfoPlist hp₃ d.infoPlist).weaken ?_).bind fun _ p₄ h₄ hplist => ?_
  · exact fun q s h => .of_filingSteps h
  have hp₄ := h₄.wellFormed hp₃
  obtain ⟨a₄, ha₄, hname₄⟩ := htarget.isNamed.grows (h₂.trans (h₃.trans h₄)).grows
  refine ((performs_addFrameworkHeader hp₄ ha₄ d.filedHeader).weaken ?_).bind
    fun _ p₅ h₅ hheader => ?_
  · rintro q s ⟨path, -, h⟩
    exact .of_headerSteps (hname₄ ▸ h)
  have h₃₅ := h₄.trans h₅
  refine .of_ok rfl ?_
  constructor
  · exact htarget.grows hp₁ (h₂.trans (h₃.trans h₃₅)).grows
  · exact hlist.grows (h₃.trans h₃₅).grows
  · exact fun slot script hd => (hscripts slot script hd).respects hp₃
      (htarget.isNamed.grows (h₂.trans h₃).grows) (.inl hd) (h₃₅.mono fun _ _ h => h.inBuild.respects)
  · exact hplist.grows hp₄ h₅.grows
  · exact hheader

/-! ## Equipping a target -/

/-- Gives a target its settings, its product, two of its phases and its last scripts. -/
def equip (t : ObjectId) (d : Target) : Edit Unit := do
  Build.composeSettings t d
  discard <| newProductReference t d.name d.kind
  addBuildPhase t .resources
  addBuildPhase t .frameworks
  addBuildScripts t .post d.postBuildScripts

/-- The target has been equipped. -/
structure Equipped (p : Project) (d : Target) (t : ObjectId) : Prop where
  composed : p.Composed d t
  product : p.HasProduct t d.productPath
  resources : p.HasPhase t .resources
  frameworks : p.HasPhase t .frameworks
  scripts : ∀ slot script, Declares .post 0 (d.postBuildScripts.getD []) slot script →
    p.HasScript t slot script

/-- The settings of a target stay composed. -/
theorem Composed.respects (hp : p.WellFormed) (h : p.Composed d t) (ht : p.IsNamed t d.name)
    (hlist : p.HasList t) (hpq : Path (Step.Respects d) p q) : q.Composed d t := by
  intro i hi
  obtain ⟨a, r, ha, hr⟩ := hlist
  obtain ⟨b, hb, hmem⟩ := hi
  rw [configurationsOf_of_grows hp hpq.grows ha hb hr] at hmem
  have hconfigures : p.Configures t i := ⟨a, ha, hmem⟩
  refine (h i hconfigures).path hpq fun q' new hpath hstep => ?_
  exact hstep.settings t i new rfl (ht.grows hpath.grows) (hconfigures.grows hp hpath.grows)

/-- A target keeps its product. -/
theorem HasProduct.respects (hp : p.WellFormed) (h : p.HasProduct t d.productPath)
    (ht : p.IsNamed t d.name) (hpq : Path (Step.Respects d) p q) : q.HasProduct t d.productPath :=
  h.path hp hpq fun _ r hpath hstep => hstep.product t r rfl (ht.grows hpath.grows)

theorem Equipped.path (hp : p.WellFormed) (he : p.Entered d t) (h : p.Equipped d t)
    (hpq : Path (Step.Respects d) p q) : q.Equipped d t where
  composed := h.composed.respects hp he.isNamed he.list hpq
  product := h.product.respects hp he.isNamed hpq
  resources := h.resources.grows hp hpq.grows
  frameworks := h.frameworks.grows hp hpq.grows
  scripts slot script hd := (h.scripts slot script hd).respects hp he.isNamed (.inr hd) hpq

theorem equip_of_equipped (hp : p.WellFormed) (ht : p.IsNamed t d.name) (h : p.Equipped d t) :
    equip t d p = .ok () p := by
  obtain ⟨a, ha, -⟩ := ht
  obtain ⟨f, hproduct⟩ := newProductReference_of_hasProduct hp h.product
  rw [equip, bind_of_ok (composeSettings_of_composed hp ha h.composed),
    bind_of_ok (discard_of_ok hproduct), bind_of_ok (addBuildPhase_of_hasPhase hp h.resources),
    bind_of_ok (addBuildPhase_of_hasPhase hp h.frameworks)]
  exact addBuildScripts_of_hasScript hp h.scripts

theorem performs_equip (hp : p.WellFormed) (he : p.Entered d t) {p₀ : Project}
    (hsound : p₀.Sound → p.Sound) :
    Edit.Performs (PrepareStep d p₀) (equip t d) p fun _ q => q.Equipped d t := by
  have hnamed := he.isNamed
  refine ((performs_composeSettings hp he.list d).restrict ?_).bind fun _ p₁ h₁ hcomposed => ?_
  · exact fun q s hpath _ h => .of_settingsSteps hsound (hnamed.grows hpath.grows) h
  have hp₁ := h₁.wellFormed hp
  obtain ⟨a₁, ha₁, hname₁⟩ := hnamed.grows h₁.grows
  refine ((performs_newProductReference hp₁ ha₁ d.name d.kind).discard.restrict ?_).bind
    fun _ p₂ h₂ hproduct => ?_
  · exact fun q s hpath _ h => .of_productSteps (IsNamed.grows ⟨a₁, ha₁, hname₁⟩ hpath.grows) h
  obtain ⟨_, hproduct, -⟩ := hproduct
  have hp₂ := h₂.wellFormed hp₁
  obtain ⟨a₂, ha₂, hname₂⟩ := hnamed.grows (h₁.trans h₂).grows
  refine ((performs_addBuildPhase hp₂ ha₂ .resources).weaken ?_).bind fun _ p₃ h₃ hresources => ?_
  · rintro q s rfl
    rw [hname₂]
    exact .phase
  have hp₃ := h₃.wellFormed hp₂
  obtain ⟨a₃, ha₃, hname₃⟩ := hnamed.grows (h₁.trans (h₂.trans h₃)).grows
  refine ((performs_addBuildPhase hp₃ ha₃ .frameworks).weaken ?_).bind fun _ p₄ h₄ hframeworks => ?_
  · rintro q s rfl
    rw [hname₃]
    exact .phase
  have hp₄ := h₄.wellFormed hp₃
  have hnamed₄ := hnamed.grows (h₁.trans (h₂.trans (h₃.trans h₄))).grows
  obtain ⟨a₄, ha₄, hname₄⟩ := hnamed₄
  refine ((performs_addBuildScripts hp₄ ha₄ .post d.postBuildScripts).restrict ?_).mono
    (fun _ _ h => h) fun _ q h₅ hscripts => ?_
  · exact fun q s hpath _ h => .of_stageSteps (IsNamed.grows ⟨a₄, ha₄, hname₄⟩ hpath.grows)
      (fun slot script hd => .inr hd) (hname₄ ▸ h)
  have h₂₅ := (h₃.trans (h₄.trans h₅)).mono fun _ _ h => h.inBuild.respects
  have h₁₅ := (h₂.mono fun _ _ h => h.inBuild.respects).trans h₂₅
  constructor
  · exact hcomposed.respects hp₁ (hnamed.grows h₁.grows) (he.list.grows h₁.grows) h₁₅
  · exact hproduct.respects hp₂ (hnamed.grows (h₁.trans h₂).grows) h₂₅
  · exact hresources.grows hp₃ (h₄.trans h₅).grows
  · exact hframeworks.grows hp₄ h₅.grows
  · exact hscripts

end Project
end ProjectGraph
