import ProjectGraph.Proofs.Operations.Configurations
import ProjectGraph.Proofs.Settings.Compose

/-! # The settings of a target -/

namespace ProjectGraph.Project

variable {p q : Project} {t i : ObjectId}

/-! ## The configurations of a target -/

/-- What a target lists as its configurations. -/
def configurationsOf (p : Project) (a : NativeTarget) : List Reference :=
  match a.configurationList.bind fun r => (p.content? r.id).bind Content.configurationList? with
  | some l => l.configurations
  | none => []

/-- The target lists the configuration under this id. -/
def Configures (p : Project) (t i : ObjectId) : Prop :=
  ∃ a, p.content? t = some (.target a) ∧ i ∈ (p.configurationsOf a).map Reference.id

/-- The configuration is listed by the list of the target. -/
theorem Configures.exists_list (h : p.Configures t i) :
    ∃ a r l, p.content? t = some (.target a) ∧ a.configurationList = some r ∧
      p.content? r.id = some (.configurationList l) ∧ i ∈ l.configurations.map Reference.id := by
  obtain ⟨a, ha, hi⟩ := h
  unfold configurationsOf at hi
  cases hr : a.configurationList with
  | none => simp [hr] at hi
  | some r =>
    cases hc : p.content? r.id with
    | none => simp [hr, hc] at hi
    | some c =>
      cases c with
      | configurationList l =>
        refine ⟨a, r, l, ha, hr, hc, ?_⟩
        simpa [hr, hc, Content.configurationList?] using hi
      | _ => simp [hr, hc, Content.configurationList?] at hi

variable [IdScheme]

theorem WellFormed.configuration_of_mem_configurationsOf (hp : p.WellFormed) {a : NativeTarget}
    (ha : p.content? t = some (.target a)) {r : Reference} (hr : r ∈ p.configurationsOf a) :
    ∃ c, p.content? r.id = some (.configuration c) := by
  unfold configurationsOf at hr
  cases hlist : a.configurationList with
  | none => simp [hlist] at hr
  | some k =>
    obtain ⟨l, hl⟩ := hp.configurationList_of_target ha hlist
    rw [hlist, Option.bind_some, hl] at hr
    exact hp.configuration_of_mem hl hr

theorem buildConfigurations_eq (hp : p.WellFormed) {a : NativeTarget}
    (ha : p.content? t = some (.target a)) :
    buildConfigurations t p = .ok (p.objectsAt (p.configurationsOf a)) p := by
  have hlist : resolvePart Object.configurationList? t p = .ok a.configurationList p := by
    obtain ⟨o, ho, hoa⟩ := exists_find?_of_content? ha
    apply resolvePart_of_find? ho
    rw [Object.configurationList?, hoa]
  have hmem : ∀ r ∈ p.configurationsOf a, (p.content? r.id).isSome := by
    intro r hr
    obtain ⟨c, hc⟩ := hp.configuration_of_mem_configurationsOf ha hr
    exact Option.isSome_of_eq_some hc
  rw [buildConfigurations, bind_of_ok hlist]
  unfold configurationsOf at *
  cases hr : a.configurationList with
  | none => rfl
  | some r =>
    obtain ⟨l, hl⟩ := hp.configurationList_of_target ha hr
    rw [hr, Option.bind_some, hl] at hmem
    have hresolve : resolveAs Content.configurationList? r.id p = .ok l p :=
      resolveAs_of_content? hl rfl
    show (resolveAs Content.configurationList? r.id >>= fun l => l.configurations.mapM follow) p = _
    rw [bind_of_ok hresolve, Option.bind_some, hl]
    exact mapM_follow hmem

/-- A target that has its list of configurations keeps its configurations. -/
theorem configurationsOf_of_grows (hp : p.WellFormed) (hpq : p.Grows q) {a b : NativeTarget}
    (ha : p.content? t = some (.target a)) (hb : q.content? t = some (.target b)) {r : Reference}
    (hr : a.configurationList = some r) : q.configurationsOf b = p.configurationsOf a := by
  obtain ⟨b', hb', -, -, -, hlist, -⟩ := hpq.target ha
  rw [hb] at hb'
  cases hb'
  obtain ⟨l, hl⟩ := hp.configurationList_of_target ha hr
  unfold configurationsOf
  rw [hlist r hr, hr, Option.bind_some, Option.bind_some, hl, hpq.configurationList hl]

theorem Configures.grows (hp : p.WellFormed) (h : p.Configures t i) (hpq : p.Grows q) :
    q.Configures t i := by
  obtain ⟨a, ha, hi⟩ := h
  obtain ⟨b, hb, -⟩ := hpq.target ha
  cases hr : a.configurationList with
  | none => simp [configurationsOf, hr] at hi
  | some r => exact ⟨b, hb, configurationsOf_of_grows hp hpq ha hb hr ▸ hi⟩

/-! ## Setting settings -/

theorem setBuildSettings_eq (i : ObjectId) (new : Settings) (p : Project) :
    setBuildSettings i new p = .ok () ((Step.settings i new).apply p) :=
  Step.modifyObject_eq_apply rfl rfl rfl rfl

theorem performs_setBuildSettings {c : Configuration} (hc : p.content? i = some (.configuration c))
    (new : Settings) :
    Edit.Performs (fun q s => q = p ∧ s = .settings i new) (setBuildSettings i new) p fun _ q =>
      q.content? i = some (.configuration { c with settings := new }) := by
  refine .of_step (t := .settings i new) (.settings hc) ?_ ⟨rfl, rfl⟩ (setBuildSettings_eq i new p)
    rfl ?_
  · intro _ h
    cases h
  · rw [Step.content?_apply_of_some hc]
    simp [Step.reviseContent, Content.withSettings]

/-! ## Composing -/

omit [IdScheme] in
/-- The configuration under this id has settings that the target has been put over. -/
def ComposedAt (p : Project) (d : Target) (i : ObjectId) : Prop :=
  ∃ c, ∃ s : Settings, p.content? i = some (.configuration c) ∧
    c.settings = Settings.compose d s.plain

/-- Settings stay composed unless other settings replace them. -/
theorem ComposedAt.path {A : Project → Step → Prop} {d : Target} (h : p.ComposedAt d i)
    (hpq : Path A p q)
    (hA : ∀ q' new, Path A p q' → A q' (.settings i new) →
      ∃ s : Settings, new = Settings.compose d s.plain) : q.ComposedAt d i := by
  induction hpq with
  | refl => exact h
  | @step q s path due fresh allowed ih =>
    obtain ⟨c, s₀, hc, hs₀⟩ := ih
    have hsame : s.reviseContent i (.configuration c) = .configuration c →
        (s.apply q).ComposedAt d i := fun hsame =>
      ⟨c, s₀, by rw [Step.content?_apply_of_some hc, hsame], hs₀⟩
    cases s with
    | settings j new =>
      by_cases hij : i = j
      · subst hij
        obtain ⟨s₁, hs₁⟩ := hA q new path allowed
        refine ⟨{ c with settings := new }, s₁, ?_, hs₁⟩
        rw [Step.content?_apply_of_some hc]
        simp [Step.reviseContent, Content.withSettings]
      · exact hsame (if_neg hij)
    | attach owner x =>
      apply hsame
      simp only [Step.reviseContent]
      split
      · cases x <;> rfl
      · rfl
    | configurationList | product | script =>
      apply hsame
      simp only [Step.reviseContent]
      split <;> rfl
    | configuration | scheme | schemeChange => exact hsame rfl

/-- All configurations of the target have settings that it has been put over. -/
def Composed (p : Project) (d : Target) (t : ObjectId) : Prop :=
  ∀ i, p.Configures t i → p.ComposedAt d i

/-- The steps that put a target over the settings that its configurations have in a project. -/
def SettingsSteps (d : Target) (t : ObjectId) (p q : Project) (s : Step) : Prop :=
  ∃ i c, p.content? i = some (.configuration c) ∧
    s = .settings i (Settings.compose d c.settings.plain) ∧ q.Configures t i

theorem mem_configurations (hp : p.WellFormed) {a : NativeTarget}
    (ha : p.content? t = some (.target a)) {o : Object}
    (ho : o ∈ p.objectsAt (p.configurationsOf a)) :
    p.Configures t o.id ∧ p.find? o.id = some o ∧ ∃ c, o.content = .configuration c := by
  obtain ⟨r, hr, hfound⟩ := mem_objectsAt.1 ho
  have hid := id_of_find? hfound
  obtain ⟨c, hc⟩ := hp.configuration_of_mem_configurationsOf ha hr
  rw [content?_of_find? hfound] at hc
  rw [← hid] at hfound
  exact ⟨⟨a, ha, hid ▸ List.mem_map_of_mem hr⟩, hfound, c, Option.some.inj hc⟩

theorem performs_composeSettings (hp : p.WellFormed) (hlist : p.HasList t) (d : Target) :
    Edit.Performs (SettingsSteps d t p) (Build.composeSettings t d) p fun _ q => q.Composed d t := by
  obtain ⟨a, r, ha, hr⟩ := hlist
  refine .bind_read (buildConfigurations_eq hp ha) ?_
  have hloop : Edit.Performs (SettingsSteps d t p)
      ((p.objectsAt (p.configurationsOf a)).forM fun o => do
        let settings ← partOf Object.settings? o
        setBuildSettings o.id (Settings.compose d settings.plain)) p
      fun _ q => ∀ o ∈ p.objectsAt (p.configurationsOf a), q.ComposedAt d o.id := by
    refine .forM (fun o ho q hpq => ?_) fun o q q' _ h hpath => h.path hpath ?_
    · obtain ⟨hconfigures, hfound, c, hc⟩ := mem_configurations hp ha ho
      have hsettings : partOf Object.settings? o q = .ok c.settings q := by
        apply partOf_of_eq_some
        rw [Object.settings?, hc]
      have hregistered : p.content? o.id = some (.configuration c) := by
        rw [content?_of_find? hfound, hc]
      obtain ⟨b, hb⟩ := hpq.grows.configuration hregistered
      refine .bind_read hsettings ?_
      refine (performs_setBuildSettings hb _).mono ?_ fun _ q' _ h => ⟨_, _, h, rfl⟩
      rintro q' s ⟨rfl, rfl⟩
      exact ⟨o.id, c, hregistered, rfl, hconfigures.grows hp hpq.grows⟩
    · rintro q' new - ⟨j, c, -, hs, -⟩
      cases hs
      exact ⟨c.settings, rfl⟩
  refine hloop.mono (fun _ _ h => h) fun _ q hpq h i hi => ?_
  -- The target lists the same configurations as before.
  obtain ⟨b, hb, hi⟩ := hi
  rw [configurationsOf_of_grows hp hpq.grows ha hb hr] at hi
  obtain ⟨r', hr', rfl⟩ := List.mem_map.1 hi
  obtain ⟨c, hc⟩ := hp.configuration_of_mem_configurationsOf ha hr'
  obtain ⟨o, ho, -⟩ := exists_find?_of_content? hc
  rw [← id_of_find? ho]
  exact h o (mem_objectsAt.2 ⟨r', hr', ho⟩)

/-- Composed settings are left as they are. -/
theorem composeSettings_of_composed (hp : p.WellFormed) {a : NativeTarget}
    (ha : p.content? t = some (.target a)) {d : Target} (h : p.Composed d t) :
    Build.composeSettings t d p = .ok () p := by
  rw [Build.composeSettings, bind_of_ok (buildConfigurations_eq hp ha)]
  apply forM_of_ok
  intro o ho
  obtain ⟨hconfigures, hfound, c, hc⟩ := mem_configurations hp ha ho
  obtain ⟨c', s, hc', hs⟩ := h o.id hconfigures
  rw [content?_of_find? hfound, hc] at hc'
  cases hc'
  have hsettings : partOf Object.settings? o p = .ok c.settings p := by
    apply partOf_of_eq_some
    rw [Object.settings?, hc]
  rw [bind_of_ok hsettings, setBuildSettings_eq, hs, Settings.compose_plain_compose, ← hs]
  have hsame : o.withSettings c.settings = o := by
    obtain ⟨j, d, attached⟩ := o
    cases hc
    rfl
  rw [Step.apply_eq_self hp rfl rfl rfl rfl hfound hsame]

end ProjectGraph.Project
