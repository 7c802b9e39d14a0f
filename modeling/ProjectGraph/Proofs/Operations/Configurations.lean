import ProjectGraph.Proofs.Operations.Targets

/-! # Configurations and their settings -/

namespace ProjectGraph.Project

variable [IdScheme] {p q : Project} {t i : ObjectId}

/-! ## Lists of configurations -/

/-- What registering these configurations in order makes of a project. -/
structure Registered (cs : List Configuration) (p q : Project) : Prop where
  nodup : (cs.map fun c => (Content.configuration c).id).Nodup
  free : ∀ c ∈ cs, p.content? (Content.configuration c).id = none
  new : ∀ c ∈ cs, q.content? (Content.configuration c).id = some (.configuration c)
  kept : ∀ i c, p.content? i = some c → q.content? i = some c
  cases : ∀ i d, q.content? i = some d → p.content? i = some d ∨ ∃ c ∈ cs, d = .configuration c

theorem Registered.cons {c : Configuration} {cs : List Configuration}
    (hfree : p.content? (Content.configuration c).id = none)
    (h : Registered cs ((Step.configuration c).apply p) q) : Registered (c :: cs) p q := by
  have hnew : ((Step.configuration c).apply p).content? (Content.configuration c).id =
      some (.configuration c) := by
    rw [Step.content?_apply, hfree]
    simp [Step.new?, Step.reviseContent]
  have hkept : ∀ i d, p.content? i = some d →
      ((Step.configuration c).apply p).content? i = some d := fun i d hi =>
    Step.content?_apply_of_some hi
  constructor
  · rw [List.map_cons, List.nodup_cons]
    refine ⟨?_, h.nodup⟩
    intro hmem
    obtain ⟨d, hd, hid⟩ := List.mem_map.1 hmem
    have hd := h.free d hd
    rw [hid, hnew] at hd
    cases hd
  · intro d hd
    rcases List.mem_cons.1 hd with rfl | hd
    · exact hfree
    · have hnone := h.free d hd
      cases hp : p.content? (Content.configuration d).id with
      | none => rfl
      | some e =>
        rw [hkept _ e hp] at hnone
        cases hnone
  · intro d hd
    rcases List.mem_cons.1 hd with rfl | hd
    · exact h.kept _ _ hnew
    · exact h.new d hd
  · exact fun i d hi => h.kept i d (hkept i d hi)
  · intro i d hi
    rcases h.cases i d hi with hi | ⟨c', hc', rfl⟩
    · rcases Step.content?_apply_cases hi with ⟨e, he, rfl⟩ | ⟨e, he, -, rfl⟩
      · exact .inl he
      · cases he
        exact .inr ⟨c, by simp, rfl⟩
    · exact .inr ⟨c', List.mem_cons_of_mem c hc', rfl⟩

theorem configuration_apply (c : Configuration) (p : Project) :
    (Step.configuration c).apply p =
      { p with objects := p.objects ++ [(Content.configuration c).object] } := by
  simp [Step.apply, Step.new?, Step.revise]

theorem performs_registerConfigurations (cs : List Configuration) :
    Edit.Performs (fun _ s => ∃ c ∈ cs, s = .configuration c)
      (cs.forM fun c => discard <| register (.configuration c)) p fun _ q => Registered cs p q := by
  induction cs generalizing p with
  | nil =>
    refine .of_ok (a := ⟨⟩) rfl ?_
    exact ⟨.nil, by simp, by simp, fun _ _ h => h, fun _ _ h => .inl h⟩
  | cons c cs ih =>
    have hdue : (Step.configuration c).Due p := .configuration c
    have hround : Edit.Performs (fun _ s => ∃ d ∈ c :: cs, s = .configuration d)
        (discard <| register (.configuration c)) p
        fun _ q => q = (Step.configuration c).apply p ∧ (Step.configuration c).Fresh p := by
      show Edit.Performs _ (register (.configuration c) >>= fun _ => pure ()) p _
      refine Edit.performs_register (b := ()) hdue ⟨c, by simp, rfl⟩ rfl ?_
        fun hfresh => ⟨rfl, hfresh⟩
      rw [configuration_apply]
      rfl
    show Edit.Performs _ ((discard <| register (.configuration c)) >>= fun _ => List.forM cs _) p _
    refine hround.bind ?_
    rintro _ q - ⟨rfl, hfresh⟩
    refine ih.mono ?_ fun _ q _ h => h.cons (hfresh _ rfl)
    rintro q s ⟨d, hd, rfl⟩
    exact ⟨d, List.mem_cons_of_mem c hd, rfl⟩

/-- The target has a list of configurations. -/
def HasList (p : Project) (t : ObjectId) : Prop :=
  ∃ a r, p.content? t = some (.target a) ∧ a.configurationList = some r

omit [IdScheme] in
theorem HasList.grows (h : p.HasList t) (hpq : p.Grows q) : q.HasList t := by
  obtain ⟨a, r, ha, hr⟩ := h
  obtain ⟨b, hb, -, -, -, hlist, -⟩ := hpq.target ha
  exact ⟨b, r, hb, hlist r hr⟩

/-- A target that has its list keeps it as it is. -/
theorem newConfigurationList_of_hasList (h : p.HasList t) (platform : PlatformKind)
    (language : LanguageKind) (kind : TargetKind) :
    newConfigurationList t platform language kind p = .ok () p := by
  obtain ⟨a, r, ha, hr⟩ := h
  obtain ⟨o, ho, hoa⟩ := exists_find?_of_content? ha
  have hlist : resolvePart Object.configurationList? t p = .ok (some r) p := by
    apply resolvePart_of_find? ho
    rw [Object.configurationList?, hoa, ← hr]
  rw [newConfigurationList, bind_of_ok hlist]
  rfl

/-- The steps that give a target its list as long as it has none: they make its configurations with
their defaults, and their list. -/
def ListSteps (t : ObjectId) (owner : String) (q : Project) (s : Step) : Prop :=
  ¬ q.HasList t ∧
    ((∃ platform language kind name,
      s = .configuration (defaultConfiguration owner platform language kind name)) ∨
      ∃ l, s = .configurationList t l ∧ l.owner = owner)

omit [IdScheme] in
theorem not_hasList {a : NativeTarget} (ha : p.content? t = some (.target a))
    (h : a.configurationList = none) : ¬ p.HasList t := by
  rintro ⟨b, r, hb, hr⟩
  rw [ha] at hb
  cases hb
  rw [h] at hr
  cases hr

/-- Registering configurations leaves what is registered as it is. -/
theorem content?_of_configurations {cs : List Configuration} {c : Content}
    (hpq : Path (fun _ s => ∃ d ∈ cs, s = .configuration d) p q) (hc : p.content? i = some c) :
    q.content? i = some c := by
  induction hpq with
  | refl => exact hc
  | step _ _ _ allowed ih =>
    obtain ⟨d, -, rfl⟩ := allowed
    exact Step.content?_apply_of_some ih

/-- A target without a list can be given one of configurations that have just been registered. -/
theorem due_configurationList (hp : p.WellFormed) {a : NativeTarget}
    (ha : p.content? t = some (.target a)) (habsent : a.configurationList = none)
    {cs : List Configuration} (h : Registered cs p q) {l : ConfigurationList}
    (hl : l.configurations = cs.map configurationReference) : (Step.configurationList t l).Due q := by
  have hmem : ∀ r ∈ l.configurations, ∃ c ∈ cs, r.id = (Content.configuration c).id := by
    intro r hr
    rw [hl] at hr
    obtain ⟨c, hc, rfl⟩ := List.mem_map.1 hr
    exact ⟨c, hc, rfl⟩
  refine .configurationList (h.kept _ _ ha) habsent ?_ ?_ ?_ ?_
  · rw [hl, List.map_map]
    exact h.nodup
  · intro r hr
    obtain ⟨c, hc, hid⟩ := hmem r hr
    exact ⟨c, hid ▸ h.new c hc⟩
  · -- A list of the project has been there before, and leads to other configurations.
    intro r hr j k hk hlisted
    obtain ⟨c, hc, hid⟩ := hmem r hr
    rcases h.cases j _ hk with hk | ⟨c', -, hk⟩
    · obtain ⟨r', hr', hid'⟩ := List.mem_map.1 hlisted
      obtain ⟨d, hd⟩ := hp.configuration_of_mem hk hr'
      rw [hid', hid, h.free c hc] at hd
      cases hd
    · cases hk
  · intro r hr d hd
    rw [hl] at hr
    obtain ⟨c, hc, rfl⟩ := List.mem_map.1 hr
    rw [configurationReference, h.new c hc] at hd
    cases hd
    rfl

/-- The list of these configurations of a target. The last one is the default. -/
def listFor (p : Project) (a : NativeTarget) (cs : List Configuration) : ConfigurationList :=
  newConfigurationListOf a.name p.configurationNames p.configurationNames_ne_nil
    (cs.map configurationReference)

/-- Registers configurations and their list, which a target gets. -/
def registerList (t : ObjectId) (cs : List Configuration) (l : ConfigurationList) : Edit Unit := do
  cs.forM fun c => discard <| register (.configuration c)
  let id ← register (.configurationList l)
  modifyObject t (Object.withConfigurationList (some ⟨id, none⟩))

/-- A target without a list is given its default configurations. -/
theorem newConfigurationList_eq {a : NativeTarget} (ha : p.content? t = some (.target a))
    (hnone : a.configurationList = none) (platform : PlatformKind) (language : LanguageKind)
    (kind : TargetKind) :
    newConfigurationList t platform language kind p =
      registerList t (p.configurationNames.map (defaultConfiguration a.name platform language kind))
        (p.listFor a (p.configurationNames.map (defaultConfiguration a.name platform language kind)))
        p := by
  obtain ⟨o, ho, hoa⟩ := exists_find?_of_content? ha
  have hlist : resolvePart Object.configurationList? t p = .ok none p := by
    apply resolvePart_of_find? ho
    rw [Object.configurationList?, hoa, ← hnone]
  have hname : resolveAs Content.name? t p = .ok a.name p := resolveAs_of_content? ha rfl
  unfold newConfigurationList
  rw [bind_of_ok hlist]
  simp only
  rw [bind_of_ok hname]
  rfl

theorem performs_newConfigurationList (hp : p.WellFormed) {a : NativeTarget}
    (ha : p.content? t = some (.target a)) (platform : PlatformKind) (language : LanguageKind)
    (kind : TargetKind) :
    Edit.Performs (ListSteps t a.name) (newConfigurationList t platform language kind) p
      fun _ q => q.HasList t := by
  cases habsent : a.configurationList with
  | some r =>
    have hlist : p.HasList t := ⟨a, r, ha, habsent⟩
    exact .of_ok (newConfigurationList_of_hasList hlist platform language kind) hlist
  | none =>
    let cs := p.configurationNames.map (defaultConfiguration a.name platform language kind)
    have hconfigurations := (performs_registerConfigurations (p := p) cs).restrict
      (B := ListSteps t a.name) <| by
        rintro q s hpq - ⟨c, hc, rfl⟩
        obtain ⟨n, -, rfl⟩ := List.mem_map.1 hc
        exact ⟨not_hasList (content?_of_configurations hpq ha) habsent, .inl ⟨_, _, _, _, rfl⟩⟩
    have hregister : Edit.Performs (ListSteps t a.name) (registerList t cs (p.listFor a cs)) p
        fun _ q => q.HasList t := by
      refine hconfigurations.bind fun _ q hpq hq => ?_
      have hdue : (Step.configurationList t (p.listFor a cs)).Due q :=
        due_configurationList hp ha habsent hq rfl
      refine Edit.performs_register (b := ())
        hdue ⟨not_hasList (hq.kept _ _ ha) habsent, .inr ⟨_, rfl, rfl⟩⟩ rfl rfl fun _ => ?_
      refine ⟨{ a with
        configurationList := some ⟨(Content.configurationList (p.listFor a cs)).id, none⟩ }, _, ?_, rfl⟩
      rw [Step.content?_apply_of_some (hq.kept _ _ ha)]
      simp [Step.reviseContent, Content.withConfigurationList]
    exact Leads.congr (newConfigurationList_eq ha habsent platform language kind) hregister

end ProjectGraph.Project
