import ProjectGraph.Proofs.Builds.Built
import ProjectGraph.Proofs.Keys.Linking

/-! # Owners of configurations

The key of a configuration joins the name of its owner and its own name, and the owner of the project's
configurations has a name like those of targets. As long as no two owners of a project can come to the
same keys, each target can be given its configurations, and no more is registered than what has been
given. -/

namespace ProjectGraph

/-! ## Keys -/

/-- No configurations of these names have one key with both owners. -/
def OwnersDiffer (names : List String) (owner owner' : String) : Prop :=
  ∀ n ∈ names, ∀ n' ∈ names, ownerKey owner ++ ":" ++ n ≠ ownerKey owner' ++ ":" ++ n'

/-- The owners of configurations of these names, the project and its targets, differ in the keys that
they can make. -/
structure OwnersApart (names : List String) (target : String → Prop) : Prop where
  project : ∀ owner, target owner → OwnersDiffer names Project.projectOwner owner
  targets : ∀ owner owner', target owner → target owner' → owner ≠ owner' →
    OwnersDiffer names owner owner'

section

variable {names : List String} {target target' : String → Prop}

theorem OwnersApart.mono (h : OwnersApart names target) (himp : ∀ owner, target' owner → target owner) :
    OwnersApart names target' where
  project owner ho := h.project owner (himp owner ho)
  targets owner owner' ho ho' hne := h.targets owner owner' (himp owner ho) (himp owner' ho') hne

theorem ownersDiffer_of_colonFree (hcolon : ∀ n ∈ names, ':' ∉ n.toList) {owner owner' : String}
    (hne : ownerKey owner ≠ ownerKey owner') : OwnersDiffer names owner owner' :=
  fun n hn n' hn' h => hne (Text.after_colon_inj (hcolon n hn) (hcolon n' hn') h).1

/-- If no configuration has a colon in its name, owners are apart unless a target goes by the name of the
project's own configurations, or one target has no name and another one the name that is written then. -/
theorem OwnersApart.of_colonFree (hcolon : ∀ n ∈ names, ':' ∉ n.toList)
    (hproject : ¬ target Project.projectOwner) (hglobal : ¬ (target "" ∧ target "GLOBAL")) :
    OwnersApart names target where
  project owner ho := by
    refine ownersDiffer_of_colonFree hcolon fun h => ?_
    unfold ownerKey at h
    split at h
    · next hempty => exact absurd hempty (by decide)
    · split at h
      · exact absurd h (by decide)
      · exact hproject (h ▸ ho)
  targets owner owner' ho ho' hne := by
    refine ownersDiffer_of_colonFree hcolon fun h => ?_
    unfold ownerKey at h
    split at h <;> split at h
    · next hempty hempty' => exact hne (hempty.trans hempty'.symm)
    · next hempty _ => exact hglobal ⟨hempty ▸ ho, h ▸ ho'⟩
    · next _ hempty' => exact hglobal ⟨hempty' ▸ ho', h ▸ ho⟩
    · exact hne h

end

namespace Content

theorem exists_of_key_eq_configuration {c : Content} {d : Configuration}
    (h : c.key = (configuration d).key) :
    ∃ e, c = configuration e ∧
      ownerKey e.owner ++ ":" ++ e.name = ownerKey d.owner ++ ":" ++ d.name := by
  obtain ⟨hclass, hrest⟩ := objectClass_eq_of_key_eq h
  cases c <;> cases hclass
  exact ⟨_, rfl, hrest⟩

theorem exists_of_key_eq_configurationList {c : Content} {l : ConfigurationList}
    (h : c.key = (configurationList l).key) :
    ∃ k, c = configurationList k ∧ ownerKey k.owner = ownerKey l.owner := by
  obtain ⟨hclass, hrest⟩ := objectClass_eq_of_key_eq h
  cases c <;> cases hclass
  exact ⟨_, rfl, hrest⟩

end Content

namespace Project

variable {p q : Project} {t i : ObjectId} {a : NativeTarget}

/-- A target has the name. -/
def NamesTarget (p : Project) (name : String) : Prop := ∃ t, p.IsNamed t name

/-- If all objects that are targets pass a check by their names, each name of a target passes it. -/
theorem NamesTarget.of_all {name : String} (h : p.NamesTarget name) {f : String → Bool}
    (hall : p.objects.all fun o => o.content.target?.all fun a => f a.name) : f name := by
  obtain ⟨t, a, ha, rfl⟩ := h
  obtain ⟨o, ho, -, hcontent⟩ := exists_mem_of_content? ha
  have hpasses := List.all_eq_true.1 hall o ho
  rwa [hcontent] at hpasses

/-- The owners of configurations of a project can be told apart. -/
def OwnersApart (p : Project) : Prop :=
  ProjectGraph.OwnersApart p.configurationNames p.NamesTarget

/-- Where there are more targets, there is more to tell apart. -/
theorem OwnersApart.of_grows (h : q.OwnersApart) (hpq : p.Grows q) : p.OwnersApart := by
  unfold OwnersApart at h ⊢
  rw [← hpq.configurationNames]
  exact h.mono fun _ ⟨t, ht⟩ => ⟨t, ht.grows hpq⟩

/-- The owner is the project, or a target that has its list of configurations. -/
def Owns (p : Project) (owner : String) : Prop :=
  owner = projectOwner ∨ ∃ t, p.IsNamed t owner ∧ p.HasList t

theorem Owns.grows {owner : String} (h : p.Owns owner) (hpq : p.Grows q) : q.Owns owner := by
  rcases h with rfl | ⟨t, ht, hlist⟩
  · exact .inl rfl
  · exact .inr ⟨t, ht.grows hpq, hlist.grows hpq⟩

/-- All configurations of a project are in use, and have the names that configurations are given. -/
structure Settled (p : Project) : Prop where
  nodup : p.configurationNames.Nodup
  configuration : ∀ i c, p.content? i = some (.configuration c) →
    p.Owns c.owner ∧ c.name ∈ p.configurationNames
  list : ∀ i l, p.content? i = some (.configurationList l) → p.Owns l.owner

variable [IdScheme]

/-- From the first project to the second one a target has been given these configurations, all of them
new, and their list. -/
structure Configured (p q : Project) (t : ObjectId) (a : NativeTarget) (cs : List Configuration) :
    Prop where
  nodup : (cs.map fun c => (Content.configuration c).id).Nodup
  free : ∀ c ∈ cs, p.content? (Content.configuration c).id = none
  registered : ∀ c ∈ cs, q.content? (Content.configuration c).id = some (.configuration c)
  freeList : p.content? (Content.configurationList (p.listFor a cs)).id = none
  list : q.content? (Content.configurationList (p.listFor a cs)).id =
    some (.configurationList (p.listFor a cs))
  target : q.content? t = some (.target
    { a with configurationList := some ⟨(Content.configurationList (p.listFor a cs)).id, none⟩ })
  kept : ∀ i d, p.content? i = some d → i ≠ t → q.content? i = some d
  /-- Nothing else is new. -/
  cases : ∀ i d, q.content? i = some d → i ≠ t → p.content? i = some d ∨
    (∃ c ∈ cs, d = .configuration c) ∨ d = .configurationList (p.listFor a cs)

theorem Configured.hasList {cs : List Configuration} (h : p.Configured q t a cs) : q.HasList t :=
  ⟨_, _, h.target, rfl⟩

/-! ## Giving a target its configurations -/

theorem exists_registerConfigurations {cs : List Configuration}
    (hn : (cs.map fun c => (Content.configuration c).id).Nodup)
    (hfree : ∀ c ∈ cs, p.content? (Content.configuration c).id = none) :
    ∃ q, (cs.forM fun c => discard <| register (.configuration c)) p = .ok ⟨⟩ q := by
  induction cs generalizing p with
  | nil => exact ⟨p, rfl⟩
  | cons c cs ih =>
    rw [List.map_cons, List.nodup_cons] at hn
    have hc := hfree c (by simp)
    have hregister : discard (register (.configuration c)) p =
        .ok () { p with objects := p.objects ++ [(Content.configuration c).object] } :=
      discard_of_ok (register_of_free hc)
    have hstep : { p with objects := p.objects ++ [(Content.configuration c).object] } =
        (Step.configuration c).apply p := by
      simp [Step.apply, Step.new?, Step.revise]
    rw [hstep] at hregister
    obtain ⟨q, hq⟩ := ih (p := (Step.configuration c).apply p) hn.2 fun d hd => by
      rw [Step.content?_apply, hfree d (List.mem_cons_of_mem c hd), Option.none_or]
      have hother : (Content.configuration c).id ≠ (Content.configuration d).id := by
        intro h
        exact hn.1 (h ▸ List.mem_map_of_mem (f := fun c => (Content.configuration c).id) hd)
      simp [Step.new?, hother]
    exact ⟨q, (bind_of_ok hregister).trans hq⟩

theorem Owns.differ {owner : String} (h : p.Owns owner) (hp : p.WellFormed) (hap : p.OwnersApart)
    (ha : p.content? t = some (.target a)) (hnone : a.configurationList = none) :
    OwnersDiffer p.configurationNames owner a.name := by
  rcases h with rfl | ⟨u, hu, hlist⟩
  · exact hap.project a.name ⟨t, a, ha, rfl⟩
  · refine hap.targets owner a.name ⟨u, hu⟩ ⟨t, a, ha, rfl⟩ ?_
    rintro rfl
    obtain ⟨b, hb, hname⟩ := hu
    obtain rfl := hp.target_unique hb ha hname
    exact not_hasList ha hnone hlist

namespace Settled

/-- The configurations of a target that has no list yet have keys of their own. -/
theorem key_ne_configuration (h : p.Settled) (hp : p.WellFormed) (hap : p.OwnersApart)
    (ha : p.content? t = some (.target a)) (hnone : a.configurationList = none) {c : Configuration}
    (howner : c.owner = a.name) (hc : c.name ∈ p.configurationNames) {d : Content}
    (hd : p.content? i = some d) : d.key ≠ (Content.configuration c).key := by
  intro hkey
  obtain ⟨e, rfl, hrest⟩ := Content.exists_of_key_eq_configuration hkey
  obtain ⟨howns, hmem⟩ := h.configuration i e hd
  rw [howner] at hrest
  exact howns.differ hp hap ha hnone e.name hmem c.name hc hrest

theorem key_ne_configurationList (h : p.Settled) (hp : p.WellFormed) (hap : p.OwnersApart)
    (ha : p.content? t = some (.target a)) (hnone : a.configurationList = none)
    {l : ConfigurationList} (howner : l.owner = a.name) {d : Content}
    (hd : p.content? i = some d) : d.key ≠ (Content.configurationList l).key := by
  intro hkey
  obtain ⟨k, rfl, hrest⟩ := Content.exists_of_key_eq_configurationList hkey
  have hdiffer := (h.list i k hd).differ hp hap ha hnone
  obtain ⟨n, hn⟩ := List.exists_mem_of_ne_nil _ p.configurationNames_ne_nil
  refine hdiffer n hn n hn ?_
  rw [hrest, howner]

end Settled

theorem nodup_ids_defaultConfiguration (hinj : Function.Injective IdScheme.ofKey)
    {names : List String} (hnames : names.Nodup) (owner : String) (platform : PlatformKind)
    (language : LanguageKind) (kind : TargetKind) :
    ((names.map (defaultConfiguration owner platform language kind)).map
      fun c => (Content.configuration c).id).Nodup := by
  rw [List.map_map]
  refine hnames.map fun n n' h => ?_
  have hkey := hinj h
  obtain ⟨-, hrest⟩ := Content.objectClass_eq_of_key_eq
    (c := .configuration (defaultConfiguration owner platform language kind n))
    (d := .configuration (defaultConfiguration owner platform language kind n')) hkey
  exact (String.append_right_inj _).1 hrest

/-- A list after its configurations gives them to a target. -/
theorem Configured.of_registered {cs : List Configuration} (ha : p.content? t = some (.target a))
    (h : Registered cs p q)
    (hfree : q.content? (Content.configurationList (p.listFor a cs)).id = none) :
    p.Configured ((Step.configurationList t (p.listFor a cs)).apply q) t a cs where
  nodup := h.nodup
  free := h.free
  registered c hc := by
    rw [Step.content?_apply_of_some (h.new c hc)]
    simp [Step.reviseContent, Content.withConfigurationList]
  freeList := by
    cases hlist : p.content? (Content.configurationList (p.listFor a cs)).id with
    | none => rfl
    | some d =>
      rw [h.kept _ d hlist] at hfree
      cases hfree
  list := by
    rw [Step.content?_apply, hfree]
    simp [Step.new?, Step.reviseContent, Content.withConfigurationList]
  target := by
    rw [Step.content?_apply_of_some (h.kept _ _ ha)]
    simp [Step.reviseContent, Content.withConfigurationList]
  kept i d hd hi := by
    rw [Step.content?_apply_of_some (h.kept i d hd)]
    simp [Step.reviseContent, hi]
  cases i d hd hi := by
    rcases Step.content?_apply_cases hd with ⟨e, he, rfl⟩ | ⟨e, hnew, -, rfl⟩
    · rw [Step.reviseContent, if_neg hi]
      rcases h.cases i e he with he | ⟨c, hc, rfl⟩
      · exact .inl he
      · exact .inr (.inl ⟨c, hc, rfl⟩)
    · rw [Step.reviseContent, if_neg hi]
      cases hnew
      exact .inr (.inr rfl)

/-- The configurations of a target that has no list yet can be registered, and their list after them. -/
theorem Settled.exists_registered (h : p.Settled) (hinj : Function.Injective IdScheme.ofKey)
    (hp : p.WellFormed) (hap : p.OwnersApart) (ha : p.content? t = some (.target a))
    (hnone : a.configurationList = none) (platform : PlatformKind) (language : LanguageKind)
    (kind : TargetKind) {cs : List Configuration}
    (hcs : cs = p.configurationNames.map (defaultConfiguration a.name platform language kind)) :
    ∃ q, (cs.forM fun c => discard <| register (.configuration c)) p = .ok ⟨⟩ q ∧
      Registered cs p q ∧ q.content? (Content.configurationList (p.listFor a cs)).id = none := by
  have hnodup := nodup_ids_defaultConfiguration hinj h.nodup a.name platform language kind
  rw [← hcs] at hnodup
  have hfree : ∀ c ∈ cs, p.content? (Content.configuration c).id = none := by
    intro c hc
    rw [hcs] at hc
    obtain ⟨n, hn, rfl⟩ := List.mem_map.1 hc
    exact content?_eq_none_of_key_ne hinj hp fun i d => h.key_ne_configuration hp hap ha hnone rfl hn
  obtain ⟨q, hq⟩ := exists_registerConfigurations hnodup hfree
  obtain ⟨hpath, hregistered⟩ := Leads.of_ok (performs_registerConfigurations cs) hq
  refine ⟨q, hq, hregistered, content?_eq_none_of_key_ne hinj (hpath.wellFormed hp) fun i d hd => ?_⟩
  rcases hregistered.cases i d hd with hd | ⟨c, -, rfl⟩
  · exact h.key_ne_configurationList hp hap ha hnone rfl hd
  · intro hkey
    cases (Content.objectClass_eq_of_key_eq hkey).1

/-- A target that has no list of configurations is given one. -/
theorem exists_newConfigurationList (hinj : Function.Injective IdScheme.ofKey) (hp : p.WellFormed)
    (hset : p.Settled) (hap : p.OwnersApart) (ha : p.content? t = some (.target a))
    (hnone : a.configurationList = none) (platform : PlatformKind) (language : LanguageKind)
    (kind : TargetKind) :
    ∃ q, newConfigurationList t platform language kind p = .ok () q ∧
      p.Configured q t a
        (p.configurationNames.map (defaultConfiguration a.name platform language kind)) := by
  let cs := p.configurationNames.map (defaultConfiguration a.name platform language kind)
  obtain ⟨p₁, h₁, hregistered, hfree⟩ :=
    hset.exists_registered hinj hp hap ha hnone platform language kind rfl
  refine ⟨(Step.configurationList t (p.listFor a cs)).apply p₁, ?_, .of_registered ha hregistered hfree⟩
  rw [newConfigurationList_eq ha hnone, registerList, bind_of_ok h₁]
  exact bind_of_ok (register_of_free hfree)

/-! ## Settled projects stay settled -/

theorem Settled.of_configured {cs : List Configuration} (h : p.Settled) (hpq : p.Grows q)
    (hcs : ∀ c ∈ cs, c.owner = a.name ∧ c.name ∈ p.configurationNames)
    (hconfigured : p.Configured q t a cs) : q.Settled := by
  have howns : q.Owns a.name := .inr ⟨t, ⟨_, hconfigured.target, rfl⟩, hconfigured.hasList⟩
  have hne : ∀ {i d}, q.content? i = some d → (∀ b, d ≠ .target b) → i ≠ t := by
    rintro i d hd hb rfl
    rw [hconfigured.target] at hd
    cases hd
    exact hb _ rfl
  constructor
  · rw [hpq.configurationNames]
    exact h.nodup
  · intro i c hc
    rw [hpq.configurationNames]
    rcases hconfigured.cases i _ hc (hne hc (by simp)) with hold | ⟨c', hc', heq⟩ | heq
    · exact ⟨(h.configuration i c hold).1.grows hpq, (h.configuration i c hold).2⟩
    · cases heq
      rw [(hcs c hc').1]
      exact ⟨howns, (hcs c hc').2⟩
    · cases heq
  · intro i l hl
    rcases hconfigured.cases i _ hl (hne hl (by simp)) with hold | ⟨c', -, heq⟩ | heq
    · exact (h.list i l hold).grows hpq
    · cases heq
    · cases heq
      exact howns

/-- After a target has been given its configurations, all of them are in use. -/
theorem exists_settled_newConfigurationList (hinj : Function.Injective IdScheme.ofKey)
    (hp : p.WellFormed) (hset : p.Settled) (hap : p.OwnersApart)
    (ha : p.content? t = some (.target a)) (platform : PlatformKind) (language : LanguageKind)
    (kind : TargetKind) :
    ∃ q, newConfigurationList t platform language kind p = .ok () q ∧ q.Settled ∧ q.HasList t ∧
      q.WellFormed ∧ p.Grows q := by
  cases hlist : a.configurationList with
  | some r =>
    have hlist : p.HasList t := ⟨a, r, ha, hlist⟩
    exact ⟨p, newConfigurationList_of_hasList hlist platform language kind, hset, hlist, hp, .refl p⟩
  | none =>
    obtain ⟨q, hq, hconfigured⟩ :=
      exists_newConfigurationList hinj hp hset hap ha hlist platform language kind
    obtain ⟨hpq, -⟩ := Leads.of_ok (performs_newConfigurationList hp ha platform language kind) hq
    refine ⟨q, hq, hset.of_configured hpq.grows ?_ hconfigured, hconfigured.hasList,
      hpq.wellFormed hp, hpq.grows⟩
    intro c hc
    obtain ⟨n, hn, rfl⟩ := List.mem_map.1 hc
    exact ⟨rfl, hn⟩

end Project

variable [IdScheme]

omit [IdScheme] in
/-- Contents that other steps register are no configurations and no lists of them. -/
theorem Step.not_isConfigurational_of_new {s : Step} {c : Content} (hs : ¬ s.isConfiguring)
    (hnew : s.new? = some c) : ¬ c.IsConfigurational := by
  cases s with
  | attach i x =>
    cases hnew
    cases x <;> (rintro (h | h) <;> cases h)
  | configuration | configurationList => exact absurd rfl hs
  | _ => cases hnew

theorem Step.settled_apply {p : Project} {s : Step} (hp : p.WellFormed) (hd : s.Due p) (hf : s.Fresh p)
    (hs : ¬ s.isConfiguring) (h : p.Settled) : (s.apply p).Settled := by
  have hgrow := grows_apply hd
  constructor
  · exact h.nodup
  · intro i c hc
    rcases content?_apply_grows hp hd hf hc with ⟨d, hd, hd'⟩ | ⟨hnew, -⟩
    · cases hd' with
      | configuration name owner =>
        rw [name, owner]
        exact ⟨(h.configuration i _ hd).1.grows hgrow, (h.configuration i _ hd).2⟩
    · exact absurd (.inl rfl) (not_isConfigurational_of_new hs hnew)
  · intro i l hl
    rcases content?_apply_grows hp hd hf hl with ⟨d, hd, hd'⟩ | ⟨hnew, -⟩
    · cases hd'
      exact (h.list i l hd).grows hgrow
    · exact absurd (.inr rfl) (not_isConfigurational_of_new hs hnew)

theorem Path.settled {A : Project → Step → Prop} {p q : Project} (hpq : Path A p q)
    (hA : ∀ q s, A q s → ¬ s.isConfiguring) (hp : p.WellFormed) (h : p.Settled) : q.Settled := by
  induction hpq with
  | refl => exact h
  | step path due fresh allowed ih =>
    exact Step.settled_apply (path.wellFormed hp) due fresh (hA _ _ allowed) ih

/-! ## Builds that leave projects settled -/

/-- A step of a build that makes no configurations. -/
def PlainStep (d : Target) (q : Project) (s : Step) : Prop := InBuild d q s ∧ ¬ s.isConfiguring

/-- While the target has its list, its build makes no configurations. -/
theorem BuildStep.plainStep {d : Target} {p q : Project} {s : Step} {t : ObjectId} (hq : q.WellFormed)
    (ht : q.IsNamed t d.name) (hlist : q.HasList t) (h : BuildStep d p q s) : PlainStep d q s := by
  refine ⟨h.inBuild, fun hs => ?_⟩
  obtain ⟨u, ⟨b, hb, hname⟩, hnone, -⟩ := h.lists hs
  obtain ⟨a, ha, hname'⟩ := ht
  obtain rfl := hq.target_unique hb ha (hname.trans hname'.symm)
  exact hnone hlist

/-- The state after a line has been printed. -/
def BuildState.saying (s : BuildState) (line : String) : BuildState :=
  { s with workspace.printed := s.workspace.printed ++ [line] }

namespace Build

open Project

variable {s : BuildState} {d : Target}

/-- A build starts with its target and its configurations. -/
theorem exists_build_eq (d : Target) : ∃ rest : ObjectId → Build ObjectId, ∀ s,
    build d s = (do
      let t ← edit (newNativeTarget d.name d.kind)
      edit (newConfigurationList t (configurationPlatform d.platforms) d.language.kind d.kind)
      rest t) (s.saying ("generating " ++ d.name)) :=
  ⟨_, fun _ => rfl⟩

/-- A build that does not come to its configurations has at most made its target. -/
theorem build_of_newNativeTarget_error {e : Error} {q : Project}
    (h : newNativeTarget d.name d.kind s.project = .error e q) :
    ∃ s', build d s = .error e s' ∧ s'.project = q := by
  obtain ⟨rest, hrest⟩ := exists_build_eq d
  have hedit := edit_of_eq_error (s := s.saying ("generating " ++ d.name)) h
  exact ⟨_, (hrest s).trans (bind_of_error hedit), rfl⟩

/-- A build goes on as one that finds its target there. -/
theorem build_of_newNativeTarget {t : ObjectId} {q : Project} (hq : q.WellFormed)
    (h : newNativeTarget d.name d.kind s.project = .ok t q) (ht : q.HasTarget d.name t) :
    build d s = build d { s with workspace.project := q } := by
  obtain ⟨rest, hrest⟩ := exists_build_eq d
  let line := "generating " ++ d.name
  let s' : BuildState := { s with workspace.project := q }
  have hmade := edit_of_eq_ok (s := s.saying line) h
  have hfound := edit_of_ok (s := s'.saying line) (newNativeTarget_of_hasTarget hq ht d.kind)
  rw [hrest s, bind_of_ok hmade, hrest s', bind_of_ok hfound]
  rfl

/-- A build goes on as one that finds the configurations of its target there. -/
theorem build_of_newConfigurationList {t : ObjectId} {q : Project} (hs : s.project.WellFormed)
    (ht : s.project.HasTarget d.name t)
    (h : newConfigurationList t (configurationPlatform d.platforms) d.language.kind d.kind s.project =
      .ok () q) (hq : q.WellFormed) (hgrow : s.project.Grows q) (hlist : q.HasList t) :
    build d s = build d { s with workspace.project := q } := by
  obtain ⟨rest, hrest⟩ := exists_build_eq d
  let line := "generating " ++ d.name
  let s' : BuildState := { s with workspace.project := q }
  have htarget := edit_of_ok (s := s.saying line) (newNativeTarget_of_hasTarget hs ht d.kind)
  have hmade := edit_of_eq_ok (s := s.saying line) h
  have htarget' := edit_of_ok (s := s'.saying line)
    (newNativeTarget_of_hasTarget hq (ht.grows hs hgrow) d.kind)
  have hfound := edit_of_ok (s := s'.saying line)
    (newConfigurationList_of_hasList hlist (configurationPlatform d.platforms) d.language.kind d.kind)
  rw [hrest s, bind_of_ok htarget, bind_of_ok hmade, hrest s', bind_of_ok htarget', bind_of_ok hfound]
  rfl

/-- If owners are apart after a build, the build comes to a settled project, and makes no configurations
from there on. -/
theorem exists_settled_build (hinj : Function.Injective IdScheme.ofKey) (hs : s.project.WellFormed)
    (hset : s.project.Settled) (hap : (stateAfter (build d) s).project.OwnersApart) :
    ∃ q : Project, q.WellFormed ∧ q.Settled ∧ Path (PlainStep d) q (stateAfter (build d) s).project ∧
      ∀ e, failureOf (build d) s = some e →
        Failure (PlainStep d) (stateAfter (build d) s).project e := by
  have htargets := performs_newNativeTarget hs d.name d.kind
  have hplain : ∀ (q : Project) (r : Step), r = .attach s.project.record (.target d.name d.kind) →
      PlainStep d q r := by
    rintro q _ rfl
    exact ⟨.target, Bool.false_ne_true⟩
  cases h₁ : newNativeTarget d.name d.kind s.project with
  | error e q =>
    obtain ⟨hpath, hfails, -⟩ := Leads.of_error htargets h₁
    obtain ⟨s', hbuild, rfl⟩ := build_of_newNativeTarget_error h₁
    rw [stateAfter_of_error hbuild, failureOf_of_error hbuild]
    refine ⟨s.project, hs, hset, hpath.mono hplain, ?_⟩
    rintro _ ⟨⟩
    exact hfails.mono hplain
  | ok t p₁ =>
    obtain ⟨hpath₁, ht⟩ := Leads.of_ok htargets h₁
    have hp₁ := hpath₁.wellFormed hs
    have hset₁ := (hpath₁.mono hplain).settled (fun _ _ h => h.2) hs hset
    let s₁ : BuildState := { s with workspace.project := p₁ }
    have hbuild₁ : build d s = build d s₁ := build_of_newNativeTarget hp₁ h₁ ht
    -- The targets after the build include those that are there when the list is made.
    have hap₁ : p₁.OwnersApart := by
      rw [stateAfter, hbuild₁] at hap
      exact hap.of_grows (performs_build (s := s₁) hp₁ d).outcome.1.grows
    obtain ⟨a, ha, -⟩ := ht.exists_target
    obtain ⟨p₂, h₂, hset₂, hlist, hp₂, hgrow⟩ := exists_settled_newConfigurationList hinj hp₁ hset₁
      hap₁ ha (configurationPlatform d.platforms) d.language.kind d.kind
    let s₂ : BuildState := { s with workspace.project := p₂ }
    have hbuild₂ : build d s = build d s₂ :=
      hbuild₁.trans (build_of_newConfigurationList (s := s₁) hp₁ ht h₂ hp₂ hgrow hlist)
    have hplain₂ : ∀ q r, Path (BuildStep d p₂) p₂ q → BuildStep d p₂ q r → PlainStep d q r := by
      intro q r hq h
      have hnamed := ((ht.grows hp₁ hgrow).grows hp₂ hq.grows).exists_target
      exact h.plainStep (hq.wellFormed hp₂) hnamed (hlist.grows hq.grows)
    obtain ⟨hpath₂, hfails⟩ := (performs_build (s := s₂) hp₂ d).outcome
    rw [stateAfter, failureOf, hbuild₂]
    refine ⟨p₂, hp₂, hset₂, hpath₂.restrict fun q r hq _ => hplain₂ q r hq, fun e he => ?_⟩
    exact (hfails e he).restrict fun r _ => hplain₂ _ r hpath₂

end Build
end ProjectGraph
