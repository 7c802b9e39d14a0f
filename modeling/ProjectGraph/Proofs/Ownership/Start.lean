import ProjectGraph.Generator
import ProjectGraph.Proofs.Operations.Performs
import ProjectGraph.Proofs.Ownership.Invariant

/-! # New projects

A new project is well-formed, and each of its objects has one owner. -/

namespace ProjectGraph

namespace Project

variable [IdScheme] {p q : Project} {name : String} {names : List String} {i : ObjectId} {c : Content}

/-! ## Registering what a new project holds -/

/-- Registering contents in order puts them at the end of the objects. Their ids differ. -/
theorem forM_register {cs : List Content} (hn : (p.objects.map Object.id).Nodup)
    (h : cs.forM (discard <| register ·) p = .ok () q) :
    q = { p with objects := p.objects ++ cs.map Content.object } ∧
      (q.objects.map Object.id).Nodup := by
  induction cs generalizing p with
  | nil =>
    cases h
    simp [hn]
  | cons c cs ih =>
    obtain ⟨_, p₁, hfirst, hrest⟩ := exists_of_bind_eq_ok
      (f := fun _ => cs.forM (discard <| register ·)) h
    change discard (register c) p = _ at hfirst
    cases hc : p.content? c.id with
    | some d =>
      rw [discard_of_error (register_of_taken (by simp [hc]))] at hfirst
      cases hfirst
    | none =>
      rw [discard_of_ok (register_of_free hc)] at hfirst
      cases hfirst
      have hnodup : ((p.objects ++ [c.object]).map Object.id).Nodup := by
        rw [List.map_append, List.nodup_append]
        refine ⟨hn, by simp, ?_⟩
        rintro a ha b hb rfl
        obtain ⟨o, ho, rfl⟩ := List.mem_map.1 ha
        rw [List.map_cons, List.map_nil, List.mem_singleton] at hb
        exact content?_eq_none_iff.1 hc o ho hb
      obtain ⟨rfl, hids⟩ := ih hnodup hrest
      refine ⟨?_, hids⟩
      simp

/-- A new project holds its initial contents. -/
theorem eq_of_create (h : create name names = .ok p) :
    ∃ hne : names ≠ [],
      p = { blank name names hne with
        objects := (initialContents name names hne).map Content.object } ∧
      (p.objects.map Object.id).Nodup := by
  unfold create at h
  split at h
  · next hne =>
    refine ⟨hne, ?_⟩
    cases hloop : (initialContents name names hne).forM (discard <| register ·)
        (blank name names hne) with
    | ok u q =>
      rw [hloop] at h
      cases h
      obtain ⟨hq, hn⟩ := forM_register (by simp [blank]) hloop
      exact ⟨by simpa [blank] using hq, hn⟩
    | error e q =>
      rw [hloop] at h
      cases h
  · cases h

/-! ## What a new project holds -/

section

variable {hne : names ≠ []}

theorem mem_initialContents :
    c ∈ initialContents name names hne ↔
      c = .group newMainGroup ∨ c = .group newProductsGroup ∨
        (∃ n ∈ names, c = .configuration (newConfiguration n)) ∨
        c = .configurationList (newProjectList names hne) ∨ c = .project (newRecord name names hne) := by
  simp [initialContents, eq_comm]

/-- The objects of a new project are its initial contents under their ids. -/
theorem content?_initial
    (hp : p = { blank name names hne with
      objects := (initialContents name names hne).map Content.object })
    (hn : (p.objects.map Object.id).Nodup) :
    p.content? i = some c ↔ c ∈ initialContents name names hne ∧ i = c.id := by
  have hobjects : p.objects = (initialContents name names hne).map Content.object := by
    rw [hp]
  constructor
  · intro h
    obtain ⟨o, ho, rfl, rfl⟩ := exists_mem_of_content? h
    rw [hobjects] at ho
    obtain ⟨c, hc, rfl⟩ := List.mem_map.1 ho
    exact ⟨hc, rfl⟩
  · rintro ⟨hc, rfl⟩
    have ho : c.object ∈ p.objects := by
      rw [hobjects]
      exact List.mem_map_of_mem hc
    exact content?_of_mem hn ho

end

theorem mem_links_newRecord {hne : names ≠ []} {l : Link} :
    l ∈ (Content.project (newRecord name names hne)).links ↔
      l = ⟨.configurationList, ⟨(Content.configurationList (newProjectList names hne)).id, none⟩⟩ ∨
        l = ⟨.mainGroup, ⟨(Content.group newMainGroup).id, none⟩⟩ ∨
        l = ⟨.productsGroup, productsReference⟩ := by
  simp [Content.links, newRecord]

/-- Contents as a new project has them: groups, configurations with their list, and the record. -/
def IsInitial : Content → Prop
  | .group _ | .configuration _ | .configurationList _ | .project _ => True
  | .file _ | .buildFile _ | .phase _ | .target _ => False

theorem isInitial_of_create (h : create name names = .ok p) (hc : p.content? i = some c) :
    IsInitial c := by
  obtain ⟨hne, hp, hn⟩ := eq_of_create h
  rcases mem_initialContents.1 ((content?_initial hp hn).1 hc).1 with
    rfl | rfl | ⟨n, -, rfl⟩ | rfl | rfl <;> trivial

theorem wellFormed_of_create (h : create name names = .ok p) : p.WellFormed := by
  obtain ⟨hne, hp, hn⟩ := eq_of_create h
  have hcontent : ∀ {i c}, p.content? i = some c ↔ c ∈ initialContents name names hne ∧ i = c.id :=
    content?_initial hp hn
  have hmain : p.content? p.mainGroup = some (.group newMainGroup) :=
    hcontent.2 ⟨mem_initialContents.2 (.inl rfl), by rw [hp]; rfl⟩
  have hproducts : p.content? p.productsGroup = some (.group newProductsGroup) :=
    hcontent.2 ⟨mem_initialContents.2 (.inr (.inl rfl)), by rw [hp]; rfl⟩
  have hrecord : p.content? p.record = some (.project (newRecord name names hne)) :=
    hcontent.2 ⟨mem_initialContents.2 (by simp), by rw [hp]; rfl⟩
  have hcases : ∀ {i c}, p.content? i = some c → c = .group newMainGroup ∨
      c = .group newProductsGroup ∨ (∃ n ∈ names, c = .configuration (newConfiguration n)) ∨
      c = .configurationList (newProjectList names hne) ∨ c = .project (newRecord name names hne) :=
    fun h => mem_initialContents.1 (hcontent.1 h).1
  constructor
  · exact hn
  · exact fun i c hc => (hcontent.1 hc).2
  · intro i c hc l hl
    rcases hcases hc with rfl | rfl | ⟨n, hmem, rfl⟩ | rfl | rfl
    · rw [List.mem_singleton.1 hl]
      exact ⟨_, hcontent.2 ⟨mem_initialContents.2 (.inr (.inl rfl)), rfl⟩, rfl⟩
    · cases hl
    · cases hl
    · obtain ⟨r, hr, rfl⟩ := List.mem_map.1 hl
      obtain ⟨n, hmem, rfl⟩ := List.mem_map.1 hr
      refine ⟨_, hcontent.2 ⟨mem_initialContents.2 (.inr (.inr (.inl ⟨n, hmem, rfl⟩))), rfl⟩, rfl⟩
    · rcases mem_links_newRecord.1 hl with rfl | rfl | rfl
      · exact ⟨_, hcontent.2 ⟨mem_initialContents.2 (by simp), rfl⟩, rfl⟩
      · exact ⟨_, hcontent.2 ⟨mem_initialContents.2 (.inl rfl), rfl⟩, rfl⟩
      · exact ⟨_, hcontent.2 ⟨mem_initialContents.2 (.inr (.inl rfl)), rfl⟩, rfl⟩
  · exact ⟨_, hmain⟩
  · exact ⟨_, hproducts⟩
  · exact ⟨_, hrecord⟩
  · intro d i hi
    have hnone : p.directories.get? d = none := by rw [hp]; rfl
    rw [hnone] at hi
    cases hi
  · intro i t r ht
    rcases hcases ht with h | h | ⟨n, -, h⟩ | h | h <;> cases h
  · intro i t ht
    rcases hcases ht with h | h | ⟨n, -, h⟩ | h | h <;> cases h
  · intro i t ht
    rcases hcases ht with h | h | ⟨n, -, h⟩ | h | h <;> cases h
  · rw [hp]
    rfl
  · intro o ho
    rw [hp] at ho
    obtain ⟨c, -, rfl⟩ := List.mem_map.1 ho
    rfl

/-- A new project has links from its main group, its list of configurations and its record. -/
theorem linked_initial {hne : names ≠ []}
    (hp : p = { blank name names hne with
      objects := (initialContents name names hne).map Content.object }) (kind : LinkKind) :
    p.linked kind =
      (if .child = kind then newMainGroup.children.map Reference.id else []) ++
        ((if .configuration = kind then
          (newProjectList names hne).configurations.map Reference.id else []) ++
            (Content.project (newRecord name names hne)).linkedIds kind) := by
  have hconfigurations : (names.map fun n => Content.configuration (newConfiguration n)).flatMap
      (Content.linkedIds kind) = [] := by
    rw [List.flatMap_eq_nil_iff]
    intro c hc
    obtain ⟨n, -, rfl⟩ := List.mem_map.1 hc
    rfl
  have hproducts : (Content.group newProductsGroup).linkedIds kind = [] := by
    rw [Content.linkedIds_group]
    split <;> rfl
  have hobjects : p.linked kind = (initialContents name names hne).flatMap (Content.linkedIds kind) := by
    rw [linked, hp]
    simp [List.flatMap_map, Content.object]
  rw [hobjects, initialContents]
  simp [List.flatMap_append, hconfigurations, hproducts, Content.linkedIds_group,
    Content.linkedIds_configurationList]

/-- In a new project each kind of link leads to different objects. -/
theorem owned_of_create (h : create name names = .ok p) : p.Owned := by
  obtain ⟨hne, hp, hn⟩ := eq_of_create h
  have hcontent : ∀ {i c}, p.content? i = some c ↔ c ∈ initialContents name names hne ∧ i = c.id :=
    content?_initial hp hn
  have hmain : p.content? p.mainGroup = some (.group newMainGroup) :=
    hcontent.2 ⟨mem_initialContents.2 (.inl rfl), by rw [hp]; rfl⟩
  have hids : p.objects.map Object.id = (initialContents name names hne).map Content.id := by
    rw [hp]
    simp [Content.object]
  rw [hids, initialContents] at hn
  simp only [List.cons_append, List.map_cons, List.map_append, List.map_map, List.nodup_cons,
    List.mem_cons, List.nodup_append, not_or] at hn
  obtain ⟨⟨hmainGroup, -⟩, -, hconfigurations, -⟩ := hn
  have hlinked := fun kind => linked_initial hp kind
  simp only [Content.linkedIds_project] at hlinked
  have hchild : p.linked .child = [(Content.group newProductsGroup).id] := by
    rw [hlinked]
    simp [newMainGroup, productsReference]
  constructor
  · intro kind hk
    cases kind with
    | child =>
      rw [hchild]
      exact List.nodup_singleton _
    | target | buildPhase | phaseFile | configurationList =>
      rw [hlinked]
      simp [newRecord]
    | configuration =>
      rw [hlinked]
      simpa [newProjectList, newConfigurationListOf, Function.comp_def,
        configurationReference] using hconfigurations
    | file | product | mainGroup | productsGroup => cases hk
  · intro i c kind hc hhome hi
    obtain ⟨hmem, rfl⟩ := hcontent.1 hc
    rcases mem_initialContents.1 hmem with rfl | rfl | ⟨n, -, rfl⟩ | rfl | rfl
    · rw [hp] at hi
      exact absurd rfl hi
    · cases hhome
      rw [hchild]
      exact List.mem_singleton_self _
    · cases hhome
    · cases hhome
    · cases hhome
  · rw [hchild, hp]
    intro hmem
    exact hmainGroup (List.mem_singleton.1 hmem)
  · intro i c hc hhome
    obtain ⟨hmem, rfl⟩ := hcontent.1 hc
    have hroot : p.mainGroup = (Content.group newMainGroup).id := by rw [hp]; rfl
    rcases mem_initialContents.1 hmem with rfl | rfl | ⟨n, -, rfl⟩ | rfl | rfl
    · rw [hroot]
    · exact .single ⟨newMainGroup, hmain, List.mem_singleton_self _⟩
    · cases hhome
    · cases hhome
    · cases hhome
  · intro i r hr
    obtain ⟨hmem, rfl⟩ := hcontent.1 hr
    rcases mem_initialContents.1 hmem with h | h | ⟨n, -, h⟩ | h | h <;> cases h
    rw [hp]
    rfl

/-! ## Projects of untyped names -/

theorem exists_create_of_ofValue {value : Value} (h : ofValue name value = .ok p) :
    ∃ names, create name names = .ok p := by
  unfold ofValue at h
  cases hv : value.names with
  | ok names =>
    rw [hv] at h
    exact ⟨names, h⟩
  | error e =>
    rw [hv] at h
    cases h

theorem wellFormed_of_ofValue {value : Value} (h : ofValue name value = .ok p) :
    p.WellFormed ∧ p.Owned := by
  obtain ⟨names, h⟩ := exists_create_of_ofValue h
  exact ⟨wellFormed_of_create h, owned_of_create h⟩

/-- A test that a new project passes shows that it can be made. -/
theorem exists_of_ofValue {value : Value} {test : Project → Bool}
    (h : (ofValue name value).toOption.any test) : ∃ p, ofValue name value = .ok p ∧ test p := by
  cases hnew : ofValue name value with
  | ok p =>
    rw [hnew] at h
    exact ⟨p, rfl, h⟩
  | error e =>
    rw [hnew] at h
    cases h

end Project

variable [IdScheme] {p : Project}

theorem Generator.ofValue_of_start {tree : FileTree} {config : Config} {g : Generator}
    (h : Generator.start tree config = .ok (g, p)) :
    Project.ofValue config.projectName config.buildConfig = .ok p := by
  unfold Generator.start at h
  cases hnew : Project.ofValue config.projectName config.buildConfig with
  | error e =>
    rw [hnew] at h
    cases h
  | ok p' =>
    rw [hnew] at h
    cases hpaths : ofPaths tree config.projectRoot config.scriptsDirectory with
    | error e =>
      rw [hpaths] at h
      cases h
    | ok g' =>
      rw [hpaths] at h
      cases h
      rfl

end ProjectGraph
