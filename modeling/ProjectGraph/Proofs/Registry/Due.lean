import ProjectGraph.Proofs.Registry.Step

/-! # Steps that can be taken

A step is due when the project is ready for it, and fresh when the id of what it registers is free.
A due and fresh step registers its content and revises what was there. -/

namespace ProjectGraph

namespace Step

variable [IdScheme]

/-- The project is ready for the step: what it adds has been looked for and is not there, and what it
refers to is there, by the name that the comment says. -/
inductive Due (p : Project) : Step → Prop
  | target {i r name kind} (owner : i = p.record) (record : p.content? i = some (.project r))
      (absent : ∀ ref ∈ r.targets, ∀ t, p.content? ref.id = some (.target t) → t.name ≠ name) :
      Due p (.attach i (.target name kind))
  | phase {i t role} (target : p.content? i = some (.target t))
      (absent : ∀ ref ∈ t.buildPhases, ∀ q, p.content? ref.id = some (.phase q) →
        q.role.place ≠ role.place) :
      Due p (.attach i (.phase t.name role))
  | buildFile {i q f} (phase : p.content? i = some (.phase q)) (role : q.role = .files f.phase)
      (target : f.target = q.target) (file : ∃ g, p.content? f.file.id = some (.file g))
      (absent : ∀ ref ∈ q.files, ∀ b, p.content? ref.id = some (.buildFile b) →
        b.file.id ≠ f.file.id)
      (named : ∀ g, p.content? f.file.id = some (.file g) →
        f.file.comment = some g.name ∧ f.name = g.name) :
      Due p (.attach i (.buildFile f))
  | group {i above name} (parent : p.groupAt above = some i)
      (absent : p.directories.get? (above ++ [name]) = none)
      (proper : ∀ n ∈ above ++ [name], '/' ∉ n.toList) :
      Due p (.attach i (.group above name))
  | source {i g path} (group : p.content? i = some (.group g)) : Due p (.attach i (.source path))
  | product {i g path type} (owner : i = p.productsGroup)
      (group : p.content? i = some (.group g))
      (absent : ∀ ref ∈ g.children, ∀ f, p.content? ref.id = some (.file f) → f.path ≠ path) :
      Due p (.attach i (.product path type))
  | configuration (c) : Due p (.configuration c)
  | configurationList {i t l} (target : p.content? i = some (.target t))
      (absent : t.configurationList = none) (nodup : (l.configurations.map Reference.id).Nodup)
      (registered : ∀ r ∈ l.configurations, ∃ c, p.content? r.id = some (.configuration c))
      (unlisted : ∀ r ∈ l.configurations, ∀ j k, p.content? j = some (.configurationList k) →
        r.id ∉ k.configurations.map Reference.id)
      (named : ∀ r ∈ l.configurations, ∀ c, p.content? r.id = some (.configuration c) →
        r.comment = some c.name) :
      Due p (.configurationList i l)
  | settings {i c new} (configuration : p.content? i = some (.configuration c)) :
      Due p (.settings i new)
  | productReference {i t r f g} (target : p.content? i = some (.target t))
      (product : p.content? r.id = some (.file f))
      (group : p.content? p.productsGroup = some (.group g))
      (listed : r.id ∈ g.children.map Reference.id) (named : r.comment = some f.path) :
      Due p (.product i r)
  | script {i t j q slot new} (target : p.content? i = some (.target t))
      (listed : ∃ r ∈ t.buildPhases, r.id = j) (phase : p.content? j = some (.phase q))
      (place : q.role.place = .inr slot) : Due p (.script i j slot new)
  | scheme {i t s} (target : p.content? i = some (.target t)) (name : s.name = t.name)
      (absent : ∀ s' ∈ p.schemes, s'.name ≠ s.name) : Due p (.scheme s)
  | schemeChange (name change) : Due p (.schemeChange name change)

/-- The id of what the step registers is free. -/
def Fresh (p : Project) (s : Step) : Prop := ∀ c, s.new? = some c → p.content? c.id = none

end Step

/-! ## The registry after a step -/

namespace Step

variable [IdScheme] {p : Project} {s : Step} {i : ObjectId} {c d : Content}

theorem content?_apply (s : Step) (p : Project) (i : ObjectId) :
    (s.apply p).content? i =
      ((p.content? i).or (s.new?.filter fun c => c.id = i)).map (s.reviseContent i) := by
  have hfind : (s.apply p).find? i =
      ((p.find? i).or (s.new?.toList.map Content.object |>.find? fun o => o.id = i)).map s.revise := by
    unfold Project.find? apply
    rw [List.find?_map, List.find?_append]
    have hids : ((fun o : Object => decide (o.id = i)) ∘ s.revise) = fun o => decide (o.id = i) := by
      funext o
      rw [Function.comp_apply, id_revise]
    rw [hids]
  have hrevise : ∀ o : Object, o.id = i →
      (s.revise o).content = s.reviseContent i o.content := by
    rintro o rfl
    exact content_revise s o
  unfold Project.content?
  rw [hfind]
  cases ho : p.find? i with
  | some o => simpa using hrevise o (Project.id_of_find? ho)
  | none =>
    cases hn : s.new? with
    | none => rfl
    | some x =>
      by_cases hx : x.id = i
      · have hx' := hrevise x.object hx
        rw [Option.filter_some, if_pos (decide_eq_true hx)]
        simpa [hx, Content.object] using hx'
      · rw [Option.filter_some, if_neg (by simpa using hx)]
        simp [hx, Content.object]

/-- What was registered before a step is so after it, as the step has revised it. -/
theorem content?_apply_of_some (h : p.content? i = some c) :
    (s.apply p).content? i = some (s.reviseContent i c) := by
  rw [content?_apply, h]
  rfl

/-- What is registered after a step was registered before, or the step has registered it. -/
theorem content?_apply_cases (h : (s.apply p).content? i = some d) :
    (∃ c, p.content? i = some c ∧ d = s.reviseContent i c) ∨
      ∃ c, s.new? = some c ∧ c.id = i ∧ d = s.reviseContent i c := by
  rw [content?_apply] at h
  cases hc : p.content? i with
  | some c =>
    rw [hc] at h
    exact .inl ⟨c, rfl, (Option.some.inj h).symm⟩
  | none =>
    rw [hc, Option.none_or, Option.map_eq_some_iff] at h
    obtain ⟨c, hc, rfl⟩ := h
    rw [Option.filter_eq_some_iff] at hc
    exact .inr ⟨c, hc.1, by simpa using hc.2, rfl⟩

end Step

namespace Project

variable [IdScheme] {p : Project} {i : ObjectId} {s : Step} {c : Content}

theorem WellFormed.groupAt (hp : p.WellFormed) {directory : List String}
    (h : p.groupAt directory = some i) : ∃ g, p.content? i = some (.group g) := by
  unfold Project.groupAt at h
  split at h
  · cases h
    exact hp.mainGroup
  · exact hp.directories directory i h

end Project

namespace Step

variable [IdScheme] {p : Project} {s : Step} {i : ObjectId} {c d : Content}

/-- What a step registers does not refer to itself, so the step leaves it as it is. -/
theorem reviseContent_new (hp : p.WellFormed) (hd : s.Due p) (hf : s.Fresh p)
    (hc : s.new? = some c) : s.reviseContent c.id c = c := by
  have hne : ∀ {j d}, p.content? j = some d → c.id ≠ j := by
    rintro j d hj rfl
    rw [hf c hc] at hj
    cases hj
  cases hd with
  | target owner record => exact if_neg (hne record)
  | phase target => exact if_neg (hne target)
  | buildFile phase => exact if_neg (hne phase)
  | group parent =>
    obtain ⟨g, hg⟩ := hp.groupAt parent
    exact if_neg (hne hg)
  | source group => exact if_neg (hne group)
  | product owner group => exact if_neg (hne group)
  | configuration => rfl
  | configurationList target => exact if_neg (hne target)
  | settings | productReference | script | scheme | schemeChange => cases hc

theorem content?_apply_new (hp : p.WellFormed) (hd : s.Due p) (hf : s.Fresh p)
    (hc : s.new? = some c) : (s.apply p).content? c.id = some c := by
  rw [content?_apply, hf c hc, hc, Option.none_or, Option.filter_some,
    if_pos (decide_eq_true rfl), Option.map_some, reviseContent_new hp hd hf hc]

/-- The link that a step adds to an old content, which is the one under the id. -/
def newLink? : Step → Option (ObjectId × Link)
  | attach owner x => some (owner, ⟨x.home, x.reference⟩)
  | configurationList t l => some (t, ⟨.configurationList, (Content.configurationList l).id, none⟩)
  | product t r => some (t, ⟨.product, r⟩)
  | _ => none

theorem mem_links_reviseContent {l : Link} (h : l ∈ (s.reviseContent i c).links) :
    l ∈ c.links ∨ s.newLink? = some (i, l) := by
  cases s with
  | attach owner x =>
    simp only [reviseContent] at h
    split at h
    · next howner =>
      rcases Content.mem_links_append h with h | rfl
      · exact .inl h
      · exact .inr (howner ▸ rfl)
    · exact .inl h
  | configurationList j k =>
    simp only [reviseContent] at h
    split at h
    · next hj =>
      rcases Content.mem_links_withConfigurationList h with h | rfl
      · exact .inl h
      · exact .inr (hj ▸ rfl)
    · exact .inl h
  | settings j new =>
    simp only [reviseContent] at h
    split at h
    · rw [Content.links_withSettings] at h
      exact .inl h
    · exact .inl h
  | product j r =>
    simp only [reviseContent] at h
    split at h
    · next hj =>
      rcases Content.mem_links_withProductReference h with h | rfl
      · exact .inl h
      · exact .inr (hj ▸ rfl)
    · exact .inl h
  | script j k slot new =>
    simp only [reviseContent] at h
    split at h
    · rw [Content.links_withRole] at h
      exact .inl h
    · exact .inl h
  | configuration | scheme | schemeChange => exact .inl h

/-! ## Steps that change one object -/

/-- Changing an object as a step does is taking the step. -/
theorem modifyObject_eq_apply {f : Object → Object} (hnew : s.new? = none)
    (hrevise : s.revise = Object.updateAt i f) (hdirectories : (s.apply p).directories = p.directories)
    (hschemes : (s.apply p).schemes = p.schemes) : Project.modifyObject i f p = .ok () (s.apply p) := by
  have hobjects : (s.apply p).objects = p.objects.map (Object.updateAt i f) := by
    simp [apply, hnew, hrevise]
  have hdetached : (s.apply p).detached = p.detached.map (Object.updateAt i f) := by
    simp [apply, hrevise]
  have hstate : ({ p with
      objects := p.objects.map (Object.updateAt i f)
      detached := p.detached.map (Object.updateAt i f) } : Project) = s.apply p := by
    rw [← hobjects, ← hdetached]
    unfold apply at *
    simp only at hdirectories hschemes
    rw [hdirectories, hschemes]
  rw [← hstate]
  rfl

/-- A step that leaves the one object that it is about as it is changes nothing. -/
theorem apply_eq_self {f : Object → Object} {o : Object} (hp : p.WellFormed) (hnew : s.new? = none)
    (hrevise : s.revise = Object.updateAt i f) (hdirectories : (s.apply p).directories = p.directories)
    (hschemes : (s.apply p).schemes = p.schemes) (ho : p.find? i = some o) (hf : f o = o) :
    s.apply p = p := by
  have hobjects : p.objects.map s.revise = p.objects := by
    refine (List.map_congr_left (g := id) fun x hx => ?_).trans (List.map_id _)
    rw [hrevise, Object.updateAt]
    split
    · next hid =>
      have hfound := Project.find?_of_mem hp.nodup_ids hx
      rw [hid, ho] at hfound
      cases hfound
      exact hf
    · rfl
  unfold apply at *
  simp only at hdirectories hschemes
  rw [hdirectories, hschemes, hnew, hp.detached]
  simp only [Option.toList_none, List.map_nil, List.append_nil, hobjects]
  rw [← hp.detached]

end Step
end ProjectGraph
