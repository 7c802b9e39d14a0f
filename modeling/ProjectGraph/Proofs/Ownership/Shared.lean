import ProjectGraph.Proofs.Ownership.Apart

/-! # What targets share

The groups of a project and its list of targets are shared by all targets. A step adds at most one
reference to them, and what is found in a group by its path depends on nothing but its children. -/

namespace ProjectGraph

/-- Is this a link from a group to what is in it, or from the project to a target? -/
def LinkKind.isShared : LinkKind → Bool
  | child | target => true
  | _ => false

namespace Group

/-- The group without what is in it. -/
def bare (g : Group) : Group := { g with children := [] }

end Group

/-- What is in a group. Nothing is in anything else. -/
def Content.children : Content → List Reference
  | group g => g.children
  | _ => []

theorem Content.Grows.bare_eq {a : Group} {c : Content} (h : (Content.group a).Grows c) :
    ∃ b, c = .group b ∧ b.bare = a.bare := by
  cases h with
  | @group _ b name path groupId => exact ⟨b, rfl, by simp [Group.bare, name, path, groupId]⟩

theorem Content.Grows.exists_group {c : Content} {b : Group} (h : c.Grows (.group b)) :
    ∃ a, c = .group a ∧ b.bare = a.bare := by
  cases h with
  | @group a _ name path groupId => exact ⟨a, rfl, by simp [Group.bare, name, path, groupId]⟩

theorem Content.Grows.shared_mem {c d : Content} {l : Link} (h : c.Grows d) (hl : l ∈ c.links)
    (hkind : l.kind.isShared) : l ∈ d.links := by
  cases h with
  | file | buildFile | configurationList => exact hl
  | group _ _ _ children =>
    obtain ⟨r, hr, rfl⟩ := List.mem_map.1 hl
    exact List.mem_map_of_mem (children.subset hr)
  | project _ list main products targets =>
    simp only [links, List.mem_append, list, main, products] at hl ⊢
    rcases hl with h | h | h
    · exact .inl h
    · exact .inr (.inl h)
    · obtain ⟨r, hr, rfl⟩ := List.mem_map.1 h
      exact .inr (.inr (List.mem_map_of_mem (targets.subset hr)))
  | configuration => cases hl
  | phase =>
    obtain ⟨r, -, rfl⟩ := List.mem_map.1 hl
    cases hkind
  | target =>
    simp only [links, List.mem_append, List.mem_map] at hl
    rcases hl with ⟨r, -, rfl⟩ | ⟨r, -, rfl⟩ | ⟨r, -, rfl⟩ <;> cases hkind

theorem Content.mem_append_child (g : Group) (r : Reference) :
    ⟨.child, r⟩ ∈ ((group g).append .child r).links := by
  simp [append, links]

theorem Content.mem_append_target (a : ProjectRecord) (r : Reference) :
    ⟨.target, r⟩ ∈ ((project a).append .target r).links := by
  simp [append, links]

namespace Project

variable {p q : Project} {i j : ObjectId} {path : String} {l : Link}

/-! ## Shared lists -/

/-- The group or the project under this id has the link. -/
def Lists (p : Project) (i : ObjectId) (l : Link) : Prop :=
  ∃ c, p.content? i = some c ∧ l ∈ c.links ∧ l.kind.isShared

theorem Lists.grows (h : p.Lists i l) (hpq : p.Grows q) : q.Lists i l := by
  obtain ⟨c, hc, hl, hkind⟩ := h
  obtain ⟨d, hd, hgrow⟩ := hpq.content i c hc
  exact ⟨d, hd, hgrow.shared_mem hl hkind, hkind⟩

theorem lists_child_iff {g : Group} {r : Reference} (hg : p.content? i = some (.group g)) :
    p.Lists i ⟨.child, r⟩ ↔ r ∈ g.children := by
  constructor
  · rintro ⟨c, hc, hl, -⟩
    rw [hg] at hc
    cases hc
    simpa [Content.links] using hl
  · exact fun hr => ⟨_, hg, by simpa [Content.links] using hr, rfl⟩

theorem lists_target_iff {a : ProjectRecord} {r : Reference}
    (ha : p.content? i = some (.project a)) : p.Lists i ⟨.target, r⟩ ↔ r ∈ a.targets := by
  constructor
  · rintro ⟨c, hc, hl, -⟩
    rw [ha] at hc
    cases hc
    simpa [Content.links] using hl
  · exact fun hr => ⟨_, ha, by simpa [Content.links] using hr, rfl⟩

/-- What a group lists is a child of it. -/
theorem parent_iff : p.Parent i j ↔ ∃ r, r.id = i ∧ p.Lists j ⟨.child, r⟩ := by
  constructor
  · rintro ⟨g, hg, hi⟩
    obtain ⟨r, hr, rfl⟩ := List.mem_map.1 hi
    exact ⟨r, rfl, (lists_child_iff hg).2 hr⟩
  · rintro ⟨r, rfl, c, hc, hl, -⟩
    cases c with
    | group g => exact ⟨g, hc, List.mem_map_of_mem (by simpa [Content.links] using hl)⟩
    | _ => simp [Content.links] at hl

/-! ## Files in groups -/

/-- What is in the group under an id, nothing if there is no group. -/
def childrenOf (p : Project) (i : ObjectId) : List Reference :=
  match p.content? i with
  | some c => c.children
  | none => []

/-- The first file with a path in a group. -/
def fileIn (p : Project) (i : ObjectId) (path : String) : Option (Identified FileReference) :=
  p.first (Content.fileAt? path) (p.childrenOf i)

theorem childrenOf_of_content? {c : Content} (hc : p.content? i = some c) :
    p.childrenOf i = c.children := by
  rw [childrenOf, hc]

theorem mem_childrenOf {r : Reference} : r ∈ p.childrenOf i ↔ p.Lists i ⟨.child, r⟩ := by
  cases hc : p.content? i with
  | some c =>
    rw [childrenOf_of_content? hc]
    cases c with
    | group g => exact (lists_child_iff hc).symm
    | _ => simp [Content.children, Lists, hc, Content.links]
  | none => simp [childrenOf, Lists, hc]

theorem fileIn_of_group {g : Group} (hg : p.content? i = some (.group g)) (path : String) :
    p.fileIn i path = p.first (Content.fileAt? path) g.children := by
  rw [fileIn, childrenOf_of_content? hg, Content.children]

/-- A product is a file in the group of products. -/
theorem product?_eq_fileIn (p : Project) (path : String) :
    p.product? path = p.fileIn p.productsGroup path := by
  rw [product?, fileIn, products, childrenOf]
  cases p.content? p.productsGroup with
  | some c => cases c <;> rfl
  | none => rfl

theorem exists_lists_of_fileIn {f : Identified FileReference} (h : p.fileIn i path = some f) :
    ∃ r, r.id = f.id ∧ p.Lists i ⟨.child, r⟩ ∧ p.content? f.id = some (.file f.content) ∧
      f.content.path = path := by
  obtain ⟨r, hr, hid, -⟩ := exists_of_first h
  obtain ⟨hfile, hpath⟩ := content?_of_first_file h
  exact ⟨r, hid, mem_childrenOf.1 hr, hfile, hpath⟩

variable [IdScheme]

/-- In a group that is there, files are looked for among its children. -/
theorem findFileReference_eq_fileIn (hp : p.WellFormed) (hi : ∃ g, p.content? i = some (.group g))
    (path : String) : findFileReference i path p = .ok (p.fileIn i path) p := by
  obtain ⟨g, hg⟩ := hi
  rw [findFileReference_eq hp hg, fileIn_of_group hg]

theorem isSome_of_childrenOf (hp : p.WellFormed) (i : ObjectId) :
    ∀ r ∈ p.childrenOf i, (p.content? r.id).isSome := by
  intro r hr
  obtain ⟨c, hc, hl, -⟩ := mem_childrenOf.1 hr
  obtain ⟨d, hd, -⟩ := hp.resolves i c hc _ hl
  exact Option.isSome_iff_exists.2 ⟨d, hd⟩

omit [IdScheme] in
/-- While a project grows, a search for a file among the same references ends as before. -/
theorem first_file_eq (hpq : p.Grows q) {rs : List Reference}
    (hrs : ∀ r ∈ rs, (p.content? r.id).isSome) (path : String) :
    q.first (Content.fileAt? path) rs = p.first (Content.fileAt? path) rs := by
  cases hf : p.first (Content.fileAt? path) rs with
  | some f => exact first_file_of_grows hpq hrs (List.prefix_refl rs) hf
  | none =>
    have hids := id_first_of_grows (Content.stableView_fileAt? path) hpq hrs
    rw [hf] at hids
    exact Option.map_eq_none_iff.1 hids

/-- A file that has been found in a group is found in it from then on. -/
theorem fileIn_of_grows (hp : p.WellFormed) (hpq : p.Grows q) {f : Identified FileReference}
    (h : p.fileIn i path = some f) : q.fileIn i path = some f := by
  obtain ⟨r, -, hlists, -⟩ := exists_lists_of_fileIn h
  obtain ⟨g, hg, -⟩ := parent_iff.2 ⟨r, rfl, hlists⟩
  obtain ⟨b, hb, -, -, -, hbegins⟩ := hpq.group hg
  rw [fileIn_of_group hg] at h
  rw [fileIn_of_group hb]
  exact first_file_of_grows hpq (hp.isSome_of_children hg) hbegins h

end Project

namespace Step

variable [IdScheme] {p : Project} {s : Step} {i : ObjectId} {l : Link}

/-- A step lists what was listed before, and what it adds itself. -/
theorem lists_apply (hp : p.WellFormed) (hd : s.Due p) (hf : s.Fresh p) :
    (s.apply p).Lists i l ↔ p.Lists i l ∨ (s.newLink? = some (i, l) ∧ l.kind.isShared) := by
  constructor
  · rintro ⟨c, hc, hl, hkind⟩
    rcases link_apply_cases hp hd hf hc hl with ⟨b, hb, -, hold | hnew⟩ | hnew
    · exact .inl ⟨b, hb, hold, hkind⟩
    · exact .inr ⟨hnew, hkind⟩
    · -- What is new lists nothing yet.
      cases hd with
      | buildFile =>
        cases hnew
        rw [List.mem_singleton.1 hl] at hkind
        cases hkind
      | configurationList =>
        cases hnew
        obtain ⟨r, -, rfl⟩ := List.mem_map.1 hl
        cases hkind
      | target | phase | group | source | product | configuration =>
        cases hnew
        cases hl
      | settings | productReference | script | scheme | schemeChange => cases hnew
  · rintro (hold | ⟨hnew, hkind⟩)
    · exact hold.grows (grows_apply hd)
    · have happly : ∀ {owner : ObjectId} {x : Part} {c : Content},
          p.content? owner = some c → ⟨x.home, x.reference⟩ ∈ (c.append x.home x.reference).links →
          x.home.isShared →
          ((Step.attach owner x).apply p).Lists owner ⟨x.home, x.reference⟩ := by
        intro owner x c hc hl hkind
        refine ⟨_, content?_apply_of_some hc, ?_, hkind⟩
        rwa [reviseContent, if_pos rfl]
      cases hd with
      | target _ record =>
        cases hnew
        exact happly record (Content.mem_append_target _ _) hkind
      | group parent =>
        cases hnew
        obtain ⟨g, hg⟩ := hp.groupAt parent
        exact happly hg (Content.mem_append_child _ _) hkind
      | source group =>
        cases hnew
        exact happly group (Content.mem_append_child _ _) hkind
      | product _ group =>
        cases hnew
        exact happly group (Content.mem_append_child _ _) hkind
      | phase | buildFile | configurationList | productReference =>
        cases hnew
        cases hkind
      | configuration | settings | script | scheme | schemeChange => cases hnew

/-- What a step puts into the group under an id. -/
def newChildren (s : Step) (i : ObjectId) : List Reference :=
  match s with
  | attach owner x => if owner = i ∧ x.home = .child then [x.reference] else []
  | _ => []

theorem children_reviseContent {c : Content} (hp : p.WellFormed) (hd : s.Due p)
    (hc : p.content? i = some c) : (s.reviseContent i c).children = c.children ++ s.newChildren i := by
  have hattach : ∀ {owner : ObjectId} {x : Part} {b : Content}, p.content? owner = some b →
      (b.append x.home x.reference).children =
        b.children ++ (if x.home = .child then [x.reference] else []) →
      (Step.reviseContent (.attach owner x) i c).children =
        c.children ++ Step.newChildren (.attach owner x) i := by
    intro owner x b hb hchildren
    simp only [reviseContent, newChildren]
    by_cases howner : i = owner
    · subst howner
      rw [hc] at hb
      cases hb
      simpa using hchildren
    · simp [howner, Ne.symm howner]
  cases hd with
  | target _ record => exact hattach record rfl
  | phase target => exact hattach target rfl
  | buildFile phase => exact hattach phase rfl
  | group parent =>
    obtain ⟨g, hg⟩ := hp.groupAt parent
    exact hattach hg rfl
  | source group => exact hattach group rfl
  | product _ group => exact hattach group rfl
  | configuration | scheme | schemeChange => simp [reviseContent, newChildren]
  | configurationList | settings | productReference | script =>
    simp only [reviseContent, newChildren, List.append_nil]
    split <;> cases c <;> rfl

theorem childrenOf_apply (hp : p.WellFormed) (hd : s.Due p) (hf : s.Fresh p) (i : ObjectId) :
    (s.apply p).childrenOf i = p.childrenOf i ++ s.newChildren i := by
  cases hc : p.content? i with
  | some c =>
    rw [Project.childrenOf_of_content? (content?_apply_of_some hc), Project.childrenOf_of_content? hc,
      children_reviseContent hp hd hc]
  | none =>
    -- Nothing is put into what is not there before.
    have hnew : s.newChildren i = [] := by
      cases s with
      | attach owner x =>
        refine if_neg ?_
        rintro ⟨rfl, hx⟩
        obtain ⟨g, hg⟩ := exists_group_of_attach hp hd hx
        rw [hc] at hg
        cases hg
      | _ => rfl
    have hold : p.childrenOf i = [] := by rw [Project.childrenOf, hc]
    rw [hold, hnew, List.append_nil]
    cases hd' : (s.apply p).content? i with
    | none => rw [Project.childrenOf, hd']
    | some d =>
      rw [Project.childrenOf_of_content? hd']
      rcases content?_apply_grows hp hd hf hd' with ⟨b, hb, -⟩ | ⟨hd'', -⟩
      · rw [hc] at hb
        cases hb
      · cases hd <;> cases hd'' <;> rfl

/-- The file that a step puts into a group, if it has this path. -/
def newFile? (s : Step) (i : ObjectId) (path : String) : Option (Identified FileReference) :=
  match s with
  | attach owner x =>
    if owner = i then (x.content.fileAt? path).map fun f => ⟨x.content.id, f⟩ else none
  | _ => none

/-- A step leaves the files of a group as they are, and puts at most one behind them. -/
theorem fileIn_apply (hp : p.WellFormed) (hd : s.Due p) (hf : s.Fresh p) (i : ObjectId)
    (path : String) : (s.apply p).fileIn i path = (p.fileIn i path).or (s.newFile? i path) := by
  rw [Project.fileIn, childrenOf_apply hp hd hf, Project.first_append,
    Project.first_file_eq (grows_apply hd) (Project.isSome_of_childrenOf hp i), Project.fileIn]
  congr 1
  cases s with
  | attach owner x =>
    have hview : x.home ≠ .child → x.content.fileAt? path = none := by
      intro hx
      cases x with
      | group | source | product => exact absurd rfl hx
      | _ => rfl
    simp only [newChildren, newFile?]
    by_cases howner : owner = i
    · by_cases hx : x.home = .child
      · have hnew := content?_apply_new hp hd hf (c := x.content) rfl
        rw [if_pos ⟨howner, hx⟩, if_pos howner, Project.first_cons,
          show x.reference.id = x.content.id from rfl, hnew, Option.bind_some]
        cases x.content.fileAt? path <;> rfl
      · rw [if_neg fun h => hx h.2, if_pos howner, hview hx]
        rfl
    · rw [if_neg fun h => howner h.1, if_neg howner]
      rfl
  | _ => rfl

end Step
end ProjectGraph
