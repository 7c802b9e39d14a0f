import ProjectGraph.Proofs.Registry.Reading

/-! # Comments of references

A reference says in its comment what the name of the object is that it leads to. Steps write comments
that are right, and leave the names of registered objects as they are. The one exception is a step that
sets the script of a phase: it can give the phase another name, and the entry for the phase in its
target keeps the old one. -/

namespace ProjectGraph

/-! ## What comments say -/

/-- A reference of this kind with the comment says what is right of the content. It gives the path of
a product, and the title of a phase of files. Of a phase that runs a script it gives some name. -/
def LinkKind.Says : LinkKind → Content → Option String → Prop
  | .configurationList, _, comment | .mainGroup, _, comment => comment = none
  | .product, .file f, comment => comment = some f.path
  | .buildPhase, .phase ⟨_, .files kind, _⟩, comment => comment = some kind.title
  | .buildPhase, .phase ⟨_, .script .., _⟩, comment => comment.isSome
  | _, c, comment => comment.isSome ∧ comment = c.name?

/-- What a content grows to has the name that comments say. -/
theorem LinkKind.Says.grows {kind : LinkKind} {c d : Content} {comment : Option String}
    (h : kind.Says c comment) (hfits : kind.fits c) (hgrow : c.Grows d) : kind.Says d comment := by
  cases hgrow with
  | file | buildFile | configurationList => exact h
  | @phase a b target place files =>
    obtain ⟨t, role, fs⟩ := a
    obtain ⟨t', role', fs'⟩ := b
    cases kind with
    | buildPhase => cases role <;> cases role' <;> cases place <;> exact h
    | configurationList | mainGroup => exact h
    | child | target | phaseFile | file | configuration | product | productsGroup => cases hfits
  | @group a b name | @configuration a b name | @target a b name | @project a b name =>
    cases kind <;> first | exact h | exact ⟨h.1, h.2.trans (congrArg some name.symm)⟩

namespace Project

/-- Each reference is right in what it says, and so is each build file. -/
structure Commented (p : Project) : Prop where
  links : ∀ i c, p.content? i = some c → ∀ l ∈ c.links,
    ∃ d, p.content? l.reference.id = some d ∧ l.kind.Says d l.reference.comment
  /-- A build file has the name of its file. -/
  buildFiles : ∀ i f, p.content? i = some (.buildFile f) → ∀ g,
    p.content? f.file.id = some (.file g) → f.name = g.name

/-- A reference says what is right of the object that it leads to. -/
theorem Commented.says {p : Project} (h : p.Commented) {i : ObjectId} {c d : Content} {l : Link}
    (hc : p.content? i = some c) (hl : l ∈ c.links) (hd : p.content? l.reference.id = some d) :
    l.kind.Says d l.reference.comment := by
  obtain ⟨d', hd', hsays⟩ := h.links i c hc l hl
  rw [hd] at hd'
  cases hd'
  exact hsays

end Project

/-! ## Comments after a step -/

namespace Step

variable [IdScheme] {p q : Project} {s : Step}

omit [IdScheme] in
theorem says_comment (x : Part) : x.home.Says x.content (some x.comment) := by
  cases x with
  | phase owner role => cases role <;> exact rfl
  | _ => exact ⟨rfl, rfl⟩

theorem commented_apply (hp : p.WellFormed) (hd : s.Due p) (hf : s.Fresh p) (h : p.Commented) :
    (s.apply p).Commented where
  links i d hi l hl := by
    have hgrows := grows_apply hd
    rcases link_apply_cases hp hd hf hi hl with ⟨c, hc, -, hl | hl⟩ | hnew
    · obtain ⟨e, he, hsays⟩ := h.links i c hc l hl
      obtain ⟨e', he', hfits⟩ := hp.resolves i c hc l hl
      rw [he] at he'
      cases he'
      obtain ⟨e', he', hgrow⟩ := hgrows.content _ _ he
      exact ⟨e', he', hsays.grows hfits hgrow⟩
    · -- The step adds the reference.
      cases s with
      | attach owner x =>
        cases hl
        exact ⟨x.content, content?_apply_new hp hd hf rfl, says_comment x⟩
      | configurationList t k =>
        cases hl
        exact ⟨.configurationList k, content?_apply_new hp hd hf rfl, rfl⟩
      | product t r =>
        cases hl
        cases hd with
        | productReference target product group listed named => exact ⟨_, hgrows.file product, named⟩
      | _ => cases hl
    · -- The step registers a content that refers to what is there.
      cases hd with
      | target | phase | group | source | product | configuration => cases hnew; cases hl
      | buildFile phase role target file absent named =>
        cases hnew
        obtain ⟨g, hg⟩ := file
        rw [List.mem_singleton.1 hl]
        obtain ⟨hcomment, -⟩ := named g hg
        exact ⟨_, hgrows.file hg, by rw [hcomment]; rfl, hcomment⟩
      | configurationList target absent nodup registered unlisted named =>
        cases hnew
        obtain ⟨r, hr, rfl⟩ := List.mem_map.1 hl
        obtain ⟨c, hc⟩ := registered r hr
        have hcomment := named r hr c hc
        obtain ⟨e, he, hgrow⟩ := hgrows.content _ _ hc
        refine ⟨e, he, LinkKind.Says.grows (c := .configuration c) ⟨?_, hcomment⟩ rfl hgrow⟩
        rw [hcomment]
        rfl
      | settings | productReference | script | scheme | schemeChange => cases hnew
  buildFiles i f hi g hg := by
    have hgrows := grows_apply hd
    rcases content?_apply_grows hp hd hf hi with ⟨c, hc, hgrow⟩ | ⟨hnew, -⟩
    · cases hgrow
      obtain ⟨g', hg'⟩ := hp.file_of_buildFile hc
      rw [hgrows.file hg'] at hg
      cases hg
      exact h.buildFiles i f hc g hg'
    · cases hd with
      | buildFile phase role target file absent named =>
        cases hnew
        obtain ⟨g', hg'⟩ := file
        rw [hgrows.file hg'] at hg
        cases hg
        exact (named g hg').2
      | _ => cases hnew

end Step

theorem Path.commented [IdScheme] {A : Project → Step → Prop} {p q : Project} (hpq : Path A p q)
    (hp : p.WellFormed) (h : p.Commented) : q.Commented := by
  induction hpq with
  | refl => exact h
  | step path due fresh allowed ih =>
    exact Step.commented_apply (path.wellFormed hp) due fresh ih

end ProjectGraph
