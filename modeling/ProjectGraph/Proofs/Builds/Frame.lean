import Mathlib.Logic.Relation
import ProjectGraph.Proofs.Builds.Steps

/-! # What a build leaves alone

A build changes the objects of the target that it builds: the target itself, its phases and its
configurations. All other objects it leaves as they are, except that groups get more children and the
project gets more targets. So it does not touch what another target is made of. -/

namespace ProjectGraph

open Relation

/-! ## Shared objects -/

/-- The second content is the first one, with more children if it is a group and with more targets if
it is the project. -/
inductive Content.Extends : Content → Content → Prop
  | same (c) : Extends c c
  | group (g : Group) (more : List Reference) :
      Extends (.group g) (.group { g with children := g.children ++ more })
  | project (r : ProjectRecord) (more : List Reference) :
      Extends (.project r) (.project { r with targets := r.targets ++ more })

namespace Content

variable {a b c : Content}

theorem Extends.trans (hab : a.Extends b) (hbc : b.Extends c) : a.Extends c := by
  cases hab with
  | same => exact hbc
  | group g more =>
    cases hbc with
    | same => exact .group g more
    | group _ more' =>
      rw [List.append_assoc]
      exact .group g (more ++ more')
  | project r more =>
    cases hbc with
    | same => exact .project r more
    | project _ more' =>
      rw [List.append_assoc]
      exact .project r (more ++ more')

theorem extends_append {kind : LinkKind} (hkind : kind = .child ∨ kind = .target) (r : Reference)
    (c : Content) : c.Extends (c.append kind r) := by
  rcases hkind with rfl | rfl
  · cases c with
    | group g => exact .group g [r]
    | _ => exact .same _
  · cases c with
    | project p => exact .project p [r]
    | _ => exact .same _

/-- Only a group or the project can be extended. -/
theorem Extends.eq (h : a.Extends b) (hgroup : a.group? = none) (hproject : a.project? = none) :
    b = a := by
  cases h with
  | same => rfl
  | group => cases hgroup
  | project => cases hproject

end Content

namespace Project

variable {p q : Project} {t i j : ObjectId} {name name' : String}

/-! ## What belongs to a target -/

/-- The object is a target of this name, a phase of such a target, or one of the configurations that
such a target lists. -/
inductive Belongs (p : Project) (name : String) (i : ObjectId) : Prop
  | target (named : p.IsNamed i name)
  | phase {a} (phase : p.content? i = some (.phase a)) (owner : a.target = name)
  | configuration {u} (named : p.IsNamed u name) (configures : p.Configures u i)

/-- The first object refers to the second one. -/
def LinksTo (p : Project) (i j : ObjectId) : Prop :=
  ∃ c, p.content? i = some c ∧ ∃ l ∈ c.links, l.reference.id = j

variable [IdScheme]

theorem Belongs.grows (hp : p.WellFormed) (h : p.Belongs name i) (hpq : p.Grows q) :
    q.Belongs name i := by
  cases h with
  | target named => exact .target (named.grows hpq)
  | phase phase owner =>
    obtain ⟨b, hb, htarget, -⟩ := hpq.phase phase
    exact .phase hb (htarget.trans owner)
  | configuration named configures =>
    exact .configuration (named.grows hpq) (configures.grows hp hpq)

theorem Configures.exists_configuration (hp : p.WellFormed) (h : p.Configures t i) :
    ∃ c, p.content? i = some (.configuration c) := by
  obtain ⟨a, ha, hi⟩ := h
  obtain ⟨r, hr, rfl⟩ := List.mem_map.1 hi
  exact hp.configuration_of_mem_configurationsOf ha hr

/-- An object that belongs to a target belongs to no target of another name. -/
theorem Belongs.unique (hp : p.WellFormed) (ho : p.Owned) (h : p.Belongs name i)
    (h' : p.Belongs name' i) : name = name' := by
  cases h with
  | target named =>
    obtain ⟨a, ha, rfl⟩ := named
    cases h' with
    | target named' => exact IsNamed.unique ⟨a, ha, rfl⟩ named'
    | phase phase =>
      rw [ha] at phase
      cases phase
    | configuration named' configures =>
      obtain ⟨c, hc⟩ := configures.exists_configuration hp
      rw [ha] at hc
      cases hc
  | phase phase owner =>
    cases h' with
    | target named' =>
      obtain ⟨a, ha, -⟩ := named'
      rw [ha] at phase
      cases phase
    | phase phase' owner' =>
      rw [phase] at phase'
      cases phase'
      exact owner.symm.trans owner'
    | configuration named' configures =>
      obtain ⟨c, hc⟩ := configures.exists_configuration hp
      rw [phase] at hc
      cases hc
  | configuration named configures =>
    obtain ⟨c, hc⟩ := configures.exists_configuration hp
    cases h' with
    | target named' =>
      obtain ⟨a, ha, -⟩ := named'
      rw [ha] at hc
      cases hc
    | phase phase' =>
      rw [hc] at phase'
      cases phase'
    | configuration named' configures' =>
      obtain rfl := ho.configures_unique hp configures configures'
      exact named.unique named'

/-- What a target leads to belongs to it, or it is a file, a build file or its list of configurations. -/
theorem WellFormed.cases_of_linksTo (hp : p.WellFormed) (ht : p.IsNamed t name)
    (h : ReflTransGen p.LinksTo t i) :
    p.Belongs name i ∨ (∃ f, p.content? i = some (.file f)) ∨
      (∃ f, p.content? i = some (.buildFile f)) ∨
      ∃ l u, p.content? i = some (.configurationList l) ∧ p.IsNamed u name ∧
        ∀ r ∈ l.configurations, p.Configures u r.id := by
  induction h with
  | refl => exact .inl (.target ht)
  | tail _ hlink ih =>
    obtain ⟨c, hc, l, hl, rfl⟩ := hlink
    rcases ih with hbelongs | ⟨f, hf⟩ | ⟨f, hf⟩ | ⟨k, u, hk, hu, hconfigures⟩
    · cases hbelongs with
      | @target named =>
        obtain ⟨a, ha, hname⟩ := named
        rw [ha] at hc
        cases hc
        simp only [Content.links, List.mem_append, List.mem_map] at hl
        rcases hl with ⟨r, hr, rfl⟩ | ⟨r, hr, rfl⟩ | ⟨r, hr, rfl⟩
        · obtain ⟨q, hq⟩ := hp.phase_of_mem ha hr
          exact .inl (.phase hq ((hp.phases _ a ha r hr q hq).trans hname))
        · have hlist := Option.mem_toList.1 hr
          obtain ⟨k, hk⟩ := hp.configurationList_of_target ha hlist
          refine .inr (.inr (.inr ⟨k, _, hk, ⟨a, ha, hname⟩, fun r' hr' => ⟨a, ha, ?_⟩⟩))
          rw [configurationsOf, hlist, Option.bind_some, hk]
          exact List.mem_map_of_mem hr'
        · exact .inr (.inl (hp.product_of_target ha (Option.mem_toList.1 hr)))
      | phase phase =>
        rw [phase] at hc
        cases hc
        obtain ⟨r, hr, rfl⟩ := List.mem_map.1 hl
        exact .inr (.inr (.inl (hp.buildFile_of_mem phase hr)))
      | configuration named configures =>
        obtain ⟨k, hk⟩ := configures.exists_configuration hp
        rw [hk] at hc
        cases hc
        cases hl
    · rw [hf] at hc
      cases hc
      cases hl
    · rw [hf] at hc
      cases hc
      rw [List.mem_singleton.1 hl]
      exact .inr (.inl (hp.file_of_buildFile hf))
    · rw [hk] at hc
      cases hc
      obtain ⟨r, hr, rfl⟩ := List.mem_map.1 hl
      exact .inl (.configuration hu (hconfigures r hr))

end Project

/-! ## What a build changes -/

section

variable [IdScheme] {d : Target} {p q : Project} {s : Step} {i : ObjectId} {c : Content}

omit [IdScheme] in
/-- A phase is given to a target of the name that the phase tells. -/
theorem Step.Due.isNamed {name : String} {role : PhaseRole}
    (h : (Step.attach i (.phase name role)).Due q) : q.IsNamed i name := by
  cases h with
  | phase target => exact ⟨_, target, rfl⟩

/-- A step of a build changes what belongs to its target, or appends to a group or to the project. -/
theorem BuildStep.extends_or_belongs (hq : q.WellFormed) (hd : s.Due q) (hs : BuildStep d p q s)
    (i : ObjectId) (c : Content) : c.Extends (s.reviseContent i c) ∨ q.Belongs d.name i := by
  have happends : ∀ {x : Part} {owner : ObjectId}, x.home = .child ∨ x.home = .target →
      c.Extends (Step.reviseContent (.attach owner x) i c) := by
    intro x owner hx
    simp only [Step.reviseContent]
    split
    · exact Content.extends_append hx _ c
    · exact .same c
  have hchanges : ∀ {j : ObjectId} {c' : Content}, (i = j → q.Belongs d.name i) →
      c.Extends (if i = j then c' else c) ∨ q.Belongs d.name i := by
    intro j c' h
    split
    · next hi => exact .inr (h hi)
    · exact .inl (.same c)
  have hinBuild := hs.inBuild
  cases hinBuild with
  | target => exact .inl (happends (.inr rfl))
  | group | source | newProduct => exact .inl (happends (.inl rfl))
  | configuration => exact .inl (.same c)
  | phase | newScript => exact hchanges fun hi => .target (hi ▸ hd.isNamed)
  | buildFile hname =>
    refine hchanges fun hi => ?_
    cases hd with
    | buildFile phase role target => exact .phase (hi ▸ phase) (target.symm.trans hname)
  | configurationList =>
    obtain ⟨t, ht, -, hsame⟩ := hs.lists rfl
    exact hchanges fun hi => .target (hi.trans (hsame _ _ rfl) ▸ ht)
  | settings target configures => exact hchanges fun hi => .configuration target (hi ▸ configures)
  | product target => exact hchanges fun hi => .target (hi ▸ target)
  | script target =>
    refine hchanges fun hi => ?_
    obtain ⟨a, ha, hname⟩ := target
    cases hd with
    | script registered listed phase =>
      rw [ha] at registered
      cases registered
      obtain ⟨r, hr, hid⟩ := listed
      exact .phase (hi ▸ phase) ((hq.phases _ a ha r hr _ (hid ▸ phase)).trans hname)

/-- What a build has changed in an object that does not belong to its target is appended. -/
theorem Path.extends_or_belongs (hpq : Path (BuildStep d p) p q) (hp : p.WellFormed)
    (hc : p.content? i = some c) :
    (∃ c', q.content? i = some c' ∧ c.Extends c') ∨ q.Belongs d.name i := by
  induction hpq with
  | refl => exact .inl ⟨c, hc, .same c⟩
  | @step q s path due fresh allowed ih =>
    have hq := path.wellFormed hp
    have hgrow := Step.grows_apply due
    rcases ih with ⟨c', hc', hextends⟩ | hbelongs
    · rcases allowed.extends_or_belongs hq due i c' with h | h
      · exact .inl ⟨_, Step.content?_apply_of_some hc', hextends.trans h⟩
      · exact .inr (h.grows hq hgrow)
    · exact .inr (hbelongs.grows hq hgrow)

theorem Path.schemes_of_buildStep (hpq : Path (BuildStep d p) p q) : q.schemes = p.schemes :=
  hpq.schemes_of_builds fun _ _ h => ⟨d, h.inBuild⟩

end

/-! ## Other targets -/

/-- From the first project to the second one nothing has happened to the targets of other names than
this one, and nothing but additions to what targets share. -/
structure Project.Spares (p q : Project) (name : String) : Prop where
  /-- A target of another name is what it was, with all that it leads to. -/
  others : ∀ t a, p.content? t = some (.target a) → a.name ≠ name →
    ∀ i, ReflTransGen p.LinksTo t i → (p.content? i).isSome ∧ q.content? i = p.content? i
  schemes : q.schemes = p.schemes
  /-- Files and products are what they were. -/
  files : ∀ i f, p.content? i = some (.file f) → q.content? i = some (.file f)
  /-- Whatever does not belong to a target of this name has at most got more children or targets. -/
  shared : ∀ i c, p.content? i = some c → ¬ q.Belongs name i →
    ∃ c', q.content? i = some c' ∧ c.Extends c'
  /-- New objects come last. -/
  order : p.objects.map Object.id <+: q.objects.map Object.id

section

variable [IdScheme] {d : Target} {p q : Project}

theorem Path.spares (hpq : Path (BuildStep d p) p q) (hp : p.WellFormed) (ho : p.Owned) :
    p.Spares q d.name where
  others t a ha hname i hi := by
    have hkept : ∀ c, p.content? i = some c → q.content? i = some c →
        (p.content? i).isSome ∧ q.content? i = p.content? i := by
      intro c hc hc'
      rw [hc, hc']
      exact ⟨rfl, rfl⟩
    rcases hp.cases_of_linksTo ⟨a, ha, rfl⟩ hi with hbelongs | ⟨f, hf⟩ | ⟨f, hf⟩ | ⟨l, -, hl, -⟩
    · have hother : ¬ q.Belongs d.name i := fun h =>
        hname ((hbelongs.grows hp hpq.grows).unique (hpq.wellFormed hp) (hpq.owned hp ho) h)
      have hunchanged : ∀ c, p.content? i = some c → c.group? = none → c.project? = none →
          (p.content? i).isSome ∧ q.content? i = p.content? i := by
        intro c hc hgroup hproject
        obtain ⟨c', hc', hextends⟩ := (hpq.extends_or_belongs hp hc).resolve_right hother
        exact hkept c hc (hextends.eq hgroup hproject ▸ hc')
      cases hbelongs with
      | target named =>
        obtain ⟨b, hb, -⟩ := named
        exact hunchanged _ hb rfl rfl
      | phase phase => exact hunchanged _ phase rfl rfl
      | configuration named configures =>
        obtain ⟨c, hc⟩ := configures.exists_configuration hp
        exact hunchanged _ hc rfl rfl
    · exact hkept _ hf (hpq.grows.file hf)
    · exact hkept _ hf (hpq.grows.buildFile hf)
    · exact hkept _ hl (hpq.grows.configurationList hl)
  schemes := hpq.schemes_of_buildStep
  files i f hf := hpq.grows.file hf
  shared i c hc hother := (hpq.extends_or_belongs hp hc).resolve_right hother
  order := hpq.prefix_ids

end

end ProjectGraph
