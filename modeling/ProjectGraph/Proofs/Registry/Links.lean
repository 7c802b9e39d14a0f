import ProjectGraph.Proofs.Registry.Lookup

/-! # Links between contents

A link is a reference together with what it is for. A project is well-formed when each link leads to
a registered object of the type that it is for, and when each object is registered under the id of
its content. -/

namespace ProjectGraph

/-- What a reference is for. -/
inductive LinkKind where
  /-- From a group to a group or a file in it. -/
  | child
  /-- From the project to a target. -/
  | target
  | buildPhase
  /-- From a build phase to a build file. -/
  | phaseFile
  /-- From a build file to its file. -/
  | file
  | configurationList
  | configuration
  /-- From a target to its product. -/
  | product
  | mainGroup
  | productsGroup
  deriving DecidableEq, Repr

def LinkKind.all : List LinkKind :=
  [child, target, buildPhase, phaseFile, file, configurationList, configuration, product, mainGroup,
    productsGroup]

theorem LinkKind.mem_all (kind : LinkKind) : kind ∈ all := by cases kind <;> decide

structure Link where
  kind : LinkKind
  reference : Reference
  deriving DecidableEq, Repr

/-- Is the content of the type that links of this kind lead to? -/
def LinkKind.fits (kind : LinkKind) (c : Content) : Bool :=
  match kind with
  | child => c.group?.isSome || c.file?.isSome
  | target => c.target?.isSome
  | buildPhase => c.phase?.isSome
  | phaseFile => c.buildFile?.isSome
  | file | product => c.file?.isSome
  | configurationList => c.configurationList?.isSome
  | configuration => c.configuration?.isSome
  | mainGroup | productsGroup => c.group?.isSome

namespace Content

/-- The links that start at a content. -/
def links : Content → List Link
  | file _ | configuration _ => []
  | buildFile f => [⟨.file, f.file⟩]
  | phase p => p.files.map (Link.mk .phaseFile)
  | group g => g.children.map (Link.mk .child)
  | configurationList l => l.configurations.map (Link.mk .configuration)
  | target t =>
    t.buildPhases.map (Link.mk .buildPhase) ++
      (t.configurationList.toList.map (Link.mk .configurationList) ++
        t.productReference.toList.map (Link.mk .product))
  | project r =>
    r.configurationList.toList.map (Link.mk .configurationList) ++
      ([⟨.mainGroup, r.mainGroup⟩, ⟨.productsGroup, r.productsGroup⟩] ++
        r.targets.map (Link.mk .target))

end Content

/-- Where in a target a phase stands: it is the one of its kind, or the one of its slot. -/
def PhaseRole.place : PhaseRole → PhaseKind ⊕ String
  | files kind => .inl kind
  | script slot _ => .inr slot

/-- The key of a phase in a target, by its place. -/
def placeKey (target : String) : PhaseKind ⊕ String → String
  | .inl kind => kind.typeName ++ ":" ++ target
  | .inr slot => "PBXShellScriptBuildPhase:" ++ target ++ ":" ++ slot

theorem BuildPhase.key_eq_placeKey (p : BuildPhase) : p.key = placeKey p.target p.role.place := by
  obtain ⟨target, role, files⟩ := p
  cases role <;> rfl

namespace Project

variable (p : Project)

/-- The group of a directory, by the components of its normal form. -/
def groupAt (directory : List String) : Option ObjectId :=
  if directory = [] then some p.mainGroup else p.directories.get? directory

/-- The link leads to a registered object of its type. -/
def Resolves (l : Link) : Prop := ∃ c, p.content? l.reference.id = some c ∧ l.kind.fits c

/-- A project whose links resolve and whose objects stand under their own ids. -/
structure WellFormed [IdScheme] : Prop where
  nodup_ids : (p.objects.map Object.id).Nodup
  id_eq : ∀ i c, p.content? i = some c → i = c.id
  resolves : ∀ i c, p.content? i = some c → ∀ l ∈ c.links, p.Resolves l
  mainGroup : ∃ g, p.content? p.mainGroup = some (.group g)
  productsGroup : ∃ g, p.content? p.productsGroup = some (.group g)
  record : ∃ r, p.content? p.record = some (.project r)
  directories : ∀ d i, p.directories.get? d = some i → ∃ g, p.content? i = some (.group g)
  /-- The product of a target is one of the products. -/
  products : ∀ i t r, p.content? i = some (.target t) → t.productReference = some r →
    ∃ g, p.content? p.productsGroup = some (.group g) ∧ r.id ∈ g.children.map Reference.id
  /-- A phase is one of the target that lists it. -/
  phases : ∀ i t, p.content? i = some (.target t) → ∀ r ∈ t.buildPhases, ∀ q,
    p.content? r.id = some (.phase q) → q.target = t.name
  /-- A build file is one of the phase that lists it. -/
  buildFiles : ∀ i q, p.content? i = some (.phase q) → ∀ r ∈ q.files, ∀ f,
    p.content? r.id = some (.buildFile f) → f.target = q.target ∧ q.role.place = .inl f.phase
  detached : p.detached = []
  attached : ∀ o ∈ p.objects, o.attached = {}

end Project

/-! ## Growth

While a project is worked on, contents keep what identifies them, and their lists only get longer. -/

/-- The second content is what the first one can have become. -/
inductive Content.Grows : Content → Content → Prop
  | file (f) : Grows (.file f) (.file f)
  | buildFile (f) : Grows (.buildFile f) (.buildFile f)
  | phase {a b : BuildPhase} (target : b.target = a.target) (place : b.role.place = a.role.place)
      (files : a.files <+: b.files) : Grows (.phase a) (.phase b)
  | group {a b : Group} (name : b.name = a.name) (path : b.path = a.path)
      (groupId : b.groupId = a.groupId) (children : a.children <+: b.children) :
      Grows (.group a) (.group b)
  | configuration {a b : Configuration} (name : b.name = a.name) (owner : b.owner = a.owner) :
      Grows (.configuration a) (.configuration b)
  | configurationList (l) : Grows (.configurationList l) (.configurationList l)
  | target {a b : NativeTarget} (name : b.name = a.name) (kind : b.kind = a.kind)
      (buildPhases : a.buildPhases <+: b.buildPhases)
      (configurationList : ∀ r, a.configurationList = some r → b.configurationList = some r)
      (productReference : a.productReference.isSome → b.productReference.isSome) :
      Grows (.target a) (.target b)
  | project {a b : ProjectRecord} (name : b.name = a.name)
      (configurationList : b.configurationList = a.configurationList)
      (mainGroup : b.mainGroup = a.mainGroup) (productsGroup : b.productsGroup = a.productsGroup)
      (targets : a.targets <+: b.targets) : Grows (.project a) (.project b)

namespace Content.Grows

variable {a b c : Content}

theorem refl (a : Content) : a.Grows a := by
  cases a with
  | file f => exact .file f
  | buildFile f => exact .buildFile f
  | phase p => exact .phase rfl rfl (List.prefix_refl _)
  | group g => exact .group rfl rfl rfl (List.prefix_refl _)
  | configuration c => exact .configuration rfl rfl
  | configurationList l => exact .configurationList l
  | target t => exact .target rfl rfl (List.prefix_refl _) (fun _ h => h) (fun h => h)
  | project r => exact .project rfl rfl rfl rfl (List.prefix_refl _)

theorem trans (hab : a.Grows b) (hbc : b.Grows c) : a.Grows c := by
  cases hab with
  | file f => exact hbc
  | buildFile f => exact hbc
  | phase ht hp hf =>
    cases hbc with
    | phase ht' hp' hf' => exact .phase (ht'.trans ht) (hp'.trans hp) (hf.trans hf')
  | group hn hp hi hc =>
    cases hbc with
    | group hn' hp' hi' hc' => exact .group (hn'.trans hn) (hp'.trans hp) (hi'.trans hi) (hc.trans hc')
  | configuration hn ho =>
    cases hbc with
    | configuration hn' ho' => exact .configuration (hn'.trans hn) (ho'.trans ho)
  | configurationList l => exact hbc
  | target hn hk hb hl hp =>
    cases hbc with
    | target hn' hk' hb' hl' hp' =>
      exact .target (hn'.trans hn) (hk'.trans hk) (hb.trans hb') (fun r h => hl' r (hl r h))
        (fun h => hp' (hp h))
  | project hn hl hm hp ht =>
    cases hbc with
    | project hn' hl' hm' hp' ht' =>
      exact .project (hn'.trans hn) (hl'.trans hl) (hm'.trans hm) (hp'.trans hp) (ht.trans ht')

/-- What a key is made of does not change. -/
theorem key_eq (h : a.Grows b) : b.key = a.key := by
  cases h with
  | file f => rfl
  | buildFile f => rfl
  | @phase a b ht hp hf =>
    show b.key = a.key
    rw [BuildPhase.key_eq_placeKey, BuildPhase.key_eq_placeKey, ht, hp]
  | @group a b hn hp hi hc =>
    show b.key = a.key
    unfold Group.key
    rw [hn, hp, hi]
  | @configuration a b hn ho =>
    show b.key = a.key
    unfold Configuration.key
    rw [hn, ho]
  | configurationList l => rfl
  | @target a b hn hk hb hl hp =>
    show b.key = a.key
    unfold NativeTarget.key
    rw [hn]
  | @project a b hn hl hm hp ht =>
    show b.key = a.key
    unfold ProjectRecord.key
    rw [hn]

theorem id_eq [IdScheme] (h : a.Grows b) : b.id = a.id := by
  rw [Content.id, Content.id, h.key_eq]

/-- A link that leads to a content goes on fitting it. -/
theorem fits (h : a.Grows b) {k : LinkKind} (hk : k.fits a) : k.fits b := by
  cases h <;> cases k <;> exact hk

end Content.Grows
end ProjectGraph
