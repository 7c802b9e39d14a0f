import Mathlib.Logic.Relation
import ProjectGraph.Document.Snapshot
import ProjectGraph.ObjectId.Digest
import ProjectGraph.Proofs.Digest
import ProjectGraph.Proofs.Runs.Reachable
import ProjectGraph.Proofs.Schemes.Growth

/-! # Growth of reachable projects

Whatever is done to a project, and however it fails, nothing that is there goes away or changes its
place. Objects keep their ids, types and keys, and lists are only added to at their ends. -/

namespace ProjectGraph

/-! ## Types of contents -/

/-- The name of the type of a phase with this role in documents. -/
def PhaseRole.typeName : PhaseRole → String
  | files kind => kind.typeName
  | script .. => "PBXShellScriptBuildPhase"

theorem PhaseRole.typeName_eq_of_place {a b : PhaseRole} (h : b.place = a.place) :
    b.typeName = a.typeName := by
  cases a <;> cases b <;> cases h <;> rfl

/-- The name of the type of a content in documents. -/
def Content.typeName : Content → String
  | file _ => "PBXFileReference"
  | buildFile _ => "PBXBuildFile"
  | phase p => p.role.typeName
  | group _ => "PBXGroup"
  | configuration _ => "XCBuildConfiguration"
  | configurationList _ => "XCConfigurationList"
  | target _ => "PBXNativeTarget"
  | project _ => "PBXProject"

theorem Content.Grows.typeName_eq {a b : Content} (h : a.Grows b) : b.typeName = a.typeName := by
  cases h with
  | phase _ hplace _ => exact PhaseRole.typeName_eq_of_place hplace
  | _ => rfl

/-! ## Growth -/

/-- The first project has become the second one, which still has all of its objects. -/
structure Project.GrownInto (p q : Project) : Prop where
  /-- Objects are registered after the ones that are there. -/
  order : p.objects.map Object.id <+: q.objects.map Object.id
  object : ∀ o ∈ p.objects, ∃ o', q.find? o.id = some o' ∧ o'.id = o.id ∧
    o'.content.typeName = o.content.typeName ∧ o'.content.key = o.content.key
  targets : ∃ a b, p.content? p.record = some (.project a) ∧ q.content? q.record = some (.project b) ∧
    a.targets <+: b.targets ∧ b.configurationList = a.configurationList
  children : ∀ i a, p.content? i = some (.group a) →
    ∃ b, q.content? i = some (.group b) ∧ a.children <+: b.children
  /-- Phases are added at the end, and a list of configurations is set at most once. -/
  buildPhases : ∀ i a, p.content? i = some (.target a) →
    ∃ b, q.content? i = some (.target b) ∧ a.buildPhases <+: b.buildPhases ∧
      ∀ r, a.configurationList = some r → b.configurationList = some r
  files : ∀ i a, p.content? i = some (.phase a) →
    ∃ b, q.content? i = some (.phase b) ∧ a.files <+: b.files
  configurationLists : ∀ i l, p.content? i = some (.configurationList l) →
    q.content? i = some (.configurationList l)
  schemes : ∀ (k : Nat) (s : Scheme), p.schemes[k]? = some s →
    ∃ t, q.schemes[k]? = some t ∧ t.name = s.name ∧ s.buildEntries <+: t.buildEntries

section

variable [IdScheme] {p q : Project}

/-! ## Moves in a row -/

/-- Operations, builds and runs lead from one project to the other, and any of them may fail. -/
def Moves : Project → Project → Prop := Relation.ReflTransGen fun p q => ∃ e, Move p e q

/-- Moves take steps, and reach what can be reached. -/
theorem Reachable.moves (h : Reachable p) (hpq : Moves p q) :
    Reachable q ∧ Path (fun _ _ => True) p q := by
  induction hpq with
  | refl => exact ⟨h, .refl⟩
  | tail _ hmove ih =>
    obtain ⟨hq, hpath⟩ := ih
    obtain ⟨e, hmove⟩ := hmove
    exact ⟨hq.move hmove, hpath.trans (hmove.outcome hq.wellFormed hq.owned).1⟩

/-- A reachable project only grows. -/
theorem Reachable.grownInto (h : Reachable p) (hpq : Moves p q) : p.GrownInto q := by
  have hp := h.wellFormed
  obtain ⟨-, hpath⟩ := h.moves hpq
  constructor
  case order => exact hpath.prefix_ids
  case object =>
    intro o ho
    obtain ⟨d, hd, hgrow⟩ := hpath.grows.content _ _ (Project.content?_of_mem hp.nodup_ids ho)
    obtain ⟨o', ho', rfl⟩ := Project.exists_find?_of_content? hd
    exact ⟨o', ho', Project.id_of_find? ho', hgrow.typeName_eq, hgrow.key_eq⟩
  case targets =>
    obtain ⟨a, ha⟩ := hp.record
    obtain ⟨d, hd, hgrow⟩ := hpath.grows.content _ _ ha
    rw [← hpath.grows.record] at hd
    cases hgrow with
    | project name configurationList _ _ targets => exact ⟨a, _, ha, hd, targets, configurationList⟩
  case children =>
    intro i a ha
    obtain ⟨b, hb, -, -, -, hchildren⟩ := hpath.grows.group ha
    exact ⟨b, hb, hchildren⟩
  case buildPhases =>
    intro i a ha
    obtain ⟨b, hb, -, -, hphases, hlist, -⟩ := hpath.grows.target ha
    exact ⟨b, hb, hphases, hlist⟩
  case files =>
    intro i a ha
    obtain ⟨b, hb, -, -, hfiles⟩ := hpath.grows.phase ha
    exact ⟨b, hb, hfiles⟩
  case configurationLists => exact fun i l hl => hpath.grows.configurationList hl
  case schemes =>
    intro k s hs
    obtain ⟨t, ht, hgrow⟩ := hpath.schemesGrow k s hs
    exact ⟨t, ht, hgrow.name, hgrow.buildEntries⟩

end

/-- Giving a target its configurations fails at the second one, as the key of this is taken. The project
has the first one then, and whatever it had before. -/
theorem grownInto_of_clashingConfiguration :
    ∃ (p q : Project) (e : Error), Reachable p ∧ Moves p q ∧ Move p (some e) q ∧
      q.objects.length = p.objects.length + 1 ∧ p.GrownInto q := by
  let long := Operation.newNativeTarget "A:B" .framework
  let short := Operation.newNativeTarget "A" .framework
  let t := (Content.target { name := "A:B", kind := .framework }).id
  let u := (Content.target { name := "A", kind := .framework }).id
  let first := Operation.newConfigurationList t .ios .swift .framework
  let second := Operation.newConfigurationList u .ios .swift .framework
  have hlast : (Project.ofValue "App" (.list [.text "C", .text "B:C"])).toOption.any fun p =>
      let p₁ := stateAfter long.run p
      let p₂ := stateAfter short.run p₁
      let p₃ := stateAfter first.run p₂
      p₂.content? t = some (.target { name := "A:B", kind := .framework }) ∧
        p₃.content? u = some (.target { name := "A", kind := .framework }) ∧
          (failureOf second.run p₃).isSome ∧
            (stateAfter second.run p₃).objects.length = p₃.objects.length + 1 := by
    rw [ObjectId.digestScheme_eq]
    decide +kernel
  obtain ⟨p, hnew, hp⟩ := Project.exists_of_ofValue hlast
  obtain ⟨ht, hu, hfails, hlength⟩ := of_decide_eq_true hp
  obtain ⟨e, he⟩ := Option.isSome_iff_exists.1 hfails
  have hlong : Move p _ _ := .operation long trivial
  have hshort : Move (stateAfter long.run p) _ _ := .operation short trivial
  have hfirst : Move (stateAfter short.run (stateAfter long.run p)) _ _ := .operation first ⟨_, ht⟩
  have hreachable := Reachable.new hnew |>.move hlong |>.move hshort |>.move hfirst
  have hsecond : Move _ (failureOf second.run _) _ := .operation second ⟨_, hu⟩
  have hmoves : Moves _ _ := .single ⟨_, hsecond⟩
  rw [he] at hsecond
  exact ⟨_, _, e, hreachable, hmoves, hsecond, hlength, Reachable.grownInto hreachable hmoves⟩

end ProjectGraph
