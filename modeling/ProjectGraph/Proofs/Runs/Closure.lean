import ProjectGraph.Proofs.Document.Snapshots
import ProjectGraph.Proofs.Runs.Linking

/-! # Closed registries

Whatever has been done to a project, also by operations that have failed, all that its objects refer to
is registered and of the right type, and each object stands under the id of its key. -/

namespace ProjectGraph

/-- The error says that an object is missing or of another type than its use asks for. -/
def Error.IsLookup : Error → Prop
  | .missingObject _ | .unsuitableObject _ => True
  | _ => False

theorem Failure.not_isLookup [IdScheme] {A : Project → Step → Prop} {q : Project} {e : Error}
    (h : Failure A q e) : ¬ e.IsLookup := by
  cases h with
  | clash => exact id
  | outer outer => cases e <;> first | exact id | cases outer

namespace Project

/-- The registry holds all that it refers to, under the ids of its keys, and goes on doing so. -/
structure RegistryClosed [IdScheme] (p : Project) : Prop where
  /-- A stored reference leads to an object of the type that it is for. -/
  follows : ∀ o ∈ p.objects, ∀ l ∈ o.content.links,
    ∃ o', follow l.reference p = .ok o' p ∧ l.kind.fits o'.content
  /-- No reference is stored anywhere else in an object. -/
  attached : ∀ o ∈ p.objects, o.attached = {}
  /-- An object is found under its own id. -/
  finds : ∀ o ∈ p.objects, p.find? o.id = some o
  ids : ∀ o ∈ p.objects, o.id = IdScheme.ofKey o.content.key
  /-- Nothing that is done next changes the key of an object. -/
  keys : ∀ e q, Move p e q → ∀ o ∈ p.objects, ∃ o', q.find? o.id = some o' ∧
    o'.content.key = o.content.key
  /-- Nothing that is done next misses an object. -/
  lookups : ∀ e q, Move p (some e) q → ¬ e.IsLookup
  /-- The checked document holds all that it refers to. -/
  document : ∃ s, snapshot p = .ok s p ∧ ∀ context r,
    (context, Leaf.reference r) ∈ s.node.leaves "project" → r.id ∈ s.ids

end Project

theorem Reachable.registryClosed [IdScheme] {p : Project} (h : Reachable p) : p.RegistryClosed := by
  have hp := h.wellFormed
  have ho := h.owned
  have hcontent : ∀ o ∈ p.objects, p.content? o.id = some o.content := fun o hmem =>
    Project.content?_of_mem hp.nodup_ids hmem
  constructor
  · intro o hmem l hl
    obtain ⟨c, hc, hfits⟩ := hp.resolves o.id _ (hcontent o hmem) l hl
    obtain ⟨o', ho', rfl⟩ := Project.exists_find?_of_content? hc
    exact ⟨o', Project.resolve_of_find? ho', hfits⟩
  · exact hp.attached
  · exact fun o hmem => Project.find?_of_mem hp.nodup_ids hmem
  · exact fun o hmem => hp.id_eq o.id _ (hcontent o hmem)
  · intro e q hmove o hmem
    obtain ⟨hpath, -⟩ := hmove.outcome hp ho
    obtain ⟨d, hd, hgrow⟩ := hpath.grows.content _ _ (hcontent o hmem)
    obtain ⟨o', ho', rfl⟩ := Project.exists_find?_of_content? hd
    exact ⟨o', ho', hgrow.key_eq⟩
  · intro e q hmove
    obtain ⟨-, hfails⟩ := hmove.outcome hp ho
    exact (hfails e rfl).not_isLookup
  · obtain ⟨r, hr⟩ := hp.record
    exact ⟨_, Project.snapshot_eq hp hr, fun _ _ hleaf =>
      (Project.closed_snapshotOf hp ho hr).mem_ids_of_leaf hleaf⟩

/-- A registry is closed after a run that has furnished it and an operation that has failed. -/
theorem registryClosed_of_testedCore :
    ∃ (p : Project) (w : Workspace) (q : Project), Project.ofValue "App" (.text "Debug") = .ok p ∧
      plainGenerator.run [testedCore] ⟨p, frameworkTree, []⟩ = .ok () w ∧ w.project.Furnished ∧
        Move w.project (some (.endlessDirectory "/lib")) q ∧ q.RegistryClosed := by
  obtain ⟨p, w, hnew, hrun, hw, hfurnished, -⟩ := exists_testedCore
  have hmove : Move w.project (some (.endlessDirectory "/lib")) _ :=
    .operation (.groupForPath "/lib") trivial
  exact ⟨p, w, _, hnew, hrun, hfurnished, hmove, (hw.move hmove).registryClosed⟩

end ProjectGraph
