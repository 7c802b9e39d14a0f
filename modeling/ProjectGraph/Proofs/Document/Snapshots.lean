import ProjectGraph.Proofs.Document.Problems
import ProjectGraph.Proofs.Ownership.Unique
import ProjectGraph.Proofs.Runs.Check

/-! # Snapshots of owned projects

The snapshot of a project with owned objects holds the registered objects, and no other ones. So it holds
all that it refers to. -/

namespace ProjectGraph.Project

variable {p : Project} {α : Type} {view : Content → Option α} {content : α → Content} {i : ObjectId}
  {c : Content} {r : ProjectRecord}

/-- A view of the contents of one type. -/
def Views (view : Content → Option α) (content : α → Content) : Prop :=
  ∀ c a, view c = some a ↔ c = content a

theorem views_file : Views Content.file? .file := fun c a => by cases c <;> simp [Content.file?]

theorem views_group : Views Content.group? .group := fun c a => by cases c <;> simp [Content.group?]

theorem views_buildFile : Views Content.buildFile? .buildFile :=
  fun c a => by cases c <;> simp [Content.buildFile?]

theorem views_phase : Views Content.phase? .phase := fun c a => by cases c <;> simp [Content.phase?]

theorem views_configuration : Views Content.configuration? .configuration :=
  fun c a => by cases c <;> simp [Content.configuration?]

theorem views_configurationList : Views Content.configurationList? .configurationList :=
  fun c a => by cases c <;> simp [Content.configurationList?]

variable [IdScheme]

theorem mem_contents_objectsAs (hp : p.WellFormed) (hv : Views view content) :
    ⟨i, c⟩ ∈ Identified.contents content (p.objectsAs view) ↔
      (∃ a, c = content a) ∧ p.content? i = some c := by
  simp only [Identified.contents, objectsAs, List.mem_map, List.mem_filterMap, Object.view?,
    Option.map_eq_some_iff, Identified.mk.injEq]
  constructor
  · rintro ⟨_, ⟨o, ho, a, ha, rfl⟩, rfl, rfl⟩
    have hc := content?_of_mem hp.nodup_ids ho
    rw [(hv _ _).1 ha] at hc
    exact ⟨⟨a, rfl⟩, hc⟩
  · rintro ⟨⟨a, rfl⟩, hc⟩
    obtain ⟨o, ho, rfl, ha⟩ := exists_mem_of_content? hc
    exact ⟨⟨o.id, a⟩, ⟨o, ho, a, (hv _ _).2 ha, rfl⟩, rfl, rfl⟩

theorem mem_contents_objectsAt (hp : p.WellFormed) (ho : p.Owned)
    (hr : p.content? p.record = some (.project r)) :
    (⟨i, c⟩ : Identified Content) ∈ (p.objectsAt r.targets).map (fun o => ⟨o.id, o.content⟩) ↔
      (∃ a, c = .target a) ∧ p.content? i = some c := by
  simp only [List.mem_map, Identified.mk.injEq]
  constructor
  · rintro ⟨o, hmem, rfl, rfl⟩
    obtain ⟨ref, -, hfound⟩ := mem_objectsAt.1 hmem
    have hc := content?_of_find? hfound
    rw [← id_of_find? hfound] at hc
    exact ⟨p.mem_nativeTargets hp hr hmem, hc⟩
  · rintro ⟨⟨a, rfl⟩, hc⟩
    obtain ⟨ref, href, rfl⟩ := List.mem_map.1 (ho.mem_targets hp hr hc)
    obtain ⟨o, hfound, hcontent⟩ := exists_find?_of_content? hc
    exact ⟨o, mem_objectsAt.2 ⟨ref, href, hfound⟩, id_of_find? hfound, hcontent⟩

/-- A snapshot holds the registered objects. -/
theorem mem_contents_snapshotOf (hp : p.WellFormed) (ho : p.Owned)
    (hr : p.content? p.record = some (.project r)) :
    ⟨i, c⟩ ∈ (p.snapshotOf r).contents ↔ p.content? i = some c := by
  have hrecord : i = p.record ∧ c = .project r ↔ (∃ a, c = .project a) ∧ p.content? i = some c := by
    constructor
    · rintro ⟨rfl, rfl⟩
      exact ⟨⟨r, rfl⟩, hr⟩
    · rintro ⟨⟨a, rfl⟩, hc⟩
      obtain rfl := ho.record i a hc
      rw [hr] at hc
      cases hc
      exact ⟨rfl, rfl⟩
  have hviews {β : Type} {view : Content → Option β} {content : β → Content}
      (hv : Views view content) := mem_contents_objectsAs (i := i) (c := c) hp hv
  rw [Snapshot.contents_eq]
  simp only [snapshotOf, List.mem_append, List.mem_cons, Identified.mk.injEq]
  rw [hviews views_file, hviews views_group, hviews views_buildFile, hviews views_phase, hrecord,
    mem_contents_objectsAt hp ho hr, hviews views_configuration, hviews views_configurationList]
  cases c <;> simp

theorem closed_snapshotOf (hp : p.WellFormed) (ho : p.Owned)
    (hr : p.content? p.record = some (.project r)) : (p.snapshotOf r).Closed := by
  rintro ⟨i, c⟩ hx l hl
  obtain ⟨d, hd, -⟩ := hp.resolves i c ((mem_contents_snapshotOf hp ho hr).1 hx) l hl
  exact ⟨⟨l.reference.id, d⟩, (mem_contents_snapshotOf hp ho hr).2 hd, rfl⟩

/-- The snapshot of a project is clean if its configurations and its build files are. -/
theorem clean_snapshotOf (hp : p.WellFormed) (ho : p.Owned)
    (hr : p.content? p.record = some (.project r))
    (hsettings : ∀ i c, p.content? i = some (.configuration c) → c.settings.Clean)
    (hfiles : ∀ i f, p.content? i = some (.buildFile f) → ∀ u ∈ f.settings, u.Clean) :
    (p.snapshotOf r).Clean := by
  rintro ⟨i, c⟩ hx u hu
  have hc := (mem_contents_snapshotOf hp ho hr).1 hx
  cases c with
  | configuration k =>
    rw [List.mem_singleton.1 hu]
    exact hsettings i k hc
  | buildFile f => exact hfiles i f hc u (Option.mem_toList.1 hu)
  | _ => cases hu

end ProjectGraph.Project
