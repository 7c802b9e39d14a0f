import ProjectGraph.Proofs.Builds.Filed
import ProjectGraph.Proofs.Runs.Clash

/-! # Regular projects

Operations can be combined in ways in which generators never combine them. What is only built and run
is more than well-formed: its files are found where they are looked for, a file is in one phase, and
what is linked is a product. A new project is regular, and builds and the setting up of schemes keep it
so, whether they fail or not. -/

namespace ProjectGraph

namespace Project

variable [IdScheme] {p : Project} {name : String}

/-- A project as builds and runs make it. -/
structure Regular (p : Project) : Prop extends Searchable p where
  sound : p.Sound

/-! ## New projects -/

/-- In a new project only the main group belongs to a directory. -/
theorem apart_of_create {names : List String} (h : create name names = .ok p) : p.Apart := by
  have ho := owned_of_create h
  have hp := wellFormed_of_create h
  obtain ⟨hne, heq, hn⟩ := eq_of_create h
  intro directory hgroup
  unfold groupAt at hgroup
  split at hgroup
  · -- The group of products is a child of the main group, which is nobody's child.
    have hmain : p.content? p.mainGroup = some (.group newMainGroup) := by
      refine (content?_initial heq hn).2 ⟨mem_initialContents.2 (.inl rfl), ?_⟩
      rw [heq]
      rfl
    refine ho.mainGroup ((mem_linked hp.nodup_ids).2 ⟨p.mainGroup, _, hmain, ?_⟩)
    rw [Option.some.inj hgroup, heq]
    exact List.mem_singleton_self _
  · have hnone : p.directories.get? directory = none := by rw [heq]; rfl
    rw [hnone] at hgroup
    cases hgroup

/-- A new project has no targets, no files in phases, and only empty settings. -/
theorem sound_of_create {names : List String} (h : create name names = .ok p) : p.Sound := by
  obtain ⟨hne, heq, hn⟩ := eq_of_create h
  have hjoins : ∀ {owner k file}, ¬ p.Joins owner k file := by
    rintro owner k file ⟨i, f, hf, -⟩
    exact isInitial_of_create h hf
  constructor
  · exact fun _ _ _ _ _ _ _ h => absurd h hjoins
  · exact fun _ _ _ _ h => absurd h hjoins
  · exact fun _ _ h => absurd h hjoins
  · intro i c hc
    have hmem := ((content?_initial heq hn).1 hc).1
    rcases mem_initialContents.1 hmem with h | h | ⟨n, -, h⟩ | h | h <;> cases h
    exact List.forall_mem_nil _
  · exact fun i f hf => absurd (isInitial_of_create h hf) id
  · intro s hs
    have hnil : p.schemes = [] := by rw [heq]; rfl
    rw [hnil] at hs
    cases hs

theorem regular_of_ofValue {value : Value} (h : ofValue name value = .ok p) : p.Regular := by
  obtain ⟨hp, ho⟩ := wellFormed_of_ofValue h
  have hfindable := findable_of_ofValue h
  obtain ⟨names, h⟩ := exists_create_of_ofValue h
  exact ⟨⟨hp, ho, hfindable, apart_of_create h⟩, sound_of_create h⟩

end Project

/-! ## Steps that keep projects regular -/

namespace Step

variable {q : Project} {s : Step} {name owner : String} {kind : PhaseKind} {file : ObjectId}

theorem not_files_of_aimedSteps (h : Project.AimedSteps name q s) : ¬ s.Files owner kind file := by
  rintro ⟨i, f, rfl, -⟩
  rcases h.schemeSteps with ⟨new, -, h⟩ | ⟨n, -, change, h⟩ <;> cases h

theorem sound_of_aimedSteps (h : Project.AimedSteps name q s) : s.Sound q := by
  constructor
  · exact fun owner k file _ hfiles => absurd hfiles (not_files_of_aimedSteps h)
  · exact fun owner file hfiles => absurd hfiles (not_files_of_aimedSteps h)
  · rintro i f rfl
    exact absurd ⟨i, f, rfl, rfl, rfl, rfl⟩ (not_files_of_aimedSteps h)
  · rintro c rfl
    rcases h.schemeSteps with ⟨new, -, h⟩ | ⟨n, -, change, h⟩ <;> cases h
  · rintro i new rfl
    rcases h.schemeSteps with ⟨new, -, h⟩ | ⟨n, -, change, h⟩ <;> cases h
  · rintro new rfl e he
    exact (h.shows new.name e (.inl ⟨new, rfl, rfl, he⟩)).exists_target
  · rintro n refs codeCoverage rfl e he
    exact (h.shows n e (.inr ⟨refs, codeCoverage, rfl, he⟩)).exists_target

end Step

namespace Path

variable [IdScheme] {p q : Project} {name : String}

theorem regular_of_buildStep {d : Target} (hpq : Path (BuildStep d p) p q) (h : p.Regular) :
    q.Regular where
  toSearchable := hpq.searchable (fun _ _ hs => hs.inBuild.orderly) h.toSearchable
  sound := hpq.sound_of_buildStep h.wellFormed h.sound

theorem regular_of_aimedSteps (hpq : Path (Project.AimedSteps name) p q) (h : p.Regular) :
    q.Regular where
  toSearchable :=
    hpq.searchable (fun _ _ hs => Step.orderly_of_schemeSteps hs.schemeSteps) h.toSearchable
  sound := (hpq.mono fun _ _ => Step.sound_of_aimedSteps).sound h.wellFormed h.sound

end Path
end ProjectGraph
