import ProjectGraph.Proofs.Ownership.Unique
import ProjectGraph.Proofs.Runs.Linking

/-! # Single owners

Whatever has been done to a project, its groups and files make a tree, and each target, phase, build
file and configuration belongs to one owner. -/

namespace ProjectGraph

open Relation

namespace Project

/-- Each object of the project has a single owner, from which it is referred to once. -/
structure SingleOwner (p : Project) : Prop where
  /-- A group or file other than the main group is one child of one group. -/
  child : ∀ i c, p.content? i = some c → c.group?.isSome ∨ c.file?.isSome → i ≠ p.mainGroup →
    (p.linked .child).count i = 1
  /-- Following parents ends at the main group, which is no child. -/
  rooted : ∀ i c, p.content? i = some c → c.group?.isSome ∨ c.file?.isSome →
    ReflTransGen p.Parent i p.mainGroup
  root : p.mainGroup ∉ p.linked .child
  acyclic : ∀ i, ¬ TransGen p.Parent i i
  /-- The project lists each target once. -/
  target : ∀ t a, p.content? t = some (.target a) →
    ∃ r, p.content? p.record = some (.project r) ∧ (r.targets.map Reference.id).count t = 1
  targetName : ∀ t t' a b, p.content? t = some (.target a) → p.content? t' = some (.target b) →
    a.name = b.name → t = t'
  /-- A phase is listed once, by the target of its name. -/
  phase : ∀ i q, p.content? i = some (.phase q) → (p.linked .buildPhase).count i = 1 ∧
    ∃ t a, p.content? t = some (.target a) ∧ i ∈ a.buildPhases.map Reference.id ∧ a.name = q.target
  /-- A target has one phase of a kind, and one script in a slot. -/
  place : ∀ t a, p.content? t = some (.target a) → a.buildPhases.Pairwise fun r r' =>
    ∀ q q', p.content? r.id = some (.phase q) → p.content? r'.id = some (.phase q') →
      q.role.place ≠ q'.role.place
  /-- A build file is listed once. -/
  buildFile : ∀ i f, p.content? i = some (.buildFile f) → (p.linked .phaseFile).count i = 1
  /-- A phase has one build file for a file. -/
  file : ∀ i q, p.content? i = some (.phase q) → q.files.Pairwise fun r r' =>
    ∀ f f', p.content? r.id = some (.buildFile f) → p.content? r'.id = some (.buildFile f') →
      f.file.id ≠ f'.file.id
  list : ∀ t t' a b r r', p.content? t = some (.target a) → p.content? t' = some (.target b) →
    a.configurationList = some r → b.configurationList = some r' → r.id = r'.id → t = t'
  configuration : ∀ t t' i, p.Configures t i → p.Configures t' i → t = t'

end Project

theorem Reachable.singleOwner [IdScheme] {p : Project} (h : Reachable p) : p.SingleOwner := by
  have hp := h.wellFormed
  have ho := h.owned
  have hhome : ∀ c : Content, c.group?.isSome ∨ c.file?.isSome → c.home? = some .child := by
    intro c hc
    cases c with
    | group | file => rfl
    | _ => simp [Content.group?, Content.file?] at hc
  constructor
  · exact fun i c hc hchild hi => ho.count_linked hc (hhome c hchild) hi
  · exact fun i c hc hchild => ho.rooted i c hc (hhome c hchild)
  · exact ho.mainGroup
  · exact ho.not_cycle hp
  · intro t a ha
    obtain ⟨r, hr⟩ := hp.record
    exact ⟨r, hr, ho.count_targets hp hr ha⟩
  · exact fun t t' a b ha hb hname => hp.target_unique ha hb hname
  · intro i q hq
    refine ⟨ho.count_linked hq rfl ?_, ho.exists_target_of_phase hp hq⟩
    exact Project.Owned.ne_mainGroup hp hq (by simp [Content.home?])
  · exact fun t a ha => ho.pairwise_places hp ha
  · intro i f hf
    exact ho.count_linked hf rfl (Project.Owned.ne_mainGroup hp hf (by simp [Content.home?]))
  · exact fun i q hq => ho.pairwise_files hp hq
  · exact fun t t' a b r r' ha hb hr hr' hid => ho.list_unique hp ha hb hr hr' hid
  · exact fun t t' i h h' => ho.configures_unique hp h h'

/-- The objects that a run over a framework and its tests has made have single owners. -/
theorem singleOwner_of_testedCore :
    ∃ (p : Project) (w : Workspace), Project.ofValue "App" (.text "Debug") = .ok p ∧
      plainGenerator.run [testedCore] ⟨p, frameworkTree, []⟩ = .ok () w ∧ w.project.Furnished ∧
        w.project.SingleOwner := by
  obtain ⟨p, w, hnew, hrun, hw, hfurnished, -⟩ := exists_testedCore
  exact ⟨p, w, hnew, hrun, hfurnished, hw.singleOwner⟩

end ProjectGraph
