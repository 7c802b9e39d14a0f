import ProjectGraph.Generator
import ProjectGraph.Proofs.Operations.Performs
import ProjectGraph.Proofs.Registry.Reading

/-! # Checking a project

The check of a project only reads it. It finds every target, so it can only find fault with the project
as a whole. -/

namespace ProjectGraph

/-! ## What the check looks at -/

namespace Snapshot

variable {s : Snapshot} {e : Error}

theorem mapM_lacksOf {os : List Object} (h : ∀ o ∈ os, ∃ t, o.content = .target t) :
    ∃ problems, os.mapM lacksOf = .ok problems := by
  induction os with
  | nil => exact ⟨[], rfl⟩
  | cons o os ih =>
    obtain ⟨t, ht⟩ := h o (by simp)
    obtain ⟨rest, hrest⟩ := ih fun o' ho => h o' (List.mem_cons_of_mem o ho)
    have hlacks : ∃ problems, lacksOf o = .ok problems := by
      obtain ⟨i, c, attached⟩ := o
      cases ht
      obtain ⟨name, kind, phases, list, product⟩ := t
      cases list <;> cases product <;> exact ⟨_, rfl⟩
    obtain ⟨problems, hproblems⟩ := hlacks
    refine ⟨problems :: rest, ?_⟩
    rw [List.mapM_cons, hproblems, hrest]
    rfl

/-- Where the targets of the project are targets, the check fails for no single object. -/
theorem isCheck_of_check (h : ∀ o ∈ s.nativeTargets, ∃ t, o.content = .target t)
    (he : s.check = .error e) : e.IsCheck := by
  obtain ⟨problems, hproblems⟩ := mapM_lacksOf h
  have htargets : s.targetProblems = .ok problems.flatten := by
    rw [targetProblems, hproblems]
    rfl
  unfold check at he
  rw [htargets] at he
  simp only at he
  split at he
  · cases he
    trivial
  · change (if problems.flatten ++ s.schemeProblems ≠ [] then
      Except.error (Error.invalidTargets (problems.flatten ++ s.schemeProblems)) else .ok ()) =
      .error e at he
    split at he
    · cases he
      trivial
    · cases he

end Snapshot

namespace Project

variable [IdScheme] {p : Project}

/-- The snapshot of a project with this record. -/
def snapshotOf (p : Project) (r : ProjectRecord) : Snapshot where
  fileReferences := p.objectsAs Content.file?
  groups := p.objectsAs Content.group?
  buildFiles := p.objectsAs Content.buildFile?
  buildPhases := p.objectsAs Content.phase?
  nativeTargets := p.objectsAt r.targets
  project := ⟨p.record, r⟩
  buildConfigurations := p.objectsAs Content.configuration?
  configurationLists := p.objectsAs Content.configurationList?
  schemes := p.schemes

theorem snapshot_eq (hp : p.WellFormed) {r : ProjectRecord}
    (hr : p.content? p.record = some (.project r)) : snapshot p = .ok (p.snapshotOf r) p := by
  have htargets : targets p = .ok (p.objectsAt r.targets) p := by
    show (projectRecord >>= fun r => r.targets.mapM follow) p = _
    rw [bind_of_ok (projectRecord_of_content? hr)]
    exact mapM_follow (hp.isSome_of_targets hr)
  rw [snapshot, bind_of_ok htargets, bind_of_ok (projectRecord_of_content? hr)]
  rfl

theorem mem_nativeTargets (hp : p.WellFormed) {r : ProjectRecord}
    (hr : p.content? p.record = some (.project r)) {o : Object} (ho : o ∈ p.objectsAt r.targets) :
    ∃ t, o.content = .target t := by
  obtain ⟨ref, href, hfound⟩ := mem_objectsAt.1 ho
  obtain ⟨t, ht⟩ := hp.target_of_mem hr href
  rw [content?_of_find? hfound] at ht
  exact ⟨t, Option.some.inj ht⟩

end Project

namespace Generator

variable [IdScheme] {p : Project}

/-- The check of a project reads its snapshot, and leaves the project as it is. -/
theorem checkProject_eq (hp : p.WellFormed) {r : ProjectRecord}
    (hr : p.content? p.record = some (.project r)) :
    checkProject p =
      match (p.snapshotOf r).check with
      | .ok () => .ok () p
      | .error e => .error e p := by
  rw [checkProject, bind_of_ok (Project.snapshot_eq hp hr)]
  cases (p.snapshotOf r).check <;> rfl

theorem checkProject_cases (hp : p.WellFormed) :
    checkProject p = .ok () p ∨ ∃ e, checkProject p = .error e p ∧ e.IsCheck := by
  obtain ⟨r, hr⟩ := hp.record
  rw [checkProject_eq hp hr]
  cases hcheck : (p.snapshotOf r).check with
  | ok => exact .inl rfl
  | error e =>
    exact .inr ⟨e, rfl, Snapshot.isCheck_of_check (fun _ => p.mem_nativeTargets hp hr) hcheck⟩

end Generator
end ProjectGraph
