import Mathlib.Data.List.Count
import ProjectGraph.Proofs.Operations.Phases
import ProjectGraph.Proofs.Operations.Settings
import ProjectGraph.Proofs.Ownership.Invariant

/-! # What is there only once

From the ownership of objects and from their ids follows that targets have different names, and that a
target has one phase in a place and a phase one build file for a file. -/

namespace ProjectGraph.Project

variable [IdScheme] {p : Project} {i j t t' : ObjectId} {kind : LinkKind} {c : Content}

/-- Contents with one key are one. -/
theorem WellFormed.eq_of_key_eq (hp : p.WellFormed) {d : Content} (hc : p.content? i = some c)
    (hd : p.content? j = some d) (h : c.key = d.key) : i = j := by
  have hids : c.id = d.id := congrArg IdScheme.ofKey h
  exact (hp.id_eq i c hc).trans (hids.trans (hp.id_eq j d hd).symm)

/-- Targets with one name are one. -/
theorem WellFormed.target_unique (hp : p.WellFormed) {a b : NativeTarget}
    (ha : p.content? t = some (.target a)) (hb : p.content? t' = some (.target b))
    (h : a.name = b.name) : t = t' := by
  apply hp.eq_of_key_eq ha hb
  exact congrArg ("PBXNativeTarget:" ++ ·) h

namespace Owned

theorem ne_mainGroup (hp : p.WellFormed) (hc : p.content? i = some c) (h : c.home? ≠ some .child) :
    i ≠ p.mainGroup := by
  rintro rfl
  obtain ⟨g, hg⟩ := hp.mainGroup
  rw [hc] at hg
  cases hg
  exact h rfl

omit [IdScheme] in
theorem isOwning_of_home? (h : c.home? = some kind) : kind.isOwning := by
  cases c <;> cases h <;> rfl

omit [IdScheme] in
/-- An owned content is linked from its owner, once. -/
theorem count_linked (ho : p.Owned) (hc : p.content? i = some c) (hkind : c.home? = some kind)
    (hi : i ≠ p.mainGroup) : (p.linked kind).count i = 1 :=
  List.count_eq_one_of_mem (ho.nodup kind (isOwning_of_home? hkind)) (ho.listed i c kind hc hkind hi)

theorem exists_owner (hp : p.WellFormed) (ho : p.Owned) (hc : p.content? i = some c)
    (hkind : c.home? = some kind) (hi : i ≠ p.mainGroup) :
    ∃ j d, p.content? j = some d ∧ i ∈ d.linkedIds kind :=
  (mem_linked hp.nodup_ids).1 (ho.listed i c kind hc hkind hi)

/-! ## Targets -/

/-- The project lists each of its targets. -/
theorem mem_targets (hp : p.WellFormed) (ho : p.Owned) {r : ProjectRecord} {a : NativeTarget}
    (hr : p.content? p.record = some (.project r)) (ha : p.content? t = some (.target a)) :
    t ∈ r.targets.map Reference.id := by
  obtain ⟨j, d, hd, hlink⟩ := ho.exists_owner hp ha rfl (ne_mainGroup hp ha (by simp [Content.home?]))
  obtain ⟨b, rfl, hmem⟩ := Content.mem_linkedIds_targets.1 hlink
  rw [ho.record j b hd, hr] at hd
  cases hd
  exact hmem

theorem count_targets (hp : p.WellFormed) (ho : p.Owned) {r : ProjectRecord} {a : NativeTarget}
    (hr : p.content? p.record = some (.project r)) (ha : p.content? t = some (.target a)) :
    (r.targets.map Reference.id).count t = 1 := by
  have hnodup := nodup_linkedIds (ho.nodup .target rfl) hr
  simp only [Content.linkedIds_project, reduceCtorEq, if_false, if_true, List.nil_append] at hnodup
  exact List.count_eq_one_of_mem hnodup (ho.mem_targets hp hr ha)

/-! ## Phases and build files -/

/-- The target that a phase belongs to lists it. -/
theorem exists_target_of_phase (hp : p.WellFormed) (ho : p.Owned) {q : BuildPhase}
    (hq : p.content? i = some (.phase q)) :
    ∃ t a, p.content? t = some (.target a) ∧ i ∈ a.buildPhases.map Reference.id ∧
      a.name = q.target := by
  obtain ⟨t, d, hd, hlink⟩ := ho.exists_owner hp hq rfl (ne_mainGroup hp hq (by simp [Content.home?]))
  obtain ⟨a, rfl, hmem⟩ := Content.mem_linkedIds_buildPhase.1 hlink
  obtain ⟨r, hr, rfl⟩ := List.mem_map.1 hmem
  exact ⟨t, a, hd, hmem, (hp.phases t a hd r hr q hq).symm⟩

/-- A phase with the name of a target is the one of the target in its place. -/
theorem phaseIn (hp : p.WellFormed) (ho : p.Owned) {a : NativeTarget} {q : BuildPhase}
    (ha : p.content? t = some (.target a)) (hq : p.content? i = some (.phase q))
    (hname : q.target = a.name) : p.PhaseIn t q.role.place ⟨i, q⟩ := by
  obtain ⟨u, b, hb, hmem, hsame⟩ := ho.exists_target_of_phase hp hq
  obtain rfl := hp.target_unique hb ha (hsame.trans hname)
  rw [ha] at hb
  cases hb
  obtain ⟨r, hr, rfl⟩ := List.mem_map.1 hmem
  obtain ⟨x, hx⟩ := first_of_mem hr hq (Content.phaseAt?_eq_some.2 ⟨rfl, rfl⟩)
  have hin : p.PhaseIn u q.role.place x := ⟨a, ha, hx⟩
  obtain ⟨hphase, hplace⟩ := hin.content?
  have hid : r.id = x.id := by
    apply hp.eq_of_key_eq hq hphase
    show q.key = x.content.key
    rw [BuildPhase.key_eq_placeKey, BuildPhase.key_eq_placeKey, hplace, hin.target hp ha, hname]
  rw [← hid, hq] at hphase
  obtain ⟨j, y⟩ := x
  cases hid
  cases hphase
  exact hin

/-- A target has one phase in a place. -/
theorem pairwise_places (hp : p.WellFormed) (ho : p.Owned) {a : NativeTarget}
    (ha : p.content? t = some (.target a)) :
    a.buildPhases.Pairwise fun r r' => ∀ q q', p.content? r.id = some (.phase q) →
      p.content? r'.id = some (.phase q') → q.role.place ≠ q'.role.place := by
  have hnodup := nodup_linkedIds (ho.nodup .buildPhase rfl) ha
  simp only [Content.linkedIds_target, reduceCtorEq, if_false, if_true, List.append_nil,
    List.Nodup, List.pairwise_map] at hnodup
  refine hnodup.imp_of_mem fun {r r'} hr hr' hne q q' hq hq' hplace => hne ?_
  -- Both phases have the name of the target in their keys.
  apply hp.eq_of_key_eq hq hq'
  show q.key = q'.key
  rw [BuildPhase.key_eq_placeKey, BuildPhase.key_eq_placeKey, hplace,
    hp.phases t a ha r hr q hq, hp.phases t a ha r' hr' q' hq']

/-- A phase has one build file for a file. -/
theorem pairwise_files (hp : p.WellFormed) (ho : p.Owned) {q : BuildPhase}
    (hq : p.content? i = some (.phase q)) :
    q.files.Pairwise fun r r' => ∀ f f', p.content? r.id = some (.buildFile f) →
      p.content? r'.id = some (.buildFile f') → f.file.id ≠ f'.file.id := by
  have hnodup := nodup_linkedIds (ho.nodup .phaseFile rfl) hq
  simp only [Content.linkedIds_phase, if_true, List.Nodup, List.pairwise_map] at hnodup
  refine hnodup.imp_of_mem fun {r r'} hr hr' hne f f' hf hf' hfile => hne ?_
  obtain ⟨htarget, hplace⟩ := hp.buildFiles i q hq r hr f hf
  obtain ⟨htarget', hplace'⟩ := hp.buildFiles i q hq r' hr' f' hf'
  rw [hplace] at hplace'
  apply hp.eq_of_key_eq hf hf'
  show f.key = f'.key
  unfold BuildFile.key
  rw [hfile, htarget, htarget', Sum.inl.inj hplace']

/-! ## Configurations -/

/-- No two targets have one list of configurations. -/
theorem list_unique (hp : p.WellFormed) (ho : p.Owned) {a b : NativeTarget} {r r' : Reference}
    (ha : p.content? t = some (.target a)) (hb : p.content? t' = some (.target b))
    (hr : a.configurationList = some r) (hr' : b.configurationList = some r') (h : r.id = r'.id) :
    t = t' := by
  refine linked_unique hp (ho.nodup .configurationList rfl) ha hb (i := r.id) ?_ ?_
  · simp [hr]
  · simp [hr', h]

/-- No two targets list one configuration. -/
theorem configures_unique (hp : p.WellFormed) (ho : p.Owned) (h : p.Configures t i)
    (h' : p.Configures t' i) : t = t' := by
  obtain ⟨a, r, l, ha, hr, hl, hi⟩ := h.exists_list
  obtain ⟨a', r', l', ha', hr', hl', hi'⟩ := h'.exists_list
  refine ho.list_unique hp ha ha' hr hr' ?_
  exact linked_unique hp (ho.nodup .configuration rfl) hl hl'
    (Content.mem_linkedIds_configuration.2 ⟨l, rfl, hi⟩)
    (Content.mem_linkedIds_configuration.2 ⟨l', rfl, hi'⟩)

end Owned
end ProjectGraph.Project
