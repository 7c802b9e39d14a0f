import ProjectGraph.Build.TargetBuild
import ProjectGraph.Proofs.Operations.Performs
import ProjectGraph.Proofs.Registry.Reading

/-! # Making targets and their configurations -/

namespace ProjectGraph.Project

variable [IdScheme] {p q : Project} {t : ObjectId} {name : String}

/-! ## Targets -/

/-- The project lists a target of this name, the first one of which has this id. -/
def HasTarget (p : Project) (name : String) (t : ObjectId) : Prop :=
  ∃ a x, p.content? p.record = some (.project a) ∧
    p.first (Content.targetNamed? name) a.targets = some x ∧ x.id = t

omit [IdScheme] in
theorem HasTarget.exists_target (h : p.HasTarget name t) :
    ∃ a, p.content? t = some (.target a) ∧ a.name = name := by
  obtain ⟨a, x, -, hx, rfl⟩ := h
  obtain ⟨r, -, hid, c, hc, hview⟩ := exists_of_first hx
  obtain ⟨rfl, hname⟩ := Content.targetNamed?_eq_some.1 hview
  exact ⟨x.content, hid ▸ hc, hname⟩

theorem HasTarget.grows (hp : p.WellFormed) (h : p.HasTarget name t) (hpq : p.Grows q) :
    q.HasTarget name t := by
  obtain ⟨a, x, ha, hx, rfl⟩ := h
  obtain ⟨b, hb, hbegins⟩ := hpq.projectRecord ha
  obtain ⟨y, hy, hid⟩ := first_of_grows (Content.stableView_targetNamed? name) hpq
    (hp.isSome_of_targets ha) hbegins hx
  exact ⟨b, y, hb, hy, hid⟩

/-- A target that is there is returned as it is. -/
theorem newNativeTarget_of_hasTarget (hp : p.WellFormed) (h : p.HasTarget name t)
    (kind : TargetKind) : newNativeTarget name kind p = .ok t p := by
  obtain ⟨a, x, ha, hx, rfl⟩ := h
  rw [newNativeTarget, bind_of_ok (targetNamed?_eq hp ha name), hx]
  rfl

omit [IdScheme] in
theorem first_targetNamed?_eq_none {a : ProjectRecord}
    (hnew : ∀ t b, p.content? t = some (.target b) → b.name ≠ name) :
    p.first (Content.targetNamed? name) a.targets = none := by
  refine first_eq_none_iff.2 fun r _ c hc => ?_
  cases c with
  | target b => simp [Content.targetNamed?, Content.target?, hnew r.id b hc]
  | _ => rfl

omit [IdScheme] in
/-- A target can be registered if there is none of its name. -/
theorem due_target {a : ProjectRecord} (ha : p.content? p.record = some (.project a))
    (hfirst : p.first (Content.targetNamed? name) a.targets = none) (kind : TargetKind) :
    (Step.attach p.record (.target name kind)).Due p := by
  refine .target rfl ha fun r hr t ht hname => ?_
  have hview := first_eq_none_iff.1 hfirst r hr _ ht
  rw [Content.targetNamed?_eq_some.2 ⟨rfl, hname⟩] at hview
  cases hview

theorem performs_newNativeTarget (hp : p.WellFormed) (name : String) (kind : TargetKind) :
    Edit.Performs (fun _ s => s = .attach p.record (.target name kind)) (newNativeTarget name kind) p
      fun t q => q.HasTarget name t := by
  obtain ⟨a, ha⟩ := hp.record
  refine .bind_read (targetNamed?_eq hp ha name) ?_
  cases hfirst : p.first (Content.targetNamed? name) a.targets with
  | some x => exact .of_ok rfl ⟨a, x, ha, hfirst, rfl⟩
  | none =>
    have hdue := due_target ha hfirst kind
    refine Edit.performs_register hdue rfl rfl rfl fun hfresh => ?_
    have hnew := first_attached hp hdue hfresh (Content.stableView_targetNamed? name)
      (hp.isSome_of_targets ha) hfirst (Content.targetNamed?_eq_some.2 ⟨rfl, rfl⟩)
    refine ⟨{ a with targets := a.targets ++ [Part.reference (.target name kind)] }, _, ?_, hnew, rfl⟩
    show (Step.apply _ p).content? p.record = _
    rw [Step.content?_apply_of_some ha]
    simp [Step.reviseContent, Content.append, Part.home]

end ProjectGraph.Project
