import ProjectGraph.Proofs.Registry.Reading

/-! # What build files and script phases tell of a target

A build file tells by its own fields which target it belongs to and which phase it stands in, and so
does a phase that runs a script. What they tell changes in two kinds of steps only. -/

namespace ProjectGraph

namespace Project

variable {p q : Project} {name slot : String} {kind : PhaseKind} {file : ObjectId} {script : Script}

/-- A build file puts the file into the phase of this kind of a target of this name. -/
def Joins (p : Project) (name : String) (kind : PhaseKind) (file : ObjectId) : Prop :=
  ∃ i f, p.content? i = some (.buildFile f) ∧ f.target = name ∧ f.phase = kind ∧ f.file.id = file

/-- A phase of a target of this name runs the script in the slot. -/
def Scripted (p : Project) (name slot : String) (script : Script) : Prop :=
  ∃ i q, p.content? i = some (.phase q) ∧ q.target = name ∧ q.role = .script slot script

theorem Joins.grows (h : p.Joins name kind file) (hpq : p.Grows q) : q.Joins name kind file := by
  obtain ⟨i, f, hf, hrest⟩ := h
  exact ⟨i, f, hpq.buildFile hf, hrest⟩

/-- What a build file leads to is a file. -/
theorem Joins.exists_file [IdScheme] (hp : p.WellFormed) (h : p.Joins name kind file) :
    ∃ g, p.content? file = some (.file g) := by
  obtain ⟨i, f, hf, -, -, rfl⟩ := h
  exact hp.file_of_buildFile hf

end Project

namespace Step

variable [IdScheme] {p : Project} {s : Step} {name slot : String} {kind : PhaseKind}
  {file : ObjectId} {script : Script}

/-- The step puts the file into a phase of this kind of a target of this name. -/
def Files (s : Step) (name : String) (kind : PhaseKind) (file : ObjectId) : Prop :=
  ∃ i f, s = .attach i (.buildFile f) ∧ f.target = name ∧ f.phase = kind ∧ f.file.id = file

theorem joins_apply (hp : p.WellFormed) (hd : s.Due p) (hf : s.Fresh p)
    (h : (s.apply p).Joins name kind file) : p.Joins name kind file ∨ s.Files name kind file := by
  obtain ⟨i, f, hi, hrest⟩ := h
  rcases content?_apply_grows hp hd hf hi with ⟨c, hc, hgrow⟩ | ⟨hnew, -⟩
  · cases hgrow
    exact .inl ⟨i, f, hc, hrest⟩
  · cases hd with
    | buildFile =>
      cases hnew
      exact .inr ⟨_, f, rfl, hrest⟩
    | _ => cases hnew

/-- The step gives the slot of a target of this name a script. -/
def Sets (p : Project) (s : Step) (name slot : String) : Prop :=
  (∃ i new, s = .attach i (.phase name (.script slot new))) ∨
    ∃ t a i new, s = .script t i slot new ∧ p.content? t = some (.target a) ∧ a.name = name

/-- The step leaves the phases of a target's slot as they are, unless it sets their script. -/
theorem reviseContent_phase {i : ObjectId} {a : BuildPhase} (hp : p.WellFormed) (hd : s.Due p)
    (ha : p.content? i = some (.phase a)) (hrole : a.role.place = .inr slot)
    (hs : ¬ s.Sets p a.target slot) :
    ∃ b, s.reviseContent i (.phase a) = .phase b ∧ b.target = a.target ∧ b.role = a.role := by
  cases s with
  | attach owner x =>
    simp only [reviseContent]
    split
    · cases x <;> exact ⟨_, rfl, rfl, rfl⟩
    · exact ⟨_, rfl, rfl, rfl⟩
  | script t j slot' new =>
    by_cases hij : i = j
    · subst hij
      cases hd with
      | @script _ b _ _ _ _ target listed phase place =>
        rw [ha] at phase
        cases phase
        rw [hrole] at place
        cases place
        obtain ⟨r, hr, hid⟩ := listed
        have howner := hp.phases t b target r hr a (hid ▸ ha)
        exact absurd (.inr ⟨t, b, i, new, rfl, target, howner.symm⟩) hs
    · exact ⟨a, if_neg hij, rfl, rfl⟩
  | configurationList | settings | product =>
    simp only [reviseContent]
    split <;> exact ⟨_, rfl, rfl, rfl⟩
  | configuration | scheme | schemeChange => exact ⟨_, rfl, rfl, rfl⟩

theorem scripted_apply (hp : p.WellFormed) (hd : s.Due p) (hf : s.Fresh p)
    (hs : ¬ s.Sets p name slot) :
    (s.apply p).Scripted name slot script ↔ p.Scripted name slot script := by
  constructor
  · rintro ⟨i, b, hb, rfl, hrole⟩
    rcases content?_apply_cases hb with ⟨c, hc, hrevised⟩ | ⟨c, hnew, rfl, hrevised⟩
    · have hgrow := grows_reviseContent hd hc
      rw [← hrevised] at hgrow
      cases hgrow with
      | @phase a _ htarget hplace =>
        have hslot : a.role.place = .inr slot := by rw [← hplace, hrole]; rfl
        rw [htarget] at hs
        obtain ⟨b', hb', htarget', hrole'⟩ := reviseContent_phase hp hd hc hslot hs
        rw [hb'] at hrevised
        cases hrevised
        exact ⟨i, a, hc, htarget'.symm, hrole'.symm.trans hrole⟩
    · rw [reviseContent_new hp hd hf hnew] at hrevised
      cases hd with
      | @phase j t role =>
        cases hnew
        cases hrevised
        obtain rfl : role = .script slot script := hrole
        exact absurd (.inl ⟨j, script, rfl⟩) hs
      | target | buildFile | group | source | product | configuration | configurationList =>
        cases hnew
        cases hrevised
      | _ => cases hnew
  · rintro ⟨i, a, ha, rfl, hrole⟩
    have hslot : a.role.place = .inr slot := by rw [hrole]; rfl
    obtain ⟨b, hb, htarget, hrole'⟩ := reviseContent_phase hp hd ha hslot hs
    exact ⟨i, b, by rw [content?_apply_of_some ha, hb], htarget, hrole'.trans hrole⟩

/-- The script that a step sets, with its slot. -/
def script? : Step → Option (String × Script)
  | attach _ (.phase _ (.script slot script)) => some (slot, script)
  | Step.script _ _ slot script => some (slot, script)
  | _ => none

/-- A step leaves the role of a phase, or sets the script of the phase. -/
theorem role_reviseContent {i : ObjectId} {a b : BuildPhase}
    (h : s.reviseContent i (.phase a) = .phase b) :
    b.role = a.role ∨ ∃ t slot new, s = .script t i slot new ∧ b.role = .script slot new := by
  cases s with
  | attach owner x =>
    simp only [reviseContent] at h
    split at h
    · cases x <;> cases h <;> exact .inl rfl
    · cases h
      exact .inl rfl
  | script t j slot new =>
    simp only [reviseContent] at h
    split at h
    · next hij =>
      cases h
      exact .inr ⟨t, slot, new, hij ▸ rfl, rfl⟩
    · cases h
      exact .inl rfl
  | configurationList | settings | product =>
    simp only [reviseContent] at h
    split at h <;> cases h <;> exact .inl rfl
  | configuration | scheme | schemeChange =>
    cases h
    exact .inl rfl

/-- A script after a step was there before, or the step has set it. -/
theorem scripted_apply_cases (hp : p.WellFormed) (hd : s.Due p) (hf : s.Fresh p)
    (h : (s.apply p).Scripted name slot script) :
    p.Scripted name slot script ∨ s.script? = some (slot, script) := by
  obtain ⟨i, b, hb, rfl, hrole⟩ := h
  rcases content?_apply_cases hb with ⟨c, hc, hrevised⟩ | ⟨c, hnew, rfl, hrevised⟩
  · have hgrow := grows_reviseContent hd hc
    rw [← hrevised] at hgrow
    cases hgrow with
    | @phase a _ htarget =>
      rcases role_reviseContent hrevised.symm with hsame | ⟨_, _, _, rfl, hnew⟩
      · exact .inl ⟨i, a, hc, htarget.symm, hsame.symm.trans hrole⟩
      · rw [hrole] at hnew
        cases hnew
        exact .inr rfl
  · rw [reviseContent_new hp hd hf hnew] at hrevised
    cases hd with
    | @phase j t role =>
      cases hnew
      cases hrevised
      obtain rfl : role = .script slot script := hrole
      exact .inr rfl
    | target | buildFile | group | source | product | configuration | configurationList =>
      cases hnew
      cases hrevised
    | _ => cases hnew

end Step

namespace Path

variable [IdScheme] {A : Project → Step → Prop} {p q : Project} {name slot : String}
  {kind : PhaseKind} {file : ObjectId} {script : Script}

/-- A path on which no step puts the file into the phase leaves it where it is. -/
theorem joins_iff (hpq : Path A p q) (hp : p.WellFormed)
    (hA : ∀ r s, Path A p r → A r s → ¬ s.Files name kind file) :
    q.Joins name kind file ↔ p.Joins name kind file := by
  refine ⟨fun h => ?_, fun h => h.grows hpq.grows⟩
  induction hpq with
  | refl => exact h
  | step path due fresh allowed ih =>
    rcases Step.joins_apply (path.wellFormed hp) due fresh h with h | h
    · exact ih h
    · exact absurd h (hA _ _ path allowed)

/-- A path on which no step sets the slot leaves the script in it as it is. -/
theorem scripted_iff (hpq : Path A p q) (hp : p.WellFormed)
    (hA : ∀ r s, Path A p r → A r s → ¬ s.Sets r name slot) :
    q.Scripted name slot script ↔ p.Scripted name slot script := by
  induction hpq with
  | refl => exact .rfl
  | step path due fresh allowed ih =>
    exact (Step.scripted_apply (path.wellFormed hp) due fresh (hA _ _ path allowed)).trans ih

/-- On a path on which all scripts that are set for a slot are of a kind, a script in the slot was there
before, or it is of this kind. -/
theorem scripted_cases {P : Script → Prop} (hpq : Path A p q) (hp : p.WellFormed)
    (hA : ∀ r s script, A r s → s.script? = some (slot, script) → P script)
    (h : q.Scripted name slot script) : p.Scripted name slot script ∨ P script := by
  induction hpq with
  | refl => exact .inl h
  | step path due fresh allowed ih =>
    rcases Step.scripted_apply_cases (path.wellFormed hp) due fresh h with h | h
    · exact ih h
    · exact .inr (hA _ _ script allowed h)

end Path
end ProjectGraph
