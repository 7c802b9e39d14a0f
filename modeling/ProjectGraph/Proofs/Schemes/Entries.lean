import ProjectGraph.Proofs.Registry.Path
import ProjectGraph.Proofs.Schemes.Changes

/-! # What schemes mention

Schemes mention targets as what they build and what they test. The steps on schemes add to this, and
take away from it, but never change what is mentioned. -/

namespace ProjectGraph

variable {name : String} {r : BuildableReference}

/-- A scheme of the name mentions this. -/
def Project.Mentions (p : Project) (name : String) (r : BuildableReference) : Prop :=
  ∃ s ∈ p.schemes, s.name = name ∧ r ∈ s.entries

/-- The step has schemes of the name mention this. -/
def Step.Mentions (s : Step) (name : String) (r : BuildableReference) : Prop :=
  (∃ new, s = .scheme new ∧ new.name = name ∧ r ∈ new.entries) ∨
    ∃ refs codeCoverage, s = .schemeChange name (.testables refs codeCoverage) ∧ r ∈ refs

/-- The entry names the target that is registered under its id. -/
def Project.Refers (p : Project) (e : BuildableReference) : Prop :=
  ∃ a, p.content? e.target = some (.target a) ∧ a.name = e.targetName

/-- A scheme that the step makes builds what it is named after, and nothing else. -/
def Step.Founding (s : Step) : Prop :=
  ∀ new, s = .scheme new →
    ∃ e, new.buildEntries = [e] ∧ new.testables = [] ∧ e.targetName = new.name

/-- The step has schemes mention registered targets only, each new scheme the one it is named after. -/
structure Step.Arranging (q : Project) (s : Step) : Prop where
  founding : s.Founding
  refers : ∀ n e, s.Mentions n e → q.Refers e

/-- The step makes or changes schemes. -/
def Step.onSchemes : Step → Bool
  | scheme _ | schemeChange .. => true
  | _ => false

theorem Step.arranging_of_not_onSchemes {q : Project} {s : Step} (h : s.onSchemes = false) :
    s.Arranging q where
  founding := by
    rintro new rfl
    cases h
  refers := by
    rintro n e (⟨new, rfl, -⟩ | ⟨refs, codeCoverage, rfl, -⟩) <;> cases h

theorem SchemeChange.name_apply (c : SchemeChange) (s : Scheme) : (c.apply s).name = s.name :=
  name_applyAll s [c]

variable [IdScheme] {p q : Project} {s : Step}

/-- What is mentioned after a step was mentioned before, or the step has it mentioned. -/
theorem Step.mentions_apply (h : (s.apply p).Mentions name r) : p.Mentions name r ∨ s.Mentions name r := by
  obtain ⟨t, ht, rfl, hr⟩ := h
  cases s with
  | scheme new =>
    rcases List.mem_append.1 ht with hold | hnew
    · exact .inl ⟨t, hold, rfl, hr⟩
    · rw [List.mem_singleton.1 hnew] at hr ⊢
      exact .inr (.inl ⟨new, rfl, rfl, hr⟩)
  | schemeChange n c =>
    obtain ⟨t₀, ht₀, rfl⟩ := List.mem_map.1 ht
    by_cases hname : t₀.name = n
    · simp only [if_pos hname] at hr ⊢
      rw [SchemeChange.name_apply]
      rcases Scheme.mem_entries_apply hr with hold | ⟨refs, codeCoverage, rfl, hnew⟩
      · exact .inl ⟨t₀, ht₀, rfl, hold⟩
      · exact .inr (.inr ⟨refs, codeCoverage, by rw [hname], hnew⟩)
    · simp only [if_neg hname] at hr ⊢
      exact .inl ⟨t₀, ht₀, rfl, hr⟩
  | _ => exact .inl ⟨t, ht, rfl, hr⟩

/-- What is mentioned at the end of a path was mentioned before, or a step on it has it mentioned. -/
theorem Path.mentions {A : Project → Step → Prop} (hpq : Path A p q) (h : q.Mentions name r) :
    p.Mentions name r ∨ ∃ q' s, Path A p q' ∧ Path A q' q ∧ A q' s ∧ s.Mentions name r := by
  induction hpq with
  | refl => exact .inl h
  | @step q' s path due fresh allowed ih =>
    have hlast : Path A q' (s.apply q') := .single due fresh allowed
    rcases Step.mentions_apply h with hold | hnew
    · refine (ih hold).imp_right ?_
      rintro ⟨q₀, s₀, hfirst, hrest, hs⟩
      exact ⟨q₀, s₀, hfirst, hrest.trans hlast, hs⟩
    · exact .inr ⟨q', s, path, hlast, allowed, hnew⟩

/-- Steps that neither make nor change schemes of the name leave these as they are. -/
theorem Path.mem_schemes_iff {A : Project → Step → Prop} (hpq : Path A p q)
    (hnew : ∀ q' new, A q' (.scheme new) → new.name ≠ name)
    (hchange : ∀ q' n c, A q' (.schemeChange n c) → n ≠ name) {t : Scheme} (ht : t.name = name) :
    t ∈ q.schemes ↔ t ∈ p.schemes := by
  induction hpq with
  | refl => rfl
  | @step q' s path due fresh allowed ih =>
    rw [← ih]
    cases s with
    | scheme new =>
      have hne : t ≠ new := by
        rintro rfl
        exact hnew q' t allowed ht
      simp [Step.apply, hne]
    | schemeChange n c =>
      have hne := hchange q' n c allowed
      show t ∈ q'.schemes.map _ ↔ _
      rw [List.mem_map]
      constructor
      · rintro ⟨t₀, ht₀, rfl⟩
        by_cases hname : t₀.name = n
        · rw [if_pos hname, SchemeChange.name_apply] at ht
          exact absurd (hname.symm.trans ht) hne
        · rwa [if_neg hname]
      · intro hmem
        refine ⟨t, hmem, if_neg ?_⟩
        rw [ht]
        exact hne.symm
    | _ => exact .rfl

end ProjectGraph
