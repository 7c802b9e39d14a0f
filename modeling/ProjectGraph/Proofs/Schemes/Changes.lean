import ProjectGraph.Proofs.Registry.Step

/-! # Changing a scheme twice

Making the same changes to a scheme once more leaves it as it is, also where a later change replaces
what an earlier one has set. -/

namespace ProjectGraph

namespace Scheme

/-- The scheme builds the target. -/
def Builds (s : Scheme) (t : ObjectId) : Prop := ∃ e ∈ s.buildEntries, e.target = t

variable {s : Scheme} {t : ObjectId}

theorem addBuildEntry_of_builds {r : BuildableReference} (h : s.Builds r.target) :
    s.addBuildEntry r = s := by
  obtain ⟨e, he, htarget⟩ := h
  rw [addBuildEntry, if_neg]
  intro hall
  have hne := List.all_eq_true.1 hall e he
  exact absurd htarget (by simpa using hne)

theorem builds_addBuildEntry (s : Scheme) (r : BuildableReference) :
    (s.addBuildEntry r).Builds r.target := by
  unfold addBuildEntry
  split
  · exact ⟨r, by simp, rfl⟩
  · next hall =>
    simp only [List.all_eq_true, decide_eq_true_eq, not_forall, Decidable.not_not] at hall
    obtain ⟨e, he, htarget⟩ := hall
    exact ⟨e, he, htarget⟩

theorem Builds.addBuildEntry (h : s.Builds t) (r : BuildableReference) :
    (s.addBuildEntry r).Builds t := by
  obtain ⟨e, he, htarget⟩ := h
  refine ⟨e, ?_, htarget⟩
  unfold Scheme.addBuildEntry
  split
  · exact List.mem_append_left _ he
  · exact he

theorem addBuildEntry_eq (s : Scheme) (r : BuildableReference) :
    ∃ entries, s.addBuildEntry r = { s with buildEntries := entries } := by
  unfold Scheme.addBuildEntry
  split
  · exact ⟨_, rfl⟩
  · exact ⟨_, rfl⟩

theorem foldl_addBuildEntry_eq (refs : List BuildableReference) (s : Scheme) :
    ∃ entries, refs.foldl addBuildEntry s = { s with buildEntries := entries } := by
  induction refs generalizing s with
  | nil => exact ⟨_, rfl⟩
  | cons r refs ih =>
    obtain ⟨entries, hentries⟩ := addBuildEntry_eq s r
    obtain ⟨entries', hentries'⟩ := ih { s with buildEntries := entries }
    exact ⟨entries', by rw [List.foldl_cons, hentries, hentries']⟩

theorem Builds.foldl (h : s.Builds t) (refs : List BuildableReference) :
    (refs.foldl Scheme.addBuildEntry s).Builds t := by
  induction refs generalizing s with
  | nil => exact h
  | cons r refs ih => exact ih (h.addBuildEntry r)

theorem builds_foldl {refs : List BuildableReference} {r : BuildableReference} (hr : r ∈ refs) :
    (refs.foldl addBuildEntry s).Builds r.target := by
  induction refs generalizing s with
  | nil => cases hr
  | cons r' refs ih =>
    rcases List.mem_cons.1 hr with rfl | hr
    · exact (builds_addBuildEntry s r).foldl refs
    · exact ih hr

theorem foldl_of_builds {refs : List BuildableReference} (h : ∀ r ∈ refs, s.Builds r.target) :
    refs.foldl addBuildEntry s = s := by
  induction refs with
  | nil => rfl
  | cons r refs ih =>
    rw [List.foldl_cons, addBuildEntry_of_builds (h r (by simp))]
    exact ih fun r' hr => h r' (List.mem_cons_of_mem r hr)

theorem mem_of_mem_foldl_addBuildEntry {refs : List BuildableReference} {e : BuildableReference}
    (h : e ∈ (refs.foldl addBuildEntry s).buildEntries) : e ∈ s.buildEntries ∨ e ∈ refs := by
  induction refs generalizing s with
  | nil => exact .inl h
  | cons r refs ih =>
    rcases ih h with h | h
    · unfold addBuildEntry at h
      split at h
      · rcases List.mem_append.1 h with h | h
        · exact .inl h
        · exact .inr (by simp [List.mem_singleton.1 h])
      · exact .inl h
    · exact .inr (List.mem_cons_of_mem r h)

/-- What a scheme refers to: it builds or tests it. -/
def entries (s : Scheme) : List BuildableReference := s.buildEntries ++ s.testables

/-- A change of a scheme only has it refer to what it is to test. -/
theorem mem_entries_apply {c : SchemeChange} {e : BuildableReference} (h : e ∈ (c.apply s).entries) :
    e ∈ s.entries ∨ ∃ refs codeCoverage, c = .testables refs codeCoverage ∧ e ∈ refs := by
  cases c with
  | launchArguments | environmentVariables => exact .inl h
  | testables refs codeCoverage =>
    obtain ⟨entries, heq⟩ :=
      foldl_addBuildEntry_eq refs { s with testables := refs, codeCoverage := codeCoverage }
    rcases List.mem_append.1 h with h | h
    · rcases mem_of_mem_foldl_addBuildEntry (s :=
        { s with testables := refs, codeCoverage := codeCoverage }) h with h | h
      · exact .inl (List.mem_append_left _ h)
      · exact .inr ⟨refs, codeCoverage, rfl, h⟩
    · change e ∈ (refs.foldl addBuildEntry
        { s with testables := refs, codeCoverage := codeCoverage }).testables at h
      rw [heq] at h
      exact .inr ⟨refs, codeCoverage, rfl, h⟩

end Scheme

namespace SchemeChange

variable {s : Scheme} {t : ObjectId} {c : SchemeChange} {cs : List SchemeChange}

/-! What a change sets, if it sets it. -/

def arguments? : SchemeChange → Option (List LaunchArgument)
  | launchArguments arguments => some arguments
  | _ => none

def environment? : SchemeChange → Option (List EnvironmentVariable)
  | environmentVariables environment => some environment
  | _ => none

def tests? : SchemeChange → Option (List BuildableReference × Bool)
  | testables entries codeCoverage => some (entries, codeCoverage)
  | _ => none

/-- The scheme with all these changes, one after the other. -/
def applyAll (s : Scheme) (cs : List SchemeChange) : Scheme := cs.foldl apply s

theorem apply_eq (s : Scheme) (c : SchemeChange) :
    ∃ entries, c.apply s =
      { name := s.name
        configuration := s.configuration
        buildEntries := entries
        launchArguments := c.arguments?.getD s.launchArguments
        environmentVariables := c.environment?.getD s.environmentVariables
        testables := (c.tests?.getD (s.testables, s.codeCoverage)).1
        codeCoverage := (c.tests?.getD (s.testables, s.codeCoverage)).2 } := by
  cases c with
  | launchArguments | environmentVariables => exact ⟨_, rfl⟩
  | testables refs codeCoverage =>
    exact Scheme.foldl_addBuildEntry_eq refs
      { s with testables := refs, codeCoverage := codeCoverage }

/-- The last of the values, or the first one if none is given. -/
def last {γ α : Type} (f : γ → Option α) (a : α) (cs : List γ) : α :=
  cs.foldl (fun a c => (f c).getD a) a

theorem last_eq_of_none {γ α : Type} {f : γ → Option α} {cs : List γ} (h : ∀ c ∈ cs, f c = none)
    (a : α) : last f a cs = a := by
  induction cs with
  | nil => rfl
  | cons c cs ih =>
    rw [last, List.foldl_cons, h c (by simp)]
    exact ih fun c' hc' => h c' (List.mem_cons_of_mem c hc')

theorem last_last {γ α : Type} (f : γ → Option α) (a : α) (cs : List γ) :
    last f (last f a cs) cs = last f a cs := by
  have hcases : (∀ a, last f a cs = a) ∨ ∃ k, ∀ a, last f a cs = k := by
    induction cs with
    | nil => exact .inl fun _ => rfl
    | cons c cs ih =>
      cases hc : f c with
      | none => simpa [last, hc] using ih
      | some b => exact .inr ⟨last f b cs, fun a => by simp [last, hc]⟩
  rcases hcases with h | ⟨k, hk⟩
  · exact h _
  · rw [hk, hk]

theorem applyAll_eq (s : Scheme) (cs : List SchemeChange) :
    ∃ entries, applyAll s cs =
      { name := s.name
        configuration := s.configuration
        buildEntries := entries
        launchArguments := last arguments? s.launchArguments cs
        environmentVariables := last environment? s.environmentVariables cs
        testables := (last tests? (s.testables, s.codeCoverage) cs).1
        codeCoverage := (last tests? (s.testables, s.codeCoverage) cs).2 } := by
  induction cs generalizing s with
  | nil => exact ⟨_, rfl⟩
  | cons c cs ih =>
    obtain ⟨entries, hc⟩ := apply_eq s c
    obtain ⟨entries', hcs⟩ := ih (c.apply s)
    refine ⟨entries', ?_⟩
    rw [applyAll, List.foldl_cons]
    rw [applyAll] at hcs
    rw [hcs, hc]
    rfl

theorem name_applyAll (s : Scheme) (cs : List SchemeChange) : (applyAll s cs).name = s.name := by
  obtain ⟨entries, h⟩ := applyAll_eq s cs
  rw [h]

theorem builds_apply (h : s.Builds t) (c : SchemeChange) : (c.apply s).Builds t := by
  cases c with
  | launchArguments | environmentVariables => exact h
  | testables refs codeCoverage =>
    have h' : Scheme.Builds { s with testables := refs, codeCoverage := codeCoverage } t := h
    exact h'.foldl refs

theorem builds_applyAll_of_builds (h : s.Builds t) (cs : List SchemeChange) :
    (applyAll s cs).Builds t := by
  induction cs generalizing s with
  | nil => exact h
  | cons c cs ih => exact ih (builds_apply h c)

/-- A scheme builds what it has been changed to test. -/
theorem builds_applyAll {refs : List BuildableReference} {codeCoverage : Bool}
    (hc : .testables refs codeCoverage ∈ cs) {r : BuildableReference} (hr : r ∈ refs) :
    (applyAll s cs).Builds r.target := by
  induction cs generalizing s with
  | nil => cases hc
  | cons c cs ih =>
    rcases List.mem_cons.1 hc with rfl | hc
    · exact builds_applyAll_of_builds (Scheme.builds_foldl hr) cs
    · exact ih hc

/-- Changes add nothing to a scheme that builds all it is to test. -/
theorem buildEntries_applyAll
    (h : ∀ refs codeCoverage, .testables refs codeCoverage ∈ cs → ∀ r ∈ refs, s.Builds r.target) :
    (applyAll s cs).buildEntries = s.buildEntries := by
  induction cs generalizing s with
  | nil => rfl
  | cons c cs ih =>
    have hfirst : (c.apply s).buildEntries = s.buildEntries := by
      cases c with
      | launchArguments | environmentVariables => rfl
      | testables refs codeCoverage =>
        have hbuilds : ∀ r ∈ refs, Scheme.Builds
            { s with testables := refs, codeCoverage := codeCoverage } r.target := fun r hr =>
          h refs codeCoverage (by simp) r hr
        show (refs.foldl Scheme.addBuildEntry
          { s with testables := refs, codeCoverage := codeCoverage }).buildEntries = _
        rw [Scheme.foldl_of_builds hbuilds]
    rw [← hfirst]
    exact ih fun refs codeCoverage hc r hr =>
      builds_apply (h refs codeCoverage (List.mem_cons_of_mem c hc) r hr) c

/-- Making the same changes once more changes nothing. -/
theorem applyAll_applyAll (s : Scheme) (cs : List SchemeChange) :
    applyAll (applyAll s cs) cs = applyAll s cs := by
  obtain ⟨entries, h⟩ := applyAll_eq s cs
  obtain ⟨entries', h'⟩ := applyAll_eq (applyAll s cs) cs
  have hentries : entries' = entries := by
    have hsame : (applyAll (applyAll s cs) cs).buildEntries = (applyAll s cs).buildEntries :=
      buildEntries_applyAll fun refs codeCoverage hc r hr => builds_applyAll hc hr
    rw [h', h] at hsame
    exact hsame
  rw [h', h]
  simp only [last_last, hentries, Prod.eta]

end SchemeChange
end ProjectGraph
