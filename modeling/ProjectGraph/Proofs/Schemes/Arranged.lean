import ProjectGraph.Project.Schemes
import ProjectGraph.Proofs.Ownership.Unique
import ProjectGraph.Proofs.Schemes.Entries
import ProjectGraph.Proofs.Schemes.Growth

/-! # Schemes and their targets

Each scheme belongs to the target of its name: it builds this target first, it builds no target twice,
and it builds whatever it tests. What is tested can be replaced, but what is built for it stays. -/

namespace ProjectGraph

/-! ## Build entries -/

namespace Scheme

variable {s : Scheme} {refs : List BuildableReference}

/-- The targets that a scheme builds, in order. -/
def builtTargets (s : Scheme) : List ObjectId := s.buildEntries.map BuildableReference.target

theorem builds_iff {t : ObjectId} : s.Builds t ↔ t ∈ s.builtTargets := by
  simp [Builds, builtTargets]

theorem nodup_addBuildEntry (h : s.builtTargets.Nodup) (r : BuildableReference) :
    (s.addBuildEntry r).builtTargets.Nodup := by
  unfold addBuildEntry
  split
  · next hall =>
    have hnew : r.target ∉ s.builtTargets := by
      intro hmem
      obtain ⟨e, he, hsame⟩ := List.mem_map.1 hmem
      exact absurd hsame (by simpa using List.all_eq_true.1 hall e he)
    unfold builtTargets at *
    rw [List.map_append]
    exact List.nodup_append.2 ⟨h, List.nodup_singleton _, by simpa using hnew⟩
  · exact h

/-- The entries that are added count for the ones that come after them. -/
theorem nodup_foldl_addBuildEntry (h : s.builtTargets.Nodup) :
    (refs.foldl addBuildEntry s).builtTargets.Nodup := by
  induction refs generalizing s with
  | nil => exact h
  | cons r refs ih => exact ih (nodup_addBuildEntry h r)

end Scheme

/-! ## Arranged schemes -/

namespace Project

variable {p q : Project} {s : Scheme} {t : ObjectId} {name : String}

/-- The project lists a target of this name under the id. -/
def ListsTarget (p : Project) (t : ObjectId) (name : String) : Prop :=
  ∃ r a, p.content? p.record = some (.project r) ∧ t ∈ r.targets.map Reference.id ∧
    p.content? t = some (.target a) ∧ a.name = name

/-- The scheme belongs to the target of its name, and builds whatever it tests. -/
structure Arranges (p : Project) (s : Scheme) : Prop where
  /-- The first entry is the listed target of the scheme's name. -/
  first : ∃ e rest, s.buildEntries = e :: rest ∧ p.ListsTarget e.target s.name
  nodup : s.builtTargets.Nodup
  listed : ∀ t ∈ s.builtTargets, ∃ name, p.ListsTarget t name
  tested : ∀ e ∈ s.testables, e.target ∈ s.builtTargets

/-- All schemes belong to targets, each to another one. -/
structure SchemesArranged (p : Project) : Prop where
  names : (p.schemes.map Scheme.name).Nodup
  arranges : ∀ s ∈ p.schemes, p.Arranges s

theorem ListsTarget.grows (h : p.ListsTarget t name) (hpq : p.Grows q) : q.ListsTarget t name := by
  obtain ⟨r, a, hr, ht, ha, hname⟩ := h
  obtain ⟨r', hr', htargets⟩ := hpq.projectRecord hr
  obtain ⟨b, hb, hsame, -⟩ := hpq.target ha
  exact ⟨r', b, hr', (htargets.map Reference.id).subset ht, hb, hsame.trans hname⟩

theorem Arranges.grows (h : p.Arranges s) (hpq : p.Grows q) : q.Arranges s where
  first := by
    obtain ⟨e, rest, heq, hlists⟩ := h.first
    exact ⟨e, rest, heq, hlists.grows hpq⟩
  nodup := h.nodup
  listed t ht := (h.listed t ht).imp fun _ hlists => hlists.grows hpq
  tested := h.tested

theorem SchemesArranged.grows (h : p.SchemesArranged) (hpq : p.Grows q)
    (hschemes : q.schemes = p.schemes) : q.SchemesArranged where
  names := by
    rw [hschemes]
    exact h.names
  arranges s hs := by
    rw [hschemes] at hs
    exact (h.arranges s hs).grows hpq

/-- A scheme is found under its name. -/
theorem SchemesArranged.scheme?_eq (h : p.SchemesArranged) (hs : s ∈ p.schemes) :
    p.scheme? s.name = some s :=
  find?_of_nodup_map h.names hs

/-- Setting listed targets to be tested keeps a scheme in order, however often they are named. -/
theorem Arranges.apply (h : p.Arranges s) {c : SchemeChange}
    (hlisted : ∀ refs codeCoverage, c = .testables refs codeCoverage →
      ∀ e ∈ refs, ∃ name, p.ListsTarget e.target name) : p.Arranges (c.apply s) where
  first := by
    obtain ⟨e, rest, heq, hlists⟩ := h.first
    obtain ⟨added, hadded⟩ := (c.grows_apply s).buildEntries
    refine ⟨e, rest ++ added, ?_, ?_⟩
    · rw [← hadded, heq, List.cons_append]
    · rw [SchemeChange.name_apply]
      exact hlists
  nodup := by
    cases c with
    | launchArguments | environmentVariables => exact h.nodup
    | testables refs codeCoverage =>
      have hset : Scheme.builtTargets { s with testables := refs, codeCoverage := codeCoverage } =
          s.builtTargets := rfl
      exact Scheme.nodup_foldl_addBuildEntry (hset ▸ h.nodup)
  listed t ht := by
    cases c with
    | launchArguments | environmentVariables => exact h.listed t ht
    | testables refs codeCoverage =>
      obtain ⟨e, he, rfl⟩ := List.mem_map.1 ht
      rcases Scheme.mem_of_mem_foldl_addBuildEntry he with hold | hnew
      · exact h.listed e.target (List.mem_map_of_mem hold)
      · exact hlisted refs codeCoverage rfl e hnew
  tested e he := by
    cases c with
    | launchArguments | environmentVariables => exact h.tested e he
    | testables refs codeCoverage =>
      obtain ⟨entries, heq⟩ := Scheme.foldl_addBuildEntry_eq refs
        { s with testables := refs, codeCoverage := codeCoverage }
      change e ∈ (refs.foldl Scheme.addBuildEntry
        { s with testables := refs, codeCoverage := codeCoverage }).testables at he
      rw [heq] at he
      exact Scheme.builds_iff.1 (Scheme.builds_foldl he)

end Project

/-! ## Steps -/

section

variable [IdScheme] {p q : Project} {s : Step} {name : String}

theorem Project.listsTarget_of_refers (hp : p.WellFormed) (ho : p.Owned) {e : BuildableReference}
    (h : p.Refers e) : p.ListsTarget e.target e.targetName := by
  obtain ⟨a, ha, hname⟩ := h
  obtain ⟨r, hr⟩ := hp.record
  exact ⟨r, a, hr, ho.mem_targets hp hr ha, ha, hname⟩

/-- A new scheme builds the target of its name. -/
theorem Project.arranges_new (hp : p.WellFormed) (ho : p.Owned) {new : Scheme}
    (h : (Step.scheme new).Arranging p) : p.Arranges new := by
  obtain ⟨e, hentries, htestables, hname⟩ := h.founding new rfl
  have hmentions : (Step.scheme new).Mentions new.name e :=
    .inl ⟨new, rfl, rfl, List.mem_append_left _ (by simp [hentries])⟩
  have hlists := Project.listsTarget_of_refers hp ho (h.refers _ e hmentions)
  rw [hname] at hlists
  constructor
  · exact ⟨e, [], hentries, hlists⟩
  · rw [Scheme.builtTargets, hentries]
    exact List.nodup_singleton _
  · intro t ht
    rw [Scheme.builtTargets, hentries, List.map_singleton, List.mem_singleton] at ht
    exact ⟨new.name, ht ▸ hlists⟩
  · rw [htestables]
    exact List.forall_mem_nil _

theorem Step.schemesArranged_apply (hp : p.WellFormed) (ho : p.Owned) (hd : s.Due p)
    (ha : s.Arranging p) (h : p.SchemesArranged) : (s.apply p).SchemesArranged := by
  have hgrow := Step.grows_apply hd
  cases s with
  | scheme new =>
    have hschemes : ((Step.scheme new).apply p).schemes = p.schemes ++ [new] := rfl
    constructor
    · rw [hschemes, List.map_append]
      refine List.nodup_append.2 ⟨h.names, List.nodup_singleton _, ?_⟩
      cases hd with
      | scheme target name absent => simpa using absent
    · intro s hs
      rw [hschemes] at hs
      rcases List.mem_append.1 hs with hold | hnew
      · exact (h.arranges s hold).grows hgrow
      · rw [List.mem_singleton.1 hnew]
        exact (Project.arranges_new hp ho ha).grows hgrow
  | schemeChange n c =>
    have hschemes : ((Step.schemeChange n c).apply p).schemes =
        p.schemes.map fun s => if s.name = n then c.apply s else s := rfl
    constructor
    · have hnames : (Scheme.name ∘ fun s => if s.name = n then c.apply s else s) = Scheme.name := by
        funext s
        simp only [Function.comp_apply]
        split
        · exact SchemeChange.name_apply c s
        · rfl
      rw [hschemes, List.map_map, hnames]
      exact h.names
    · intro s hs
      rw [hschemes] at hs
      obtain ⟨s₀, hs₀, rfl⟩ := List.mem_map.1 hs
      split
      · refine ((h.arranges s₀ hs₀).apply ?_).grows hgrow
        rintro refs codeCoverage rfl e he
        exact ⟨_, Project.listsTarget_of_refers hp ho (ha.refers n e (.inr ⟨refs, codeCoverage, rfl, he⟩))⟩
      · exact (h.arranges s₀ hs₀).grows hgrow
  | _ => exact h.grows hgrow rfl

theorem Path.schemesArranged {A : Project → Step → Prop} (hpq : Path A p q) (hp : p.WellFormed)
    (ho : p.Owned) (hA : ∀ q s, A q s → s.Arranging q) (h : p.SchemesArranged) : q.SchemesArranged := by
  induction hpq with
  | refl => exact h
  | step path due _ allowed ih =>
    exact Step.schemesArranged_apply (path.wellFormed hp) (path.owned hp ho) due (hA _ _ allowed) ih

/-! ## Names of schemes -/

/-- Steps on schemes of one name make at most one scheme, and only if there is none. -/
theorem Path.schemeNames {A : Project → Step → Prop} (hpq : Path A p q)
    (hA : ∀ q new, A q (.scheme new) → new.name = name) :
    q.schemes.map Scheme.name = p.schemes.map Scheme.name ∨
      (name ∉ p.schemes.map Scheme.name ∧
        q.schemes.map Scheme.name = p.schemes.map Scheme.name ++ [name]) := by
  induction hpq with
  | refl => exact .inl rfl
  | @step q s path due fresh allowed ih =>
    cases s with
    | scheme new =>
      have hname := hA q new allowed
      have hnames : ((Step.scheme new).apply q).schemes.map Scheme.name =
          q.schemes.map Scheme.name ++ [name] := by
        simp [Step.apply, hname]
      have habsent : name ∉ q.schemes.map Scheme.name := by
        cases due with
        | scheme target _ absent =>
          rw [← hname]
          simpa using absent
      rw [hnames]
      rcases ih with hsame | ⟨-, hadded⟩
      · rw [hsame] at habsent ⊢
        exact .inr ⟨habsent, rfl⟩
      · rw [hadded] at habsent
        exact absurd (List.mem_append_right _ (List.mem_singleton_self name)) habsent
    | schemeChange n c =>
      have hnames : ((Step.schemeChange n c).apply q).schemes.map Scheme.name =
          q.schemes.map Scheme.name := by
        show (q.schemes.map _).map Scheme.name = _
        rw [List.map_map]
        refine List.map_congr_left fun s _ => ?_
        simp only [Function.comp_apply]
        split
        · exact SchemeChange.name_apply c s
        · rfl
      rw [hnames]
      exact ih
    | _ => exact ih

end

end ProjectGraph
