import ProjectGraph.Proofs.Registry.Path
import ProjectGraph.Proofs.Schemes.Changes

/-! # Growth of schemes

A scheme keeps its name and its place among the schemes, and gets further build entries at the end of
the ones that it has. What it tests and what it is launched with are replaced. -/

namespace ProjectGraph

/-- The second scheme is what the first one can have become. -/
structure Scheme.Grows (s t : Scheme) : Prop where
  name : t.name = s.name
  configuration : t.configuration = s.configuration
  buildEntries : s.buildEntries <+: t.buildEntries

namespace Scheme

variable {s t u : Scheme}

theorem Grows.refl (s : Scheme) : s.Grows s := ⟨rfl, rfl, List.prefix_refl _⟩

theorem Grows.trans (hst : s.Grows t) (htu : t.Grows u) : s.Grows u :=
  ⟨htu.name.trans hst.name, htu.configuration.trans hst.configuration,
    hst.buildEntries.trans htu.buildEntries⟩

theorem grows_addBuildEntry (s : Scheme) (r : BuildableReference) : s.Grows (s.addBuildEntry r) := by
  unfold addBuildEntry
  split
  · exact ⟨rfl, rfl, List.prefix_append _ _⟩
  · exact .refl s

theorem grows_foldl_addBuildEntry (refs : List BuildableReference) (s : Scheme) :
    s.Grows (refs.foldl addBuildEntry s) := by
  induction refs generalizing s with
  | nil => exact .refl s
  | cons r refs ih => exact (grows_addBuildEntry s r).trans (ih _)

end Scheme

theorem SchemeChange.grows_apply (c : SchemeChange) (s : Scheme) : s.Grows (c.apply s) := by
  cases c with
  | launchArguments | environmentVariables => exact ⟨rfl, rfl, List.prefix_refl _⟩
  | testables refs codeCoverage =>
    have hset : s.Grows { s with testables := refs, codeCoverage := codeCoverage } :=
      ⟨rfl, rfl, List.prefix_refl _⟩
    exact hset.trans (Scheme.grows_foldl_addBuildEntry refs _)

/-- The schemes of the second project are what the ones of the first can have become, and further
ones. -/
def Project.SchemesGrow (p q : Project) : Prop :=
  ∀ (k : Nat) (s : Scheme), p.schemes[k]? = some s → ∃ t, q.schemes[k]? = some t ∧ s.Grows t

namespace Project.SchemesGrow

variable {p q r : Project}

theorem refl (p : Project) : p.SchemesGrow p := fun _ s h => ⟨s, h, .refl s⟩

theorem trans (hpq : p.SchemesGrow q) (hqr : q.SchemesGrow r) : p.SchemesGrow r := by
  intro k s hs
  obtain ⟨t, ht, hst⟩ := hpq k s hs
  obtain ⟨u, hu, htu⟩ := hqr k t ht
  exact ⟨u, hu, hst.trans htu⟩

end Project.SchemesGrow

variable [IdScheme] {p q : Project}

theorem Step.schemesGrow_apply (s : Step) (p : Project) : p.SchemesGrow (s.apply p) := by
  intro k t ht
  cases s with
  | scheme new =>
    refine ⟨t, ?_, .refl t⟩
    show (p.schemes ++ [new])[k]? = some t
    rw [List.getElem?_append_left (List.getElem?_eq_some_iff.1 ht).1, ht]
  | schemeChange name change =>
    refine ⟨if t.name = name then change.apply t else t, ?_, ?_⟩
    · show (p.schemes.map _)[k]? = _
      rw [List.getElem?_map, ht, Option.map_some]
    · split
      · exact change.grows_apply t
      · exact .refl t
  | _ => exact ⟨t, ht, .refl t⟩

theorem Path.schemesGrow {A : Project → Step → Prop} (hpq : Path A p q) : p.SchemesGrow q := by
  induction hpq with
  | refl => exact .refl p
  | step _ _ _ _ ih => exact ih.trans (Step.schemesGrow_apply _ _)

end ProjectGraph
