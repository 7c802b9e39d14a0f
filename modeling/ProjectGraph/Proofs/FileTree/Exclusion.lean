import ProjectGraph.Proofs.FileTree.Search

/-! # Excluding files

Patterns to exclude take away from each list the paths that one of them accepts, and leave the rest in its
order. What counts is which patterns are given, and not their order, repetition and grouping. -/

namespace ProjectGraph.FileTree

variable {excluded excluded' : List (List String)} {paths : List String}

/-- The paths that no pattern of any of the groups accepts. -/
def keep (excluded : List (List String)) (paths : List String) : List String :=
  paths.filter fun path => ∀ group ∈ excluded, ∀ pattern ∈ group, ¬ Wildcard.accepts pattern path

/-! ## The filter -/

theorem mem_keep {path : String} :
    path ∈ keep excluded paths ↔ path ∈ paths ∧
      ∀ pattern ∈ excluded.flatten, ¬ Wildcard.accepts pattern path := by
  rw [keep, List.mem_filter, decide_eq_true_iff]
  simp only [List.mem_flatten, forall_exists_index, and_imp]
  exact and_congr_right fun _ =>
    ⟨fun h pattern group hgroup => h group hgroup pattern, fun h group hgroup pattern => h pattern group hgroup⟩

theorem filter_isExcluded (excluded : List (List String)) (paths : List String) :
    (paths.filter fun path => !isExcluded path excluded) = keep excluded paths := by
  refine List.filter_congr fun path _ => ?_
  rw [Bool.eq_iff_iff, decide_eq_true_iff]
  simp [isExcluded]

theorem keep_of_flatten_eq_nil (h : excluded.flatten = []) (paths : List String) :
    keep excluded paths = paths := by
  refine List.filter_eq_self.2 fun path _ => decide_eq_true fun group hgroup => ?_
  rw [List.flatten_eq_nil_iff.1 h group hgroup]
  exact fun pattern hpattern => absurd hpattern List.not_mem_nil

theorem keep_congr (h : ∀ pattern, pattern ∈ excluded.flatten ↔ pattern ∈ excluded'.flatten)
    (paths : List String) : keep excluded paths = keep excluded' paths := by
  refine List.filter_congr fun path hpath => ?_
  have hmem : path ∈ keep excluded paths ↔ path ∈ keep excluded' paths := by
    rw [mem_keep, mem_keep]
    exact and_congr_right fun _ => forall_congr' fun pattern => imp_congr_left (h pattern)
  simpa only [keep, List.mem_filter, hpath, true_and, ← Bool.eq_iff_iff] using hmem

theorem keep_append (excluded excluded' : List (List String)) (paths : List String) :
    keep (excluded ++ excluded') paths = keep excluded' (keep excluded paths) := by
  rw [keep, keep, keep, List.filter_filter]
  refine List.filter_congr fun path _ => ?_
  rw [← Bool.decide_and, decide_eq_decide, List.forall_mem_append, and_comm]

/-- Where all patterns of the first groups are in the second ones, the second ones exclude the rest. -/
theorem keep_keep_of_subset (h : excluded.flatten ⊆ excluded'.flatten) (paths : List String) :
    keep excluded' (keep excluded paths) = keep excluded' paths := by
  have hmem : ∀ pattern, pattern ∈ (excluded ++ excluded').flatten ↔ pattern ∈ excluded'.flatten := by
    intro pattern
    rw [List.flatten_append, List.mem_append]
    exact or_iff_right_of_imp (@h pattern)
  calc keep excluded' (keep excluded paths) = keep (excluded ++ excluded') paths :=
        (keep_append excluded excluded' paths).symm
    _ = keep excluded' paths := keep_congr hmem paths

/-! ## What is resolved -/

theorem resolveFiles_none (t : FileTree) (root : PathName) (patterns : List String) :
    t.resolveFiles root patterns none = patterns.mapM (t.visibleFiles root) := by
  rw [resolveFiles]
  exact bind_pure _

/-- Both ways of resolving patterns, with and without others to exclude, come to one filter. -/
theorem resolveFiles_eq_keep (t : FileTree) (root : PathName) (patterns : List String)
    (exclude : Option (List (List String))) :
    t.resolveFiles root patterns exclude =
      (t.resolveFiles root patterns none).map (·.map (keep (exclude.getD []))) := by
  rw [resolveFiles_none, resolveFiles_eq]
  simp only [filter_isExcluded]
  cases patterns.mapM (t.visibleFiles root) <;> rfl

/-- How the files that patterns are resolved to below a path depend on the patterns to exclude. -/
structure ExcludesByFilter (t : FileTree) (root : PathName) : Prop where
  error_iff : ∀ patterns exclude e, t.resolveFiles root patterns exclude = .error e ↔
    t.resolveFiles root patterns none = .error e
  /-- Each list keeps, in its order, the paths that no pattern of any group accepts. -/
  filters : ∀ patterns exclude lists, t.resolveFiles root patterns none = .ok lists →
    t.resolveFiles root patterns exclude = .ok (lists.map fun list => list.filter fun path =>
      ∀ group ∈ exclude.getD [], ∀ pattern ∈ group, ¬ Wildcard.accepts pattern path)
  length : ∀ patterns exclude lists, t.resolveFiles root patterns exclude = .ok lists →
    lists.length = patterns.length
  /-- Groups that hold the same patterns together exclude the same, in whatever order and grouping. -/
  union : ∀ patterns exclude exclude',
    (∀ pattern, pattern ∈ (exclude.getD []).flatten ↔ pattern ∈ (exclude'.getD []).flatten) →
      t.resolveFiles root patterns exclude = t.resolveFiles root patterns exclude'
  /-- Groups without patterns exclude nothing. -/
  vacuous : ∀ patterns exclude, (∀ group ∈ exclude.getD [], group = []) →
    t.resolveFiles root patterns exclude = t.resolveFiles root patterns none
  /-- More patterns to exclude only take away paths. -/
  antitone : ∀ patterns exclude exclude', (exclude.getD []).flatten ⊆ (exclude'.getD []).flatten →
    ∀ lists, t.resolveFiles root patterns exclude = .ok lists →
      ∃ lists', t.resolveFiles root patterns exclude' = .ok lists' ∧
        List.Forall₂ List.Sublist lists' lists
  append_exclude : ∀ patterns excluded excluded',
    t.resolveFiles root patterns (some (excluded ++ excluded')) =
      (t.resolveFiles root patterns (some excluded)).map (·.map fun list =>
        list.filter fun path => !isExcluded path excluded')
  append_patterns : ∀ patterns patterns' exclude,
    t.resolveFiles root (patterns ++ patterns') exclude = do
      let lists ← t.resolveFiles root patterns exclude
      let lists' ← t.resolveFiles root patterns' exclude
      return lists ++ lists'

theorem excludesByFilter (t : FileTree) (root : PathName) : t.ExcludesByFilter root where
  error_iff patterns exclude e := by
    rw [resolveFiles_eq_keep]
    cases t.resolveFiles root patterns none <;> simp [Except.map]
  filters patterns exclude lists h := by
    rw [resolveFiles_eq_keep, h]
    rfl
  length patterns exclude lists h := by
    rw [resolveFiles_eq] at h
    obtain ⟨found, hfound, h⟩ := exists_of_ok_bind h
    cases h
    rw [List.length_map, (forall₂_of_mapM_eq_ok hfound).length_eq]
  union patterns exclude exclude' h := by
    have hkeep : keep (exclude.getD []) = keep (exclude'.getD []) := funext (keep_congr h)
    rw [resolveFiles_eq_keep, hkeep, ← resolveFiles_eq_keep]
  vacuous patterns exclude h := by
    have hkeep : keep (exclude.getD []) = id :=
      funext (keep_of_flatten_eq_nil (List.flatten_eq_nil_iff.2 h))
    rw [resolveFiles_eq_keep, hkeep]
    cases t.resolveFiles root patterns none <;> simp [Except.map]
  antitone patterns exclude exclude' h lists hlists := by
    rw [resolveFiles_eq_keep] at hlists
    rw [resolveFiles_eq_keep]
    cases hnone : t.resolveFiles root patterns none with
    | error e =>
      rw [hnone] at hlists
      cases hlists
    | ok found =>
      rw [hnone] at hlists
      cases hlists
      refine ⟨_, rfl, ?_⟩
      rw [List.forall₂_map_left_iff, List.forall₂_map_right_iff, List.forall₂_same]
      intro list _
      rw [← keep_keep_of_subset h list]
      exact List.filter_sublist
  append_exclude patterns excluded excluded' := by
    have hkeep : keep (excluded ++ excluded') = keep excluded' ∘ keep excluded :=
      funext (keep_append excluded excluded')
    simp only [filter_isExcluded]
    rw [resolveFiles_eq_keep, resolveFiles_eq_keep t root patterns (some excluded)]
    simp only [Option.getD_some, hkeep]
    cases t.resolveFiles root patterns none <;> simp [Except.map]
  append_patterns patterns patterns' exclude := by
    simp only [resolveFiles_eq, List.mapM_append]
    cases patterns.mapM (t.visibleFiles root) with
    | error => rfl
    | ok found =>
      cases patterns'.mapM (t.visibleFiles root) with
      | error => rfl
      | ok found' => exact congrArg Except.ok List.map_append

end ProjectGraph.FileTree
