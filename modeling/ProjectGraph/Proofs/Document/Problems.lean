import ProjectGraph.Project.Damage
import ProjectGraph.Project.Targets
import ProjectGraph.Proofs.Digest
import ProjectGraph.Proofs.Document.Leaves
import ProjectGraph.Proofs.Ownership.Start
import ProjectGraph.Proofs.Settings.Clean

/-! # The problems that checks report

The checks report a problem for each leaf of the document that is at fault, and for nothing else. So they
report nothing if the snapshot holds all that it refers to, its settings have values of known types, its
targets are complete and its schemes name its targets. The snapshot can be any one, also one of a project
that has been damaged. -/

namespace ProjectGraph

/-! ## Leaves at fault -/

namespace Leaf

/-- A leaf is at fault if it refers to none of the known ids, or is of an unknown type. -/
def isAtFault (known : List ObjectId) : Leaf → Bool
  | reference r => r.id ∉ known
  | foreign _ => true

/-- What is reported of a leaf at fault. -/
def report (context : String) : Leaf → String
  | reference r => "Invalid reference in " ++ context ++ ": " ++ r.id.text
  | foreign typeName => "Unknown type in " ++ context ++ ": " ++ typeName

end Leaf

/-- No leaf is of an unknown type. -/
def AllReferences (ls : List (String × Leaf)) : Prop := ∀ l ∈ ls, ∃ r, l.2 = .reference r

section

variable {ls ms : List (String × Leaf)} {context field place : String}

@[simp] theorem allReferences_nil : AllReferences [] := List.forall_mem_nil _

@[simp] theorem allReferences_cons {r : Reference} :
    AllReferences ((context, .reference r) :: ls) ↔ AllReferences ls := by
  simp [AllReferences]

@[simp] theorem allReferences_append :
    AllReferences (ls ++ ms) ↔ AllReferences ls ∧ AllReferences ms :=
  List.forall_mem_append

@[simp] theorem allReferences_within : AllReferences (within context ls) ↔ AllReferences ls :=
  List.forall_mem_map

@[simp] theorem allReferences_referencesAt {rs : List Reference} :
    AllReferences (referencesAt field rs) :=
  List.forall_mem_map.2 fun x _ => ⟨x.2, rfl⟩

@[simp] theorem allReferences_referenceAt {r : Option Reference} :
    AllReferences (referenceAt field r) :=
  List.forall_mem_map.2 fun r _ => ⟨r, rfl⟩

@[simp] theorem allReferences_settingLeaves {s : Settings} :
    AllReferences (s.leaves field place) ↔ s.Clean := by
  have hvalue (context : String) (v : SettingValue) :
      (∀ l ∈ v.leaves context, ∃ r, l.2 = .reference r) ↔ v.isForeign = false := by
    cases v <;> simp [SettingValue.leaves, SettingValue.isForeign]
  simp only [AllReferences, Settings.leaves, List.forall_mem_flatMap, hvalue]
  rfl

/-- No leaf is at fault if all are references to known ids. -/
theorem forall_not_isAtFault {known : List ObjectId} :
    (∀ l ∈ ls, l.2.isAtFault known = false) ↔
      (∀ r ∈ referencesOf ls, r.id ∈ known) ∧ AllReferences ls := by
  induction ls with
  | nil => simp
  | cons l ls ih =>
    obtain ⟨context, leaf⟩ := l
    cases leaf with
    | reference r =>
      simp only [List.forall_mem_cons, ih, referencesOf_cons, allReferences_cons, and_assoc]
      simp [Leaf.isAtFault]
    | foreign typeName => simp [Leaf.isAtFault, AllReferences]

end

/-- The settings in a content. -/
def Content.settings : Content → List Settings
  | buildFile f => f.settings.toList
  | configuration c => [c.settings]
  | _ => []

theorem Content.allReferences_leaves (c : Content) :
    AllReferences c.leaves ↔ ∀ s ∈ c.settings, s.Clean := by
  cases c with
  | buildFile f => cases hs : f.settings <;> simp [leaves, settings, hs]
  | _ => simp [leaves, settings]

namespace Snapshot

variable {s : Snapshot}

/-! ## References -/

theorem mem_ids (s : Snapshot) (i : ObjectId) : i ∈ s.ids ↔ i ∈ s.contents.map Identified.id := by
  rw [ids, List.mem_eraseDups, ids_node]

theorem leafProblem?_eq {known known' : List ObjectId} (h : ∀ i, i ∈ known ↔ i ∈ known')
    (context : String) (leaf : Leaf) :
    leafProblem? known context leaf =
      if leaf.isAtFault known' then some (leaf.report context) else none := by
  cases leaf with
  | reference r =>
    by_cases hr : r.id ∈ known'
    · exact (if_pos ((h _).2 hr)).trans (if_neg (by simp [Leaf.isAtFault, hr])).symm
    · exact (if_neg (mt (h _).1 hr)).trans (if_pos (by simp [Leaf.isAtFault, hr])).symm
  | foreign typeName => rfl

/-- A problem is reported for each leaf at fault, in order. -/
theorem referenceProblems_eq (s : Snapshot) :
    s.referenceProblems =
      (s.leaves.filter fun l => l.2.isAtFault (s.contents.map Identified.id)).map fun l =>
        l.2.report l.1 := by
  rw [referenceProblems, leaves_node, ← List.filterMap_eq_map, List.filterMap_filter]
  exact List.filterMap_congr fun l _ => leafProblem?_eq s.mem_ids l.1 l.2

/-- The references in a snapshot are the links of its contents, in order. -/
theorem references_leaves (s : Snapshot) :
    referencesOf s.leaves = s.contents.flatMap fun x => x.content.links.map Link.reference := by
  rw [contents, List.flatMap_map, leaves, referencesOf, List.filterMap_flatMap]
  refine List.flatMap_congr fun x _ => ?_
  exact (referencesOf_within _ _).trans x.2.content.references_leaves

/-- The snapshot holds all that it refers to. -/
def Closed (s : Snapshot) : Prop :=
  ∀ x ∈ s.contents, ∀ l ∈ x.content.links, ∃ y ∈ s.contents, y.id = l.reference.id

/-- The settings in the snapshot are clean. -/
def Clean (s : Snapshot) : Prop := ∀ x ∈ s.contents, ∀ u ∈ x.content.settings, u.Clean

instance : Decidable s.Closed :=
  inferInstanceAs (Decidable (∀ x ∈ s.contents, ∀ l ∈ x.content.links, ∃ y ∈ s.contents,
    y.id = l.reference.id))

theorem allReferences_leaves (s : Snapshot) : AllReferences s.leaves ↔ s.Clean := by
  simp only [AllReferences, leaves, List.forall_mem_flatMap, Clean, contents, List.forall_mem_map]
  refine forall₂_congr fun x _ => ?_
  exact allReferences_within.trans x.2.content.allReferences_leaves

theorem referenceProblems_eq_nil_iff (s : Snapshot) :
    s.referenceProblems = [] ↔ s.Closed ∧ s.Clean := by
  rw [referenceProblems_eq, List.map_eq_nil_iff, List.filter_eq_nil_iff]
  simp only [Bool.not_eq_true, forall_not_isAtFault, references_leaves, allReferences_leaves,
    List.forall_mem_flatMap, List.forall_mem_map]
  simp only [List.mem_map]
  rfl

theorem Closed.mem_ids_of_leaf (h : s.Closed) {context : String} {r : Reference}
    (hr : (context, Leaf.reference r) ∈ s.node.leaves "project") : r.id ∈ s.ids := by
  rw [leaves_node] at hr
  have hreference : r ∈ referencesOf s.leaves := List.mem_filterMap.2 ⟨_, hr, rfl⟩
  rw [references_leaves] at hreference
  obtain ⟨x, hx, hlink⟩ := List.mem_flatMap.1 hreference
  obtain ⟨l, hl, rfl⟩ := List.mem_map.1 hlink
  obtain ⟨y, hy, hid⟩ := h x hx l hl
  exact (s.mem_ids _).2 (List.mem_map.2 ⟨y, hy, hid⟩)

/-! ## Targets -/

/-- The part is there. -/
def Has (part : Option (Option Reference)) : Prop := ∃ r, part = some (some r)

theorem has_parts_of_target {o : Object} {t : NativeTarget} (h : o.content = .target t) :
    Has o.configurationList? ∧ Has o.productReference? ↔
      t.configurationList.isSome ∧ t.productReference.isSome := by
  simp [Has, Object.configurationList?, Object.productReference?, h, Option.isSome_iff_exists]

/-- The targets have their parts. -/
def TargetsComplete (s : Snapshot) : Prop :=
  ∀ o ∈ s.nativeTargets, Has o.configurationList? ∧ Has o.productReference?

theorem lack?_eq_nil_iff (o : Object) (label : String) (part : Option (Option Reference)) :
    lack? o label part = some [] ↔ Has part := by
  rcases part with _ | _ | r
  · simp [lack?, Has]
  · cases hname : o.content.name? <;> simp [lack?, Has, hname]
  · simp [lack?, Has]

theorem lacksOf_eq_nil_iff (o : Object) :
    lacksOf o = .ok [] ↔ Has o.configurationList? ∧ Has o.productReference? := by
  rw [← lack?_eq_nil_iff o "build configuration list", ← lack?_eq_nil_iff o "product reference", lacksOf,
    lacks?]
  cases hlist : lack? o "build configuration list" o.configurationList? with
  | none => simp
  | some ls => cases hproduct : lack? o "product reference" o.productReference? <;> simp

theorem targetProblems_eq_nil_iff (s : Snapshot) : s.targetProblems = .ok [] ↔ s.TargetsComplete := by
  simp only [TargetsComplete, ← lacksOf_eq_nil_iff, targetProblems]
  generalize s.nativeTargets = os
  induction os with
  | nil => exact iff_of_true rfl (List.forall_mem_nil _)
  | cons o os ih =>
    rw [List.forall_mem_cons, ← ih, List.mapM_cons]
    cases lacksOf o with
    | error e => simp [bind, Except.bind]
    | ok ls =>
      cases os.mapM lacksOf with
      | error e => simp [bind, Except.bind]
      | ok rest => simp [bind, Except.bind, pure, Except.pure]

/-! ## Schemes -/

/-- The schemes name targets of the project. -/
def SchemesNameTargets (s : Snapshot) : Prop :=
  ∀ scheme ∈ s.schemes, ∀ entry ∈ scheme.buildEntries ++ scheme.testables,
    ∃ t ∈ s.nativeTargets, t.id = entry.target

theorem schemeProblems_eq_nil_iff (s : Snapshot) : s.schemeProblems = [] ↔ s.SchemesNameTargets := by
  simp only [schemeProblems, List.flatMap_eq_nil_iff, List.filterMap_eq_nil_iff, ite_eq_left_iff,
    reduceCtorEq, imp_false, Decidable.not_not, List.any_eq_true, decide_eq_true_eq]
  rfl

/-! ## All checks -/

/-- The checks report each leaf at fault, and report nothing exactly if nothing is missing. -/
theorem checks_exact (s : Snapshot) :
    s.referenceProblems =
        (s.leaves.filter fun l => l.2.isAtFault (s.contents.map Identified.id)).map
          (fun l => l.2.report l.1) ∧
      referencesOf s.leaves = s.contents.flatMap (fun x => x.content.links.map Link.reference) ∧
      (s.referenceProblems = [] ↔ s.Closed ∧ s.Clean) ∧
      (s.targetProblems = .ok [] ∧ s.schemeProblems = [] ↔
        s.TargetsComplete ∧ s.SchemesNameTargets) :=
  ⟨s.referenceProblems_eq, s.references_leaves, s.referenceProblems_eq_nil_iff,
    and_congr s.targetProblems_eq_nil_iff s.schemeProblems_eq_nil_iff⟩

/-- A target whose first configuration has a setting of an unknown type. -/
def poisoned : Edit Snapshot := do
  let t ← Project.newNativeTarget "App" .framework
  Project.newConfigurationList t .ios .swift .framework
  Project.poison t 0 "K" "tuple"
  Project.snapshot

/-- A snapshot that holds all that it refers to, and still has a problem. -/
theorem unknown_of_poisoned :
    ∃ p s q, Project.ofValue "App" (.text "Debug") = .ok p ∧ poisoned p = .ok s q ∧ s.Closed ∧
      s.referenceProblems =
        ["Unknown type in project.buildConfigurations[1].buildSettings.K.value: tuple"] := by
  have hproblem : (Project.ofValue "App" (.text "Debug")).toOption.any fun p =>
      match poisoned p with
      | .ok s _ => s.Closed ∧ s.referenceProblems =
          ["Unknown type in project.buildConfigurations[1].buildSettings.K.value: tuple"]
      | .error .. => False := by
    rw [ObjectId.digestScheme_eq]
    decide +kernel
  obtain ⟨p, hnew, hp⟩ := Project.exists_of_ofValue hproblem
  cases hs : poisoned p with
  | ok s q =>
    simp only [hs, decide_eq_true_eq] at hp
    exact ⟨p, s, q, hnew, hs, hp⟩
  | error e q => simp [hs] at hp

end Snapshot
end ProjectGraph
