import ProjectGraph.Build.Dependencies
import ProjectGraph.Build.Files
import ProjectGraph.Build.Scripts
import ProjectGraph.Proofs.Indifferent.Basic

/-! # Operations that do not read settings

Phases, groups, files, products and scripts are found and made without a look at settings. -/

namespace ProjectGraph.Project

variable {f : ObjectId → Settings → Settings} {t : ObjectId}

/-! ## Phases -/

theorem intertwined_buildPhases (t : ObjectId) :
    Intertwined (mapSettings f) (List.map (Object.mapSettings f)) (buildPhases t) (buildPhases t) :=
  (indifferent_target t).bind_id fun _ => .mapM fun r => intertwined_resolve f r.id

/-- A phase is found by its role. -/
theorem findPhase_map_mapSettings (test : PhaseRole → Bool) (os : List Object) :
    findPhase test (os.map (Object.mapSettings f)) = findPhase test os := by
  have hview : ∀ o : Object, (o.mapSettings f).view? Content.phase? = o.view? Content.phase? := by
    intro o
    have hphase : (o.mapSettings f).content.phase? = o.content.phase? :=
      Object.ignoresSettings_of_view (fun _ _ => rfl) f o
    rw [Object.view?, Object.view?, hphase, Object.id_mapSettings]
  rw [findPhase, findPhase, List.findSome?_map]
  simp only [Function.comp_def, hview]

variable [IdScheme]

theorem indifferent_appendPhase (t : ObjectId) (phase : BuildPhase) (comment : String) :
    Edit.Indifferent f (appendPhase t phase comment) :=
  (indifferent_register _).bind_id fun _ =>
    (indifferent_modifyTarget t _).bind_id fun _ => .pure _

theorem indifferent_phaseOfKind (t : ObjectId) (kind : PhaseKind) :
    Edit.Indifferent f (phaseOfKind t kind) := by
  refine (intertwined_buildPhases t).bind fun os => ?_
  rw [findPhase_map_mapSettings]
  split
  · exact .pure _
  · exact (indifferent_target t).bind_id fun a =>
      (indifferent_appendPhase t _ _).bind_id fun _ => .pure _

theorem indifferent_addBuildPhase (t : ObjectId) (kind : PhaseKind) :
    Edit.Indifferent f (addBuildPhase t kind) := (indifferent_phaseOfKind t kind).discard

theorem indifferent_addScriptPhase (t : ObjectId) (slot : String) (script : Script) :
    Edit.Indifferent f (addScriptPhase t slot script) := by
  refine (intertwined_buildPhases t).bind fun os => ?_
  rw [findPhase_map_mapSettings]
  split
  · exact indifferent_modifyPhase _ _
  · exact (indifferent_target t).bind_id fun a => (indifferent_appendPhase t _ _).discard

theorem indifferent_addScriptsFrom (t : ObjectId) (stage : Stage) (index : Nat)
    (scripts : List Script) : Edit.Indifferent f (addScriptsFrom t stage index scripts) := by
  induction scripts generalizing index with
  | nil => exact .pure _
  | cons script rest ih =>
    exact (indifferent_addScriptPhase t _ script).bind_id fun _ => ih (index + 1)

theorem indifferent_addBuildScripts (t : ObjectId) (stage : Stage) (scripts : Option (List Script)) :
    Edit.Indifferent f (addBuildScripts t stage scripts) := by
  cases scripts with
  | none => exact .pure _
  | some scripts => exact indifferent_addScriptsFrom t stage 0 scripts

omit [IdScheme] in
theorem indifferent_holdsFile (file : ObjectId) (refs : List Reference) :
    Edit.Indifferent f (holdsFile file refs) := by
  induction refs with
  | nil => exact .pure _
  | cons r rest ih =>
    refine (indifferent_resolveAs (Object.ignoresSettings_of_view fun _ _ => rfl) r.id).bind_id
      fun b => ?_
    split
    · exact .pure _
    · exact ih

theorem indifferent_addFileToPhase (t : ObjectId) (kind : PhaseKind)
    (file : Identified FileReference) (settings : Option Settings) :
    Edit.Indifferent f (addFileToPhase t kind file settings) := by
  refine (indifferent_phaseOfKind t kind).bind_id fun phase => ?_
  refine (indifferent_holdsFile file.id phase.content.files).bind_id fun held => ?_
  split
  · exact .pure _
  · exact (indifferent_target t).bind_id fun a =>
      (indifferent_register _).bind_id fun id => indifferent_modifyPhase phase.id _

/-! ## Groups and files -/

theorem indifferent_groupBelow (components : List String) :
    Edit.Indifferent f (groupBelow components) := by
  induction components with
  | nil => exact Intertwined.get.bind fun p => .pure p.mainGroup
  | cons name above ih =>
    have hmodify : ∀ id, Edit.Indifferent f (modify fun p =>
        { p with directories := p.directories.insert (name :: above).reverse id }) :=
      fun _ => .modify fun _ => rfl
    refine Intertwined.get.bind fun p => ?_
    rw [directories_mapSettings]
    cases p.directories.get? (name :: above).reverse with
    | some id => exact .pure id
    | none => exact ih.bind_id fun parent => (indifferent_register _).bind_id fun id =>
        (indifferent_addChild parent _).bind_id fun _ => (hmodify id).bind_id fun _ => .pure id

theorem indifferent_groupForPath (directory : String) :
    Edit.Indifferent f (groupForPath directory) := by
  by_cases habsolute : (PathName.normalize directory).IsAbsolute
  · rw [groupForPath, if_pos habsolute]
    exact (Intertwined.throw _).bind_id fun _ => indifferent_groupBelow _
  · rw [groupForPath, if_neg habsolute]
    exact indifferent_groupBelow _

omit [IdScheme] in
theorem indifferent_findFileIn (path : String) (refs : List Reference) :
    Edit.Indifferent f (findFileIn path refs) := by
  induction refs with
  | nil => exact .pure _
  | cons r rest ih =>
    refine (intertwined_resolve f r.id).bind fun o => ?_
    have hfile : (o.mapSettings f).content.file? = o.content.file? :=
      Object.ignoresSettings_of_view (fun _ _ => rfl) f o
    rw [hfile]
    split
    · split
      · exact .pure _
      · exact ih
    · exact ih

omit [IdScheme] in
theorem indifferent_findFileReference (group : ObjectId) (path : String) :
    Edit.Indifferent f (findFileReference group path) :=
  (indifferent_heldAs (Object.ignoresSettings_of_view fun _ _ => rfl) group).bind_id fun g =>
    indifferent_findFileIn path g.children

theorem indifferent_newFileReference (group : ObjectId) (path : String) :
    Edit.Indifferent f (newFileReference group path) :=
  (indifferent_register _).bind_id fun _ => (indifferent_addChild group _).bind_id fun _ => .pure _

theorem indifferent_addFile (t : ObjectId) (kind : PhaseKind) (path : String) :
    Edit.Indifferent f (addFile t kind path) := by
  refine (indifferent_groupForPath _).bind_id fun group => ?_
  refine (indifferent_findFileReference group path).bind_id fun found => ?_
  cases found with
  | some => exact .pure _
  | none => exact (indifferent_newFileReference group path).bind_id fun file =>
      indifferent_addFileToPhase t kind file none

theorem indifferent_addFiles (t : ObjectId) (kind : PhaseKind) (paths : List (List String)) :
    Edit.Indifferent f (addFiles t kind paths) :=
  .forM fun _ _ => .forM fun path _ => indifferent_addFile t kind path

/-! ## Products and dependencies -/

omit [IdScheme] in
theorem indifferent_findProduct (path : String) : Edit.Indifferent f (findProduct path) :=
  Intertwined.get.bind fun p => indifferent_findFileReference p.productsGroup path

theorem indifferent_newProductReference (t : ObjectId) (name : String) (kind : TargetKind) :
    Edit.Indifferent f (newProductReference t name kind) := by
  have hrest : ∀ product : Identified FileReference, Edit.Indifferent f (do
      discard <| resolve t
      modifyObject t (Object.withProductReference (some ⟨product.id, some (productPath name kind)⟩))
      return product) := fun product =>
    (intertwined_resolve f t).discard.bind_id fun _ =>
      (indifferent_modifyObject (Object.withProductReference_mapSettings _) t).bind_id fun _ =>
        .pure product
  refine (indifferent_findProduct _).bind_id fun found => ?_
  cases found with
  | some product => exact hrest product
  | none =>
    refine (indifferent_register _).bind_id fun id => ?_
    refine Intertwined.get.bind fun p => ?_
    exact (indifferent_addChild p.productsGroup _).bind_id fun _ => hrest _

omit [IdScheme] in
theorem indifferent_partitionNames (names : List String) :
    Edit.Indifferent f (partitionNames names) := by
  induction names with
  | nil => exact .pure _
  | cons name names ih =>
    refine (indifferent_findProduct name).bind_id fun found => ?_
    cases found with
    | some => exact ih.bind_id fun _ => .pure _
    | none => exact ih.bind_id fun _ => .pure _

theorem indifferent_linkDependencies (t : ObjectId) (dependencies : Option (List String)) :
    Edit.Indifferent f (linkDependencies t dependencies) :=
  (indifferent_partitionNames _).bind_id fun parts =>
    (Intertwined.forM fun (_, product) _ => indifferent_addFileToPhase t .frameworks product none).bind_id
      fun _ => .pure parts.thirdParty

end ProjectGraph.Project
