import ProjectGraph.Build.TargetBuild
import ProjectGraph.Proofs.Operations.Groups

/-! # Operations that fail for reasons inside of a project

Only groups are refused for a reason outside of the project: an absolute directory has none. All other
operations on a project fail, if at all, for what the project holds. -/

namespace ProjectGraph

namespace Edit

variable {α β : Type} {x : Edit α}

/-- The operation never fails for a reason outside of the project. -/
def Inward (x : Edit α) : Prop := ∀ p, Leads x p (fun _ _ => True) fun e _ => ¬ e.IsOuter

namespace Inward

theorem of_ok (h : ∀ p, ∃ a q, x p = .ok a q) : Inward x := fun p =>
  have ⟨_, _, hx⟩ := h p
  Leads.of_eq_ok hx trivial

theorem pure (a : α) : Inward (pure a : Edit α) := .of_ok fun p => ⟨a, p, rfl⟩

theorem get : Inward (get : Edit Project) := .of_ok fun p => ⟨p, p, rfl⟩

theorem modify (f : Project → Project) : Inward (modify f : Edit PUnit) := .of_ok fun p => ⟨⟨⟩, f p, rfl⟩

theorem throw {e : Error} (he : ¬ e.IsOuter) : Inward (throw e : Edit α) := fun _ =>
  Leads.of_eq_error rfl he

theorem bind {f : α → Edit β} (hx : Inward x) (hf : ∀ a, Inward (f a)) : Inward (x >>= f) := fun p =>
  Leads.bind (hx p) fun a q _ => hf a q

theorem discard (hx : Inward x) : Inward (discard x) := by
  rw [discard_eq_bind]
  exact hx.bind fun _ => .pure ()

theorem forM {f : β → Edit PUnit} {ys : List β} (h : ∀ y ∈ ys, Inward (f y)) : Inward (ys.forM f) := by
  induction ys with
  | nil => exact .pure _
  | cons y ys ih =>
    exact (h y (by simp)).bind fun _ => ih fun y' hy' => h y' (List.mem_cons_of_mem y hy')

theorem mapM {f : β → Edit α} (h : ∀ y, Inward (f y)) (ys : List β) : Inward (ys.mapM f) := by
  induction ys with
  | nil => exact .pure _
  | cons y ys ih =>
    rw [List.mapM_cons]
    exact (h y).bind fun _ => ih.bind fun _ => .pure _

end Inward

end Edit

namespace Project

open Edit

variable {α : Type} {t : ObjectId}

/-! ## Reading -/

theorem inward_resolve (i : ObjectId) : Inward (resolve i) := by
  intro p
  cases h : p.find? i with
  | some o => exact Leads.of_eq_ok (by rw [resolve, h]) trivial
  | none => exact Leads.of_eq_error (e := .missingObject i) (by rw [resolve, h]) id

theorem inward_partOf (part : Object → Option α) (o : Object) : Inward (partOf part o) := by
  unfold partOf
  cases part o with
  | some a => exact .pure a
  | none => exact .throw id

theorem inward_resolvePart (part : Object → Option α) (i : ObjectId) : Inward (resolvePart part i) :=
  (inward_resolve i).bind fun _ => inward_partOf part _

theorem inward_viewAs (view : Content → Option α) (o : Object) : Inward (viewAs view o) :=
  inward_partOf _ o

theorem inward_resolveAs (view : Content → Option α) (i : ObjectId) : Inward (resolveAs view i) :=
  (inward_resolve i).bind fun _ => inward_viewAs view _

theorem inward_heldAs (view : Content → Option α) (i : ObjectId) : Inward (heldAs view i) := by
  intro p
  cases h : (p.held? i).bind fun o => view o.content with
  | some a => exact Leads.of_eq_ok (by rw [heldAs, h]) trivial
  | none => exact Leads.of_eq_error (e := .missingObject i) (by rw [heldAs, h]) id

theorem inward_targets : Inward targets :=
  (Inward.get.bind fun _ => inward_heldAs _ _).bind fun _ => .mapM (fun _ => inward_resolve _) _

theorem inward_findNamed (name : String) (os : List Object) : Inward (findNamed name os) := by
  induction os with
  | nil => exact .pure none
  | cons o os ih =>
    refine (inward_viewAs _ o).bind fun n => ?_
    split
    · exact .pure _
    · exact ih

theorem inward_buildPhases (t : ObjectId) : Inward (buildPhases t) :=
  (inward_resolveAs _ t).bind fun _ => .mapM (fun _ => inward_resolve _) _

theorem inward_buildConfigurations (t : ObjectId) : Inward (buildConfigurations t) := by
  refine (inward_resolvePart _ t).bind fun r => ?_
  cases r with
  | none => exact .pure []
  | some r => exact (inward_resolveAs _ r.id).bind fun _ => .mapM (fun _ => inward_resolve _) _

theorem inward_findFileIn (path : String) (rs : List Reference) : Inward (findFileIn path rs) := by
  induction rs with
  | nil => exact .pure none
  | cons r rs ih =>
    refine (inward_resolve r.id).bind fun o => ?_
    cases o.content.file? with
    | none => exact ih
    | some f =>
      simp only
      split
      · exact .pure _
      · exact ih

theorem inward_findFileReference (group : ObjectId) (path : String) :
    Inward (findFileReference group path) :=
  (inward_heldAs _ group).bind fun _ => inward_findFileIn path _

theorem inward_findProduct (path : String) : Inward (findProduct path) :=
  Inward.get.bind fun _ => inward_findFileReference _ path

theorem inward_partitionNames (names : List String) : Inward (partitionNames names) := by
  induction names with
  | nil => exact .pure _
  | cons name names ih =>
    refine (inward_findProduct name).bind fun f => ?_
    cases f with
    | some f => exact ih.bind fun _ => .pure _
    | none => exact ih.bind fun _ => .pure _

theorem inward_holdsFile (file : ObjectId) (rs : List Reference) : Inward (holdsFile file rs) := by
  induction rs with
  | nil => exact .pure false
  | cons r rs ih =>
    refine (inward_resolveAs _ r.id).bind fun f => ?_
    split
    · exact .pure true
    · exact ih

/-! ## Changing -/

theorem inward_modifyObject (i : ObjectId) (f : Object → Object) : Inward (modifyObject i f) :=
  .modify _

variable [IdScheme]

theorem inward_register (c : Content) : Inward (register c) := by
  intro p
  cases h : p.find? c.id with
  | some o => exact Leads.of_eq_error (e := .duplicateId c.id c.key) (by rw [register, h]) id
  | none => exact Leads.of_eq_ok (by rw [register, h]) trivial

theorem inward_newNativeTarget (name : String) (kind : TargetKind) :
    Inward (newNativeTarget name kind) := by
  refine (inward_targets.bind fun os => inward_findNamed name os).bind fun found => ?_
  cases found with
  | some t => exact .pure t
  | none =>
    refine (inward_register _).bind fun i => ?_
    exact (Inward.get.bind fun _ => inward_modifyObject _ _).bind fun _ => .pure i

theorem inward_newConfigurationList (t : ObjectId) (platform : PlatformKind) (language : LanguageKind)
    (kind : TargetKind) : Inward (newConfigurationList t platform language kind) := by
  refine (inward_resolvePart _ t).bind fun r => ?_
  cases r with
  | some => exact .pure ()
  | none =>
    refine (inward_resolveAs _ t).bind fun _ => Inward.get.bind fun _ => ?_
    refine (Inward.forM fun c _ => (inward_register _).discard).bind fun _ => ?_
    exact (inward_register _).bind fun _ => inward_modifyObject t _

theorem inward_appendPhase (t : ObjectId) (phase : BuildPhase) (comment : String) :
    Inward (appendPhase t phase comment) :=
  (inward_register _).bind fun i => (inward_modifyObject t _).bind fun _ => .pure i

theorem inward_addScriptPhase (t : ObjectId) (slot : String) (script : Script) :
    Inward (addScriptPhase t slot script) := by
  refine (inward_buildPhases t).bind fun os => ?_
  cases findPhase (PhaseRole.isSlot slot) os with
  | some x => exact inward_modifyObject _ _
  | none => exact (inward_resolveAs _ t).bind fun _ => (inward_appendPhase t _ _).discard

theorem inward_addScriptsFrom (t : ObjectId) (stage : Stage) (index : Nat) (scripts : List Script) :
    Inward (addScriptsFrom t stage index scripts) := by
  induction scripts generalizing index with
  | nil => exact .pure ()
  | cons script scripts ih => exact (inward_addScriptPhase t _ script).bind fun _ => ih (index + 1)

theorem inward_addBuildScripts (t : ObjectId) (stage : Stage) (scripts : Option (List Script)) :
    Inward (addBuildScripts t stage scripts) := by
  cases scripts with
  | none => exact .pure ()
  | some scripts => exact inward_addScriptsFrom t stage 0 scripts

theorem inward_groupBelow (names : List String) : Inward (groupBelow names) := by
  induction names with
  | nil => exact Inward.get.bind fun _ => .pure _
  | cons name above ih =>
    refine Inward.get.bind fun p => ?_
    cases p.directories.get? (name :: above).reverse with
    | some i => exact .pure i
    | none =>
      refine ih.bind fun _ => (inward_register _).bind fun i => ?_
      exact (inward_modifyObject _ _).bind fun _ => (Inward.modify _).bind fun _ => .pure i

/-- A file can be filed if its directory is not an absolute one. -/
def Relative (path : String) : Prop := ¬ (PathName.normalize (Text.directoryOf path)).IsAbsolute

omit [IdScheme] in
theorem relative_of_fileGroup {p : Project} {path : String} {i : ObjectId}
    (h : p.fileGroup path = some i) : Relative path := by
  intro habsolute
  unfold fileGroup directoryGroup at h
  rw [if_pos habsolute] at h
  cases h

theorem inward_groupOfFile {path : String} (h : Relative path) : Inward (groupOfFile path) := by
  unfold groupOfFile groupForPath
  simp only [if_neg h]
  exact inward_groupBelow _

theorem inward_newFileReference (group : ObjectId) (path : String) :
    Inward (newFileReference group path) :=
  (inward_register _).bind fun _ => (inward_modifyObject _ _).bind fun _ => .pure _

theorem inward_phaseOfKind (t : ObjectId) (kind : PhaseKind) : Inward (phaseOfKind t kind) := by
  refine (inward_buildPhases t).bind fun os => ?_
  cases findPhase (· = .files kind) os with
  | some x => exact .pure x
  | none =>
    refine (inward_resolveAs _ t).bind fun _ => ?_
    exact (inward_appendPhase t _ _).bind fun _ => .pure _

theorem inward_addFileToPhase (t : ObjectId) (kind : PhaseKind) (file : Identified FileReference)
    (settings : Option Settings) : Inward (addFileToPhase t kind file settings) := by
  refine (inward_phaseOfKind t kind).bind fun x => (inward_holdsFile _ _).bind fun holds => ?_
  cases holds with
  | true => exact .pure ()
  | false =>
    refine (inward_resolveAs _ t).bind fun _ => (inward_register _).bind fun _ => ?_
    exact inward_modifyObject _ _

theorem inward_fileReferenceFor {path : String} (h : Relative path) :
    Inward (fileReferenceFor path) := by
  refine (inward_groupOfFile h).bind fun i => (inward_findFileReference i path).bind fun f => ?_
  cases f with
  | some f => exact .pure f
  | none => exact inward_newFileReference i path

theorem inward_addFrameworkHeader (t : ObjectId) {header : Option String}
    (h : ∀ path, header = some path → Relative path) : Inward (addFrameworkHeader t header) := by
  cases header with
  | none => exact .pure ()
  | some path => exact (inward_fileReferenceFor (h path rfl)).bind fun _ => inward_addFileToPhase t _ _ _

theorem inward_addFile (t : ObjectId) (kind : PhaseKind) {path : String} (h : Relative path) :
    Inward (addFile t kind path) := by
  refine (inward_groupOfFile h).bind fun i => (inward_findFileReference i path).bind fun f => ?_
  cases f with
  | some f => exact .pure ()
  | none => exact (inward_newFileReference i path).bind fun f => inward_addFileToPhase t kind f none

theorem inward_addFiles (t : ObjectId) (kind : PhaseKind) {paths : List (List String)}
    (h : ∀ path ∈ paths.flatten, Relative path) : Inward (addFiles t kind paths) :=
  .forM fun ps hps => .forM fun path hpath =>
    inward_addFile t kind (h path (List.mem_flatten.2 ⟨ps, hps, hpath⟩))

omit [IdScheme] in
theorem inward_composeSettings (t : ObjectId) (d : Target) : Inward (Build.composeSettings t d) :=
  (inward_buildConfigurations t).bind fun _ => .forM fun o _ =>
    (inward_partOf _ o).bind fun _ => inward_modifyObject _ _

theorem inward_newProductReference (t : ObjectId) (name : String) (kind : TargetKind) :
    Inward (newProductReference t name kind) := by
  have hlast : ∀ f : Identified FileReference, Inward do
      discard <| resolve t
      modifyObject t (Object.withProductReference (some ⟨f.id, some (productPath name kind)⟩))
      return f := fun f =>
    (inward_resolve t).discard.bind fun _ => (inward_modifyObject t _).bind fun _ => .pure f
  refine (inward_findProduct _).bind fun found => ?_
  cases found with
  | some f => exact (Inward.pure f).bind hlast
  | none =>
    exact (inward_register _).bind fun _ => Inward.get.bind fun _ =>
      (inward_modifyObject _ _).bind fun _ => (Inward.pure _).bind hlast

theorem inward_linkDependencies (t : ObjectId) (dependencies : Option (List String)) :
    Inward (linkDependencies t dependencies) :=
  (inward_partitionNames _).bind fun _ =>
    (Inward.forM fun _ _ => inward_addFileToPhase t _ _ _).bind fun _ => .pure _

end Project
end ProjectGraph
