import ProjectGraph.Proofs.Keys.Separators
import ProjectGraph.Proofs.Operations.Scripts

/-! # What a key tells

A key starts with the class of its content, up to the first colon. The rest of a key tells contents of
one class apart, in a way of its own for each class. -/

namespace ProjectGraph

/-! ## Classes -/

/-- The kind of a phase of files. Scripts have none. -/
def PhaseRole.kind? : PhaseRole → Option PhaseKind
  | files kind => some kind
  | script .. => none

/-- The classes of contents. Phases have one for each kind, and one for scripts. -/
inductive ObjectClass where
  | file
  | buildFile
  | phase (kind : Option PhaseKind)
  | group
  | configuration
  | configurationList
  | target
  | project
  deriving DecidableEq

namespace ObjectClass

def name : ObjectClass → String
  | file => "PBXFileReference"
  | buildFile => "PBXBuildFile"
  | phase (some kind) => kind.typeName
  | phase none => "PBXShellScriptBuildPhase"
  | group => "PBXGroup"
  | configuration => "XCBuildConfiguration"
  | configurationList => "XCConfigurationList"
  | target => "PBXNativeTarget"
  | project => "PBXProject"

theorem colon_not_mem_name (k : ObjectClass) : ':' ∉ k.name.toList := by
  cases k with
  | phase kind =>
    cases kind with
    | some kind => cases kind <;> decide
    | none => decide
  | _ => decide

/-- The class with a name. -/
def ofName (s : String) : Option ObjectClass :=
  [file, buildFile, phase (some .headers), phase (some .sources), phase (some .resources),
    phase (some .frameworks), phase none, group, configuration, configurationList, target,
    project].find? fun k => k.name = s

theorem ofName_name (k : ObjectClass) : ofName k.name = some k := by
  cases k with
  | phase kind =>
    cases kind with
    | some kind => cases kind <;> decide
    | none => decide
  | _ => decide

theorem name_injective {k k' : ObjectClass} (h : k.name = k'.name) : k = k' := by
  have hname := ofName_name k
  rw [h, ofName_name] at hname
  exact (Option.some.inj hname).symm

end ObjectClass

namespace Content

def objectClass : Content → ObjectClass
  | file _ => .file
  | buildFile _ => .buildFile
  | phase p => .phase p.role.kind?
  | group _ => .group
  | configuration _ => .configuration
  | configurationList _ => .configurationList
  | target _ => .target
  | project _ => .project

/-- The rest of a key, after the class. -/
def keyRest : Content → String
  | file f => f.sourceTree ++ ":" ++ f.path
  | buildFile f => f.file.id.text ++ ":" ++ (f.target ++ ":" ++ f.phase.name)
  | phase p =>
    match p.role with
    | .files _ => p.target
    | .script slot _ => p.target ++ ":" ++ slot
  | group g => ((Group.distinction g.path g.groupId).map fun d => g.name ++ ":" ++ d).getD g.name
  | configuration c => ownerKey c.owner ++ ":" ++ c.name
  | configurationList l => ownerKey l.owner
  | target t => t.name
  | project p => p.name

theorem key_eq (c : Content) : c.key = c.objectClass.name ++ ":" ++ c.keyRest := by
  cases c with
  | file f =>
    show "PBXFileReference:" ++ f.sourceTree ++ ":" ++ f.path = "PBXFileReference:" ++ _
    simp only [keyRest, String.append_assoc]
  | buildFile f =>
    show "PBXBuildFile:" ++ f.file.id.text ++ ":" ++ f.target ++ ":" ++ f.phase.name =
      "PBXBuildFile:" ++ _
    simp only [keyRest, String.append_assoc]
  | phase p =>
    obtain ⟨target, role, files⟩ := p
    cases role with
    | files kind => rfl
    | script slot script =>
      show "PBXShellScriptBuildPhase:" ++ target ++ ":" ++ slot = "PBXShellScriptBuildPhase:" ++ _
      simp only [keyRest, String.append_assoc]
  | group g =>
    show Group.keyOf g.name g.path g.groupId = "PBXGroup:" ++ _
    rw [Group.keyOf, keyRest]
    cases Group.distinction g.path g.groupId with
    | some d =>
      show "PBXGroup:" ++ g.name ++ ":" ++ d = "PBXGroup:" ++ (g.name ++ ":" ++ d)
      simp only [String.append_assoc]
    | none => rfl
  | configuration c =>
    show "XCBuildConfiguration:" ++ ownerKey c.owner ++ ":" ++ c.name = "XCBuildConfiguration:" ++ _
    simp only [keyRest, String.append_assoc]
  | configurationList l => rfl
  | target t => rfl
  | project p => rfl

/-- Contents with one key are of one class, and agree in the rest of the key. -/
theorem objectClass_eq_of_key_eq {c d : Content} (h : c.key = d.key) :
    c.objectClass = d.objectClass ∧ c.keyRest = d.keyRest := by
  rw [key_eq, key_eq] at h
  obtain ⟨hname, hrest⟩ := Text.before_colon_inj c.objectClass.colon_not_mem_name
    d.objectClass.colon_not_mem_name h
  exact ⟨ObjectClass.name_injective hname, hrest⟩

end Content
end ProjectGraph
