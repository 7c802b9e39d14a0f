import ProjectGraph.Document.Node
import ProjectGraph.Project.Basic

/-! # Snapshots

A snapshot of a project holds its objects by type, in order of registration, its targets in the order
of the project, and its schemes. -/

namespace ProjectGraph

structure Snapshot where
  fileReferences : List (Identified FileReference)
  groups : List (Identified Group)
  buildFiles : List (Identified BuildFile)
  buildPhases : List (Identified BuildPhase)
  /-- What the project lists as its targets. -/
  nativeTargets : List Object
  project : Identified ProjectRecord
  buildConfigurations : List (Identified Configuration)
  configurationLists : List (Identified ConfigurationList)
  schemes : List Scheme
  deriving DecidableEq

namespace Project

/-- The registered objects that have a view, in order. -/
def objectsAs {α : Type} (p : Project) (view : Content → Option α) : List (Identified α) :=
  p.objects.filterMap (Object.view? view)

/-- The project as it is. This fails if a target of the project is not registered. -/
def snapshot : Edit Snapshot := do
  let nativeTargets ← targets
  let record ← projectRecord
  let p ← get
  return {
    fileReferences := p.objectsAs Content.file?
    groups := p.objectsAs Content.group?
    buildFiles := p.objectsAs Content.buildFile?
    buildPhases := p.objectsAs Content.phase?
    nativeTargets := nativeTargets
    project := ⟨p.record, record⟩
    buildConfigurations := p.objectsAs Content.configuration?
    configurationLists := p.objectsAs Content.configurationList?
    schemes := p.schemes }

end Project

/-! ## The document of a snapshot -/

namespace FileReference

def type (f : FileReference) : FileType :=
  match f with
  | source path => .ofExtension (Text.extensionOf path)
  | product _ type => type

def node (id : ObjectId) (f : FileReference) : Node :=
  let (lastKnown, explicit, inIndex) : Node × Node × Node :=
    match f with
    | source _ => (.text f.type.name, .absent, .absent)
    | product .. => (.absent, .text f.type.name, .number 0)
  .record "PBXFileReference" (some id) [
    ("name", .text f.name),
    ("path", .text f.path),
    ("sourceTree", .text f.sourceTree),
    ("lastKnownFileType", lastKnown),
    ("explicitFileType", explicit),
    ("includeInIndex", inIndex)]

end FileReference

/-- A setting of a build file, which is no record of its own. -/
def SettingValue.node : SettingValue → Node
  | text s => .text s
  | number n => .number n
  | list items => .texts items
  | yesNo answer => .text answer.text
  | foreign typeName items => .foreign typeName items

def BuildFile.node (id : ObjectId) (f : BuildFile) : Node :=
  .record "PBXBuildFile" (some id) [
    ("fileRef", .reference f.file),
    ("name", .text f.name),
    ("target_name", .text f.target),
    ("phase_name", .text f.phase.name),
    ("settings", .optional (fun s => .table (s.entries.map fun e => (e.1, e.2.node))) f.settings)]

def BuildPhase.node (id : ObjectId) (p : BuildPhase) : Node :=
  let fields : List (String × Node) := [
    ("files", .references p.files),
    ("target_name", .text p.target),
    ("buildActionMask", .number 2147483647),
    ("runOnlyForDeploymentPostprocessing", .number 0)]
  match p.role with
  | .files kind => .record kind.typeName (some id) fields
  | .script slot script =>
    .record "PBXShellScriptBuildPhase" (some id) (fields ++ [
      ("name", .text script.name),
      ("shellScript", .text script.body),
      ("inputPaths", .texts script.inputs),
      ("outputPaths", .texts []),
      ("shellPath", .text "/bin/sh"),
      ("slot", .text slot)])

def Group.node (id : ObjectId) (g : Group) : Node :=
  .record "PBXGroup" (some id) [
    ("name", .text g.name),
    ("sourceTree", .text "<group>"),
    ("children", .references g.children),
    ("path", .optional .text g.path),
    ("group_id", .optional .text g.groupId)]

def Configuration.node (id : ObjectId) (c : Configuration) : Node :=
  .record "XCBuildConfiguration" (some id) [
    ("name", .text c.name),
    ("buildSettings", .table (c.settings.entries.map fun e => (e.1, .setting e.2))),
    ("owner", .text c.owner)]

def ConfigurationList.node (id : ObjectId) (l : ConfigurationList) : Node :=
  .record "XCConfigurationList" (some id) [
    ("buildConfigurations", .references l.configurations),
    ("defaultConfigurationIsVisible", .number 0),
    ("defaultConfigurationName", .text l.defaultName),
    ("owner", .text l.owner)]

def NativeTarget.node (id : ObjectId) (t : NativeTarget) : Node :=
  .record "PBXNativeTarget" (some id) [
    ("name", .text t.name),
    ("productName", .text t.name),
    ("productType", .text t.kind.productType),
    ("buildPhases", .references t.buildPhases),
    ("buildConfigurationList", .optional .reference t.configurationList),
    ("productReference", .optional .reference t.productReference)]

def ProjectRecord.node (id : ObjectId) (p : ProjectRecord) : Node :=
  .record "PBXProject" (some id) [
    ("name", .text p.name),
    ("buildConfigurationList", .optional .reference p.configurationList),
    ("mainGroup", .reference p.mainGroup),
    ("productRefGroup", .reference p.productsGroup),
    ("targets", .references p.targets),
    ("compatibilityVersion", .text "Xcode 14.0"),
    ("developmentRegion", .text "en"),
    ("hasScannedForEncodings", .number 0),
    ("knownRegions", .texts ["en", "Base"]),
    ("projectDirPath", .text ""),
    ("projectRoot", .text "")]

def Content.node (id : ObjectId) : Content → Node
  | file f => f.node id
  | buildFile f => f.node id
  | phase p => p.node id
  | group g => g.node id
  | configuration c => c.node id
  | configurationList l => l.node id
  | target t => t.node id
  | project p => p.node id

def Object.node (o : Object) : Node := o.content.node o.id

def BuildableReference.node (r : BuildableReference) : Node :=
  .record "BuildableReference" none [
    ("BlueprintIdentifier", .text r.target.text),
    ("BlueprintName", .text r.targetName),
    ("BuildableName", .optional .text r.productName)]

def LaunchArgument.node (a : LaunchArgument) : Node :=
  .record "CommandLineArgument" none [
    ("argument", .text a.text),
    ("isEnabled", .flag a.isEnabled)]

def EnvironmentVariable.node (v : EnvironmentVariable) : Node :=
  .record "EnvironmentVariable" none [
    ("key", .text v.key),
    ("value", .text v.value),
    ("isEnabled", .flag v.isEnabled)]

def Scheme.node (s : Scheme) : Node :=
  .record "XCScheme" none [
    ("name", .text s.name),
    ("buildEntries", .list (s.buildEntries.map BuildableReference.node)),
    ("launchAction", .record "LaunchAction" none [
      ("buildConfiguration", .text s.configuration),
      ("commandLineArguments", .list (s.launchArguments.map LaunchArgument.node)),
      ("environmentVariables", .list (s.environmentVariables.map EnvironmentVariable.node))]),
    ("testAction", .record "TestAction" none [
      ("buildConfiguration", .text s.configuration),
      ("codeCoverageEnabled", .flag s.codeCoverage),
      ("shouldUseLaunchSchemeArgsEnv", .flag true),
      ("testables", .list (s.testables.map BuildableReference.node))])]

namespace Snapshot

/-- The nodes of identified things. -/
def nodes {α : Type} (f : ObjectId → α → Node) (xs : List (Identified α)) : Node :=
  .list (xs.map fun x => f x.id x.content)

def node (s : Snapshot) : Node :=
  .record "XcodeProject" none [
    ("fileReferences", nodes FileReference.node s.fileReferences),
    ("groups", nodes Group.node s.groups),
    ("buildFiles", nodes BuildFile.node s.buildFiles),
    ("buildPhases", nodes BuildPhase.node s.buildPhases),
    ("nativeTargets", .list (s.nativeTargets.map Object.node)),
    ("project", s.project.content.node s.project.id),
    ("buildConfigurations", nodes Configuration.node s.buildConfigurations),
    ("configurationLists", nodes ConfigurationList.node s.configurationLists),
    ("schemes", .list (s.schemes.map Scheme.node))]

end Snapshot
end ProjectGraph
