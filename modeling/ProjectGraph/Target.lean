import ProjectGraph.FirstRepeat
import ProjectGraph.Kind
import ProjectGraph.Table

/-! # Target descriptions

A target description tells what is to be built and from which files. A missing part means that there
is nothing to do, which an empty part does not. -/

namespace ProjectGraph

structure Platform where
  kind : PlatformKind
  minimumVersion : String
  searchPaths : List String := ["$(inherited)"]
  deriving DecidableEq, Repr

structure Language where
  kind : LanguageKind
  version : String
  deriving DecidableEq, Repr

structure Script where
  name : String
  body : String
  inputs : List String := []
  deriving DecidableEq, Repr

/-- The parts of a target description, before its platforms have been checked. -/
structure TargetFields where
  name : String
  kind : TargetKind := .framework
  platforms : List Platform
  language : Language
  infoPlist : String
  bundleId : String
  includeFiles : List String := []
  excludeFiles : Option (List (List String)) := none
  resourceFiles : Option (List String) := none
  header : Option String := none
  dependencies : Option (List String) := none
  preBuildScripts : Option (List Script) := none
  postBuildScripts : Option (List Script) := none
  isSafeForExtensions : Bool := false
  enableCodeCoverage : Bool := false
  launchArguments : Option (List String) := none
  environmentVariables : Option (Table String String) := none
  deriving DecidableEq

/-- A target description, which declares each platform once. -/
structure Target extends TargetFields where
  platforms_nodup : (platforms.map Platform.kind).Nodup
  deriving DecidableEq

namespace TargetFields

/-- Refuses a description that declares a platform twice. -/
def check (t : TargetFields) : Except Error Target :=
  match h : firstRepeat? (t.platforms.map Platform.kind) with
  | none => .ok { t with platforms_nodup := firstRepeat?_eq_none_iff.1 h }
  | some kind => .error (.repeatedPlatform t.name kind.name)

end TargetFields

namespace Target

def isTest (t : Target) : Bool := t.kind.isTest

/-- A short text for people. -/
def description (t : Target) : String :=
  let flag := if t.isTest then "True" else "False"
  let parts := [t.name, t.infoPlist, t.bundleId, t.header.getD "None", t.kind.name, "test=" ++ flag]
  "Target<" ++ ", ".intercalate parts ++ ">"

end Target

/-- A target together with the target that tests it. -/
structure Declaration where
  target : Target
  test : Option Target := none
  deriving DecidableEq

namespace Declaration

/-- The targets to build, in order. -/
def targets (d : Declaration) : List Target := d.target :: d.test.toList

end Declaration

/-- Refuses targets of which two have one name. -/
def checkNames (declarations : List Declaration) : Except Error Unit :=
  match firstRepeat? ((declarations.flatMap Declaration.targets).map fun t => t.name) with
  | some name => .error (.repeatedTarget name)
  | none => .ok ()

end ProjectGraph
