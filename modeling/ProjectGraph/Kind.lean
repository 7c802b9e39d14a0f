import ProjectGraph.Error

/-! # Kinds of platforms, languages, targets and build phases -/

namespace ProjectGraph

/-- The member of an enumeration that has this name. -/
def readName {α : Type} (enumeration : String) (members : List α) (name : α → String)
    (text : String) : Except Error α :=
  match members.find? fun m => name m = text with
  | some m => .ok m
  | none => .error (.unknownName enumeration text)

/-! ## Platforms -/

inductive PlatformKind where
  | macos
  | ios
  | watchos
  | tvos
  deriving DecidableEq, Repr

namespace PlatformKind

def all : List PlatformKind := [macos, ios, watchos, tvos]

def name : PlatformKind → String
  | macos => "macos"
  | ios => "ios"
  | watchos => "watchos"
  | tvos => "tvos"

def read : String → Except Error PlatformKind := readName "PlatformKind" all name

end PlatformKind

/-! ## Languages -/

inductive LanguageKind where
  | swift
  | objc
  deriving DecidableEq, Repr

namespace LanguageKind

def all : List LanguageKind := [swift, objc]

def name : LanguageKind → String
  | swift => "swift"
  | objc => "objc"

def read : String → Except Error LanguageKind := readName "LanguageKind" all name

end LanguageKind

/-! ## Targets -/

inductive TargetKind where
  | framework
  | staticLibrary
  | dynamicLibrary
  | application
  | appExtension
  | bundle
  | tool
  | unitTestBundle
  | uiTestBundle
  deriving DecidableEq, Repr

namespace TargetKind

def all : List TargetKind :=
  [framework, staticLibrary, dynamicLibrary, application, appExtension, bundle, tool,
    unitTestBundle, uiTestBundle]

def name : TargetKind → String
  | framework => "framework"
  | staticLibrary => "static_library"
  | dynamicLibrary => "dynamic_library"
  | application => "application"
  | appExtension => "app_extension"
  | bundle => "bundle"
  | tool => "tool"
  | unitTestBundle => "unit_test_bundle"
  | uiTestBundle => "ui_test_bundle"

def read : String → Except Error TargetKind := readName "TargetKind" all name

def isTest : TargetKind → Bool
  | unitTestBundle | uiTestBundle => true
  | _ => false

/-- The extension of the product's file name; a tool has none. -/
def productExtension : TargetKind → String
  | framework => ".framework"
  | staticLibrary => ".a"
  | dynamicLibrary => ".dylib"
  | application => ".app"
  | appExtension => ".appex"
  | bundle => ".bundle"
  | tool => ""
  | unitTestBundle | uiTestBundle => ".xctest"

/-- The name of the product type in a project file. -/
def productType : TargetKind → String
  | framework => "com.apple.product-type.framework"
  | staticLibrary => "com.apple.product-type.library.static"
  | dynamicLibrary => "com.apple.product-type.library.dynamic"
  | application => "com.apple.product-type.application"
  | appExtension => "com.apple.product-type.app-extension"
  | bundle => "com.apple.product-type.bundle"
  | tool => "com.apple.product-type.tool"
  | unitTestBundle => "com.apple.product-type.bundle.unit-test"
  | uiTestBundle => "com.apple.product-type.bundle.ui-testing"

end TargetKind

/-! ## Build phases -/

/-- The build phases that hold files; a target has at most one of each. -/
inductive PhaseKind where
  | headers
  | sources
  | resources
  | frameworks
  deriving DecidableEq, Repr

namespace PhaseKind

def all : List PhaseKind := [headers, sources, resources, frameworks]

def name : PhaseKind → String
  | headers => "headers"
  | sources => "sources"
  | resources => "resources"
  | frameworks => "frameworks"

def read : String → Except Error PhaseKind := readName "BuildPhaseKind" all name

/-- The comment of references to a phase of this kind. -/
def title : PhaseKind → String
  | headers => "Headers"
  | sources => "Sources"
  | resources => "Resources"
  | frameworks => "Frameworks"

/-- The type of the phase in a project file. -/
def typeName : PhaseKind → String
  | headers => "PBXHeadersBuildPhase"
  | sources => "PBXSourcesBuildPhase"
  | resources => "PBXResourcesBuildPhase"
  | frameworks => "PBXFrameworksBuildPhase"

end PhaseKind
end ProjectGraph
