import ProjectGraph.Setting
import ProjectGraph.Target

/-! # Settings by platform -/

namespace ProjectGraph

namespace PlatformKind

/-- The names under which `SUPPORTED_PLATFORMS` lists the platform. -/
def supportedNames : PlatformKind → String
  | macos => "macosx"
  | ios => "iphonesimulator iphoneos"
  | watchos => "watchsimulator watchos"
  | tvos => "appletvsimulator appletvos"

def sdkRoot : PlatformKind → String
  | macos => "macosx"
  | ios => "iphoneos"
  | watchos => "watchos"
  | tvos => "appletvos"

def deploymentKey : PlatformKind → String
  | macos => "MACOSX_DEPLOYMENT_TARGET"
  | ios => "IPHONEOS_DEPLOYMENT_TARGET"
  | watchos => "WATCHOS_DEPLOYMENT_TARGET"
  | tvos => "TVOS_DEPLOYMENT_TARGET"

def searchPathKey : PlatformKind → String
  | macos => "FRAMEWORK_SEARCH_PATHS[sdk=macosx*]"
  | ios => "FRAMEWORK_SEARCH_PATHS[sdk=iphone*]"
  | watchos => "FRAMEWORK_SEARCH_PATHS[sdk=watch*]"
  | tvos => "FRAMEWORK_SEARCH_PATHS[sdk=appletv*]"

theorem deploymentKey_ne_searchPathKey (k : PlatformKind) :
    k.deploymentKey ≠ k.searchPathKey := by
  cases k <;> decide

end PlatformKind

/-- The first platform of this kind. -/
def findPlatform (platforms : List Platform) (kind : PlatformKind) : Option Platform :=
  platforms.find? fun p => p.kind = kind

/-- The value of `SUPPORTED_PLATFORMS`, in declared order. -/
def supportedPlatforms (platforms : List Platform) : String :=
  " ".intercalate (platforms.map fun p => p.kind.supportedNames)

/-- The two settings that a platform has of its own. -/
def Platform.settings (p : Platform) : Settings where
  entries := [(p.kind.deploymentKey, .text p.minimumVersion),
    (p.kind.searchPathKey, .list p.searchPaths)]
  nodup := by simpa using p.kind.deploymentKey_ne_searchPathKey

/-- The platform whose defaults a target starts from: its only one, or else macOS. -/
def configurationPlatform : List Platform → PlatformKind
  | [p] => p.kind
  | _ => .macos

end ProjectGraph
