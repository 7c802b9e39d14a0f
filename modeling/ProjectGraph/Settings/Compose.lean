import ProjectGraph.Settings.Platform

/-! # Settings of a target

A target puts its own settings over those of each of its configurations. -/

namespace ProjectGraph.Settings

/-- The defaults that no target keeps. -/
def strippedKeys : List String :=
  ["CODE_SIGN_IDENTITY",
    "CLANG_WARN_BLOCK_CAPTURE_AUTORELEASING",
    "CLANG_WARN_COMMA",
    "CLANG_WARN_NON_LITERAL_NULL_CONVERSION",
    "CLANG_WARN_OBJC_LITERAL_CONVERSION",
    "CLANG_WARN_RANGE_LOOP_ANALYSIS",
    "CLANG_WARN_STRICT_PROTOTYPES"]

/-- The order in which platforms write their settings, whatever order they are declared in. -/
def platformOrder : List PlatformKind := [.macos, .ios, .watchos, .tvos]

/-- Puts the settings of the target's platforms over `s`. -/
def addPlatforms (platforms : List Platform) (s : Settings) : Settings :=
  platformOrder.foldl (fun s kind =>
    match findPlatform platforms kind with
    | some p => s.update p.settings
    | none => s) s

/-- Puts the settings of the target over `s`. -/
def compose (t : Target) (s : Settings) : Settings :=
  let s := strippedKeys.foldl Table.erase s
  let s := s.insert "INFOPLIST_FILE" (.text t.infoPlist)
  let s := s.insert "PRODUCT_BUNDLE_IDENTIFIER" (.text t.bundleId)
  let s := s.insert "APPLICATION_EXTENSION_API_ONLY"
    (.text (if t.isSafeForExtensions then "YES" else "NO"))
  let s := s.insert "SUPPORTED_PLATFORMS" (.text (supportedPlatforms t.platforms))
  let s := addPlatforms t.platforms s
  s.insert "SWIFT_VERSION" (.text t.language.version)

end ProjectGraph.Settings
