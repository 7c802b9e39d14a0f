import ProjectGraph.FileType
import ProjectGraph.Settings.Platform

/-! # Default settings

Every configuration of a target starts from defaults, which depend on its platform, its language, its
kind and the name of the configuration. -/

namespace ProjectGraph

/-- The sets of defaults that belong to a configuration. -/
inductive Variant where
  | debug
  | release
  deriving DecidableEq, Repr

/-- The set of a configuration's name, letter case ignored; an unknown name gets the release one. -/
def Variant.ofName (configuration : String) : Variant :=
  if lowerText configuration = "debug" then .debug else .release

namespace Settings

def common : Settings where
  entries := [
    ("ALWAYS_SEARCH_USER_PATHS", .yesNo .no),
    ("CLANG_ANALYZER_NONNULL", .yesNo .yes),
    ("CLANG_ENABLE_MODULES", .yesNo .yes),
    ("CLANG_ENABLE_OBJC_ARC", .yesNo .yes),
    ("CLANG_WARN_BLOCK_CAPTURE_AUTORELEASING", .yesNo .yes),
    ("CLANG_WARN_BOOL_CONVERSION", .yesNo .yes),
    ("CLANG_WARN_COMMA", .yesNo .yes),
    ("CLANG_WARN_CONSTANT_CONVERSION", .yesNo .yes),
    ("CLANG_WARN_EMPTY_BODY", .yesNo .yes),
    ("CLANG_WARN_ENUM_CONVERSION", .yesNo .yes),
    ("CLANG_WARN_INFINITE_RECURSION", .yesNo .yes),
    ("CLANG_WARN_INT_CONVERSION", .yesNo .yes),
    ("CLANG_WARN_NON_LITERAL_NULL_CONVERSION", .yesNo .yes),
    ("CLANG_WARN_OBJC_LITERAL_CONVERSION", .yesNo .yes),
    ("CLANG_WARN_RANGE_LOOP_ANALYSIS", .yesNo .yes),
    ("CLANG_WARN_STRICT_PROTOTYPES", .yesNo .yes),
    ("CLANG_WARN_UNREACHABLE_CODE", .yesNo .yes),
    ("CODE_SIGN_IDENTITY", .text "-"),
    ("GCC_WARN_UNDECLARED_SELECTOR", .yesNo .yes),
    ("GCC_WARN_UNUSED_FUNCTION", .yesNo .yes),
    ("GCC_WARN_UNUSED_VARIABLE", .yesNo .yes),
    ("PRODUCT_NAME", .text "$(TARGET_NAME)")]
  nodup := by decide

def ofVariant : Variant → Settings
  | .debug =>
    { entries := [
        ("COPY_PHASE_STRIP", .yesNo .no),
        ("DEBUG_INFORMATION_FORMAT", .text "dwarf"),
        ("ENABLE_TESTABILITY", .yesNo .yes),
        ("GCC_OPTIMIZATION_LEVEL", .text "0"),
        ("GCC_PREPROCESSOR_DEFINITIONS", .list ["DEBUG=1", "$(inherited)"]),
        ("ONLY_ACTIVE_ARCH", .yesNo .yes)]
      nodup := by decide }
  | .release =>
    { entries := [
        ("COPY_PHASE_STRIP", .yesNo .no),
        ("DEBUG_INFORMATION_FORMAT", .text "dwarf-with-dsym"),
        ("ENABLE_NS_ASSERTIONS", .yesNo .no),
        ("VALIDATE_PRODUCT", .yesNo .yes)]
      nodup := by decide }

def ofLanguage : LanguageKind → Variant → Settings
  | .swift, .debug =>
    { entries := [
        ("SWIFT_ACTIVE_COMPILATION_CONDITIONS", .text "DEBUG"),
        ("SWIFT_OPTIMIZATION_LEVEL", .text "-Onone")]
      nodup := by decide }
  | .swift, .release =>
    { entries := [
        ("SWIFT_COMPILATION_MODE", .text "wholemodule"),
        ("SWIFT_OPTIMIZATION_LEVEL", .text "-O")]
      nodup := by decide }
  | .objc, _ => ∅

def framework : Settings where
  entries := [
    ("CURRENT_PROJECT_VERSION", .text "1"),
    ("DEFINES_MODULE", .yesNo .yes),
    ("DYLIB_COMPATIBILITY_VERSION", .text "1"),
    ("DYLIB_CURRENT_VERSION", .text "1"),
    ("DYLIB_INSTALL_NAME_BASE", .text "@rpath"),
    ("INSTALL_PATH", .text "$(LOCAL_LIBRARY_DIR)/Frameworks"),
    ("SKIP_INSTALL", .yesNo .yes),
    ("VERSIONING_SYSTEM", .text "apple-generic")]
  nodup := by decide

def test : Settings where
  entries := [
    ("LD_RUNPATH_SEARCH_PATHS", .list
      ["$(inherited)", "@executable_path/../Frameworks", "@loader_path/../Frameworks"])]
  nodup := by decide

/-- The settings that frameworks and tests add. -/
def ofKind (kind : TargetKind) : Settings :=
  if kind = .framework then framework else if kind.isTest then test else ∅

/-- The settings that a configuration of this name starts from. -/
def defaults (platform : PlatformKind) (language : LanguageKind) (kind : TargetKind)
    (configuration : String) : Settings :=
  let variant := Variant.ofName configuration
  (((common.insert "SDKROOT" (.text platform.sdkRoot)).update (ofVariant variant)).update
    (ofLanguage language variant)).update (ofKind kind)

end Settings
end ProjectGraph
