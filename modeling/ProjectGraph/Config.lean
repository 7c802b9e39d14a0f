import ProjectGraph.Value

/-! # The configuration of a generator -/

namespace ProjectGraph

structure Config where
  projectName : String
  projectRoot : String := "."
  /-- The names of the configurations: one name or a list of names. -/
  buildConfig : Value := .list [.text "Debug", .text "Release"]
  scriptsDirectory : Option String := none
  /-- Further attributes, which mean nothing here. -/
  extra : List (String × Value) := []

namespace Config

/-- All attributes in order. -/
def attributes (c : Config) : List (String × Value) :=
  [("project_name", .text c.projectName),
    ("project_root", .text c.projectRoot),
    ("build_config", c.buildConfig),
    ("scripts_directory", (c.scriptsDirectory.map Value.text).getD .null)] ++ c.extra

end Config
end ProjectGraph
