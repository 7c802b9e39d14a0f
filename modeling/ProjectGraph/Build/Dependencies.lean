import ProjectGraph.Project.Phases
import ProjectGraph.Project.Products

/-! # Dependencies of a target

A dependency names a framework, with or without its extension. Frameworks that the project makes are
linked; the others are third-party ones. -/

namespace ProjectGraph

def frameworkExtension : String := ".framework"

/-- The file name of the framework that a dependency names. -/
def frameworkName (dependency : String) : String :=
  if Text.extensionOf dependency = frameworkExtension then dependency
  else dependency ++ frameworkExtension

/-- Dependencies by who makes them, in declared order. -/
structure Partition where
  known : List (String × Identified FileReference) := []
  thirdParty : List String := []
  deriving DecidableEq

namespace Project

variable [IdScheme]

omit [IdScheme] in
/-- Tells file names of products of the project from others. -/
def partitionNames : List String → Edit Partition
  | [] => return {}
  | name :: names => do
    match ← findProduct name with
    | some product =>
      let rest ← partitionNames names
      return { rest with known := (name, product) :: rest.known }
    | none =>
      let rest ← partitionNames names
      return { rest with thirdParty := name :: rest.thirdParty }

omit [IdScheme] in
/-- Tells the frameworks that the project makes from third-party ones. -/
def partitionDependencies (dependencies : Option (List String)) : Edit Partition :=
  partitionNames ((dependencies.getD []).map frameworkName)

/-- Links the frameworks that the project makes, and returns the names of the others. -/
def linkDependencies (t : ObjectId) (dependencies : Option (List String)) :
    Edit (List String) := do
  let parts ← partitionDependencies dependencies
  parts.known.forM fun (_, product) => addFileToPhase t .frameworks product
  return parts.thirdParty

end Project
end ProjectGraph
