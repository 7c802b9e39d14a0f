import ProjectGraph.ObjectId.Basic

/-! # Schemes

A scheme tells which targets are built, launched and tested together. Schemes are no objects of the
project and refer to targets by id. -/

namespace ProjectGraph

structure BuildableReference where
  target : ObjectId
  targetName : String
  /-- The path of the product, if what stands for the product has one. -/
  productName : Option String
  deriving DecidableEq, Repr

structure LaunchArgument where
  text : String
  isEnabled : Bool := true
  deriving DecidableEq, Repr

structure EnvironmentVariable where
  key : String
  value : String
  isEnabled : Bool := true
  deriving DecidableEq, Repr

structure Scheme where
  name : String
  /-- The configuration to launch and to test. -/
  configuration : String
  buildEntries : List BuildableReference := []
  launchArguments : List LaunchArgument := []
  environmentVariables : List EnvironmentVariable := []
  testables : List BuildableReference := []
  codeCoverage : Bool := false
  deriving DecidableEq, Repr

namespace Scheme

/-- Adds what is to be built, unless its target is there. -/
def addBuildEntry (s : Scheme) (r : BuildableReference) : Scheme :=
  if s.buildEntries.all fun e => e.target ≠ r.target then
    { s with buildEntries := s.buildEntries ++ [r] }
  else s

/-- Sets what is tested, and has it built too. -/
def setTestables (s : Scheme) (refs : List BuildableReference) (codeCoverage : Bool) : Scheme :=
  refs.foldl addBuildEntry { s with testables := refs, codeCoverage := codeCoverage }

end Scheme
end ProjectGraph
