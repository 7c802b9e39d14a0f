import ProjectGraph.Project.Schemes

/-! # Launch settings of a scheme -/

namespace ProjectGraph.Project

def addLaunchArguments (scheme : String) : Option (List String) → Edit Unit
  | none => return
  | some arguments => setLaunchArguments scheme (arguments.map fun a => { text := a })

def addEnvironmentVariables (scheme : String) : Option (Table String String) → Edit Unit
  | none => return
  | some environment =>
    setEnvironmentVariables scheme (environment.entries.map fun e => { key := e.1, value := e.2 })

/-- The launch settings that a target declares. -/
def addLaunchSettings (scheme : String) (t : Target) : Edit Unit := do
  addLaunchArguments scheme t.launchArguments
  addEnvironmentVariables scheme t.environmentVariables

/-- Sets up the scheme of a target and returns its name. Where the test target declares launch
settings of its own, these win. -/
def configureScheme (d : Declaration) (t : ObjectId) (test : Option ObjectId) : Edit String := do
  let scheme ← schemeFor t
  match test with
  | some test => setTestTargets scheme [test] d.target.enableCodeCoverage
  | none => pure ()
  addLaunchSettings scheme d.target
  match d.test with
  | some test => addLaunchSettings scheme test
  | none => pure ()
  return scheme

end ProjectGraph.Project
