import ProjectGraph.Document.Snapshot

/-! # Checks of a project

A project is sound when it holds every object that it refers to, when every target is complete, and
when its schemes name targets of the project. -/

namespace ProjectGraph.Snapshot

/-- The ids of the objects that the snapshot holds, each once. -/
def ids (s : Snapshot) : List ObjectId := s.node.ids.eraseDups

/-- The problem with a leaf of the document, if `known` are the ids that may be referred to. -/
def leafProblem? (known : List ObjectId) (context : String) : Leaf → Option String
  | .reference r =>
    if r.id ∈ known then none
    else some ("Invalid reference in " ++ context ++ ": " ++ r.id.text)
  | .foreign typeName => some ("Unknown type in " ++ context ++ ": " ++ typeName)

/-- The references to objects that the snapshot does not hold, and the values of unknown types. -/
def referenceProblems (s : Snapshot) : List String :=
  let known := s.ids
  (s.node.leaves "project").filterMap fun (context, leaf) => leafProblem? known context leaf

/-- What there is to say about a part of an object, if it has a place for the part. Only an object
that lacks the part needs a name. -/
def lack? (o : Object) (label : String) (part : Option (Option Reference)) :
    Option (List String) := do
  match ← part with
  | some _ => return []
  | none => return ["Target " ++ (← o.content.name?) ++ " has no " ++ label]

/-- The parts that an object lacks, if it has a place for these parts. -/
def lacks? (o : Object) : Option (List String) := do
  return (← lack? o "build configuration list" o.configurationList?) ++
    (← lack? o "product reference" o.productReference?)

/-- The parts that a listed target lacks. -/
def lacksOf (o : Object) : Except Error (List String) :=
  match lacks? o with
  | some problems => .ok problems
  | none => .error (.unsuitableObject o.id)

/-- The parts that targets lack. -/
def targetProblems (s : Snapshot) : Except Error (List String) := do
  return (← s.nativeTargets.mapM lacksOf).flatten

/-- The entries of schemes whose target is none of the project's. -/
def schemeProblems (s : Snapshot) : List String :=
  s.schemes.flatMap fun scheme =>
    (scheme.buildEntries ++ scheme.testables).filterMap fun entry =>
      if s.nativeTargets.any fun t => t.id = entry.target then none
      else some ("Scheme " ++ scheme.name ++ " refers to unknown target " ++ entry.targetName)

/-- Refuses an unsound project. References are checked first. -/
def check (s : Snapshot) : Except Error Unit := do
  let broken := s.referenceProblems
  if broken ≠ [] then throw (.invalidProject broken)
  let problems := (← s.targetProblems) ++ s.schemeProblems
  if problems ≠ [] then throw (.invalidTargets problems)

end ProjectGraph.Snapshot
