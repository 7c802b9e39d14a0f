import ProjectGraph.FileTree.Basic
import ProjectGraph.ObjectId.Basic

/-! # Failures -/

namespace ProjectGraph

/-- Why an operation on a project failed. -/
inductive Error where
  /-- A text that is none of the names of an enumeration. -/
  | unknownName (enumeration text : String)
  /-- Names are wanted, and the value is neither one nor a list. -/
  | notNames (typeName : String)
  /-- Names are wanted, and an element of the list is something else. -/
  | notName (typeName shown : String)
  /-- A project without configurations. -/
  | noConfigurations
  | repeatedPlatform (target platform : String)
  | repeatedTarget (name : String)
  /-- An object is to be registered under an id that another one has. -/
  | duplicateId (id : ObjectId) (key : String)
  /-- No object is registered under the id. -/
  | missingObject (id : ObjectId)
  /-- The object of the id is of another type than its use asks for. -/
  | unsuitableObject (id : ObjectId)
  /-- There are fewer items in the list. -/
  | indexOutOfRange
  /-- The directories above an absolute directory do not end at the main group. -/
  | endlessDirectory (directory : String)
  | rootNotDirectory (root : String)
  | absoluteScriptsDirectory (directory : String)
  | noScriptsDirectory
  /-- The project refers to objects that it does not hold. -/
  | invalidProject (problems : List String)
  /-- A target lacks a part, or a scheme names no target. -/
  | invalidTargets (problems : List String)
  | file (error : FileError)
  deriving DecidableEq, Repr

namespace Error

def message : Error → String
  | unknownName enumeration text => Text.quoted text ++ " is not a valid " ++ enumeration
  | notNames typeName => "expected str or list of str, got " ++ typeName
  | notName typeName shown => "expected str, got " ++ typeName ++ ": " ++ shown
  | noConfigurations => "list index out of range"
  | repeatedPlatform target platform =>
    "target '" ++ target ++ "' declares platform '" ++ platform ++ "' more than once"
  | repeatedTarget name => "target with name='" ++ name ++ "' is declared more than once"
  | duplicateId id key => "duplicate object id " ++ id.text ++ " for key '" ++ key ++ "'"
  | missingObject id => Text.quoted id.text
  | unsuitableObject id => "unsuitable object " ++ Text.quoted id.text
  | indexOutOfRange => "list index out of range"
  | endlessDirectory directory => "endless directory " ++ Text.quoted directory
  | rootNotDirectory root => "project root " ++ root ++ " is not a directory"
  | absoluteScriptsDirectory directory =>
    "scripts directory must be relative to the project root, got '" ++ directory ++ "'"
  | noScriptsDirectory => "no scripts directory configured to install the template into"
  | invalidProject problems => "Invalid project: " ++ Text.quotedList problems
  | invalidTargets problems => "Invalid targets: " ++ Text.quotedList problems
  | file error => error.message

end Error
end ProjectGraph
