import ProjectGraph.PathName
import ProjectGraph.Table
import ProjectGraph.Text.Quoted

/-! # File trees

A file tree lists its entries by their position, the names on the way down from the top. Absolute
paths start at the top, and relative ones at one of the directories, the home of the tree. The
directory above the top is the top itself. -/

namespace ProjectGraph

/-- What can go wrong when the file tree is searched or changed. -/
inductive FileError where
  /-- A search pattern without any text. -/
  | emptyPattern
  /-- A search pattern that starts at the root of the file system. -/
  | absolutePattern
  /-- A search pattern in which `**` is only a part of a component. -/
  | partialDeep
  /-- A search pattern made of void components only, with or without a slash at its end. -/
  | voidPattern (trailingSlash : Bool)
  | noSuchFile (path : String)
  | alreadyExists (path : String)
  | notADirectory (path : String)
  | isADirectory (path : String)
  | nameTooLong (path : String)
  | nullCharacter
  deriving DecidableEq, Repr

namespace FileError

def message : FileError → String
  | emptyPattern => "Unacceptable pattern: ''"
  | absolutePattern => "Non-relative patterns are unsupported"
  | partialDeep => "Invalid pattern: '**' can only be an entire path component"
  | voidPattern false => "tuple index out of range"
  | voidPattern true => "'_TerminatingSelector' object has no attribute 'select_from'"
  | noSuchFile path => "[Errno 2] No such file or directory: " ++ Text.quoted path
  | alreadyExists path => "[Errno 17] File exists: " ++ Text.quoted path
  | notADirectory path => "[Errno 20] Not a directory: " ++ Text.quoted path
  | isADirectory path => "[Errno 21] Is a directory: " ++ Text.quoted path
  | nameTooLong path => "[Errno 36] File name too long: " ++ Text.quoted path
  | nullCharacter => "embedded null byte"

end FileError

/-- The names on the way from the top of a tree to an entry. -/
abbrev Position := List String

inductive Entry where
  | directory
  | file (content : String)
  deriving DecidableEq, Repr

structure FileTree where
  home : Position
  entries : Table Position Entry
  deriving DecidableEq

/-- Why a name leads nowhere. -/
inductive Obstacle where
  | missing
  | notADirectory
  | nameTooLong
  deriving DecidableEq, Repr

namespace FileTree

variable (t : FileTree)

/-- The entry at a position. The top is a directory. -/
def entryAt (pos : Position) : Option Entry :=
  if pos = [] then some .directory else t.entries.get? pos

/-- The tree whose only entry is its home. -/
def withHome (home : Position) : FileTree := ⟨home, .single home .directory⟩

/-- Puts an entry at a position, over the one that is there. -/
def put (pos : Position) (e : Entry) : FileTree := { t with entries := t.entries.insert pos e }

/-- The longest name of an entry, in bytes. -/
def nameLimit : Nat := 255

/-- The longest spelling of a path, in bytes. -/
def pathLimit : Nat := 4095

/-- Is the path spelled with too many bytes? No path is looked up that is. -/
def IsTooLong (p : PathName) : Prop := pathLimit < p.text.utf8ByteSize

instance (p : PathName) : Decidable (IsTooLong p) := inferInstanceAs (Decidable (_ < _))

/-- A name with a null character is the name of nothing. -/
def HasNull (name : String) : Prop := '\x00' ∈ name.toList

instance (name : String) : Decidable (HasNull name) := inferInstanceAs (Decidable (_ ∈ _))

/-- One step from a position along a name. -/
def step (pos : Position) (name : String) : Except Obstacle Position :=
  match t.entryAt pos with
  | none => .error .missing
  | some (.file _) => .error .notADirectory
  | some .directory =>
    if name = ".." then .ok pos.dropLast
    else if HasNull name then .error .missing
    else if nameLimit < name.utf8ByteSize then .error .nameTooLong
    else if (t.entryAt (pos ++ [name])).isSome then .ok (pos ++ [name])
    else .error .missing

/-- Where the way along a path name starts. -/
def start (p : PathName) : Position := if p.IsAbsolute then [] else t.home

/-- The position that a path name leads to. -/
def locate (p : PathName) : Except Obstacle Position :=
  if p.components.any fun name => HasNull name then .error .missing
  else if IsTooLong p then .error .nameTooLong
  else p.components.foldlM t.step (t.start p)

example : (withHome ["work"]).locate (.parse "/../work") = .ok ["work"] := rfl
example : (withHome ["work"]).locate (.parse "../..") = .ok [] := rfl
example : (withHome ["work"]).locate (.parse "/lib") = .error .missing := rfl

/-- Is the path a directory? Only a path or a name that is too long makes the question fail. -/
def isDirectory (p : PathName) : Except FileError Bool :=
  match t.locate p with
  | .ok pos => .ok (t.entryAt pos = some .directory)
  | .error .nameTooLong => .error (.nameTooLong p.text)
  | .error _ => .ok false

/-- The names and entries directly inside a directory. -/
def children (pos : Position) : List (String × Entry) :=
  t.entries.entries.filterMap fun (p, e) =>
    match p.getLast? with
    | some name => if p.dropLast = pos then some (name, e) else none
    | none => none

/-- The directories anywhere below a position, by their names from there on. -/
def directoriesBelow (pos : Position) : List (List String) :=
  t.entries.entries.filterMap fun (p, e) =>
    if e = .directory ∧ pos.length < p.length ∧ p.take pos.length = pos then
      some (p.drop pos.length)
    else none

/-- The positions of all files with this content. -/
def filesWith (content : String) : List Position :=
  t.entries.entries.filterMap fun (p, e) => if e = .file content then some p else none

/-- The tree without the files of this content. -/
def withoutFiles (content : String) : FileTree :=
  { t with entries := t.entries.filter fun _ e => e ≠ .file content }

end FileTree
end ProjectGraph
