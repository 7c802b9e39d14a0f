import ProjectGraph.ObjectId.Basic
import ProjectGraph.Setting

/-! # Documents

A document is a tree of values in which a project is written down. Objects are records with an id;
references stand among the values. A place in a document has a context, the path of field names, keys
and indices that leads to it. -/

namespace ProjectGraph

inductive Node where
  | absent
  | flag (b : Bool)
  | number (n : Int)
  | text (s : String)
  | reference (r : Reference)
  /-- A value of a type that no document has, which reads as a list. -/
  | foreign (typeName : String) (items : List String)
  /-- A build setting, a record of its own around its value. -/
  | setting (value : SettingValue)
  | list (items : List Node)
  | table (entries : List (String × Node))
  | record (type : String) (id : Option ObjectId) (fields : List (String × Node))

/-- What the checks of references look at. -/
inductive Leaf where
  | reference (r : Reference)
  /-- A value of a type that no document has. -/
  | foreign (typeName : String)
  deriving DecidableEq, Repr

namespace Node

def texts (items : List String) : Node := .list (items.map .text)

def references (rs : List Reference) : Node := .list (rs.map .reference)

def optional {α : Type} (f : α → Node) : Option α → Node
  | none => .absent
  | some a => f a

/-! ## Ids -/

mutual

/-- The ids of the objects in a document, in order. -/
def ids : Node → List ObjectId
  | list items => idsOfItems items
  | table entries => idsOfEntries entries
  | record _ id fields => id.toList ++ idsOfEntries fields
  | _ => []

def idsOfItems : List Node → List ObjectId
  | [] => []
  | n :: ns => ids n ++ idsOfItems ns

def idsOfEntries : List (String × Node) → List ObjectId
  | [] => []
  | (_, n) :: es => ids n ++ idsOfEntries es

end

/-! ## Leaves -/

/-- The leaf of a setting whose value is no setting value. -/
def settingLeaves (context : String) : SettingValue → List (String × Leaf)
  | .foreign typeName _ => [(context ++ ".value", .foreign typeName)]
  | _ => []

mutual

/-- The leaves of a document with their contexts, in order. -/
def leaves (context : String) : Node → List (String × Leaf)
  | reference r => [(context, .reference r)]
  | foreign typeName _ => [(context, .foreign typeName)]
  | setting value => settingLeaves context value
  | list items => leavesOfItems context 0 items
  | table entries => leavesOfEntries context entries
  | record _ _ fields => leavesOfEntries context fields
  | _ => []

def leavesOfItems (context : String) : (index : Nat) → List Node → List (String × Leaf)
  | _, [] => []
  | index, n :: ns =>
    leaves (context ++ "[" ++ toString index ++ "]") n ++ leavesOfItems context (index + 1) ns

def leavesOfEntries (context : String) : List (String × Node) → List (String × Leaf)
  | [] => []
  | (key, n) :: es => leaves (context ++ "." ++ key) n ++ leavesOfEntries context es

end

end Node
end ProjectGraph
