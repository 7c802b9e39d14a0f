import ProjectGraph.Error

/-! # Untyped values

Settings of a project arrive as untyped values. Where names are wanted, a value is one name or a list
of names. -/

namespace ProjectGraph

inductive Value where
  | null
  | flag (b : Bool)
  | number (n : Int)
  /-- A number with a fraction or an exponent, as messages show it. -/
  | real (digits : String)
  | text (s : String)
  | list (items : List Value)
  | table (entries : List (String × Value))

namespace Value

/-- The name of the value's type, for messages. -/
def typeName : Value → String
  | null => "NoneType"
  | flag _ => "bool"
  | number _ => "int"
  | real _ => "float"
  | text _ => "str"
  | list _ => "list"
  | table _ => "dict"

mutual

/-- The value as messages show it. -/
def shown : Value → String
  | null => "None"
  | flag true => "True"
  | flag false => "False"
  | number n => toString n
  | real digits => digits
  | text s => Text.quoted s
  | list items => "[" ++ ", ".intercalate (shownItems items) ++ "]"
  | table entries => String.singleton '{' ++ ", ".intercalate (shownEntries entries) ++ String.singleton '}'

def shownItems : List Value → List String
  | [] => []
  | v :: vs => shown v :: shownItems vs

def shownEntries : List (String × Value) → List String
  | [] => []
  | (key, v) :: es => (Text.quoted key ++ ": " ++ shown v) :: shownEntries es

end

/-- The value as one name. -/
def name : Value → Except Error String
  | text s => .ok s
  | v => .error (.notName v.typeName v.shown)

/-- The value as one name or a list of names. The first element that is no name is reported. -/
def names : Value → Except Error (List String)
  | text s => .ok [s]
  | list items => items.mapM name
  | v => .error (.notNames v.typeName)

end Value
end ProjectGraph
