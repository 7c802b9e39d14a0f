import ProjectGraph.Table

/-! # Build settings -/

namespace ProjectGraph

inductive YesNo where
  | yes
  | no
  | yesError
  | yesAggressive
  deriving DecidableEq, Repr

def YesNo.text : YesNo → String
  | yes => "YES"
  | no => "NO"
  | yesError => "YES_ERROR"
  | yesAggressive => "YES_AGGRESSIVE"

inductive SettingValue where
  | text (s : String)
  | number (n : Int)
  | list (items : List String)
  | yesNo (answer : YesNo)
  /-- A value of a type that settings do not have, which reads as a list. -/
  | foreign (typeName : String) (items : List String)
  deriving DecidableEq, Repr

/-- The value without a choice from an enumeration: `YES` and `NO` become texts. -/
def SettingValue.plain : SettingValue → SettingValue
  | yesNo answer => text answer.text
  | value => value

/-- The settings of one configuration, in order. -/
abbrev Settings := Table String SettingValue

namespace Settings

def plain (s : Settings) : Settings := s.map SettingValue.plain

end Settings
end ProjectGraph
