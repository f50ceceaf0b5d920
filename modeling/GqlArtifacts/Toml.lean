import GqlArtifacts.Json

/-!
# TOML values

What a TOML document consists of. A date or a time is kept as its text in normal form. Tables keep
their fields in the order in which they were first written, and hold each name once.
-/

namespace GqlArtifacts.Toml

inductive Real where
  | finite (d : Decimal)
  | infinite (negative : Bool)
  | notANumber
deriving DecidableEq, Inhabited

inductive Value where
  | string (s : String)
  | integer (n : Int)
  | real (x : Real)
  | boolean (b : Bool)
  | date (text : String)
  | array (items : List Value)
  | table (fields : List (String × Value))
deriving Inhabited

/-- The name of the one field that a date has where it is read as a table. A table with this field
in front stands for a date. -/
def dateField : String := "$__toml_private_datetime"

/-- Values that JSON cannot write become null. -/
def Real.toJson : Real → Json
  | finite d => .float d
  | _ => .null

namespace Value

mutual

def toJson : Value → Json
  | string s => .string s
  | integer n => .int n
  | real x => x.toJson
  | boolean b => .bool b
  | date text => .object [(dateField, .string text)]
  | array items => .array (itemsToJson items)
  | table fields => .object (fieldsToJson fields)

def itemsToJson : List Value → List Json
  | [] => []
  | v :: vs => toJson v :: itemsToJson vs

def fieldsToJson : List (String × Value) → List (String × Json)
  | [] => []
  | (k, v) :: rest => (k, toJson v) :: fieldsToJson rest

end

end Value

end GqlArtifacts.Toml
