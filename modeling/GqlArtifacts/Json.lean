import GqlArtifacts.Json.Number

/-!
# JSON values

Objects keep their fields as they were written, repeats included. `Json.canonical` is the value as a
map: fields in the order of their names, and the last of several fields with one name.

A document may hold a string that is no text, with a surrogate on its own or with bytes that are no
characters. Such a string is `unreadable`, and so is an object with such a name. It fits no type,
but where a value of any kind is skipped it does no harm.
-/

namespace GqlArtifacts

inductive Json where
  | null
  | bool (b : Bool)
  | int (n : Int)
  | float (d : Decimal)
  | string (s : String)
  | array (items : List Json)
  | object (fields : List (String × Json))
  | unreadable
deriving Inhabited

namespace Json

/-- Puts a field at its place by name; a field of that name is replaced. -/
def insertField (k : String) (v : Json) : List (String × Json) → List (String × Json)
  | [] => [(k, v)]
  | (k', v') :: rest =>
    match compare k k' with
    | .lt => (k, v) :: (k', v') :: rest
    | .eq => (k, v) :: rest
    | .gt => (k', v') :: insertField k v rest

mutual

/-- Fields by name, and the last field of a name. -/
def canonical : Json → Json
  | array items => array (canonicalItems items)
  | object fields =>
    object ((canonicalFields fields).foldl (fun acc e => insertField e.1 e.2 acc) [])
  | v => v

def canonicalItems : List Json → List Json
  | [] => []
  | v :: vs => canonical v :: canonicalItems vs

def canonicalFields : List (String × Json) → List (String × Json)
  | [] => []
  | (k, v) :: rest => (k, canonical v) :: canonicalFields rest

end

mutual

/-- Whether arrays and objects nest at most `depth` deep, every string is a text and every number
has a finite value. -/
def withinLimits : Nat → Json → Bool
  | _, float d => d.isFinite
  | _, unreadable => false
  | 0, array _ => false
  | depth + 1, array items => itemsWithinLimits depth items
  | 0, object _ => false
  | depth + 1, object fields => fieldsWithinLimits depth fields
  | _, _ => true

def itemsWithinLimits (depth : Nat) : List Json → Bool
  | [] => true
  | v :: vs => withinLimits depth v && itemsWithinLimits depth vs

def fieldsWithinLimits (depth : Nat) : List (String × Json) → Bool
  | [] => true
  | (_, v) :: rest => withinLimits depth v && fieldsWithinLimits depth rest

end

/-- The deepest nesting that a document may have. -/
def nestingLimit : Nat := 127

def string? : Json → Option String
  | string s => some s
  | _ => none

def array? : Json → Option (List Json)
  | array items => some items
  | _ => none

/-- The first field of a name. -/
def field? (v : Json) (name : String) : Option Json :=
  match v with
  | object fields => (fields.find? (·.1 == name)).map Prod.snd
  | _ => none

end Json

end GqlArtifacts
