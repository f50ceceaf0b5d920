import GqlArtifacts.Json

/-!
# Records in JSON

A record with fixed fields may be written as an object, where unknown fields are skipped and a field
may stand only once, or as an array of the fields in order. `Record.ofJson?` gives the two forms one
view: a required field must be there in both forms, and a field with a default may be left out of
both.
-/

namespace GqlArtifacts.Json

/-- The fields of a record as found, and whether they were found by position. -/
structure Record where
  positional : Bool
  fields : List (String × Json)

namespace Record

/-- Pairs names with items; more items than names make no record. -/
def pair? : List String → List Json → Option (List (String × Json))
  | _, [] => some []
  | [], _ :: _ => none
  | n :: ns, v :: vs => (pair? ns vs).map ((n, v) :: ·)

def hasRepeat : List String → Bool
  | [] => false
  | n :: ns => ns.contains n || hasRepeat ns

def ofJson? (names : List String) : Json → Option Record
  | .object fields =>
    let known := fields.filter fun e => names.contains e.1
    if hasRepeat (known.map Prod.fst) then none else some ⟨false, known⟩
  | .array items => (pair? names items).map (⟨true, ·⟩)
  | _ => none

def get? (r : Record) (name : String) : Option Json :=
  (r.fields.find? fun e => e.1 == name).map Prod.snd

def required {α : Type} (r : Record) (name : String) (read : Json → Option α) : Option α :=
  (r.get? name).bind read

def withDefault {α : Type} (r : Record) (name : String) (d : α) (read : Json → Option α) :
    Option α :=
  match r.get? name with
  | some v => read v
  | none => some d

/-- Null and absence both mean none, in both forms. -/
def optionalOrAbsent {α : Type} (r : Record) (name : String) (read : Json → Option α) :
    Option (Option α) :=
  match r.get? name with
  | some .null => some none
  | some v => (read v).map some
  | none => some none

end Record

/-- Reads every item of an array. -/
def items? {α : Type} (read : Json → Option α) : Json → Option (List α)
  | .array items => items.mapM read
  | _ => none

/-- A natural number below `bound`. -/
def natBelow? (bound : Nat) : Json → Option Nat
  | .int n => if 0 ≤ n ∧ n.toNat < bound then some n.toNat else none
  | _ => none

end GqlArtifacts.Json
