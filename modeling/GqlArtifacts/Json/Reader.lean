import GqlArtifacts.Json.Token
import GqlArtifacts.Text.Utf8

/-!
# Reading JSON

`Json.ofTokens?` builds one value from its tokens. It goes through them once and keeps the arrays
and objects that are still open, innermost first. `Json.parse?` and `Json.parseBytes?` read a text
or bytes that hold one value, with blanks around it, and nothing else.
-/

namespace GqlArtifacts.Json

/-- An array or an object that is still open, with what it holds so far, last first. -/
inductive Frame where
  | array (items : List Json)
  | object (fields : List (Option String × Json))
  /-- An object after a name and its colon. -/
  | field (fields : List (Option String × Json)) (name : Option String)

/-- What may come next. -/
inductive Expectation where
  | value
  /-- A value, or the end of the array just opened. -/
  | firstItem
  | name
  /-- A name, or the end of the object just opened. -/
  | firstName
  | colon (name : Option String)
  /-- A comma or the end of the innermost frame. -/
  | continuation
  | nothing (v : Json)

structure Reader where
  expected : Expectation
  frames : List Frame

namespace Reader

def start : Reader := ⟨.value, []⟩

/-- Puts a finished value where it belongs. -/
def finish (v : Json) : List Frame → Option Reader
  | [] => some ⟨.nothing v, []⟩
  | .array items :: frames => some ⟨.continuation, .array (v :: items) :: frames⟩
  | .field fields name :: frames => some ⟨.continuation, .object ((name, v) :: fields) :: frames⟩
  | .object _ :: _ => none

/-- The object of some fields, last first. -/
def objectOf (fields : List (Option String × Json)) : Json :=
  match fields.reverse.mapM fun (name, v) => name.map (·, v) with
  | some fields => .object fields
  | none => .unreadable

/-- Closes the innermost frame, an array. -/
def closeArray : List Frame → Option Reader
  | .array items :: frames => finish (.array items.reverse) frames
  | _ => none

/-- Closes the innermost frame, an object. -/
def closeObject : List Frame → Option Reader
  | .object fields :: frames => finish (objectOf fields) frames
  | _ => none

/-- Takes the first token of a value. -/
def beginValue (frames : List Frame) : Token → Option Reader
  | .openArray => some ⟨.firstItem, .array [] :: frames⟩
  | .openObject => some ⟨.firstName, .object [] :: frames⟩
  | .scalar v => finish v frames
  | _ => none

/-- Takes the name of a field. -/
def beginField (frames : List Frame) : Token → Option Reader
  | .scalar (.string k) => some ⟨.colon (some k), frames⟩
  | .scalar .unreadable => some ⟨.colon none, frames⟩
  | _ => none

def step (r : Reader) (t : Token) : Option Reader :=
  match r.expected, t with
  | .value, t => beginValue r.frames t
  | .firstItem, .closeArray => closeArray r.frames
  | .firstItem, t => beginValue r.frames t
  | .name, t => beginField r.frames t
  | .firstName, .closeObject => closeObject r.frames
  | .firstName, t => beginField r.frames t
  | .colon name, .colon =>
    match r.frames with
    | .object fields :: frames => some ⟨.value, .field fields name :: frames⟩
    | _ => none
  | .continuation, .comma =>
    match r.frames with
    | .array items :: frames => some ⟨.value, .array items :: frames⟩
    | .object fields :: frames => some ⟨.name, .object fields :: frames⟩
    | _ => none
  | .continuation, .closeArray => closeArray r.frames
  | .continuation, .closeObject => closeObject r.frames
  | _, _ => none

/-- The value that was read, once nothing more may come. -/
def result? (r : Reader) : Option Json :=
  match r.expected with
  | .nothing v => some v
  | _ => none

end Reader

/-- The one value that the tokens make. -/
def ofTokens? (ts : List Token) : Option Json :=
  (ts.foldlM Reader.step .start).bind Reader.result?

def ofSymbols? (cs : Symbols) : Option Json := (tokens? cs).bind ofTokens?

/-- Reads a whole text as one value. -/
def parse? (s : String) : Option Json := ofSymbols? ((Text.chars s).map some)

/-- Reads bytes as one value. -/
def parseBytes? (content : ByteArray) : Option Json := ofSymbols? (Text.decode content.toList)

end GqlArtifacts.Json
