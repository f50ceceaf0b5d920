import GqlArtifacts.Files.Tree
import GqlArtifacts.Config.Interpolation
import GqlArtifacts.Text.Quoted
import GqlArtifacts.Toml.Date

/-!
# Configurations

What a project configuration says, with the defaults for what it leaves out, and what can be wrong
with it. `Config.ofFields` takes the settings from the fields of a TOML document: every field has to
be known and of the right type, and the first one that is not is reported. Only then are the
required fields looked for.
-/

namespace GqlArtifacts

/-- The command that generates code. -/
structure BackendCommand where
  command : String
  args : List String
deriving DecidableEq, Inhabited

structure Config where
  schema : List String
  documents : List String
  plugins : List String
  /-- The project root, relative to the directory of the configuration. -/
  cwd? : Option String
  cacheDir : String
  typesDir : String
  entrypoint : String
  silent : Bool
  options : List (String × Toml.Value)
  backend : BackendCommand
deriving Inhabited

namespace Config

/-- How a document does not fit the settings. -/
inductive Mismatch where
  | unknownField (name : String) (expected : List String)
  | missingField (name : String)
  | invalidType (found : Toml.Value) (expected : String)
  | invalidDate (text : String)
deriving Inhabited

/-- What a value is called where another type was expected. -/
def describe : Toml.Value → String
  | .string s => s!"string {Text.quoted s}"
  | .integer n => s!"integer `{n}`"
  | .real (.finite d) => s!"floating point `{d.positionalText}`"
  | .real (.infinite true) => "floating point `-inf`"
  | .real (.infinite false) => "floating point `inf`"
  | .real .notANumber => "floating point `NaN`"
  | .boolean b => s!"boolean `{b}`"
  | .date _ => "map"
  | .array _ => "sequence"
  | .table _ => "map"

def Mismatch.message : Mismatch → String
  | unknownField name expected =>
    let names := expected.map fun e => s!"`{e}`"
    let list :=
      match names with
      | [a, b] => s!"{a} or {b}"
      | _ => "one of " ++ String.intercalate ", " names
    s!"unknown field `{name}`, expected {list}"
  | missingField name => s!"missing field `{name}`"
  | invalidType found expected => s!"invalid type: {describe found}, expected {expected}"
  | invalidDate _ => "failed to parse datetime"

/-- A setting whose value is not allowed. -/
inductive Violation where
  | documentOutside (glob : String)
  | pathOutside (field value : String)
deriving DecidableEq, Inhabited

def Violation.message : Violation → String
  | documentOutside glob =>
    s!"document glob '{glob}' must be relative and must not escape the project root; " ++
      "set `cwd` to a common parent directory instead"
  | pathOutside field value =>
    s!"{field} '{value}' must be relative and must not escape the project root"

inductive Error where
  | unreadable (e : Files.FileError)
  | undefinedVariable (e : UndefinedVariable)
  | notToml
  | mismatch (m : Mismatch)
  | missing (field : String)
  | invalid (v : Violation)
deriving Inhabited

def Error.message : Error → String
  | unreadable e => s!"failed to read configuration: {e.message}"
  | undefinedVariable e => e.message
  | notToml => "failed to parse configuration: not a TOML document"
  | mismatch m => s!"failed to parse configuration: {m.message}"
  | missing field => s!"missing required field: {field}"
  | invalid v => s!"validation error: {v.message}"

def stringOf : Toml.Value → Except Mismatch String
  | .string s => .ok s
  | v => .error (.invalidType v "a string")

def boolOf : Toml.Value → Except Mismatch Bool
  | .boolean b => .ok b
  | v => .error (.invalidType v "a boolean")

def stringsOf : Toml.Value → Except Mismatch (List String)
  | .array items => items.mapM stringOf
  | v => .error (.invalidType v "a sequence")

/-- A list of strings, where a string stands for the list of it alone. -/
def oneOrMore : Toml.Value → Except Mismatch (List String)
  | .string s => .ok [s]
  | .array items => items.mapM stringOf
  | v => .error (.invalidType v "a string or a list of strings")

/-- The date that a table with the field of a date in front stands for. -/
def dateOf : Toml.Value → Except Mismatch Toml.Value
  | .string s =>
    match Toml.date? s with
    | some text => .ok (.date text)
    | none => .error (.invalidDate s)
  | v => .error (.invalidType v "string containing a datetime")

mutual

/-- A value with dates in the place of the tables that stand for them. -/
def withDates : Toml.Value → Except Mismatch Toml.Value
  | .array items => return .array (← itemsWithDates items)
  | .table [] => return .table []
  | .table ((k, v) :: rest) =>
    if k = Toml.dateField then dateOf v
    else return .table ((k, ← withDates v) :: (← fieldsWithDates rest))
  | v => return v

def itemsWithDates : List Toml.Value → Except Mismatch (List Toml.Value)
  | [] => return []
  | v :: vs => return (← withDates v) :: (← itemsWithDates vs)

def fieldsWithDates : List (String × Toml.Value) → Except Mismatch (List (String × Toml.Value))
  | [] => return []
  | (k, v) :: rest => return (k, ← withDates v) :: (← fieldsWithDates rest)

end

/-- The fields of a table, which itself stands for no date. -/
def fieldsOf : Toml.Value → Except Mismatch (List (String × Toml.Value))
  | .table fields => fieldsWithDates fields
  | .date text => .ok [(Toml.dateField, .string text)]
  | v => .error (.invalidType v "a map")

end Config

namespace BackendCommand

def fieldNames : List String := ["command", "args"]

def initial : BackendCommand := ⟨"graft-codegen", []⟩

def set (b : BackendCommand) (name : String) (v : Toml.Value) :
    Except Config.Mismatch BackendCommand :=
  match name with
  | "command" => return { b with command := ← Config.stringOf v }
  | "args" => return { b with args := ← Config.stringsOf v }
  | _ => .error (.unknownField name fieldNames)

/-- A table of the settings, or a list of them in order, which may end early. -/
def ofValue : Toml.Value → Except Config.Mismatch BackendCommand
  | .table fields => fields.foldlM (fun b (k, v) => b.set k v) initial
  | .date text => initial.set Toml.dateField (.string text)
  | .array items => (fieldNames.zip items).foldlM (fun b (k, v) => b.set k v) initial
  | v => .error (.invalidType v "struct BackendConfig")

end BackendCommand

namespace Config

def fieldNames : List String :=
  ["schema", "documents", "plugins", "cwd", "cache_dir", "gen_dts_dir", "type_inject_entrypoint",
    "silent", "generate_options", "backend"]

def requiredFields : List String := ["schema", "documents", "plugins"]

/-- The settings of an empty document. -/
def initial : Config where
  schema := []
  documents := []
  plugins := []
  cwd? := none
  cacheDir := "node_modules/.cache/graft"
  typesDir := "__generated__/types"
  entrypoint := "node_modules/@types/graft/index.d.ts"
  silent := false
  options := []
  backend := .initial

def set (c : Config) (name : String) (v : Toml.Value) : Except Mismatch Config :=
  match name with
  | "schema" => return { c with schema := ← oneOrMore v }
  | "documents" => return { c with documents := ← oneOrMore v }
  | "plugins" => return { c with plugins := ← stringsOf v }
  | "cwd" => return { c with cwd? := some (← stringOf v) }
  | "cache_dir" => return { c with cacheDir := ← stringOf v }
  | "gen_dts_dir" => return { c with typesDir := ← stringOf v }
  | "type_inject_entrypoint" => return { c with entrypoint := ← stringOf v }
  | "silent" => return { c with silent := ← boolOf v }
  | "generate_options" => return { c with options := ← fieldsOf v }
  | "backend" => return { c with backend := ← BackendCommand.ofValue v }
  | _ => .error (.unknownField name fieldNames)

/-- The settings that the fields of a document make. -/
def ofFields (fields : List (String × Toml.Value)) : Except Mismatch Config := do
  let c ← fields.foldlM (fun c (k, v) => c.set k v) initial
  match requiredFields.find? fun name => !fields.any (·.1 == name) with
  | some name => .error (.missingField name)
  | none => return c

end Config

end GqlArtifacts
