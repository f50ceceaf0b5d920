import GqlArtifacts.Manifest
import GqlArtifacts.Json.Reader
import GqlArtifacts.Json.Printer
import GqlArtifacts.Json.Record

/-!
# The manifest as JSON

`Manifest.render` writes a manifest and `Manifest.parse?` reads one. The rows of each source are
read on their own: where they are no map from hashes to rows, only that source is left out.
-/

namespace GqlArtifacts

namespace Row

def toJson (row : Row) : Json :=
  let call (name : String) (text? : Option String) : List (String × Json) :=
    (text?.map fun s => (name, Json.string s)).toList
  .object ([("tsx_rel_path", .string row.tsx.text), ("dts_rel_path", .string row.dts.text)] ++
    call "gql_content" row.gql? ++ call "gql_path_fragment" row.fragment?)

def ofJson? (v : Json) : Option Row := do
  let r ← Json.Record.ofJson?
    ["tsx_rel_path", "dts_rel_path", "gql_content", "gql_path_fragment"] v
  let tsx ← r.required "tsx_rel_path" Json.string?
  let dts ← r.required "dts_rel_path" Json.string?
  let gql? ← r.optionalOrAbsent "gql_content" Json.string?
  let fragment? ← r.optionalOrAbsent "gql_path_fragment" Json.string?
  return ⟨⟨tsx⟩, ⟨dts⟩, gql?, fragment?⟩

end Row

namespace Manifest

def rowsToJson (rows : Rows) : Json :=
  .object (rows.toList.map fun (h, row) => (h.toHex, row.toJson))

def toJson (m : Manifest) : Json :=
  .object [("graft_version", .string m.version),
    ("sources", .object (m.sources.toList.map fun (source, rows) =>
      (source.text, rowsToJson rows)))]

def render (m : Manifest) : String := m.toJson.pretty

/-- The rows of one source; of several rows with one hash the last counts. -/
def rowsOfJson? (v : Json) : Option Rows :=
  match v with
  | .object fields => do
    let entries ← fields.mapM fun (key, value) => do
      let h ← ContentHash.ofHex? key
      let row ← Row.ofJson? value
      return (h, row)
    return .ofList entries
  | _ => none

/-- How deep the value of a source may nest inside the document. -/
def rowNesting : Nat := Json.nestingLimit - 2

/-- The sources of a document with the rows that can be read; a value that nests too deep or holds
an infinite number spoils the whole. -/
def sourcesOfJson? (v : Json) : Option (OrderedMap Path Rows Path.compare) :=
  match v with
  | .object fields =>
    if fields.all fun e => e.2.withinLimits rowNesting then
      let values : OrderedMap Path Json Path.compare :=
        .ofList (fields.map fun (source, value) => (⟨source⟩, value))
      some (values.filterMap fun _ value => rowsOfJson? value.canonical)
    else none
  | _ => none

def ofJson? (v : Json) : Option Manifest := do
  let r ← Json.Record.ofJson? ["graft_version", "sources"] v
  let version ← r.required "graft_version" Json.string?
  let sources ← r.withDefault "sources" .empty sourcesOfJson?
  return ⟨version, sources⟩

def parse? (s : String) : Option Manifest := (Json.parse? s).bind ofJson?

end Manifest

end GqlArtifacts
