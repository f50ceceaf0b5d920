import GqlArtifacts.Hash
import GqlArtifacts.Json
import GqlArtifacts.Source
import GqlArtifacts.Files.Program

/-!
# Code generators

A `Backend` turns the documents of one source into generated files. It gets a `Request` and answers
with one `Output` for each document, in order, or with a `Diagnostic`.
-/

namespace GqlArtifacts

/-- One document to generate. -/
structure RequestDocument where
  kind : String
  hash : ContentHash
  content : String
deriving DecidableEq, Inhabited

structure Request where
  sourcePath : Path
  schema : String
  documents : List RequestDocument
  plugins : List String
  options : Json
deriving Inhabited

namespace Request

def toJson (r : Request) : Json :=
  .object [
    ("source_path", .string r.sourcePath.text),
    ("schema", .string r.schema),
    ("documents", .array (r.documents.map fun d =>
      .object [("kind", .string d.kind), ("hash", .string d.hash.toHex),
        ("content", .string d.content)])),
    ("plugins", .array (r.plugins.map Json.string)),
    ("config", r.options.canonical)]

end Request

/-- The generated module and declaration of one document. -/
structure Output where
  tsx : String
  dts : String
deriving DecidableEq, Inhabited

/-- A place in a GraphQL text, counted from 1. -/
structure Location where
  line : Nat
  column : Nat
deriving DecidableEq, Inhabited

/-- What a backend has to say about a source that it refuses. -/
structure Diagnostic where
  message : String
  locations : List Location
deriving DecidableEq, Inhabited

namespace Diagnostic

/-- A diagnostic without locations. -/
def plain (message : String) : Diagnostic := ⟨message, []⟩

/-- The message with its locations after it. -/
def display (d : Diagnostic) : String :=
  d.message ++ String.join (d.locations.map fun l => s!" ({l.line}:{l.column})")

end Diagnostic

abbrev Answer := Except Diagnostic (List Output)

abbrev Backend := Request → Files.Program Answer

/-- A backend that touches no files. -/
def Backend.ofFunction (f : Request → Answer) : Backend := fun r => pure (f r)

end GqlArtifacts
