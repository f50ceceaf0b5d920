import GqlArtifacts.Path

/-!
# Source units

A `SourceUnit` is a piece of GraphQL text and the project path it was found at: a schema or document
file, a literal in a script, or a document that a script loads.
-/

namespace GqlArtifacts

inductive SourceKind where
  | schema
  | document
  | literal
  /-- The argument as written, and the path of the loaded document. -/
  | load (argument : String) (target : Path)
deriving DecidableEq, Inhabited

namespace SourceKind

/-- The name of a kind in contexts and requests. -/
def text : SourceKind → String
  | schema => "schema-import"
  | document => "document-import"
  | literal => "gql-call"
  | load _ _ => "load-call"

end SourceKind

/-- For literals and loaded documents the path is that of the script. -/
structure SourceUnit where
  path : Path
  content : String
  kind : SourceKind
deriving DecidableEq, Inhabited

namespace SourceUnit

def isSchema (u : SourceUnit) : Bool := u.kind == .schema

end SourceUnit

end GqlArtifacts
