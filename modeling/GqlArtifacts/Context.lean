import GqlArtifacts.Cache
import GqlArtifacts.Graphql.Stripped
import GqlArtifacts.Layout
import GqlArtifacts.Source

/-!
# Contexts

A `Context` says what is to be generated for one source unit, under which hash and where, and
whether it may be skipped because the cache already has it. Hashes are chained: those of schemas on
the configuration, all others on the identity of the schema, which combines the hashes of all schema
units of the batch in order. Hashes look at stripped texts, so layout does not matter to them.
-/

namespace GqlArtifacts

namespace SourceUnit

def stripped (u : SourceUnit) : String := Graphql.strip u.content

/-- The hash of a unit. That of a loaded document also depends on the path of the document. -/
def hash (config schema : ContentHash) (u : SourceUnit) : ContentHash :=
  match u.kind with
  | .schema => .chained config u.stripped
  | .document => .chained schema u.stripped
  | .literal => .chained schema u.stripped
  | .load _ target => .chained schema (target.toSlash ++ "\n" ++ u.stripped)

end SourceUnit

/-- The combined hash of the schema units of a batch; a batch without any has none. -/
def schemaIdentity? (config : ContentHash) (units : List SourceUnit) : Option ContentHash :=
  match units.filter SourceUnit.isSchema with
  | [] => none
  | schemas => some (.combine (schemas.map fun u => .chained config u.stripped))

structure Context where
  unit : SourceUnit
  stripped : String
  hash : ContentHash
  paths : ArtifactPaths
  skip : Bool
deriving Inhabited

namespace Context

/-- The path that the cache keeps a context under. -/
def path (c : Context) : Path := c.unit.path

/-- The row that records the artifacts of a context. -/
def row (c : Context) : Row :=
  match c.unit.kind with
  | .literal => ⟨c.paths.tsx, c.paths.dts, some c.unit.content, none⟩
  | .load argument _ => ⟨c.paths.tsx, c.paths.dts, none, some argument⟩
  | _ => ⟨c.paths.tsx, c.paths.dts, none, none⟩

/-- The fields that tell what is generated. -/
def subjectFields (c : Context) : List (String × Json) :=
  match c.unit.kind with
  | .literal => [("src_rel_path", .string c.path.text), ("gql_content", .string c.unit.content),
      ("stripped_gql_content", .string c.stripped)]
  | .load argument target => [("src_rel_path", .string c.path.text),
      ("gql_path_fragment", .string argument), ("gql_rel_path", .string target.text)]
  | _ => [("gql_rel_path", .string c.path.text)]

def toJson (c : Context) : Json :=
  .object ([("type", .string c.unit.kind.text)] ++ c.subjectFields ++
    [("gql_hash", .string c.hash.toHex),
      ("tsx_rel_path", .string c.paths.tsx.text), ("tsx_full_path", .string c.paths.tsxFull.text),
      ("dts_rel_path", .string c.paths.dts.text), ("dts_full_path", .string c.paths.dtsFull.text),
      ("skip", .bool c.skip)])

/-- The context of a unit, as the cache stands. -/
def ofUnit (layout : Layout) (cache : Cache) (config schema : ContentHash) (u : SourceUnit) :
    Files.Program Context := do
  let h := u.hash config schema
  return ⟨u, u.stripped, h, layout.paths u.path h, ← cache.isFresh u.path h⟩

/-- One context for each unit, in order, on a given identity of the schema. -/
def ofUnitsOn (layout : Layout) (cache : Cache) (config schema : ContentHash)
    (units : List SourceUnit) : Files.Program (List Context) :=
  units.mapM (ofUnit layout cache config schema)

/-- One context for each unit, in order. Units that hold no schema have no contexts. -/
def ofUnits? (layout : Layout) (cache : Cache) (config : ContentHash) (units : List SourceUnit) :
    Files.Program (Option (List Context)) := do
  match schemaIdentity? config units with
  | some schema => return some (← ofUnitsOn layout cache config schema units)
  | none => return if units.isEmpty then some [] else none

end Context

end GqlArtifacts
