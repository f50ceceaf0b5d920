import GqlArtifacts.Hash
import GqlArtifacts.Path
import GqlArtifacts.OrderedMap

/-!
# The manifest

A `Manifest` records, for each source path and each live hash of it, the artifacts that were
generated. Sources are in path order and the rows of a source in hash order.
-/

namespace GqlArtifacts

/-- The artifacts of one source at one hash, relative to the project root, and the text of the call
that they belong to. -/
structure Row where
  tsx : Path
  dts : Path
  gql? : Option String
  fragment? : Option String
deriving DecidableEq, Inhabited

abbrev Rows := OrderedMap ContentHash Row ContentHash.compare

structure Manifest where
  version : String
  sources : OrderedMap Path Rows Path.compare
deriving Inhabited

namespace Manifest

/-- The version that manifests are written for; one of another version does not count. -/
def currentVersion : String := "0.1.0"

def empty (version : String) : Manifest := ⟨version, .empty⟩

/-- The rows of a source, none if it is unknown. -/
def rows (m : Manifest) (source : Path) : Rows := (m.sources.get? source).getD .empty

def lookup? (m : Manifest) (source : Path) (h : ContentHash) : Option Row := (m.rows source).get? h

def record (m : Manifest) (source : Path) (h : ContentHash) (row : Row) : Manifest :=
  { m with sources := m.sources.insert source ((m.rows source).insert h row) }

def eraseRow (m : Manifest) (source : Path) (h : ContentHash) : Manifest :=
  { m with sources := m.sources.insert source ((m.rows source).erase h) }

def eraseSource (m : Manifest) (source : Path) : Manifest :=
  { m with sources := m.sources.erase source }

/-- Forgets a source that has no rows left. -/
def eraseIfBare (m : Manifest) (source : Path) : Manifest :=
  if (m.rows source).isEmpty then m.eraseSource source else m

/-- Every row with its source and hash, in order. -/
def toList (m : Manifest) : List (Path × ContentHash × Row) :=
  m.sources.toList.flatMap fun (source, rows) => rows.toList.map fun (h, row) => (source, h, row)

def count (m : Manifest) : Nat := m.toList.length

/-- Keeps the rows that `p` accepts and the sources that still have one. -/
def restrict (m : Manifest) (p : Path → ContentHash → Bool) : Manifest :=
  { m with
    sources := m.sources.filterMap fun source rows =>
      let kept := rows.filter fun h _ => p source h
      if kept.isEmpty then none else some kept }

end Manifest

end GqlArtifacts
