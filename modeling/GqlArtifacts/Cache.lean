import GqlArtifacts.Files.Atomic
import GqlArtifacts.Manifest.Json

/-!
# The artifact cache

A `Cache` holds the manifest of one cache directory in memory. `load` takes the persisted manifest,
less the rows whose artifacts are gone; a missing, unreadable or foreign manifest counts as empty.
`prune` and `retain` forget rows and delete their artifacts, and `save` persists what is in memory.

A row leaves the memory before its files are deleted, so whichever deletion fails, no row in memory
has lost a file.
-/

namespace GqlArtifacts

open Files

structure Cache where
  /-- The project root, which the paths of rows are relative to. -/
  root : Path
  /-- The directory of the manifest, in full. -/
  dir : Path
  version : String
  manifest : Manifest
deriving Inhabited

/-- An action on a cache in memory and on files. What it has done to either stays when it fails. -/
abbrev CacheM (ε : Type) := ExceptT ε (StateT Cache Program)

namespace CacheM
variable {ε α : Type}

def files (p : Program α) : CacheM ε α := ExceptT.lift (StateT.lift p)

/-- A program that may fail, its failure told as `f` says. -/
def attempt {δ : Type} (f : δ → ε) (p : Program (Except δ α)) : CacheM ε α := do
  match ← files p with
  | .ok a => return a
  | .error e => throw (f e)

/-- Runs an action with its failures told as `f` says. -/
def adapt {δ : Type} (f : δ → ε) (x : CacheM δ α) : CacheM ε α := ExceptT.adapt f x

end CacheM

namespace Row

/-- Whether both artifacts are files. -/
def present (root : Path) (row : Row) : Program Bool := do
  if ← Program.isFile (root / row.tsx) then Program.isFile (root / row.dts) else return false

/-- Deletes both artifacts, the module first. -/
def removeArtifacts (root : Path) (row : Row) : Program (Except FileFailure Unit) := do
  match ← removeIfPresent (root / row.tsx) with
  | .error e => return .error e
  | .ok _ => return (← removeIfPresent (root / row.dts)).map fun _ => ()

end Row

def manifestName : Path := ⟨"manifest.json"⟩

/-- The persisted manifest of a cache directory, if there is a readable one. -/
def Manifest.load (dir : Path) : Program (Option Manifest) := do
  match ← Program.readText (dir / manifestName) with
  | .ok text => return Manifest.parse? text
  | .error _ => return none

/-- The rows without both artifacts. -/
def missingRows (root : Path) :
    List (Path × ContentHash × Row) → Program (List (Path × ContentHash))
  | [] => return []
  | (source, h, row) :: rest => do
    let present ← row.present root
    let missing ← missingRows root rest
    return if present then missing else (source, h) :: missing

namespace Cache

/-- An empty cache. A relative `cacheDir` lies below `root`. -/
def new (root cacheDir : Path) (version : String) : Cache :=
  ⟨root, root / cacheDir, version, .empty version⟩

/-- Replaces the memory by the persisted rows that have both artifacts, and counts the others. -/
def load (c : Cache) : Program (Nat × Cache) := do
  let m :=
    match ← Manifest.load c.dir with
    | some m => if m.version = c.version then m else .empty c.version
    | none => .empty c.version
  let missing ← missingRows c.root m.toList
  let kept := m.restrict fun source h => !missing.contains (source, h)
  return (missing.length, { c with manifest := kept })

/-- Whether a row is known and has both artifacts. -/
def isFresh (c : Cache) (source : Path) (h : ContentHash) : Program Bool :=
  match c.manifest.lookup? source h with
  | some row => row.present c.root
  | none => return false

def record (c : Cache) (source : Path) (h : ContentHash) (row : Row) : Cache :=
  { c with manifest := c.manifest.record source h row }

/-- Forgets rows of a source one by one, deleting the artifacts of each. -/
def dropRows (source : Path) : List (ContentHash × Row) → CacheM FileFailure Unit
  | [] => return ()
  | (h, row) :: rest => do
    modify fun c => { c with manifest := c.manifest.eraseRow source h }
    CacheM.attempt id (row.removeArtifacts (← get).root)
    dropRows source rest

/-- Forgets every row of a source whose hash is not in `live`, and counts them. -/
def prune (source : Path) (live : List ContentHash) : CacheM FileFailure Nat := do
  match (← get).manifest.sources.get? source with
  | none => return 0
  | some rows =>
    let stale := rows.toList.filter fun e => !live.contains e.1
    dropRows source stale
    modify fun c => { c with manifest := c.manifest.eraseIfBare source }
    return stale.length

/-- Deletes the artifacts of rows that the memory no longer holds. -/
def removeAll : List (ContentHash × Row) → CacheM FileFailure Unit
  | [] => return ()
  | (_, row) :: rest => do
    CacheM.attempt id (row.removeArtifacts (← get).root)
    removeAll rest

/-- Forgets sources one by one with all their rows. -/
def dropSources : List (Path × Rows) → CacheM FileFailure Unit
  | [] => return ()
  | (source, rows) :: rest => do
    modify fun c => { c with manifest := c.manifest.eraseSource source }
    removeAll rows.toList
    dropSources rest

/-- Forgets every source that is not in `live`, and counts them. -/
def retain (live : List Path) : CacheM FileFailure Nat := do
  let gone := (← get).manifest.sources.toList.filter fun e => !live.any e.1.same
  dropSources gone
  return gone.length

def save (c : Cache) : Program (Except FileFailure Unit) :=
  writeAtomically (c.dir / manifestName) c.manifest.render.toUTF8

end Cache

end GqlArtifacts
