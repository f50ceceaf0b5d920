import GqlArtifacts.Files.Program

/-!
# Writing files as a whole

`writeAtomically` puts the new content into a temporary file beside the target and then renames it,
so the target has its old or its new content at every moment. `ensureParents` makes the directories
above a path, and `removeIfPresent` counts a missing file as removed.
-/

namespace GqlArtifacts.Files

/-- A failed operation and the path that it was about. -/
structure FileFailure where
  path : Path
  error : FileError
deriving DecidableEq, Inhabited

def FileFailure.message (f : FileFailure) : String :=
  s!"cache I/O error at {f.path}: {f.error.message}"

open Program

/-- Makes a directory and, if they are missing, those above it. `depth` bounds how many. -/
def makeDirectoriesWithin : (depth : Nat) → Path → Program (Except FileError Unit)
  | 0, _ => return .error .notFound
  | depth + 1, p => do
    if p.text.isEmpty then return .ok ()
    match ← makeDirectory p with
    | .ok () => return .ok ()
    | .error .notFound =>
      match p.parent? with
      | none => return .error .notFound
      | some parent =>
        match ← makeDirectoriesWithin depth parent with
        | .error e => return .error e
        | .ok () =>
          match ← makeDirectory p with
          | .ok () => return .ok ()
          | .error e => if ← isDirectory p then return .ok () else return .error e
    | .error e => if ← isDirectory p then return .ok () else return .error e

def makeDirectories (p : Path) : Program (Except FileError Unit) :=
  makeDirectoriesWithin (p.components.length + 1) p

/-- Makes the directories above a path. -/
def ensureParents (p : Path) : Program (Except FileFailure Unit) := do
  match p.parent? with
  | none => return .ok ()
  | some parent => return (← makeDirectories parent).mapError (⟨parent, ·⟩)

/-- The name beside `p` that its new content is written to first. -/
def temporaryPath (p : Path) : Path := p.withExtension ((p.extension?.getD "tmp") ++ ".tmp")

def writeAtomically (p : Path) (content : ByteArray) : Program (Except FileFailure Unit) := do
  match ← ensureParents p with
  | .error e => return .error e
  | .ok () =>
    let tmp := temporaryPath p
    match ← write tmp content with
    | .error e => return .error ⟨tmp, e⟩
    | .ok () => return (← rename tmp p).mapError (⟨p, ·⟩)

/-- Deletes a file and tells whether there was one. -/
def removeIfPresent (p : Path) : Program (Except FileFailure Bool) := do
  match ← remove p with
  | .ok () => return .ok true
  | .error .notFound => return .ok false
  | .error e => return .error ⟨p, e⟩

end GqlArtifacts.Files
