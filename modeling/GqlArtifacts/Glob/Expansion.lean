import GqlArtifacts.Files.Program
import GqlArtifacts.Glob

/-!
# Expanding globs

`Glob.expand` finds the paths that a pattern stands for below a directory. It looks into a directory
only where a part of the pattern is more than plain text. `Glob.files` takes a list of patterns and
gives the files of all of them, each once and in path order, relative to the directory.
-/

namespace GqlArtifacts.Glob

open Files

inductive Error where
  | badPattern (pattern : String)
  | unreadable (dir : Path) (e : FileError)
deriving DecidableEq, Inhabited

def Error.message : Error → String
  | badPattern pattern => s!"invalid glob pattern '{pattern}': Pattern syntax error near position"
  | unreadable dir e =>
    s!"glob error: attempting to read `{dir}` resulted in an error: {e.message}"

abbrev SearchM := ExceptT Error Program

/-- Goes on with the parts after one that `p` satisfies; the last part ends the search. -/
def arrive (search : List Part → Path → SearchM (List Path)) (rest : List Part) (p : Path) :
    SearchM (List Path) :=
  if rest.isEmpty then return [p] else search rest p

/-- What the parts lead to from `p`, an entry of a directory that is called `name`. -/
def visit (search : List Part → Path → SearchM (List Path)) (parts : List Part) (p : Path)
    (name : String) : SearchM (List Path) := do
  let named (rest : List Part) : SearchM (List Path) :=
    match rest with
    | .name ts :: rest => if fits ts name.toList then arrive search rest p else return []
    | _ => return []
  match parts with
  | .tree :: rest =>
    let rest := rest.dropWhile (· == .tree)
    let inside ← if ← liftM (Program.isDirectory p) then search (.tree :: rest) p else pure []
    return inside ++ (← named rest)
  | parts => named parts

/-- The directory itself and its parent, where a pattern with a leading dot names them. -/
def dotNames : Part → List String
  | .name (.char '.' :: ts) => [".", ".."].filter fun s => fits (.char '.' :: ts) s.toList
  | _ => []

/-- What the parts lead to inside the directory `p`. Every step takes away a part or goes one
directory down, so `fuel` need not exceed their number and the length of the longest path. -/
def search : (fuel : Nat) → List Part → Path → SearchM (List Path)
  | 0, _, _ => return []
  | _, [], _ => return []
  | fuel + 1, part :: rest, p => do
    match part.literal? with
    | some cs =>
      let s := String.ofList cs
      let next := p / ⟨s⟩
      let found ←
        if s = "." ∨ s = ".." then liftM (Program.isDirectory p)
        else liftM (Program.exists? next)
      if found then arrive (search fuel) rest next else return []
    | none =>
      if ← liftM (Program.isDirectory p) then
        match ← liftM (Program.list p) with
        | .error e => throw (.unreadable p e)
        | .ok names =>
          let found ← names.mapM fun name => visit (search fuel) (part :: rest) (p / ⟨name⟩) name
          let dots ← (dotNames part).mapM fun name => arrive (search fuel) rest (p / ⟨name⟩)
          return found.flatten ++ dots.flatten
      else return []

/-- The paths that a pattern stands for below `root`. A directory counts only if nothing else can be
meant, so none is given. -/
def expand (root : Path) (g : Glob) : SearchM (List Path) :=
  if g.directory then return []
  else do
    let found ← search (Tree.pathLimit + g.parts.length) g.parts root
    found.filterM fun p => liftM (Program.isFile p)

/-- Drops every leading `./`. -/
def trimCurrent : List Char → List Char
  | '.' :: '/' :: rest => trimCurrent rest
  | cs => cs

/-- The form of a path that units are known by. -/
def logical (p : Path) : Path := ⟨p.normalize.toSlash⟩

/-- The files of one pattern. -/
def filesOf (root : Path) (pattern : String) : SearchM (List Path) := do
  match parse? (String.ofList (trimCurrent pattern.toList)) with
  | none => throw (.badPattern pattern)
  | some g => return (← expand root g).filterMap fun p => (p.under? root).map logical

/-- The files of all patterns, in path order and each once. -/
def files (root : Path) (patterns : List String) : SearchM (List Path) := do
  let found ← patterns.mapM (filesOf root)
  let all : OrderedMap Path Unit Path.compare := .ofList (found.flatten.map fun p => (p, ()))
  return all.keys

end GqlArtifacts.Glob
