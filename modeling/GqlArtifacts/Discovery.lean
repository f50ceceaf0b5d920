import GqlArtifacts.Config.Resolved
import GqlArtifacts.Glob.Expansion
import GqlArtifacts.Source.ScriptCall

/-!
# Discovery

The source units of a project: the files of its schema globs, and then the units of each file of its
document globs, in path order. A file that the schema globs find counts as a schema only. Scripts
give the literals and the loaded documents of their calls, in order; a literal with a placeholder is
left out, since its text is not known.
-/

namespace GqlArtifacts

open Files

namespace Discovery

inductive Error where
  | glob (e : Glob.Error)
  | unreadable (p : Path) (e : FileError)
  | loadOutside (script : Path) (argument : String)
  | loadUnreadable (script : Path) (argument : String) (target : Path) (e : FileError)
deriving DecidableEq, Inhabited

def Error.message : Error → String
  | glob e => e.message
  | unreadable p e => s!"failed to read {p}: {e.message}"
  | loadOutside script argument =>
    s!"{script}: load(\"{argument}\") points outside the project root"
  | loadUnreadable script argument target e =>
    s!"{script}: load(\"{argument}\"): failed to read {target}: {e.message}"

abbrev DiscoveryM := ExceptT Error Program

/-- The text of a project file, a failure told as `f` says. -/
def readWith (f : FileError → Error) (root p : Path) : DiscoveryM String := do
  match ← liftM (Program.readText (root / p)) with
  | .ok s => return s
  | .error e => throw (f e)

def read (root p : Path) : DiscoveryM String := readWith (.unreadable p) root p

/-- Whether a literal has a placeholder, which begins with a dollar sign and a brace. -/
def hasPlaceholder : List Char → Bool
  | '$' :: '{' :: _ => true
  | _ :: cs => hasPlaceholder cs
  | [] => false

/-- The units of one call in a script. -/
def unitsOfCall (root script : Path) : ScriptCall → DiscoveryM (List SourceUnit)
  | .gql text =>
    return if hasPlaceholder text.toList then [] else [⟨script, text, .literal⟩]
  | .load argument => do
    let target := Glob.logical ((script.parent?.getD ⟨""⟩) / ⟨argument⟩)
    if target.escapesRoot then throw (.loadOutside script argument)
    let content ← readWith (.loadUnreadable script argument target) root target
    return [⟨script, content, .load argument target⟩]

/-- The units of one file; a file of no known kind has none. -/
def unitsOfFile (root p : Path) : DiscoveryM (List SourceUnit) := do
  match FileKind.ofPath? p with
  | some .document => return [⟨p, ← read root p, .document⟩]
  | some .script => return (← (ScriptCall.scan (← read root p)).mapM (unitsOfCall root p)).flatten
  | none => return []

def globFiles (root : Path) (patterns : List String) : DiscoveryM (List Path) :=
  ExceptT.adapt .glob (Glob.files root patterns)

def schemaUnits (root : Path) (files : List Path) : DiscoveryM (List SourceUnit) :=
  files.mapM fun p => return ⟨p, ← read root p, .schema⟩

end Discovery

namespace Config.Resolved

open Discovery

/-- All units of the project. -/
def units (r : Resolved) : DiscoveryM (List SourceUnit) := do
  let schemaFiles ← globFiles r.root r.schema
  let documentFiles ← globFiles r.root r.documents
  let schema ← schemaUnits r.root schemaFiles
  let found ← (documentFiles.filter fun p => !schemaFiles.any p.same).mapM (unitsOfFile r.root)
  return schema ++ found.flatten

/-- The schema units and the units of one file. -/
def unitsOf (r : Resolved) (file : Path) : DiscoveryM (List SourceUnit) := do
  let schemaFiles ← globFiles r.root r.schema
  let file := Glob.logical file
  let schema ← schemaUnits r.root schemaFiles
  let found ← if schemaFiles.any file.same then pure [] else unitsOfFile r.root file
  return schema ++ found

end Config.Resolved

end GqlArtifacts
