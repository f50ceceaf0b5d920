import GqlArtifacts.Backend.Process
import GqlArtifacts.CommandLine
import GqlArtifacts.Discovery

/-!
# Locating the project

The configuration is the file that an option names, or that lies in the directory that it names, or
else the nearest one in the working directory and those above it. `loadProject` reads and resolves
it. A path from outside is told of as it was given; where it leads from the working directory is
`Environment.full`.
-/

namespace GqlArtifacts.CommandLine

open Files

/-- What a command gets from outside: where it runs, the variables there, how to start processes,
and the words for what they write that is no response. -/
structure Environment where
  /-- The working directory, an absolute path. -/
  here : Path
  lookup : String → Option String
  launch : Launcher
  explain : ByteArray → String

/-- Where a path leads from the working directory. -/
def Environment.full (env : Environment) (p : Path) : Path := p.startingAt env.here

inductive Error where
  | noConfig (start : Path)
  | config (file : Path) (e : Config.Error)
  | discovery (e : Discovery.Error)
  | run (e : RunError)
  | outside (file : String) (root : Path)
  | exists (file : Path)
  | files (e : FileError)
deriving Inhabited

def Error.message : Error → String
  | noConfig start => s!"could not find graft.toml in {start} or any parent directory"
  | config file e => s!"{file}: {e.message}"
  | discovery e => e.message
  | run e => e.message
  | outside file root => s!"{file} is outside the project root {root}"
  | .exists file => s!"{file} already exists (use --force to overwrite)"
  | files e => e.message

abbrev CommandM := ExceptT Error Program

def configName : String := "graft.toml"

/-- The first of the directories that has a configuration, as seen from the working directory. -/
def firstWithConfig (here : Path) : List Path → Program (Option Path)
  | [] => return none
  | dir :: rest => do
    if ← Program.exists? ((dir / ⟨configName⟩).startingAt here) then return some dir
    else firstWithConfig here rest

/-- The path of the configuration. -/
def configPath (env : Environment) (options : Options) : CommandM Path := do
  match options.config? with
  | some config =>
    if ← liftM (Program.isDirectory (env.full ⟨config⟩)) then return ⟨config⟩ / ⟨configName⟩
    else return ⟨config⟩
  | none =>
    match ← liftM (firstWithConfig env.here env.here.ancestors) with
    | some dir => return dir / ⟨configName⟩
    | none => throw (.noConfig env.here)

def loadProject (env : Environment) (options : Options) : CommandM Config.Resolved := do
  let file ← configPath env options
  match ← liftM (Program.readText (env.full file)) with
  | .error e => throw (.config file (.unreadable e))
  | .ok text =>
    match Config.load env.lookup text with
    | .error e => throw (.config file e)
    | .ok loaded => return loaded.resolve (env.here / (file.parent?.getD ⟨"."⟩))

/-- The words of a text that can be names of variables. -/
def wordsOf (cs : List Char) : List String :=
  let inside (c : Char) : Bool := c.isAlphanum || c == '_'
  (cs.splitBy fun a b => inside a && inside b).map String.ofList

/-- The names of the variables that the configuration or its backend may refer to. -/
def variableNames (env : Environment) (options : Options) : Program (List String) := do
  match ← (configPath env options).run with
  | .error _ => return []
  | .ok file =>
    match ← Program.readText (env.full file) with
    | .error _ => return []
    | .ok text =>
      let references := (Config.pieces text.toList).filterMap fun
        | .reference r => some (String.ofList r.name)
        | .plain _ => none
      return references ++ wordsOf text.toList

/-- The backend that a configuration names. -/
def backendOf (env : Environment) (r : Config.Resolved) : Backend :=
  .ofProcess env.launch env.explain ⟨r.backend.command, r.backend.args, r.root⟩

end GqlArtifacts.CommandLine
