import GqlArtifacts.CommandLine.Project

/-!
# Commands

What the commands do and print. `init` writes a configuration to start from, `gen` generates the
whole project and reports what changed, and `resolve` generates one file and prints its contexts. A
command that fails prints its error and ends with 1.
-/

namespace GqlArtifacts.CommandLine

open Files

/-- How a command ended and what it wrote. -/
structure Finish where
  exit : Nat
  stdout : String
  stderr : String
deriving DecidableEq, Inhabited

/-- The configuration that `init` writes. -/
def starterText : String := String.intercalate "\n" [
  "# Schema files. A single glob or a list of globs.",
  "schema = \"schema.graphqls\"",
  "",
  "# GraphQL documents and scripts containing gql(`...`) or load(\"...\") calls.",
  "documents = [\"src/**/*.graphql\", \"src/**/*.tsx\"]",
  "",
  "# Plugins handed to the codegen backend.",
  "plugins = [\"typescript-operations\", \"typescript-react-apollo\"]",
  "",
  "# cache_dir = \"" ++ Config.initial.cacheDir ++ "\"",
  "# gen_dts_dir = \"" ++ Config.initial.typesDir ++ "\"",
  "# type_inject_entrypoint = \"" ++ Config.initial.entrypoint ++ "\"",
  "",
  "[generate_options]",
  "",
  "[backend]",
  "command = \"" ++ BackendCommand.initial.command ++ "\"",
  "args = []",
  ""]

def attempt {α : Type} (p : Program (Except FileError α)) : CommandM α := do
  match ← liftM p with
  | .ok a => return a
  | .error e => throw (.files e)

def initializeProject (env : Environment) (dir? : Option String) (force : Bool) :
    CommandM Finish := do
  let dir ←
    match dir? with
    | some d => do
      attempt (makeDirectories (env.full ⟨d⟩))
      pure ⟨d⟩
    | none => pure env.here
  let file := dir / ⟨configName⟩
  if !force && (← liftM (Program.exists? (env.full file))) then throw (.exists file)
  attempt (Program.write (env.full file) starterText.toUTF8)
  return ⟨0, "", s!"     Created {file}\n"⟩

def summaryLine (s : Summary) : String :=
  let removed := s.pruned + s.removedSources
  s!"   Generated {s.generated} artifact(s), {s.skipped} up to date" ++
    (if removed > 0 then s!", {removed} stale removed" else "") ++ "\n"

def discover {α : Type} (x : Discovery.DiscoveryM α) : CommandM α := ExceptT.adapt .discovery x

/-- Runs a new session of the project. -/
def runSession (env : Environment) (r : Config.Resolved) (scope : Scope) (units : List SourceUnit) :
    CommandM (List Context × Summary) := do
  let (result, session) ← liftM (r.session.run (backendOf env r) scope units)
  match result with
  | .ok contexts => return (contexts, session.summary)
  | .error e => throw (.run e)

def generate (env : Environment) (options : Options) : CommandM Finish := do
  let r ← loadProject env options
  let units ← discover r.units
  let (_, summary) ← runSession env r .project units
  return ⟨0, "", if options.quiet || r.silent then "" else summaryLine summary⟩

/-- The path of a file argument inside the project. -/
def projectPath (env : Environment) (r : Config.Resolved) (file : String) : CommandM Path := do
  match (env.here / ⟨file⟩).normalize.under? r.root with
  | some p => return ⟨p.toSlash⟩
  | none => throw (.outside file r.root)

def resolve (env : Environment) (options : Options) (file : String) (compact : Bool) :
    CommandM Finish := do
  let r ← loadProject env options
  let p ← projectPath env r file
  let units ← discover (r.unitsOf p)
  let (contexts, _) ← runSession env r (.partly [p]) units
  let own := Json.array ((contexts.filter fun c => c.path.same p).map Context.toJson)
  return ⟨0, (if compact then own.compact else own.pretty) ++ "\n", ""⟩

def perform (env : Environment) (options : Options) : Command → CommandM Finish
  | .init dir? force => initializeProject env dir? force
  | .generate => generate env options
  | .resolve file compact => resolve env options file compact

/-- Carries out a command. -/
def run (env : Environment) (options : Options) (c : Command) : Program Finish := do
  match ← (perform env options c).run with
  | .ok f => return f
  | .error e => return ⟨1, "", s!"error: {e.message}\n"⟩

def versionText : String := "graft " ++ Manifest.currentVersion ++ "\n"

end GqlArtifacts.CommandLine
