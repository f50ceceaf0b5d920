import GqlArtifacts.CommandLine.Run
import GqlArtifacts.Shell.Launch

/-!
# The command-line tool

Carries out the tool's programs on the files of the machine, in the working directory.
-/

namespace GqlArtifacts.Main

open Files

/-- The number that the system gives a failure. -/
def codeOf : IO.Error → Nat
  | .alreadyExists _ c _ => c.toNat
  | .otherError c _ => c.toNat
  | .resourceBusy c _ => c.toNat
  | .resourceVanished c _ => c.toNat
  | .unsupportedOperation c _ => c.toNat
  | .hardwareFault c _ => c.toNat
  | .unsatisfiedConstraints c _ => c.toNat
  | .illegalOperation c _ => c.toNat
  | .protocolError c _ => c.toNat
  | .timeExpired c _ => c.toNat
  | .interrupted _ c _ => c.toNat
  | .noFileOrDirectory _ c _ => c.toNat
  | .invalidArgument _ c _ => c.toNat
  | .permissionDenied _ c _ => c.toNat
  | .resourceExhausted _ c _ => c.toNat
  | .inappropriateType _ c _ => c.toNat
  | .noSuchThing _ c _ => c.toNat
  | .unexpectedEof => 0
  | .userError _ => 0

/-- The cause of a failure, whose number may come with either sign. -/
def errorOf (e : IO.Error) : FileError :=
  let code := codeOf e
  match if Nat.pow 2 31 ≤ code then UInt32.size - code else code with
  | 2 => .notFound
  | 13 => .permissionDenied
  | 16 => .busy
  | 17 => .alreadyExists
  | 20 => .notADirectory
  | 21 => .isADirectory
  | 36 => .nameTooLong
  | 39 => .directoryNotEmpty
  | c => .other c

/-- Runs an action on a path that a system call can take. -/
def attempt {α : Type} (p : Path) (x : String → IO α) : IO (Except FileError α) := do
  if p.text.isEmpty then return .error .notFound
  else if p.text.toList.contains '\x00' then return .error .nulInName
  else
    try return .ok (← x p.text)
    catch e => return .error (errorOf e)

def kindOf (s : String) : IO NodeKind := do
  match (← ((← IO.currentDir) / s).metadata).type with
  | .dir => return .directory
  | _ => return .file

def perform : (op : Op) → IO op.Answer
  | .kind p => attempt p kindOf
  | .read p => attempt p fun s => IO.FS.readBinFile s
  | .list p => attempt p fun s => do
    return (← ((← IO.currentDir) / s).readDir).toList.map fun entry => entry.fileName
  | .write p content => attempt p fun s => IO.FS.writeBinFile s content
  | .makeDirectory p => attempt p fun s => IO.FS.createDir s
  | .rename src dst => attempt src fun s => IO.FS.rename s dst.text
  | .remove p => attempt p fun s => IO.FS.removeFile s

def execute {α : Type} : Program α → IO α
  | .done a => pure a
  | .step op next => do execute (next (← perform op))

/-- The values of variables, those that are set. -/
def valuesOf (names : List String) : IO (List (String × String)) :=
  names.filterMapM fun name => do return (← IO.getEnv name).map fun value => (name, value)

def usageText : String := "Usage: graft [--quiet] [--verbose] [--config <CONFIG>] <COMMAND>\n\n" ++
  "Commands:\n" ++
  "  init [--force] [DIR]      Write a starter graft.toml\n" ++
  "  gen                       Generate artifacts for the whole project\n" ++
  "  resolve [--compact] FILE  Generate artifacts for one file and print its contexts as JSON\n"

def runCommand (options : CommandLine.Options) (c : CommandLine.Command) : IO UInt32 := do
  let here : Path := ⟨(← IO.currentDir).toString⟩
  let bare : CommandLine.Environment :=
    ⟨here, fun _ => none, Shell.launch fun _ => none, Response.complaint⟩
  let values ← valuesOf (← execute (CommandLine.variableNames bare options))
  let lookup (name : String) : Option String := (values.find? (·.1 == name)).map Prod.snd
  let env : CommandLine.Environment := ⟨here, lookup, Shell.launch lookup, Response.complaint⟩
  let finish ← execute (CommandLine.run env options c)
  IO.print finish.stdout
  IO.eprint finish.stderr
  return UInt32.ofNat finish.exit

end GqlArtifacts.Main

def main (args : List String) : IO UInt32 := do
  match GqlArtifacts.CommandLine.parse args with
  | .ok (options, c) => GqlArtifacts.Main.runCommand options c
  | .error .help => do
    IO.print GqlArtifacts.Main.usageText
    return 0
  | .error .version => do
    IO.print GqlArtifacts.CommandLine.versionText
    return 0
  | .error .usage => do
    IO.eprint GqlArtifacts.Main.usageText
    return 2
