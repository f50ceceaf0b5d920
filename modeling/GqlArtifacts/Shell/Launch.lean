import GqlArtifacts.Backend.Process
import GqlArtifacts.Shell.Run

/-!
# Starting scripts and tools

`Shell.launch` starts shells and the tools that are programs of their own. Other files are no
programs, and other names are not known.
-/

namespace GqlArtifacts.Shell

open Files

def Machine.toFinished (m : Machine) : Finished := ⟨m.status % 256 == 0, m.output, m.errors⟩

/-- The most bytes that an argument can have. -/
def argumentLimit : Nat := 131071

/-- The most bytes that the name of a program can have. -/
def nameLimit : Nat := 255

/-- Why a name that is not known cannot be started. -/
def refusal (directory : Path) (name : String) : Program StartError := do
  if name.toList.contains '/' then
    match ← Program.kind (directory / ⟨name⟩) with
    | .ok _ => return .file .permissionDenied
    | .error e => return .file e
  else if nameLimit < name.utf8ByteSize then return .file .nameTooLong
  else if name = "." ∨ name = ".." then return .file .permissionDenied
  else return .file .notFound

/-- Starts a shell or a tool where some variables are set. -/
def launch (value? : String → Option String) : Launcher := fun i input => do
  let m := Machine.start i.command value? i.directory input
  if (i.command :: i.args).any fun s => s.toList.contains '\x00' then return .error .nulByte
  else if !(← Program.isDirectory i.directory) then return .error (.file .notFound)
  else
    match m.program? i.command with
    | none => return .error (← refusal i.directory i.command)
    | some tool =>
      if i.args.any fun s => argumentLimit < s.utf8ByteSize then return .error .argumentsTooLong
      else if tool = "sh" then return .ok (← runShell fuelLimit m i.args).toFinished
      else return .ok (← runProgram m tool i.args).toFinished

end GqlArtifacts.Shell
