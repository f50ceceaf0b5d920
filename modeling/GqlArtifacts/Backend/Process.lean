import GqlArtifacts.Backend.Response
import GqlArtifacts.Json.Printer

/-!
# Backend processes

A backend may be a process of its own. It is started anew for each request in the project root, gets
the request as compact JSON on its standard input, and answers with a response on its standard
output. How processes are started is left to a `Launcher`.
-/

namespace GqlArtifacts

/-- A process to start. -/
structure Invocation where
  command : String
  args : List String
  /-- The directory that it runs in. -/
  directory : Path
deriving DecidableEq, Inhabited

/-- Why a process cannot be started. -/
inductive StartError where
  /-- The command or an argument has a character that ends it for the system. -/
  | nulByte
  | argumentsTooLong
  | file (e : Files.FileError)
deriving DecidableEq, Inhabited

def StartError.message : StartError → String
  | nulByte => "nul byte found in provided data"
  | argumentsTooLong => "Argument list too long (os error 7)"
  | file e => e.message

/-- Starts a process on an input and waits for it; the error is that of the start. -/
abbrev Launcher := Invocation → ByteArray → Files.Program (Except StartError Finished)

/-- The text that a process gets. -/
def Request.text (r : Request) : String := r.toJson.compact

def Backend.ofProcess (launch : Launcher) (explain : ByteArray → String) (i : Invocation) :
    Backend := fun r => do
  match ← launch i r.text.toUTF8 with
  | .error e => return .error (.plain s!"failed to start `{i.command}`: {e.message}")
  | .ok f => return Response.judge explain i.command f

end GqlArtifacts
