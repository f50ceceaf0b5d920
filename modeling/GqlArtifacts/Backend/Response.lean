import GqlArtifacts.Backend
import GqlArtifacts.Json.Reader
import GqlArtifacts.Json.Record
import GqlArtifacts.Text.Utf8
import GqlArtifacts.Text.Whitespace

/-!
# Responses of a backend process

A process writes a `Response` to its standard output: outputs, errors or both. `Response.judge` is
what a finished process amounts to. Reported errors win over everything else; outputs count only
when the process succeeded. The words for an output that is no response are those of the decoder, of
which nothing is assumed.
-/

namespace GqlArtifacts

def Output.ofJson? (v : Json) : Option Output := do
  let r ← Json.Record.ofJson? ["tsx", "dts"] v
  return ⟨← r.required "tsx" Json.string?, ← r.required "dts" Json.string?⟩

/-- Lines and columns have 32 bits. -/
def Location.ofJson? (v : Json) : Option Location := do
  let r ← Json.Record.ofJson? ["line", "column"] v
  return ⟨← r.required "line" (Json.natBelow? UInt32.size),
    ← r.required "column" (Json.natBelow? UInt32.size)⟩

def Diagnostic.ofJson? (v : Json) : Option Diagnostic := do
  let r ← Json.Record.ofJson? ["message", "locations"] v
  return ⟨← r.required "message" Json.string?,
    ← r.withDefault "locations" [] (Json.items? Location.ofJson?)⟩

structure Response where
  outputs : List Output
  errors : List Diagnostic
deriving DecidableEq, Inhabited

namespace Response

def ofJson? (v : Json) : Option Response := do
  let r ← Json.Record.ofJson? ["outputs", "errors"] v
  return ⟨← r.withDefault "outputs" [] (Json.items? Output.ofJson?),
    ← r.withDefault "errors" [] (Json.items? Diagnostic.ofJson?)⟩

/-- Reads a response that is the only JSON value in the bytes. -/
def parse? (stdout : ByteArray) : Option Response := (Json.parseBytes? stdout).bind ofJson?

end Response

/-- All messages in one, line by line, with all locations. -/
def Diagnostic.merge (ds : List Diagnostic) : Diagnostic :=
  ⟨String.intercalate "\n" (ds.map Diagnostic.message), ds.flatMap Diagnostic.locations⟩

/-- How a process ended and what it wrote. -/
structure Finished where
  success : Bool
  stdout : ByteArray
  stderr : ByteArray
deriving Inhabited

namespace Response

/-- What is reported of a process that failed without reporting errors. -/
def exitMessage (command : String) (stderr : ByteArray) : String :=
  let said := Text.trim (Text.lossy stderr)
  if said.isEmpty then s!"`{command}` exited with an error" else said

/-- Words for bytes that are no response. -/
def complaint (stdout : ByteArray) : String :=
  if (Json.parseBytes? stdout).isSome then "not a response" else "not one JSON value"

/-- What a finished process has answered; `explain` has the decoder's words for bytes that are no
response. -/
def judge (explain : ByteArray → String) (command : String) (f : Finished) : Answer :=
  match parse? f.stdout with
  | some r =>
    if !r.errors.isEmpty then .error (.merge r.errors)
    else if f.success then .ok r.outputs
    else .error (.plain (exitMessage command f.stderr))
  | none =>
    if f.success then .error (.plain s!"`{command}` produced invalid output: {explain f.stdout}")
    else .error (.plain (exitMessage command f.stderr))

end Response

end GqlArtifacts
