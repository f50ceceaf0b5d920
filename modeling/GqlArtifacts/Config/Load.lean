import GqlArtifacts.Config
import GqlArtifacts.Hash
import GqlArtifacts.Path
import GqlArtifacts.Text.Whitespace
import GqlArtifacts.Toml.Reader

/-!
# Loading configurations

`Config.load` makes the configuration of a text: it puts in the variables, reads the fields and
checks the settings. The identity of a configuration is the hash of its text with the variables put
in, so any edit changes it.
-/

namespace GqlArtifacts.Config

def checkDocument (glob : String) : Except Error Unit :=
  if (Path.mk glob).escapesRoot then .error (.invalid (.documentOutside glob)) else .ok ()

/-- A path that must be there and stay inside the project. -/
def checkPath (field value : String) : Except Error Unit :=
  if Text.isBlank value then .error (.missing field)
  else if (Path.mk value).escapesRoot then .error (.invalid (.pathOutside field value))
  else .ok ()

/-- Checks the settings in a fixed order; the first that is wrong is the error. -/
def check (c : Config) : Except Error Unit := do
  if c.schema.all Text.isBlank then throw (.missing "schema")
  if c.documents.all Text.isBlank then throw (.missing "documents")
  if c.plugins.isEmpty then throw (.missing "plugins")
  c.documents.forM checkDocument
  checkPath "cache_dir" c.cacheDir
  checkPath "gen_dts_dir" c.typesDir
  checkPath "type_inject_entrypoint" c.entrypoint
  if Text.isBlank c.backend.command then throw (.missing "backend.command")

/-- A checked configuration and its identity. -/
structure Loaded where
  config : Config
  hash : ContentHash
deriving Inhabited

def load (lookup : String → Option String) (text : String) : Except Error Loaded := do
  let text ← (interpolate lookup text).mapError .undefinedVariable
  match Toml.parse? text with
  | none => throw .notToml
  | some fields =>
    let c ← (ofFields fields).mapError .mismatch
    c.check
    return ⟨c, .ofText text⟩

end GqlArtifacts.Config
