import GqlArtifacts.Config.Load
import GqlArtifacts.Session

/-!
# Resolved configurations

A `Resolved` configuration belongs to a place: its project root is an absolute path, and all its
directories are in normal form. It gives the settings of the sessions in that project.
-/

namespace GqlArtifacts.Config

structure Resolved where
  root : Path
  schema : List String
  documents : List String
  plugins : List String
  cacheDir : Path
  typesDir : Path
  entrypoint : Path
  options : Json
  backend : BackendCommand
  silent : Bool
  hash : ContentHash
deriving Inhabited

/-- Resolves a configuration from the directory `dir`, which has to be absolute. -/
def Loaded.resolve (l : Loaded) (dir : Path) : Resolved :=
  let c := l.config
  { root := (match c.cwd? with
      | some cwd => dir / (Path.mk cwd)
      | none => dir).normalize
    schema := c.schema
    documents := c.documents
    plugins := c.plugins
    cacheDir := (Path.mk c.cacheDir).normalize
    typesDir := (Path.mk c.typesDir).normalize
    entrypoint := (Path.mk c.entrypoint).normalize
    options := (Toml.Value.table c.options).toJson.canonical
    backend := c.backend
    silent := c.silent
    hash := l.hash }

namespace Resolved

def cacheFullDir (r : Resolved) : Path := r.root / r.cacheDir

def layout (r : Resolved) : Layout := ⟨r.root, r.cacheDir, r.typesDir⟩

def settings (r : Resolved) : Settings :=
  ⟨r.layout, r.hash, r.plugins, r.options, some r.entrypoint⟩

/-- A session in the project, with an empty cache. -/
def session (r : Resolved) : Session :=
  .new r.settings (.new r.root r.cacheDir Manifest.currentVersion)

end Resolved

end GqlArtifacts.Config
