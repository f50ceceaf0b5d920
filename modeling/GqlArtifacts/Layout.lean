import GqlArtifacts.Hash
import GqlArtifacts.Path

/-!
# Where artifacts lie

A `Layout` fixes the project root, the cache directory and the directory of generated types. The
artifacts of a source at a hash are a module in the cache directory and a declaration in the types
directory. Both are named after the source's file with the hash added, and lie in the same
subdirectory as the source.
-/

namespace GqlArtifacts

/-- The two directories are relative to the root. -/
structure Layout where
  root : Path
  cacheDir : Path
  typesDir : Path
deriving DecidableEq, Inhabited

/-- The module and the declaration of one source at one hash, relative to the root and in full. -/
structure ArtifactPaths where
  tsx : Path
  tsxFull : Path
  dts : Path
  dtsFull : Path
deriving DecidableEq, Inhabited

namespace Layout

/-- The name of a source's artifacts without their extensions. -/
def stem (source : Path) (h : ContentHash) : String :=
  source.fileName?.getD "" ++ "-" ++ h.toHex

def paths (layout : Layout) (source : Path) (h : ContentHash) : ArtifactPaths :=
  let dir := source.parent?.getD ⟨""⟩
  let tsx := layout.cacheDir / dir / ⟨stem source h ++ ".tsx"⟩
  let dts := layout.typesDir / dir / ⟨stem source h ++ ".d.ts"⟩
  ⟨tsx, layout.root / tsx, dts, layout.root / dts⟩

end Layout

end GqlArtifacts
