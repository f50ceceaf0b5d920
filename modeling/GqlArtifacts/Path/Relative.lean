import GqlArtifacts.Path

/-!
# Relative paths

`Path.relative src dst` leads from the directory `src` to `dst`: one `..` for each part of `src`
that `dst` does not share, then the rest of `dst`. Both are normalized first.
-/

namespace GqlArtifacts.Path

/-- The number of leading parts that two lists share. -/
def commonLength : List (Component String) → List (Component String) → Nat
  | a :: as, b :: bs => if a = b then commonLength as bs + 1 else 0
  | _, _ => 0

def relativeComponents (src dst : List (Component String)) : List (Component String) :=
  let n := commonLength src dst
  List.replicate (src.length - n) .parent ++ dst.drop n

def relative (src dst : Path) : Path :=
  ofComponents (relativeComponents src.normalize.components dst.normalize.components)

end GqlArtifacts.Path
