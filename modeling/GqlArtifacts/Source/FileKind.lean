import GqlArtifacts.Path

/-!
# Kinds of source files

The extension of a file tells what it contributes: GraphQL documents stand for themselves, scripts
are searched for calls.
-/

namespace GqlArtifacts

inductive FileKind where
  | document
  | script
deriving DecidableEq

namespace FileKind

def documentExtensions : List String := ["graphql", "graphqls", "gql"]

def scriptExtensions : List String := ["ts", "tsx", "mts", "cts", "js", "jsx", "mjs", "cjs"]

def ofPath? (p : Path) : Option FileKind :=
  p.extension?.bind fun ext =>
    if documentExtensions.contains ext then some document
    else if scriptExtensions.contains ext then some script
    else none

def text : FileKind → String
  | document => "document"
  | script => "script"

end FileKind

end GqlArtifacts
