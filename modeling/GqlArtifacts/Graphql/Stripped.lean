import GqlArtifacts.Graphql.Token
import GqlArtifacts.Graphql.BlockString
import GqlArtifacts.Text.Utf8

/-!
# Stripped documents

`strip` writes the tokens of a document with nothing between them, except for one space where two
tokens would otherwise run together. Block strings are written by value, so documents that differ
only in layout have one stripped text.
-/

namespace GqlArtifacts.Graphql

/-- Words and strings, which may run into what follows. -/
def Token.isWordLike (t : Token) : Bool :=
  t.kind == .word || t.kind == .string || t.kind == .blockString

/-- The text of a token in a stripped document. -/
def Token.strippedText (t : Token) : List Char :=
  if t.kind = .blockString then printBlock (blockValue t.text) else t.text

/-- The tokens as written after a token that is word-like or not. -/
def writeTokens : (afterWord : Bool) → List Token → List Char
  | _, [] => []
  | afterWord, t :: ts =>
    (if afterWord && (t.isWordLike || t.kind == .spread) then [' '] else []) ++
      t.strippedText ++ writeTokens t.isWordLike ts

def stripChars (cs : List Char) : List Char := writeTokens false (tokens cs)

def strip (source : String) : String := String.ofList (stripChars (Text.chars source))

end GqlArtifacts.Graphql
