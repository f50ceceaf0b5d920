/-!
# Block strings

The value of a block string leaves out the indentation that its lines share and the blank lines at
both ends. `blockValue` computes it from a token, and `printBlock` writes a value as the shortest
token that has it, which may need a line break after the opening or before the closing quotes.
-/

namespace GqlArtifacts.Graphql

def quotes : List Char := ['"', '"', '"']

/-- Takes the backslash from every escaped run of three quotes. -/
def unescapeQuotes : List Char → List Char
  | '\\' :: '"' :: '"' :: '"' :: cs => '"' :: '"' :: '"' :: unescapeQuotes cs
  | c :: cs => c :: unescapeQuotes cs
  | [] => []

/-- Puts a backslash before every run of three quotes. -/
def escapeQuotes : List Char → List Char
  | '"' :: '"' :: '"' :: cs => '\\' :: '"' :: '"' :: '"' :: escapeQuotes cs
  | c :: cs => c :: escapeQuotes cs
  | [] => []

/-- Writes every line terminator as a line feed. -/
def unifyTerminators : List Char → List Char
  | '\r' :: '\n' :: cs => '\n' :: unifyTerminators cs
  | '\r' :: cs => '\n' :: unifyTerminators cs
  | c :: cs => c :: unifyTerminators cs
  | [] => []

def isIndent (c : Char) : Bool := c == ' ' || c == '\t'

def isBlankLine (line : List Char) : Bool := line.all isIndent

/-- The length of the indentation of a line that is not blank. -/
def indent? (line : List Char) : Option Nat :=
  if isBlankLine line then none else some (line.takeWhile isIndent).length

/-- The least indentation of the lines that are not blank. -/
def commonIndent (lines : List (List Char)) : Nat := ((lines.filterMap indent?).min?).getD 0

/-- Takes the first `width` characters from every line. -/
def dropColumns (width : Nat) (lines : List (List Char)) : List (List Char) :=
  lines.map (·.drop width)

/-- Takes the common indentation from all lines but the first. -/
def dedent : List (List Char) → List (List Char)
  | [] => []
  | first :: rest => first :: dropColumns (commonIndent rest) rest

def dropBlankEdges (lines : List (List Char)) : List (List Char) :=
  ((lines.dropWhile isBlankLine).reverse.dropWhile isBlankLine).reverse

/-- The text between the quotes of a token. A token without closing quotes runs to its end. -/
def blockBody (token : List Char) : List Char :=
  let body := if quotes.isPrefixOf token then token.drop 3 else token
  if quotes.isSuffixOf body then
    let inner := body.take (body.length - 3)
    if inner.getLast? = some '\\' then body else inner
  else body

def splitLines (cs : List Char) : List (List Char) := cs.splitOn '\n'

def joinLines (lines : List (List Char)) : List Char := ['\n'].intercalate lines

def blockValue (token : List Char) : List Char :=
  joinLines (dropBlankEdges (dedent (splitLines
    (unifyTerminators (unescapeQuotes (blockBody token))))))

/-- Whether the lines after the first are all empty or indented, so that their indentation would be
taken for common. -/
def needsLeadingBreak (value : List Char) : Bool :=
  value.contains '\n' && (splitLines value).tail.all fun line =>
    match line with
    | [] => true
    | c :: _ => isIndent c

/-- Whether the value would run into the closing quotes. -/
def needsTrailingBreak (value : List Char) : Bool :=
  value.getLast? == some '"' || value.getLast? == some '\\'

def printBlock (value : List Char) : List Char :=
  quotes ++ (if needsLeadingBreak value then ['\n'] else []) ++ escapeQuotes value ++
    (if needsTrailingBreak value then ['\n'] else []) ++ quotes

end GqlArtifacts.Graphql
