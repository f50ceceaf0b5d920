import GqlArtifacts.Shell

/-!
# The text of a script

A `Source` is what is still to be read of a script. Reading counts lines, so that every command and
every error knows its own. The text that a here-document takes up is cut out as soon as its
redirection is read, and its lines are counted at the end of the line of the redirection.
-/

namespace GqlArtifacts.Shell

inductive Token where
  | endOfText
  | newline
  | operator (sign : String)
  | redirect (stream : Nat) (sign : String)
  | word (w : Word)
deriving Inhabited

structure Source where
  rest : List Char
  line : Nat
  /-- The lines of here-documents that begin after the line at hand. -/
  documentLines : Nat
  /-- A token that is read but not yet taken. -/
  peeked? : Option Token
deriving Inhabited

def Source.ofChars (line : Nat) (cs : List Char) : Source := ⟨cs, line, 0, none⟩

/-- Reading, which a syntax error ends. The error is told with the line where it was noticed. -/
abbrev ReadM := StateT Source (Except (Nat × String))

def fail {α : Type} (message : String) : ReadM α := do throw ((← get).line, message)

namespace Source

def isBlank (c : Char) : Bool := c == ' ' || c == '\t'

/-- A character that ends a word. -/
def isOperator (c : Char) : Bool :=
  isBlank c || c == '\n' || c == ';' || c == '&' || c == '|' || c == '<' || c == '>' || c == '(' ||
    c == ')'

def isNameStart (c : Char) : Bool := ('A' ≤ c && c ≤ 'Z') || ('a' ≤ c && c ≤ 'z') || c == '_'

def isDigit (c : Char) : Bool := '0' ≤ c && c ≤ '9'

def isNameChar (c : Char) : Bool := isNameStart c || isDigit c

def isName (s : String) : Bool :=
  match s.toList with
  | c :: cs => isNameStart c && cs.all isNameChar
  | [] => false

/-- Drops characters from the front, which may hold newlines. -/
def skip (s : Source) (n : Nat) : Source :=
  { s with rest := s.rest.drop n, line := s.line + (s.rest.take n).count '\n' }

/-- Drops blanks, joined lines and a comment. -/
def skipBlanks (s : Source) : Source := go s.line s.rest
where
  go : Nat → List Char → Source
    | n, '\\' :: '\n' :: r => go (n + 1) r
    | n, '#' :: r => { s with rest := r.dropWhile (· != '\n'), line := n }
    | n, c :: r => if isBlank c then go n r else { s with rest := c :: r, line := n }
    | n, [] => { s with rest := [], line := n }

/-- Takes a newline. -/
def skipNewline (s : Source) : Source :=
  { s with rest := s.rest.drop 1, line := s.line + 1 + s.documentLines, documentLines := 0 }

/-- Cuts a text at the end of the line, which is no newline in quotes. -/
def splitLine : (quote : Option Char) → List Char → List Char × List Char
  | _, [] => ([], [])
  | quote, '\\' :: c :: r =>
    if quote = some '\'' then
      let (line, after) := splitLine (if c = '\'' then none else quote) r
      ('\\' :: c :: line, after)
    else
      let (line, after) := splitLine quote r
      ('\\' :: c :: line, after)
  | none, '\n' :: r => ([], r)
  | quote, c :: r =>
    let quote :=
      if quote = some c then none
      else if quote = none ∧ (c = '\'' ∨ c = '"') then some c
      else quote
    let (line, after) := splitLine quote r
    (c :: line, after)

/-- Takes lines up to one that is the delimiter: those before it with their newlines, and the rest
after it. -/
def takeDocument (stripTabs : Bool) (delimiter : List Char) :
    (fuel : Nat) → List Char → List (List Char) × List Char
  | 0, cs => ([], cs)
  | _, [] => ([], [])
  | fuel + 1, cs =>
    let line := cs.takeWhile (· != '\n')
    let line := if stripTabs then line.dropWhile (· == '\t') else line
    let after := (cs.dropWhile (· != '\n')).drop 1
    if line = delimiter then ([], after)
    else
      let ending := if cs.contains '\n' then ['\n'] else []
      let (lines, rest) := takeDocument stripTabs delimiter fuel after
      ((line ++ ending) :: lines, rest)

/-- Cuts the here-document of a delimiter out of the text. -/
def cutDocument (s : Source) (stripTabs : Bool) (delimiter : List Char) : List Char × Source :=
  let (line, after) := splitLine none s.rest
  let (lines, rest) := takeDocument stripTabs delimiter (after.length + 1) after
  (lines.flatten,
    { s with
      rest := line ++ '\n' :: rest
      documentLines := s.documentLines + lines.length + 1 })

end Source

end GqlArtifacts.Shell
