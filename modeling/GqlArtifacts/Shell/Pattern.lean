import GqlArtifacts.Files.Program
import GqlArtifacts.Glob
import GqlArtifacts.Shell

/-!
# Patterns in scripts

The patterns of `case`, of trimmed parameters and of file names. Which of their characters are
quoted decides what stands for itself, so a text is given with its marks: each character, and
whether it is quoted.
-/

namespace GqlArtifacts.Shell

open Files

abbrev Marked := List (Bool × Char)

def Marked.ofString (quoted : Bool) (s : String) : Marked := s.toList.map (quoted, ·)

def Marked.text (t : Marked) : String := String.ofList (t.map Prod.snd)

/-- The spans of the classes of characters. -/
def classSpans (name : String) : List (Char × Char) :=
  match name with
  | "alpha" => [('A', 'Z'), ('a', 'z')]
  | "digit" => [('0', '9')]
  | "alnum" => [('0', '9'), ('A', 'Z'), ('a', 'z')]
  | "upper" => [('A', 'Z')]
  | "lower" => [('a', 'z')]
  | "space" => [('\t', '\x0d'), (' ', ' ')]
  | "blank" => [('\t', '\t'), (' ', ' ')]
  | "punct" => [('!', '/'), (':', '@'), ('[', '`'), ('\x7b', '~')]
  | "print" => [(' ', '~')]
  | "graph" => [('!', '~')]
  | "cntrl" => [('\x00', '\x1f'), ('\x7f', '\x7f')]
  | "xdigit" => [('0', '9'), ('A', 'F'), ('a', 'f')]
  | _ => []

/-- Reads a class such as `[:digit:]` after its opening bracket and colon. -/
def readClass? (cs : List Char) : Option (List (Char × Char) × List Char) :=
  let name := cs.takeWhile (· != ':')
  match cs.dropWhile (· != ':') with
  | ':' :: ']' :: r => some (classSpans (String.ofList name), r)
  | _ => none

/-- Reads the spans of a set in brackets up to the closing one, which may also stand in front. -/
def readSpans? : (fuel : Nat) → (first : Bool) → List Char →
    Option (List (Char × Char) × List Char)
  | 0, _, _ => none
  | fuel + 1, first, cs =>
    match cs with
    | [] => none
    | ']' :: r => if first then spansFrom fuel ']' r else some ([], r)
    | '[' :: ':' :: r =>
      match readClass? r with
      | some (spans, r) => (readSpans? fuel false r).map fun (more, r) => (spans ++ more, r)
      | none => spansFrom fuel '[' (':' :: r)
    | c :: r => spansFrom fuel c r
where
  spansFrom (fuel : Nat) (c : Char) (r : List Char) : Option (List (Char × Char) × List Char) :=
    match r with
    | '-' :: ']' :: r => (readSpans? fuel false ('-' :: ']' :: r)).map fun (more, r) =>
        ((c, c) :: more, r)
    | '-' :: d :: r => (readSpans? fuel false r).map fun (more, r) => ((c, d) :: more, r)
    | r => (readSpans? fuel false r).map fun (more, r) => ((c, c) :: more, r)

/-- Reads a set after its opening bracket. -/
def readSet? (negations cs : List Char) : Option (Bool × List (Char × Char) × List Char) :=
  let (negated, cs) :=
    match cs with
    | c :: r => if negations.contains c then (true, r) else (false, c :: r)
    | [] => (false, [])
  (readSpans? (cs.length + 1) true cs).map fun (spans, r) => (negated, spans, r)

/-- The tokens of a pattern; a bracket that opens no set stands for itself. -/
def patternTokens : (fuel : Nat) → Marked → List Glob.Token
  | 0, _ => []
  | _, [] => []
  | fuel + 1, (true, c) :: r => .char c :: patternTokens fuel r
  | fuel + 1, (false, c) :: r =>
    if c = '*' then .run :: patternTokens fuel r
    else if c = '?' then .any :: patternTokens fuel r
    else if c = '[' then
      match readSet? ['!'] (r.map Prod.snd) with
      | some (negated, spans, after) =>
        .set negated spans :: patternTokens fuel (r.drop (r.length - after.length))
      | none => .char c :: patternTokens fuel r
    else .char c :: patternTokens fuel r

def Marked.tokens (t : Marked) : List Glob.Token := patternTokens t.length t

/-- Whether a pattern stands for a text. -/
def Marked.fits (t : Marked) (s : String) : Bool := Glob.fits t.tokens s.toList

/-- A value without what a pattern stands for at one of its ends. -/
def trim (how : Trim) (pattern : Marked) (value : String) : String :=
  let cs := value.toList
  let ts := pattern.tokens
  let lengths := List.range (cs.length + 1)
  let cut? : Option (List Char) :=
    match how with
    | .shortestFront =>
      (lengths.find? fun n => Glob.fits ts (cs.take n)).map fun n => cs.drop n
    | .longestFront =>
      (lengths.reverse.find? fun n => Glob.fits ts (cs.take n)).map fun n => cs.drop n
    | .shortestBack =>
      (lengths.reverse.find? fun n => Glob.fits ts (cs.drop n)).map fun n => cs.take n
    | .longestBack =>
      (lengths.find? fun n => Glob.fits ts (cs.drop n)).map fun n => cs.take n
  String.ofList (cut?.getD cs)

/-- Whether a text has an unquoted character that stands for others. -/
def Marked.isPattern (t : Marked) : Bool :=
  t.any fun (quoted, c) => !quoted && (c == '*' || c == '?' || c == '[')

/-- The parts of a text between slashes. -/
def Marked.parts (t : Marked) : List Marked := go [] t
where
  go : Marked → Marked → List Marked
    | acc, [] => [acc.reverse]
    | acc, (q, c) :: r => if c = '/' then acc.reverse :: go [] r else go ((q, c) :: acc) r

/-- The files that parts stand for, each as the text `before` and what the parts give. A leading dot
has to be written. -/
def expandParts (directory : Path) : List Marked → (before : String) → Program (List String)
  | [], before => return [before]
  | part :: rest, before => do
    let slash := if rest.isEmpty then "" else "/"
    if part.isPattern then
      let dir := directory / ⟨if before.isEmpty then "." else before⟩
      match ← Program.list dir with
      | .error _ => return []
      | .ok names =>
        let hidden := part.head?.map Prod.snd == some '.'
        let chosen := names.filter fun s =>
          (hidden || s.toList.head? != some '.') && Glob.fits part.tokens s.toList
        let sorted := chosen.mergeSort fun a b => decide (a ≤ b)
        let found ← sorted.mapM fun s => expandParts directory rest (before ++ s ++ slash)
        return found.flatten
    else if rest.isEmpty then
      let path := before ++ part.text
      if ← Program.exists? (directory / ⟨path⟩) then return [path] else return []
    else expandParts directory rest (before ++ part.text ++ slash)

/-- The files that a pattern stands for, or else the pattern as a text. -/
def expandFiles (directory : Path) (t : Marked) : Program (List String) := do
  if t.isPattern then
    match ← expandParts directory t.parts "" with
    | [] => return [t.text]
    | found => return found
  else return [t.text]

end GqlArtifacts.Shell
