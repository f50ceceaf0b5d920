import GqlArtifacts.Regex.Reader
import GqlArtifacts.Shell.Options

/-!
# Searching lines

What `grep` looks for and what it shows: lines with a part that fits an expression, or those
without.
-/

namespace GqlArtifacts.Shell

namespace Search

def options : List ToolOption :=
  [⟨'E', "extended-regexp", false⟩, ⟨'F', "fixed-strings", false⟩, ⟨'G', "basic-regexp", false⟩,
    ⟨'P', "perl-regexp", false⟩, ⟨'e', "regexp", true⟩, ⟨'i', "ignore-case", false⟩,
    ⟨'y', "", false⟩, ⟨'v', "invert-match", false⟩, ⟨'w', "word-regexp", false⟩,
    ⟨'x', "line-regexp", false⟩, ⟨'c', "count", false⟩, ⟨'o', "only-matching", false⟩,
    ⟨'q', "quiet", false⟩, ⟨'q', "silent", false⟩, ⟨'s', "no-messages", false⟩,
    ⟨'n', "line-number", false⟩, ⟨'H', "with-filename", false⟩, ⟨'h', "no-filename", false⟩,
    ⟨'l', "files-with-matches", false⟩, ⟨'L', "files-without-match", false⟩,
    ⟨'m', "max-count", true⟩, ⟨'a', "text", false⟩]

/-- The lines of a text; a newline at the end starts no further line. -/
def linesOf (cs : List Char) : List (List Char) :=
  let lines := cs.splitOn '\n'
  if lines.getLast? = some [] then lines.dropLast else lines

/-- The expression that arguments ask for, and the operands that name files. -/
def expression (a : ToolArgs) : Except String (Regex × List String) := do
  let (patterns, files) ←
    match a.values 'e', a.operands with
    | [], [] => .error ""
    | [], pattern :: files => .ok ([pattern], files)
    | patterns, files => .ok (patterns, files)
  let style := (a.options.map Prod.fst).filter ['E', 'F', 'G', 'P'].contains
  let texts := patterns.flatMap fun s => s.toList.splitOn '\n'
  let branches ← texts.mapM fun cs =>
    if style.getLast? = some 'F' then .ok (Regex.ofText cs)
    else Regex.parse (style.getLast? = some 'E' || style.getLast? = some 'P') cs
  let all := branches.foldr (fun r rest => if rest = .nothing then r else .either r rest) .nothing
  let all := if a.has 'i' || a.has 'y' then all.ignoringCase else all
  let around (before after : Anchor) (r : Regex) : Regex :=
    .append (.anchor before) (.append r (.anchor after))
  if a.has 'x' then return (around .lineStart .lineEnd all, files)
  else if a.has 'w' then return (around .noWordBefore .noWordAfter all, files)
  else return (all, files)

/-- The chosen lines of a text with their numbers. -/
def chosen (a : ToolArgs) (r : Regex) (cs : List Char) : List (Nat × List Char) :=
  let numbered := (List.range' 1 (linesOf cs).length).zip (linesOf cs)
  let all := numbered.filter fun (_, line) => r.isFound line != a.has 'v'
  match (a.values 'm').getLast?.bind String.toNat? with
  | some n => all.take n
  | none => all

/-- Whether a text is not shown, as it has characters that no text has. -/
def isBinary (a : ToolArgs) (cs : List Char) : Bool :=
  cs.contains '\x00' && !("clLqa".toList.any a.has)

/-- What is shown of the chosen lines of a file that is called `name` where names are shown. -/
def shown (a : ToolArgs) (r : Regex) (name : String) (named : Bool) (cs : List Char)
    (lines : List (Nat × List Char)) : String :=
  let front := if named then name ++ ":" else ""
  if a.has 'q' then ""
  else if a.has 'l' then if lines.isEmpty then "" else name ++ "\n"
  else if a.has 'L' then if lines.isEmpty then name ++ "\n" else ""
  else if a.has 'c' then front ++ toString lines.length ++ "\n"
  else if isBinary a cs then ""
  else
    let texts (line : List Char) : List (List Char) :=
      if !a.has 'o' then [line] else if a.has 'v' then [] else r.parts line
    String.join (lines.flatMap fun (n, line) => (texts line).map fun text =>
      front ++ (if a.has 'n' then toString n ++ ":" else "") ++ String.ofList text ++ "\n")

end Search

end GqlArtifacts.Shell
