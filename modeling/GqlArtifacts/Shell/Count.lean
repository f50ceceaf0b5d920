import GqlArtifacts.Shell.Options
import GqlArtifacts.Text.Utf8

/-!
# Counting

What `wc` counts in a text and how it shows the counts: always in the order lines, words,
characters, bytes and longest line, in columns of one width.
-/

namespace GqlArtifacts.Shell

namespace Count

def options : List ToolOption :=
  [⟨'l', "lines", false⟩, ⟨'w', "words", false⟩, ⟨'m', "chars", false⟩, ⟨'c', "bytes", false⟩,
    ⟨'L', "max-line-length", false⟩]

structure Counts where
  lines : Nat
  words : Nat
  chars : Nat
  bytes : Nat
  longest : Nat
deriving Inhabited

def isBlank (c : Char) : Bool := c == ' ' || ('\t' ≤ c && c ≤ '\x0d')

/-- How many words there are between blanks. -/
def words : (inside : Bool) → List Char → Nat
  | _, [] => 0
  | inside, c :: r =>
    if isBlank c then words false r
    else (if inside then 0 else 1) + words true r

/-- The width of the longest line, where a tab leads to the next multiple of eight. -/
def longest : (column : Nat) → List Char → Nat
  | column, [] => column
  | column, c :: r =>
    if c = '\n' ∨ c = '\x0c' ∨ c = '\x0d' then max column (longest 0 r)
    else if c = '\t' then longest (column / 8 * 8 + 8) r
    else longest (column + 1) r

def ofContent (content : ByteArray) : Counts :=
  let cs := (Text.lossy content).toList
  ⟨cs.count '\n', words false cs, cs.length, content.size, longest 0 cs⟩

def add (a b : Counts) : Counts :=
  ⟨a.lines + b.lines, a.words + b.words, a.chars + b.chars, a.bytes + b.bytes,
    max a.longest b.longest⟩

/-- The counts that are asked for; without options it is the lines, words and bytes. -/
def columns (a : ToolArgs) (n : Counts) : List Nat :=
  let all := [('l', n.lines), ('w', n.words), ('m', n.chars), ('c', n.bytes), ('L', n.longest)]
  let keys := if a.options.isEmpty then ['l', 'w', 'c'] else a.options.map Prod.fst
  (all.filter fun (key, _) => keys.contains key).map Prod.snd

/-- A line of counts in columns of a width, with the name of what was counted. -/
def line (a : ToolArgs) (width : Nat) (n : Counts) (name? : Option String) : String :=
  let column (n : Nat) : String := "".pushn ' ' (width - (toString n).length) ++ toString n
  " ".intercalate ((columns a n).map column ++ name?.toList) ++ "\n"

/-- The width of the columns for the sizes of what is counted. A size that is not known beforehand
asks for seven places; a single count of a single text takes as many as it needs. -/
def width (a : ToolArgs) (sizes : List (Option Nat)) : Nat :=
  if sizes.length ≤ 1 && (columns a default).length == 1 then 1
  else
    let total := sizes.foldl (fun n s => n + s.getD 0) 0
    let digits := (toString total).length
    if sizes.any Option.isNone then max 7 digits else digits

end Count

end GqlArtifacts.Shell
