import GqlArtifacts.Regex
import GqlArtifacts.Shell.Pattern

/-!
# Reading regular expressions

There are two ways to write a regular expression, which differ in which signs need a backslash: in a
basic one the groups, the bars, the counts and the signs `+` and `?` do, in an extended one they do
not. `Regex.parse` reads either.
-/

namespace GqlArtifacts.Regex

/-- A part of the text of an expression. -/
inductive Sign where
  | literal (c : Char)
  | any
  | set (negated : Bool) (spans : List (Char × Char))
  | anchor (a : Anchor)
  | word (negated : Bool)
  | space (negated : Bool)
  | caret
  | dollar
  | bar
  | opening
  | closing
  | repeated (sign : Char)
  | count (least : Nat) (most? : Option Nat)
deriving DecidableEq, Inhabited

def wordSpans : List (Char × Char) := [('_', '_'), ('0', '9'), ('A', 'Z'), ('a', 'z')]

def spaceSpans : List (Char × Char) := [('\t', '\x0d'), (' ', ' ')]

/-- Reads a count such as `2,3` and the text that closes it. -/
def readCount? (closing : List Char) (cs : List Char) :
    Option (Nat × Option Nat × List Char) :=
  let isDigit (c : Char) : Bool := '0' ≤ c && c ≤ '9'
  let number? (cs : List Char) : Option Nat := (String.ofList cs).toNat?
  let least := cs.takeWhile isDigit
  let rest := cs.drop least.length
  let (most?, rest) :=
    match rest with
    | ',' :: r =>
      let most := r.takeWhile isDigit
      (some (number? most), r.drop most.length)
    | r => (none, r)
  if !closing.isPrefixOf rest then none
  else
    let rest := rest.drop closing.length
    match number? least, most? with
    | some n, none => some (n, some n, rest)
    | some n, some most? => some (n, most?, rest)
    | none, some most? => some (0, most?, rest)
    | none, none => none

/-- Cuts the text of an expression into signs. -/
def readSigns (extended : Bool) : (fuel : Nat) → List Char → Except String (List Sign)
  | 0, _ => .ok []
  | _, [] => .ok []
  | fuel + 1, c :: r => do
    let go (s : Sign) (r : List Char) : Except String (List Sign) := do
      return s :: (← readSigns extended fuel r)
    match c, r with
    | '\\', [] => .error "Trailing backslash"
    | '\\', c :: r =>
      match c with
      | 'w' => go (.word false) r
      | 'W' => go (.word true) r
      | 's' => go (.space false) r
      | 'S' => go (.space true) r
      | 'b' => go (.anchor .wordEdge) r
      | 'B' => go (.anchor .noWordEdge) r
      | '<' => go (.anchor .wordStart) r
      | '>' => go (.anchor .wordEnd) r
      | '`' => go (.anchor .lineStart) r
      | '\'' => go (.anchor .lineEnd) r
      | c =>
        if extended then go (.literal c) r
        else
          match c with
          | '(' => go .opening r
          | ')' => go .closing r
          | '|' => go .bar r
          | '+' => go (.repeated '+') r
          | '?' => go (.repeated '?') r
          | '\x7b' =>
            match readCount? ['\\', '\x7d'] r with
            | some (least, most?, r) => go (.count least most?) r
            | none => .error "Invalid content of \\\x7b\\\x7d"
          | c => go (.literal c) r
    | '[', r =>
      match Shell.readSet? ['^'] r with
      | some (negated, spans, r) => go (.set negated spans) r
      | none => .error "Unmatched [, [^, [:, [., or [="
    | '.', r => go .any r
    | '*', r => go (.repeated '*') r
    | '^', r => go .caret r
    | '$', r => go .dollar r
    | c, r =>
      if !extended then go (.literal c) r
      else
        match c with
        | '(' => go .opening r
        | ')' => go .closing r
        | '|' => go .bar r
        | '+' => go (.repeated '+') r
        | '?' => go (.repeated '?') r
        | '\x7b' =>
          match readCount? ['\x7d'] r with
          | some (least, most?, r) => go (.count least most?) r
          | none => go (.literal '\x7b') r
        | c => go (.literal c) r

def Sign.isRepeated : Sign → Bool
  | repeated _ => true
  | count _ _ => true
  | _ => false

/-- Applies the signs of repetition after an expression. -/
def readRepeats (r : Regex) : List Sign → Regex × List Sign
  | .repeated '*' :: rest => readRepeats (times r 0 none) rest
  | .repeated '+' :: rest => readRepeats (times r 1 none) rest
  | .repeated _ :: rest => readRepeats (times r 0 (some 1)) rest
  | .count least most? :: rest => readRepeats (times r least most?) rest
  | rest => (r, rest)

mutual

/-- Reads branches with bars between them up to a closing parenthesis or the end. -/
def readBranches (extended : Bool) : (fuel depth : Nat) → List Sign →
    Except String (Regex × List Sign)
  | 0, _, _ => .error "Regular expression too big"
  | fuel + 1, depth, signs => do
    let (a, rest) ← readBranch extended fuel depth true signs
    match rest with
    | .bar :: rest =>
      let (b, rest) ← readBranches extended fuel depth rest
      return (either a b, rest)
    | rest => return (a, rest)

/-- Reads one expression after another. A sign of repetition at the start repeats nothing. -/
def readBranch (extended : Bool) : (fuel depth : Nat) → (first : Bool) → List Sign →
    Except String (Regex × List Sign)
  | 0, _, _, _ => .error "Regular expression too big"
  | fuel + 1, depth, first, signs => do
    let more (r : Regex) (rest : List Sign) : Except String (Regex × List Sign) := do
      let (r, rest) := readRepeats r rest
      let (rs, rest) ← readBranch extended fuel depth false rest
      return (append r rs, rest)
    match signs with
    | [] => return (empty, [])
    | .bar :: _ => return (empty, signs)
    | .closing :: rest =>
      if 0 < depth then return (empty, signs)
      else if extended then more (ofChar ')') rest
      else .error "Unmatched ) or \\)"
    | .opening :: rest =>
      let (r, rest) ← readBranches extended fuel (depth + 1) rest
      match rest with
      | .closing :: rest => more r rest
      | _ => .error "Unmatched ( or \\("
    | .caret :: rest =>
      if extended || first then
        let rest := if extended then rest.dropWhile Sign.isRepeated else rest
        let (rs, rest) ← readBranch extended fuel depth true rest
        return (append (anchor .lineStart) rs, rest)
      else more (ofChar '^') rest
    | .dollar :: rest =>
      let last :=
        match rest with
        | [] => true
        | .bar :: _ => true
        | .closing :: _ => true
        | _ => false
      if extended || last then more (anchor .lineEnd) rest else more (ofChar '$') rest
    | .repeated c :: rest =>
      if !first then .error "Invalid preceding regular expression"
      else if extended then readBranch extended fuel depth true rest
      else if c = '*' then more (ofChar '*') rest
      else more (ofChar c) rest
    | .count _ _ :: rest =>
      if first && extended then readBranch extended fuel depth true rest
      else .error "Invalid preceding regular expression"
    | .literal c :: rest => more (ofChar c) rest
    | .any :: rest => more Regex.any rest
    | .set negated spans :: rest => more (char negated spans) rest
    | .word negated :: rest => more (char negated wordSpans) rest
    | .space negated :: rest => more (char negated spaceSpans) rest
    | .anchor a :: rest => more (anchor a) rest

end

/-- Reads an expression. -/
def parse (extended : Bool) (cs : List Char) : Except String Regex := do
  let signs ← readSigns extended (cs.length + 1) cs
  let (r, _) ← readBranches extended (4 * signs.length + 8) 0 signs
  return r

/-- The character in the other case. -/
def otherCase (c : Char) : Char := if c.isUpper then c.toLower else c.toUpper

/-- The same expression for letters of either case. -/
def ignoringCase : Regex → Regex
  | char negated spans =>
    let parts (a b : Char) (low high : Char) : List (Char × Char) :=
      let a := if a < low then low else a
      let b := if high < b then high else b
      if a ≤ b then [(otherCase a, otherCase b)] else []
    char negated (spans.flatMap fun (a, b) =>
      (a, b) :: (parts a b 'A' 'Z' ++ parts a b 'a' 'z'))
  | append a b => append a.ignoringCase b.ignoringCase
  | either a b => either a.ignoringCase b.ignoringCase
  | times a least most? => times a.ignoringCase least most?
  | r => r

end GqlArtifacts.Regex
