import GqlArtifacts.Toml.Date
import GqlArtifacts.Toml.Quoted
import GqlArtifacts.Toml.Table
import GqlArtifacts.Text.Utf8

/-!
# Reading TOML documents

`Toml.parse?` reads a document as the fields of its top table. Arrays may run over several lines and
hold comments; a table in braces stands on one line. Values nest, and keys have parts, up to a fixed
limit.
-/

namespace GqlArtifacts.Toml

/-- Nesting and the number of a key's parts stay below this. -/
def depthLimit : Nat := 80

def isBareKeyChar (c : Char) : Bool :=
  ('A' ≤ c && c ≤ 'Z') || ('a' ≤ c && c ≤ 'z') || isDigit c || c == '_' || c == '-'

/-- Reads one part of a key. -/
def readKeyPart? : List Char → Option (String × List Char)
  | '"' :: r => (readBasic? r).map fun (s, r) => (String.ofList s, r)
  | '\'' :: r => (readLiteral? r).map fun (s, r) => (String.ofList s, r)
  | cs =>
    let name := cs.takeWhile isBareKeyChar
    if name.isEmpty then none else some (String.ofList name, cs.dropWhile isBareKeyChar)

/-- Reads the parts of a key with dots between them, at most `limit` many. -/
def readKey? : (limit : Nat) → List Char → Option (List String × List Char)
  | 0, _ => none
  | limit + 1, cs => do
    let (k, r) ← readKeyPart? (skipBlank cs)
    match skipBlank r with
    | '.' :: r =>
      let (ks, r) ← readKey? limit r
      return (k :: ks, r)
    | r => return ([k], r)

/-- Skips blanks, newlines and comments; every comment ends with a newline. -/
def skipLines? : (comment : Bool) → List Char → Option (List Char)
  | _, '\n' :: r => skipLines? false r
  | _, '\r' :: '\n' :: r => skipLines? false r
  | true, [] => none
  | true, c :: r => if isPlain c then skipLines? true r else none
  | false, [] => some []
  | false, c :: r =>
    if isBlank c then skipLines? false r
    else if c = '#' then skipLines? true r
    else some (c :: r)

/-- Skips blanks and a comment up to the next line or the end of the text. -/
def endLine? (cs : List Char) : Option (List Char) :=
  let r :=
    match skipBlank cs with
    | '#' :: r => r.dropWhile isPlain
    | r => r
  if r.isEmpty then some [] else newline? r

/-- The table that the pairs between braces make. -/
def tableOfPairs? (pairs : List (List String × String × Value)) : Option Value :=
  (pairs.foldlM (fun t (path, k, v) => Table.set? path k v t) (Table.empty .header)).map
    Table.toValue

/-- The path and the last part of a key. -/
def splitKey? (ks : List String) : Option (List String × String) :=
  ks.getLast?.map (ks.dropLast, ·)

mutual

/-- Reads a value; `depth` is how deep it may still nest, and `fuel` bounds the reading. -/
def readValue? : (fuel depth : Nat) → List Char → Option (Value × List Char)
  | 0, _, _ => none
  | fuel + 1, depth, cs =>
    match cs with
    | '[' :: r => do
      if depth = 0 then none
      let (vs, r) ← readItems? fuel (depth - 1) r
      return (.array vs, r)
    | '{' :: r => do
      if depth = 0 then none
      let (pairs, r) ←
        match skipBlank r with
        | '}' :: r => some ([], r)
        | r => readPairs? fuel (depth - 1) r
      return (← tableOfPairs? pairs, r)
    | 't' :: 'r' :: 'u' :: 'e' :: r => some (.boolean true, r)
    | 'f' :: 'a' :: 'l' :: 's' :: 'e' :: r => some (.boolean false, r)
    | '"' :: _ => (readString? cs).map fun (s, r) => (.string (String.ofList s), r)
    | '\'' :: _ => (readString? cs).map fun (s, r) => (.string (String.ofList s), r)
    | cs => readDate? cs <|> readNumber? cs

/-- Reads the items of an array up to its closing bracket; a comma may stand before that. -/
def readItems? : (fuel depth : Nat) → List Char → Option (List Value × List Char)
  | 0, _, _ => none
  | fuel + 1, depth, cs => do
    match ← skipLines? false cs with
    | ']' :: r => return ([], r)
    | r =>
      let (v, r) ← readValue? fuel depth r
      match ← skipLines? false r with
      | ',' :: r =>
        let (vs, r) ← readItems? fuel depth r
        return (v :: vs, r)
      | ']' :: r => return ([v], r)
      | _ => none

/-- Reads the pairs of a table in braces, at least one, up to its closing brace. -/
def readPairs? : (fuel depth : Nat) → List Char →
    Option (List (List String × String × Value) × List Char)
  | 0, _, _ => none
  | fuel + 1, depth, cs => do
    let (path, k, v, r) ← readPair? fuel depth cs
    match skipBlank r with
    | ',' :: r =>
      let (pairs, r) ← readPairs? fuel depth r
      return ((path, k, v) :: pairs, r)
    | '}' :: r => return ([(path, k, v)], r)
    | _ => none

/-- Reads a key, an equals sign and a value. -/
def readPair? : (fuel depth : Nat) → List Char →
    Option (List String × String × Value × List Char)
  | 0, _, _ => none
  | fuel + 1, depth, cs => do
    let (ks, r) ← readKey? (depthLimit - 1) cs
    let (path, k) ← splitKey? ks
    match r with
    | '=' :: r =>
      let (v, r) ← readValue? fuel depth (skipBlank r)
      return (path, k, v, r)
    | _ => none

end

/-- Reads the key of a header and the brackets that close it. -/
def readHeader? (repeated : Bool) (cs : List Char) : Option (List String × List Char) := do
  let (ks, r) ← readKey? (depthLimit - 1) cs
  let r ← expect? ']' r
  let r ← if repeated then expect? ']' r else some r
  return (ks, ← endLine? r)

/-- Reads one line, or several where a value runs over them. -/
def readLine? (fuel : Nat) (d : Draft) (cs : List Char) : Option (Draft × List Char) := do
  match skipBlank cs with
  | [] => return (d, [])
  | '#' :: r => return (d, ← endLine? ('#' :: r))
  | '\r' :: r => return (d, ← newline? ('\r' :: r))
  | '\n' :: r => return (d, r)
  | '[' :: '[' :: r =>
    let (ks, r) ← readHeader? true r
    return (← d.header? ks true, r)
  | '[' :: r =>
    let (ks, r) ← readHeader? false r
    return (← d.header? ks false, r)
  | r =>
    let (path, k, v, r) ← readPair? fuel (depthLimit - 1) r
    let r ← endLine? r
    return (← d.set? path k v, r)

/-- Reads all lines, at most `n` of them. -/
def readLines? (fuel : Nat) : (n : Nat) → Draft → List Char → Option Draft
  | _, d, [] => some d
  | 0, _, _ => none
  | n + 1, d, cs => do
    let (d, r) ← readLine? fuel d cs
    readLines? fuel n d r

/-- The mark that may stand before the text. -/
def skipMark : List Char → List Char
  | c :: r => if c = '\uFEFF' then r else c :: r
  | [] => []

/-- The fields of a document. -/
def parse? (text : String) : Option (List (String × Value)) := do
  let cs := skipMark (Text.chars text)
  let d ← readLines? (4 * cs.length + 4) (cs.length + 1) .start cs
  match (← d.close?).toValue with
  | .table fields => return fields
  | _ => none

end GqlArtifacts.Toml
