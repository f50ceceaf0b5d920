import GqlArtifacts.Json
import GqlArtifacts.Text.Utf8

/-!
# JSON texts

`Json.compact` writes a value without blanks; `Json.pretty` indents by two spaces and puts each item
and each field on a line of its own, with empty arrays and objects as `[]` and `{}`.
-/

namespace GqlArtifacts.Json

def hexDigit (n : Nat) : Char := if n < 10 then Char.ofNat (48 + n) else Char.ofNat (87 + n)

/-- A character inside quotes. -/
def escapeChar (c : Char) : List Char :=
  if c = '"' then ['\\', '"']
  else if c = '\\' then ['\\', '\\']
  else if c = '\n' then ['\\', 'n']
  else if c = '\r' then ['\\', 'r']
  else if c = '\t' then ['\\', 't']
  else if c = '\x08' then ['\\', 'b']
  else if c = '\x0c' then ['\\', 'f']
  else if c.toNat < 32 then
    ['\\', 'u', '0', '0', hexDigit (c.toNat / 16), hexDigit (c.toNat % 16)]
  else [c]

def quoteChars (cs : List Char) : List Char := '"' :: (cs.flatMap escapeChar ++ ['"'])

def quote (s : String) : List Char := quoteChars (Text.chars s)

/-- A value that is neither an array nor an object. -/
def scalarText : Json → List Char
  | null => "null".toList
  | bool true => "true".toList
  | bool false => "false".toList
  | int n => (toString n).toList
  | float d => d.text.toList
  | string s => quote s
  | _ => []

mutual

def compactChars : Json → List Char
  | array items => '[' :: (compactItems items ++ [']'])
  | object fields => '{' :: (compactFields fields ++ ['}'])
  | v => scalarText v

def compactItems : List Json → List Char
  | [] => []
  | [v] => compactChars v
  | v :: vs => compactChars v ++ ',' :: compactItems vs

def compactFields : List (String × Json) → List Char
  | [] => []
  | [(k, v)] => quote k ++ ':' :: compactChars v
  | (k, v) :: rest => quote k ++ ':' :: (compactChars v ++ ',' :: compactFields rest)

end

def compact (v : Json) : String := String.ofList v.compactChars

/-- A line break and the indentation of `depth` levels. -/
def newline (depth : Nat) : List Char := '\n' :: List.replicate (2 * depth) ' '

mutual

/-- The value as written `depth` levels deep. -/
def prettyChars (depth : Nat) : Json → List Char
  | array [] => ['[', ']']
  | array items => '[' :: (prettyItems (depth + 1) items ++ newline depth ++ [']'])
  | object [] => ['{', '}']
  | object fields => '{' :: (prettyFields (depth + 1) fields ++ newline depth ++ ['}'])
  | v => scalarText v

def prettyItems (depth : Nat) : List Json → List Char
  | [] => []
  | [v] => newline depth ++ prettyChars depth v
  | v :: vs => newline depth ++ (prettyChars depth v ++ ',' :: prettyItems depth vs)

def prettyFields (depth : Nat) : List (String × Json) → List Char
  | [] => []
  | [(k, v)] => newline depth ++ (quote k ++ ':' :: ' ' :: prettyChars depth v)
  | (k, v) :: rest =>
    newline depth ++
      (quote k ++ ':' :: ' ' :: (prettyChars depth v ++ ',' :: prettyFields depth rest))

end

def pretty (v : Json) : String := String.ofList (v.prettyChars 0)

end GqlArtifacts.Json
