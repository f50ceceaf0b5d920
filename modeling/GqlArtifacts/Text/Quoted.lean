import GqlArtifacts.Text.Unprintable

/-!
# Quoted texts

`quoted` puts a text between double quotes for a message. Quotes, backslashes and the common control
characters get a short escape, all other characters that do not show by themselves one with their
number.
-/

namespace GqlArtifacts.Text

/-- The number of a character in hexadecimal. -/
def numberEscape (c : Char) : List Char :=
  ['\\', 'u', '\x7b'] ++ Nat.toDigits 16 c.toNat ++ ['\x7d']

def quotedChar (c : Char) : List Char :=
  match c with
  | '"' => ['\\', '"']
  | '\\' => ['\\', '\\']
  | '\n' => ['\\', 'n']
  | '\r' => ['\\', 'r']
  | '\t' => ['\\', 't']
  | '\x00' => ['\\', '0']
  | c => if isUnprintable c then numberEscape c else [c]

def quoted (s : String) : String := "\"" ++ String.ofList (s.toList.flatMap quotedChar) ++ "\""

end GqlArtifacts.Text
