/-!
# Escapes

What a backslash and the characters after it stand for in the output of `echo` and `printf`: always
one byte, which is named by a letter or by octal digits. A backslash before anything else stands for
itself.
-/

namespace GqlArtifacts.Shell

/-- Reads octal digits, at most `limit`: the byte that they name, and the rest. -/
def readOctal (limit : Nat) (cs : List Char) : UInt8 × List Char :=
  let digits := (cs.take limit).takeWhile fun c => '0' ≤ c && c ≤ '7'
  (UInt8.ofNat (digits.foldl (fun n c => n * 8 + (c.toNat - 48)) 0), cs.drop digits.length)

/-- Reads what stands after a backslash. -/
def escape? : List Char → Option (UInt8 × List Char)
  | 'a' :: r => some (7, r)
  | 'b' :: r => some (8, r)
  | 't' :: r => some (9, r)
  | 'n' :: r => some (10, r)
  | 'v' :: r => some (11, r)
  | 'f' :: r => some (12, r)
  | 'r' :: r => some (13, r)
  | 'e' :: r => some (27, r)
  | '\\' :: r => some (92, r)
  | c :: r => if '0' ≤ c ∧ c ≤ '7' then some (readOctal 3 (c :: r)) else none
  | [] => none

/-- The bytes of a character. -/
def bytesOfChar (c : Char) : ByteArray := (String.singleton c).toUTF8

/-- Puts in the bytes of the escapes; a zero in front of octal digits is not one of them. The flag
says whether `\c` has ended the text. -/
def unescapeFrom : (fuel : Nat) → (before : ByteArray) → List Char → ByteArray × Bool
  | 0, before, _ => (before, false)
  | _, before, [] => (before, false)
  | fuel + 1, before, '\\' :: r =>
    match r with
    | 'c' :: _ => (before, true)
    | '0' :: r =>
      let (b, r) := readOctal 3 r
      unescapeFrom fuel (before.push b) r
    | r =>
      match escape? r with
      | some (b, r) => unescapeFrom fuel (before.push b) r
      | none => unescapeFrom fuel (before.push 92) r
  | fuel + 1, before, c :: r => unescapeFrom fuel (before ++ bytesOfChar c) r

def unescape (s : String) : ByteArray × Bool := unescapeFrom (s.length + 1) .empty s.toList

end GqlArtifacts.Shell
