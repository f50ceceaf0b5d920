/-!
# Variables in a configuration text

A reference is a dollar sign and, in braces, a name and maybe a colon with a default text. `pieces`
cuts a text at its references, leftmost first; a dollar sign that starts no reference is plain text.
`interpolate` puts the value of its variable, or else its default, in the place of each reference. A
value is never read again for references.
-/

namespace GqlArtifacts.Config

structure Reference where
  name : List Char
  default? : Option (List Char)
deriving DecidableEq

/-- A character of plain text, or a reference. -/
inductive Piece where
  | plain (c : Char)
  | reference (r : Reference)
deriving DecidableEq

def isNameStart (c : Char) : Bool := ('A' ≤ c && c ≤ 'Z') || ('a' ≤ c && c ≤ 'z') || c == '_'

def isNameChar (c : Char) : Bool := isNameStart c || ('0' ≤ c && c ≤ '9')

/-- The text of a reference. -/
def Reference.chars (r : Reference) : List Char :=
  '$' :: '{' :: r.name ++ (match r.default? with
    | some d => ':' :: d
    | none => []) ++ ['}']

def Piece.chars : Piece → List Char
  | plain c => [c]
  | reference r => r.chars

/-- The reference whose text between the braces is given. -/
def referenceOf? (cs : List Char) : Option Reference :=
  let name := cs.takeWhile isNameChar
  if (name.head?.map isNameStart).getD false then
    match cs.dropWhile isNameChar with
    | [] => some ⟨name, none⟩
    | ':' :: d => some ⟨name, some d⟩
    | _ => none
  else none

/-- Cuts a text that a closing brace follows, which is the only one. At most one reference stands in
it, at its end. -/
def closedPieces : List Char → List Piece
  | [] => [.plain '}']
  | '$' :: '{' :: body =>
    match referenceOf? body with
    | some r => [.reference r]
    | none => .plain '$' :: closedPieces ('{' :: body)
  | c :: rest => .plain c :: closedPieces rest

/-- Cuts a text at its references. Each of them ends at the first closing brace, so that the parts
between such braces can be cut one by one; after the last brace there is none. -/
def pieces (cs : List Char) : List Piece :=
  let parts := cs.splitOn '}'
  parts.dropLast.flatMap closedPieces ++ (parts.getLastD []).map .plain

theorem chars_referenceOf? {cs : List Char} {r : Reference} (h : referenceOf? cs = some r) :
    r.chars = '$' :: '{' :: cs ++ ['}'] := by
  unfold referenceOf? at h
  simp only at h
  have hcs := List.takeWhile_append_dropWhile (p := isNameChar) (l := cs)
  split at h
  · split at h
    · next heq =>
      obtain rfl := Option.some.inj h
      rw [heq, List.append_nil] at hcs
      simp [Reference.chars, hcs]
    · next d heq =>
      obtain rfl := Option.some.inj h
      rw [heq] at hcs
      have h' := congrArg (· ++ ['}']) hcs
      simpa [Reference.chars] using h'
    · cases h
  · cases h

/-- The variable that is neither set nor has a default. -/
structure UndefinedVariable where
  name : String
deriving DecidableEq

def UndefinedVariable.message (e : UndefinedVariable) : String :=
  s!"undefined environment variable '{e.name}' in configuration"

/-- The text that stands for a piece. -/
def Piece.resolve (lookup : String → Option String) : Piece → Except UndefinedVariable (List Char)
  | plain c => .ok [c]
  | reference r =>
    match lookup (String.ofList r.name), r.default? with
    | some value, _ => .ok value.toList
    | none, some d => .ok d
    | none, none => .error ⟨String.ofList r.name⟩

/-- Resolves the pieces in order; the first undefined variable is the error. -/
def resolveAll (lookup : String → Option String) : List Piece → Except UndefinedVariable (List Char)
  | [] => .ok []
  | p :: ps =>
    match p.resolve lookup with
    | .error e => .error e
    | .ok cs =>
      match resolveAll lookup ps with
      | .error e => .error e
      | .ok rest => .ok (cs ++ rest)

def interpolate (lookup : String → Option String) (text : String) :
    Except UndefinedVariable String :=
  (resolveAll lookup (pieces text.toList)).map String.ofList

end GqlArtifacts.Config
