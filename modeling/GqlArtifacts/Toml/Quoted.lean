import GqlArtifacts.Toml.Number

/-!
# Strings in TOML

Four forms: in double quotes with escapes or in single quotes without, each on one line or, with the
quote three times, on several. A string of several lines leaves out the newline right after its
opening, and a backslash at the end of a line leaves out the blanks and newlines that follow. A
carriage return is only read together with the newline after it, and stands for nothing itself.
-/

namespace GqlArtifacts.Toml

def isBlank (c : Char) : Bool := c == ' ' || c == '\t'

def skipBlank (cs : List Char) : List Char := cs.dropWhile isBlank

/-- The characters that may stand in a line: no control characters but the tab. -/
def isPlain (c : Char) : Bool := c == '\t' || (32 ≤ c.toNat && c.toNat != 127)

/-- The rest after a newline. -/
def newline? : List Char → Option (List Char)
  | '\n' :: r => some r
  | '\r' :: '\n' :: r => some r
  | _ => none

/-- The character of a short escape. -/
def shortEscape? : Char → Option Char
  | 'b' => some '\x08'
  | 't' => some '\t'
  | 'n' => some '\n'
  | 'f' => some '\x0c'
  | 'r' => some '\r'
  | '"' => some '"'
  | '\\' => some '\\'
  | _ => none

/-- The character with the given hexadecimal number, if there is one. -/
def numbered? (ds : List Char) : Option Char :=
  let n := natOfDigits 16 ds
  if ds.all (isDigitOf 16) ∧ n.isValidChar then some (Char.ofNat n) else none

/-- How many digits the number of an escape has; short escapes have none. -/
def escapeWidth (c : Char) : Nat := if c = 'u' then 4 else if c = 'U' then 8 else 0

/-- Reads an escape after its backslash. -/
def readEscape? : List Char → Option (Char × List Char)
  | [] => none
  | c :: r =>
    if escapeWidth c = 0 then (shortEscape? c).map (·, r)
    else if r.length < escapeWidth c then none
    else (numbered? (r.take (escapeWidth c))).map (·, r.drop (escapeWidth c))

theorem length_readEscape? {cs r : List Char} {c : Char} (h : readEscape? cs = some (c, r)) :
    r.length < cs.length := by
  cases cs with
  | nil => cases h
  | cons d cs =>
    simp only [readEscape?] at h
    split at h
    · obtain ⟨_, -, h⟩ := Option.map_eq_some_iff.1 h
      cases h
      simp
    · split at h
      · cases h
      · obtain ⟨_, -, h⟩ := Option.map_eq_some_iff.1 h
        cases h
        simp only [List.length_drop, List.length_cons]
        omega

/-- Reads a string of one line after its opening double quote. -/
def readBasic? (cs : List Char) : Option (List Char × List Char) :=
  match cs with
  | [] => none
  | '"' :: r => some ([], r)
  | '\\' :: r =>
    match _h : readEscape? r with
    | none => none
    | some (c, r') => (readBasic? r').map fun (s, r) => (c :: s, r)
  | c :: r => if isPlain c then (readBasic? r).map fun (s, r) => (c :: s, r) else none
termination_by cs.length
decreasing_by
  · have := length_readEscape? _h
    simp only [List.length_cons]; omega
  · simp

/-- Reads a string of one line after its opening single quote. -/
def readLiteral? : List Char → Option (List Char × List Char)
  | [] => none
  | c :: r =>
    if c = '\'' then some ([], r)
    else if isPlain c then (readLiteral? r).map fun (s, r) => (c :: s, r)
    else none

/-- The quotes that belong to a string of several lines right before its closing, and the rest after
that; at most two quotes belong to the string. -/
def readClosing? (quote : Char) (cs : List Char) : Option (List Char × List Char) :=
  let n := min (cs.takeWhile (· == quote)).length 5
  if 3 ≤ n then some (List.replicate (n - 3) quote, cs.drop n) else none

/-- Whether the blanks at the start are all there is on the line. -/
def endsLine (cs : List Char) : Bool := (newline? (skipBlank cs)).isSome

/-- Reads a string of several lines after its opening double quotes; `fuel` bounds its length. A
carriage return without a newline ends the reading, also within a gap. -/
def readBasicLines? : (fuel : Nat) → List Char → Option (List Char × List Char)
  | 0, _ => none
  | fuel + 1, cs =>
    match readClosing? '"' cs with
    | some closing => some closing
    | none =>
      match cs with
      | [] => none
      | '\r' :: '\n' :: r => (readBasicLines? fuel r).map fun (s, r) => ('\n' :: s, r)
      | '\n' :: r => (readBasicLines? fuel r).map fun (s, r) => ('\n' :: s, r)
      | '\\' :: r =>
        if endsLine r then readGap? fuel r
        else do
          let (c, r) ← readEscape? r
          (readBasicLines? fuel r).map fun (s, r) => (c :: s, r)
      | c :: r => if isPlain c then (readBasicLines? fuel r).map fun (s, r) => (c :: s, r) else none
where
  /-- Skips what a backslash at the end of a line leaves out. -/
  readGap? : (fuel : Nat) → List Char → Option (List Char × List Char)
    | 0, _ => none
    | fuel + 1, cs =>
      match newline? (skipBlank cs) with
      | some r => readGap? fuel r
      | none => readBasicLines? fuel (skipBlank cs)

/-- Reads a string of several lines after its opening single quotes. -/
def readLiteralLines? (cs : List Char) : Option (List Char × List Char) :=
  match readClosing? '\'' cs with
  | some closing => some closing
  | none =>
    match cs with
    | [] => none
    | '\r' :: '\n' :: r => (readLiteralLines? r).map fun (s, r) => ('\n' :: s, r)
    | c :: r =>
      if c = '\n' ∨ isPlain c then (readLiteralLines? r).map fun (s, r) => (c :: s, r) else none
termination_by cs.length

/-- Leaves out a newline at the very start. -/
def skipFirstNewline (cs : List Char) : List Char := (newline? cs).getD cs

/-- Reads a string in one of its four forms. -/
def readString? : List Char → Option (List Char × List Char)
  | '"' :: '"' :: '"' :: r => readBasicLines? (2 * r.length + 1) (skipFirstNewline r)
  | '\'' :: '\'' :: '\'' :: r => readLiteralLines? (skipFirstNewline r)
  | '"' :: r => readBasic? r
  | '\'' :: r => readLiteral? r
  | _ => none

end GqlArtifacts.Toml
