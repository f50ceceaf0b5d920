import GqlArtifacts.Toml

/-!
# Numbers in TOML

Integers in four bases and decimal fractions, with underscores between digits. An integer has to fit
into 64 bits with sign; a numeral too large for a floating-point value is refused if it is positive
and infinite if it is negative.
-/

namespace GqlArtifacts.Toml

def isDigit (c : Char) : Bool := '0' ≤ c && c ≤ '9'

/-- The value of a digit, in any base up to sixteen. -/
def digitValue (c : Char) : Nat :=
  if isDigit c then c.toNat - 48
  else if 'a' ≤ c ∧ c ≤ 'f' then c.toNat - 87
  else c.toNat - 55

def isDigitOf (base : Nat) (c : Char) : Bool :=
  (isDigit c || ('a' ≤ c && c ≤ 'f') || ('A' ≤ c && c ≤ 'F')) && digitValue c < base

def natOfDigits (base : Nat) (ds : List Char) : Nat :=
  ds.foldl (fun n c => n * base + digitValue c) 0

/-- Reads digits with single underscores between them; gives the digits alone. -/
def digitRun (base : Nat) : List Char → List Char × List Char
  | [] => ([], [])
  | [c] => if isDigitOf base c then ([c], []) else ([], [c])
  | c :: d :: rest =>
    if isDigitOf base c then
      if d = '_' ∧ (rest.head?.map (isDigitOf base)).getD false then
        let (ds, r) := digitRun base rest
        (c :: ds, r)
      else
        let (ds, r) := digitRun base (d :: rest)
        (c :: ds, r)
    else ([], c :: d :: rest)

def readDigits? (base : Nat) (cs : List Char) : Option (List Char × List Char) :=
  match digitRun base cs with
  | ([], _) => none
  | r => some r

/-- A sign before a number. -/
def readSign : List Char → Bool × List Char
  | '+' :: r => (false, r)
  | '-' :: r => (true, r)
  | r => (false, r)

/-- Digits in base ten; a zero at the start stands alone. -/
def readWhole? : List Char → Option (List Char × List Char)
  | '0' :: r => some (['0'], r)
  | cs => readDigits? 10 cs

/-- An integer within the 64-bit range. -/
def integer? (negative : Bool) (n : Nat) : Option Value :=
  if n < Nat.pow 2 63 ∨ (negative ∧ n = Nat.pow 2 63) then
    some (.integer (if negative then -(n : Int) else n))
  else none

def readInteger? : List Char → Option (Value × List Char)
  | '0' :: 'x' :: r => readBase 16 r
  | '0' :: 'o' :: r => readBase 8 r
  | '0' :: 'b' :: r => readBase 2 r
  | cs => do
    let (negative, r) := readSign cs
    let (ds, r) ← readWhole? r
    return (← integer? negative (natOfDigits 10 ds), r)
where
  readBase (base : Nat) (cs : List Char) : Option (Value × List Char) := do
    let (ds, r) ← readDigits? base cs
    return (← integer? false (natOfDigits base ds), r)

/-- Reads the exponent of a floating-point number. -/
def readExponent? : List Char → Option (Int × List Char)
  | c :: r =>
    if c = 'e' ∨ c = 'E' then do
      let (negative, r) := readSign r
      let (ds, r) ← readDigits? 10 r
      let n : Int := natOfDigits 10 ds
      return (if negative then -n else n, r)
    else none
  | [] => none

/-- The floating-point number of a numeral. -/
def real? (d : Decimal) : Option Value :=
  if d.isFinite then some (.real (.finite d))
  else if d.negative then some (.real (.infinite true))
  else none

/-- A number with a fraction, an exponent or both. -/
def readFraction? (cs : List Char) : Option (Value × List Char) := do
  let (negative, r) := readSign cs
  let (whole, r) ← readWhole? r
  match r with
  | '.' :: r =>
    let (fraction, r) ← readDigits? 10 r
    let (exponent, r) := (readExponent? r).getD (0, r)
    let d : Decimal := ⟨negative, natOfDigits 10 (whole ++ fraction), exponent - fraction.length⟩
    return (← real? d, r)
  | r =>
    let (exponent, r) ← readExponent? r
    return (← real? ⟨negative, natOfDigits 10 whole, exponent⟩, r)

/-- Infinity or not-a-number, with a sign or without. -/
def readSpecial? (cs : List Char) : Option (Value × List Char) :=
  match readSign cs with
  | (negative, 'i' :: 'n' :: 'f' :: r) => some (.real (.infinite negative), r)
  | (_, 'n' :: 'a' :: 'n' :: r) => some (.real .notANumber, r)
  | _ => none

def readNumber? (cs : List Char) : Option (Value × List Char) :=
  readFraction? cs <|> readSpecial? cs <|> readInteger? cs

end GqlArtifacts.Toml
