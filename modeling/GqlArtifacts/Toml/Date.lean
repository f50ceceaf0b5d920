import GqlArtifacts.Toml.Number

/-!
# Dates and times in TOML

A date, a time of day, or both with a `T` or one blank between them; after both there may be an
offset from universal time. The normal form has `T` and `Z`, at most nine digits of a second and no
zero at the end of those.
-/

namespace GqlArtifacts.Toml

/-- Reads exactly `n` digits, whose value has to lie between `low` and `high`. -/
def readField? (n low high : Nat) (cs : List Char) : Option (Nat × List Char) :=
  let ds := cs.take n
  let value := natOfDigits 10 ds
  if ds.length = n ∧ ds.all isDigit ∧ low ≤ value ∧ value ≤ high then some (value, cs.drop n)
  else none

def expect? (c : Char) : List Char → Option (List Char)
  | [] => none
  | d :: r => if d = c then some r else none

/-- The number with zeros before it up to a width. -/
def padded (width n : Nat) : String :=
  let s := toString n
  "".pushn '0' (width - s.length) ++ s

def isLeapYear (y : Nat) : Bool := y % 4 == 0 && (y % 100 != 0 || y % 400 == 0)

def daysInMonth (y m : Nat) : Nat :=
  if m = 2 then if isLeapYear y then 29 else 28
  else if m = 4 ∨ m = 6 ∨ m = 9 ∨ m = 11 then 30
  else 31

def readDay? (cs : List Char) : Option (String × List Char) := do
  let (y, r) ← readField? 4 0 9999 cs
  let r ← expect? '-' r
  let (m, r) ← readField? 2 1 12 r
  let r ← expect? '-' r
  let (d, r) ← readField? 2 1 (daysInMonth y m) r
  return (s!"{padded 4 y}-{padded 2 m}-{padded 2 d}", r)

/-- The digits of a second after its point. -/
def readSubsecond? : List Char → Option (String × List Char)
  | '.' :: r =>
    let ds := r.takeWhile isDigit
    if ds.isEmpty then none
    else
      let kept := ((ds.take 9).reverse.dropWhile (· == '0')).reverse
      some (if kept.isEmpty then "" else String.ofList ('.' :: kept), r.dropWhile isDigit)
  | r => some ("", r)

/-- Reads a time of day with an hour up to `lastHour`. -/
def readTimeUpTo? (lastHour : Nat) (cs : List Char) : Option (String × List Char) := do
  let (h, r) ← readField? 2 0 lastHour cs
  let r ← expect? ':' r
  let (m, r) ← readField? 2 0 59 r
  let r ← expect? ':' r
  let (s, r) ← readField? 2 0 60 r
  let (sub, r) ← readSubsecond? r
  return (s!"{padded 2 h}:{padded 2 m}:{padded 2 s}{sub}", r)

def readTime? (cs : List Char) : Option (String × List Char) := readTimeUpTo? 23 cs

def readOffset? : List Char → Option (String × List Char)
  | [] => none
  | c :: r =>
    if c = 'Z' ∨ c = 'z' then some ("Z", r)
    else if c = '+' ∨ c = '-' then do
      let (h, r) ← readField? 2 0 23 r
      let r ← expect? ':' r
      let (m, r) ← readField? 2 0 59 r
      let sign := if c = '-' ∧ (h, m) ≠ (0, 0) then "-" else "+"
      return (s!"{sign}{padded 2 h}:{padded 2 m}", r)
    else none

/-- The time and the offset after a date, if they are there. -/
def readTimeOfDay? : List Char → Option (String × List Char)
  | [] => none
  | c :: r =>
    if c = 'T' ∨ c = 't' ∨ c = ' ' then do
      let (time, r) ← readTime? r
      let (offset, r) := (readOffset? r).getD ("", r)
      return ("T" ++ time ++ offset, r)
    else none

def readDate? (cs : List Char) : Option (Value × List Char) :=
  match readDay? cs with
  | some (day, r) =>
    let (time, r) := (readTimeOfDay? r).getD ("", r)
    some (.date (day ++ time), r)
  | none => (readTime? cs).map fun (time, r) => (.date time, r)

/-! ### Dates in strings

A string that is read as a date has nothing around it. It may say 24 for the hour, and its offset
may have any minutes as long as it is at most one day. -/

/-- The offset that a sign, two digits, a colon and two digits make. -/
def wholeOffset? : List Char → Option String
  | [] => some ""
  | ['Z'] => some "Z"
  | ['z'] => some "Z"
  | c :: r => do
    if c ≠ '+' ∧ c ≠ '-' then none
    let (h, r) ← readField? 2 0 99 r
    let r ← expect? ':' r
    let (m, r) ← readField? 2 0 99 r
    let total := h * 60 + m
    if !r.isEmpty ∨ 24 * 60 < total then none
    let sign := if c = '-' ∧ total ≠ 0 then "-" else "+"
    return s!"{sign}{padded 2 (total / 60)}:{padded 2 (total % 60)}"

/-- The time and the offset that a text after a date consists of. -/
def wholeTimeOfDay? : List Char → Option String
  | [] => some ""
  | c :: r => do
    if c ≠ 'T' ∧ c ≠ 't' ∧ c ≠ ' ' then none
    let (time, r) ← readTimeUpTo? 24 r
    return "T" ++ time ++ (← wholeOffset? r)

/-- The normal form of a text that is a date, a time or both. -/
def date? (s : String) : Option String := do
  let cs := s.toList
  if cs[2]? = some ':' then
    let (time, r) ← readTimeUpTo? 24 cs
    if r.isEmpty then some time else none
  else
    let (day, r) ← readDay? cs
    return day ++ (← wholeTimeOfDay? r)

end GqlArtifacts.Toml
