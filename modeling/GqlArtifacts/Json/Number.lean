/-!
# Numbers

`Decimal` is a decimal numeral as written: sign, digits and a power of ten. `Binary.ofDecimal?`
rounds it to the nearest binary floating-point value of 53 bits, ties to even, and
`Binary.shortest` gives the fewest digits that round back, the nearest such numeral where there are
several. `Decimal.text` writes those digits: positionally from 10^-5 up to 10^16, with an exponent
outside.

All of it is exact arithmetic on natural numbers.
-/

namespace GqlArtifacts

/-- The numeral `mantissa * 10 ^ exponent`, with a sign of its own so that zero can be negative. -/
structure Decimal where
  negative : Bool
  mantissa : Nat
  exponent : Int
deriving DecidableEq, Inhabited

/-- The value `mantissa * 2 ^ exponent`, with `mantissa < 2 ^ 53` and `-1074 ≤ exponent ≤ 971`. -/
structure Binary where
  mantissa : Nat
  exponent : Int
deriving DecidableEq, Inhabited

/-- The ratio `m * b ^ e` as numerator and denominator. -/
def scaledRatio (m b : Nat) (e : Int) : Nat × Nat :=
  if 0 ≤ e then (m * b.pow e.toNat, 1) else (m, b.pow (-e).toNat)

/-- The quotient rounded to the nearest integer, a half to the even neighbour. -/
def divRoundEven (num den : Nat) : Nat :=
  let q := num / den
  let r := 2 * (num % den)
  if r < den ∨ (r = den ∧ q % 2 = 0) then q else q + 1

/-- The largest `k` with `b ^ k ≤ num / den`, found from the guess `k`. -/
def floorLog (b num den : Nat) (guess : Int) : Int :=
  let (x, y) := scaledRatio den b guess
  if x ≤ num * y then guess else guess - 1

namespace Binary

/-- Rounds a ratio; too large a ratio has no value. -/
def ofRatio? (num den : Nat) : Option Binary :=
  if num = 0 then some ⟨0, -1074⟩
  else
    let l := floorLog 2 num den (num.log2 - den.log2)
    let e := max (l - 52) (-1074)
    let (x, y) := scaledRatio num 2 (-e)
    let q := divRoundEven x (y * den)
    let (q, e) := if q = Nat.pow 2 53 then (Nat.pow 2 52, e + 1) else (q, e)
    if e ≤ 971 then some ⟨q, e⟩ else none

def digitCount (n : Nat) : Nat := (Nat.toDigits 10 n).length

/-- The nearest value. Numerals far outside the range are settled by their length alone. -/
def ofDecimal? (d : Decimal) : Option Binary :=
  let top := d.exponent + digitCount d.mantissa
  if d.mantissa = 0 ∨ top < -400 then some ⟨0, -1074⟩
  else if 400 < top then none
  else
    let (num, den) := scaledRatio d.mantissa 10 d.exponent
    ofRatio? num den

/-- The candidate `n` on the grid of `10 ^ e` that rounds back to `b` and is nearest to it. -/
def onGrid? (b : Binary) (e : Int) : Option Nat :=
  let (num, den) := scaledRatio b.mantissa 2 b.exponent
  let (x, y) := scaledRatio num 10 (-e)
  let below := x / (y * den)
  let back (n : Nat) : Bool := ofDecimal? ⟨false, n, e⟩ == some b
  let low := back below
  let high := back (below + 1)
  let nearLow := 2 * (x % (y * den)) ≤ y * den
  if low && (nearLow || !high) then some below
  else if high then some (below + 1)
  else none

/-- The shortest digits and their power of ten; zero has none. -/
def shortest? (b : Binary) : Option (Nat × Int) :=
  if b.mantissa = 0 then none
  else
    let (num, den) := scaledRatio b.mantissa 2 b.exponent
    let guess : Int := (digitCount num : Int) - digitCount den
    let top := floorLog 10 num den guess
    (List.range 17).findSome? fun (k : Nat) =>
      let e := top - (k : Int)
      (onGrid? b e).map (·, e)

end Binary

namespace Decimal

/-- Moves the zeros at the end of the digits into the exponent. -/
def stripZeros : Nat → Nat → Int → Nat × Int
  | 0, m, e => (m, e)
  | fuel + 1, m, e => if m % 10 = 0 ∧ m ≠ 0 then stripZeros fuel (m / 10) (e + 1) else (m, e)

/-- Writes digits with `k` as the power of ten of the last one, without an exponent. -/
def layoutPositional (digits : String) (k : Int) : String :=
  let point := (digits.length : Int) + k
  if 0 ≤ k then digits ++ "".pushn '0' k.toNat ++ ".0"
  else if 0 < point then
    String.ofList (digits.toList.take point.toNat) ++ "." ++
      String.ofList (digits.toList.drop point.toNat)
  else "0." ++ "".pushn '0' (-point).toNat ++ digits

/-- Writes digits likewise, with an exponent where the number is very large or very small. -/
def layout (digits : String) (k : Int) : String :=
  let point := (digits.length : Int) + k
  if -5 < point ∧ point ≤ 16 then layoutPositional digits k
  else if digits.length = 1 then s!"{digits}e{point - 1}"
  else
    String.ofList (digits.toList.take 1) ++ "." ++ String.ofList (digits.toList.drop 1) ++
      s!"e{point - 1}"

/-- Whether the numeral rounds to a finite value. -/
def isFinite (d : Decimal) : Bool := (Binary.ofDecimal? d).isSome

/-- The digits of the nearest binary value under a layout, with the sign before them. -/
def textWith (layout : String → Int → String) (d : Decimal) : String :=
  let body :=
    match (Binary.ofDecimal? d).bind Binary.shortest? with
    | none => "0.0"
    | some (m, e) =>
      let (m, e) := stripZeros 20 m e
      layout (toString m) e
  if d.negative then "-" ++ body else body

/-- The text of the nearest binary value. -/
def text (d : Decimal) : String := textWith layout d

/-- The text of the nearest binary value, always without an exponent. -/
def positionalText (d : Decimal) : String := textWith layoutPositional d

end Decimal

end GqlArtifacts
