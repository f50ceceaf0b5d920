import GqlArtifacts.Shell.Source

/-!
# Arithmetic in scripts

`Arithmetic.parse` reads an expression over variables and integers of 64 bits, with the operators of
C. `Arithmetic.eval` computes it; assignments change the variables.
-/

namespace GqlArtifacts.Shell

inductive UnaryOp where
  | plus
  | minus
  | not
  | complement
deriving DecidableEq, Inhabited

inductive BinaryOp where
  | multiply
  | divide
  | remainder
  | add
  | subtract
  | shiftLeft
  | shiftRight
  | less
  | lessOrEqual
  | greater
  | greaterOrEqual
  | equal
  | different
  | bitAnd
  | bitXor
  | bitOr
deriving DecidableEq, Inhabited

inductive Arithmetic where
  | number (n : Int)
  | parameter (name : String)
  | unary (op : UnaryOp) (a : Arithmetic)
  | binary (op : BinaryOp) (a b : Arithmetic)
  | both (a b : Arithmetic)
  | either (a b : Arithmetic)
  | conditional (condition a b : Arithmetic)
  /-- Sets a variable, to the result of an operation on its old value if one is given. -/
  | assign (name : String) (op? : Option BinaryOp) (a : Arithmetic)
deriving Inhabited

namespace Arithmetic

open Source

/-- A number of 64 bits. -/
def wrap (n : Int) : Int := n.bmod UInt64.size

def truth (b : Bool) : Int := if b then 1 else 0

/-- The digits of a base at the front of a text: their value, and the rest. -/
def readDigits (base : Nat) (cs : List Char) : Nat × List Char :=
  let value? (c : Char) : Option Nat :=
    let n :=
      if isDigit c then c.toNat - 48
      else if 'a' ≤ c ∧ c ≤ 'z' then c.toNat - 87
      else if 'A' ≤ c ∧ c ≤ 'Z' then c.toNat - 55
      else base
    if n < base then some n else none
  let inside (c : Char) : Bool := (value? c).isSome
  ((cs.takeWhile inside).foldl (fun n c => n * base + (value? c).getD 0) 0, cs.dropWhile inside)

/-- Reads a number, whose base its front tells. -/
def readNumber (cs : List Char) : Nat × List Char :=
  match cs with
  | '0' :: 'x' :: r =>
    if (readDigits 16 r).2.length < r.length then readDigits 16 r else (0, 'x' :: r)
  | '0' :: 'X' :: r =>
    if (readDigits 16 r).2.length < r.length then readDigits 16 r else (0, 'X' :: r)
  | '0' :: r => readDigits 8 r
  | cs => readDigits 10 cs

def isSpace (c : Char) : Bool := c == ' ' || c == '\t' || c == '\n'

/-- Reads a sign and a number after blanks; a text without digits has no value. -/
def readInteger? (cs : List Char) : Option (Int × List Char) :=
  let cs := cs.dropWhile isSpace
  let (negative, cs) :=
    match cs with
    | '-' :: r => (true, r)
    | '+' :: r => (false, r)
    | r => (false, r)
  match cs with
  | c :: _ =>
    if isDigit c then
      let (n, r) := readNumber cs
      some (if negative then -(n : Int) else n, r)
    else none
  | [] => none

/-- The number that the value of a variable is; an empty value is zero. -/
def valueOf? (s : String) : Option Int :=
  match readInteger? s.toList with
  | some (n, r) => if r.all isSpace then some n else none
  | none => if s.toList.all isSpace then some 0 else none

/-- The operators of an expression, longest first, each with how tightly it binds. -/
def binaryOps : List (List Char × Nat × BinaryOp) :=
  [(['<', '<'], 8, .shiftLeft), (['>', '>'], 8, .shiftRight), (['<', '='], 7, .lessOrEqual),
    (['>', '='], 7, .greaterOrEqual), (['=', '='], 6, .equal), (['!', '='], 6, .different),
    (['<'], 7, .less), (['>'], 7, .greater), (['+'], 9, .add), (['-'], 9, .subtract),
    (['*'], 10, .multiply), (['/'], 10, .divide), (['%'], 10, .remainder), (['&'], 5, .bitAnd),
    (['^'], 4, .bitXor), (['|'], 3, .bitOr)]

/-- The operator at the front that binds at least as tightly as asked. An operator is no part of
`&&` and `||` or of an assignment. -/
def readOp? (least : Nat) (cs : List Char) : Option (Nat × BinaryOp × List Char) :=
  match binaryOps.find? fun (sign, _, _) => sign.isPrefixOf cs with
  | none => none
  | some (sign, strength, op) =>
    let r := cs.drop sign.length
    let comparison := strength = 6 ∨ strength = 7
    if strength < least then none
    else if !comparison ∧ r.head? = some '=' then none
    else if (sign = ['&'] ∧ r.head? = some '&') ∨ (sign = ['|'] ∧ r.head? = some '|') then none
    else some (strength, op, r)

/-- The sign of an assignment at the front. -/
def readAssign? (cs : List Char) : Option (Option BinaryOp × List Char) :=
  match cs with
  | '=' :: '=' :: _ => none
  | '=' :: r => some (none, r)
  | cs =>
    match binaryOps.find? fun (sign, _, _) => sign.isPrefixOf cs with
    | none => none
    | some (sign, strength, op) =>
      match cs.drop sign.length with
      | '=' :: r => if strength = 6 ∨ strength = 7 then none else some (some op, r)
      | _ => none

abbrev Parse := Except String (Arithmetic × List Char)

def skip (cs : List Char) : List Char := cs.dropWhile isSpace

mutual

def readAssignment : (fuel : Nat) → List Char → Parse
  | 0, _ => .error "expecting primary"
  | fuel + 1, cs =>
    match skip cs with
    | c :: r =>
      if isNameStart c then
        let name := (c :: r).takeWhile isNameChar
        match readAssign? (skip ((c :: r).drop name.length)) with
        | some (op?, r) => do
          let (a, r) ← readAssignment fuel r
          return (.assign (String.ofList name) op? a, r)
        | none => readConditional fuel (c :: r)
      else readConditional fuel (c :: r)
    | [] => .error "expecting primary"

def readConditional : (fuel : Nat) → List Char → Parse
  | 0, _ => .error "expecting primary"
  | fuel + 1, cs => do
    let (condition, r) ← readEither fuel cs
    match skip r with
    | '?' :: r =>
      let (a, r) ← readAssignment fuel r
      match skip r with
      | ':' :: r =>
        let (b, r) ← readConditional fuel r
        return (.conditional condition a b, r)
      | _ => .error "expecting ':'"
    | r => return (condition, r)

def readEither : (fuel : Nat) → List Char → Parse
  | 0, _ => .error "expecting primary"
  | fuel + 1, cs => do
    let (a, r) ← readBoth fuel cs
    match skip r with
    | '|' :: '|' :: r =>
      let (b, r) ← readEither fuel r
      return (.either a b, r)
    | r => return (a, r)

def readBoth : (fuel : Nat) → List Char → Parse
  | 0, _ => .error "expecting primary"
  | fuel + 1, cs => do
    let (a, r) ← readUnary fuel cs
    let (a, r) ← readBinary fuel 0 a r
    match skip r with
    | '&' :: '&' :: r =>
      let (b, r) ← readBoth fuel r
      return (.both a b, r)
    | r => return (a, r)

/-- Goes on after an operand with the operators that bind at least as tightly as asked. -/
def readBinary : (fuel : Nat) → (least : Nat) → Arithmetic → List Char → Parse
  | 0, _, _, _ => .error "expecting primary"
  | fuel + 1, least, a, cs =>
    match readOp? least (skip cs) with
    | none => .ok (a, skip cs)
    | some (strength, op, r) => do
      let (b, r) ← readUnary fuel r
      let (b, r) ← readBinary fuel (strength + 1) b r
      readBinary fuel least (.binary op a b) r

def readUnary : (fuel : Nat) → List Char → Parse
  | 0, _ => .error "expecting primary"
  | fuel + 1, cs => do
    match skip cs with
    | '+' :: r =>
      let (a, r) ← readUnary fuel r
      return (.unary .plus a, r)
    | '-' :: r =>
      let (a, r) ← readUnary fuel r
      return (.unary .minus a, r)
    | '!' :: r =>
      let (a, r) ← readUnary fuel r
      return (.unary .not a, r)
    | '~' :: r =>
      let (a, r) ← readUnary fuel r
      return (.unary .complement a, r)
    | '(' :: r =>
      let (a, r) ← readAssignment fuel r
      match skip r with
      | ')' :: r => return (a, r)
      | _ => .error "expecting ')'"
    | c :: r =>
      if isDigit c then
        let (n, r) := readNumber (c :: r)
        return (.number (wrap n), r)
      else if isNameStart c then
        let name := (c :: r).takeWhile isNameChar
        return (.parameter (String.ofList name), (c :: r).drop name.length)
      else .error "expecting primary"
    | [] => .error "expecting primary"

end

def parse (text : String) : Except String Arithmetic := do
  let cs := text.toList
  let (a, r) ← readAssignment (8 * cs.length + 16) cs
  if (skip r).isEmpty then return a else .error "expecting EOF"

def UnaryOp.apply : UnaryOp → Int → Int
  | .plus, n => n
  | .minus, n => wrap (-n)
  | .not, n => truth (n == 0)
  | .complement, n => -n - 1

/-- The 64 bits of a number. -/
def bits (n : Int) : BitVec 64 := BitVec.ofInt 64 n

/-- An operation on numbers; a division by zero has no result. -/
def BinaryOp.apply? (op : BinaryOp) (a b : Int) : Option Int :=
  match op with
  | .multiply => some (wrap (a * b))
  | .divide => if b = 0 then none else some (wrap (a.tdiv b))
  | .remainder => if b = 0 then none else some (a.tmod b)
  | .add => some (wrap (a + b))
  | .subtract => some (wrap (a - b))
  | .shiftLeft => some ((bits a <<< (b.emod 64).toNat).toInt)
  | .shiftRight => some ((bits a).sshiftRight (b.emod 64).toNat).toInt
  | .less => some (truth (a < b))
  | .lessOrEqual => some (truth (a ≤ b))
  | .greater => some (truth (a > b))
  | .greaterOrEqual => some (truth (a ≥ b))
  | .equal => some (truth (a == b))
  | .different => some (truth (a != b))
  | .bitAnd => some (bits a &&& bits b).toInt
  | .bitXor => some (bits a ^^^ bits b).toInt
  | .bitOr => some (bits a ||| bits b).toInt

/-- Why an expression has no value. -/
inductive Error where
  | malformed (why : String)
  | divisionByZero
  | badNumber (value : String)
deriving DecidableEq, Inhabited

def Error.message (text : String) : Error → String
  | malformed why => s!"arithmetic expression: {why}: \"{text}\""
  | divisionByZero => s!"arithmetic expression: division by zero: \"{text}\""
  | badNumber value => s!"Illegal number: {value}"

/-- Variables as an expression sees them: what they are, and what it sets. -/
structure Scope where
  outer : String → Option String
  inner : List (String × Int)

def Scope.get (s : Scope) (name : String) : Except Error Int :=
  match s.inner.lookup name with
  | some n => .ok n
  | none =>
    let text := (s.outer name).getD ""
    match valueOf? text with
    | some n => .ok (wrap n)
    | none => .error (.badNumber text)

abbrev EvalM := StateT Scope (Except Error)

def evalBinary (op : BinaryOp) (a b : Int) : EvalM Int :=
  match BinaryOp.apply? op a b with
  | some n => return n
  | none => throw .divisionByZero

def eval : Arithmetic → EvalM Int
  | number n => return n
  | parameter name => do liftM ((← get).get name)
  | unary op a => return UnaryOp.apply op (← eval a)
  | binary op a b => do
    let x ← eval a
    let y ← eval b
    evalBinary op x y
  | both a b => do
    if (← eval a) = 0 then return 0 else return truth ((← eval b) != 0)
  | either a b => do
    if (← eval a) ≠ 0 then return 1 else return truth ((← eval b) != 0)
  | conditional condition a b => do
    if (← eval condition) ≠ 0 then eval a else eval b
  | assign name op? a => do
    let y ← eval a
    let n ←
      match op? with
      | none => pure y
      | some op => do evalBinary op (← liftM ((← get).get name)) y
    modify fun s => { s with inner := (name, n) :: s.inner.filter (·.1 != name) }
    return n

/-- The value of an expression, and the variables that it sets. -/
def compute (text : String) (outer : String → Option String) :
    Except Error (Int × List (String × Int)) := do
  let a ← (parse text).mapError .malformed
  let (n, s) ← (eval a).run ⟨outer, []⟩
  return (n, s.inner.reverse)

end Arithmetic

end GqlArtifacts.Shell
