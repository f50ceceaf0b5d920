import GqlArtifacts.Shell.Arithmetic
import GqlArtifacts.Shell.Escape

/-!
# Formatted output

`Printf.format` writes arguments in a format, whose directives tell how each is shown. A format that
takes arguments is used again as long as there are some left; where none is left, an argument is
empty or zero. Widths and precisions count bytes.
-/

namespace GqlArtifacts.Shell

namespace Printf

/-- A directive: how an argument is shown. -/
structure Directive where
  flags : List Char
  width : Nat
  precision? : Option Nat
deriving Inhabited

/-- Fills up to the width; zeros go between the sign and the digits. -/
def Directive.pad (d : Directive) (zeros : Bool) (sign : String) (body : ByteArray) : ByteArray :=
  let sign := sign.toUTF8
  let missing := d.width - (sign.size + body.size)
  let fill (b : UInt8) : ByteArray := ⟨Array.replicate missing b⟩
  if d.flags.contains '-' then sign ++ body ++ fill 32
  else if zeros then sign ++ fill 48 ++ body
  else fill 32 ++ sign ++ body

def Directive.text (d : Directive) (content : ByteArray) : ByteArray :=
  d.pad false "" (match d.precision? with
    | some n => content.extract 0 n
    | none => content)

/-- The digits of a number, at least as many as the precision says. -/
def Directive.digits (d : Directive) (base n : Nat) : String :=
  let digits := if n = 0 ∧ d.precision? = some 0 then "" else String.ofList (Nat.toDigits base n)
  "".pushn '0' (d.precision?.getD 0 - digits.length) ++ digits

def Directive.number (d : Directive) (sign digits : String) : ByteArray :=
  d.pad (d.flags.contains '0' && d.precision?.isNone) sign digits.toUTF8

/-- Shows an integer as the conversion says; all but `d` and `i` show its 64 bits. -/
def Directive.integer (d : Directive) (conversion : Char) (n : Int) : ByteArray :=
  let alternate := d.flags.contains '#'
  let bits := (n.emod UInt64.size).toNat
  match conversion with
  | 'u' => d.number "" (d.digits 10 bits)
  | 'o' =>
    let digits := d.digits 8 bits
    d.number "" (if alternate && digits.toList.head? != some '0' then "0" ++ digits else digits)
  | 'x' => d.number (if alternate && bits != 0 then "0x" else "") (d.digits 16 bits)
  | 'X' => d.number (if alternate && bits != 0 then "0X" else "") (d.digits 16 bits).toUpper
  | _ =>
    let sign :=
      if n < 0 then "-"
      else if d.flags.contains '+' then "+"
      else if d.flags.contains ' ' then " "
      else ""
    d.number sign (d.digits 10 n.natAbs)

/-- Text that is written so far, and what is left of the arguments. -/
structure Progress where
  args : List String
  output : ByteArray
  complaints : List String
  /-- Nothing is written any more; a malformed format is a failure. -/
  ended? : Option Nat
deriving Inhabited

def Progress.take (p : Progress) : String × Progress :=
  (p.args.headD "", { p with args := p.args.drop 1 })

def Progress.put (p : Progress) (content : ByteArray) : Progress :=
  { p with output := p.output ++ content }

def Progress.complain (p : Progress) (message : String) : Progress :=
  { p with complaints := p.complaints ++ [message] }

def Progress.fail (p : Progress) (message : String) : Progress :=
  { p.complain message with ended? := some 2 }

def isBlank (c : Char) : Bool := c == ' ' || ('\t' ≤ c && c ≤ '\x0d')

/-- Takes an argument for a number between two bounds. A quote stands for the code of the byte
after it. -/
def Progress.takeNumber (p : Progress) (signed : Bool) : Int × Progress :=
  let (arg, p) := p.take
  let code (s : String) : Int := ((s.toUTF8.toList.drop 1).headD 0).toNat
  match arg.toList with
  | '\'' :: _ => (code arg, p)
  | '"' :: _ => (code arg, p)
  | cs =>
    let front := cs.dropWhile isBlank
    let (negative, front) :=
      match front with
      | '-' :: r => (true, r)
      | '+' :: r => (false, r)
      | r => (false, r)
    if !(front.head?.any Source.isDigit) then
      (0, if cs.isEmpty then p else p.complain s!"{arg}: expected numeric value")
    else
      let (n, rest) := Arithmetic.readNumber front
      let value : Int := if negative then -(n : Int) else n
      let limit : Nat :=
        if !signed then UInt64.size - 1 else if negative then Nat.pow 2 63 else Nat.pow 2 63 - 1
      let outside : Bool := decide (limit < n)
      let value := if !outside then value else if signed && negative then -(limit : Int) else limit
      if !rest.isEmpty then (value, p.complain s!"{arg}: not completely converted")
      else if outside then (value, p.complain s!"{arg}: Numerical result out of range")
      else (value, p)

/-- Reads a width or a precision, which an argument may give; it has 32 bits. -/
def Progress.readSize (p : Progress) (cs : List Char) : Int × List Char × Progress :=
  match cs with
  | '*' :: r =>
    let (n, p) := p.takeNumber true
    (n.bmod UInt32.size, r, p)
  | cs =>
    let (n, r) := Arithmetic.readDigits 10 cs
    (n, r, p)

/-- Shows an argument as a directive says. -/
def Progress.convert (p : Progress) (d : Directive) (conversion : Char) (directive : String) :
    Progress :=
  match conversion with
  | 's' =>
    let (arg, p) := p.take
    p.put (d.text arg.toUTF8)
  | 'c' =>
    let (arg, p) := p.take
    let b := if arg.isEmpty then ⟨#[0]⟩ else arg.toUTF8.extract 0 1
    p.put (d.pad false "" b)
  | 'b' =>
    let (arg, p) := p.take
    let (content, ends) := unescape arg
    let p := p.put (d.text content)
    if ends then { p with ended? := some 0 } else p
  | c =>
    if c = 'd' ∨ c = 'i' then
      let (n, p) := p.takeNumber true
      p.put (d.integer c n)
    else if c = 'u' ∨ c = 'o' ∨ c = 'x' ∨ c = 'X' then
      let (n, p) := p.takeNumber false
      p.put (d.integer c n)
    else p.fail s!"{directive}: invalid directive"

/-- Writes a format once. -/
def Progress.once : (fuel : Nat) → Progress → List Char → Progress
  | 0, p, _ => p
  | _, p, [] => p
  | fuel + 1, p, '\\' :: r =>
    match escape? r with
    | some (b, r) => once fuel (p.put ⟨#[b]⟩) r
    | none => once fuel (p.put ⟨#[92]⟩) r
  | fuel + 1, p, '%' :: '%' :: r => once fuel (p.put ⟨#[37]⟩) r
  | fuel + 1, p, '%' :: r =>
    let flags := r.takeWhile fun c => "#-+ 0".toList.contains c
    let (width, after, p) := p.readSize (r.drop flags.length)
    let (precision?, after, p) :=
      match after with
      | '.' :: after =>
        let (n, after, p) := p.readSize after
        (if n < 0 then none else some n.toNat, after, p)
      | after => (none, after, p)
    let flags := if width < 0 then '-' :: flags else flags
    match after with
    | [] => p.fail "missing format character"
    | c :: after =>
      let directive := String.ofList ('%' :: r.take (r.length - after.length))
      let p := p.convert ⟨flags, width.natAbs, precision?⟩ c directive
      if p.ended?.isSome then p else once fuel p after
  | fuel + 1, p, c :: r => once fuel (p.put (bytesOfChar c)) r

/-- Writes a format again as long as it takes arguments and there are some left. -/
def Progress.all (format : List Char) : (rounds : Nat) → Progress → Progress
  | 0, p => p
  | rounds + 1, p =>
    let after := p.once (format.length + 1) format
    if after.ended?.isSome || after.args.isEmpty || after.args.length == p.args.length then after
    else all format rounds after

def format (f : String) (args : List String) : Progress :=
  Progress.all f.toList (args.length + 1) ⟨args, .empty, [], none⟩

/-- The status of a command that writes a format. -/
def Progress.status (p : Progress) : Nat :=
  max (p.ended?.getD 0) (if p.complaints.isEmpty then 0 else 1)

end Printf

end GqlArtifacts.Shell
