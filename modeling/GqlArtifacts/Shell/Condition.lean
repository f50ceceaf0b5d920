import GqlArtifacts.Files.Program
import GqlArtifacts.Shell.Arithmetic

/-!
# Conditions

The arguments of `test` are read as a condition on texts, integers and files. Every part of it is
looked at, so that the first one that has no value is told.
-/

namespace GqlArtifacts.Shell

open Files

inductive Condition where
  | filled (s : String)
  /-- A missing condition, which does not hold. -/
  | missing
  | unary (op s : String)
  | binary (op a b : String)
  | not (c : Condition)
  | both (a b : Condition)
  | either (a b : Condition)
  | malformed (message : String)
deriving Inhabited

namespace Condition

def unaryOps : List String :=
  ["-r", "-w", "-x", "-e", "-f", "-d", "-c", "-b", "-p", "-u", "-g", "-k", "-s", "-t", "-z", "-n",
    "-h", "-O", "-G", "-L", "-S"]

def binaryOps : List String :=
  ["=", "!=", "<", ">", "-eq", "-ne", "-ge", "-gt", "-le", "-lt", "-nt", "-ot", "-ef"]

/-- What the first argument is where a condition begins or goes on. -/
inductive Part where
  | finish
  | operand
  | negation
  | unary
  | binary
  | and
  | or
  | opening
  | closing
deriving DecidableEq

/-- An operator without its operand is an operand; so is one that a binary operator follows. -/
def partOf : List String → Part
  | [] => .finish
  | s :: rest =>
    if unaryOps.contains s then
      match rest with
      | [] => .operand
      | [_] => .unary
      | next :: _ => if binaryOps.contains next then .operand else .unary
    else if binaryOps.contains s then .binary
    else
      match s with
      | "!" => .negation
      | "-a" => .and
      | "-o" => .or
      | "(" => if rest.isEmpty then .operand else .opening
      | ")" => .closing
      | _ => .operand

mutual

def readEither : (fuel : Nat) → Part → List String → Condition × List String
  | 0, _, args => (.missing, args)
  | fuel + 1, part, args =>
    let (a, rest) := readBoth fuel part args
    if partOf rest = .or then
      let (b, rest) := readEither fuel (partOf rest.tail) rest.tail
      (.either a b, rest)
    else (a, rest)

def readBoth : (fuel : Nat) → Part → List String → Condition × List String
  | 0, _, args => (.missing, args)
  | fuel + 1, part, args =>
    let (a, rest) := readNot fuel part args
    if partOf rest = .and then
      let (b, rest) := readBoth fuel (partOf rest.tail) rest.tail
      (.both a b, rest)
    else (a, rest)

def readNot : (fuel : Nat) → Part → List String → Condition × List String
  | 0, _, args => (.missing, args)
  | fuel + 1, part, args =>
    if part = .negation then
      let (c, rest) := readNot fuel (partOf args.tail) args.tail
      (.not c, rest)
    else readPrimary fuel part args

def readPrimary : (fuel : Nat) → Part → List String → Condition × List String
  | 0, _, args => (.missing, args)
  | fuel + 1, part, args =>
    match part, args with
    | .finish, _ => (.missing, [])
    | _, [] => (.missing, [])
    | .opening, _ :: rest =>
      if partOf rest = .closing then (.missing, rest.tail)
      else
        let (c, rest) := readEither fuel (partOf rest) rest
        if partOf rest = .closing then (c, rest.tail)
        else (.both c (.malformed "closing paren expected"), [])
    | .unary, op :: rest =>
      match rest with
      | s :: rest => (.unary op s, rest)
      | [] => (.malformed s!"{op}: argument expected", [])
    | _, s :: rest =>
      if partOf rest = .binary then
        match rest with
        | op :: b :: rest => (.binary op s b, rest)
        | op :: [] => (.malformed s!"{op}: argument expected", [])
        | [] => (.filled s, [])
      else (.filled s, rest)

end

/-- Reads a condition that starts with a part; what is left over is told at its end, with
the argument before it. -/
def readFrom (part : Part) (args : List String) : Condition :=
  match readEither (8 * args.length + 8) part args with
  | (c, []) => c
  | (c, rest) =>
    let last := args.getD (args.length - rest.length - 1) ""
    .both c (.malformed
      (if last.isEmpty then "unexpected operator" else s!"{last}: unexpected operator"))

/-- Reads the arguments of a condition. Three with a binary operator between two are a comparison,
whatever the others are. -/
def read : (fuel : Nat) → List String → Condition
  | 0, _ => .missing
  | _, [] => .missing
  | fuel + 1, args =>
    match args with
    | [a, op, b] =>
      if binaryOps.contains op then readFrom .operand args
      else if a = "(" ∧ b = ")" then readFrom (partOf [op]) [op]
      else if a = "!" then .not (read fuel [op, b])
      else readFrom (partOf args) args
    | [a, b, c, d] =>
      if a = "(" ∧ d = ")" then readFrom (partOf [b, c]) [b, c]
      else if a = "!" then .not (read fuel [b, c, d])
      else readFrom (partOf args) args
    | args => readFrom (partOf args) args

def ofArgs (args : List String) : Condition := read (args.length + 1) args

/-- The integer that an argument is. -/
def integer (s : String) : Except String Int :=
  let front := s.toList.dropWhile fun c => c == ' ' || ('\t' ≤ c && c ≤ '\x0d')
  let (negative, front) :=
    match front with
    | '-' :: r => (true, r)
    | '+' :: r => (false, r)
    | r => (false, r)
  let (n, rest) := Arithmetic.readDigits 10 front
  let n : Int := if negative then -n else n
  let blank (c : Char) : Bool := c == ' ' || ('\t' ≤ c && c ≤ '\x0d')
  if !(front.head?.any Source.isDigit) || !rest.all blank || n != Arithmetic.wrap n then
    .error s!"Illegal number: {s}"
  else .ok n

def compare (op : String) (a b : Int) : Bool :=
  match op with
  | "-eq" => a == b
  | "-ne" => a != b
  | "-ge" => decide (b ≤ a)
  | "-gt" => decide (b < a)
  | "-le" => decide (a ≤ b)
  | _ => decide (a < b)

/-- The file that reads as empty and takes everything. -/
def isNull (name : String) : Bool := name == "/dev/null"

/-- A condition on a file. -/
def holdsOfFile (directory : Path) (op name : String) : Program Bool := do
  if isNull name then return ["-e", "-r", "-w", "-c", "-O", "-G"].contains op
  else
    let p := directory / ⟨name⟩
    match ← Program.kind p with
    | .error _ => return false
    | .ok kind =>
      match op with
      | "-f" => return decide (kind = .file)
      | "-d" => return decide (kind = .directory)
      | "-x" => return decide (kind = .directory)
      | "-s" =>
        match ← Program.read p with
        | .ok content => return !content.isEmpty
        | .error _ => return true
      | _ => return ["-e", "-r", "-w", "-O", "-G"].contains op

/-- Whether a condition holds, or the first of its parts that has no value. -/
def holds (directory : Path) : Condition → Program (Except String Bool)
  | filled s => return .ok (s != "")
  | missing => return .ok false
  | malformed message => return .error message
  | unary op s => do
    match op with
    | "-n" => return .ok (s != "")
    | "-z" => return .ok (s == "")
    | "-t" => return (integer s).map fun _ => false
    | _ => return .ok (← holdsOfFile directory op s)
  | binary op a b => do
    match op with
    | "=" => return .ok (a == b)
    | "!=" => return .ok (a != b)
    | "<" => return .ok (decide (a < b))
    | ">" => return .ok (decide (b < a))
    | "-nt" => return .ok false
    | "-ot" => return .ok false
    | "-ef" => return .ok ((directory / ⟨a⟩).normalize.text == (directory / ⟨b⟩).normalize.text)
    | _ =>
      return do
        let x ← integer a
        let y ← integer b
        return compare op x y
  | not c => do return (← holds directory c).map (!·)
  | both a b => do
    match ← holds directory a with
    | .error e => return .error e
    | .ok x => return (← holds directory b).map (x && ·)
  | either a b => do
    match ← holds directory a with
    | .error e => return .error e
    | .ok x => return (← holds directory b).map (x || ·)

end Condition

end GqlArtifacts.Shell
