/-!
# Command lines

`CommandLine.parse` reads the arguments of the tool. Options may stand before and after the name of
the command. Arguments are read from left to right, and the first one that asks for help or for the
version, or that fits nothing, settles the outcome. After `--` every argument is taken as it stands.
-/

namespace GqlArtifacts

namespace CommandLine

structure Options where
  quiet : Bool
  verbose : Bool
  config? : Option String
deriving DecidableEq, Inhabited

inductive Command where
  | init (dir? : Option String) (force : Bool)
  | generate
  | resolve (file : String) (compact : Bool)
deriving DecidableEq, Inhabited

/-- Why the arguments name no command to run. -/
inductive Stop where
  | help
  | version
  | usage
deriving DecidableEq, Inhabited

/-- A flag with its short form, if it has one. -/
structure Flag where
  long : String
  short? : Option Char
deriving DecidableEq, Inhabited

/-- What may be written before the command, or after it. -/
structure Grammar where
  flags : List Flag
  /-- How many arguments without a dash there may be. -/
  operands : Nat
  commands : List String
deriving Inhabited

def commonFlags : List Flag :=
  [⟨"quiet", some 'q'⟩, ⟨"verbose", some 'v'⟩, ⟨"help", some 'h'⟩]

def commandNames : List String := ["init", "gen", "resolve", "help"]

def Grammar.top : Grammar := ⟨⟨"version", some 'V'⟩ :: commonFlags, 0, commandNames⟩

def Grammar.init : Grammar := ⟨⟨"force", some 'f'⟩ :: commonFlags, 1, []⟩

def Grammar.generate : Grammar := ⟨commonFlags, 0, []⟩

def Grammar.resolve : Grammar := ⟨⟨"compact", none⟩ :: commonFlags, 1, []⟩

/-- One argument by its form. -/
inductive Word where
  | escape
  | long (name : String) (value? : Option String)
  | shorts (cs : List Char)
  | plain (s : String)
deriving DecidableEq, Inhabited

def Word.ofString (s : String) : Word :=
  match s.toList with
  | ['-', '-'] => escape
  | '-' :: '-' :: cs =>
    let name := String.ofList (cs.takeWhile (· != '='))
    match cs.dropWhile (· != '=') with
    | _ :: value => long name (some (String.ofList value))
    | [] => long name none
  | ['-'] => plain s
  | '-' :: cs => shorts cs
  | _ => plain s

/-- What was written on one level. -/
structure Level where
  flags : List String
  config? : Option String
  operands : List String
deriving DecidableEq, Inhabited

namespace Level

def empty : Level := ⟨[], none, []⟩

def has (l : Level) (flag : String) : Bool := l.flags.contains flag

/-- Takes a flag; none may be repeated. -/
def setFlag (l : Level) : String → Except Stop Level
  | "help" => .error .help
  | "version" => .error .version
  | name => if l.has name then .error .usage else .ok { l with flags := name :: l.flags }

def setLong (g : Grammar) (l : Level) (name : String) : Except Stop Level :=
  if g.flags.any (·.long == name) then l.setFlag name else .error .usage

def setShort (g : Grammar) (l : Level) (c : Char) : Except Stop Level :=
  match g.flags.find? (·.short? == some c) with
  | some f => l.setFlag f.long
  | none => .error .usage

/-- Takes the path of the configuration; there is one at most. -/
def setConfig (l : Level) (value : String) : Except Stop Level :=
  if l.config?.isSome then .error .usage else .ok { l with config? := some value }

def addOperand (g : Grammar) (l : Level) (s : String) : Except Stop Level :=
  if l.operands.length < g.operands then .ok { l with operands := l.operands ++ [s] }
  else .error .usage

/-- Reads one level, and stops after the name of a command: gives the name and what follows it. -/
def read (g : Grammar) : Level → List String → Except Stop (Level × Option (String × List String))
  | l, [] => .ok (l, none)
  | l, arg :: rest =>
    match Word.ofString arg with
    | .escape => do return (← rest.foldlM (addOperand g) l, none)
    | .long "config" none =>
      match rest with
      | [] => .error .usage
      | value :: rest =>
        match Word.ofString value with
        | .plain value => do read g (← l.setConfig value) rest
        | _ => .error .usage
    | .long "config" (some value) => do read g (← l.setConfig value) rest
    | .long name none => do read g (← l.setLong g name) rest
    | .long _ (some _) => .error .usage
    | .shorts cs => do read g (← cs.foldlM (setShort g) l) rest
    | .plain s =>
      if g.commands.contains s then .ok (l, some (s, rest))
      else do read g (← l.addOperand g s) rest

end Level

/-- The options of both levels together; the configuration named last counts. -/
def optionsOf (top below : Level) : Options :=
  ⟨top.has "quiet" || below.has "quiet", top.has "verbose" || below.has "verbose",
    below.config?.or top.config?⟩

/-- The help command takes the name of at most one command. -/
def helpStop (names : List String) : Stop :=
  match names with
  | [] => .help
  | [name] => if commandNames.contains name then .help else .usage
  | _ => .usage

def parse (args : List String) : Except Stop (Options × Command) := do
  match ← Level.read .top .empty args with
  | (_, none) => throw .usage
  | (top, some (name, rest)) =>
    match name with
    | "init" =>
      let (l, _) ← Level.read .init .empty rest
      return (optionsOf top l, .init l.operands.head? (l.has "force"))
    | "gen" =>
      let (l, _) ← Level.read .generate .empty rest
      return (optionsOf top l, .generate)
    | "resolve" =>
      let (l, _) ← Level.read .resolve .empty rest
      match l.operands with
      | file :: _ => return (optionsOf top l, .resolve file (l.has "compact"))
      | [] => throw .usage
    | _ => throw (helpStop rest)

end CommandLine

end GqlArtifacts
