import GqlArtifacts.Shell.Fields
import GqlArtifacts.Shell.Reader
import GqlArtifacts.Shell.Tools

/-!
# Commands of the shell

The commands that change the shell itself: its variables and arguments, its directory, its options
and how its commands go on. A failure of one of the special ones ends the shell.
-/

namespace GqlArtifacts.Shell

open Files Source

/-- The other commands that the shell has itself. -/
def plainCommands : List String :=
  ["[", "alias", "bg", "cd", "command", "echo", "false", "fg", "getopts", "hash", "jobs", "kill",
    "printf", "pwd", "read", "test", "true", "type", "ulimit", "umask", "unalias", "wait"]

namespace Machine

/-- A failure of a command of the shell. -/
def refuseCommand (m : Machine) (command message : String) : Program Machine :=
  m.fail 2 s!"{m.label command}: {message}"

/-- A failure of a special command. -/
def abortCommand (m : Machine) (command message : String) : Program Machine := do
  return (← m.refuseCommand command message).halt

/-- The number that the first argument of a command is, or what is given without arguments. -/
def withNumber (m : Machine) (command : String) (otherwise : Nat) (args : List String)
    (next : Nat → Program Machine) : Program Machine :=
  match args with
  | [] => next otherwise
  | s :: _ =>
    match if s.toList.all isDigit then s.toNat? else none with
    | some n => next n
    | none => m.abortCommand command s!"Illegal number: {s}"

/-! ### The flow of commands -/

def leaveLoops (m : Machine) (command : String) (args : List String) : Program Machine :=
  m.withNumber command 1 args fun n =>
    if n = 0 then m.abortCommand command "Illegal number: 0"
    else
      let levels := min n m.loops
      let m := m.finish 0
      if levels = 0 then return m
      else if command = "break" then return { m with flow := .breaking levels }
      else return { m with flow := .continuing levels }

def returnFrom (m : Machine) (args : List String) : Program Machine :=
  m.withNumber "return" m.status args fun n => return { m.finish n with flow := .returning }

def exit (m : Machine) (args : List String) : Program Machine :=
  m.withNumber "exit" m.status args fun n => return { m.finish n with flow := .exiting }

def setTrap (m : Machine) (args : List String) : Program Machine :=
  let isExit (s : String) : Bool := s == "EXIT" || s == "0"
  match if args.head? = some "--" then args.tail else args with
  | [] => return m.finish 0
  | [signal] => return { m.finish 0 with exitTrap? := if isExit signal then none else m.exitTrap? }
  | action :: signals =>
    let action? := if action = "-" then none else some action
    return { m.finish 0 with exitTrap? := if signals.any isExit then action? else m.exitTrap? }

/-! ### Variables and arguments -/

/-- The name and the value of an argument such as `name=value`. -/
def splitAssignment (s : String) : String × Option String :=
  (String.ofList (s.toList.takeWhile (· != '=')),
    match s.toList.dropWhile (· != '=') with
    | _ :: value => some (String.ofList value)
    | [] => none)

/-- Marks variables, which may be given values, one after another. -/
def declare (m : Machine) (command : String) (mark : Machine → String → Machine) :
    List String → Program Machine
  | [] => return m.finish 0
  | arg :: rest => do
    let (name, value?) := splitAssignment arg
    if !isName name then m.abortCommand command s!"{name}: bad variable name"
    else
      let m ←
        match value? with
        | some value => (if command = "local" then mark m name else m).assign name value
        | none => pure m
      if m.running then declare (mark m name) command mark rest else return m

def markExported (m : Machine) (name : String) : Machine :=
  if m.exported.contains name then m else { m with exported := name :: m.exported }

def markReadOnly (m : Machine) (name : String) : Machine :=
  if m.readOnly.contains name then m else { m with readOnly := name :: m.readOnly }

def declareLocal (m : Machine) (args : List String) : Program Machine :=
  if m.replaced.isEmpty then m.abortCommand "local" "not in a function"
  else m.declare "local" makeLocal args

def unset (m : Machine) (functions : Bool) : List String → Program Machine
  | [] => return m.finish 0
  | name :: rest =>
    if functions then
      unset { m with functions := m.functions.filter (·.1 != name) } functions rest
    else if !isName name then m.abortCommand "unset" s!"{name}: bad variable name"
    else if m.readOnly.contains name then m.abortCommand "unset" s!"{name}: is read only"
    else
      let m := { m.bind name none with exported := m.exported.filter (· != name) }
      unset m functions rest

def shift (m : Machine) (args : List String) : Program Machine :=
  m.withNumber "shift" 1 args fun n =>
    if m.arguments.length < n then m.abortCommand "shift" "can't shift that many"
    else return { m.finish 0 with arguments := m.arguments.drop n }

/-- Turns an option on or off by its letter; there are some without an effect on scripts. -/
def setOption? (m : Machine) (on : Bool) (letter : Char) : Option Machine :=
  match letter with
  | 'e' => some { m with exitOnFailure := on }
  | 'f' => some { m with literalPatterns := on }
  | 'u' => some { m with refuseUnset := on }
  | 'x' => some { m with trace := on }
  | c => if "abhimnsvCEIV".toList.contains c then some m else none

/-- The letters of the options that have long names. -/
def letterOf? (option : String) : Option Char :=
  [("errexit", 'e'), ("noglob", 'f'), ("nounset", 'u'), ("xtrace", 'x'), ("allexport", 'a'),
    ("notify", 'b'), ("monitor", 'm'), ("noexec", 'n'), ("verbose", 'v'), ("noclobber", 'C'),
    ("ignoreeof", 'I')].lookup option

def setOptions? (m : Machine) (on : Bool) : List Char → Option Machine
  | [] => some m
  | c :: rest => (m.setOption? on c).bind fun m => setOptions? m on rest

/-- The options that the arguments begin with, what they leave, and whether hyphens ended them; or
the option that is not known. -/
def readOptions (m : Machine) : List String → Except String (Machine × List String × Bool)
  | [] => .ok (m, [], false)
  | "--" :: rest => .ok (m, rest, true)
  | "-o" :: name :: rest =>
    match (letterOf? name).bind (m.setOption? true) with
    | some m => readOptions m rest
    | none => .error s!"Illegal option -o {name}"
  | "+o" :: name :: rest =>
    match (letterOf? name).bind (m.setOption? false) with
    | some m => readOptions m rest
    | none => .error s!"Illegal option +o {name}"
  | arg :: rest =>
    let go (on : Bool) (letters : List Char) : Except String (Machine × List String × Bool) :=
      match m.setOptions? on letters with
      | some m => readOptions m rest
      | none =>
        let unknown := (letters.find? fun c => (m.setOption? on c).isNone).getD '-'
        .error ("Illegal option " ++ String.ofList [if on then '-' else '+', unknown])
    match arg.toList with
    | '-' :: c :: letters => go true (c :: letters)
    | '+' :: c :: letters => go false (c :: letters)
    | _ => .ok (m, arg :: rest, false)

def set (m : Machine) (args : List String) : Program Machine :=
  match m.readOptions args with
  | .error message => m.abortCommand "set" message
  | .ok (m, rest, ended) =>
    return if rest.isEmpty && !ended then m.finish 0
      else { m.finish 0 with arguments := rest }

/-! ### The directory -/

def enter (m : Machine) (shown : Bool) (place : Path) : Program Machine := do
  let old := m.directory.text
  let m := { m.finish 0 with directory := place }
  let m ← (m.bind "OLDPWD" (some old)).assign "PWD" place.text
  if shown then m.writeText 1 (place.text ++ "\n") else return m

def changeDirectory (m : Machine) (args : List String) : Program Machine := do
  let args := args.dropWhile fun s => s == "-L" || s == "-P" || s == "--"
  let target? :=
    match args with
    | [] => m.lookup? "HOME"
    | "-" :: _ => some ((m.lookup? "OLDPWD").getD m.directory.text)
    | s :: _ => some s
  match target? with
  | none => return m.finish 0
  | some target =>
    let place := (m.directory / ⟨target⟩).normalize
    if ← Program.isDirectory place then m.enter (args.head? = some "-") place
    else m.refuseCommand "cd" s!"can't cd to {target}"

/-! ### Reading a line -/

/-- The number of bytes before the newline that ends a line, if there is one. A backslash quotes a
newline unless the line is taken raw. -/
def lineEnd? (raw : Bool) (content : ByteArray) : (fuel : Nat) → (start : Nat) → Option Nat
  | 0, _ => none
  | fuel + 1, i =>
    match content[i]? with
    | none => none
    | some b =>
      if b = 10 then some i
      else if b = 92 ∧ !raw then lineEnd? raw content fuel (i + 2)
      else lineEnd? raw content fuel (i + 1)

/-- The characters of a line with their marks. -/
def markLine (raw : Bool) : List Char → Marked
  | [] => []
  | '\\' :: r =>
    if raw then (false, '\\') :: markLine raw r
    else
      match r with
      | [] => []
      | '\n' :: r => markLine raw r
      | c :: r => (true, c) :: markLine raw r
  | c :: r => (false, c) :: markLine raw r

/-- Cuts a line at the separators for some names. The last of them gets all that is left, but for a
separator after a single field. -/
def shareOut (separators : List Char) : (names : List String) → Marked → List (String × String)
  | [], _ => []
  | name :: names, line =>
    let isBlank (p : Bool × Char) : Bool :=
      !p.1 && separators.contains p.2 && (p.2 == ' ' || p.2 == '\t' || p.2 == '\n')
    let isSeparator (p : Bool × Char) : Bool := !p.1 && separators.contains p.2
    let line := line.dropWhile isBlank
    let field := line.takeWhile (!isSeparator ·)
    let rest := (line.drop field.length).dropWhile isBlank
    let rest :=
      match rest with
      | p :: r => if isSeparator p then r else rest
      | [] => rest
    if names.isEmpty then
      let whole := if (rest.dropWhile isBlank).isEmpty then field else line
      [(name, Marked.text (whole.reverse.dropWhile isBlank).reverse)]
    else (name, Marked.text field) :: shareOut separators names rest

def assignAll (m : Machine) : List (String × String) → Program Machine
  | [] => return m
  | (name, value) :: rest => do
    let m ← m.assign name value
    if m.running then assignAll m rest else return m

def readLine (m : Machine) (args : List String) : Program Machine := do
  let raw := args.head? = some "-r"
  let names := if raw then args.tail else args
  match names.find? fun name => !isName name with
  | some name => m.refuseCommand "read" s!"{name}: bad variable name"
  | none =>
    if names.isEmpty then m.refuseCommand "read" "arg count"
    else
      let input := m.input
      let stop? := lineEnd? raw input input.size 0
      let stop := stop?.getD input.size
      let line := markLine raw (Text.lossy (input.extract 0 stop)).toList
      let m := m.setInput (input.extract (stop + 1) input.size)
      let m ← m.assignAll (shareOut m.separators names line)
      return if m.running then m.finish (if stop?.isSome then 0 else 1) else m

/-! ### Options of scripts -/

/-- The character that an argument has next for the options, and the place after it; an argument is
counted from one. None is left at the first argument that is no option. -/
def nextOption? (args : List String) (place : Nat × Nat) : Option (Char × Nat × Nat) :=
  let (index, taken) := place
  let rest := ((args.getD (index - 2) "").toList).drop taken
  match if 1 < index ∧ 0 < taken then rest else [] with
  | c :: _ => some (c, index, taken + 1)
  | [] =>
    match (args.getD (index - 1) "").toList with
    | '-' :: c :: cs => if c = '-' ∧ cs.isEmpty then none else some (c, index + 1, 2)
    | _ => none

/-- Takes the next option of the arguments: sets the variable to its letter and `OPTARG` to its
value. -/
def takeOption (m : Machine) (letters name : String) (args : List String) : Program Machine := do
  let index := ((m.lookup? "OPTIND").bind String.toNat?).getD 1
  let place := if m.optionPlace.1 = index then m.optionPlace else (index, 0)
  let stop (m : Machine) (place : Nat × Nat) (c : Char) (value? : Option String) (status : Nat) :
      Program Machine := do
    let m := { m.bind "OPTARG" value? with optionPlace := place }
    let m := m.bind "OPTIND" (some (toString place.1))
    let m ← m.assign name (String.singleton c)
    return if m.running then m.finish status else m
  match nextOption? args place with
  | none =>
    let skipped := if args[index - 1]? = some "--" then index + 1 else index
    stop m (skipped, 0) '?' (m.lookup? "OPTARG") 1
  | some (c, index, taken) =>
    let silent := letters.toList.head? = some ':'
    let known := letters.toList.dropWhile (· != c)
    let refuse (m : Machine) (place : Nat × Nat) (sign : Char) (message : String) :
        Program Machine := do
      if silent then stop m place sign (some (String.singleton c)) 0
      else stop (← m.writeText 2 message) place '?' none 0
    if known.isEmpty || c == ':' then
      refuse m (index, taken) '?' (String.ofList ("Illegal option -".toList ++ [c, '\n']))
    else if known[1]? = some ':' then
      let value := ((args.getD (index - 2) "").toList).drop taken
      if !value.isEmpty then stop m (index, 0) c (some (String.ofList value)) 0
      else
        match args[index - 1]? with
        | some value => stop m (index + 1, 0) c (some value) 0
        | none =>
          refuse m (index, 0) ':'
            (String.ofList ("No arg for -".toList ++ [c] ++ " option\n".toList))
    else stop m (index, taken) c (some "") 0

def takeOptions (m : Machine) : List String → Program Machine
  | letters :: name :: args =>
    m.takeOption letters name (if args.isEmpty then m.arguments else args)
  | _ => m.refuseCommand "getopts" "Usage: getopts optstring var [arg...]"

/-! ### What a name stands for -/

/-- Whether the programs lie in a directory of the search path. -/
def findsPrograms (path? : Option String) : Bool :=
  match path? with
  | none => true
  | some path => (path.splitOn ":").any fun dir =>
      ["/bin", "/usr/bin"].contains (Path.normalize ⟨dir⟩).text

/-- The program that a name stands for. -/
def program? (m : Machine) (name : String) : Option String :=
  let tool := programName name
  let known := tool == "sh" || programs.contains tool
  if known && (tool != name || findsPrograms (m.lookup? "PATH")) then some tool else none

inductive Meaning where
  | special
  | function (body : Command)
  | builtin
  | program (tool : String)
  | unknown

def meaningOf (m : Machine) (name : String) : Meaning :=
  if specialBuiltins.contains name then .special
  else
    match m.functions.lookup name with
    | some body => .function body
    | none =>
      if plainCommands.contains name then .builtin
      else
        match m.program? name with
        | some tool => .program tool
        | none => .unknown

/-- Where a program lies. -/
def placeOf (name : String) : String :=
  if name.toList.contains '/' then name else "/usr/bin/" ++ name

/-- Says what a name stands for, at length or only how it is called. -/
def describe (m : Machine) (long : Bool) (name : String) : Option String :=
  let say (short how : String) : Option String :=
    some (if long then s!"{name} is {how}\n" else short ++ "\n")
  if reservedWords.contains name then say name "a shell keyword"
  else
    match m.meaningOf name with
    | .special => say name "a special shell builtin"
    | .function _ => say name "a shell function"
    | .builtin => say name "a shell builtin"
    | .program _ => say (placeOf name) (placeOf name)
    | .unknown => none

/-- Says of names what they stand for. -/
def describeAll (m : Machine) (long : Bool) (names : List String) : Program Machine := do
  let found := names.map fun name => m.describe long name
  let texts := (names.zip found).map fun (name, text?) =>
    text?.getD (if long then s!"{name}: not found\n" else "")
  let m ← m.writeText 1 (String.join texts)
  return m.finish (if found.all Option.isSome then 0 else 127)

/-! ### Running a command by its name -/

/-- Runs a special command that runs no others. -/
def runSpecial (m : Machine) (name : String) (args : List String) : Program Machine :=
  let operands := if args.head? = some "--" || args.head? = some "-p" then args.tail else args
  match name with
  | "break" => m.leaveLoops "break" args
  | "continue" => m.leaveLoops "continue" args
  | "return" => m.returnFrom args
  | "exit" => m.exit args
  | "trap" => m.setTrap args
  | "export" => m.declare "export" markExported operands
  | "readonly" => m.declare "readonly" markReadOnly operands
  | "local" => m.declareLocal args
  | "unset" => m.unset (args.head? = some "-f") (args.filter fun s => s != "-f" && s != "-v")
  | "shift" => m.shift args
  | "set" => m.set args
  | _ => return m.finish 0

/-- Runs one of the other commands of the shell that run no others. -/
def runBuiltin (m : Machine) (name : String) (args : List String) : Program Machine :=
  match name with
  | "echo" => m.echo args
  | "printf" => m.printf (m.label "printf") args
  | "test" => m.test (m.label "test") args
  | "[" => m.testBracket (m.label "[") args
  | "false" => return m.finish 1
  | "cd" => m.changeDirectory args
  | "pwd" => return (← m.writeText 1 (m.directory.text ++ "\n")).finish 0
  | "read" => m.readLine args
  | "getopts" => m.takeOptions args
  | "type" => m.describeAll true args
  | "umask" =>
    if args.isEmpty then return (← m.writeText 1 "0022\n").finish 0 else return m.finish 0
  | _ => return m.finish 0

end Machine

end GqlArtifacts.Shell
