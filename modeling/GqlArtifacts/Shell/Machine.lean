import GqlArtifacts.Files.Program
import GqlArtifacts.Shell

/-!
# A running shell

A `Machine` is a shell between two commands: its parameters and functions, where its streams lead,
and the channels that hold what was written and what is still to be read. A process of its own, such
as a part of a pipeline, is a machine that shares the channels and nothing else with the machine
that it came from.
-/

namespace GqlArtifacts.Shell

open Files

/-- Where a stream leads. -/
inductive Port where
  | channel (id : Nat)
  /-- A channel that holds what was read of a file. -/
  | source (id : Nat)
  /-- A file that output is added to. -/
  | file (p : Path)
  /-- The file that reads as empty and takes everything. -/
  | null
deriving DecidableEq, Inhabited

/-- How the commands go on. -/
inductive Flow where
  | next
  | breaking (levels : Nat)
  | continuing (levels : Nat)
  | returning
  | exiting
deriving DecidableEq, Inhabited

structure Machine where
  /-- The name that messages begin with. -/
  name : String
  /-- The text whose commands are run, if it is not that of the shell itself. -/
  within? : Option String
  arguments : List String
  /-- The variables that were set or, where there is no value, unset. -/
  bindings : List (String × Option String)
  /-- The variables that the shell started with. -/
  environment : String → Option String
  exported : List String
  readOnly : List String
  functions : List (String × Command)
  /-- What the local variables of the functions that are running have replaced, innermost first. -/
  replaced : List (List (String × Option (Option String)))
  status : Nat
  /-- The status of the last command whose output was put in since the command at hand began. -/
  outputStatus : Nat
  flow : Flow
  line : Nat
  loops : Nat
  directory : Path
  ports : List (Nat × Port)
  channels : Array ByteArray
  exitOnFailure : Bool
  refuseUnset : Bool
  literalPatterns : Bool
  trace : Bool
  exitTrap? : Option String
  /-- The argument that options are taken from and how many of its characters are taken. -/
  optionPlace : Nat × Nat

instance : Inhabited Machine :=
  ⟨⟨"", none, [], [], fun _ => none, [], [], [], [], 0, 0, .next, 0, 0, ⟨""⟩, [], #[], false, false,
    false, false, none, (1, 0)⟩⟩

namespace Machine

/-- A shell at its start, with the three standard streams. -/
def start (name : String) (environment : String → Option String) (directory : Path)
    (input : ByteArray) : Machine :=
  { (default : Machine) with
    name, environment, directory
    line := 1
    bindings := [("IFS", some " \t\n"), ("OPTIND", some "1"), ("PWD", some directory.text)]
    ports := [(0, .channel 0), (1, .channel 1), (2, .channel 2)]
    channels := #[input, .empty, .empty] }

def channel (m : Machine) (id : Nat) : ByteArray := m.channels.getD id .empty

def output (m : Machine) : ByteArray := m.channel 1

def errors (m : Machine) : ByteArray := m.channel 2

def port? (m : Machine) (stream : Nat) : Option Port := m.ports.lookup stream

def setPort (m : Machine) (stream : Nat) (p : Port) : Machine :=
  { m with ports := (stream, p) :: m.ports.filter (·.1 != stream) }

def closePort (m : Machine) (stream : Nat) : Machine :=
  { m with ports := m.ports.filter (·.1 != stream) }

/-- A new channel with some content. -/
def openChannel (m : Machine) (content : ByteArray) : Nat × Machine :=
  (m.channels.size, { m with channels := m.channels.push content })

def running (m : Machine) : Bool := m.flow == .next

/-- What is left of the standard input. -/
def input (m : Machine) : ByteArray :=
  match m.port? 0 with
  | some (.channel id) => m.channel id
  | some (.source id) => m.channel id
  | _ => .empty

/-- Leaves only some of the standard input. -/
def setInput (m : Machine) (content : ByteArray) : Machine :=
  match m.port? 0 with
  | some (.channel id) => { m with channels := m.channels.setIfInBounds id content }
  | some (.source id) => { m with channels := m.channels.setIfInBounds id content }
  | _ => m

/-- The size of the standard input, if it is known before it is read. -/
def inputSize? (m : Machine) : Option Nat :=
  match m.port? 0 with
  | some (.source id) => some (m.channel id).size
  | _ => none

/-- Writes to a stream; what is written to a closed one is lost. -/
def write (m : Machine) (stream : Nat) (content : ByteArray) : Program Machine := do
  match m.port? stream with
  | some (.channel id) =>
    return { m with channels := m.channels.modify id (· ++ content) }
  | some (.file p) =>
    match ← Program.read p with
    | .ok before =>
      let _ ← Program.write p (before ++ content)
      return m
    | .error _ => return m
  | _ => return m

def writeText (m : Machine) (stream : Nat) (s : String) : Program Machine :=
  m.write stream s.toUTF8

/-- What the messages of a command of the shell begin with. -/
def label (m : Machine) (command : String) : String := s!"{m.name}: {m.line}: {command}"

/-- A message with the name of the shell and the line. -/
def complain (m : Machine) (message : String) : Program Machine :=
  match m.within? with
  | some text => m.writeText 2 s!"{m.label text}: {message}\n"
  | none => m.writeText 2 s!"{m.label message}\n"

/-- The end of the shell with a failure. -/
def halt (m : Machine) : Machine := { m with status := 2, flow := .exiting }

/-- A message that ends the shell. -/
def abort (m : Machine) (message : String) : Program Machine := do
  return (← m.complain message).halt

/-! ### Parameters -/

def lookup? (m : Machine) (name : String) : Option String :=
  match m.bindings.lookup name with
  | some value? => value?
  | none => m.environment name

def bind (m : Machine) (name : String) (value? : Option String) : Machine :=
  { m with bindings := (name, value?) :: m.bindings.filter (·.1 != name) }

/-- Sets a variable, unless it is only for reading. -/
def assign (m : Machine) (name value : String) : Program Machine :=
  if m.readOnly.contains name then m.abort s!"{name}: is read only"
  else return m.bind name (some value)

/-- The variables that a process of its own gets. -/
def passedOn (m : Machine) (name : String) : Option String :=
  if m.exported.contains name || (m.environment name).isSome then m.lookup? name else none

/-- The characters that fields are cut at. -/
def separators (m : Machine) : List Char := ((m.lookup? "IFS").getD " \t\n").toList

/-- The text between arguments that are put together. -/
def joint (m : Machine) : String :=
  match m.lookup? "IFS" with
  | none => " "
  | some s => String.ofList (s.toList.take 1)

/-- The letters of the options that are on. -/
def optionLetters (m : Machine) : String :=
  (if m.refuseUnset then "u" else "") ++ (if m.trace then "x" else "") ++
    (if m.literalPatterns then "f" else "") ++ (if m.exitOnFailure then "e" else "")

/-- The value of a parameter other than the list of all arguments. -/
def parameter? (m : Machine) (name : String) : Option String :=
  match name with
  | "?" => some (toString m.status)
  | "#" => some (toString m.arguments.length)
  | "0" => some m.name
  | "-" => some m.optionLetters
  | "@" => if m.arguments.isEmpty then none else some (" ".intercalate m.arguments)
  | "*" => if m.arguments.isEmpty then none else some (m.joint.intercalate m.arguments)
  | "$" => some "1"
  | "!" => none
  | _ =>
    match name.toNat? with
    | some n => m.arguments[n - 1]?
    | none => m.lookup? name

/-! ### Processes and functions -/

/-- What goes on after a process of its own: only its status and the channels are taken over. -/
def join (m child : Machine) : Machine :=
  { m with status := child.status % 256, channels := child.channels }

/-- The start of a process of its own. -/
def fork (m : Machine) : Machine := { m with exitTrap? := none }

/-- Remembers what a local variable replaces, once for each function that is running. -/
def makeLocal (m : Machine) (name : String) : Machine :=
  match m.replaced with
  | [] => m
  | frame :: rest =>
    if frame.any (·.1 == name) then m
    else { m with replaced := ((name, m.bindings.lookup name) :: frame) :: rest }

/-- Puts back what the local variables of the innermost function have replaced. -/
def restoreLocals (m : Machine) : Machine :=
  match m.replaced with
  | [] => m
  | frame :: rest =>
    { m with
      replaced := rest
      bindings := frame.foldl
        (fun bindings (name, old?) =>
          let others := bindings.filter (·.1 != name)
          match old? with
          | some value? => (name, value?) :: others
          | none => others)
        m.bindings }

end Machine

end GqlArtifacts.Shell
