import GqlArtifacts.Files.Atomic
import GqlArtifacts.Shell.Condition
import GqlArtifacts.Shell.Count
import GqlArtifacts.Shell.Machine
import GqlArtifacts.Shell.Printf
import GqlArtifacts.Shell.Search

/-!
# The tools of scripts

The commands that work on their arguments, on files and on the standard input, and that change
nothing of the shell but its status. `label` is what the messages of a tool begin with.
-/

namespace GqlArtifacts.Shell

open Files

namespace Machine

def finish (m : Machine) (status : Nat) : Machine := { m with status }

def fail (m : Machine) (status : Nat) (message : String) : Program Machine := do
  return (← m.writeText 2 (message ++ "\n")).finish status

/-! ### Writing -/

/-- Writes arguments in one line; `-n` leaves the newline out, and `\c` ends the output. -/
def echo (m : Machine) (args : List String) : Program Machine := do
  let (newline, args) :=
    match args with
    | "-n" :: rest => ("", rest)
    | args => ("\n", args)
  let (content, ended) := unescape (" ".intercalate args)
  return (← m.write 1 (if ended then content else content ++ newline.toUTF8)).finish 0

/-- The same as a program of its own, which knows escapes only with `-e`. -/
def echoPlain (m : Machine) (args : List String) : Program Machine := do
  let isOption (arg : String) : Bool :=
    match arg.toList with
    | '-' :: c :: cs => (c :: cs).all "neE".toList.contains
    | _ => false
  let letters := (args.takeWhile isOption).flatMap (·.toList)
  let text := " ".intercalate (args.dropWhile isOption)
  let escapes := (letters.filter fun c => c == 'e' || c == 'E').getLast? == some 'e'
  let (content, ended) := if escapes then unescape text else (text.toUTF8, false)
  let newline := if letters.contains 'n' || ended then "" else "\n"
  return (← m.write 1 (content ++ newline.toUTF8)).finish 0

def printf (m : Machine) (label : String) (args : List String) : Program Machine := do
  match if args.head? = some "--" then args.tail else args with
  | [] => m.fail 2 s!"{label}: usage: printf format [arg ...]"
  | format :: args =>
    match format.toList with
    | '-' :: c :: _ => m.fail 2 s!"{label}: Illegal option -{c}"
    | _ =>
      let p := Printf.format format args
      let m ← m.writeText 2 (String.join (p.complaints.map fun s => s!"{label}: {s}\n"))
      return (← m.write 1 p.output).finish p.status

/-! ### Conditions -/

def test (m : Machine) (label : String) (args : List String) : Program Machine := do
  match ← (Condition.ofArgs args).holds m.directory with
  | .ok b => return m.finish (if b then 0 else 1)
  | .error message => m.fail 2 s!"{label}: {message}"

/-- The same with a closing bracket. -/
def testBracket (m : Machine) (label : String) (args : List String) : Program Machine :=
  if args.getLast? = some "]" then m.test label args.dropLast
  else m.fail 2 s!"{label}: missing ]"

/-! ### Reading files -/

/-- Takes the whole standard input. -/
def takeInput (m : Machine) : ByteArray × Machine := (m.input, m.setInput .empty)

/-- The content of a file by its name. -/
def readFile (m : Machine) (name : String) : Program (Except FileError ByteArray) :=
  if Condition.isNull name then return .ok .empty else Program.read (m.directory / ⟨name⟩)

/-- The answer to options that a tool does not know. -/
def refuse (m : Machine) (tool : String) (status : Nat) (usage : List String) (message : String) :
    Program Machine :=
  let hint := s!"Try '{tool} --help' for more information."
  m.fail status ("\n".intercalate
    ((if message.isEmpty then [] else [s!"{tool}: {message}"]) ++ usage ++ [hint]))

def catFiles (m : Machine) : List String → Program Machine
  | [] => return m
  | name :: rest => do
    if name = "-" then
      let (content, m) := m.takeInput
      catFiles (← m.write 1 content) rest
    else
      match ← m.readFile name with
      | .ok content => catFiles (← m.write 1 content) rest
      | .error e => catFiles (← m.fail 1 s!"cat: {name}: {e.cause}") rest

/-- Writes files one after another, or else the standard input. -/
def cat (m : Machine) (args : List String) : Program Machine :=
  match ToolArgs.read [⟨'u', "", false⟩] args with
  | .error message => m.refuse "cat" 1 [] message
  | .ok a => catFiles (m.finish 0) (if a.operands.isEmpty then ["-"] else a.operands)

/-- Searches files and gives whether any line was chosen, whether all could be read, what is shown
and the messages. -/
def searchFiles (m : Machine) (a : ToolArgs) (r : Regex) (named : Bool) :
    List String → Program (Machine × Bool × Bool × String × String)
  | [] => return (m, false, true, "", "")
  | name :: rest => do
    let (m, content) ←
      if name = "-" then
        let (content, m) := m.takeInput
        pure (m, Except.ok content)
      else do
        pure (m, ← m.readFile name)
    match content with
    | .error e =>
      let (m, found, _, out, err) ← searchFiles m a r named rest
      let message := if a.has 's' then "" else s!"grep: {name}: {e.cause}\n"
      return (m, found, false, out, message ++ err)
    | .ok content =>
      let cs := (Text.lossy content).toList
      let lines := Search.chosen a r cs
      let called := if name = "-" then "(standard input)" else name
      let (m, found, all, out, err) ← searchFiles m a r named rest
      let message :=
        if Search.isBinary a cs && !lines.isEmpty then s!"grep: {called}: binary file matches\n"
        else ""
      return (m, found || !lines.isEmpty, all, Search.shown a r called named cs lines ++ out,
        message ++ err)

/-- Searches files, or else the standard input, for lines. -/
def grep (m : Machine) (args : List String) : Program Machine := do
  match ToolArgs.read Search.options args with
  | .error message => m.refuse "grep" 2 ["Usage: grep [OPTION]... PATTERNS [FILE]..."] message
  | .ok a =>
    match Search.expression a with
    | .error message =>
      if message.isEmpty then
        m.refuse "grep" 2 ["Usage: grep [OPTION]... PATTERNS [FILE]..."] ""
      else m.fail 2 s!"grep: {message}"
    | .ok (r, files) =>
      let named := (files.length > 1 || a.has 'H') && !a.has 'h'
      let (m, chosen, all, out, err) ←
        m.searchFiles a r named (if files.isEmpty then ["-"] else files)
      let m ← (← m.writeText 2 err).writeText 1 out
      let found := if a.has 'L' then !out.isEmpty else chosen
      return m.finish (if !all && !(a.has 'q' && found) then 2 else if found then 0 else 1)

/-- Counts in files; gives what each name has, or why it cannot be read. -/
def countFiles (m : Machine) : List String →
    Program (Machine × List (String × Option Nat × Except FileError Count.Counts))
  | [] => return (m, [])
  | name :: rest => do
    if name = "-" then
      let size? := m.inputSize?
      let (content, m) := m.takeInput
      let (m, more) ← countFiles m rest
      return (m, (name, size?, .ok (Count.ofContent content)) :: more)
    else
      let counted ←
        match ← m.readFile name with
        | .ok content =>
          let size? := if Condition.isNull name then none else some content.size
          pure (size?, Except.ok (Count.ofContent content))
        | .error .isADirectory => pure (none, Except.error .isADirectory)
        | .error e => pure (some 0, Except.error e)
      let (m, more) ← countFiles m rest
      return (m, (name, counted) :: more)

/-- Counts in files, or else in the standard input. -/
def wc (m : Machine) (args : List String) : Program Machine := do
  match ToolArgs.read Count.options args with
  | .error message => m.refuse "wc" 1 [] message
  | .ok a =>
    let (m, counted) ← m.countFiles (if a.operands.isEmpty then ["-"] else a.operands)
    let width := Count.width a (counted.map fun (_, size?, _) => size?)
    let named (name : String) : Option String := if a.operands.isEmpty then none else some name
    let line (name : String) : Except FileError Count.Counts → String
      | .ok n => Count.line a width n (named name)
      | .error .isADirectory => Count.line a width default (named name)
      | .error _ => ""
    let lines := counted.map fun (name, _, n) => line name n
    let total := counted.foldl (fun t (_, _, n) => Count.add t (n.toOption.getD default)) default
    let failures := counted.filterMap fun (name, _, n) =>
      match n with
      | .ok _ => none
      | .error e => some s!"wc: {name}: {e.cause}\n"
    let m ← m.writeText 2 (String.join failures)
    let last := if counted.length > 1 then [Count.line a width total (some "total")] else []
    let m ← m.writeText 1 (String.join (lines ++ last))
    return m.finish (if failures.isEmpty then 0 else 1)

/-! ### Making directories -/

def makeEach (m : Machine) (parents : Bool) : List String → Program Machine
  | [] => return m
  | name :: rest => do
    let p := m.directory / ⟨name⟩
    match ← if parents then makeDirectories p else Program.makeDirectory p with
    | .ok () => makeEach m parents rest
    | .error e =>
      makeEach (← m.fail 1 s!"mkdir: cannot create directory '{name}': {e.cause}") parents rest

/-- Makes directories, with `-p` also those above them. -/
def mkdir (m : Machine) (args : List String) : Program Machine :=
  match ToolArgs.read [⟨'p', "parents", false⟩] args with
  | .error message => m.refuse "mkdir" 1 [] message
  | .ok a =>
    if a.operands.isEmpty then m.refuse "mkdir" 1 [] "missing operand"
    else makeEach (m.finish 0) (a.has 'p') a.operands

end Machine

/-- The tools that are programs of their own. -/
def programs : List String :=
  ["true", "false", "echo", "printf", "cat", "grep", "wc", "mkdir", "test", "["]

/-- The name of a program without the directories where programs lie. -/
def programName (command : String) : String :=
  if "/usr/bin/".isPrefixOf command then (command.drop 9).toString
  else if "/bin/".isPrefixOf command then (command.drop 5).toString
  else command

/-- Runs a program by its name. -/
def runProgram (m : Machine) (name : String) (args : List String) : Program Machine :=
  match name with
  | "true" => return m.finish 0
  | "false" => return m.finish 1
  | "echo" => m.echoPlain args
  | "printf" => m.printf "printf" args
  | "cat" => m.cat args
  | "grep" => m.grep args
  | "wc" => m.wc args
  | "mkdir" => m.mkdir args
  | "test" => m.test "test" args
  | _ => m.testBracket "[" args

end GqlArtifacts.Shell
