import GqlArtifacts.Shell.Builtins

/-!
# Running scripts

`runScript` runs a list of commands on a machine. The words of a command are expanded to fields, its
redirections are opened, and its name tells what it does. The commands of a pipeline and those in
parentheses run in processes of their own.

`fuel` bounds the nesting and the rounds of a script. A script that takes more ends there.
-/

namespace GqlArtifacts.Shell

open Files

/-- Drops the newlines at the end. -/
def trimNewlines (s : String) : String :=
  String.ofList ((s.toList.reverse.dropWhile (· == '\n')).reverse)

/-- Why the file of a redirection cannot be opened. -/
def cannot (action name : String) (missing : String) : FileError → String
  | .notFound => s!"cannot {action} {name}: {missing}"
  | .notADirectory => s!"cannot {action} {name}: {missing}"
  | e => s!"cannot {action} {name}: {e.cause}"

namespace Machine

/-- Opens a file for reading. What a directory holds cannot be read. -/
def openSource (m : Machine) (name : String) : Program (Except String (Port × Machine)) := do
  match ← m.readFile name with
  | .ok content =>
    if Condition.isNull name then return .ok (.null, m)
    else
      let (id, m) := m.openChannel content
      return .ok (.source id, m)
  | .error .isADirectory => return .ok (.null, m)
  | .error e => return .error (cannot "open" name "No such file" e)

/-- Opens a file for writing: it is made, and emptied unless the output is added to it. -/
def openSink (m : Machine) (append : Bool) (name : String) : Program (Except String Port) := do
  if Condition.isNull name then return .ok .null
  else
    let p := m.directory / ⟨name⟩
    let kept ← if append then Program.read p else pure (.ok .empty)
    match ← Program.write p (kept.toOption.getD .empty) with
    | .ok () => return .ok (.file p)
    | .error e => return .error (cannot "create" name "Directory nonexistent" e)

/-- Makes a stream the same as the one that a digit names, or closes it. The flag says whether this
could be done. -/
def duplicate (m : Machine) (stream : Nat) (target : String) : Program (Machine × Bool) := do
  match target.toList with
  | ['-'] => return (m.closePort stream, true)
  | [c] =>
    match c.isDigit, m.port? (c.toNat - 48) with
    | true, some p => return (m.setPort stream p, true)
    | true, none => return ((← m.complain s!"{c}: Bad file descriptor").finish 2, false)
    | false, _ => return (← m.abort "Syntax error: Bad fd number", false)
  | _ => return (← m.abort "Syntax error: Bad fd number", false)

/-- The answer to a name that no command has. A file is no program. -/
def refuseName (m : Machine) (name : String) : Program Machine := do
  let found ←
    if name.toList.contains '/' then Program.exists? (m.directory / ⟨name⟩) else pure false
  if name.isEmpty then return (← m.complain s!"{name}: Permission denied").finish 127
  else if found then return (← m.complain s!"{name}: Permission denied").finish 126
  else return (← m.complain s!"{name}: not found").finish 127

/-- How a loop goes on after a round: the flow as the commands after the loop see it, and whether
there is a further round. -/
def afterRound (m : Machine) : Machine × Bool :=
  match m.flow with
  | .next => (m, true)
  | .breaking n => ({ m with flow := if n ≤ 1 then .next else .breaking (n - 1) }, false)
  | .continuing n =>
    if n ≤ 1 then ({ m with flow := .next }, true)
    else ({ m with flow := .continuing (n - 1) }, false)
  | .returning => (m, false)
  | .exiting => (m, false)

/-- Ends the shell after a failure, if it is asked to. -/
def checkFailure (m : Machine) (tested : Bool) : Machine :=
  if m.exitOnFailure && !tested && m.status != 0 && m.running then { m with flow := .exiting }
  else m

/-- Shows a command before it is run, if the shell is asked to. -/
def traceCommand (m : Machine) (assignments : List (String × String)) (fields : List String) :
    Program Machine :=
  if m.trace then
    let shown := assignments.map (fun (name, value) => s!"{name}={value}") ++ fields
    m.writeText 2 ("+ " ++ " ".intercalate shown ++ "\n")
  else return m

/-- A shell that is started by a script: it shares nothing but the streams, the directory and the
variables that are passed on. -/
def startShell (m : Machine) (name : String) : Machine :=
  { start name m.passedOn m.directory .empty with
    ports := m.ports
    channels := m.channels }

end Machine

/-- How many functions can be running inside one another. -/
def depthLimit : Nat := 1000

/-- What the arguments of a shell ask for. -/
inductive Source.Origin where
  | text (s : String)
  | file (name : String)
  | input

/-- The machine that the arguments of a shell ask for, and where its script is. -/
def Machine.configure (m : Machine) (args : List String) :
    Except String (Machine × Source.Origin) := do
  let isText (arg : String) : Bool :=
    match arg.toList with
    | '-' :: c :: cs => (c :: cs).contains 'c' && c != '-'
    | _ => false
  let isInput (arg : String) : Bool := arg == "-s"
  let options := args.takeWhile fun arg => arg.toList.head? = some '-' ∧ arg ≠ "--" ∧ arg ≠ "-"
  let others := args.drop options.length
  let plain := (options ++ others).map fun arg =>
    if isText arg then String.ofList (arg.toList.filter (· != 'c')) else arg
  let (m, operands, _) ← m.readOptions (plain.filter fun arg => arg != "-" && arg != "-s")
  if options.any isText then
    match operands with
    | [] => .error "-c requires an argument"
    | [text] => return (m, .text text)
    | text :: name :: rest => return ({ m with name, arguments := rest }, .text text)
  else
    match operands with
    | [] => return (m, .input)
    | file :: rest =>
      if options.any isInput then return ({ m with arguments := operands }, .input)
      else return ({ m with name := file, arguments := rest }, .file file)

mutual

/-- Puts in the segments of a word. With `split`, what is put in without quotes is cut into fields;
`inner` words stand for such a part themselves. -/
def expand : (fuel : Nat) → Machine → (split inner : Bool) → Fields → Word →
    Program (Machine × Fields)
  | 0, m, _, _, f, _ => return (m, f)
  | _, m, _, _, f, [] => return (m, f)
  | fuel + 1, m, split, inner, f, seg :: rest => do
    if !m.running then return (m, f)
    else
      let put (quoted : Bool) (s : String) : Fields :=
        if quoted || !split then f.add (.ofString quoted s) else f.addSplit m.separators [s]
      match seg with
      | .text quoted s =>
        let f := if inner && !quoted then put false s else f.add (.ofString quoted s)
        expand fuel m split inner f rest
      | .parameter quoted name use =>
        let (m, f) ← expandParameter fuel m split quoted f name use
        expand fuel m split inner f rest
      | .arithmetic quoted expression =>
        let (m, text) ← expandText fuel m expression
        match Arithmetic.compute text m.lookup? with
        | .error e => return (← m.abort (e.message text), f)
        | .ok (n, settings) =>
          let m ← m.assignAll (settings.map fun (name, n) => (name, toString n))
          expand fuel m split inner (put quoted (toString n)) rest
      | .output quoted body =>
        let (m, s) ← captureOutput fuel m body
        expand fuel m split inner (put quoted s) rest

/-- Puts in a parameter. -/
def expandParameter : (fuel : Nat) → Machine → (split quoted : Bool) → Fields → (name : String) →
    Use → Program (Machine × Fields)
  | 0, m, _, _, f, _, _ => return (m, f)
  | fuel + 1, m, split, quoted, f, name, use => do
    let value? := m.parameter? name
    let isList := name = "@" ∨ name = "*"
    let put (m : Machine) (f : Fields) (s : String) : Fields :=
      if quoted || !split then f.add (.ofString quoted s) else f.addSplit m.separators [s]
    let putValue (m : Machine) (s : String) : Fields :=
      if isList ∧ split ∧ !quoted then f.addSplit m.separators m.arguments
      else if name = "@" ∧ split then f.addAll m.arguments
      else put m f s
    let isSet (filled : Bool) : Bool :=
      match value? with
      | some s => !filled || !s.isEmpty
      | none => false
    let missing : Program (Machine × Fields) := do
      return (← m.abort s!"{name}: parameter not set", f)
    match use with
    | .malformed => return (← m.abort "Bad substitution", f)
    | .value =>
      match value? with
      | some s => return (m, putValue m s)
      | none =>
        if isList then return (m, if quoted && name = "*" then put m f "" else f)
        else if m.refuseUnset then missing
        else return (m, put m f "")
    | .length =>
      if value?.isNone && m.refuseUnset && !isList then missing
      else return (m, put m f (toString (value?.getD "").utf8ByteSize))
    | .default filled word =>
      if isSet filled then return (m, putValue m (value?.getD ""))
      else expand fuel m split true (if quoted then f.add [] else f) word
    | .alternative filled word =>
      if isSet filled then expand fuel m split true (if quoted then f.add [] else f) word
      else return (m, if quoted then f.add [] else f)
    | .assign filled word =>
      if isSet filled then return (m, putValue m (value?.getD ""))
      else
        let (m, s) ← expandText fuel m word
        let m ← if m.running then m.assign name s else pure m
        return (m, put m f s)
    | .require filled word =>
      if isSet filled then return (m, putValue m (value?.getD ""))
      else
        let (m, s) ← expandText fuel m word
        let reason :=
          if !word.isEmpty then s
          else if filled then "parameter not set or null"
          else "parameter not set"
        return (← m.abort s!"{name}: {reason}", f)
    | .trim how word =>
      if value?.isNone && m.refuseUnset && !isList then missing
      else
        let (m, pattern) ← expandMarked fuel m word
        return (m, put m f (trim how pattern (value?.getD "")))

/-- What a word gives in one piece. -/
def expandMarked : (fuel : Nat) → Machine → Word → Program (Machine × Marked)
  | 0, m, _ => return (m, [])
  | fuel + 1, m, w => do
    let (m, f) ← expand fuel m false false .empty (expandHome m w)
    return (m, f.joined)

def expandText : (fuel : Nat) → Machine → Word → Program (Machine × String)
  | 0, m, _ => return (m, "")
  | fuel + 1, m, w => do
    let (m, t) ← expandMarked fuel m w
    return (m, t.text)

/-- Puts in the home directory for a tilde at the front. -/
def expandHome (m : Machine) (w : Word) : Word :=
  match w with
  | .text false s :: rest =>
    match s.toList, m.lookup? "HOME" with
    | '~' :: r, some home =>
      if r.head? = some '/' ∨ (r.isEmpty ∧ rest.isEmpty) then
        .text true home :: .text false (String.ofList r) :: rest
      else w
    | _, _ => w
  | _ => w

/-- The fields of words. -/
def expandFields : (fuel : Nat) → Machine → List Word → Program (Machine × List String)
  | 0, m, _ => return (m, [])
  | _, m, [] => return (m, [])
  | fuel + 1, m, w :: ws => do
    let (m, f) ← expand fuel m true false .empty (expandHome m w)
    if !m.running then return (m, [])
    else
      let found ← f.toList.mapM fun t =>
        if m.literalPatterns then pure [t.text] else expandFiles m.directory t
      let (m, rest) ← expandFields fuel m ws
      return (m, found.flatten ++ rest)

def expandAssignments : (fuel : Nat) → Machine → List (String × Word) →
    Program (Machine × List (String × String))
  | 0, m, _ => return (m, [])
  | _, m, [] => return (m, [])
  | fuel + 1, m, (name, w) :: rest => do
    let (m, value) ← expandText fuel m w
    let m ← if m.running then m.assign name value else pure m
    if !m.running then return (m, [])
    else
      let (m, rest) ← expandAssignments fuel m rest
      return (m, (name, value) :: rest)

/-- Runs a script in a process of its own and gives what it writes. -/
def captureOutput : (fuel : Nat) → Machine → Script → Program (Machine × String)
  | 0, m, _ => return (m, "")
  | fuel + 1, m, body => do
    let (id, m) := m.openChannel .empty
    let child := (m.fork).setPort 1 (.channel id)
    let child ← finishProcess fuel (← runScript fuel child false body)
    let joined := m.join child
    let s := trimNewlines (Text.lossy (joined.channel id))
    let m := { m with
      outputStatus := joined.status
      channels := joined.channels.setIfInBounds id .empty }
    return (m, String.ofList (s.toList.filter (· != '\x00')))

/-- Opens redirections in order; the flag says whether all could be opened. -/
def redirect : (fuel : Nat) → Machine → List Redirect → Program (Machine × Bool)
  | 0, m, _ => return (m, false)
  | _, m, [] => return (m, true)
  | fuel + 1, m, r :: rest => do
    let refuse (m : Machine) (message : String) : Program (Machine × Bool) := do
      return ((← m.complain message).finish 2, false)
    match r with
    | .file stream .read w =>
      let (m, name) ← expandText fuel m w
      if !m.running then return (m, false)
      else
        match ← m.openSource name with
        | .error message => refuse m message
        | .ok (p, m) => redirect fuel (m.setPort stream p) rest
    | .file stream mode w =>
      let (m, name) ← expandText fuel m w
      if !m.running then return (m, false)
      else
        match ← m.openSink (mode = .append) name with
        | .error message => refuse m message
        | .ok p => redirect fuel (m.setPort stream p) rest
    | .duplicate stream w =>
      let (m, target) ← expandText fuel m w
      if !m.running then return (m, false)
      else
        let (m, done) ← m.duplicate stream target
        if done then redirect fuel m rest else return (m, false)
    | .document stream body =>
      let (after, text) ← expandText fuel m body
      if !after.running then return ({ after with flow := m.flow }, false)
      else
        let (id, m) := after.openChannel text.toUTF8
        redirect fuel (m.setPort stream (.channel id)) rest

/-- Runs a command; in a `tested` place a failure does not end the shell. -/
def runCommand : (fuel : Nat) → Machine → (tested : Bool) → Command → Program Machine
  | 0, m, _, _ => return m
  | fuel + 1, m, tested, c => do
    match c with
    | .simple line assignments words redirects =>
      let m ← runSimple fuel { m with line, outputStatus := 0 } tested assignments words redirects
      return m.checkFailure tested
    | .group body => runScript fuel m tested body
    | .subshell body =>
      let child ← finishProcess fuel (← runScript fuel m.fork tested body)
      return (m.join child).checkFailure tested
    | .branch condition body otherwise =>
      let m ← runScript fuel m true condition
      if !m.running then return m
      else if m.status = 0 then runScript fuel m tested body
      else if otherwise.isEmpty then return m.finish 0
      else runScript fuel m tested otherwise
    | .loop untilSuccess condition body =>
      let after ← runLoop fuel { m with loops := m.loops + 1 } tested untilSuccess condition body 0
      return { after with loops := m.loops }
    | .forEach line name words body =>
      let (m, values) ← expandFields fuel { m with line } words
      if !m.running then return m
      else
        let m := if values.isEmpty then m.finish 0 else m
        let after ← runEach fuel { m with loops := m.loops + 1 } tested name values body
        return { after with loops := m.loops }
    | .choose line word cases =>
      let (m, t) ← expandMarked fuel { m with line } word
      if m.running then runCases fuel m tested t.text cases else return m
    | .function name body =>
      return { m.finish 0 with
        functions := (name, body) :: m.functions.filter (·.1 != name) }
    | .redirected line c redirects =>
      let (opened, all) ← redirect fuel { m with line } redirects
      if !all then return { opened with ports := m.ports }.checkFailure tested
      else
        let after ← runCommand fuel opened tested c
        return { after with ports := m.ports }

/-- Runs a simple command. -/
def runSimple : (fuel : Nat) → Machine → (tested : Bool) → List (String × Word) → List Word →
    List Redirect → Program Machine
  | 0, m, _, _, _, _ => return m
  | fuel + 1, m, tested, assignments, words, redirects => do
    let (m, fields) ← expandFields fuel m words
    if !m.running then return m
    else
      let (opened, all) ← redirect fuel m redirects
      let restore (after : Machine) : Machine := { after with ports := m.ports }
      if !opened.running then return restore opened
      else
        match fields with
        | [] =>
          if !all then return restore opened
          else
            let (after, values) ← expandAssignments fuel opened assignments
            if !after.running then return restore after
            else (restore after).finish after.outputStatus |>.traceCommand values []
        | name :: args =>
          let meaning := m.meaningOf name
          let isSpecial := match meaning with
            | .special => true
            | _ => false
          if !all then
            return restore (if isSpecial then opened.halt else opened)
          else
            let isFrame := !isSpecial && !assignments.isEmpty
            let framed := { opened with
              replaced := if isFrame then [] :: opened.replaced else opened.replaced }
            let framed :=
              if isFrame then assignments.foldl (fun m (name, _) => m.makeLocal name) framed
              else framed
            let exported := framed.exported
            let (ready, values) ← expandAssignments fuel framed assignments
            if !ready.running then return restore ready
            else
              let ready ← if m.trace then do
                  let shown ← { ready with ports := m.ports }.traceCommand values fields
                  pure { shown with ports := ready.ports }
                else pure ready
              let ready := assignments.foldl (fun m (name, _) => m.markExported name) ready
              let ready := if isSpecial then { ready with exported } else ready
              let after ← runMeaning fuel ready tested meaning name args
              let after := if isFrame then { after.restoreLocals with exported } else after
              let keeps := name = "exec" ∧ args.isEmpty ∧ isSpecial
              return if keeps then after else restore after

/-- Runs what the name of a command stands for. -/
def runMeaning : (fuel : Nat) → Machine → (tested : Bool) → Machine.Meaning → (name : String) →
    List String → Program Machine
  | 0, m, _, _, _, _ => return m
  | fuel + 1, m, tested, meaning, name, args => do
    match meaning with
    | .special =>
      match name with
      | "eval" =>
        let saved := m.within?
        let text := " ".intercalate args
        let after ← runText fuel { m with within? := some "eval" } tested text
        return { after with within? := saved }
      | "." => runFile fuel m args
      | "exec" =>
        match args with
        | [] => return m.finish 0
        | name :: args =>
          match m.program? name with
          | some tool =>
            let after ← runTool fuel m tool args
            return { after with flow := .exiting, exitTrap? := none }
          | none =>
            let after ← { m with within? := some "exec" }.refuseName name
            return { after with within? := m.within?, flow := .exiting }
      | name => m.runSpecial name args
    | .function body =>
      if depthLimit ≤ m.replaced.length then
        m.abort s!"Maximum function recursion depth ({depthLimit}) reached"
      else
        let called := { m with arguments := args, replaced := [] :: m.replaced, loops := 0 }
        let after ← runCommand fuel called tested body
        let after := after.restoreLocals
        return { after with
          arguments := m.arguments
          loops := m.loops
          flow := if after.flow = .returning then .next else after.flow }
    | .builtin =>
      if name = "command" then
        match args.dropWhile (· == "-p") with
        | [] => return m.finish 0
        | "-v" :: names => m.describeAll false (names.take 1)
        | "-V" :: names => m.describeAll true (names.take 1)
        | name :: args =>
          let meaning := { m with functions := [] }.meaningOf name
          runMeaning fuel m tested meaning name args
      else m.runBuiltin name args
    | .program tool => runTool fuel m tool args
    | .unknown => m.refuseName name

/-- Runs a program, which may be a shell. -/
def runTool : (fuel : Nat) → Machine → (tool : String) → List String → Program Machine
  | 0, m, _, _ => return m
  | fuel + 1, m, tool, args => do
    if tool = "sh" then
      let child ← runShell fuel (m.startShell "sh") args
      return m.join child
    else runProgram m tool args

/-- Runs a shell on its arguments. -/
def runShell : (fuel : Nat) → Machine → List String → Program Machine
  | 0, m, _ => return m
  | fuel + 1, m, args => do
    match m.configure args with
    | .error message => return (← { m with line := 0 }.complain message).halt
    | .ok (m, origin) =>
      let text ←
        match origin with
        | .text s => pure (Except.ok (m, s))
        | .input =>
          let (content, m) := m.takeInput
          pure (Except.ok (m, Text.lossy content))
        | .file name =>
          match ← m.readFile name with
          | .ok content => pure (Except.ok (m, Text.lossy content))
          | .error .isADirectory => pure (Except.ok (m, ""))
          | .error e => pure (Except.error (cannot "open" name "No such file" e))
      match text with
      | .error message => return (← { m with name := "sh", line := 0 }.complain message).halt
      | .ok (m, s) => finishProcess fuel (← runText fuel m false s)

/-- Runs the commands of a file in the shell itself. -/
def runFile : (fuel : Nat) → Machine → List String → Program Machine
  | 0, m, _ => return m
  | fuel + 1, m, args => do
    match args with
    | [] => return m.finish 0
    | name :: _ =>
      if !name.toList.contains '/' then m.abortCommand "." s!"{name}: not found"
      else
        match ← m.readFile name with
        | .error e => m.abortCommand "." (cannot "open" name "No such file" e)
        | .ok content =>
          let saved := m.within?
          let after ← runText fuel { m with within? := some name } false (Text.lossy content)
          return { after with
            within? := saved
            flow := if after.flow = .returning then .next else after.flow }

/-- Runs the trap of a process that has come to its end. -/
def finishProcess : (fuel : Nat) → Machine → Program Machine
  | 0, m => return m
  | fuel + 1, m => do
    match m.exitTrap? with
    | none => return m
    | some action =>
      let trapped := { m with exitTrap? := none, flow := .next }
      let after ← runText fuel trapped true action
      return if after.flow = .exiting then after else { after with status := m.status }

/-- Runs the text of a script line by line. -/
def runText : (fuel : Nat) → Machine → (tested : Bool) → String → Program Machine
  | 0, m, _, _ => return m
  | fuel + 1, m, tested, text =>
    runLines fuel m tested (Source.ofChars 1 text.toList) false

/-- Runs the lines of a script; the flag says whether a command of it has run. -/
def runLines : (fuel : Nat) → Machine → (tested : Bool) → Source → (ran : Bool) → Program Machine
  | 0, m, _, _, _ => return m
  | fuel + 1, m, tested, s, ran => do
    match readLine? s with
    | .error (line, message) => return (← { m with line }.complain message).halt
    | .ok none => return if ran then m else m.finish 0
    | .ok (some ([], s)) => runLines fuel m tested s ran
    | .ok (some (script, s)) =>
      let m ← runScript fuel m tested script
      if m.running then runLines fuel m tested s true else return m

/-- Runs a loop; `status` is that of the last round. -/
def runLoop : (fuel : Nat) → Machine → (tested untilSuccess : Bool) → Script → Script →
    (status : Nat) → Program Machine
  | 0, m, _, _, _, _, _ => return m
  | fuel + 1, m, tested, untilSuccess, condition, body, status => do
    let m ← runScript fuel m true condition
    if !m.running then
      let (m, more) := m.afterRound
      if more then runLoop fuel m tested untilSuccess condition body status
      else return if m.flow = .next then m.finish status else m
    else if (m.status = 0) = untilSuccess then return m.finish status
    else
      let (m, more) := (← runScript fuel m tested body).afterRound
      if more then runLoop fuel m tested untilSuccess condition body m.status else return m

/-- Runs a body once for each value. -/
def runEach : (fuel : Nat) → Machine → (tested : Bool) → String → List String → Script →
    Program Machine
  | 0, m, _, _, _, _ => return m
  | _, m, _, _, [], _ => return m
  | fuel + 1, m, tested, name, value :: values, body => do
    let m ← m.assign name value
    if !m.running then return m
    else
      let (m, more) := (← runScript fuel m tested body).afterRound
      if more then runEach fuel m tested name values body else return m

/-- Runs the first of the cases with a pattern that fits. -/
def runCases : (fuel : Nat) → Machine → (tested : Bool) → String → List Case → Program Machine
  | 0, m, _, _, _ => return m
  | _, m, _, _, [] => return m.finish 0
  | fuel + 1, m, tested, value, .mk patterns body :: rest => do
    let (m, fits) ← anyFits fuel m value patterns
    if !m.running then return m
    else if fits then runScript fuel (if body.isEmpty then m.finish 0 else m) tested body
    else runCases fuel m tested value rest

def anyFits : (fuel : Nat) → Machine → String → List Word → Program (Machine × Bool)
  | 0, m, _, _ => return (m, false)
  | _, m, _, [] => return (m, false)
  | fuel + 1, m, value, w :: ws => do
    let (m, pattern) ← expandMarked fuel m w
    if !m.running then return (m, false)
    else if pattern.fits value then return (m, true)
    else anyFits fuel m value ws

/-- Runs the commands of a pipeline, each on the output of the one before it. -/
def runPipeline : (fuel : Nat) → Machine → (tested : Bool) → (input? : Option Port) →
    List Command → Program Machine
  | 0, m, _, _, _ => return m
  | _, m, _, _, [] => return m
  | fuel + 1, m, tested, input?, c :: rest => do
    let child := m.fork
    let child :=
      match input? with
      | some p => child.setPort 0 p
      | none => child
    if rest.isEmpty then
      return m.join (← finishProcess fuel (← runCommand fuel child tested c))
    else
      let (id, child) := child.openChannel .empty
      let child := child.setPort 1 (.channel id)
      let child ← finishProcess fuel (← runCommand fuel child tested c)
      runPipeline fuel { m with channels := child.channels } tested (some (.channel id)) rest

/-- Runs the steps of a script as long as its flow goes on. -/
def runScript : (fuel : Nat) → Machine → (tested : Bool) → Script → Program Machine
  | 0, m, _, _ => return m
  | _, m, _, [] => return m
  | fuel + 1, m, tested, .mk join negated background commands :: rest => do
    let due :=
      match join with
      | .always => true
      | .onSuccess => m.status == 0
      | .onFailure => m.status != 0
    let joined :=
      match rest with
      | .mk .always _ _ _ :: _ => false
      | [] => false
      | _ => true
    let shielded := tested || negated || joined
    if !due then runScript fuel m tested rest
    else if background then
      let child ← runPipeline fuel m tested (some .null) commands
      runScript fuel { m with status := 0, channels := child.channels } tested rest
    else
      let m ←
        match commands with
        | [c] => runCommand fuel m shielded c
        | cs => do pure ((← runPipeline fuel m shielded none cs).checkFailure shielded)
      if !m.running then return m
      else
        let m := if negated then m.finish (if m.status = 0 then 1 else 0) else m
        runScript fuel m tested rest

end

/-- The bound on a script. -/
def fuelLimit : Nat := 1000000

end GqlArtifacts.Shell
