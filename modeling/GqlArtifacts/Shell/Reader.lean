import GqlArtifacts.Shell.Source

/-!
# Reading shell scripts

`Shell.readLine` reads one line of commands, which may run on where a compound command is open, so
that a script can be run while it is read. Words end at blanks, newlines and the operator
characters; a character may be quoted by a backslash, single quotes quote all and double quotes all
but dollar signs, backquotes and backslashes. The words of the compound commands count only where a
command starts.
-/

namespace GqlArtifacts.Shell

open Source

/-- Where segments stand, which decides what is quoted and what ends them. -/
inductive Mode where
  | bare
  | quoted
  /-- Between braces after the name of a parameter. -/
  | braces (quoted : Bool)
  | arithmetic (depth : Nat)
  | document
deriving DecidableEq

def Mode.isQuoted : Mode → Bool
  | bare => false
  | braces q => q
  | _ => true

/-- The characters that a backslash quotes; it stands for itself before all others. -/
def Mode.escapable : Mode → Option (List Char)
  | bare => none
  | braces false => none
  | braces true => some ['$', '`', '"', '\\', '\x7d']
  | document => some ['$', '`', '\\']
  | _ => some ['$', '`', '"', '\\']

/-- The parameters with a sign for a name. -/
def isSpecial (c : Char) : Bool :=
  c == '?' || c == '#' || c == '@' || c == '*' || c == '$' || c == '!' || c == '-'

/-- Puts texts that stand side by side together. -/
def merge : Word → Word
  | .text q s :: rest =>
    match merge rest with
    | .text q' s' :: rest =>
      if q = q' then .text q (s ++ s') :: rest else .text q s :: .text q' s' :: rest
    | rest => .text q s :: rest
  | seg :: rest => seg :: merge rest
  | [] => []

/-- The text of a word without any quotes and parameters. -/
def plain? : Word → Option String
  | [.text false s] => some s
  | _ => none

/-- The text of the delimiter of a here-document, and whether a part of it is quoted. -/
def delimiterOf (w : Word) : List Char × Bool :=
  (w.flatMap fun
    | .text _ s => s.toList
    | _ => [], w.any fun
    | .text q _ => q
    | _ => false)

/-- The body of a backquoted command: a backslash quotes some characters in it. -/
def unquoteBackquoted (quoted : Bool) : List Char → List Char
  | '\\' :: c :: r =>
    if c = '$' ∨ c = '`' ∨ c = '\\' ∨ (quoted ∧ c = '"') then c :: unquoteBackquoted quoted r
    else '\\' :: c :: unquoteBackquoted quoted r
  | c :: r => c :: unquoteBackquoted quoted r
  | [] => []

/-- The length of a text up to a backquote that no backslash quotes. -/
def backquotedLength? : List Char → Option Nat
  | '`' :: _ => some 0
  | '\\' :: _ :: r => (backquotedLength? r).map (· + 2)
  | _ :: r => (backquotedLength? r).map (· + 1)
  | [] => none

def reservedWords : List String :=
  ["!", "case", "do", "done", "elif", "else", "esac", "fi", "for", "if", "in", "then", "until",
    "while", "\x7b", "\x7d"]

/-- The reserved word that a token is. -/
def Token.reserved? : Token → Option String
  | word w => (plain? w).filter reservedWords.contains
  | _ => none

/-- Tokens that end a list of commands. -/
def Token.endsList (t : Token) : Bool :=
  match t with
  | endOfText => true
  | operator s => s == ")" || s == ";;"
  | word _ =>
    match t.reserved? with
    | some w => ["then", "else", "elif", "fi", "do", "done", "esac", "\x7d"].contains w
    | none => false
  | _ => false

/-- What a token is called in a message. -/
def Token.describe (t : Token) : String :=
  match t with
  | endOfText => "end of file"
  | newline => "newline"
  | operator s => s!"\"{s}\""
  | redirect _ _ => "redirection"
  | word _ =>
    match t.reserved? with
    | some w => s!"\"{w}\""
    | none => "word"

def unexpected {α : Type} (t : Token) (expected : Option String) : ReadM α :=
  fail (s!"Syntax error: {t.describe} unexpected" ++
    (match expected with
      | some e => s!" (expecting {e})"
      | none => ""))

/-- The word after the name and the equals sign of an assignment. -/
def assignment? : Word → Option (String × Word)
  | .text false s :: rest =>
    let name := String.ofList (s.toList.takeWhile (· != '='))
    match s.toList.dropWhile (· != '=') with
    | _ :: value =>
      if isName name then
        some (name, if value.isEmpty then rest else .text false (String.ofList value) :: rest)
      else none
    | [] => none
  | _ => none

/-- The commands whose names no function may take. -/
def specialBuiltins : List String :=
  [".", ":", "break", "continue", "eval", "exec", "exit", "export", "local", "readonly", "return",
    "set", "shift", "times", "trap", "unset"]

/-- Reads an operator that is no redirection. -/
def readOperator? : List Char → Option (Token × Nat)
  | '&' :: '&' :: _ => some (.operator "&&", 2)
  | '&' :: _ => some (.operator "&", 1)
  | '|' :: '|' :: _ => some (.operator "||", 2)
  | '|' :: _ => some (.operator "|", 1)
  | ';' :: ';' :: _ => some (.operator ";;", 2)
  | ';' :: _ => some (.operator ";", 1)
  | '(' :: _ => some (.operator "(", 1)
  | ')' :: _ => some (.operator ")", 1)
  | _ => none

/-- Reads the sign of a redirection: the stream that it is for by itself, the sign and its
length. -/
def readSign? : List Char → Option (Nat × String × Nat)
  | '<' :: '<' :: '-' :: _ => some (0, "<<-", 3)
  | '<' :: '<' :: _ => some (0, "<<", 2)
  | '<' :: '&' :: _ => some (0, "<&", 2)
  | '<' :: '>' :: _ => some (0, "<>", 2)
  | '<' :: _ => some (0, "<", 1)
  | '>' :: '>' :: _ => some (1, ">>", 2)
  | '>' :: '&' :: _ => some (1, ">&", 2)
  | '>' :: '|' :: _ => some (1, ">|", 2)
  | '>' :: _ => some (1, ">", 1)
  | _ => none

def tooLong {α : Type} : ReadM α := fail "Syntax error: script too long"

mutual

/-- Reads segments up to what ends them in their mode. -/
def readSegments : (fuel : Nat) → Mode → ReadM Word
  | 0, _ => tooLong
  | fuel + 1, mode => do
    let s ← get
    match s.rest with
    | [] =>
      match mode with
      | .quoted => fail "Syntax error: Unterminated quoted string"
      | .braces true => fail "Syntax error: Unterminated quoted string"
      | .braces false => fail "Syntax error: Missing '\x7d'"
      | .arithmetic _ => fail "Syntax error: Missing '))'"
      | _ => return []
    | '\\' :: '\n' :: _ =>
      set (s.skip 2)
      readSegments fuel mode
    | ['\\'] =>
      set (s.skip 1)
      return .text true "\\" :: (← readSegments fuel mode)
    | '\\' :: c :: _ =>
      set (s.skip 2)
      let kept :=
        match mode.escapable with
        | none => [c]
        | some cs => if cs.contains c then [c] else ['\\', c]
      return .text true (String.ofList kept) :: (← readSegments fuel mode)
    | '$' :: _ =>
      set (s.skip 1)
      let seg ← readDollar fuel mode
      return seg :: (← readSegments fuel mode)
    | '`' :: r =>
      match backquotedLength? r with
      | none =>
        set (s.skip s.rest.length)
        fail "Syntax error: EOF in backquote substitution"
      | some n =>
        let inner := unquoteBackquoted (mode = .quoted) (r.take n)
        set (Source.ofChars s.line inner)
        let body ← readList fuel true
        let t ← readToken fuel
        match t with
        | .endOfText => pure ()
        | t => unexpected t none
        set (s.skip (n + 2))
        return .output mode.isQuoted body :: (← readSegments fuel mode)
    | '"' :: _ =>
      match mode with
      | .quoted =>
        set (s.skip 1)
        return []
      | .document =>
        set (s.skip 1)
        return .text true "\"" :: (← readSegments fuel mode)
      | .arithmetic _ =>
        set (s.skip 1)
        readSegments fuel mode
      | _ =>
        set (s.skip 1)
        let inner ← readSegments fuel .quoted
        let inner := if inner.isEmpty then [.text true ""] else inner
        return inner ++ (← readSegments fuel mode)
    | c :: r =>
      let plainChar (mode : Mode) : ReadM Word := do
        set (s.skip 1)
        return .text mode.isQuoted c.toString :: (← readSegments fuel mode)
      if c = '\'' then
        if mode.isQuoted then plainChar mode
        else
          let inner := r.takeWhile (· != '\'')
          if inner.length = r.length then
            set (s.skip s.rest.length)
            fail "Syntax error: Unterminated quoted string"
          else
            set (s.skip (inner.length + 2))
            return .text true (String.ofList inner) :: (← readSegments fuel mode)
      else
        match mode with
        | .bare => if isOperator c then return [] else plainChar mode
        | .braces _ =>
          if c = '\x7d' then
            set (s.skip 1)
            return []
          else plainChar mode
        | .arithmetic depth =>
          if c = '(' then plainChar (.arithmetic (depth + 1))
          else if c = ')' then
            if 0 < depth then plainChar (.arithmetic (depth - 1))
            else if r.head? = some ')' then
              set (s.skip 2)
              return []
            else plainChar mode
          else plainChar mode
        | _ => plainChar mode

/-- Reads what a dollar sign puts in; a sign that puts in nothing stands for itself. -/
def readDollar : (fuel : Nat) → Mode → ReadM Segment
  | 0, _ => tooLong
  | fuel + 1, mode => do
    let s ← get
    let quoted := mode.isQuoted
    match s.rest with
    | '(' :: '(' :: _ =>
      set (s.skip 2)
      return .arithmetic quoted (merge (← readSegments fuel (.arithmetic 0)))
    | '(' :: _ =>
      set (s.skip 1)
      let body ← readList fuel true
      match ← readToken fuel with
      | .operator ")" => return .output quoted body
      | t => unexpected t (some "\")\"")
    | '\x7b' :: _ =>
      set (s.skip 1)
      readBraces fuel mode
    | c :: r =>
      if isNameStart c then
        let name := (c :: r).takeWhile isNameChar
        set (s.skip name.length)
        return .parameter quoted (String.ofList name) .value
      else if isDigit c || isSpecial c then
        set (s.skip 1)
        return .parameter quoted c.toString .value
      else return .text quoted "$"
    | [] => return .text quoted "$"

/-- Reads a parameter in braces after the opening one. -/
def readBraces : (fuel : Nat) → Mode → ReadM Segment
  | 0, _ => tooLong
  | fuel + 1, mode => do
    let s ← get
    let quoted := mode.isQuoted
    let nameOf (cs : List Char) : List Char :=
      match cs with
      | c :: r =>
        if isNameStart c then (c :: r).takeWhile isNameChar
        else if isDigit c then (c :: r).takeWhile isDigit
        else if isSpecial c then [c]
        else []
      | [] => []
    let lengthOf? : Option (List Char) :=
      match s.rest with
      | '#' :: r =>
        let name := nameOf r
        if !name.isEmpty && (r.drop name.length).head? == some '\x7d' then some name else none
      | _ => none
    match lengthOf? with
    | some name =>
      set (s.skip (name.length + 2))
      return .parameter quoted (String.ofList name) .length
    | none =>
      let name := nameOf s.rest
      set (s.skip name.length)
      let s ← get
      let word (n : Nat) : ReadM Word := do
        set (s.skip n)
        return merge (← readSegments fuel (.braces quoted))
      let pattern (n : Nat) : ReadM Word := do
        set (s.skip n)
        return merge (← readSegments fuel (.braces false))
      let use : Use ← do
        if name.isEmpty then
          let _ ← word 0
          pure .malformed
        else
          match s.rest with
          | '\x7d' :: _ =>
            set (s.skip 1)
            pure .value
          | ':' :: '-' :: _ => pure (.default true (← word 2))
          | '-' :: _ => pure (.default false (← word 1))
          | ':' :: '=' :: _ => pure (.assign true (← word 2))
          | '=' :: _ => pure (.assign false (← word 1))
          | ':' :: '?' :: _ => pure (.require true (← word 2))
          | '?' :: _ => pure (.require false (← word 1))
          | ':' :: '+' :: _ => pure (.alternative true (← word 2))
          | '+' :: _ => pure (.alternative false (← word 1))
          | '#' :: '#' :: _ => pure (.trim .longestFront (← pattern 2))
          | '#' :: _ => pure (.trim .shortestFront (← pattern 1))
          | '%' :: '%' :: _ => pure (.trim .longestBack (← pattern 2))
          | '%' :: _ => pure (.trim .shortestBack (← pattern 1))
          | _ =>
            let _ ← word 0
            pure .malformed
      return .parameter quoted (String.ofList name) use

/-- Takes the next token. -/
def readToken : (fuel : Nat) → ReadM Token
  | 0 => tooLong
  | fuel + 1 => do
    let s ← get
    match s.peeked? with
    | some t =>
      set { s with peeked? := none }
      return t
    | none =>
      let s := s.skipBlanks
      set s
      match readOperator? s.rest, readSign? s.rest with
      | some (t, n), _ =>
        set (s.skip n)
        return t
      | none, some (stream, sign, n) =>
        set (s.skip n)
        return .redirect stream sign
      | none, none =>
        match s.rest with
        | [] => return .endOfText
        | '\n' :: _ =>
          set s.skipNewline
          return .newline
        | _ =>
          let w := merge (← readSegments fuel .bare)
          let s ← get
          match plain? w, readSign? s.rest with
          | some text, some (_, sign, n) =>
            match text.toList with
            | [c] =>
              if isDigit c then
                set (s.skip n)
                return .redirect (c.toNat - 48) sign
              else return .word w
            | _ => return .word w
          | _, _ => return .word w

/-- Reads a list of commands, with newlines between them, up to a token that ends it. -/
def readList : (fuel : Nat) → (mayBeEmpty : Bool) → ReadM Script
  | 0, _ => tooLong
  | fuel + 1, mayBeEmpty => do
    let t ← peekCommand fuel
    let isEnd :=
      match t with
      | .endOfText => true
      | _ => mayBeEmpty && t.endsList
    if isEnd then return []
    let steps ← readAndOr fuel
    match ← peekToken fuel with
    | .operator ";" =>
      let _ ← readToken fuel
      return steps ++ (← readList fuel true)
    | .newline =>
      let _ ← readToken fuel
      return steps ++ (← readList fuel true)
    | .operator "&" =>
      let _ ← readToken fuel
      return .mk .always false true [.subshell steps] :: (← readList fuel true)
    | _ => return steps

def peekToken : (fuel : Nat) → ReadM Token
  | 0 => tooLong
  | fuel + 1 => do
    let t ← readToken fuel
    modify fun s => { s with peeked? := some t }
    return t

/-- The token after newlines, which are taken. -/
def peekCommand : (fuel : Nat) → ReadM Token
  | 0 => tooLong
  | fuel + 1 => do
    match ← peekToken fuel with
    | .newline =>
      let _ ← readToken fuel
      peekCommand fuel
    | t => return t

/-- Reads pipelines joined by `&&` and `||`. -/
def readAndOr : (fuel : Nat) → ReadM Script
  | 0 => tooLong
  | fuel + 1 => do readJoined fuel .always

def readJoined : (fuel : Nat) → Join → ReadM Script
  | 0, _ => tooLong
  | fuel + 1, join => do
    let t ← peekToken fuel
    let negated := t.reserved? == some "!"
    if negated then
      let _ ← readToken fuel
    let step := Step.mk join negated false (← readPipeline fuel)
    match ← peekToken fuel with
    | .operator "&&" =>
      let _ ← readToken fuel
      let _ ← peekCommand fuel
      return step :: (← readJoined fuel .onSuccess)
    | .operator "||" =>
      let _ ← readToken fuel
      let _ ← peekCommand fuel
      return step :: (← readJoined fuel .onFailure)
    | _ => return [step]

def readPipeline : (fuel : Nat) → ReadM (List Command)
  | 0 => tooLong
  | fuel + 1 => do
    let c ← readCommand fuel
    match ← peekToken fuel with
    | .operator "|" =>
      let _ ← readToken fuel
      let _ ← peekCommand fuel
      return c :: (← readPipeline fuel)
    | _ => return [c]

/-- Takes a reserved word or an operator that has to come next. -/
def expect : (fuel : Nat) → String → ReadM Unit
  | 0, _ => tooLong
  | fuel + 1, sign => do
    let t ← readToken fuel
    let found :=
      match t with
      | .operator s => some s
      | t => t.reserved?
    if found = some sign then return () else unexpected t (some s!"\"{sign}\"")

def readCommand : (fuel : Nat) → ReadM Command
  | 0 => tooLong
  | fuel + 1 => do
    let t ← peekToken fuel
    let line := (← get).line
    let compound (c : Command) : ReadM Command := do
      let redirects ← readRedirects fuel
      return if redirects.isEmpty then c else .redirected line c redirects
    match t with
    | .operator "(" =>
      let _ ← readToken fuel
      let body ← readList fuel false
      expect fuel ")"
      compound (.subshell body)
    | .word _ =>
      match t.reserved? with
      | none => readSimple fuel line [] [] []
      | some "\x7b" =>
        let _ ← readToken fuel
        let body ← readList fuel false
        expect fuel "\x7d"
        compound (.group body)
      | some "if" =>
        let _ ← readToken fuel
        compound (← readBranch fuel)
      | some "while" =>
        let _ ← readToken fuel
        compound (← readLoop fuel false)
      | some "until" =>
        let _ ← readToken fuel
        compound (← readLoop fuel true)
      | some "for" =>
        let _ ← readToken fuel
        compound (← readFor fuel line)
      | some "case" =>
        let _ ← readToken fuel
        compound (← readCase fuel line)
      | some _ => do
        let t ← readToken fuel
        unexpected t none
    | .redirect _ _ => readSimple fuel line [] [] []
    | _ => do
      let t ← readToken fuel
      unexpected t none

/-- Reads the rest of a conditional command after its `if` or `elif`. -/
def readBranch : (fuel : Nat) → ReadM Command
  | 0 => tooLong
  | fuel + 1 => do
    let condition ← readList fuel false
    expect fuel "then"
    let body ← readList fuel false
    let t ← peekToken fuel
    match t.reserved? with
    | some "elif" =>
      let _ ← readToken fuel
      return .branch condition body [.mk .always false false [← readBranch fuel]]
    | some "else" =>
      let _ ← readToken fuel
      let otherwise ← readList fuel false
      expect fuel "fi"
      return .branch condition body otherwise
    | _ =>
      expect fuel "fi"
      return .branch condition body []

def readLoop : (fuel : Nat) → (untilSuccess : Bool) → ReadM Command
  | 0, _ => tooLong
  | fuel + 1, untilSuccess => do
    let condition ← readList fuel false
    expect fuel "do"
    let body ← readList fuel false
    expect fuel "done"
    return .loop untilSuccess condition body

def readFor : (fuel : Nat) → (line : Nat) → ReadM Command
  | 0, _ => tooLong
  | fuel + 1, line => do
    let name ←
      match ← readToken fuel with
      | .word w =>
        match (plain? w).filter isName with
        | some name => pure name
        | none => fail "Syntax error: Bad for loop variable"
      | _ => fail "Syntax error: Bad for loop variable"
    let t ← peekCommand fuel
    let words ←
      if t.reserved? = some "in" then do
        let _ ← readToken fuel
        let words ← readWords fuel
        match ← readToken fuel with
        | .newline => pure words
        | .operator ";" => pure words
        | t => unexpected t none
      else do
        match t with
        | .operator ";" =>
          let _ ← readToken fuel
        | _ => pure ()
        pure [[.parameter true "@" .value]]
    let _ ← peekCommand fuel
    expect fuel "do"
    let body ← readList fuel false
    expect fuel "done"
    return .forEach line name words body

def readWords : (fuel : Nat) → ReadM (List Word)
  | 0 => tooLong
  | fuel + 1 => do
    match ← peekToken fuel with
    | .word w =>
      let _ ← readToken fuel
      return w :: (← readWords fuel)
    | _ => return []

def readCase : (fuel : Nat) → (line : Nat) → ReadM Command
  | 0, _ => tooLong
  | fuel + 1, line => do
    match ← readToken fuel with
    | .word w =>
      let _ ← peekCommand fuel
      expect fuel "in"
      return .choose line w (← readCases fuel)
    | t => unexpected t (some "word")

/-- Reads cases up to the word that ends them. -/
def readCases : (fuel : Nat) → ReadM (List Case)
  | 0 => tooLong
  | fuel + 1 => do
    let t ← peekCommand fuel
    if t.reserved? = some "esac" then
      let _ ← readToken fuel
      return []
    else
      match t with
      | .operator "(" =>
        let _ ← readToken fuel
      | _ => pure ()
      let patterns ← readPatterns fuel
      let body ← readList fuel true
      let c := Case.mk patterns body
      let t ← readToken fuel
      match t with
      | .operator ";;" => return c :: (← readCases fuel)
      | t => if t.reserved? = some "esac" then return [c] else unexpected t (some "\";;\"")

/-- Reads patterns with bars between them up to a closing parenthesis. -/
def readPatterns : (fuel : Nat) → ReadM (List Word)
  | 0 => tooLong
  | fuel + 1 => do
    match ← readToken fuel with
    | .word w =>
      match ← readToken fuel with
      | .operator "|" => return w :: (← readPatterns fuel)
      | .operator ")" => return [w]
      | t => unexpected t (some "\")\"")
    | .endOfText => unexpected .endOfText (some "\")\"")
    | t => unexpected t none

/-- Reads the rest of a simple command; what is read so far stands last first. A name with
parentheses after it begins a function. -/
def readSimple : (fuel : Nat) → (line : Nat) → List (String × Word) → List Word → List Redirect →
    ReadM Command
  | 0, _, _, _, _ => tooLong
  | fuel + 1, line, assignments, words, redirects => do
    match ← peekToken fuel with
    | .word w =>
      let _ ← readToken fuel
      match words, assignment? w with
      | [], some (name, value) =>
        readSimple fuel line ((name, value) :: assignments) words redirects
      | _, _ => readSimple fuel line assignments (w :: words) redirects
    | .redirect _ _ =>
      let r ← readRedirect fuel
      readSimple fuel line assignments words (r :: redirects)
    | .operator "(" =>
      match assignments, words, redirects with
      | [], [w], [] =>
        let _ ← readToken fuel
        match ← readToken fuel with
        | .operator ")" => pure ()
        | .word _ => fail "Syntax error: word unexpected (expecting \")\")"
        | t => unexpected t (some "\")\"")
        match (plain? w).filter fun name => isName name && !specialBuiltins.contains name with
        | none => fail "Syntax error: Bad function name"
        | some name =>
          let _ ← peekCommand fuel
          return .function name (← readCommand fuel)
      | _, _, _ => return .simple line assignments.reverse words.reverse redirects.reverse
    | _ => return .simple line assignments.reverse words.reverse redirects.reverse

/-- Reads a redirection. -/
def readRedirect : (fuel : Nat) → ReadM Redirect
  | 0 => tooLong
  | fuel + 1 => do
    match ← readToken fuel with
    | .redirect stream sign =>
      match ← readToken fuel with
      | .word w =>
        match sign with
        | "<" => return .file stream .read w
        | "<>" => return .file stream .read w
        | ">" => return .file stream .write w
        | ">|" => return .file stream .write w
        | ">>" => return .file stream .append w
        | "<&" => return .duplicate stream w
        | ">&" => return .duplicate stream w
        | _ =>
          let (delimiter, literal) := delimiterOf w
          let s ← get
          let (body, after) := s.cutDocument (sign = "<<-") delimiter
          if literal then
            set after
            return .document stream [.text true (String.ofList body)]
          else
            set (Source.ofChars (s.line + 1 + s.documentLines) body)
            let body := merge (← readSegments fuel .document)
            set after
            return .document stream body
      | t => unexpected t none
    | t => unexpected t none

/-- Reads the redirections after a compound command. -/
def readRedirects : (fuel : Nat) → ReadM (List Redirect)
  | 0 => tooLong
  | fuel + 1 => do
    match ← peekToken fuel with
    | .redirect _ _ =>
      let r ← readRedirect fuel
      return r :: (← readRedirects fuel)
    | _ => return []

end

/-- Reads commands up to the end of a line. -/
def readLineRest : (fuel : Nat) → ReadM Script
  | 0 => tooLong
  | fuel + 1 => do
    match ← peekToken fuel with
    | .newline =>
      let _ ← readToken fuel
      return []
    | .endOfText => return []
    | _ =>
      let steps ← readAndOr fuel
      match ← readToken fuel with
      | .operator ";" => return steps ++ (← readLineRest fuel)
      | .operator "&" =>
        return .mk .always false true [.subshell steps] :: (← readLineRest fuel)
      | .newline => return steps
      | .endOfText => return steps
      | t => unexpected t none

/-- Reads one line of commands and gives the text after it; there is none at the end of the text. -/
def readLine? (s : Source) : Except (Nat × String) (Option (Script × Source)) :=
  if s.rest.isEmpty then .ok none
  else ((readLineRest (16 * s.rest.length + 64)).run s).map some

end GqlArtifacts.Shell
