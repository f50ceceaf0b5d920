import GqlArtifacts.Source.FileKind
import GqlArtifacts.Text.Utf8
import GqlArtifacts.Text.Whitespace

/-!
# Calls in scripts

A script names its documents in calls: a template literal given to `gql`, or a file name given to
`load`. `ScriptCall.find` searches a text from the left for such calls and says where each one
stands. The search is lexical. A call does not follow a name character or a dot, its only argument
is one literal, which is taken as written, and the argument of `load` names a document file.
-/

namespace GqlArtifacts

/-- A call with its argument as written between the quotes. -/
inductive ScriptCall where
  | gql (text : String)
  | load (argument : String)
deriving DecidableEq

namespace ScriptCall

/-- A character after which no call starts. -/
def isNameChar (c : Char) : Bool :=
  ('A' ≤ c && c ≤ 'Z') || ('a' ≤ c && c ≤ 'z') || ('0' ≤ c && c ≤ '9') || c == '_' || c == '$' ||
    c == '.'

def skipWhite (cs : List Char) : List Char := cs.dropWhile Text.isAsciiWhite

/-- The number of characters that `skipWhite` drops. -/
def whiteLength (cs : List Char) : Nat := (cs.takeWhile Text.isAsciiWhite).length

/-- Reads a literal after its opening quote: the text up to the closing one, and the rest. A
backslash takes the next character along, and only a template literal may hold a line feed. -/
def readLiteral? (quote : Char) : List Char → Option (List Char × List Char)
  | [] => none
  | ['\\'] => none
  | '\\' :: c :: cs => (readLiteral? quote cs).map fun (body, rest) => ('\\' :: c :: body, rest)
  | c :: cs =>
    if c = quote then some ([], cs)
    else if c = '\n' ∧ quote ≠ '`' then none
    else (readLiteral? quote cs).map fun (body, rest) => (c :: body, rest)

def isQuoteFor (isLoad : Bool) (c : Char) : Bool :=
  c == '`' || (isLoad && (c == '"' || c == '\''))

/-- The call with a given argument; `load` takes document files only. -/
def ofArgument? (isLoad : Bool) (body : List Char) : Option ScriptCall :=
  let text := String.ofList body
  if isLoad then
    if FileKind.ofPath? ⟨text⟩ = some .document then some (load text) else none
  else some (gql text)

/-- Reads the argument list of a call after its name: the call, how many characters the list takes
up, and the rest. -/
def readArguments? (isLoad : Bool) (cs : List Char) : Option (ScriptCall × Nat × List Char) :=
  match skipWhite cs with
  | '(' :: inner =>
    match skipWhite inner with
    | quote :: literal =>
      if isQuoteFor isLoad quote then
        match readLiteral? quote literal with
        | some (body, after) =>
          match skipWhite after with
          | ')' :: rest =>
            let size := whiteLength cs + whiteLength inner + body.length + whiteLength after + 4
            (ofArgument? isLoad body).map (·, size, rest)
          | _ => none
        | none => none
      else none
    | [] => none
  | _ => none

/-- Reads a call from its name on: the call, how many characters it takes up, and the rest. -/
def read? (cs : List Char) : Option (ScriptCall × Nat × List Char) :=
  match cs with
  | 'g' :: 'q' :: 'l' :: rest =>
    (readArguments? false rest).map fun (call, size, rest) => (call, size + 3, rest)
  | 'l' :: 'o' :: 'a' :: 'd' :: rest =>
    (readArguments? true rest).map fun (call, size, rest) => (call, size + 4, rest)
  | _ => none

theorem length_skipWhite (cs : List Char) :
    whiteLength cs + (skipWhite cs).length = cs.length := by
  rw [whiteLength, skipWhite, ← List.length_append, List.takeWhile_append_dropWhile]

theorem length_readLiteral? {quote : Char} {cs body rest : List Char}
    (h : readLiteral? quote cs = some (body, rest)) :
    body.length + rest.length + 1 = cs.length := by
  fun_induction readLiteral? quote cs generalizing body rest with
  | case1 => cases h
  | case2 => cases h
  | case3 c cs ih =>
    obtain ⟨⟨b, r⟩, hb, he⟩ := Option.map_eq_some_iff.1 h
    cases he
    have := ih hb
    simp only [List.length_cons]; omega
  | case4 cs => cases h; simp
  | case5 => cases h
  | case6 c cs _ _ _ _ ih =>
    obtain ⟨⟨b, r⟩, hb, he⟩ := Option.map_eq_some_iff.1 h
    cases he
    have := ih hb
    simp only [List.length_cons]; omega

theorem length_readArguments? {isLoad : Bool} {cs rest : List Char} {call : ScriptCall}
    {size : Nat} (h : readArguments? isLoad cs = some (call, size, rest)) :
    size + rest.length = cs.length := by
  unfold readArguments? at h
  split at h
  · next cs1 h1 =>
    split at h
    · next quote cs2 h2 =>
      split at h
      · split at h
        · next body cs3 h3 =>
          split at h
          · next cs4 h4 =>
            obtain ⟨_, -, he⟩ := Option.map_eq_some_iff.1 h
            cases he
            have l1 := length_skipWhite cs
            have l2 := length_skipWhite cs1
            have l3 := length_readLiteral? h3
            have l4 := length_skipWhite cs3
            rw [h1, List.length_cons] at l1
            rw [h2, List.length_cons] at l2
            rw [h4, List.length_cons] at l4
            omega
          · cases h
        · cases h
      · cases h
    · cases h
  · cases h

theorem length_read? {cs rest : List Char} {call : ScriptCall} {size : Nat}
    (h : read? cs = some (call, size, rest)) :
    0 < size ∧ size + rest.length = cs.length := by
  unfold read? at h
  split at h
  · obtain ⟨⟨_, n, r⟩, hr, he⟩ := Option.map_eq_some_iff.1 h
    cases he
    have := length_readArguments? hr
    simp only [List.length_cons]; omega
  · obtain ⟨⟨_, n, r⟩, hr, he⟩ := Option.map_eq_some_iff.1 h
    cases he
    have := length_readArguments? hr
    simp only [List.length_cons]; omega
  · cases h

/-- A call and the range of characters that it takes up. -/
structure Located where
  start : Nat
  stop : Nat
  call : ScriptCall
deriving DecidableEq

/-- The calls of a text from the left. `start` is the place of its first character, and `afterName`
tells whether a name character comes before it. -/
def find (start : Nat) (afterName : Bool) (cs : List Char) : List Located :=
  match cs with
  | [] => []
  | c :: rest =>
    if afterName then find (start + 1) (isNameChar c) rest
    else
      match _h : read? (c :: rest) with
      | some (call, size, after) => ⟨start, start + size, call⟩ :: find (start + size) false after
      | none => find (start + 1) (isNameChar c) rest
termination_by cs.length
decreasing_by
  · simp
  · have := length_read? _h; omega
  · simp

def scan (source : String) : List ScriptCall := (find 0 false (Text.chars source)).map Located.call

end ScriptCall

end GqlArtifacts
