import GqlArtifacts.Text.Whitespace

/-!
# GraphQL tokens

`lexemes` cuts a text into tokens, each with the ignored characters before it; what is ignored at
the end comes apart. Blanks, line terminators, commas, byte order marks and comments are ignored.
Every text has tokens: a character that starts no other token is part of a word, and a string
without a closing quote runs to the end of its line, a block string to the end of the text.
-/

namespace GqlArtifacts.Graphql

inductive TokenKind where
  | punctuator
  | spread
  | word
  | string
  | blockString
deriving DecidableEq, Inhabited

structure Token where
  kind : TokenKind
  text : List Char
deriving DecidableEq, Inhabited

def isPunctuator (c : Char) : Bool :=
  c == '!' || c == '$' || c == '&' || c == '(' || c == ')' || c == ':' || c == '=' || c == '@' ||
    c == '[' || c == ']' || c == '{' || c == '|' || c == '}'

def byteOrderMark : Char := '\ufeff'

def isTerminator (c : Char) : Bool := c == '\n' || c == '\r'

/-- Ignored by itself, comments apart. -/
def isIgnored (c : Char) : Bool :=
  c == byteOrderMark || c == ' ' || c == '\t' || isTerminator c || c == ','

/-- The ignored characters at the front, and the rest. `comment` tells whether the text starts
inside a comment. -/
def spanGap (comment : Bool) : List Char → List Char × List Char
  | [] => ([], [])
  | c :: cs =>
    if comment && !isTerminator c then
      let (gap, rest) := spanGap true cs
      (c :: gap, rest)
    else if isIgnored c then
      let (gap, rest) := spanGap false cs
      (c :: gap, rest)
    else if c == '#' then
      let (gap, rest) := spanGap true cs
      (c :: gap, rest)
    else ([], c :: cs)

/-- A block string after its opening quotes: up to and with the closing ones. -/
def spanBlock : List Char → List Char × List Char
  | [] => ([], [])
  | '\\' :: '"' :: '"' :: '"' :: cs =>
    let (body, rest) := spanBlock cs
    ('\\' :: '"' :: '"' :: '"' :: body, rest)
  | '"' :: '"' :: '"' :: cs => (['"', '"', '"'], cs)
  | c :: cs =>
    let (body, rest) := spanBlock cs
    (c :: body, rest)

/-- A string after its opening quote: up to and with the closing one, or up to the end of the line.
A backslash takes the next character along. -/
def spanString : List Char → List Char × List Char
  | [] => ([], [])
  | '\\' :: c :: cs =>
    let (body, rest) := spanString cs
    ('\\' :: c :: body, rest)
  | '"' :: cs => (['"'], cs)
  | c :: cs =>
    if isTerminator c then ([], c :: cs)
    else
      let (body, rest) := spanString cs
      (c :: body, rest)

/-- Whether a word ends before `c`; a dot ends no number. -/
def endsWord (numeric : Bool) (c : Char) : Bool :=
  Text.isWhite c || c == ',' || c == '#' || c == '"' || c == byteOrderMark || isPunctuator c ||
    (c == '.' && !numeric)

def startsNumber (c : Char) : Bool := ('0' ≤ c && c ≤ '9') || c == '-'

/-- The token that starts with `c`, and the rest. -/
def spanToken (c : Char) (cs : List Char) : Token × List Char :=
  match c, cs with
  | '.', '.' :: '.' :: rest => (⟨.spread, ['.', '.', '.']⟩, rest)
  | '"', '"' :: '"' :: rest =>
    let (body, rest) := spanBlock rest
    (⟨.blockString, '"' :: '"' :: '"' :: body⟩, rest)
  | '"', rest =>
    let (body, rest) := spanString rest
    (⟨.string, '"' :: body⟩, rest)
  | c, cs =>
    if isPunctuator c || c == '.' then (⟨.punctuator, [c]⟩, cs)
    else if endsWord (startsNumber c) c then (⟨.word, [c]⟩, cs)
    else
      let more (d : Char) : Bool := !endsWord (startsNumber c) d
      (⟨.word, c :: cs.takeWhile more⟩, cs.dropWhile more)

theorem spanGap_append (comment : Bool) (cs : List Char) :
    (spanGap comment cs).1 ++ (spanGap comment cs).2 = cs := by
  induction cs generalizing comment with
  | nil => rfl
  | cons c cs ih =>
    unfold spanGap
    split
    · simpa using ih true
    · split
      · simpa using ih false
      · split
        · simpa using ih true
        · rfl

theorem spanBlock_append (cs : List Char) : (spanBlock cs).1 ++ (spanBlock cs).2 = cs := by
  fun_induction spanBlock cs <;> simp_all

theorem spanString_append (cs : List Char) : (spanString cs).1 ++ (spanString cs).2 = cs := by
  fun_induction spanString cs <;> simp_all

theorem spanToken_append (c : Char) (cs : List Char) :
    (spanToken c cs).1.text ++ (spanToken c cs).2 = c :: cs := by
  unfold spanToken
  split
  · rfl
  · next rest => simpa using spanBlock_append rest
  · simpa using spanString_append cs
  · split
    · rfl
    · split
      · rfl
      · simp [List.takeWhile_append_dropWhile]

theorem spanToken_text_ne_nil (c : Char) (cs : List Char) : (spanToken c cs).1.text ≠ [] := by
  unfold spanToken
  split
  · simp
  · simp
  · simp
  · split
    · simp
    · split <;> simp

theorem length_spanToken (c : Char) (cs : List Char) :
    (spanToken c cs).2.length < cs.length + 1 := by
  have h := congrArg List.length (spanToken_append c cs)
  have := List.length_pos_iff.2 (spanToken_text_ne_nil c cs)
  simp only [List.length_append, List.length_cons] at h
  omega

/-- A token and the ignored characters before it. -/
structure Lexeme where
  gap : List Char
  token : Token
deriving DecidableEq

/-- The tokens of a text with their gaps, and what is ignored at the end. -/
def lexemes (cs : List Char) : List Lexeme × List Char :=
  match _h : (spanGap false cs).2 with
  | [] => ([], (spanGap false cs).1)
  | c :: rest =>
    let (more, final) := lexemes (spanToken c rest).2
    (⟨(spanGap false cs).1, (spanToken c rest).1⟩ :: more, final)
termination_by cs.length
decreasing_by
  have h1 := congrArg List.length (spanGap_append false cs)
  have h2 := length_spanToken c rest
  simp only [List.length_append, _h, List.length_cons] at h1
  omega

def tokens (cs : List Char) : List Token := (lexemes cs).1.map Lexeme.token

end GqlArtifacts.Graphql
