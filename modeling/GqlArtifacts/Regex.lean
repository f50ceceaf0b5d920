/-!
# Regular expressions

A regular expression stands for a set of texts; some of its parts also look at the characters around
them. `Regex.step` is the expression for what is left once a character is read, and `Regex.longest?`
finds the longest text at the front of a line.
-/

namespace GqlArtifacts

/-- What a place between two characters has to be. -/
inductive Anchor where
  | lineStart
  | lineEnd
  | wordStart
  | wordEnd
  | wordEdge
  | noWordEdge
  /-- No character of a word stands before it. -/
  | noWordBefore
  | noWordAfter
deriving DecidableEq, Inhabited

inductive Regex where
  | nothing
  | empty
  /-- A character in one of the spans, or in none of them. -/
  | char (negated : Bool) (spans : List (Char × Char))
  | anchor (a : Anchor)
  | append (a b : Regex)
  | either (a b : Regex)
  /-- A number of times, without a limit if there is none. -/
  | times (a : Regex) (least : Nat) (most? : Option Nat)
deriving DecidableEq, Inhabited

/-- A place between two characters, or at an end of a line. -/
structure Regex.Place where
  before? : Option Char
  after? : Option Char

def isWordChar (c : Char) : Bool :=
  c == '_' || ('0' ≤ c && c ≤ '9') || ('A' ≤ c && c ≤ 'Z') || ('a' ≤ c && c ≤ 'z')

def Anchor.holds (p : Regex.Place) : Anchor → Bool
  | lineStart => p.before?.isNone
  | lineEnd => p.after?.isNone
  | wordStart => !p.before?.any isWordChar && p.after?.any isWordChar
  | wordEnd => p.before?.any isWordChar && !p.after?.any isWordChar
  | wordEdge => p.before?.any isWordChar != p.after?.any isWordChar
  | noWordEdge => p.before?.any isWordChar == p.after?.any isWordChar
  | noWordBefore => !p.before?.any isWordChar
  | noWordAfter => !p.after?.any isWordChar

namespace Regex

def any : Regex := char true []

def ofChar (c : Char) : Regex := char false [(c, c)]

def ofText (cs : List Char) : Regex := cs.foldr (fun c r => append (ofChar c) r) empty

/-- Whether the empty text fits at a place. -/
def fitsEmpty (p : Place) : Regex → Bool
  | nothing => false
  | empty => true
  | char _ _ => false
  | anchor a => a.holds p
  | append a b => a.fitsEmpty p && b.fitsEmpty p
  | either a b => a.fitsEmpty p || b.fitsEmpty p
  | times a least _ => least == 0 || a.fitsEmpty p

def andThen : Regex → Regex → Regex
  | nothing, _ => nothing
  | empty, b => b
  | _, nothing => nothing
  | a, b => append a b

/-- Whether an expression is a branch of another one. -/
def isBranchOf (r : Regex) : Regex → Bool
  | either a b => decide (r = a) || isBranchOf r b
  | other => decide (r = other)

/-- Either of two expressions; each branch is kept once. -/
def orElse : Regex → Regex → Regex
  | nothing, b => b
  | either a rest, b =>
    let r := orElse rest b
    if a.isBranchOf r then r else either a r
  | a, nothing => a
  | a, b => if a.isBranchOf b then b else either a b

/-- What is left to fit once a character at a place is read. -/
def step (p : Place) (c : Char) : Regex → Regex
  | nothing => nothing
  | empty => nothing
  | char negated spans =>
    if (spans.any fun (a, b) => a ≤ c && c ≤ b) != negated then empty else nothing
  | anchor _ => nothing
  | append a b =>
    let first := (a.step p c).andThen b
    if a.fitsEmpty p then first.orElse (b.step p c) else first
  | either a b => (a.step p c).orElse (b.step p c)
  | times a least most? =>
    if most? = some 0 then nothing
    else (a.step p c).andThen (times a (least - 1) (most?.map (· - 1)))

/-- Goes on after `length` characters of a fit that may get longer. -/
def longestFrom (before? : Option Char) (length : Nat) (found? : Option Nat) (r : Regex) :
    List Char → Option Nat
  | [] => if r.fitsEmpty ⟨before?, none⟩ then some length else found?
  | c :: rest =>
    let place : Place := ⟨before?, some c⟩
    let found? := if r.fitsEmpty place then some length else found?
    match r.step place c with
    | nothing => found?
    | r => longestFrom (some c) (length + 1) found? r rest

/-- The length of the longest text at the front that fits. -/
def longest? (r : Regex) (before? : Option Char) (cs : List Char) : Option Nat :=
  longestFrom before? 0 none r cs

/-- Whether some part of a text fits, where `current` is what may still fit of earlier parts. -/
def foundFrom (r : Regex) (before? : Option Char) (current : Regex) : List Char → Bool
  | [] => (current.orElse r).fitsEmpty ⟨before?, none⟩
  | c :: rest =>
    let place : Place := ⟨before?, some c⟩
    let current := current.orElse r
    current.fitsEmpty place || foundFrom r (some c) (current.step place c) rest

/-- Whether some part of a line fits. -/
def isFound (r : Regex) (cs : List Char) : Bool := foundFrom r none nothing cs

/-- The parts of a line that fit, each as long as can be and none of them empty; `skip` characters
belong to the last one. -/
def partsFrom (r : Regex) (before? : Option Char) : (skip : Nat) → List Char → List (List Char)
  | _, [] => []
  | skip + 1, c :: rest => partsFrom r (some c) skip rest
  | 0, c :: rest =>
    match r.longest? before? (c :: rest) with
    | some (n + 1) => (c :: rest).take (n + 1) :: partsFrom r (some c) n rest
    | _ => partsFrom r (some c) 0 rest

/-- The parts of a line that fit. -/
def parts (r : Regex) (cs : List Char) : List (List Char) :=
  if r.isFound cs then partsFrom r none 0 cs else []

end Regex

end GqlArtifacts
