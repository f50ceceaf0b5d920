import GqlArtifacts.Shell.Pattern

/-!
# Fields

The words of a command become fields. What is put in without quotes is cut at the separators: blanks
among them count only together and not at the ends, every other one ends a field.
-/

namespace GqlArtifacts.Shell

/-- The fields read so far, last first, and the one that is open. -/
structure Fields where
  closed : List Marked
  current? : Option Marked
  /-- Blanks have just ended a field. -/
  afterBlank : Bool
deriving Inhabited

namespace Fields

def empty : Fields := ⟨[], none, false⟩

/-- Adds a text to the open field. -/
def add (f : Fields) (t : Marked) : Fields :=
  { f with current? := some (f.current?.getD [] ++ t), afterBlank := false }

/-- Ends the open field, if there is one. -/
def close (f : Fields) : Fields :=
  match f.current? with
  | some t => { f with closed := t :: f.closed, current? := none }
  | none => f

/-- Takes a blank that separates. -/
def splitBlank (f : Fields) : Fields :=
  { f.close with afterBlank := f.afterBlank || f.current?.isSome }

/-- Takes one character of a text that is cut at the separators. -/
def split (separators : List Char) (f : Fields) (c : Char) : Fields :=
  if !separators.contains c then f.add [(false, c)]
  else if c = ' ' ∨ c = '\t' ∨ c = '\n' then f.splitBlank
  else if f.current?.isSome then { f.close with afterBlank := false }
  else if f.afterBlank then { f with afterBlank := false }
  else { f with closed := [] :: f.closed }

/-- Adds texts that are cut at the separators, with a blank between each two. -/
def addSplit (f : Fields) (separators : List Char) : List String → Fields
  | [] => f
  | s :: rest =>
    let first := s.toList.foldl (split separators) { f with afterBlank := false }
    rest.foldl (fun f s => s.toList.foldl (split separators) f.splitBlank) first

/-- Adds texts that begin a field each, apart from the first. -/
def addAll (f : Fields) : List String → Fields
  | [] => f
  | s :: rest => rest.foldl (fun f s => f.close.add (.ofString true s)) (f.add (.ofString true s))

def toList (f : Fields) : List Marked := f.close.closed.reverse

/-- All fields in one. -/
def joined (f : Fields) : Marked := (f.toList.intersperse [(true, ' ')]).flatten

end Fields

end GqlArtifacts.Shell
