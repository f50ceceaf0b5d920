/-!
# Shell scripts

The scripts that a backend command can be written in: simple commands with redirections, joined to
pipelines and to lists; `if`, `while`, `until`, `for` and `case`; groups, subshells and functions.
Words consist of segments; parameters, the output of a command and arithmetic are put in when a
command is run.
-/

namespace GqlArtifacts.Shell

/-- Which end of a value a pattern is taken from, and whether as little of it as possible. -/
inductive Trim where
  | shortestFront
  | longestFront
  | shortestBack
  | longestBack
deriving DecidableEq, Inhabited

/-- How a file is opened. -/
inductive OpenMode where
  | read
  | write
  | append
deriving DecidableEq, Inhabited

/-- How a pipeline of a list depends on the one before it. -/
inductive Join where
  | always
  | onSuccess
  | onFailure
deriving DecidableEq, Inhabited

mutual

/-- A part of a word. Unless it is quoted, what is put in is cut into fields. -/
inductive Segment where
  | text (quoted : Bool) (s : String)
  | parameter (quoted : Bool) (name : String) (use : Use)
  | output (quoted : Bool) (script : List Step)
  | arithmetic (quoted : Bool) (expression : List Segment)

/-- What is put in for a parameter. In `default`, `assign`, `require` and `alternative` a parameter
with an empty value counts as set unless `filled` asks for more. -/
inductive Use where
  | value
  | length
  | default (filled : Bool) (word : List Segment)
  | assign (filled : Bool) (word : List Segment)
  | require (filled : Bool) (word : List Segment)
  | alternative (filled : Bool) (word : List Segment)
  | trim (how : Trim) (pattern : List Segment)
  | malformed

inductive Redirect where
  | file (stream : Nat) (mode : OpenMode) (target : List Segment)
  /-- The stream becomes another one, or is closed for `-`. -/
  | duplicate (stream : Nat) (target : List Segment)
  | document (stream : Nat) (body : List Segment)

inductive Command where
  | simple (line : Nat) (assignments : List (String × List Segment)) (words : List (List Segment))
      (redirects : List Redirect)
  | group (body : List Step)
  | subshell (body : List Step)
  | branch (condition body otherwise : List Step)
  /-- Runs the body as long as the condition succeeds, or as long as it fails. -/
  | loop (untilSuccess : Bool) (condition body : List Step)
  | forEach (line : Nat) (name : String) (words : List (List Segment)) (body : List Step)
  | choose (line : Nat) (word : List Segment) (cases : List Case)
  | function (name : String) (body : Command)
  | redirected (line : Nat) (c : Command) (redirects : List Redirect)

/-- The patterns of a case and what is run where one fits. -/
inductive Case where
  | mk (patterns : List (List Segment)) (body : List Step)

/-- A pipeline in a list of them. -/
inductive Step where
  | mk (join : Join) (negated background : Bool) (commands : List Command)

end

abbrev Word := List Segment

abbrev Script := List Step

instance : Inhabited Segment := ⟨.text false ""⟩

instance : Inhabited Redirect := ⟨.document 0 []⟩

instance : Inhabited Command := ⟨.group []⟩

end GqlArtifacts.Shell
