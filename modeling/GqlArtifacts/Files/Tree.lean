import GqlArtifacts.Path
import GqlArtifacts.OrderedMap

/-!
# File trees

A `Tree` is the state of a file system: which places hold a file or a directory. A place is the list
of the names that lead to it from the root; the root itself is always a directory. `Tree.resolve?`
finds the place that a path stands for, and the operations `read`, `write`, `makeDirectory`,
`rename`, `remove` and `list` answer with an error where a file system would. An operation that
fails leaves the tree as it was.
-/

namespace GqlArtifacts.Files

/-- Why an operation on files fails. -/
inductive FileError where
  | notFound
  | notADirectory
  | isADirectory
  | alreadyExists
  | directoryNotEmpty
  | nameTooLong
  | busy
  | nulInName
  | invalidText
  | permissionDenied
  /-- A cause that is only known by its number. -/
  | other (code : Nat)
deriving DecidableEq, Inhabited

/-- What an error says, without its number. -/
def FileError.cause : FileError → String
  | notFound => "No such file or directory"
  | notADirectory => "Not a directory"
  | isADirectory => "Is a directory"
  | alreadyExists => "File exists"
  | directoryNotEmpty => "Directory not empty"
  | nameTooLong => "File name too long"
  | busy => "Device or resource busy"
  | nulInName => "file name contained an unexpected NUL byte"
  | invalidText => "stream did not contain valid UTF-8"
  | permissionDenied => "Permission denied"
  | other _ => "failure"

/-- The number that the system has for an error; two kinds are noticed without the system. -/
def FileError.code? : FileError → Option Nat
  | notFound => some 2
  | notADirectory => some 20
  | isADirectory => some 21
  | alreadyExists => some 17
  | directoryNotEmpty => some 39
  | nameTooLong => some 36
  | busy => some 16
  | nulInName => none
  | invalidText => none
  | permissionDenied => some 13
  | other code => some code

def FileError.message (e : FileError) : String :=
  match e.code? with
  | some code => s!"{e.cause} (os error {code})"
  | none => e.cause

/-- The names that lead from the root to a file or directory. -/
abbrev Place := List String

inductive Node where
  | file (content : ByteArray)
  | directory
deriving Inhabited

inductive NodeKind where
  | file
  | directory
deriving DecidableEq, Inhabited

def Node.kind : Node → NodeKind
  | file _ => .file
  | directory => .directory

structure Tree where
  nodes : OrderedMap Place Node compare
deriving Inhabited

namespace Tree

def empty : Tree := ⟨.empty⟩

def node? (t : Tree) (place : Place) : Option Node :=
  if place.isEmpty then some .directory else t.nodes.get? place

def isDirectory (t : Tree) (place : Place) : Bool :=
  match t.node? place with
  | some .directory => true
  | _ => false

def put (t : Tree) (place : Place) (n : Node) : Tree := ⟨t.nodes.insert place n⟩

def drop (t : Tree) (place : Place) : Tree := ⟨t.nodes.erase place⟩

/-- The longest name of a file, in bytes. -/
def nameLimit : Nat := 255

/-- The longest path, in bytes. -/
def pathLimit : Nat := 4095

/-- Goes from a directory into the thing of a name, which has to be a directory. -/
def enter (t : Tree) (dir : Place) (name : String) : Except FileError Place :=
  if nameLimit < name.utf8ByteSize then .error .nameTooLong
  else
    match t.node? (dir ++ [name]) with
    | none => .error .notFound
    | some (.file _) => .error .notADirectory
    | some .directory => .ok (dir ++ [name])

/-- What a path stands for: a place whose directory exists, or an existing directory itself. -/
inductive Target where
  /-- `slash` tells that the path ends in a slash, so that only a directory will do. -/
  | entry (dir : Place) (name : String) (slash : Bool)
  | directory (place : Place)
deriving DecidableEq

namespace Target

def place : Target → Place
  | entry dir name _ => dir ++ [name]
  | directory p => p

def slash : Target → Bool
  | entry _ _ s => s
  | directory _ => true

end Target

/-- Follows the segments of a path from a directory. -/
def walk (t : Tree) (slash : Bool) : Place → List String → Except FileError Target
  | dir, [] => .ok (.directory dir)
  | dir, seg :: rest =>
    if seg = "" ∨ seg = "." then walk t slash dir rest
    else if seg = ".." then walk t slash dir.dropLast rest
    else if rest.isEmpty then .ok (.entry dir seg slash)
    else
      match t.enter dir seg with
      | .error e => .error e
      | .ok place => walk t slash place rest

/-- The segments of a path less the empty ones at its end, and whether there were any. -/
def splitSlashes (segs : List String) : List String × Bool :=
  let kept := (segs.reverse.dropWhile (· == "")).reverse
  (kept, kept.length < segs.length)

/-- What a path stands for, however long its last name is. Relative paths start at the root. -/
def target? (t : Tree) (p : Path) : Except FileError Target :=
  if p.text.isEmpty then .error .notFound
  else if p.chars.contains '\x00' then .error .nulInName
  else if pathLimit < p.text.utf8ByteSize then .error .nameTooLong
  else
    let (segs, slash) := splitSlashes p.segments
    t.walk slash [] segs

/-- Refuses a last name that no file can have. -/
def Target.checked : Target → Except FileError Target
  | entry dir name slash =>
    if nameLimit < name.utf8ByteSize then .error .nameTooLong else .ok (entry dir name slash)
  | directory place => .ok (directory place)

/-- The place that a path stands for. -/
def resolve? (t : Tree) (p : Path) : Except FileError Target := (t.target? p).bind Target.checked

/-- The node that a path stands for. -/
def lookup? (t : Tree) (p : Path) : Except FileError Node :=
  match t.resolve? p with
  | .error e => .error e
  | .ok target =>
    match t.node? target.place with
    | none => .error .notFound
    | some (.file content) => if target.slash then .error .notADirectory else .ok (.file content)
    | some .directory => .ok .directory

def kind (t : Tree) (p : Path) : Except FileError NodeKind := (t.lookup? p).map Node.kind

def isFile (t : Tree) (p : Path) : Bool :=
  match t.kind p with
  | .ok .file => true
  | _ => false

def read (t : Tree) (p : Path) : Except FileError ByteArray :=
  match t.lookup? p with
  | .error e => .error e
  | .ok .directory => .error .isADirectory
  | .ok (.file content) => .ok content

/-- Makes a file or replaces its content. -/
def write (t : Tree) (p : Path) (content : ByteArray) : Except FileError Tree :=
  match t.target? p with
  | .error e => .error e
  | .ok target =>
    if target.slash then .error .isADirectory
    else
      match target.checked with
      | .error e => .error e
      | .ok target =>
        if t.isDirectory target.place then .error .isADirectory
        else .ok (t.put target.place (.file content))

/-- Makes one directory, whose parent has to be there. -/
def makeDirectory (t : Tree) (p : Path) : Except FileError Tree :=
  match t.resolve? p with
  | .error e => .error e
  | .ok target =>
    if (t.node? target.place).isSome then .error .alreadyExists
    else .ok (t.put target.place .directory)

/-- Refuses a path that ends in no name, which nothing can be moved from or to. -/
def Target.named : Target → Except FileError Unit
  | entry _ _ _ => .ok ()
  | directory _ => .error .busy

/-- Moves a file, replacing the file at its new place if there is one. -/
def rename (t : Tree) (src dst : Path) : Except FileError Tree := do
  let a ← t.target? src
  let b ← t.target? dst
  a.named
  b.named
  let a ← a.checked
  match t.node? a.place with
  | none => .error .notFound
  | some .directory => .error .isADirectory
  | some (.file content) =>
    let b ← b.checked
    if a.slash ∨ b.slash then .error .notADirectory
    else if t.isDirectory b.place then .error .isADirectory
    else .ok ((t.drop a.place).put b.place (.file content))

/-- Deletes a file. -/
def remove (t : Tree) (p : Path) : Except FileError Tree :=
  match t.resolve? p with
  | .error e => .error e
  | .ok target =>
    match t.node? target.place with
    | none => .error .notFound
    | some .directory => .error .isADirectory
    | some (.file _) =>
      if target.slash then .error .notADirectory else .ok (t.drop target.place)

/-- The names directly in a directory, in order. -/
def children (t : Tree) (dir : Place) : List String :=
  t.nodes.keys.filterMap fun place =>
    match place.getLast? with
    | some name => if place.dropLast = dir then some name else none
    | none => none

def list (t : Tree) (p : Path) : Except FileError (List String) :=
  match t.resolve? p with
  | .error e => .error e
  | .ok target =>
    match t.node? target.place with
    | none => .error .notFound
    | some (.file _) => .error .notADirectory
    | some .directory => .ok (t.children target.place)

/-- Everything strictly below a place, with the names that lead there from it. -/
def below (t : Tree) (dir : Place) : List (Place × Node) :=
  t.nodes.toList.filterMap fun (place, n) =>
    if dir.isPrefixOf place ∧ place ≠ dir then some (place.drop dir.length, n) else none

/-- Deletes a file, or a directory with everything in it. -/
def removeAll (t : Tree) (p : Path) : Except FileError Tree :=
  match t.lookup? p, t.resolve? p with
  | .ok _, .ok target => .ok ⟨t.nodes.filter fun place _ => !target.place.isPrefixOf place⟩
  | .error e, _ => .error e
  | _, .error e => .error e

/-- Keeps at most the first `keep` bytes of a file. -/
def truncate (t : Tree) (p : Path) (keep : Nat) : Except FileError Tree :=
  match t.read p with
  | .error e => .error e
  | .ok content => t.write p (content.extract 0 keep)

end Tree

end GqlArtifacts.Files
