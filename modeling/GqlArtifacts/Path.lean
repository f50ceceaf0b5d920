import GqlArtifacts.Text.Utf8

/-!
# Paths

A `Path` is a text with `/` between its parts. Two paths are the same file name when their
`components` agree: doubled slashes, a trailing slash and inner `.` parts carry no meaning, while
the text stays as it was written. `Path.compare` orders paths component by component.

Nothing here looks at a file system: `normalize` folds `..` lexically, and `escapesRoot` tells
whether a path is absolute or climbs above the directory that it is relative to.
-/

namespace GqlArtifacts

/-- One part of a path, whose names are of type `α`. `current` arises only as the first part of a
relative path. -/
inductive Component (α : Type) where
  | root
  | current
  | parent
  | name (text : α)
deriving DecidableEq, Inhabited

namespace Component

variable {α β : Type}

/-- The same part with another name. -/
def map (f : α → β) : Component α → Component β
  | root => root
  | current => current
  | parent => parent
  | name s => name (f s)

def text : Component String → String
  | root => "/"
  | current => "."
  | parent => ".."
  | name s => s

def rank : Component α → Nat
  | root => 0
  | current => 1
  | parent => 2
  | name _ => 3

protected def compare : Component String → Component String → Ordering :=
  compareLex (compareOn rank) (compareOn text)

instance : Ord (Component String) := ⟨Component.compare⟩

instance : Std.TransOrd (Component String) :=
  inferInstanceAs (Std.TransCmp (compareLex (compareOn rank) (compareOn text)))

section
variable [DecidableEq α]

/-- The part that a segment between slashes stands for, if it has a meaning there. Three segments are
no names: the empty one, and those of the directory itself and of the one above. -/
def read? (empty current parent : α) (s : α) : Option (Component α) :=
  if s = empty ∨ s = current then none
  else if s = parent then some .parent
  else some (.name s)

/-- The parts that the segments of a path stand for, each as `part?` tells. The first one stands for the
root of an absolute path, and only there the directory itself is a part. -/
def readAll (current : α) (part? : α → Option (Component α)) (absolute : Bool) :
    List α → List (Component α)
  | [] => []
  | first :: rest =>
    let head :=
      if absolute then [.root]
      else if first = current then [.current]
      else (part? first).toList
    head ++ rest.filterMap part?

/-- How the parts since the last root are spelled, the last one first, and whether there is a root. -/
def sinceRoot (spelling : Component α → α) (cs : List (Component α)) : Bool × List α :=
  cs.foldl
    (fun (absolute, names) c => if c = .root then (true, []) else (absolute, spelling c :: names))
    (false, [])

end

def ofSegment? (s : String) : Option (Component String) := read? "" "." ".." s

end Component

structure Path where
  text : String
deriving DecidableEq, Inhabited

namespace Path

instance : ToString Path := ⟨text⟩

def chars (p : Path) : List Char := Text.chars p.text

/-- The texts between slashes; there is always at least one. -/
def segments (p : Path) : List String := (p.chars.splitOn '/').map String.ofList

def ofSegments (segs : List String) : Path := ⟨String.intercalate "/" segs⟩

def isAbsolute (p : Path) : Bool := p.chars.head? == some '/'

def components (p : Path) : List (Component String) :=
  Component.readAll "." Component.ofSegment? p.isAbsolute p.segments

protected def compare (p q : Path) : Ordering := compareOn components p q

instance : Ord Path := ⟨Path.compare⟩

instance : Std.TransCmp Path.compare :=
  inferInstanceAs (Std.TransCmp (compareOn components))

/-- Equal component by component. -/
def same (p q : Path) : Bool := p.components == q.components

/-- Puts `q` after `p`: an absolute `q` replaces `p`, otherwise one slash goes between them. -/
def join (p q : Path) : Path :=
  if q.isAbsolute then q
  else if p.text.isEmpty ∨ p.chars.getLast? = some '/' then ⟨p.text ++ q.text⟩
  else ⟨p.text ++ "/" ++ q.text⟩

instance : Div Path := ⟨join⟩

/-- A path as seen from the directory `dir`; the empty path stands for nothing there either. -/
def startingAt (p dir : Path) : Path := if p.text.isEmpty then p else dir / p

/-- The path that leads along parts, one after another; it starts anew at a root. -/
def ofComponents (cs : List (Component String)) : Path :=
  let (absolute, names) := Component.sinceRoot Component.text cs
  ⟨(if absolute then "/" else "") ++ "/".intercalate names.reverse⟩

/-- The text with single slashes and no inner `.`. -/
def toSlash (p : Path) : String := (ofComponents p.components).text

section
variable {α : Type}

/-- One step of lexical normalization on the parts read so far, last part first. -/
def normalizeStep (acc : List (Component α)) : Component α → List (Component α)
  | .current => acc
  | .parent =>
    match acc with
    | .name _ :: rest => rest
    | .root :: _ => acc
    | _ => .parent :: acc
  | c => c :: acc

def normalizeComponents (cs : List (Component α)) : List (Component α) :=
  (cs.foldl normalizeStep []).reverse

/-- Whether the parts climb above the directory that is `depth` levels up from where they start. -/
def climbsAbove : Nat → List (Component α) → Bool
  | _, [] => false
  | _, .root :: _ => true
  | 0, .parent :: _ => true
  | depth + 1, .parent :: cs => climbsAbove depth cs
  | depth, .name _ :: cs => climbsAbove (depth + 1) cs
  | depth, .current :: cs => climbsAbove depth cs

end

/-- Removes `.` and folds `..` into the name before it; leading `..` stay. -/
def normalize (p : Path) : Path := ofComponents (normalizeComponents p.components)

/-- Absolute, or above its starting directory at some point. -/
def escapesRoot (p : Path) : Bool := p.isAbsolute || climbsAbove 0 p.components

/-- Whether a segment at a place other than the first carries no meaning. -/
def isTrivialSegment (s : String) : Bool := s == "" || s == "."

/-- Drops the segments without meaning at the end; the first segment stays. -/
def trimSegments (segs : List String) : List String :=
  match segs with
  | [] => []
  | first :: rest => first :: (rest.reverse.dropWhile isTrivialSegment).reverse

/-- The segments before the last component, and its own segment; nothing for the empty path and for
a root. -/
def splitLast? (p : Path) : Option (List String × String) :=
  let segs := trimSegments p.segments
  match segs.getLast? with
  | none => none
  | some last => if last = "" then none else some (segs.dropLast, last)

/-- The path without its last component. -/
def parent? (p : Path) : Option Path :=
  p.splitLast?.map fun (before, _) =>
    match trimSegments before with
    | [""] => ⟨"/"⟩
    | segs => ofSegments segs

/-- The last component, when it is a name. -/
def fileName? (p : Path) : Option String :=
  match p.components.getLast? with
  | some (.name s) => some s
  | _ => none

/-- Splits a file name at its last dot; a dot at the very start does not count. -/
def splitExtension (name : String) : String × Option String :=
  let cs := Text.chars name
  let ext := (cs.reverse.takeWhile (· != '.')).reverse
  let stem := cs.take (cs.length - ext.length - 1)
  if stem.isEmpty then (name, none) else (String.ofList stem, some (String.ofList ext))

def extension? (p : Path) : Option String := p.fileName?.bind fun n => (splitExtension n).2

/-- Replaces the extension of the file name, or adds one. The old extension comes off first; where
that leaves no file name, as with `..x`, and where there was none, nothing is added. -/
def withExtension (p : Path) (ext : String) : Path :=
  match p.fileName?, p.splitLast? with
  | some name, some (before, _) =>
    let (stem, old?) := splitExtension name
    if stem = "." ∧ old?.isSome ∧ p.segments.getLast? = some name then
      ofSegments (before ++ [".."])
    else ofSegments (before ++ [if ext = "" then stem else stem ++ "." ++ ext])
  | _, _ => p

/-- The path from the directory `base` to `p`, when `p` lies in it. -/
def under? (p base : Path) : Option Path :=
  if base.components.isPrefixOf p.components then
    some (ofComponents (p.components.drop base.components.length))
  else none

/-- The path itself and every directory above it, nearest first. -/
def ancestors (p : Path) : List Path :=
  go p.text.length p
where
  /-- At most `n` steps up. -/
  go : Nat → Path → List Path
    | 0, p => [p]
    | n + 1, p => p :: (match p.parent? with
      | some q => go n q
      | none => [])

end Path

end GqlArtifacts
