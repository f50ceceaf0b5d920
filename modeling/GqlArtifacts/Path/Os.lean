import GqlArtifacts.Path
import GqlArtifacts.Text.Utf8

/-!
# Paths of a file system

For a file system a path is a sequence of bytes, an `OsPath`, and its names need not be text. Only
slashes and dots have a meaning, so `OsPath.normalize`, `OsPath.escapesRoot` and `/` do to any bytes
what they do to a text, and names stay as they are. `OsPath.toSlash` is a text: what is no character in
a name is replaced. Units are known by the path that is read back from it (`OsPath.logical`).
-/

namespace GqlArtifacts

/-- The bytes of a path. -/
structure OsPath where
  bytes : List UInt8
deriving DecidableEq, Inhabited

namespace OsPath

/-- A name as it stands in a directory. -/
abbrev Name := List UInt8

def slash : UInt8 := 0x2F

def dot : UInt8 := 0x2E

/-- The bytes that a text is written in. -/
def encode (s : String) : Name := s.toUTF8.data.toList

/-- The text of a name, with a replacement for all that is no character. -/
def shown (n : Name) : String := String.ofList (Text.lossyChars n)

def ofText (s : String) : OsPath := ⟨encode s⟩

/-- The names between slashes; there is always at least one. -/
def segments (p : OsPath) : List Name := p.bytes.splitOn slash

def ofSegments (segs : List Name) : OsPath := ⟨[slash].intercalate segs⟩

def isAbsolute (p : OsPath) : Bool := p.bytes.head? == some slash

def ofSegment? (s : Name) : Option (Component Name) := Component.read? [] [dot] [dot, dot] s

def components (p : OsPath) : List (Component Name) :=
  Component.readAll [dot] ofSegment? p.isAbsolute p.segments

/-- Puts `q` after `p`: an absolute `q` replaces `p`, otherwise one slash goes between them. -/
def join (p q : OsPath) : OsPath :=
  if q.isAbsolute then q
  else if p.bytes.isEmpty ∨ p.bytes.getLast? = some slash then ⟨p.bytes ++ q.bytes⟩
  else ⟨p.bytes ++ [slash] ++ q.bytes⟩

instance : Div OsPath := ⟨join⟩

/-- How a part is written. -/
def spelling : Component Name → Name
  | .root => [slash]
  | .current => [dot]
  | .parent => [dot, dot]
  | .name n => n

/-- The path that leads along parts, one after another; it starts anew at a root. -/
def ofComponents (cs : List (Component Name)) : OsPath :=
  let (absolute, names) := Component.sinceRoot spelling cs
  ⟨(if absolute then [slash] else []) ++ [slash].intercalate names.reverse⟩

/-- Removes `.` and folds `..` into the name before it; leading `..` stay. -/
def normalize (p : OsPath) : OsPath := ofComponents (Path.normalizeComponents p.components)

/-- Absolute, or above its starting directory at some point. -/
def escapesRoot (p : OsPath) : Bool := p.isAbsolute || Path.climbsAbove 0 p.components

/-- The text with single slashes and no inner `.`. -/
def toSlash (p : OsPath) : String :=
  (Path.ofComponents (p.components.map (Component.map shown))).text

/-- The form of a path that units are known by. -/
def logical (p : OsPath) : OsPath := ofText p.normalize.toSlash

end OsPath

end GqlArtifacts
