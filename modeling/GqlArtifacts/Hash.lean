import GqlArtifacts.Hash.Xxh3
import GqlArtifacts.Text.Utf8

/-!
# Content hashes

A `ContentHash` is the XXH3 hash of some bytes, low word first and each word in little-endian order.
Its text form is `toHex`, 32 lowercase hexadecimal digits, and `ofHex?` reads exactly such texts.
`chained` hashes a content on top of another hash and `combine` folds several hashes into one; both
work on the text forms, so equal texts give equal hashes on every machine.

Hashes are ordered byte by byte.
-/

namespace GqlArtifacts

structure ContentHash where
  bytes : Vector UInt8 16
deriving DecidableEq, Inhabited

namespace ContentHash

def hexDigit (n : Nat) : Char :=
  if n < 10 then Char.ofNat (48 + n) else Char.ofNat (87 + n)

/-- The value of a lowercase hexadecimal digit. -/
def hexValue? (c : Char) : Option Nat :=
  if '0' ≤ c ∧ c ≤ '9' then some (c.toNat - 48)
  else if 'a' ≤ c ∧ c ≤ 'f' then some (c.toNat - 87)
  else none

def hexByte (b : UInt8) : List Char :=
  [hexDigit (b.toNat / 16), hexDigit (b.toNat % 16)]

/-- Reads pairs of lowercase hexadecimal digits. -/
def readBytes : List Char → Option (List UInt8)
  | [] => some []
  | a :: b :: rest => do
    let hi ← hexValue? a
    let lo ← hexValue? b
    let bytes ← readBytes rest
    return UInt8.ofNat (16 * hi + lo) :: bytes
  | [_] => none

/-- The text form: two digits for each byte. -/
def toHex (h : ContentHash) : String := String.ofList (h.bytes.toList.flatMap hexByte)

instance : ToString ContentHash := ⟨toHex⟩

/-- Reads a text form; anything else but 32 lowercase hexadecimal digits is refused. -/
def ofHex? (s : String) : Option ContentHash := do
  let bytes ← readBytes (Text.chars s)
  if h : bytes.toArray.size = 16 then some ⟨⟨bytes.toArray, h⟩⟩ else none

/-- Why a text is no hash. -/
structure ParseError where
  input : String
deriving DecidableEq

def ParseError.message (e : ParseError) : String :=
  s!"invalid content hash '{e.input}': expected 32 lowercase hex characters"

def parse (s : String) : Except ParseError ContentHash :=
  match ofHex? s with
  | some h => .ok h
  | none => .error ⟨s⟩

/-- A short form for diagnostics. -/
def abbreviated (h : ContentHash) : String :=
  "ContentHash(" ++ String.ofList ((h.bytes.toList.take 2).flatMap hexByte) ++ "..)"

/-- The `k`-th byte of a word, counted from the low end. -/
def wordByte (w : UInt64) (k : Nat) : UInt8 := (w >>> UInt64.ofNat (8 * k)).toUInt8

def ofWords (w : Xxh3.Words) : ContentHash :=
  ⟨Vector.ofFn fun i => if i.val < 8 then wordByte w.low i else wordByte w.high (i - 8)⟩

def ofBytes (data : ByteArray) : ContentHash := ofWords (Xxh3.hash128 data)

def ofText (s : String) : ContentHash := ofBytes s.toUTF8

/-- Hashes `content` on top of `base`. -/
def chained (base : ContentHash) (content : String) : ContentHash :=
  ofText (base.toHex ++ content)

/-- Folds an ordered list of hashes into one. -/
def combine (hashes : List ContentHash) : ContentHash :=
  ofText (String.join (hashes.map toHex))

/-- Byte by byte from the first one. -/
protected def compare (a b : ContentHash) : Ordering :=
  compareOn (fun h : ContentHash => h.bytes.toList) a b

instance : Ord ContentHash := ⟨ContentHash.compare⟩

instance : Std.TransCmp ContentHash.compare :=
  inferInstanceAs (Std.TransCmp (compareOn fun h : ContentHash => h.bytes.toList))

end ContentHash

end GqlArtifacts
