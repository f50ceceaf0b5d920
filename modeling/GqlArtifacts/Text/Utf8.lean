/-!
# Bytes as text

`Text.decode` reads bytes as UTF-8. A run of bytes that starts a character without finishing it, and
a byte that starts none, make no character; `Text.lossy` puts a replacement character in the place
of each.
-/

namespace GqlArtifacts.Text

def replacement : Char := '\ufffd'

def isContinuation (b : UInt8) : Bool := 0x80 ≤ b && b ≤ 0xBF

/-- The number of bytes after a leading byte, and the range that the first of them lies in. -/
def leading? (b : UInt8) : Option (Nat × UInt8 × UInt8) :=
  if 0xC2 ≤ b && b ≤ 0xDF then some (1, 0x80, 0xBF)
  else if b == 0xE0 then some (2, 0xA0, 0xBF)
  else if b == 0xED then some (2, 0x80, 0x9F)
  else if 0xE1 ≤ b && b ≤ 0xEF then some (2, 0x80, 0xBF)
  else if b == 0xF0 then some (3, 0x90, 0xBF)
  else if 0xF1 ≤ b && b ≤ 0xF3 then some (3, 0x80, 0xBF)
  else if b == 0xF4 then some (3, 0x80, 0x8F)
  else none

/-- The bits that a leading byte with `n` bytes after it contributes. -/
def leadingBits (b : UInt8) (n : Nat) : Nat :=
  match n with
  | 1 => b.toNat % 32
  | 2 => b.toNat % 16
  | _ => b.toNat % 8

/-- Reads up to `n` continuation bytes onto `acc`: the value if all are there, and the rest. -/
def continuation : (n acc : Nat) → List UInt8 → Option Nat × List UInt8
  | 0, acc, bs => (some acc, bs)
  | _ + 1, _, [] => (none, [])
  | n + 1, acc, b :: bs =>
    if isContinuation b then continuation n (acc * 64 + b.toNat % 64) bs else (none, b :: bs)

/-- Reads one character after its leading byte: the character if it is whole, and the rest. -/
def decodeOne (b : UInt8) (bs : List UInt8) : Option Char × List UInt8 :=
  if b < 0x80 then (some (Char.ofNat b.toNat), bs)
  else
    match leading? b with
    | none => (none, bs)
    | some (n, lo, hi) =>
      match bs with
      | [] => (none, [])
      | c :: cs =>
        if lo ≤ c && c ≤ hi then
          let (value, rest) := continuation (n - 1) (leadingBits b n * 64 + c.toNat % 64) cs
          (value.map Char.ofNat, rest)
        else (none, c :: cs)

theorem length_continuation (n acc : Nat) (bs : List UInt8) :
    (continuation n acc bs).2.length ≤ bs.length := by
  induction n generalizing acc bs with
  | zero => simp [continuation]
  | succ n ih =>
    cases bs with
    | nil => simp [continuation]
    | cons b bs =>
      simp only [continuation]
      split
      · have := ih (acc * 64 + b.toNat % 64) bs
        simp only [List.length_cons]; omega
      · simp

theorem length_decodeOne (b : UInt8) (bs : List UInt8) :
    (decodeOne b bs).2.length ≤ bs.length := by
  unfold decodeOne
  split
  · simp
  · split
    · simp
    · split
      · simp
      · split
        · simp only [List.length_cons]
          exact Nat.le_succ_of_le (length_continuation _ _ _)
        · simp

/-- The characters of the bytes, and `none` for every run of bytes that makes none. -/
def decode (bs : List UInt8) : List (Option Char) :=
  match bs with
  | [] => []
  | b :: rest => (decodeOne b rest).1 :: decode (decodeOne b rest).2
termination_by bs.length
decreasing_by
  have := length_decodeOne b rest
  simp only [List.length_cons]; omega

/-- The characters of bytes that are all ASCII. -/
def ascii? : List UInt8 → Option (List Char)
  | [] => some []
  | b :: bs => if b < 0x80 then (ascii? bs).map (Char.ofNat b.toNat :: ·) else none

/-- The characters of a text. Those of an ASCII text are read off its bytes one by one, which takes
few steps where it is evaluated in a proof. -/
def chars (s : String) : List Char := (ascii? s.toUTF8.data.toList).getD s.toList

/-- The text that is encoded in the bytes, if one is; again ASCII is read one by one. -/
def ofBytes? (content : ByteArray) : Option String :=
  match ascii? content.data.toList with
  | some cs => some (String.ofList cs)
  | none => String.fromUTF8? content

def lossyChars (bs : List UInt8) : List Char := (decode bs).map (·.getD replacement)

def lossy (content : ByteArray) : String := String.ofList (lossyChars content.toList)

end GqlArtifacts.Text
