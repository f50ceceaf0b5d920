/-!
# XXH3, 128 bits, seed 0

`Xxh3.hash128 data` is the pair of the low and the high 64-bit word of the XXH3 hash of `data`.
All arithmetic wraps at 64 bits and all words are read in little-endian order. There is one case
for each range of lengths: `short` (up to 16 bytes), `medium` (up to 240) and `long`.
-/

namespace GqlArtifacts.Xxh3

/-- The fixed 192-byte secret. -/
def secret : ByteArray := ⟨#[
  0xb8, 0xfe, 0x6c, 0x39, 0x23, 0xa4, 0x4b, 0xbe, 0x7c, 0x01, 0x81, 0x2c, 0xf7, 0x21, 0xad, 0x1c,
  0xde, 0xd4, 0x6d, 0xe9, 0x83, 0x90, 0x97, 0xdb, 0x72, 0x40, 0xa4, 0xa4, 0xb7, 0xb3, 0x67, 0x1f,
  0xcb, 0x79, 0xe6, 0x4e, 0xcc, 0xc0, 0xe5, 0x78, 0x82, 0x5a, 0xd0, 0x7d, 0xcc, 0xff, 0x72, 0x21,
  0xb8, 0x08, 0x46, 0x74, 0xf7, 0x43, 0x24, 0x8e, 0xe0, 0x35, 0x90, 0xe6, 0x81, 0x3a, 0x26, 0x4c,
  0x3c, 0x28, 0x52, 0xbb, 0x91, 0xc3, 0x00, 0xcb, 0x88, 0xd0, 0x65, 0x8b, 0x1b, 0x53, 0x2e, 0xa3,
  0x71, 0x64, 0x48, 0x97, 0xa2, 0x0d, 0xf9, 0x4e, 0x38, 0x19, 0xef, 0x46, 0xa9, 0xde, 0xac, 0xd8,
  0xa8, 0xfa, 0x76, 0x3f, 0xe3, 0x9c, 0x34, 0x3f, 0xf9, 0xdc, 0xbb, 0xc7, 0xc7, 0x0b, 0x4f, 0x1d,
  0x8a, 0x51, 0xe0, 0x4b, 0xcd, 0xb4, 0x59, 0x31, 0xc8, 0x9f, 0x7e, 0xc9, 0xd9, 0x78, 0x73, 0x64,
  0xea, 0xc5, 0xac, 0x83, 0x34, 0xd3, 0xeb, 0xc3, 0xc5, 0x81, 0xa0, 0xff, 0xfa, 0x13, 0x63, 0xeb,
  0x17, 0x0d, 0xdd, 0x51, 0xb7, 0xf0, 0xda, 0x49, 0xd3, 0x16, 0x55, 0x26, 0x29, 0xd4, 0x68, 0x9e,
  0x2b, 0x16, 0xbe, 0x58, 0x7d, 0x47, 0xa1, 0xfc, 0x8f, 0xf8, 0xb8, 0xd1, 0x7a, 0xd0, 0x31, 0xce,
  0x45, 0xcb, 0x3a, 0x8f, 0x95, 0x16, 0x04, 0x28, 0xaf, 0xd7, 0xfb, 0xca, 0xbb, 0x4b, 0x40, 0x7e]⟩

def prime32_1 : UInt64 := 0x9E3779B1
def prime32_2 : UInt64 := 0x85EBCA77
def prime32_3 : UInt64 := 0xC2B2AE3D
def prime64_1 : UInt64 := 0x9E3779B185EBCA87
def prime64_2 : UInt64 := 0xC2B2AE3D27D4EB4F
def prime64_3 : UInt64 := 0x165667B19E3779F9
def prime64_4 : UInt64 := 0x85EBCA77C2B2AE63
def prime64_5 : UInt64 := 0x27D4EB2F165667C5
def primeMx1 : UInt64 := 0x165667919E3779F9
def primeMx2 : UInt64 := 0x9FB21C651E98DF25

/-- The low and the high word of a 128-bit value. -/
structure Words where
  low : UInt64
  high : UInt64
deriving DecidableEq, Inhabited

/-- The byte at `i`; past the end it is zero. -/
def byteAt (b : ByteArray) (i : Nat) : UInt64 :=
  if h : i < b.size then (b.get i h).toUInt64 else 0

/-- Four bytes at `i`, little-endian. -/
def read32 (b : ByteArray) (i : Nat) : UInt64 :=
  byteAt b i ||| byteAt b (i + 1) <<< 8 ||| byteAt b (i + 2) <<< 16 ||| byteAt b (i + 3) <<< 24

/-- Eight bytes at `i`, little-endian. -/
def read64 (b : ByteArray) (i : Nat) : UInt64 :=
  read32 b i ||| read32 b (i + 4) <<< 32

def low32 (x : UInt64) : UInt64 := x &&& 0xFFFFFFFF

def swap32 (x : UInt64) : UInt64 :=
  (x &&& 0xFF) <<< 24 ||| (x >>> 8 &&& 0xFF) <<< 16 ||| (x >>> 16 &&& 0xFF) <<< 8 |||
    (x >>> 24 &&& 0xFF)

def swap64 (x : UInt64) : UInt64 :=
  swap32 (low32 x) <<< 32 ||| swap32 (x >>> 32)

/-- The full product of two words. -/
def mul128 (a b : UInt64) : Words :=
  let p := a.toNat * b.toNat
  ⟨UInt64.ofNat p, UInt64.ofNat (p / UInt64.size)⟩

/-- The two halves of the full product, folded by exclusive or. -/
def mulFold (a b : UInt64) : UInt64 :=
  let p := mul128 a b
  p.low ^^^ p.high

def avalanche64 (h : UInt64) : UInt64 :=
  let h := (h ^^^ h >>> 33) * prime64_2
  let h := (h ^^^ h >>> 29) * prime64_3
  h ^^^ h >>> 32

def avalanche (h : UInt64) : UInt64 :=
  let h := (h ^^^ h >>> 37) * primeMx1
  h ^^^ h >>> 32

def secretXor (i j : Nat) : UInt64 := read64 secret i ^^^ read64 secret j

def short (data : ByteArray) : Words :=
  let n := data.size
  let len := UInt64.ofNat n
  if n = 0 then
    ⟨avalanche64 (secretXor 64 72), avalanche64 (secretXor 80 88)⟩
  else if n ≤ 3 then
    let lo := byteAt data 0 <<< 16 ||| byteAt data (n / 2) <<< 24 ||| byteAt data (n - 1) |||
      len <<< 8
    let s := swap32 lo
    let hi := low32 (s <<< 13) ||| s >>> 19
    ⟨avalanche64 (lo ^^^ (read32 secret 0 ^^^ read32 secret 4)),
      avalanche64 (hi ^^^ (read32 secret 8 ^^^ read32 secret 12))⟩
  else if n ≤ 8 then
    let keyed := (read32 data 0 + read32 data (n - 4) <<< 32) ^^^ secretXor 16 24
    let m := mul128 keyed (prime64_1 + len <<< 2)
    let high := m.high + m.low <<< 1
    let low := m.low ^^^ high >>> 3
    let low := (low ^^^ low >>> 35) * primeMx2
    ⟨low ^^^ low >>> 28, avalanche high⟩
  else
    let lo := read64 data 0
    let hi := read64 data (n - 8)
    let m := mul128 (lo ^^^ hi ^^^ secretXor 32 40) prime64_1
    let mLow := m.low + (len - 1) <<< 54
    let hi := hi ^^^ secretXor 48 56
    let mHigh := m.high + (hi + low32 hi * (prime32_2 - 1))
    let h := mul128 (mLow ^^^ swap64 mHigh) prime64_2
    ⟨avalanche h.low, avalanche (h.high + mHigh * prime64_2)⟩

/-- Sixteen bytes at `i`, keyed by the secret at `s`. -/
def mix16 (data : ByteArray) (i s : Nat) : UInt64 :=
  mulFold (read64 data i ^^^ read64 secret s) (read64 data (i + 8) ^^^ read64 secret (s + 8))

/-- Two sixteen-byte runs at `i` and `j`, keyed by the secret at `s`. -/
def mix32 (data : ByteArray) (acc : Words) (i j s : Nat) : Words :=
  ⟨(acc.low + mix16 data i s) ^^^ (read64 data j + read64 data (j + 8)),
    (acc.high + mix16 data j (s + 16)) ^^^ (read64 data i + read64 data (i + 8))⟩

def finishMedium (len : UInt64) (acc : Words) : Words :=
  ⟨avalanche (acc.low + acc.high),
    0 - avalanche (acc.low * prime64_1 + acc.high * prime64_4 + len * prime64_2)⟩

def medium (data : ByteArray) : Words :=
  let n := data.size
  let len := UInt64.ofNat n
  let acc : Words := ⟨len * prime64_1, 0⟩
  if n ≤ 128 then
    let outer := (n - 1) / 32
    finishMedium len <| (List.range (outer + 1)).reverse.foldl
      (fun acc k => mix32 data acc (16 * k) (n - 16 * (k + 1)) (32 * k)) acc
  else
    let acc := (List.range 4).foldl
      (fun acc k => mix32 data acc (32 * k) (32 * k + 16) (32 * k)) acc
    let acc : Words := ⟨avalanche acc.low, avalanche acc.high⟩
    let acc := (List.range (n / 32 - 4)).foldl
      (fun acc k => mix32 data acc (32 * k + 128) (32 * k + 144) (32 * k + 3)) acc
    finishMedium len (mix32 data acc (n - 16) (n - 32) 103)

/-- The eight lanes of the long form. -/
abbrev Lanes := Vector UInt64 8

def initialLanes : Lanes :=
  #v[prime32_3, prime64_1, prime64_2, prime64_3, prime64_4, prime32_2, prime64_5, prime32_1]

/-- Adds the 64-byte stripe at `i`, keyed by the secret at `s`. -/
def accumulate (data : ByteArray) (acc : Lanes) (i s : Nat) : Lanes :=
  let keyed (k : Nat) : UInt64 := read64 data (i + 8 * k) ^^^ read64 secret (s + 8 * k)
  let other (k : Nat) : UInt64 := read64 data (i + 8 * (if k % 2 = 0 then k + 1 else k - 1))
  acc.mapIdx fun k a => a + other k + low32 (keyed k) * (keyed k >>> 32)

/-- Mixes the lanes at the end of a block. -/
def scramble (acc : Lanes) : Lanes :=
  acc.mapIdx fun k (a : UInt64) => (a ^^^ a >>> 47 ^^^ read64 secret (128 + 8 * k)) * prime32_1

def merge (acc : Lanes) (s : Nat) (start : UInt64) : UInt64 :=
  avalanche (start +
    mulFold (acc[0] ^^^ read64 secret s) (acc[1] ^^^ read64 secret (s + 8)) +
    mulFold (acc[2] ^^^ read64 secret (s + 16)) (acc[3] ^^^ read64 secret (s + 24)) +
    mulFold (acc[4] ^^^ read64 secret (s + 32)) (acc[5] ^^^ read64 secret (s + 40)) +
    mulFold (acc[6] ^^^ read64 secret (s + 48)) (acc[7] ^^^ read64 secret (s + 56)))

/-- Accumulates `count` stripes from `start`, each with the secret moved on by eight bytes. -/
def accumulateStripes (data : ByteArray) (acc : Lanes) (start count : Nat) : Lanes :=
  (List.range count).foldl (fun acc k => accumulate data acc (start + 64 * k) (8 * k)) acc

def long (data : ByteArray) : Words :=
  let n := data.size
  let len := UInt64.ofNat n
  let blocks := (n - 1) / 1024
  let acc := (List.range blocks).foldl
    (fun acc b => scramble (accumulateStripes data acc (1024 * b) 16)) initialLanes
  let acc := accumulateStripes data acc (1024 * blocks) ((n - 1 - 1024 * blocks) / 64)
  let acc := accumulate data acc (n - 64) 121
  ⟨merge acc 11 (len * prime64_1), merge acc 117 (~~~(len * prime64_2))⟩

def hash128 (data : ByteArray) : Words :=
  if data.size ≤ 16 then short data
  else if data.size ≤ 240 then medium data
  else long data

end GqlArtifacts.Xxh3
