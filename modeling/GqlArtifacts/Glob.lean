/-!
# Glob patterns

A `Glob` is read part by part, each between two slashes. In a part, `?` stands for one character,
`*` for any run of characters and brackets for one character of a set, or not of it after `!`; a
leading dot is a character like any other. A part `**` stands for directories nested to any depth,
and the two stars stand in no other part.
-/

namespace GqlArtifacts

namespace Glob

inductive Token where
  | char (c : Char)
  | any
  | run
  /-- One character in one of the spans, or in none of them. -/
  | set (negated : Bool) (spans : List (Char × Char))
deriving DecidableEq, Inhabited

inductive Part where
  | tree
  | name (tokens : List Token)
deriving DecidableEq, Inhabited

/-- Whether a token other than `run` stands for a character. -/
def Token.accepts (c : Char) : Token → Bool
  | char d => c == d
  | any => true
  | run => false
  | set negated spans => (spans.any fun (lo, hi) => lo ≤ c && c ≤ hi) != negated

/-- A text and all that is left of it when characters are taken from its front. -/
def suffixes : List Char → List (List Char)
  | [] => [[]]
  | c :: cs => (c :: cs) :: suffixes cs

/-- A text without its first character, if the token stands for that. -/
def Token.step? (t : Token) : List Char → Option (List Char)
  | [] => none
  | c :: cs => if t.accepts c then some cs else none

/-- What the tokens can leave of a text. `rests` is what is left so far, longest first, and each is
a suffix of the one before it; so a run leaves the suffixes of the first. -/
def remainders : List Token → (rests : List (List Char)) → List (List Char)
  | [], rests => rests
  | .run :: ts, rests => remainders ts ((rests.head?.map suffixes).getD [])
  | t :: ts, rests => remainders ts (rests.filterMap t.step?)

/-- Whether the tokens stand for exactly these characters. -/
def fits (ts : List Token) (cs : List Char) : Bool := (remainders ts [cs]).any List.isEmpty

/-- The spans of a set; a dash between two characters makes one span of them. -/
def spans : List Char → List (Char × Char)
  | a :: '-' :: b :: rest => (a, b) :: spans rest
  | a :: rest => (a, a) :: spans rest
  | [] => []

/-- Reads the rest of a set whose first character is `c`; it runs up to the next closing bracket. -/
def closeSet? (negated : Bool) (c : Char) (rest : List Char) : Option (Token × List Char) :=
  match rest.dropWhile (· != ']') with
  | [] => none
  | _ :: r => some (.set negated (spans (c :: rest.takeWhile (· != ']'))), r)

/-- Reads a set after its opening bracket. -/
def readSet? : List Char → Option (Token × List Char)
  | '!' :: c :: rest => closeSet? true c rest
  | c :: rest => closeSet? false c rest
  | [] => none

theorem length_closeSet? {negated : Bool} {c : Char} {rest r : List Char} {t : Token}
    (h : closeSet? negated c rest = some (t, r)) : r.length < rest.length := by
  unfold closeSet? at h
  split at h
  · cases h
  · next heq =>
    cases h
    have := (List.dropWhile_sublist (p := (· != ']')) (l := rest)).length_le
    rw [heq, List.length_cons] at this
    omega

theorem length_readSet? {cs r : List Char} {t : Token} (h : readSet? cs = some (t, r)) :
    r.length < cs.length := by
  unfold readSet? at h
  split at h
  · have := length_closeSet? h
    simp only [List.length_cons]; omega
  · have := length_closeSet? h
    simp only [List.length_cons]; omega
  · cases h

/-- Reads the tokens of a part, in which no two stars stand together. -/
def tokens? (cs : List Char) : Option (List Token) :=
  match cs with
  | [] => some []
  | '*' :: rest => if rest.head? = some '*' then none else (tokens? rest).map (.run :: ·)
  | '?' :: rest => (tokens? rest).map (.any :: ·)
  | '[' :: rest =>
    match _h : readSet? rest with
    | none => none
    | some (t, r) => (tokens? r).map (t :: ·)
  | c :: rest => (tokens? rest).map (.char c :: ·)
termination_by cs.length
decreasing_by
  · simp
  · simp
  · have := length_readSet? _h
    simp only [List.length_cons]; omega
  · simp

def part? (cs : List Char) : Option Part :=
  if cs = ['*', '*'] then some .tree else (tokens? cs).map .name

/-- The text of a part that only has characters. -/
def Part.literal? : Part → Option (List Char)
  | tree => none
  | name tokens => tokens.mapM fun
    | .char c => some c
    | _ => none

end Glob

structure Glob where
  parts : List Glob.Part
  /-- A slash at the end: only a directory will do. -/
  directory : Bool
deriving DecidableEq, Inhabited

namespace Glob

/-- Reads a pattern relative to some directory. -/
def parse? (s : String) : Option Glob := do
  let segs := s.toList.splitOn '/'
  let directory := segs.getLast? == some []
  let parts ← (if directory then segs.dropLast else segs).mapM part?
  return ⟨parts, directory⟩

end Glob

end GqlArtifacts
