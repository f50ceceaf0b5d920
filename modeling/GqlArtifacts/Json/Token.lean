import GqlArtifacts.Json

/-!
# JSON tokens

`tokens?` cuts a text into brackets, commas, colons and scalars. Integers beyond 64 bits and
numerals with a fraction or an exponent become `float`; a character outside the basic plane may be
written as a surrogate pair.

A text is given as its symbols: characters, and `none` for bytes that make no character. Such bytes
may stand in strings, and so may a surrogate on its own; a string with one of them is `unreadable`.
-/

namespace GqlArtifacts.Json

abbrev Symbols := List (Option Char)

inductive Token where
  | openArray
  | closeArray
  | openObject
  | closeObject
  | comma
  | colon
  | scalar (v : Json)
deriving Inhabited

def isBlank (c : Char) : Bool := c == ' ' || c == '\n' || c == '\t' || c == '\r'

def hexValue? (c : Char) : Option Nat :=
  if '0' ≤ c ∧ c ≤ '9' then some (c.toNat - 48)
  else if 'a' ≤ c ∧ c ≤ 'f' then some (c.toNat - 87)
  else if 'A' ≤ c ∧ c ≤ 'F' then some (c.toNat - 55)
  else none

/-- The value of four hexadecimal digits. -/
def unit? (a b c d : Char) : Option Nat := do
  let a ← hexValue? a
  let b ← hexValue? b
  let c ← hexValue? c
  let d ← hexValue? d
  return ((a * 16 + b) * 16 + c) * 16 + d

def isHighSurrogate (n : Nat) : Bool := 0xD800 ≤ n && n ≤ 0xDBFF
def isLowSurrogate (n : Nat) : Bool := 0xDC00 ≤ n && n ≤ 0xDFFF

/-- The character of a two-character escape. -/
def simpleEscape? : Char → Option Char
  | '"' => some '"'
  | '\\' => some '\\'
  | '/' => some '/'
  | 'b' => some '\x08'
  | 'f' => some '\x0c'
  | 'n' => some '\n'
  | 'r' => some '\r'
  | 't' => some '\t'
  | _ => none

/-- Reads four hexadecimal digits. -/
def readUnit? : Symbols → Option (Nat × Symbols)
  | some a :: some b :: some c :: some d :: rest => (unit? a b c d).map (·, rest)
  | _ => none

/-- Reads the second half of a surrogate pair, if it comes next. -/
def readLow? : Symbols → Option (Nat × Symbols)
  | some '\\' :: some 'u' :: rest => (readUnit? rest).filter fun (n, _) => isLowSurrogate n
  | _ => none

/-- Reads the escape after a backslash: its character, which a surrogate on its own does not have,
and the rest. -/
def readEscape? : Symbols → Option (Option Char × Symbols)
  | some 'u' :: rest =>
    (readUnit? rest).map fun (hi, rest) =>
      if isHighSurrogate hi then
        match readLow? rest with
        | some (lo, rest) =>
          (some (Char.ofNat (0x10000 + (hi - 0xD800) * 0x400 + (lo - 0xDC00))), rest)
        | none => (none, rest)
      else if isLowSurrogate hi then (none, rest)
      else (some (Char.ofNat hi), rest)
  | some c :: rest => (simpleEscape? c).map fun c => (some c, rest)
  | _ => none

theorem length_readUnit? {cs rest : Symbols} {n : Nat} (h : readUnit? cs = some (n, rest)) :
    rest.length < cs.length := by
  unfold readUnit? at h
  split at h
  · obtain ⟨_, -, h⟩ := Option.map_eq_some_iff.1 h
    cases h
    simp only [List.length_cons]; omega
  · cases h

theorem length_readLow? {cs rest : Symbols} {n : Nat} (h : readLow? cs = some (n, rest)) :
    rest.length < cs.length := by
  unfold readLow? at h
  split at h
  · have := length_readUnit? (Option.filter_eq_some_iff.1 h).1
    simp only [List.length_cons]; omega
  · cases h

theorem length_readEscape? {cs rest : Symbols} {c : Option Char}
    (h : readEscape? cs = some (c, rest)) : rest.length < cs.length := by
  unfold readEscape? at h
  split at h
  · obtain ⟨⟨hi, r⟩, hr, h⟩ := Option.map_eq_some_iff.1 h
    have hlt := length_readUnit? hr
    simp only at h
    split at h
    · split at h
      · next hlow =>
        have := length_readLow? hlow
        cases h
        simp only [List.length_cons]; omega
      · cases h
        simp only [List.length_cons]; omega
    · split at h <;> cases h <;> simp only [List.length_cons] <;> omega
  · obtain ⟨_, -, h⟩ := Option.map_eq_some_iff.1 h
    cases h
    simp
  · cases h

/-- Reads the symbols of a string after its opening quote, and the rest after the closing one. -/
def readString? (cs : Symbols) : Option (Symbols × Symbols) :=
  match cs with
  | [] => none
  | none :: rest => (readString? rest).map fun (s, r) => (none :: s, r)
  | some '"' :: rest => some ([], rest)
  | some '\\' :: rest =>
    match _h : readEscape? rest with
    | none => none
    | some (c, rest') => (readString? rest').map fun (s, r) => (c :: s, r)
  | some c :: rest =>
    if c.toNat < 32 then none
    else (readString? rest).map fun (s, r) => (some c :: s, r)
termination_by cs.length
decreasing_by
  · simp
  · have := length_readEscape? _h
    simp only [List.length_cons]; omega
  · simp

theorem length_readString? {cs s rest : Symbols} (h : readString? cs = some (s, rest)) :
    rest.length < cs.length := by
  fun_induction readString? cs generalizing s with
  | case1 => cases h
  | case2 rest' ih =>
    obtain ⟨⟨s', r⟩, hr, h⟩ := Option.map_eq_some_iff.1 h
    cases h
    have := ih hr
    simp only [List.length_cons]; omega
  | case3 => cases h; simp
  | case4 => cases h
  | case5 rest' c rest'' he ih =>
    obtain ⟨⟨s', r⟩, hr, h⟩ := Option.map_eq_some_iff.1 h
    cases h
    have := ih hr
    have := length_readEscape? he
    simp only [List.length_cons]; omega
  | case6 => cases h
  | case7 c rest' _ _ _ ih =>
    obtain ⟨⟨s', r⟩, hr, h⟩ := Option.map_eq_some_iff.1 h
    cases h
    have := ih hr
    simp only [List.length_cons]; omega

/-- The string of some symbols. -/
def stringOf (s : Symbols) : Json :=
  match s.mapM id with
  | some cs => string (String.ofList cs)
  | none => unreadable

def isDigit (c : Char) : Bool := '0' ≤ c && c ≤ '9'

/-- Takes the digits at the front. -/
def readDigits : Symbols → List Char × Symbols
  | some c :: rest =>
    if isDigit c then
      let (ds, r) := readDigits rest
      (c :: ds, r)
    else ([], some c :: rest)
  | rest => ([], rest)

theorem length_readDigits (cs : Symbols) :
    (readDigits cs).1.length + (readDigits cs).2.length = cs.length := by
  induction cs with
  | nil => rfl
  | cons c cs ih =>
    cases c with
    | none => simp [readDigits]
    | some c =>
      simp only [readDigits]
      split
      · simp only [List.length_cons]; omega
      · simp

/-- The value of a run of digits. -/
def natOfDigits (cs : List Char) : Nat := cs.foldl (fun n c => n * 10 + (c.toNat - 48)) 0

/-- Reads the digits after a decimal point, if there is a point. -/
def readFraction? : Symbols → Option (Option (List Char) × Symbols)
  | some '.' :: rest =>
    let (ds, r) := readDigits rest
    if ds.isEmpty then none else some (some ds, r)
  | cs => some (none, cs)

/-- Takes a sign, and tells whether it is a minus. -/
def readSign : Symbols → Bool × Symbols
  | some '+' :: r => (false, r)
  | some '-' :: r => (true, r)
  | r => (false, r)

/-- Reads an exponent, if there is one. -/
def readExponent? : Symbols → Option (Option Int × Symbols)
  | some e :: rest =>
    if e = 'e' ∨ e = 'E' then
      let (negative, r) := readSign rest
      let (ds, r) := readDigits r
      if ds.isEmpty then none
      else
        let n : Int := natOfDigits ds
        some (some (if negative then -n else n), r)
    else some (none, some e :: rest)
  | rest => some (none, rest)

/-- The number with the given sign, digits, fraction and exponent. -/
def numberOfParts (negative : Bool) (ds : List Char) (fraction : Option (List Char))
    (exponent : Option Int) : Json :=
  match fraction, exponent with
  | none, none =>
    let n := natOfDigits ds
    if negative then
      if n = 0 ∨ Nat.pow 2 63 < n then float ⟨true, n, 0⟩ else int (-n)
    else if UInt64.size ≤ n then float ⟨false, n, 0⟩ else int n
  | _, _ =>
    let fs := fraction.getD []
    float ⟨negative, natOfDigits (ds ++ fs), exponent.getD 0 - fs.length⟩

/-- Takes a minus sign, and tells whether there is one. -/
def readMinus : Symbols → Bool × Symbols
  | some '-' :: r => (true, r)
  | r => (false, r)

/-- Reads the digits before the point: at least one, and no needless zero. -/
def readWhole? (cs : Symbols) : Option (List Char × Symbols) :=
  let (ds, r) := readDigits cs
  if ds.isEmpty ∨ (ds.length > 1 ∧ ds.head? = some '0') then none else some (ds, r)

def readNumber? (cs : Symbols) : Option (Json × Symbols) := do
  let (ds, r) ← readWhole? (readMinus cs).2
  let (fraction, r) ← readFraction? r
  let (exponent, r) ← readExponent? r
  return (numberOfParts (readMinus cs).1 ds fraction exponent, r)

theorem length_readFraction? {cs rest : Symbols} {ds : Option (List Char)}
    (h : readFraction? cs = some (ds, rest)) : rest.length ≤ cs.length := by
  unfold readFraction? at h
  split at h
  · next r =>
    have := length_readDigits r
    simp only at h
    split at h
    · cases h
    · cases h
      simp only [List.length_cons]; omega
  · cases h
    exact Nat.le_refl _

theorem length_readSign (cs : Symbols) : (readSign cs).2.length ≤ cs.length := by
  unfold readSign
  split <;> simp

theorem length_readExponent? {cs rest : Symbols} {n : Option Int}
    (h : readExponent? cs = some (n, rest)) : rest.length ≤ cs.length := by
  unfold readExponent? at h
  split at h
  · next r =>
    have := length_readSign r
    have := length_readDigits (readSign r).2
    split at h
    · simp only at h
      split at h
      · cases h
      · cases h
        simp only [List.length_cons]; omega
    · cases h
      exact Nat.le_refl _
  · cases h
    exact Nat.le_refl _

theorem length_readMinus (cs : Symbols) : (readMinus cs).2.length ≤ cs.length := by
  unfold readMinus
  split <;> simp

theorem length_readWhole? {cs rest : Symbols} {ds : List Char}
    (h : readWhole? cs = some (ds, rest)) : rest.length < cs.length := by
  have := length_readDigits cs
  simp only [readWhole?] at h
  split at h
  · cases h
  · next hd =>
    cases h
    have : 0 < (readDigits cs).1.length := by
      apply List.length_pos_iff.2
      intro he
      simp [he] at hd
    omega

theorem length_readNumber? {cs rest : Symbols} {v : Json}
    (h : readNumber? cs = some (v, rest)) : rest.length < cs.length := by
  simp only [readNumber?, Option.bind_eq_bind, Option.bind_eq_some_iff] at h
  obtain ⟨⟨ds, r⟩, hw, ⟨fraction, r'⟩, hf, ⟨exponent, r''⟩, hx, h⟩ := h
  cases h
  simp only at hf hx ⊢
  have := length_readMinus cs
  have := length_readWhole? hw
  have := length_readFraction? hf
  have := length_readExponent? hx
  omega

/-- Reads the token that starts the text. -/
def readToken? : Symbols → Option (Token × Symbols)
  | some '[' :: r => some (.openArray, r)
  | some ']' :: r => some (.closeArray, r)
  | some '\x7b' :: r => some (.openObject, r)
  | some '\x7d' :: r => some (.closeObject, r)
  | some ',' :: r => some (.comma, r)
  | some ':' :: r => some (.colon, r)
  | some '"' :: r => (readString? r).map fun (s, r) => (.scalar (stringOf s), r)
  | some 'n' :: some 'u' :: some 'l' :: some 'l' :: r => some (.scalar null, r)
  | some 't' :: some 'r' :: some 'u' :: some 'e' :: r => some (.scalar (bool true), r)
  | some 'f' :: some 'a' :: some 'l' :: some 's' :: some 'e' :: r => some (.scalar (bool false), r)
  | r => (readNumber? r).map fun (v, r) => (.scalar v, r)

/-- The tokens that are always written the same. -/
def fixedTokens : List (Symbols × Token) :=
  [([some '['], .openArray), ([some ']'], .closeArray), ([some '\x7b'], .openObject),
    ([some '\x7d'], .closeObject), ([some ','], .comma), ([some ':'], .colon),
    ([some 'n', some 'u', some 'l', some 'l'], .scalar null),
    ([some 't', some 'r', some 'u', some 'e'], .scalar (bool true)),
    ([some 'f', some 'a', some 'l', some 's', some 'e'], .scalar (bool false))]

/-- A token that is read is always written the same, or it is a string or a number. -/
theorem readToken?_cases {cs rest : Symbols} {t : Token} (h : readToken? cs = some (t, rest)) :
    (∃ word, (word, t) ∈ fixedTokens ∧ cs = word ++ rest) ∨
      (∃ r s, cs = some '"' :: r ∧ readString? r = some (s, rest) ∧ t = .scalar (stringOf s)) ∨
      ∃ v, readNumber? cs = some (v, rest) ∧ t = .scalar v := by
  unfold readToken? at h
  split at h
  case h_7 r =>
    obtain ⟨⟨s, r'⟩, hs, h⟩ := Option.map_eq_some_iff.1 h
    cases h
    exact .inr (.inl ⟨r, s, rfl, hs, rfl⟩)
  case h_11 =>
    obtain ⟨⟨v, r'⟩, hv, h⟩ := Option.map_eq_some_iff.1 h
    cases h
    exact .inr (.inr ⟨v, hv, rfl⟩)
  all_goals
    cases h
    left
    simp [fixedTokens]

theorem length_readToken? {cs rest : Symbols} {t : Token} (h : readToken? cs = some (t, rest)) :
    rest.length < cs.length := by
  rcases readToken?_cases h with ⟨word, hword, rfl⟩ | ⟨r, s, rfl, hs, -⟩ | ⟨v, hv, -⟩
  · have hlength : ∀ e ∈ fixedTokens, 0 < e.1.length := by decide
    have : 0 < word.length := hlength _ hword
    rw [List.length_append]
    omega
  · have := length_readString? hs
    rw [List.length_cons]
    omega
  · exact length_readNumber? hv

/-- The tokens of a text, with blanks between them. -/
def tokens? (cs : Symbols) : Option (List Token) :=
  match cs with
  | [] => some []
  | none :: _ => none
  | some c :: rest =>
    if isBlank c then tokens? rest
    else
      match _h : readToken? (some c :: rest) with
      | none => none
      | some (t, r) => (tokens? r).map (t :: ·)
termination_by cs.length
decreasing_by
  · simp
  · exact length_readToken? _h

end GqlArtifacts.Json
