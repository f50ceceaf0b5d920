import GqlArtifacts.Json.Token
import Mathlib.Data.List.Basic

/-!
# The strings of script literals

`Literal.value? quote cs` is the string that a script denotes by the text `cs` between two quotes, in
UTF-16 code units: escapes are resolved, and a template literal has its line ends as line feeds and no
placeholders. Octal escapes are left out, as in modules. A text without a backslash denotes its own
characters (`value?_of_not_mem`), and any other text a shorter string (`length_lt_of_mem`).
-/

namespace GqlArtifacts.Literal

open Json

variable {quote c : Char} {cs rest : List Char} {us : List Nat} {n : Nat}

/-- The code units of a code point. -/
def units (n : Nat) : List Nat :=
  if n < 0x10000 then [n]
  else [0xD800 + (n - 0x10000) / 0x400, 0xDC00 + (n - 0x10000) % 0x400]

def unitsOf (cs : List Char) : List Nat := cs.flatMap fun c => units c.toNat

def isLineEnd (c : Char) : Bool := c == '\n' || c == '\r' || c == '\u2028' || c == '\u2029'

/-- The control character that a letter stands for after a backslash. -/
def control? : Char → Option Nat
  | 'b' => some 0x08
  | 't' => some 0x09
  | 'n' => some 0x0A
  | 'v' => some 0x0B
  | 'f' => some 0x0C
  | 'r' => some 0x0D
  | _ => none

/-- Reads the digits of a code point up to a closing brace, `n` being the value of those before. -/
def readCodePoint? (n : Nat) : List Char → Option (Nat × List Char)
  | [] => none
  | c :: cs =>
    if c = '}' then some (n, cs)
    else (hexValue? c).bind fun d =>
      if n * 16 + d ≤ 0x10FFFF then readCodePoint? (n * 16 + d) cs else none

/-- Reads the escape of a single character. -/
def readCharacter? (c : Char) (cs : List Char) : Option (List Nat × List Char) :=
  if isLineEnd c then some ([], cs)
  else if c = '0' ∧ !cs.head?.any Char.isDigit then some ([0], cs)
  else if c = 'x' ∨ c = 'u' ∨ c.isDigit then none
  else some (((control? c).map fun n => [n]).getD (units c.toNat), cs)

/-- Reads the escape after a backslash: its code units, none for a line end, and the rest. -/
def readEscape? : List Char → Option (List Nat × List Char)
  | 'x' :: a :: b :: cs => (unit? '0' '0' a b).map fun n => ([n], cs)
  | 'u' :: '{' :: c :: cs =>
    ((hexValue? c).bind fun d => readCodePoint? d cs).map fun (n, rest) => (units n, rest)
  | 'u' :: a :: b :: c :: d :: cs => (unit? a b c d).map fun n => ([n], cs)
  | '\r' :: '\n' :: cs => some ([], cs)
  | c :: cs => readCharacter? c cs
  | [] => none

/-- Whether a character on its own ends or breaks the text between two quotes. -/
def breaks (quote c : Char) (cs : List Char) : Bool :=
  c == quote || if quote = '`' then c == '$' && cs.head? == some '{' else c == '\n' || c == '\r'

/-! ### Escapes -/

theorem one_le_length_units (n : Nat) : 1 ≤ (units n).length := by
  unfold units
  split <;> simp

theorem length_units_le (n : Nat) : (units n).length ≤ 2 := by
  unfold units
  split <;> simp

theorem unitsOf_cons (c : Char) (cs : List Char) :
    unitsOf (c :: cs) = units c.toNat ++ unitsOf cs := List.flatMap_cons ..

theorem length_unitsOf_cons (c : Char) (cs : List Char) :
    (unitsOf (c :: cs)).length = (units c.toNat).length + (unitsOf cs).length := by
  rw [unitsOf_cons, List.length_append]

/-- One character is at least one unit. -/
theorem length_unitsOf_lt (c : Char) (cs : List Char) :
    (unitsOf cs).length < (unitsOf (c :: cs)).length := by
  have := one_le_length_units c.toNat
  rw [length_unitsOf_cons]
  omega

theorem length_readCodePoint? {m : Nat} (h : readCodePoint? n cs = some (m, rest)) :
    rest.length < cs.length ∧ (unitsOf rest).length < (unitsOf cs).length := by
  induction cs generalizing n with
  | nil => cases h
  | cons c cs ih =>
    have hlt := length_unitsOf_lt c cs
    rw [readCodePoint?] at h
    split at h
    · cases h
      exact ⟨Nat.lt_succ_self _, hlt⟩
    · obtain ⟨d, -, h⟩ := Option.bind_eq_some_iff.1 h
      split at h
      · obtain ⟨h₁, h₂⟩ := ih h
        exact ⟨Nat.lt_succ_of_lt h₁, Nat.lt_trans h₂ hlt⟩
      · cases h

theorem length_readCharacter? (h : readCharacter? c cs = some (us, rest)) :
    rest = cs ∧ us.length ≤ (units c.toNat).length := by
  have hone := one_le_length_units c.toNat
  unfold readCharacter? at h
  split_ifs at h
  · cases h
    exact ⟨rfl, Nat.zero_le _⟩
  · cases h
    exact ⟨rfl, hone⟩
  · cases h
    refine ⟨rfl, ?_⟩
    cases control? c with
    | none => exact Nat.le_refl _
    | some n => exact hone

/-- An escape has no more units than what stands after the backslash. -/
theorem length_readEscape? (h : readEscape? cs = some (us, rest)) :
    rest.length < cs.length ∧ us.length + (unitsOf rest).length ≤ (unitsOf cs).length := by
  have hlt := length_unitsOf_lt
  fun_cases readEscape? cs with
  | case1 a b cs =>
    obtain ⟨n, -, ⟨⟩⟩ := Option.map_eq_some_iff.1 h
    have h₁ := hlt b rest
    have h₂ := hlt a (b :: rest)
    have h₃ := hlt 'x' (a :: b :: rest)
    simp only [List.length_cons, List.length_nil]
    omega
  | case2 c cs =>
    obtain ⟨⟨n, r⟩, hread, ⟨⟩⟩ := Option.map_eq_some_iff.1 h
    obtain ⟨d, -, hread⟩ := Option.bind_eq_some_iff.1 hread
    obtain ⟨hlength, hunits⟩ := length_readCodePoint? hread
    have h₁ := hlt c cs
    have h₂ := hlt '{' (c :: cs)
    have h₃ := hlt 'u' ('{' :: c :: cs)
    have h₄ := length_units_le n
    simp only [List.length_cons]
    omega
  | case3 a b c d cs hbrace =>
    rw [readEscape?.eq_3 _ _ _ _ _ hbrace] at h
    obtain ⟨n, -, ⟨⟩⟩ := Option.map_eq_some_iff.1 h
    have h₁ := hlt d rest
    have h₂ := hlt c (d :: rest)
    have h₃ := hlt b (c :: d :: rest)
    have h₄ := hlt a (b :: c :: d :: rest)
    have h₅ := hlt 'u' (a :: b :: c :: d :: rest)
    simp only [List.length_cons, List.length_nil]
    omega
  | case4 cs =>
    cases h
    have h₁ := hlt '\n' rest
    have h₂ := hlt '\r' ('\n' :: rest)
    simp only [List.length_cons, List.length_nil]
    omega
  | case5 c cs hx hbrace hu hcr =>
    rw [readEscape?.eq_5 _ _ hx hbrace hu hcr] at h
    obtain ⟨rfl, hlength⟩ := length_readCharacter? h
    rw [length_unitsOf_cons]
    exact ⟨Nat.lt_succ_self _, Nat.add_le_add_right hlength _⟩
  | case6 => cases h

/-! ### Values -/

/-- The value of a text between two quotes that has line feeds for its line ends. -/
def unfolded? (quote : Char) (cs : List Char) : Option (List Nat) :=
  match cs with
  | [] => some []
  | '\\' :: cs =>
    match _h : readEscape? cs with
    | some (us, rest) => (unfolded? quote rest).map (us ++ ·)
    | none => none
  | c :: cs =>
    if breaks quote c cs then none else (unfolded? quote cs).map (units c.toNat ++ ·)
termination_by cs.length
decreasing_by
  · have := length_readEscape? _h
    simp only [List.length_cons]
    omega
  · simp

/-- A text with line feeds for its line ends. -/
def lineFeeds : List Char → List Char
  | [] => []
  | '\r' :: '\n' :: cs => '\n' :: lineFeeds cs
  | '\r' :: cs => '\n' :: lineFeeds cs
  | c :: cs => c :: lineFeeds cs

/-- The string that a script denotes by the text between two quotes. -/
def value? (quote : Char) (cs : List Char) : Option (List Nat) :=
  unfolded? quote (if quote = '`' then lineFeeds cs else cs)

theorem unfolded?_of_not_mem (h : '\\' ∉ cs) (hus : unfolded? quote cs = some us) :
    us = unitsOf cs := by
  fun_induction unfolded? quote cs generalizing us with
  | case1 => exact (Option.some.inj hus).symm
  | case2 => exact absurd List.mem_cons_self h
  | case3 => exact absurd List.mem_cons_self h
  | case4 => cases hus
  | case5 c cs _ _ ih =>
    obtain ⟨vs, hvs, rfl⟩ := Option.map_eq_some_iff.1 hus
    rw [unitsOf_cons, ih (List.not_mem_of_not_mem_cons h) hvs]

theorem length_unfolded?_le (hus : unfolded? quote cs = some us) :
    us.length ≤ (unitsOf cs).length := by
  fun_induction unfolded? quote cs generalizing us with
  | case1 => cases hus; exact Nat.le_refl _
  | case2 cs ws rest hread ih =>
    obtain ⟨vs, hvs, rfl⟩ := Option.map_eq_some_iff.1 hus
    have h₁ := ih hvs
    have h₂ := (length_readEscape? hread).2
    have h₃ := length_unitsOf_lt '\\' cs
    rw [List.length_append]
    omega
  | case3 => cases hus
  | case4 => cases hus
  | case5 c cs _ _ ih =>
    obtain ⟨vs, hvs, rfl⟩ := Option.map_eq_some_iff.1 hus
    have h₁ := ih hvs
    rw [List.length_append, length_unitsOf_cons]
    omega

/-- An escape makes a string shorter than its text. -/
theorem length_unfolded?_lt (h : '\\' ∈ cs) (hus : unfolded? quote cs = some us) :
    us.length < (unitsOf cs).length := by
  fun_induction unfolded? quote cs generalizing us with
  | case1 => cases h
  | case2 cs ws rest hread ih =>
    obtain ⟨vs, hvs, rfl⟩ := Option.map_eq_some_iff.1 hus
    have h₁ := length_unfolded?_le hvs
    have h₂ := (length_readEscape? hread).2
    have h₃ := length_unitsOf_lt '\\' cs
    rw [List.length_append]
    omega
  | case3 => cases hus
  | case4 => cases hus
  | case5 c cs hc _ ih =>
    obtain ⟨vs, hvs, rfl⟩ := Option.map_eq_some_iff.1 hus
    have h₁ := ih ((List.mem_cons.1 h).resolve_left fun heq => hc heq.symm) hvs
    rw [List.length_append, length_unitsOf_cons]
    omega

/-- The string is the text itself just when there is no escape. -/
theorem unfolded?_eq_unitsOf_iff (hus : unfolded? quote cs = some us) :
    us = unitsOf cs ↔ '\\' ∉ cs := by
  refine ⟨?_, fun h => unfolded?_of_not_mem h hus⟩
  rintro rfl h
  exact Nat.lt_irrefl _ (length_unfolded?_lt h hus)

/-! ### Line ends -/

theorem lineFeeds_cons (h : c ≠ '\r') : lineFeeds (c :: cs) = c :: lineFeeds cs := by
  rw [lineFeeds]
  · rintro _ rfl
    exact absurd rfl h
  · exact h

theorem backslash_mem_lineFeeds : '\\' ∈ lineFeeds cs ↔ '\\' ∈ cs := by
  fun_induction lineFeeds cs <;> simp_all

theorem lineFeeds_eq_self (h : '\r' ∉ cs) : lineFeeds cs = cs := by
  fun_induction lineFeeds cs <;> simp_all

theorem head?_lineFeeds (hc : c ≠ '\n') (h : (lineFeeds cs).head? = some c) :
    cs.head? = some c := by
  fun_cases lineFeeds cs with
  | case1 => cases h
  | case2 cs => exact absurd (Option.some.inj h).symm hc
  | case3 cs hnext =>
    rw [lineFeeds] at h
    · exact absurd (Option.some.inj h).symm hc
    · exact hnext
  | case4 d cs _ hreturn =>
    rw [lineFeeds_cons hreturn] at h
    exact h

end GqlArtifacts.Literal
