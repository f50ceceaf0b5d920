import GqlArtifacts.Proofs.Json.Forms
import Mathlib.Data.List.Chain

/-!
# How JSON is written

`Spells` says which symbols a token is written with, and `Spelled` puts tokens and blanks in a row.
With the grammar of values over tokens (`Forms`) this is what it is for a text to be one JSON value
(`IsText`), and that is what the reader accepts (`ofSymbols?_eq_some_iff`).

Two numerals in a row might be one. They never are in a value, where no scalar follows another
(`apart_of_foldlM`).
-/

namespace GqlArtifacts.Json

variable {cs rest body s : Symbols} {ds fs es : List Char} {c : Char} {n : Nat} {v : Json}
  {t : Token} {ts : List Token}

/-! ### Numerals -/

structure IsDigits (ds : List Char) : Prop where
  ne_nil : ds ≠ []
  digit : ∀ c ∈ ds, isDigit c = true

inductive Fraction : Option (List Char) → List Char → Prop
  | absent : Fraction none []
  | present {ds : List Char} (h : IsDigits ds) : Fraction (some ds) ('.' :: ds)

inductive Exponent : Option Int → List Char → Prop
  | absent : Exponent none []
  | present {e : Char} {sign ds : List Char} (he : e = 'e' ∨ e = 'E')
    (hsign : sign = [] ∨ sign = ['+'] ∨ sign = ['-']) (h : IsDigits ds) :
    Exponent (some (if sign = ['-'] then -(natOfDigits ds : Int) else natOfDigits ds))
      (e :: (sign ++ ds))

/-- A numeral has no needless zero in front. -/
inductive Numeral : Json → List Char → Prop
  | mk (negative : Bool) {ds fs es : List Char} {fraction : Option (List Char)}
    {exponent : Option Int} (h : IsDigits ds) (hzero : ds.head? = some '0' → ds.length = 1)
    (hfraction : Fraction fraction fs) (hexponent : Exponent exponent es) :
    Numeral (numberOfParts negative ds fraction exponent)
      ((if negative then ['-'] else []) ++ (ds ++ (fs ++ es)))

/-! ### Strings -/

/-- An escape of four hexadecimal digits. -/
def unitText (a b c d : Char) : Symbols :=
  [some '\\', some 'u', some a, some b, some c, some d]

/-- The second half of a surrogate pair comes next. -/
def LowNext (cs : Symbols) : Prop := ∃ a b c d n rest, cs = unitText a b c d ++ rest ∧
  unit? a b c d = some n ∧ isLowSurrogate n = true

/-- Symbols between two quotes, and the symbols that they stand for. -/
inductive Quoted : Symbols → Symbols → Prop
  | nil : Quoted [] []
  | plain {c : Char} {cs s : Symbols} (hquote : c ≠ '"') (hslash : c ≠ '\\') (hc : 32 ≤ c.toNat)
    (h : Quoted cs s) : Quoted (some c :: cs) (some c :: s)
  | bytes {cs s : Symbols} (h : Quoted cs s) : Quoted (none :: cs) (none :: s)
  | escape {c d : Char} {cs s : Symbols} (hd : simpleEscape? c = some d) (h : Quoted cs s) :
    Quoted (some '\\' :: some c :: cs) (some d :: s)
  | unit {a b c d : Char} {n : Nat} {cs s : Symbols} (hn : unit? a b c d = some n)
    (hhigh : isHighSurrogate n = false) (hlow : isLowSurrogate n = false) (h : Quoted cs s) :
    Quoted (unitText a b c d ++ cs) (some (Char.ofNat n) :: s)
  | pair {a b c d a' b' c' d' : Char} {n m : Nat} {cs s : Symbols} (hn : unit? a b c d = some n)
    (hhigh : isHighSurrogate n = true) (hm : unit? a' b' c' d' = some m)
    (hlow : isLowSurrogate m = true) (h : Quoted cs s) :
    Quoted (unitText a b c d ++ (unitText a' b' c' d' ++ cs))
      (some (Char.ofNat (0x10000 + (n - 0xD800) * 0x400 + (m - 0xDC00))) :: s)
  | high {a b c d : Char} {n : Nat} {cs s : Symbols} (hn : unit? a b c d = some n)
    (hhigh : isHighSurrogate n = true) (hnext : ¬LowNext cs) (h : Quoted cs s) :
    Quoted (unitText a b c d ++ cs) (none :: s)
  | low {a b c d : Char} {n : Nat} {cs s : Symbols} (hn : unit? a b c d = some n)
    (hlow : isLowSurrogate n = true) (h : Quoted cs s) :
    Quoted (unitText a b c d ++ cs) (none :: s)

/-! ### Texts -/

inductive Spells : Token → Symbols → Prop
  | openArray : Spells .openArray [some '[']
  | closeArray : Spells .closeArray [some ']']
  | openObject : Spells .openObject [some '\x7b']
  | closeObject : Spells .closeObject [some '\x7d']
  | comma : Spells .comma [some ',']
  | colon : Spells .colon [some ':']
  | null : Spells (.scalar .null) ("null".toList.map some)
  | bool (b : Bool) :
    Spells (.scalar (.bool b)) ((if b then "true" else "false").toList.map some)
  | string {body s : Symbols} (h : Quoted body s) :
    Spells (.scalar (stringOf s)) (some '"' :: (body ++ [some '"']))
  | number {v : Json} {cs : List Char} (h : Numeral v cs) : Spells (.scalar v) (cs.map some)

/-- Tokens with blanks around them. -/
inductive Spelled : Symbols → List Token → Prop
  | nil : Spelled [] []
  | blank {c : Char} {cs : Symbols} {ts : List Token} (hc : isBlank c = true) (h : Spelled cs ts) :
    Spelled (some c :: cs) ts
  | token {t : Token} {part cs : Symbols} {ts : List Token} (ht : Spells t part)
    (h : Spelled cs ts) : Spelled (part ++ cs) (t :: ts)

/-- One value with blanks around it, and nothing else. -/
def IsText (cs : Symbols) (v : Json) : Prop := ∃ ts, Spelled cs ts ∧ Forms ts v

/-! ### Reading numerals -/

theorem Ends.stops_point (h : Ends rest) : Stops (· == '.') rest := fun c hc => by
  have hcontinues := h c hc
  simp only [continuesNumeral, Bool.or_eq_false_iff] at hcontinues
  exact hcontinues.1.1.2

theorem Fraction.stops {fraction : Option (List Char)} (h : Fraction fraction fs)
    (hrest : Stops isDigit rest) : Stops isDigit (fs.map some ++ rest) := by
  cases h with
  | absent => exact hrest
  | present h => rintro _ ⟨⟩; rfl

theorem Exponent.stops {exponent : Option Int} {p : Char → Bool} (h : Exponent exponent es)
    (hrest : Stops p rest) (hp : p 'e' = false ∧ p 'E' = false) :
    Stops p (es.map some ++ rest) := by
  cases h with
  | absent => exact hrest
  | present he hsign h =>
    rintro _ ⟨⟩
    rcases he with rfl | rfl
    · exact hp.1
    · exact hp.2

theorem readDigits_eq (cs : Symbols) :
    cs = (readDigits cs).1.map some ++ (readDigits cs).2 ∧
      ∀ c ∈ (readDigits cs).1, isDigit c = true := by
  induction cs with
  | nil => exact ⟨rfl, List.forall_mem_nil _⟩
  | cons c cs ih =>
    cases c with
    | none => exact ⟨rfl, List.forall_mem_nil _⟩
    | some c =>
      rw [readDigits]
      split
      · next hc =>
        refine ⟨congrArg (some c :: ·) ih.1, fun d hd => ?_⟩
        rcases List.mem_cons.1 hd with rfl | hd
        · exact hc
        · exact ih.2 d hd
      · exact ⟨rfl, List.forall_mem_nil _⟩

theorem readDigits_digits (hds : ∀ c ∈ ds, isDigit c = true) (hrest : Stops isDigit rest) :
    readDigits (ds.map some ++ rest) = (ds, rest) := by
  induction ds with
  | nil => exact readDigits_of_stops hrest
  | cons c ds ih =>
    rw [List.map_cons, List.cons_append, readDigits, if_pos (hds c List.mem_cons_self),
      ih fun d hd => hds d (List.mem_cons_of_mem _ hd)]

theorem readWhole?_eq_some (h : readWhole? cs = some (ds, rest)) :
    cs = ds.map some ++ rest ∧ IsDigits ds ∧ (ds.head? = some '0' → ds.length = 1) := by
  rw [readWhole?] at h
  have hdigits := readDigits_eq cs
  dsimp only at h
  split at h
  · cases h
  · next hcond =>
    cases h
    rw [not_or, List.isEmpty_iff] at hcond
    refine ⟨hdigits.1, ⟨hcond.1, hdigits.2⟩, fun hzero => ?_⟩
    have hpos := List.length_pos_iff.2 hcond.1
    by_contra hlength
    exact hcond.2 ⟨by omega, hzero⟩

theorem readWhole?_digits (h : IsDigits ds) (hzero : ds.head? = some '0' → ds.length = 1)
    (hrest : Stops isDigit rest) : readWhole? (ds.map some ++ rest) = some (ds, rest) := by
  rw [readWhole?, readDigits_digits h.digit hrest]
  refine if_neg ?_
  rw [not_or, List.isEmpty_iff]
  exact ⟨h.ne_nil, fun hlong => by have := hzero hlong.2; omega⟩

theorem readFraction?_eq_some {fraction : Option (List Char)}
    (h : readFraction? cs = some (fraction, rest)) :
    ∃ fs, cs = List.map some fs ++ rest ∧ Fraction fraction fs := by
  unfold readFraction? at h
  split at h
  · next tail =>
    have hdigits := readDigits_eq tail
    dsimp only at h
    split at h
    · cases h
    · next hne =>
      cases h
      refine ⟨'.' :: (readDigits tail).1, congrArg (some '.' :: ·) hdigits.1,
        .present ⟨?_, hdigits.2⟩⟩
      simpa using hne
  · cases h
    exact ⟨[], rfl, .absent⟩

theorem Fraction.read {fraction : Option (List Char)} (h : Fraction fraction fs)
    (hdigit : Stops isDigit rest) (hpoint : Stops (· == '.') rest) :
    readFraction? (fs.map some ++ rest) = some (fraction, rest) := by
  cases h with
  | absent =>
    refine readFraction?_of_ne fun tail heq => ?_
    have := hpoint '.' (by rw [show rest = _ from heq]; rfl)
    cases this
  | present h =>
    rw [List.map_cons, List.cons_append, readFraction?, readDigits_digits h.digit hdigit]
    exact if_neg (by simpa using h.ne_nil)

theorem IsDigits.exists_head (h : IsDigits ds) :
    ∃ c ds', ds = c :: ds' ∧ isDigit c = true := by
  obtain ⟨c, ds', rfl⟩ := List.exists_cons_of_ne_nil h.ne_nil
  exact ⟨c, ds', rfl, h.digit c List.mem_cons_self⟩

theorem readSign_eq (cs : Symbols) : ∃ sign, (sign = [] ∨ sign = ['+'] ∨ sign = ['-']) ∧
    cs = List.map some sign ++ (readSign cs).2 ∧ ((readSign cs).1 = true ↔ sign = ['-']) := by
  unfold readSign
  split
  · exact ⟨['+'], by simp⟩
  · exact ⟨['-'], by simp⟩
  · exact ⟨[], by simp⟩

theorem readSign_digits {sign : List Char} (hsign : sign = [] ∨ sign = ['+'] ∨ sign = ['-'])
    (h : IsDigits ds) (rest : Symbols) : readSign (sign.map some ++ (ds.map some ++ rest)) =
      (decide (sign = ['-']), ds.map some ++ rest) := by
  rcases hsign with rfl | rfl | rfl
  · obtain ⟨c, ds', rfl, hc⟩ := h.exists_head
    show readSign (some c :: (ds'.map some ++ rest)) = (false, some c :: (ds'.map some ++ rest))
    unfold readSign
    split
    · next heq => cases heq; cases hc
    · next heq => cases heq; cases hc
    · rfl
  · rfl
  · rfl

theorem readExponent?_eq_some {exponent : Option Int}
    (h : readExponent? cs = some (exponent, rest)) :
    ∃ es, cs = List.map some es ++ rest ∧ Exponent exponent es := by
  unfold readExponent? at h
  split at h
  · next e tail =>
    split at h
    · next he =>
      obtain ⟨sign, hsign, htail, hnegative⟩ := readSign_eq tail
      have hdigits := readDigits_eq (readSign tail).2
      dsimp only at h
      split at h
      · cases h
      · next hne =>
        cases h
        refine ⟨e :: (sign ++ (readDigits (readSign tail).2).1), ?_, ?_⟩
        · rw [List.map_cons, List.map_append, List.cons_append, List.append_assoc, ← hdigits.1,
            ← htail]
        · simp only [hnegative]
          exact .present he hsign ⟨by simpa using hne, hdigits.2⟩
    · cases h
      exact ⟨[], rfl, .absent⟩
  · cases h
    exact ⟨[], rfl, .absent⟩

theorem Exponent.read {exponent : Option Int} (h : Exponent exponent es) (hrest : Ends rest) :
    readExponent? (es.map some ++ rest) = some (exponent, rest) := by
  cases h with
  | absent =>
    have hnone : readExponent? [] = some (none, []) := rfl
    exact readExponent?_append hrest hnone
  | @present e sign ds he hsign h =>
    rw [List.map_cons, List.map_append, List.cons_append, List.append_assoc, readExponent?,
      if_pos he, readSign_digits hsign h]
    dsimp only
    rw [readDigits_digits h.digit hrest.stops_isDigit]
    dsimp only
    rw [if_neg (by simpa using h.ne_nil)]
    simp only [decide_eq_true_eq]

theorem readNumber?_eq_some (h : readNumber? cs = some (v, rest)) :
    ∃ part, cs = List.map some part ++ rest ∧ Numeral v part := by
  simp only [readNumber?, Option.bind_eq_bind, Option.bind_eq_some_iff] at h
  obtain ⟨⟨ds, r₁⟩, hwhole, ⟨fraction, r₂⟩, hfraction, ⟨exponent, r₃⟩, hexponent, h⟩ := h
  cases h
  obtain ⟨hcs, hds, hzero⟩ := readWhole?_eq_some hwhole
  obtain ⟨fs, hr₁, hfs⟩ := readFraction?_eq_some hfraction
  obtain ⟨es, hr₂, hes⟩ := readExponent?_eq_some hexponent
  dsimp only at hr₁ hr₂
  refine ⟨_, ?_, .mk (readMinus cs).1 hds hzero hfs hes⟩
  have hminus : cs = (if (readMinus cs).1 then ['-'] else []).map some ++ (readMinus cs).2 := by
    unfold readMinus
    split <;> rfl
  conv_lhs => rw [hminus, hcs, hr₁, hr₂]
  simp only [List.map_append, List.append_assoc]

theorem readMinus_digits (negative : Bool) (h : IsDigits ds) (rest : Symbols) :
    readMinus ((if negative then ['-'] else []).map some ++ (ds.map some ++ rest)) =
      (negative, ds.map some ++ rest) := by
  cases negative with
  | true => rfl
  | false =>
    obtain ⟨c, ds', rfl, hc⟩ := h.exists_head
    show readMinus (some c :: (ds'.map some ++ rest)) = (false, some c :: (ds'.map some ++ rest))
    unfold readMinus
    split
    · next heq => cases heq; cases hc
    · rfl

theorem Numeral.read {part : List Char} (h : Numeral v part) (hrest : Ends rest) :
    readNumber? (part.map some ++ rest) = some (v, rest) := by
  cases h with
  | mk negative h hzero hfraction hexponent =>
    have hdigit := hexponent.stops hrest.stops_isDigit (by decide)
    have hpoint := hexponent.stops hrest.stops_point (by decide)
    simp only [List.map_append, List.append_assoc, readNumber?, readMinus_digits negative h,
      readWhole?_digits h hzero (hfraction.stops hdigit), hfraction.read hdigit hpoint,
      hexponent.read hrest, Option.bind_eq_bind, Option.bind_some]
    rfl

/-! ### Reading strings -/

theorem readUnit?_eq_some : readUnit? cs = some (n, rest) ↔ ∃ a b c d,
    cs = some a :: some b :: some c :: some d :: rest ∧ unit? a b c d = some n := by
  constructor
  · intro h
    unfold readUnit? at h
    split at h
    · next a b c d tail =>
      obtain ⟨m, hm, ⟨⟩⟩ := Option.map_eq_some_iff.1 h
      exact ⟨a, b, c, d, rfl, hm⟩
    · cases h
  · rintro ⟨a, b, c, d, rfl, hn⟩
    rw [readUnit?, hn]
    rfl

theorem readLow?_eq_some : readLow? cs = some (n, rest) ↔ ∃ a b c d,
    cs = unitText a b c d ++ rest ∧ unit? a b c d = some n ∧ isLowSurrogate n = true := by
  constructor
  · intro h
    unfold readLow? at h
    split at h
    · obtain ⟨hunit, hlow⟩ := Option.filter_eq_some_iff.1 h
      obtain ⟨a, b, c, d, rfl, hn⟩ := readUnit?_eq_some.1 hunit
      exact ⟨a, b, c, d, rfl, hn, hlow⟩
    · cases h
  · rintro ⟨a, b, c, d, rfl, hn, hlow⟩
    exact Option.filter_eq_some_iff.2 ⟨readUnit?_eq_some.2 ⟨a, b, c, d, rfl, hn⟩, hlow⟩

theorem readLow?_eq_none (h : ¬LowNext cs) : readLow? cs = none := by
  rw [Option.eq_none_iff_forall_ne_some]
  rintro ⟨n, rest⟩ hlow
  obtain ⟨a, b, c, d, rfl, hn, hlow⟩ := readLow?_eq_some.1 hlow
  exact h ⟨a, b, c, d, n, rest, rfl, hn, hlow⟩

/-- No digit of a unit is a quote. -/
theorem ne_quote_of_unit? {a b c d : Char} (h : unit? a b c d = some n) :
    some '"' ∉ unitText a b c d := by
  have hquote : hexValue? '"' = none := by decide
  intro hmem
  simp only [unitText, List.mem_cons, List.not_mem_nil, or_false, Option.some.injEq] at hmem
  simp only [unit?, Option.bind_eq_bind, Option.bind_eq_some_iff] at h
  obtain ⟨_, ha, _, hb, _, hc, _, hd, -⟩ := h
  rcases hmem with hmem | hmem | rfl | rfl | rfl | rfl
  · exact absurd hmem (by decide)
  · exact absurd hmem (by decide)
  · rw [hquote] at ha; cases ha
  · rw [hquote] at hb; cases hb
  · rw [hquote] at hc; cases hc
  · rw [hquote] at hd; cases hd

/-- The closing quote adds no half of a surrogate pair. -/
theorem lowNext_quote (h : LowNext (cs ++ some '"' :: rest)) : LowNext cs := by
  obtain ⟨a, b, c, d, n, tail, heq, hn, hlow⟩ := h
  rcases List.append_eq_append_iff.1 heq with ⟨more, hunit, hmore⟩ | ⟨more, rfl, -⟩
  · cases more with
    | nil => exact ⟨a, b, c, d, n, [], by rw [hunit]; simp, hn, hlow⟩
    | cons x more =>
      obtain ⟨rfl, -⟩ := List.cons.inj hmore
      exact absurd (hunit ▸ by simp) (ne_quote_of_unit? hn)
  · exact ⟨a, b, c, d, n, more, rfl, hn, hlow⟩

theorem readEscape?_unit {a b c d : Char} (hn : unit? a b c d = some n) (cs : Symbols) :
    readEscape? (some 'u' :: some a :: some b :: some c :: some d :: cs) = some
      (if isHighSurrogate n then
        match readLow? cs with
        | some (lo, rest) =>
          (some (Char.ofNat (0x10000 + (n - 0xD800) * 0x400 + (lo - 0xDC00))), rest)
        | none => (none, cs)
      else if isLowSurrogate n then (none, cs) else (some (Char.ofNat n), cs)) := by
  rw [readEscape?, readUnit?_eq_some.2 ⟨a, b, c, d, rfl, hn⟩]
  rfl

theorem readString?_escape {c : Option Char} (h : readEscape? cs = some (c, rest)) :
    readString? (some '\\' :: cs) = (readString? rest).map fun (s, r) => (c :: s, r) := by
  rw [readString?]
  split
  · next heq => rw [h] at heq; cases heq
  · next heq => rw [h] at heq; cases heq; rfl

theorem LowNext.append (h : LowNext cs) (rest : Symbols) : LowNext (cs ++ rest) := by
  obtain ⟨a, b, c, d, n, tail, rfl, hn, hlow⟩ := h
  exact ⟨a, b, c, d, n, tail ++ rest, List.append_assoc .., hn, hlow⟩

/-- What an escape adds to the symbols after it. -/
theorem Quoted.of_readEscape? {c : Option Char}
    (hc : readEscape? cs = some (c, body ++ some '"' :: rest)) (h : Quoted body s) :
    ∃ part, some '\\' :: cs = part ++ some '"' :: rest ∧ Quoted part (c :: s) := by
  unfold readEscape? at hc
  split at hc
  · obtain ⟨⟨hi, tail⟩, hunit, hafter⟩ := Option.map_eq_some_iff.1 hc
    obtain ⟨a, b, c', d, rfl, hn⟩ := readUnit?_eq_some.1 hunit
    dsimp only at hafter
    split at hafter
    · next hhigh =>
      split at hafter
      · next lo tail' hlow =>
        cases hafter
        obtain ⟨a', b', c'', d', rfl, hm, hlow⟩ := readLow?_eq_some.1 hlow
        refine ⟨_, ?_, .pair hn hhigh hm hlow h⟩
        simp [unitText]
      · next hlow =>
        cases hafter
        refine ⟨_, ?_, .high hn hhigh (fun hnext => ?_) h⟩
        · simp [unitText]
        · obtain ⟨a', b', c'', d', m, tail, heq, hm, hsurrogate⟩ := hnext.append (some '"' :: rest)
          rw [readLow?_eq_some.2 ⟨a', b', c'', d', heq, hm, hsurrogate⟩] at hlow
          cases hlow
    · next hhigh =>
      split at hafter
      · next hlow =>
        cases hafter
        refine ⟨_, ?_, .low hn hlow h⟩
        simp [unitText]
      · next hlow =>
        cases hafter
        refine ⟨_, ?_, .unit hn (by simpa using hhigh) (by simpa using hlow) h⟩
        simp [unitText]
  · obtain ⟨d, hd, hc⟩ := Option.map_eq_some_iff.1 hc
    cases hc
    exact ⟨_, rfl, .escape hd h⟩
  · cases hc

theorem readString?_eq_some (h : readString? cs = some (s, rest)) :
    ∃ body, cs = body ++ some '"' :: rest ∧ Quoted body s := by
  fun_induction readString? cs generalizing s with
  | case1 => cases h
  | case2 cs ih =>
    obtain ⟨⟨s', r⟩, hr, ⟨⟩⟩ := Option.map_eq_some_iff.1 h
    obtain ⟨body, rfl, hbody⟩ := ih hr
    exact ⟨none :: body, rfl, hbody.bytes⟩
  | case3 cs =>
    cases h
    exact ⟨[], rfl, .nil⟩
  | case4 => cases h
  | case5 cs c cs' hescape ih =>
    obtain ⟨⟨s', r⟩, hr, ⟨⟩⟩ := Option.map_eq_some_iff.1 h
    obtain ⟨body, rfl, hbody⟩ := ih hr
    exact hbody.of_readEscape? hescape
  | case6 => cases h
  | case7 c cs hquote hslash hprintable ih =>
    obtain ⟨⟨s', r⟩, hr, ⟨⟩⟩ := Option.map_eq_some_iff.1 h
    obtain ⟨body, rfl, hbody⟩ := ih hr
    exact ⟨some c :: body, rfl, hbody.plain hquote hslash (by omega)⟩

theorem Quoted.read (h : Quoted body s) (rest : Symbols) :
    readString? (body ++ some '"' :: rest) = some (s, rest) := by
  induction h with
  | nil => rw [List.nil_append, readString?]
  | plain hquote hslash hc h ih =>
    rw [List.cons_append, readString?, if_neg (by omega), ih]
    · rfl
    · exact hquote
    · exact hslash
  | bytes h ih =>
    rw [List.cons_append, readString?, ih]
    rfl
  | @escape c d cs s hd h ih =>
    have hne : c ≠ 'u' := by
      rintro rfl
      cases hd
    have hescape : readEscape? (some c :: (cs ++ some '"' :: rest)) =
        some (some d, cs ++ some '"' :: rest) := by
      rw [readEscape?, hd]
      · rfl
      · exact hne
    rw [List.cons_append, List.cons_append, readString?_escape hescape, ih]
    rfl
  | @unit a b c d n cs s hn hhigh hlow h ih =>
    have hescape := readEscape?_unit hn (cs ++ some '"' :: rest)
    rw [hhigh, hlow, if_neg Bool.false_ne_true, if_neg Bool.false_ne_true] at hescape
    rw [List.append_assoc]
    exact (readString?_escape hescape).trans (by rw [ih]; rfl)
  | @pair a b c d a' b' c' d' n m cs s hn hhigh hm hlow h ih =>
    have hescape := readEscape?_unit hn (unitText a' b' c' d' ++ (cs ++ some '"' :: rest))
    rw [if_pos hhigh, readLow?_eq_some.2 ⟨a', b', c', d', rfl, hm, hlow⟩] at hescape
    rw [List.append_assoc, List.append_assoc]
    exact (readString?_escape hescape).trans (by rw [ih]; rfl)
  | @high a b c d n cs s hn hhigh hnext h ih =>
    have hescape := readEscape?_unit hn (cs ++ some '"' :: rest)
    rw [if_pos hhigh, readLow?_eq_none fun hlow => hnext (lowNext_quote hlow)] at hescape
    rw [List.append_assoc]
    exact (readString?_escape hescape).trans (by rw [ih]; rfl)
  | @low a b c d n cs s hn hlow h ih =>
    have hhigh : isHighSurrogate n = false := by
      simp only [isHighSurrogate, isLowSurrogate, Bool.and_eq_true, Bool.and_eq_false_iff,
        decide_eq_true_eq, decide_eq_false_iff_not] at hlow ⊢
      omega
    have hescape := readEscape?_unit hn (cs ++ some '"' :: rest)
    rw [hhigh, if_neg Bool.false_ne_true, if_pos hlow] at hescape
    rw [List.append_assoc]
    exact (readString?_escape hescape).trans (by rw [ih]; rfl)

/-! ### Reading tokens -/

theorem readToken?_eq_some (h : readToken? cs = some (t, rest)) :
    ∃ part, cs = part ++ rest ∧ Spells t part := by
  rcases readToken?_cases h with ⟨word, hword, rfl⟩ | ⟨r, s, rfl, hs, rfl⟩ | ⟨v, hv, rfl⟩
  · have hfixed : ∀ e ∈ fixedTokens, Spells e.2 e.1 := by
      simp only [fixedTokens, List.forall_mem_cons]
      exact ⟨.openArray, .closeArray, .openObject, .closeObject, .comma, .colon, .null, .bool true,
        .bool false, List.forall_mem_nil _⟩
    exact ⟨word, rfl, hfixed _ hword⟩
  · obtain ⟨body, rfl, hbody⟩ := readString?_eq_some hs
    exact ⟨_, by simp, .string hbody⟩
  · obtain ⟨part, rfl, hpart⟩ := readNumber?_eq_some hv
    exact ⟨_, rfl, .number hpart⟩

theorem Numeral.exists_head {part : List Char} (h : Numeral v part) :
    ∃ c part', part = c :: part' ∧ (c = '-' ∨ isDigit c = true) := by
  cases h with
  | mk negative h hzero hfraction hexponent =>
    cases negative with
    | true => exact ⟨_, _, rfl, .inl rfl⟩
    | false =>
      obtain ⟨c, ds', rfl, hc⟩ := h.exists_head
      exact ⟨_, _, rfl, .inr hc⟩

theorem Numeral.isNumber {part : List Char} (h : Numeral v part) :
    Token.isNumber (.scalar v) = true := by
  cases h
  exact isNumber_numberOfParts ..

/-- A token is read as it is written, where a numeral does not go on. -/
theorem Spells.read {part : Symbols} (h : Spells t part) (hrest : t.isNumber = true → Ends rest) :
    readToken? (part ++ rest) = some (t, rest) := by
  cases h with
  | string hbody =>
    rw [List.cons_append, List.append_assoc]
    show (readString? (_ ++ some '"' :: rest)).map _ = _
    rw [hbody.read]
    rfl
  | @number v cs hnumeral =>
    have hread := hnumeral.read (hrest hnumeral.isNumber)
    obtain ⟨c, part', rfl, hc⟩ := hnumeral.exists_head
    rw [List.map_cons, List.cons_append] at hread ⊢
    rw [readToken?_of_numeral hc, hread]
    rfl
  | bool b => cases b <;> rfl
  | _ => rfl

/-- How a token starts. -/
theorem Spells.exists_head {part : Symbols} (h : Spells t part) :
    ∃ c part', part = some c :: part' ∧ isBlank c = false ∧
      (t.isNumber = false → continuesNumeral c = false) := by
  cases h with
  | number hnumeral =>
    obtain ⟨c, part', rfl, hc⟩ := hnumeral.exists_head
    refine ⟨c, _, rfl, ?_, fun hnumber => ?_⟩
    · rw [Bool.eq_false_iff]
      intro hblank
      simp only [isBlank, Bool.or_eq_true, beq_iff_eq] at hblank
      rcases hblank with ((rfl | rfl) | rfl) | rfl <;>
        rcases hc with hc | hc <;> exact absurd hc (by decide)
    · rw [hnumeral.isNumber] at hnumber
      cases hnumber
  | bool b => cases b <;> exact ⟨_, _, rfl, by decide, fun _ => by decide⟩
  | _ => exact ⟨_, _, rfl, by decide, fun _ => by decide⟩

/-! ### Reading texts -/

theorem tokens?_spelled (h : tokens? cs = some ts) : Spelled cs ts := by
  fun_induction tokens? cs generalizing ts with
  | case1 => cases h; exact .nil
  | case2 => cases h
  | case3 c cs hblank ih => exact (ih h).blank hblank
  | case4 => cases h
  | case5 c cs hblank t r htoken ih =>
    obtain ⟨us, hus, rfl⟩ := Option.map_eq_some_iff.1 h
    obtain ⟨part, hpart, ht⟩ := readToken?_eq_some htoken
    rw [hpart]
    exact .token ht (ih hus)

/-- No two numerals in a row. -/
def Apart (ts : List Token) : Prop :=
  ts.IsChain fun a b => a.isNumber = true → b.isNumber = false

theorem Spelled.ends (h : Spelled cs ts) (hts : ∀ t ∈ ts.head?, t.isNumber = false) : Ends cs := by
  cases h with
  | nil => exact ends_nil
  | blank hc h =>
    refine ends_cons ?_
    simp only [isBlank, Bool.or_eq_true, beq_iff_eq] at hc
    rcases hc with ((rfl | rfl) | rfl) | rfl <;> decide
  | token ht h =>
    obtain ⟨c, part', rfl, -, hcontinues⟩ := ht.exists_head
    exact ends_cons (hcontinues (hts _ rfl))

theorem Spelled.tokens? (h : Spelled cs ts) (hapart : Apart ts) : tokens? cs = some ts := by
  induction h with
  | nil => rw [Json.tokens?]
  | blank hc h ih => rw [tokens?_cons_of_isBlank hc, ih hapart]
  | @token t part cs ts ht h ih =>
    obtain ⟨hnext, hrest⟩ := List.isChain_cons.1 hapart
    have hread := ht.read fun hnumber => h.ends fun u hu => hnext u hu hnumber
    obtain ⟨c, part', rfl, hblank, -⟩ := ht.exists_head
    rw [List.cons_append] at hread ⊢
    rw [tokens?_cons hblank hread, ih hrest]
    rfl

/-- Behind a value comes no scalar. -/
theorem step_scalar_of_finish {r : Reader} {w : Json} {frames : List Frame}
    (h : Reader.finish v frames = some r) : r.step (.scalar w) = none := by
  match frames, h with
  | [], rfl => rfl
  | .array _ :: _, rfl => rfl
  | .field _ _ :: _, rfl => rfl

theorem step_scalar_of_beginField {r : Reader} {w : Json} {frames : List Frame}
    (h : Reader.beginField frames t = some r) : r.step (.scalar w) = none := by
  unfold Reader.beginField at h
  split at h
  · cases h; rfl
  · cases h; rfl
  · cases h

/-- No scalar follows another. -/
theorem step_scalar_scalar {r r' : Reader} {w : Json} (h : r.step (.scalar v) = some r') :
    r'.step (.scalar w) = none := by
  obtain ⟨e, frames⟩ := r
  cases e with
  | value => exact step_scalar_of_finish h
  | firstItem => exact step_scalar_of_finish h
  | name => exact step_scalar_of_beginField h
  | firstName => exact step_scalar_of_beginField h
  | colon name => cases h
  | continuation => cases h
  | nothing v => cases h

theorem exists_scalar_of_isNumber (h : t.isNumber = true) : ∃ v, t = .scalar v := by
  cases t with
  | scalar v => exact ⟨v, rfl⟩
  | _ => cases h

theorem apart_of_foldlM {r r' : Reader} (h : ts.foldlM Reader.step r = some r') : Apart ts := by
  induction ts generalizing r with
  | nil => exact .nil
  | cons t ts ih =>
    obtain ⟨r₁, hstep, hrun⟩ := Option.bind_eq_some_iff.1 h
    refine List.isChain_cons.2 ⟨fun u hu hnumber => ?_, ih hrun⟩
    obtain ⟨v, rfl⟩ := exists_scalar_of_isNumber hnumber
    rw [Bool.eq_false_iff]
    intro hnumber'
    obtain ⟨w, rfl⟩ := exists_scalar_of_isNumber hnumber'
    obtain ⟨us, rfl⟩ := List.head?_eq_some_iff.1 hu
    obtain ⟨r₂, hstep', -⟩ := Option.bind_eq_some_iff.1 hrun
    rw [step_scalar_scalar hstep] at hstep'
    cases hstep'

/-- What the reader reads is one value with blanks around it, and nothing else. -/
theorem ofSymbols?_eq_some_iff : ofSymbols? cs = some v ↔ IsText cs v := by
  rw [ofSymbols?, Option.bind_eq_some_iff]
  constructor
  · rintro ⟨ts, hts, hv⟩
    exact ⟨ts, tokens?_spelled hts, ofTokens?_eq_some_iff.1 hv⟩
  · rintro ⟨ts, hts, hforms⟩
    have hv := ofTokens?_eq_some_iff.2 hforms
    obtain ⟨r, hr, -⟩ := Option.bind_eq_some_iff.1 hv
    exact ⟨ts, hts.tokens? (apart_of_foldlM hr), hv⟩

end GqlArtifacts.Json
