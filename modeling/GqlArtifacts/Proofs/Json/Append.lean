import GqlArtifacts.Proofs.Json.RoundTrip

/-!
# Tokens before more text

The tokens of a text stay as they are when more text follows, but for a numeral at its end, which
might go on (`tokens?_append`). A string needs no such care: what was read up to its closing quote is
read again, also where half a surrogate pair stands at the end of it.
-/

namespace GqlArtifacts.Json

variable {cs rest : Symbols}

/-! ### What follows a text -/

/-- Whether a numeral may go on with a character. -/
def continuesNumeral (c : Char) : Bool := isDigit c || c == '.' || c == 'e' || c == 'E'

/-- No numeral before these symbols goes on into them. -/
def Ends (rest : Symbols) : Prop := ∀ c, rest.head? = some (some c) → continuesNumeral c = false

theorem ends_nil : Ends [] := nofun

theorem ends_cons {c : Char} (hc : continuesNumeral c = false) : Ends (some c :: rest) := by
  rintro _ ⟨⟩
  exact hc

/-- No character of a kind comes next. -/
def Stops (p : Char → Bool) (rest : Symbols) : Prop := ∀ c, rest.head? = some (some c) → p c = false

theorem Ends.stops_isDigit (h : Ends rest) : Stops isDigit rest := fun c hc => by
  have hcontinues := h c hc
  simp only [continuesNumeral, Bool.or_eq_false_iff] at hcontinues
  exact hcontinues.1.1.1

theorem readDigits_of_stops (hrest : Stops isDigit rest) : readDigits rest = ([], rest) := by
  match rest with
  | [] => rfl
  | none :: _ => rfl
  | some c :: _ => simp [readDigits, hrest c rfl]

theorem readDigits_append (hrest : Ends rest) (cs : Symbols) :
    readDigits (cs ++ rest) = ((readDigits cs).1, (readDigits cs).2 ++ rest) := by
  induction cs with
  | nil => exact readDigits_of_stops hrest.stops_isDigit
  | cons c cs ih =>
    cases c with
    | none => rfl
    | some c =>
      rw [List.cons_append, readDigits, readDigits, ih]
      split <;> rfl

theorem readWhole?_append {ds : List Char} {r : Symbols} (hrest : Ends rest)
    (h : readWhole? cs = some (ds, r)) : readWhole? (cs ++ rest) = some (ds, r ++ rest) := by
  rw [readWhole?] at h ⊢
  rw [readDigits_append hrest]
  dsimp only at h ⊢
  split at h
  · cases h
  · next hcond =>
    cases h
    rw [if_neg hcond]

theorem readFraction?_of_ne (hcs : ∀ tail, cs ≠ some '.' :: tail) :
    readFraction? cs = some (none, cs) := by
  unfold readFraction?
  split
  · next tail => exact absurd rfl (hcs tail)
  · rfl

theorem readFraction?_append {ds : Option (List Char)} {r : Symbols} (hrest : Ends rest)
    (h : readFraction? cs = some (ds, r)) : readFraction? (cs ++ rest) = some (ds, r ++ rest) := by
  by_cases hpoint : ∃ tail, cs = some '.' :: tail
  · obtain ⟨tail, rfl⟩ := hpoint
    rw [List.cons_append, readFraction?, readDigits_append hrest]
    rw [readFraction?] at h
    dsimp only at h ⊢
    split at h
    · cases h
    · next hcond =>
      cases h
      rw [if_neg hcond]
  · have hcs : ∀ tail, cs ≠ some '.' :: tail := fun tail heq => hpoint ⟨tail, heq⟩
    rw [readFraction?_of_ne hcs] at h
    cases h
    refine readFraction?_of_ne fun tail heq => ?_
    cases cs with
    | nil => cases hrest '.' (by rw [show rest = _ from heq]; rfl)
    | cons c cs =>
      cases heq
      exact hcs cs rfl

theorem readSign_append (hcs : cs ≠ []) :
    readSign (cs ++ rest) = ((readSign cs).1, (readSign cs).2 ++ rest) := by
  obtain ⟨c, cs, rfl⟩ := List.exists_cons_of_ne_nil hcs
  rw [List.cons_append]
  unfold readSign
  split
  · next heq => cases heq; rfl
  · next heq => cases heq; rfl
  · next hplus hminus =>
    split
    · next heq => cases heq; exact absurd rfl (hplus _)
    · next heq => cases heq; exact absurd rfl (hminus _)
    · rfl

theorem readExponent?_append {n : Option Int} {r : Symbols} (hrest : Ends rest)
    (h : readExponent? cs = some (n, r)) : readExponent? (cs ++ rest) = some (n, r ++ rest) := by
  match cs with
  | none :: cs =>
    cases h
    rfl
  | [] =>
    cases h
    match rest with
    | [] => rfl
    | none :: _ => rfl
    | some c :: rest =>
      have hc := hrest c rfl
      simp only [continuesNumeral, Bool.or_eq_false_iff, beq_eq_false_iff_ne] at hc
      rw [List.nil_append, readExponent?, if_neg (not_or.2 ⟨hc.1.2, hc.2⟩)]
  | some c :: cs =>
    rw [List.cons_append, readExponent?]
    rw [readExponent?] at h
    split at h
    · next hc =>
      rw [if_pos hc]
      have hcs : cs ≠ [] := by
        rintro rfl
        cases h
      rw [readSign_append hcs]
      dsimp only at h ⊢
      rw [readDigits_append hrest]
      dsimp only
      split at h
      · cases h
      · next hcond =>
        cases h
        rw [if_neg hcond]
    · next hc =>
      cases h
      rw [if_neg hc]
      rfl

theorem readMinus_append (hcs : cs ≠ []) :
    readMinus (cs ++ rest) = ((readMinus cs).1, (readMinus cs).2 ++ rest) := by
  obtain ⟨c, cs, rfl⟩ := List.exists_cons_of_ne_nil hcs
  rw [List.cons_append]
  unfold readMinus
  split
  · next heq => cases heq; rfl
  · next hminus =>
    split
    · next heq => cases heq; exact absurd rfl (hminus _)
    · rfl

theorem readNumber?_append {v : Json} {r : Symbols} (hrest : Ends rest)
    (h : readNumber? cs = some (v, r)) : readNumber? (cs ++ rest) = some (v, r ++ rest) := by
  have hcs : cs ≠ [] := by
    rintro rfl
    cases h
  simp only [readNumber?, Option.bind_eq_bind, Option.bind_eq_some_iff] at h ⊢
  obtain ⟨⟨ds, r₁⟩, hwhole, ⟨fraction, r₂⟩, hfraction, ⟨exponent, r₃⟩, hexponent, h⟩ := h
  cases h
  rw [readMinus_append hcs]
  exact ⟨_, readWhole?_append hrest hwhole, _, readFraction?_append hrest hfraction, _,
    readExponent?_append hrest hexponent, rfl⟩

/-! ### Strings -/

theorem readUnit?_append {n : Nat} {r : Symbols} (h : readUnit? cs = some (n, r)) (rest : Symbols) :
    readUnit? (cs ++ rest) = some (n, r ++ rest) := by
  unfold readUnit? at h
  split at h
  · obtain ⟨m, hm, h⟩ := Option.map_eq_some_iff.1 h
    cases h
    show (unit? _ _ _ _).map _ = _
    rw [hm]
    rfl
  · cases h

/-- Four digits have to follow where a string goes on with the start of a unit. -/
theorem exists_unit_of_readString? {r : Symbols} {found : Symbols × Symbols}
    (h : readString? (some '\\' :: some 'u' :: r) = some found) :
    ∃ n r', readUnit? r = some (n, r') := by
  rw [readString?] at h
  split at h
  · cases h
  · next hescape =>
    obtain ⟨⟨n, r'⟩, hunit, -⟩ := Option.map_eq_some_iff.1 hescape
    exact ⟨n, r', hunit⟩

theorem readLow?_append {n : Nat} {r : Symbols} (h : readLow? cs = some (n, r)) (rest : Symbols) :
    readLow? (cs ++ rest) = some (n, r ++ rest) := by
  unfold readLow? at h
  split at h
  · next cs =>
    obtain ⟨hunit, hlow⟩ := Option.filter_eq_some_iff.1 h
    exact Option.filter_eq_some_iff.2 ⟨readUnit?_append hunit rest, hlow⟩
  · cases h

/-- Where a string goes on without the second half of a pair, none comes from behind it. -/
theorem readLow?_append_eq_none {found : Symbols × Symbols} (h : readString? cs = some found)
    (hlow : readLow? cs = none) (rest : Symbols) : readLow? (cs ++ rest) = none := by
  by_cases hstart : ∃ tail, cs = some '\\' :: some 'u' :: tail
  · obtain ⟨tail, rfl⟩ := hstart
    obtain ⟨n, r, hunit⟩ := exists_unit_of_readString? h
    change (readUnit? tail).filter _ = none at hlow
    show (readUnit? (tail ++ rest)).filter _ = none
    rw [readUnit?_append hunit]
    rw [hunit] at hlow
    cases hsurrogate : isLowSurrogate n <;> simp [Option.filter, hsurrogate] at hlow ⊢
  · unfold readLow?
    split
    · next tail heq =>
      match cs with
      | [] => rw [readString?] at h; cases h
      | [c] =>
        -- a backslash at the end is no string
        cases heq
        rw [readString?] at h
        split at h
        · cases h
        · next hescape => cases hescape
      | c :: d :: cs =>
        cases heq
        exact absurd ⟨cs, rfl⟩ hstart
    · rfl

theorem readEscape?_append {c : Option Char} {r : Symbols} {found : Symbols × Symbols}
    (h : readEscape? cs = some (c, r)) (hr : readString? r = some found) (rest : Symbols) :
    readEscape? (cs ++ rest) = some (c, r ++ rest) := by
  unfold readEscape? at h
  split at h
  · next cs =>
    obtain ⟨⟨hi, tail⟩, hunit, h⟩ := Option.map_eq_some_iff.1 h
    show (readUnit? (cs ++ rest)).map _ = _
    rw [readUnit?_append hunit, Option.map_some]
    dsimp only at h ⊢
    split at h
    · next hhigh =>
      rw [if_pos hhigh]
      split at h
      · next hlow =>
        cases h
        rw [readLow?_append hlow]
      · next hlow =>
        cases h
        rw [readLow?_append_eq_none hr hlow]
    · next hhigh =>
      rw [if_neg hhigh]
      split at h <;> next hlow => cases h; simp [hlow]
  · next c cs hu =>
    obtain ⟨d, hd, h⟩ := Option.map_eq_some_iff.1 h
    cases h
    have hne : c ≠ 'u' := fun heq => hu heq
    rw [List.cons_append, readEscape?, hd]
    · rfl
    · exact hne
  · cases h

theorem readString?_append {s r : Symbols} (h : readString? cs = some (s, r)) (rest : Symbols) :
    readString? (cs ++ rest) = some (s, r ++ rest) := by
  fun_induction readString? cs generalizing s with
  | case1 => cases h
  | case2 cs ih =>
    obtain ⟨⟨s', r'⟩, hs, h⟩ := Option.map_eq_some_iff.1 h
    cases h
    rw [List.cons_append, readString?, ih hs]
    rfl
  | case3 cs =>
    cases h
    rw [List.cons_append, readString?]
  | case4 => cases h
  | case5 cs c cs' hescape ih =>
    obtain ⟨⟨s', r'⟩, hs, h⟩ := Option.map_eq_some_iff.1 h
    cases h
    rw [List.cons_append, readString?]
    have hwhole := readEscape?_append hescape hs rest
    split
    · next heq => rw [hwhole] at heq; cases heq
    · next heq =>
      rw [hwhole] at heq
      cases heq
      rw [ih hs]
      rfl
  | case6 => cases h
  | case7 c cs hquote hbackslash hprintable ih =>
    obtain ⟨⟨s', r'⟩, hs, h⟩ := Option.map_eq_some_iff.1 h
    cases h
    rw [List.cons_append, readString?, if_neg hprintable, ih hs]
    · rfl
    · exact hquote
    · exact hbackslash

/-! ### Tokens -/

/-- Whether a token is a number. -/
def Token.isNumber : Token → Bool
  | .scalar (.int _) => true
  | .scalar (.float _) => true
  | _ => false

theorem isNumber_numberOfParts (negative : Bool) (ds : List Char) (fraction : Option (List Char))
    (exponent : Option Int) :
    Token.isNumber (.scalar (numberOfParts negative ds fraction exponent)) = true := by
  unfold numberOfParts
  split
  · dsimp only
    split_ifs <;> rfl
  · rfl

theorem isNumber_of_readNumber? {v : Json} {r : Symbols} (h : readNumber? cs = some (v, r)) :
    Token.isNumber (.scalar v) = true := by
  simp only [readNumber?, Option.bind_eq_bind, Option.bind_eq_some_iff] at h
  obtain ⟨_, -, _, -, _, -, h⟩ := h
  cases h
  exact isNumber_numberOfParts _ _ _ _

/-- A number starts with a minus sign or a digit. -/
theorem exists_head_of_readNumber? {found : Json × Symbols} (h : readNumber? cs = some found) :
    ∃ c tail, cs = some c :: tail ∧ (c = '-' ∨ isDigit c = true) := by
  simp only [readNumber?, Option.bind_eq_bind, Option.bind_eq_some_iff] at h
  obtain ⟨whole, hwhole, -⟩ := h
  rcases cs with _ | ⟨_ | c, tail⟩
  · cases hwhole
  · cases hwhole
  · refine ⟨c, tail, rfl, or_iff_not_imp_left.2 fun hminus => ?_⟩
    have hcs : readMinus (some c :: tail) = (false, some c :: tail) := by
      unfold readMinus
      split
      · next heq => cases heq; exact absurd rfl hminus
      · rfl
    rw [hcs, readWhole?, readDigits] at hwhole
    by_contra hdigit
    rw [if_neg hdigit] at hwhole
    cases hwhole

theorem readToken?_of_numeral {c : Char} (hc : c = '-' ∨ isDigit c = true) (cs : Symbols) :
    readToken? (some c :: cs) = (readNumber? (some c :: cs)).map fun (v, r) => (.scalar v, r) := by
  rw [readToken?]
  all_goals
    rintro _ ⟨⟩
    rcases hc with hc | hc <;> exact absurd hc (by decide)

theorem readToken?_fixed {word : Symbols} {t : Token} (h : (word, t) ∈ fixedTokens) (rest : Symbols) :
    readToken? (word ++ rest) = some (t, rest) := by
  simp only [fixedTokens, List.mem_cons, Prod.mk.injEq, List.not_mem_nil, or_false] at h
  rcases h with ⟨rfl, rfl⟩ | ⟨rfl, rfl⟩ | ⟨rfl, rfl⟩ | ⟨rfl, rfl⟩ | ⟨rfl, rfl⟩ | ⟨rfl, rfl⟩ |
    ⟨rfl, rfl⟩ | ⟨rfl, rfl⟩ | ⟨rfl, rfl⟩ <;> rfl

/-- A token stays as it is when more follows, unless it is a numeral that goes on. -/
theorem readToken?_append {t : Token} {r : Symbols} (h : readToken? cs = some (t, r))
    (hrest : t.isNumber = true → Ends rest) : readToken? (cs ++ rest) = some (t, r ++ rest) := by
  rcases readToken?_cases h with ⟨word, hword, rfl⟩ | ⟨cs, s, rfl, hs, rfl⟩ | ⟨v, hnumber, rfl⟩
  · rw [List.append_assoc]
    exact readToken?_fixed hword _
  · show (readString? (cs ++ rest)).map _ = _
    rw [readString?_append hs]
    rfl
  · obtain ⟨c, tail, rfl, hc⟩ := exists_head_of_readNumber? hnumber
    rw [List.cons_append, readToken?_of_numeral hc, ← List.cons_append,
      readNumber?_append (hrest (isNumber_of_readNumber? hnumber)) hnumber]
    rfl

/-- The tokens of a text stay as they are when more follows, unless a numeral goes on. -/
theorem tokens?_append {ts : List Token} (h : tokens? cs = some ts)
    (hrest : ∀ t ∈ ts, t.isNumber = true → Ends rest) :
    tokens? (cs ++ rest) = (tokens? rest).map (ts ++ ·) := by
  fun_induction tokens? cs generalizing ts with
  | case1 =>
    cases h
    rw [List.nil_append]
    cases tokens? rest <;> rfl
  | case2 => cases h
  | case3 c cs hblank ih => rw [List.cons_append, tokens?_cons_of_isBlank hblank, ih h hrest]
  | case4 => cases h
  | case5 c cs hblank t r htoken ih =>
    obtain ⟨us, hus, rfl⟩ := Option.map_eq_some_iff.1 h
    have hwhole := readToken?_append htoken (hrest t (by simp))
    rw [List.cons_append] at hwhole ⊢
    rw [tokens?_cons (by simpa using hblank) hwhole, ih hus fun u hu => hrest u (by simp [hu]),
      Option.map_map]
    rfl

end GqlArtifacts.Json
