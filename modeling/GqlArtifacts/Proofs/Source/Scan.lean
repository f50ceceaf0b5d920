import GqlArtifacts.Proofs.Source.Pieces

/-!
# Scanning at byte offsets

`find` goes through a script character by character. `scanFrom?` keeps a byte offset instead. It
reads bytes, moves on by one byte where no call stands and by two behind a backslash, and cuts the
argument out between two offsets. A read or a slice out of place has no value.

What is found at an offset is told of the bytes (`Located.Stands`). A call stops behind its start,
so a scan comes to its end. It has a value on every text and finds what `find` does
(`scanFrom?_eq`): a place inside a character is passed over, since no byte there is one that the
scan looks for. The calls found stand apart and in order (`scan_safe`).
-/

namespace GqlArtifacts.ScriptCall

open Text (byteSize bytes slice? byteSize_append byteSize_cons)

variable {ofLoad : Bool} {quote c : Char} {source before cs rest body : List Char}
  {call : ScriptCall} {q b : UInt8} {bs : List UInt8} {i k n stop : Nat}

def isWhiteByte (b : UInt8) : Bool :=
  b == 0x20 || b == 0x09 || b == 0x0A || b == 0x0D || b == 0x0C

def isQuoteByte (isLoad : Bool) (b : UInt8) : Bool :=
  b == 0x60 || (isLoad && (b == 0x22 || b == 0x27))

def skipWhiteAt (bs : List UInt8) (i : Nat) : Nat :=
  match _h : bs[i]? with
  | some b => if isWhiteByte b then skipWhiteAt bs (i + 1) else i
  | none => i
termination_by bs.length - i
decreasing_by have := (List.getElem?_eq_some_iff.1 _h).1; omega

/-- The closing quote of a literal, searched from an offset behind its opening one on. -/
def closingAt? (quote : UInt8) (bs : List UInt8) (k : Nat) : Option Nat :=
  match _h : bs[k]? with
  | none => none
  | some b =>
    if b = 0x5C then closingAt? quote bs (k + 2)
    else if b = quote then some k
    else if b = 0x0A ∧ quote ≠ 0x60 then none
    else closingAt? quote bs (k + 1)
termination_by bs.length - k
decreasing_by all_goals have := (List.getElem?_eq_some_iff.1 _h).1; omega

/-- The places of the two quotes in an argument list, and the end of the list. -/
def argumentAt? (isLoad : Bool) (bs : List UInt8) (i : Nat) : Option (Nat × Nat × Nat) := do
  let j := skipWhiteAt bs i
  guard (bs[j]? = some 0x28)
  let first := skipWhiteAt bs (j + 1)
  let quote ← bs[first]?
  guard (isQuoteByte isLoad quote)
  let last ← closingAt? quote bs (first + 1)
  let close := skipWhiteAt bs (last + 1)
  guard (bs[close]? = some 0x29)
  return (first, last, close + 1)

/-- Whether a byte of a name, or a dot, is right before an offset. -/
def isAfterName? (bs : List UInt8) (i : Nat) : Option Bool :=
  if i = 0 then some false else (bs[i - 1]?).map isNameByte

/-- Whether the name at an offset is that of `load`, and its size. -/
def nameAt? (bs : List UInt8) (i : Nat) : Option (Option (Bool × Nat)) :=
  if i ≤ bs.length then
    some <|
      if (bytes "gql".toList).isPrefixOf (bs.drop i) then some (false, 3)
      else if (bytes "load".toList).isPrefixOf (bs.drop i) then some (true, 4)
      else none
  else none

/-- The call with the argument between two places. -/
def takeCall? (isLoad : Bool) (source : List Char) : Option (Nat × Nat × Nat) →
    Option (Option (ScriptCall × Nat))
  | none => some none
  | some (first, last, stop) => do
    let text ← slice? source (first + 1) last
    return (ofArgument? isLoad text).map (·, stop)

/-- The call at a byte offset, if there is one, and its end. -/
def callAt? (source : List Char) (i : Nat) : Option (Option (ScriptCall × Nat)) := do
  if ← isAfterName? (bytes source) i then return none
  else
    match ← nameAt? (bytes source) i with
    | none => return none
    | some (isLoad, size) => takeCall? isLoad source (argumentAt? isLoad (bytes source) (i + size))

/-- The number of backslashes right before a place. -/
def slashesBefore (bs : List UInt8) (n : Nat) : Nat :=
  ((bs.take n).reverse.takeWhile (· == 0x5C)).length

/-- A range in bytes holds a call: it starts at the name, which no byte of a name and no dot comes
before, and the argument is what stands between two quotes, with each such quote in it escaped. -/
structure Located.Stands (source : List Char) (l : Located) : Prop where
  start_lt : l.start < l.stop
  stop_le : l.stop ≤ byteSize source
  name : bytes l.call.name <+: (bytes source).drop l.start
  apart : l.start = 0 ∨ ∃ b, (bytes source)[l.start - 1]? = some b ∧ isNameByte b = false
  argument : ∃ quote first last, isQuoteByte l.call.isLoad quote = true ∧
    l.start < first ∧ first < last ∧ last < l.stop ∧
    (bytes source)[first]? = some quote ∧ (bytes source)[last]? = some quote ∧
    slice? source (first + 1) last = some l.call.text.toList ∧
    ∀ n, (bytes l.call.text.toList)[n]? = some quote →
      slashesBefore (bytes l.call.text.toList) n % 2 = 1

/-! ### Bytes -/

/-- How a byte of a character is related to it. -/
def ByteOf (b : UInt8) (c : Char) : Prop :=
  c.toNat < 0x80 ∧ b = Text.byte c ∨ 0x80 ≤ c.toNat ∧ 0x80 ≤ b.toNat

/-- The bytes of a character, in its place in a text. -/
theorem exists_byteOf (before cs : List Char) (hn : n < c.utf8Size) :
    ∃ b, (bytes (before ++ c :: cs))[byteSize before + n]? = some b ∧ ByteOf b c := by
  have hlt : n < (String.utf8EncodeChar c).length := by rwa [String.length_utf8EncodeChar]
  rw [Text.getElem?_bytes_append, Text.bytes_cons, List.getElem?_append_left hlt,
    List.getElem?_eq_getElem hlt]
  refine ⟨_, rfl, ?_⟩
  have hmem := List.getElem_mem hlt
  rcases utf8EncodeChar_cases c with ⟨hc, hbytes⟩ | ⟨hc, hbytes⟩
  · exact .inl ⟨hc, List.mem_singleton.1 (hbytes ▸ hmem)⟩
  · exact .inr ⟨hc, hbytes _ hmem⟩

theorem exists_byteOf_first (before : List Char) (c : Char) (cs : List Char) :
    ∃ b, (bytes (before ++ c :: cs))[byteSize before]? = some b ∧ ByteOf b c :=
  exists_byteOf before cs c.utf8Size_pos

theorem getElem?_bytes_self (cs : List Char) : (bytes cs)[byteSize cs]? = none := by
  rw [List.getElem?_eq_none (by rw [Text.length_bytes])]

namespace ByteOf

theorem eq_iff (h : ByteOf b c) {d : Char} (hd : d.toNat < 0x80) : b = Text.byte d ↔ c = d := by
  rcases h with ⟨hc, rfl⟩ | ⟨hc, hb⟩
  · exact ⟨Text.byte_inj hc hd, congrArg _⟩
  · constructor
    · rintro rfl
      rw [Text.toNat_byte hd] at hb
      omega
    · rintro rfl
      omega

theorem ne_slash (h : ByteOf b c) (hc : c ≠ '\\') : b ≠ 0x5C := fun hb =>
  hc ((h.eq_iff (d := '\\') (by decide)).1 hb)

/-- A test that no byte and no character beyond ASCII passes has one answer for both. -/
theorem test {p : UInt8 → Bool} {p' : Char → Bool} (h : ByteOf b c)
    (hascii : ∀ n : Fin 0x80, p (Text.byte (Char.ofNat n)) = p' (Char.ofNat n))
    (hbytes : ∀ n : Fin 0x100, 0x80 ≤ n.val → p (UInt8.ofNat n) = false)
    (hchars : p' c = true → c.toNat < 0x80) : p b = p' c := by
  rcases h with ⟨hc, rfl⟩ | ⟨hc, hb⟩
  · have := hascii ⟨c.toNat, hc⟩
    rwa [Char.ofNat_toNat] at this
  · have hp := hbytes ⟨b.toNat, b.toNat_lt⟩ hb
    rw [UInt8.ofNat_toNat] at hp
    rw [hp, eq_comm, Bool.eq_false_iff]
    intro hp'
    have := hchars hp'
    omega

theorem isName (h : ByteOf b c) : isNameByte b = isNameChar c :=
  h.test (by decide +kernel) (by decide +kernel) fun hc => (isNameByte_byte hc).1

theorem isWhite (h : ByteOf b c) : isWhiteByte b = Text.isAsciiWhite c := by
  refine h.test (by decide +kernel) (by decide +kernel) fun hc => ?_
  simp only [Text.isAsciiWhite, Bool.or_eq_true, beq_iff_eq] at hc
  rcases hc with (((rfl | rfl) | rfl) | rfl) | rfl <;> decide

theorem isQuote (h : ByteOf b c) : isQuoteByte ofLoad b = isQuoteFor ofLoad c := by
  have hchars : isQuoteFor ofLoad c = true → c.toNat < 0x80 := fun hc => by
    rcases quote_cases hc with rfl | rfl | rfl <;> decide
  cases ofLoad with
  | false => exact h.test (by decide +kernel) (by decide +kernel) hchars
  | true => exact h.test (by decide +kernel) (by decide +kernel) hchars

/-- A character that is read as such in a literal has only bytes that are. -/
theorem plain (h : ByteOf b c) (hquote : quote.toNat < 0x80) (hslash : c ≠ '\\') (hc : c ≠ quote)
    (hfeed : ¬(c = '\n' ∧ quote ≠ '`')) :
    b ≠ 0x5C ∧ b ≠ Text.byte quote ∧ ¬(b = 0x0A ∧ Text.byte quote ≠ 0x60) := by
  refine ⟨h.ne_slash hslash, fun hb => hc ((h.eq_iff hquote).1 hb), ?_⟩
  rintro ⟨hb, htemplate⟩
  exact hfeed ⟨(h.eq_iff (by decide)).1 hb, fun heq => htemplate (congrArg Text.byte heq)⟩

end ByteOf

/-! ### White space -/

theorem skipWhiteAt_of_none (h : bs[i]? = none) : skipWhiteAt bs i = i := by
  rw [skipWhiteAt]
  split
  · next heq =>
    rw [h] at heq
    cases heq
  · rfl

theorem skipWhiteAt_of_some (h : bs[i]? = some b) :
    skipWhiteAt bs i = if isWhiteByte b then skipWhiteAt bs (i + 1) else i := by
  rw [skipWhiteAt]
  split
  · next heq =>
    rw [h] at heq
    cases heq
    rfl
  · next heq =>
    rw [h] at heq
    cases heq

theorem le_skipWhiteAt (bs : List UInt8) (i : Nat) : i ≤ skipWhiteAt bs i := by
  fun_induction skipWhiteAt bs i with
  | case1 i b _ _ ih => omega
  | case2 => exact le_rfl
  | case3 => exact le_rfl

theorem skipWhiteAt_append (before cs : List Char) :
    skipWhiteAt (bytes (before ++ cs)) (byteSize before) =
      byteSize (before ++ cs.takeWhile Text.isAsciiWhite) := by
  induction cs generalizing before with
  | nil =>
    rw [List.append_nil, skipWhiteAt_of_none (getElem?_bytes_self before)]
    simp
  | cons c cs ih =>
    obtain ⟨b, hb, hbyte⟩ := exists_byteOf_first before c cs
    rw [skipWhiteAt_of_some hb, hbyte.isWhite]
    by_cases hwhite : Text.isAsciiWhite c = true
    · have hsize : c.utf8Size = 1 := by
        simp only [Text.isAsciiWhite, Bool.or_eq_true, beq_iff_eq] at hwhite
        rcases hwhite with (((rfl | rfl) | rfl) | rfl) | rfl <;> rfl
      have hnext := ih (before ++ [c])
      rw [List.append_assoc, List.append_assoc, byteSize_append, byteSize_cons, hsize] at hnext
      rw [if_pos hwhite, List.takeWhile_cons_of_pos hwhite]
      exact hnext
    · rw [if_neg hwhite, List.takeWhile_cons_of_neg hwhite, List.append_nil]

/-! ### Literals -/

theorem closingAt?_of_none (h : bs[k]? = none) : closingAt? q bs k = none := by
  rw [closingAt?]
  split
  · rfl
  · next heq =>
    rw [h] at heq
    cases heq

theorem closingAt?_of_some (h : bs[k]? = some b) : closingAt? q bs k =
    if b = 0x5C then closingAt? q bs (k + 2)
    else if b = q then some k
    else if b = 0x0A ∧ q ≠ 0x60 then none
    else closingAt? q bs (k + 1) := by
  rw [closingAt?]
  split
  · next heq =>
    rw [h] at heq
    cases heq
  · next heq =>
    rw [h] at heq
    cases heq
    rfl

/-- Bytes that mean nothing in a literal are passed over. -/
theorem closingAt?_add (h : ∀ m < n, ∃ b, bs[k + m]? = some b ∧ b ≠ 0x5C ∧ b ≠ q ∧
    ¬(b = 0x0A ∧ q ≠ 0x60)) : closingAt? q bs k = closingAt? q bs (k + n) := by
  induction n with
  | zero => rfl
  | succ n ih =>
    obtain ⟨b, hb, hslash, hquote, hfeed⟩ := h n (Nat.lt_succ_self n)
    rw [ih fun m hm => h m (Nat.lt_succ_of_lt hm), closingAt?_of_some hb, if_neg hslash,
      if_neg hquote, if_neg hfeed, Nat.add_assoc]

/-- The closing quote is where the literal is over. -/
theorem closingAt?_append (hquote : isQuoteFor ofLoad quote = true) (before cs : List Char) :
    closingAt? (Text.byte quote) (bytes (before ++ cs)) (byteSize before) =
      (readLiteral? quote cs).map fun x => byteSize (before ++ x.1) := by
  have hascii : quote.toNat < 0x80 := by
    rcases quote_cases hquote with rfl | rfl | rfl <;> decide
  have hne : quote ≠ '\\' := by rcases quote_cases hquote with rfl | rfl | rfl <;> decide
  have hslash : '\\'.utf8Size = 1 := rfl
  fun_induction readLiteral? quote cs generalizing before with
  | case1 =>
    rw [List.append_nil, closingAt?_of_none (getElem?_bytes_self before)]
    rfl
  | case2 =>
    obtain ⟨b, hb, hbyte⟩ := exists_byteOf_first before '\\' []
    have hb' : b = 0x5C := (hbyte.eq_iff (d := '\\') (by decide)).2 rfl
    rw [closingAt?_of_some hb, if_pos hb', closingAt?_of_none]
    · rfl
    · rw [List.getElem?_eq_none]
      rw [Text.length_bytes, byteSize_append, byteSize_cons, hslash, Text.byteSize_nil]
      omega
  | case3 c cs ih =>
    obtain ⟨b, hb, hbyte⟩ := exists_byteOf_first before '\\' (c :: cs)
    have hb' : b = 0x5C := (hbyte.eq_iff (d := '\\') (by decide)).2 rfl
    have hpos := c.utf8Size_pos
    have hnext := ih (before ++ ['\\', c])
    have hplace : byteSize (before ++ ['\\', c]) = byteSize before + 2 + (c.utf8Size - 1) := by
      simp only [byteSize_append, byteSize_cons, Text.byteSize_nil, hslash]
      omega
    rw [hplace, List.append_assoc] at hnext
    rw [closingAt?_of_some hb, if_pos hb', closingAt?_add (n := c.utf8Size - 1), Option.map_map]
    · refine hnext.trans (Option.map_congr fun x _ => ?_)
      rw [List.append_assoc]
      rfl
    · -- what the jump leaves of the character is not ASCII
      intro m hm
      have hlarge : ¬c.toNat < 0x80 := fun hc => by
        rw [Text.utf8Size_of_ascii hc] at hm
        omega
      have hother : ∀ d : Char, d.toNat < 0x80 → c ≠ d := by
        rintro d hd rfl
        exact hlarge hd
      obtain ⟨b, hb, hbyte⟩ :=
        exists_byteOf (before ++ ['\\']) cs (show m + 1 < c.utf8Size by omega)
      refine ⟨b, ?_, hbyte.plain hascii (hother _ (by decide)) (hother _ hascii) fun h =>
        hother _ (by decide) h.1⟩
      rw [List.append_assoc, byteSize_append, byteSize_cons, hslash, Text.byteSize_nil] at hb
      rw [← hb]
      congr 1
      omega
  | case4 cs =>
    obtain ⟨b, hb, hbyte⟩ := exists_byteOf_first before quote cs
    rw [closingAt?_of_some hb, if_neg (hbyte.ne_slash hne), if_pos ((hbyte.eq_iff hascii).2 rfl),
      Option.map_some, List.append_nil]
  | case5 c cs hlast hescape hq hfeed =>
    obtain ⟨b, hb, hbyte⟩ := exists_byteOf_first before c cs
    have hc := ne_of_not_escape hlast hescape
    have htemplate : Text.byte quote ≠ 0x60 := fun h =>
      hfeed.2 (Text.byte_inj hascii (d := '`') (by decide) h)
    rw [closingAt?_of_some hb, if_neg (hbyte.ne_slash hc),
      if_neg fun h => hq ((hbyte.eq_iff hascii).1 h),
      if_pos ⟨(hbyte.eq_iff (d := '\n') (by decide)).2 hfeed.1, htemplate⟩]
    rfl
  | case6 c cs hlast hescape hq hfeed ih =>
    have hc := ne_of_not_escape hlast hescape
    have hnext := ih (before ++ [c])
    rw [List.append_assoc, byteSize_append, byteSize_cons, Text.byteSize_nil, Nat.add_zero] at hnext
    rw [closingAt?_add (n := c.utf8Size), Option.map_map]
    · refine hnext.trans (Option.map_congr fun x _ => ?_)
      rw [List.append_assoc]
      rfl
    · intro m hm
      obtain ⟨b, hb, hbyte⟩ := exists_byteOf before cs hm
      exact ⟨b, hb, hbyte.plain hascii hc hq hfeed⟩

/-! ### Calls -/

/-- White space is skipped up to a place between the same two parts of the text. -/
theorem skipWhiteAt_eq (h : source = before ++ cs) : ∃ front, source = front ++ skipWhite cs ∧
    skipWhiteAt (bytes source) (byteSize before) = byteSize front := by
  refine ⟨before ++ cs.takeWhile Text.isAsciiWhite, ?_, ?_⟩
  · rw [h, List.append_assoc, takeWhile_append_skipWhite]
  · rw [h, skipWhiteAt_append]

theorem getElem?_bytes_iff (h : source = before ++ cs) (hc : c.toNat < 0x80) :
    (bytes source)[byteSize before]? = some (Text.byte c) ↔ cs.head? = some c := by
  have hplace := Text.getElem?_bytes_append before cs 0
  rw [Nat.add_zero] at hplace
  rw [h, hplace, Text.getElem?_bytes_zero hc]

/-- The place behind an ASCII character. -/
theorem succ_place (h : source = before ++ c :: cs) (hc : c.toNat < 0x80) :
    source = (before ++ [c]) ++ cs ∧ byteSize before + 1 = byteSize (before ++ [c]) := by
  refine ⟨by rw [h, List.append_assoc]; rfl, ?_⟩
  rw [byteSize_append, byteSize_cons, Text.utf8Size_of_ascii hc, Text.byteSize_nil]

/-- What comes after the closing quote. -/
theorem takeCall?_close (hstart : source = before ++ (body ++ quote :: rest))
    (hquote : quote.toNat < 0x80) (hfirst : i + 1 = byteSize before) :
    takeCall? ofLoad source (do
        let close := skipWhiteAt (bytes source) (byteSize (before ++ body) + 1)
        guard ((bytes source)[close]? = some 0x29)
        return (i, byteSize (before ++ body), close + 1)) =
      some ((match skipWhite rest with
        | ')' :: after => (ofArgument? ofLoad body).map (·, n, after)
        | _ => none).map fun x : ScriptCall × Nat × List Char =>
          (x.1, byteSize source - byteSize x.2.2)) := by
  have hbody : source = (before ++ body) ++ quote :: rest := by rw [hstart, List.append_assoc]
  obtain ⟨hbehind, hplace⟩ := succ_place hbody hquote
  obtain ⟨front, hfront, hskip⟩ := skipWhiteAt_eq hbehind
  rw [hplace, hskip]
  dsimp only
  have hlook := getElem?_bytes_iff (c := ')') hfront (by decide)
  change _ = some 0x29 ↔ _ at hlook
  split
  · next after hafter =>
    rw [hafter] at hlook hfront
    have hslice := Text.slice?_append before body (quote :: rest)
    rw [← hstart, ← byteSize_append] at hslice
    have hend : byteSize source - byteSize after = byteSize front + 1 := by
      have hsize : ')'.utf8Size = 1 := rfl
      rw [hfront, byteSize_append, byteSize_cons, hsize]
      omega
    rw [guard, if_pos (hlook.2 rfl)]
    simp only [Option.pure_def, Option.bind_eq_bind, Option.bind_some, takeCall?, hfirst, hslice,
      Option.map_map, Function.comp_def, hend]
  · next hother =>
    rw [guard, if_neg fun h => ?_]
    · rfl
    · obtain ⟨after, hafter⟩ := List.head?_eq_some_iff.1 (hlook.1 h)
      exact hother after hafter

/-- The argument list is read at its byte offset as it is from its characters. -/
theorem takeCall?_append (ofLoad : Bool) (h : source = before ++ cs) :
    takeCall? ofLoad source (argumentAt? ofLoad (bytes source) (byteSize before)) =
      some ((readArguments? ofLoad cs).map fun x => (x.1, byteSize source - byteSize x.2.2)) := by
  obtain ⟨front, hfront, hskip⟩ := skipWhiteAt_eq h
  have hopen := getElem?_bytes_iff (c := '(') hfront (by decide)
  change _ = some 0x28 ↔ _ at hopen
  rw [argumentAt?, readArguments?, hskip]
  split
  · next inner hinner =>
    rw [hinner] at hfront hopen
    obtain ⟨hbehind, hplace⟩ := succ_place hfront (by decide)
    obtain ⟨lead, hlead, hskip⟩ := skipWhiteAt_eq hbehind
    rw [guard, if_pos (hopen.2 rfl), hplace, hskip]
    simp only [Option.pure_def, Option.bind_eq_bind, Option.bind_some]
    split
    · next quote literal hliteral =>
      rw [hliteral] at hlead
      obtain ⟨b, hb, hbyte⟩ := exists_byteOf_first lead quote literal
      rw [← hlead] at hb
      rw [hb, Option.bind_some, hbyte.isQuote]
      split
      · next hquote =>
        have hascii : quote.toNat < 0x80 := by
          rcases quote_cases hquote with rfl | rfl | rfl <;> decide
        obtain ⟨hbehind, hplace⟩ := succ_place hlead hascii
        have hclosing := closingAt?_append hquote (lead ++ [quote]) literal
        rw [← hbehind, ← hplace, ← (hbyte.eq_iff hascii).2 rfl] at hclosing
        rw [guard, if_pos hquote, Option.pure_def, Option.bind_some, hclosing]
        split
        · next body after hread =>
          have hafter := readLiteral?_eq hread
          rw [hread, Option.map_some, Option.bind_some]
          rw [hafter] at hbehind
          exact takeCall?_close hbehind hascii hplace
        · next hnone => rw [hnone]; rfl
      · next hquote =>
        rw [guard, if_neg hquote]
        rfl
    · next hnil =>
      rw [hnil, List.append_nil] at hlead
      rw [hlead, getElem?_bytes_self]
      rfl
  · next hother =>
    rw [guard, if_neg fun h => ?_]
    · rfl
    · obtain ⟨inner, hinner⟩ := List.head?_eq_some_iff.1 (hopen.1 h)
      exact hother inner hinner

theorem isAfterName?_eq (h : source = before ++ cs) :
    isAfterName? (bytes source) (byteSize before) =
      some ((before.getLast?.map isNameChar).getD false) := by
  rw [isAfterName?]
  rcases List.eq_nil_or_concat before with rfl | ⟨init, c, rfl⟩
  · rfl
  · rw [List.concat_eq_append] at h ⊢
    have hpos := c.utf8Size_pos
    have hsize : byteSize (init ++ [c]) = byteSize init + c.utf8Size := by simp
    obtain ⟨b, hb, hbyte⟩ := exists_byteOf init cs (show c.utf8Size - 1 < c.utf8Size by omega)
    have hlast : byteSize (init ++ [c]) - 1 = byteSize init + (c.utf8Size - 1) := by omega
    rw [if_neg (by omega), hlast, h, List.append_assoc, List.singleton_append, hb,
      List.getLast?_concat, Option.map_some, hbyte.isName]
    rfl

theorem ascii_name (call : ScriptCall) : ∀ c ∈ call.name, c.toNat < 0x80 := fun _ hc =>
  (isNameByte_byte (isNameChar_of_mem_name hc)).1

theorem nameAt?_eq (h : source = before ++ cs) : nameAt? (bytes source) (byteSize before) =
    some (if "gql".toList.isPrefixOf cs then some (false, 3)
      else if "load".toList.isPrefixOf cs then some (true, 4) else none) := by
  have hle : byteSize before ≤ (bytes source).length := by
    rw [h, Text.length_bytes, byteSize_append]
    omega
  have hgql : ∀ c ∈ "gql".toList, c.toNat < 0x80 := ascii_name (.gql "")
  have hload : ∀ c ∈ "load".toList, c.toNat < 0x80 := ascii_name (.load "")
  rw [nameAt?, if_pos hle, h, Text.drop_bytes_append, Text.bytes_isPrefixOf hgql,
    Text.bytes_isPrefixOf hload]

/-- Behind its name a call is read as `readArguments?` says. -/
theorem takeCall?_name {name : List Char} (h : source = before ++ (name ++ rest))
    (hname : ∀ d ∈ name, d.toNat < 0x80) :
    takeCall? ofLoad source (argumentAt? ofLoad (bytes source) (byteSize before + name.length)) =
      some ((readArguments? ofLoad rest).map fun x => (x.1, byteSize source - byteSize x.2.2)) := by
  rw [← List.append_assoc] at h
  rw [← Text.byteSize_of_ascii hname, ← byteSize_append]
  exact takeCall?_append ofLoad h

/-- At the start of a character the scan looks for a call as `find` does. -/
theorem callAt?_eq (h : source = before ++ cs) : callAt? source (byteSize before) =
    some (if (before.getLast?.map isNameChar).getD false then none
      else (read? cs).map fun x => (x.1, byteSize source - byteSize x.2.2)) := by
  rw [callAt?, isAfterName?_eq h, Option.bind_eq_bind, Option.bind_some]
  split
  · rfl
  · rw [nameAt?_eq h, Option.bind_eq_bind, Option.bind_some]
    by_cases hgql : "gql".toList.isPrefixOf cs = true
    · obtain ⟨rest, rfl⟩ := List.isPrefixOf_iff_prefix.1 hgql
      have hread : read? ("gql".toList ++ rest) = (readArguments? false rest).map
          fun x : ScriptCall × Nat × List Char => (x.1, x.2.1 + 3, x.2.2) := rfl
      rw [if_pos hgql, hread, Option.map_map]
      exact takeCall?_name h (ascii_name (.gql ""))
    by_cases hload : "load".toList.isPrefixOf cs = true
    · obtain ⟨rest, rfl⟩ := List.isPrefixOf_iff_prefix.1 hload
      have hread : read? ("load".toList ++ rest) = (readArguments? true rest).map
          fun x : ScriptCall × Nat × List Char => (x.1, x.2.1 + 4, x.2.2) := rfl
      rw [if_neg hgql, if_pos hload, hread, Option.map_map]
      exact takeCall?_name h (ascii_name (.load ""))
    · have hread : read? cs = none := read?_eq_none fun call hname => by
        cases call with
        | gql text => exact hgql (List.isPrefixOf_iff_prefix.2 hname)
        | load argument => exact hload (List.isPrefixOf_iff_prefix.2 hname)
      rw [if_neg hgql, if_neg hload, hread]
      rfl

/-- No call is found inside a character. -/
theorem callAt?_inside (h : source = before ++ c :: cs) (hpos : 0 < n) (hn : n < c.utf8Size) :
    callAt? source (byteSize before + n) = some none := by
  have hlarge : ¬c.toNat < 0x80 := fun hc => by
    rw [Text.utf8Size_of_ascii hc] at hn
    omega
  obtain ⟨b, hb, hbyte⟩ := exists_byteOf before cs (show n - 1 < c.utf8Size by omega)
  obtain ⟨b', hb', hbyte'⟩ := exists_byteOf before cs hn
  rw [← h] at hb hb'
  have hafter : isAfterName? (bytes source) (byteSize before + n) = some (isNameChar c) := by
    have hplace : byteSize before + n - 1 = byteSize before + (n - 1) := by omega
    rw [isAfterName?, if_neg (by omega), hplace, hb, Option.map_some, hbyte.isName]
  have hle : byteSize before + n ≤ (bytes source).length :=
    Nat.le_of_lt (List.getElem?_eq_some_iff.1 hb').1
  have hname : ∀ (d : Char) (name : List Char), name.head? = some d → d.toNat < 0x80 →
      ¬(bytes name).isPrefixOf ((bytes source).drop (byteSize before + n)) = true := by
    intro d name hhead hd hstarts
    obtain ⟨rest, hrest⟩ := List.isPrefixOf_iff_prefix.1 hstarts
    obtain ⟨name, rfl⟩ := List.head?_eq_some_iff.1 hhead
    rw [((Text.bytes_cons_cases d name hd).resolve_right fun h => h.1 rfl).2] at hrest
    have hfirst := congrArg (·[0]?) hrest
    simp only [List.cons_append, List.getElem?_cons_zero, List.getElem?_drop, Nat.add_zero, hb',
      Option.some.injEq] at hfirst
    rw [(hbyte'.eq_iff hd).1 hfirst.symm] at hlarge
    exact hlarge hd
  have hnone : nameAt? (bytes source) (byteSize before + n) = some none := by
    rw [nameAt?, if_pos hle, if_neg (hname 'g' _ (by decide) (by decide)),
      if_neg (hname 'l' _ (by decide) (by decide))]
  rw [callAt?, hafter, Option.bind_eq_bind, Option.bind_some, hnone]
  split <;> rfl

/-! ### Escapes -/

theorem slashesBefore_cons (b : UInt8) (bs : List UInt8) (n : Nat) :
    slashesBefore (b :: bs) (n + 1) = slashesBefore bs n +
      if slashesBefore bs n = (bs.take n).length ∧ b = 0x5C then 1 else 0 := by
  rw [slashesBefore, List.take_succ_cons, List.reverse_cons, List.takeWhile_append,
    List.length_reverse]
  change (if slashesBefore bs n = _ then _ else _ : List UInt8).length = _
  split
  · next hall => by_cases hb : b = 0x5C <;> simp [hb, hall]
  · next hsome =>
    rw [if_neg fun h => hsome h.1]
    rfl

theorem slashesBefore_le (bs : List UInt8) (n : Nat) : slashesBefore bs n ≤ (bs.take n).length := by
  have hle := (List.takeWhile_sublist (l := (bs.take n).reverse) (· == 0x5C)).length_le
  rwa [List.length_reverse] at hle

/-- In a body that is not over before its end, each quote follows an odd number of backslashes. -/
theorem slashesBefore_of_closes (hq : q ≠ 0x5C) (h : closes q bs = true) (hn : bs[n]? = some q) :
    slashesBefore bs n % 2 = 1 := by
  fun_induction closes q bs generalizing n with
  | case1 => cases hn
  | case2 => cases h
  | case3 x bs ih =>
    match n with
    | 0 => exact absurd (Option.some.inj hn).symm hq
    | 1 => rfl
    | n + 2 =>
      have hodd := ih h hn
      have hle := slashesBefore_le bs n
      have hlength : ((x :: bs).take (n + 1)).length = (bs.take n).length + 1 := by simp
      rw [slashesBefore_cons, slashesBefore_cons, hlength]
      -- two more if the backslashes go on up to the front, and else none
      by_cases hall : slashesBefore bs n = (bs.take n).length ∧ x = 0x5C
      · rw [if_pos hall, if_pos ⟨by omega, rfl⟩]
        omega
      · rw [if_neg hall, if_neg fun h => by omega]
        exact hodd
  | case4 b bs hb ih =>
    rw [Bool.and_eq_true, Bool.and_eq_true, bne_iff_ne] at h
    match n with
    | 0 => exact absurd (Option.some.inj hn) h.1.1
    | n + 1 =>
      rw [slashesBefore_cons, if_neg fun hslash => hb hslash.2]
      exact ih h.2 hn

theorem closingAt?_eq_some (h : closingAt? q bs k = some n) : k ≤ n ∧ bs[n]? = some q ∧
    closes q ((bs.drop k).take (n - k)) = true := by
  fun_induction closingAt? q bs k with
  | case1 => cases h
  | case2 k hb ih =>
    obtain ⟨hle, hn, hcloses⟩ := ih h
    have hlt := (List.getElem?_eq_some_iff.1 hn).1
    obtain ⟨m, rfl⟩ : ∃ m, n = k + 2 + m := ⟨n - (k + 2), by omega⟩
    have htake : k + 2 + m - k = m + 1 + 1 := by omega
    have hrest : k + 2 + m - (k + 2) = m := by omega
    rw [hrest] at hcloses
    refine ⟨by omega, hn, ?_⟩
    rw [htake, List.drop_eq_getElem_cons (by omega : k < bs.length),
      List.drop_eq_getElem_cons (by omega : k + 1 < bs.length),
      (List.getElem?_eq_some_iff.1 hb).2]
    exact hcloses
  | case3 k hb =>
    obtain rfl := Option.some.inj h
    exact ⟨le_rfl, hb, by rw [Nat.sub_self]; rfl⟩
  | case4 => cases h
  | case5 k b hb hslash hquote hfeed ih =>
    obtain ⟨hle, hn, hcloses⟩ := ih h
    have hlt := (List.getElem?_eq_some_iff.1 hn).1
    obtain ⟨m, rfl⟩ : ∃ m, n = k + 1 + m := ⟨n - (k + 1), by omega⟩
    have htake : k + 1 + m - k = m + 1 := by omega
    have hrest : k + 1 + m - (k + 1) = m := by omega
    rw [hrest] at hcloses
    refine ⟨by omega, hn, ?_⟩
    rw [htake, List.drop_eq_getElem_cons (by omega : k < bs.length),
      (List.getElem?_eq_some_iff.1 hb).2, List.take_succ_cons, closes_cons_of_ne hslash, hcloses,
      bne_iff_ne.2 hquote, Bool.true_and, Bool.and_true, Bool.or_eq_true, bne_iff_ne, beq_iff_eq]
    by_contra hfeed'
    rw [not_or, not_not] at hfeed'
    exact hfeed hfeed'

/-! ### What is found -/

theorem argumentAt?_eq_some {first last : Nat}
    (h : argumentAt? ofLoad bs i = some (first, last, stop)) :
    ∃ quote, isQuoteByte ofLoad quote = true ∧ i < first ∧ bs[first]? = some quote ∧
      closingAt? quote bs (first + 1) = some last ∧ last < stop ∧ stop ≤ bs.length := by
  simp only [argumentAt?, Option.bind_eq_bind, Option.bind_eq_some_iff, Option.pure_def,
    Option.guard_eq_some', Option.some.injEq, Prod.mk.injEq, exists_and_left] at h
  obtain ⟨-, -, quote, hfirst, hquote, -, last', hlast, hclose, rfl, rfl, -, rfl⟩ := h
  have hle₁ := le_skipWhiteAt bs i
  have hle₂ := le_skipWhiteAt bs (skipWhiteAt bs i + 1)
  have hle₃ := le_skipWhiteAt bs (last' + 1)
  have hlt := (List.getElem?_eq_some_iff.1 hclose).1
  exact ⟨quote, hquote, by omega, hfirst, hlast, by omega, by omega⟩

theorem isAfterName?_eq_false (h : isAfterName? bs i = some false) :
    i = 0 ∨ ∃ b, bs[i - 1]? = some b ∧ isNameByte b = false := by
  rw [isAfterName?] at h
  split at h
  · next hzero => exact .inl hzero
  · exact .inr (Option.map_eq_some_iff.1 h)

/-- A name is that of the calls it is the name of. -/
theorem nameAt?_eq_some (h : nameAt? bs i = some (some (ofLoad, n)))
    (hcall : call.isLoad = ofLoad) : bytes call.name <+: bs.drop i ∧ 0 < n := by
  rw [nameAt?] at h
  split_ifs at h with hle hgql hload
  · cases h
    cases call with
    | gql text => exact ⟨List.isPrefixOf_iff_prefix.1 hgql, by decide⟩
    | load argument => cases hcall
  · cases h
    cases call with
    | gql text => cases hcall
    | load argument => exact ⟨List.isPrefixOf_iff_prefix.1 hload, by decide⟩
  · cases h

/-- What one look at a place finds. -/
theorem callAt?_eq_some (h : callAt? source i = some (some (call, stop))) :
    Located.Stands source ⟨i, stop, call⟩ := by
  obtain ⟨afterName, hafter, h⟩ := Option.bind_eq_some_iff.1 h
  split at h
  · cases h
  · next hfalse =>
    obtain ⟨name, hname, h⟩ := Option.bind_eq_some_iff.1 h
    split at h
    · cases h
    · next ofLoad size =>
      cases hargument : argumentAt? ofLoad (bytes source) (i + size) with
      | none =>
        rw [hargument] at h
        cases h
      | some found =>
        obtain ⟨first, last, stop'⟩ := found
        rw [hargument] at h
        obtain ⟨body, hslice, h⟩ := Option.bind_eq_some_iff.1 h
        obtain ⟨call', hcall, heq⟩ := Option.map_eq_some_iff.1 (Option.some.inj h)
        cases heq
        obtain ⟨htext, hload⟩ := of_ofArgument? hcall
        obtain ⟨quote, hquote, hlt, hfirst, hlast, hstop, hend⟩ := argumentAt?_eq_some hargument
        obtain ⟨hle, hlast', hcloses⟩ := closingAt?_eq_some hlast
        obtain ⟨hstarts, hpos⟩ := nameAt?_eq_some hname hload
        have hslash : quote ≠ 0x5C := by
          rintro rfl
          cases ofLoad <;> cases hquote
        rw [Text.length_bytes] at hend
        rw [← Text.bytes_of_slice? hslice] at hcloses
        refine ⟨by show i < stop; omega, hend, hstarts,
          isAfterName?_eq_false (by rwa [Bool.eq_false_iff.2 hfalse] at hafter), quote, first, last,
          hload ▸ hquote, by show i < first; omega, by omega, hstop, hfirst, hlast', htext ▸ hslice,
          fun n hn => ?_⟩
        change (bytes call.text.toList)[n]? = some quote at hn
        show slashesBefore (bytes call.text.toList) n % 2 = 1
        rw [htext] at hn ⊢
        exact slashesBefore_of_closes hslash hcloses hn

/-! ### Runs -/

/-- The calls from a byte offset on, with their ranges in bytes. -/
def scanFrom? (source : List Char) (i : Nat) : Option (List Located) :=
  if i < byteSize source then
    match _h : callAt? source i with
    | none => none
    | some (some (call, stop)) => (scanFrom? source stop).map (⟨i, stop, call⟩ :: ·)
    | some none => scanFrom? source (i + 1)
  else some []
termination_by byteSize source - i
decreasing_by
  · have : i < stop := (callAt?_eq_some _h).start_lt
    omega
  · omega

/-- The range of a call in bytes. -/
def Located.toBytes (source : List Char) (l : Located) : Located :=
  ⟨byteSize (source.take l.start), byteSize (source.take l.stop), l.call⟩

theorem scanFrom?_of_none (hi : i < byteSize source) (h : callAt? source i = some none) :
    scanFrom? source i = scanFrom? source (i + 1) := by
  rw [scanFrom?, if_pos hi]
  split
  · next heq => cases h.symm.trans heq
  · next heq => cases h.symm.trans heq
  · rfl

theorem scanFrom?_of_some (hi : i < byteSize source)
    (h : callAt? source i = some (some (call, stop))) :
    scanFrom? source i = (scanFrom? source stop).map (⟨i, stop, call⟩ :: ·) := by
  rw [scanFrom?, if_pos hi]
  split
  · next heq => cases h.symm.trans heq
  · next heq =>
    cases h.symm.trans heq
    rfl
  · next heq => cases h.symm.trans heq

/-- A character at which no call stands is passed over. -/
theorem scanFrom?_cons (h : source = before ++ c :: cs)
    (hcall : callAt? source (byteSize before) = some none) :
    scanFrom? source (byteSize before) = scanFrom? source (byteSize (before ++ [c])) := by
  have hsize : byteSize source = byteSize before + (c.utf8Size + byteSize cs) := by
    rw [h, byteSize_append, byteSize_cons]
  have hadd : ∀ n ≤ c.utf8Size,
      scanFrom? source (byteSize before) = scanFrom? source (byteSize before + n) := by
    intro n hn
    induction n with
    | zero => rfl
    | succ n ih =>
      have hnone : callAt? source (byteSize before + n) = some none := by
        cases n with
        | zero => exact hcall
        | succ n => exact callAt?_inside h (Nat.succ_pos n) (by omega)
      rw [ih (by omega), scanFrom?_of_none (by omega) hnone, Nat.add_assoc]
  rw [hadd _ le_rfl, byteSize_append, byteSize_cons, Text.byteSize_nil, Nat.add_zero]

theorem getLast?_written {quote : Char} {written : List Char} (h : Written call quote written) :
    written.getLast? = some ')' := by
  obtain ⟨arguments, ⟨w₁, w₂, w₃, -, -, -, rfl⟩, rfl, -⟩ := h
  simp only [← List.append_assoc, ← List.cons_append, List.getLast?_concat]

/-- From a place between two characters the scan goes on as `find` does. -/
theorem scanFrom?_append {start : Nat} {afterName : Bool} (h : source = before ++ cs)
    (hstart : start = before.length)
    (hafter : afterName = (before.getLast?.map isNameChar).getD false) :
    scanFrom? source (byteSize before) =
      some ((find start afterName cs).map (Located.toBytes source)) := by
  fun_induction find start afterName cs generalizing before with
  | case1 start afterName =>
    rw [List.append_nil] at h
    rw [scanFrom?, if_neg (by rw [h]; omega)]
    rfl
  | case2 start c cs ih =>
    have hcall : callAt? source (byteSize before) = some none := by
      rw [callAt?_eq h, ← hafter, if_pos rfl]
    rw [scanFrom?_cons h hcall]
    refine ih ?_ ?_ ?_
    · rw [h, List.append_assoc, List.singleton_append]
    · simp [hstart]
    · simp
  | case3 start afterName c cs hname call size after hread ih =>
    obtain ⟨quote, written, hcs, rfl, hwritten⟩ := read?_eq hread
    have hpos := (length_read? hread).1
    have hend : source = (before ++ written) ++ after := by rw [h, hcs, List.append_assoc]
    have hsize : byteSize source = byteSize (before ++ written) + byteSize after := by
      rw [hend, byteSize_append]
    have hwide : written.length ≤ byteSize written := Text.length_le_byteSize written
    have hcall : callAt? source (byteSize before) =
        some (some (call, byteSize (before ++ written))) := by
      rw [callAt?_eq h, ← hafter, if_neg hname, hread, Option.map_some, hsize, Nat.add_sub_cancel]
    have hrange : Located.toBytes source ⟨start, start + written.length, call⟩ =
        ⟨byteSize before, byteSize (before ++ written), call⟩ := by
      rw [Located.toBytes, hstart, ← List.length_append, hend, List.take_left, List.append_assoc,
        List.take_left]
    rw [scanFrom?_of_some (by rw [hsize, byteSize_append]; omega) hcall, ih hend ?_ ?_,
      Option.map_some, List.map_cons, hrange]
    · rw [hstart, List.length_append]
    · rw [List.getLast?_append, getLast?_written hwritten]
      rfl
  | case4 start afterName c cs hname hread ih =>
    have hcall : callAt? source (byteSize before) = some none := by
      rw [callAt?_eq h, ← hafter, if_neg hname, hread]
      rfl
    rw [scanFrom?_cons h hcall]
    refine ih ?_ ?_ ?_
    · rw [h, List.append_assoc, List.singleton_append]
    · simp [hstart]
    · simp

theorem scanFrom?_eq (source : List Char) :
    scanFrom? source 0 = some ((find 0 false source).map (Located.toBytes source)) := by
  have hstart : source = [] ++ source := rfl
  exact scanFrom?_append hstart rfl rfl

/-- What a scan finds from a place on. -/
theorem scanFrom?_eq_some {found : List Located} (h : scanFrom? source i = some found) :
    found.Pairwise (fun a b => a.stop ≤ b.start) ∧ ∀ l ∈ found, i ≤ l.start ∧ l.Stands source := by
  fun_induction scanFrom? source i generalizing found with
  | case1 => cases h
  | case2 i hi call stop hcall ih =>
    obtain ⟨more, hmore, rfl⟩ := Option.map_eq_some_iff.1 h
    obtain ⟨hpairwise, hstands⟩ := ih hmore
    have hcall := callAt?_eq_some hcall
    have hlt : i < stop := hcall.start_lt
    refine ⟨List.pairwise_cons.2 ⟨fun l hl => (hstands l hl).1, hpairwise⟩, fun l hl => ?_⟩
    rcases List.mem_cons.1 hl with rfl | hl
    · exact ⟨le_rfl, hcall⟩
    · obtain ⟨hle, hl⟩ := hstands l hl
      exact ⟨by omega, hl⟩
  | case3 i hi hnone ih =>
    obtain ⟨hpairwise, hstands⟩ := ih h
    refine ⟨hpairwise, fun l hl => ?_⟩
    obtain ⟨hle, hl⟩ := hstands l hl
    exact ⟨by omega, hl⟩
  | case4 =>
    obtain rfl := Option.some.inj h
    exact ⟨List.Pairwise.nil, List.forall_mem_nil _⟩

/-- The scan has a value on every text, which is that of the model, and what it finds stands there,
one call after another. -/
theorem scan_safe (source : String) : ∃ found, scanFrom? source.toList 0 = some found ∧
    found.map Located.call = scan source ∧ found.Pairwise (fun a b => a.stop ≤ b.start) ∧
    ∀ l ∈ found, l.Stands source.toList := by
  refine ⟨_, scanFrom?_eq _, ?_, ?_⟩
  · rw [List.map_map]
    rw [scan, Text.chars_eq]
    rfl
  · obtain ⟨hpairwise, hstands⟩ := scanFrom?_eq_some (scanFrom?_eq source.toList)
    exact ⟨hpairwise, fun l hl => (hstands l hl).2⟩

end GqlArtifacts.ScriptCall
