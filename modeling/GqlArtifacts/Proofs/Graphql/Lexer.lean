import GqlArtifacts.Proofs.Graphql.Token
import GqlArtifacts.Proofs.Text.Bytes

/-!
# Lexing at byte offsets

`lexemes` takes a text apart character by character. A `Lexer` keeps a byte offset instead and looks
at slices of the text from there on. Its loops end since each round moves the offset on
(`advance_lt`, `left_next?`). A slice out of range or inside a character has no value, so `run?_eq`
says at once that no slice fails on any text and that the tokens are those of `lexemes`.

The lemmas on the parts are all of one form: where `before` has been read and `cs` is to come, the
offset moves over as many bytes as the characters take up that `spanGap`, `spanBlock`, `spanString`
or `spanToken` takes from `cs`.
-/

namespace GqlArtifacts.Graphql

open Text (byteSize slice? byteSize_cons byteSize_append)

variable {p : Char → Bool} {c : Char} {before cs : List Char} {i : Nat}

/-- The offset of the first character that `p` accepts, or the end. -/
def offsetOf (p : Char → Bool) (cs : List Char) : Nat := byteSize (cs.takeWhile fun c => !p c)

structure Lexer where
  source : List Char
  pos : Nat

namespace Lexer

def advance (l : Lexer) (size : Nat) : Lexer := { l with pos := l.pos + size }

/-- The text that is still to come. -/
def rest? (l : Lexer) : Option (List Char) := slice? l.source l.pos (byteSize l.source)

/-- The number of bytes that are still to come. -/
def left (l : Lexer) : Nat := byteSize l.source - l.pos

theorem advance_lt {l : Lexer} {size : Nat} (h : l.rest? = some (c :: cs)) (hsize : 0 < size) :
    (l.advance size).left < l.left := by
  obtain ⟨before, after, hsource, hbefore, hend⟩ := Text.slice?_eq_some_iff.1 h
  have hpos := c.utf8Size_pos
  rw [byteSize_cons] at hend
  show byteSize l.source - (l.pos + size) < byteSize l.source - l.pos
  omega

theorem offsetOf_pos (hc : p c = false) : 0 < offsetOf p (c :: cs) := by
  have hpos := c.utf8Size_pos
  rw [offsetOf, List.takeWhile_cons_of_pos (by simp [hc]), byteSize_cons]
  omega

/-- Passes over everything that is ignored. -/
def skipIgnored? (l : Lexer) : Option Lexer :=
  match _h : l.rest? with
  | none => none
  | some [] => some l
  | some (c :: cs) =>
    if isIgnored c then skipIgnored? (l.advance c.utf8Size)
    else if c = '#' then skipIgnored? (l.advance (offsetOf isTerminator (c :: cs)))
    else some l
termination_by l.left
decreasing_by
  · exact advance_lt _h c.utf8Size_pos
  · next hc => exact advance_lt _h (offsetOf_pos (hc ▸ by decide))

/-- The end of a block string, searched from an offset behind its opening quotes on. -/
def blockEnd? (body : List Char) (i : Nat) : Option Nat :=
  if i < byteSize body then
    match slice? body i (byteSize body) with
    | none => none
    | some tail =>
      if ('\\' :: quotes).isPrefixOf tail then blockEnd? body (i + 4)
      else if quotes.isPrefixOf tail then some (i + 3)
      else blockEnd? body (i + (tail.head?.map Char.utf8Size).getD 1)
  else some (byteSize body)
termination_by byteSize body - i
decreasing_by
  · omega
  · have : 0 < (tail.head?.map Char.utf8Size).getD 1 := by
      cases tail with
      | nil => exact Nat.one_pos
      | cons c cs => exact c.utf8Size_pos
    omega

/-- The end of a string whose characters from an offset on are given; none at the end of the
text. -/
def stringEnd? : Nat → List Char → Option Nat
  | _, [] => none
  | _, ['\\'] => none
  | i, '\\' :: c :: cs => stringEnd? (i + 1 + c.utf8Size) cs
  | i, c :: cs =>
    if c = '"' then some (i + 1)
    else if isTerminator c then some i
    else stringEnd? (i + c.utf8Size) cs

/-- The kind and the size of the token that starts with `c`. -/
def measure? (c : Char) (cs : List Char) : Option (TokenKind × Nat) :=
  if ['.', '.', '.'].isPrefixOf (c :: cs) then some (.spread, 3)
  else if isPunctuator c || c == '.' then some (.punctuator, 1)
  else if quotes.isPrefixOf (c :: cs) then do
    let body ← slice? (c :: cs) 3 (byteSize (c :: cs))
    return (.blockString, 3 + (← blockEnd? body 0))
  else if c = '"' then some (.string, (stringEnd? c.utf8Size cs).getD (byteSize (c :: cs)))
  else some (.word, max (offsetOf (endsWord (startsNumber c)) (c :: cs)) c.utf8Size)

/-- The lexer where the next token starts, and the token with the lexer behind it; no token at the
end. -/
def next? (l : Lexer) : Option (Lexer × Option (Token × Lexer)) := do
  let l ← l.skipIgnored?
  match ← l.rest? with
  | [] => return (l, none)
  | c :: cs =>
    let (kind, size) ← measure? c cs
    let text ← slice? (c :: cs) 0 size
    return (l, some (⟨kind, text⟩, l.advance size))

/-! ### Ignored characters -/

theorem spanGap_cons (hc : isIgnored c = true) (cs : List Char) :
    spanGap false (c :: cs) = (c :: (spanGap false cs).1, (spanGap false cs).2) := by
  simp [spanGap, hc]

/-- A comment goes up to a line terminator or to the end. -/
theorem spanGap_true (cs : List Char) : spanGap true cs =
    (cs.takeWhile (fun c => !isTerminator c) ++
      (spanGap false (cs.dropWhile fun c => !isTerminator c)).1,
      (spanGap false (cs.dropWhile fun c => !isTerminator c)).2) := by
  induction cs with
  | nil => rfl
  | cons c cs ih =>
    cases hc : isTerminator c with
    | true => simp [spanGap, hc, isIgnored]
    | false => rw [spanGap]; simp [hc, ih]

theorem spanGap_comment (cs : List Char) : spanGap false ('#' :: cs) =
    (('#' :: cs).takeWhile (fun c => !isTerminator c) ++
      (spanGap false (('#' :: cs).dropWhile fun c => !isTerminator c)).1,
      (spanGap false (('#' :: cs).dropWhile fun c => !isTerminator c)).2) := by
  have hstep : spanGap false ('#' :: cs) = ('#' :: (spanGap true cs).1, (spanGap true cs).2) := rfl
  have hhash : isTerminator '#' = false := by decide
  rw [hstep, spanGap_true]
  simp [hhash]

theorem rest?_append (before cs : List Char) :
    rest? ⟨before ++ cs, byteSize before⟩ = some cs := Text.slice?_end before cs

theorem advance_append (before front rest : List Char) :
    advance ⟨before ++ (front ++ rest), byteSize before⟩ (byteSize front) =
      ⟨(before ++ front) ++ rest, byteSize (before ++ front)⟩ := by
  rw [advance, List.append_assoc, byteSize_append]

theorem skipIgnored?_append (before cs : List Char) :
    skipIgnored? ⟨before ++ cs, byteSize before⟩ =
      some ⟨before ++ cs, byteSize (before ++ (spanGap false cs).1)⟩ := by
  induction hn : cs.length using Nat.strongRecOn generalizing before cs with
  | ind n ih =>
    subst hn
    rw [skipIgnored?, rest?_append]
    cases cs with
    | nil => simp [spanGap]
    | cons c cs =>
      dsimp only
      by_cases hignored : isIgnored c = true
      · have hmove := advance_append before [c] cs
        rw [List.singleton_append, byteSize_cons, Text.byteSize_nil, Nat.add_zero] at hmove
        rw [if_pos hignored, hmove, ih _ (by simp) _ _ rfl, spanGap_cons hignored]
        simp
      · rw [if_neg hignored]
        by_cases hcomment : c = '#'
        · subst hcomment
          have hsplit :=
            List.takeWhile_append_dropWhile (p := fun c => !isTerminator c) (l := '#' :: cs)
          have hmove := advance_append before (('#' :: cs).takeWhile fun c => !isTerminator c)
            (('#' :: cs).dropWhile fun c => !isTerminator c)
          have hshorter : (('#' :: cs).dropWhile fun c => !isTerminator c).length <
              ('#' :: cs).length := by
            have hlength := (List.dropWhile_sublist (l := cs) fun c => !isTerminator c).length_le
            have hhash : isTerminator '#' = false := by decide
            rw [List.dropWhile_cons_of_pos (by simp [hhash]), List.length_cons]
            omega
          rw [hsplit] at hmove
          rw [if_pos rfl, offsetOf, hmove, ih _ hshorter _ _ rfl, List.append_assoc, hsplit,
            spanGap_comment, List.append_assoc]
        · rw [if_neg hcomment]
          simp [spanGap, hignored, hcomment]

/-! ### Tokens -/

theorem toNat_lt_of_isPunctuator (h : isPunctuator c = true) : c.toNat < 0x80 := by
  simp only [isPunctuator, Bool.or_eq_true, beq_iff_eq] at h
  rcases h with (((((((((((rfl | rfl) | rfl) | rfl) | rfl) | rfl) | rfl) | rfl) | rfl) | rfl) |
    rfl) | rfl) | rfl <;> decide

/-- One round of the search for the end of a block string. -/
theorem blockEnd?_cons (before : List Char) (c : Char) (cs : List Char) :
    blockEnd? (before ++ c :: cs) (byteSize before) =
      if ('\\' :: quotes).isPrefixOf (c :: cs) then
        blockEnd? (before ++ c :: cs) (byteSize before + 4)
      else if quotes.isPrefixOf (c :: cs) then some (byteSize before + 3)
      else blockEnd? (before ++ c :: cs) (byteSize before + c.utf8Size) := by
  have hmore : byteSize before < byteSize (before ++ c :: cs) := by
    have := c.utf8Size_pos
    rw [byteSize_append, byteSize_cons]
    omega
  rw [blockEnd?, if_pos hmore, Text.slice?_end]
  rfl

theorem blockEnd?_append (before cs : List Char) :
    blockEnd? (before ++ cs) (byteSize before) =
      some (byteSize before + byteSize (spanBlock cs).1) := by
  fun_induction spanBlock cs generalizing before with
  | case1 => rw [blockEnd?]; simp
  | case2 cs body rest hspan ih =>
    have hnext := ih (before ++ '\\' :: quotes)
    have hsize : byteSize ('\\' :: quotes) = 4 := rfl
    rw [List.append_assoc, byteSize_append, hsize, hspan] at hnext
    rw [blockEnd?_cons, if_pos (by simp [quotes])]
    refine hnext.trans (congrArg some ?_)
    show _ = byteSize before + byteSize (('\\' :: quotes) ++ body)
    rw [byteSize_append, hsize, Nat.add_assoc]
  | case3 cs =>
    rw [blockEnd?_cons, if_neg (by simp), if_pos (by simp [quotes])]
    rfl
  | case4 c cs hescaped hquotes body rest hspan ih =>
    have hnext := ih (before ++ [c])
    rw [List.append_assoc, byteSize_append, List.singleton_append, hspan] at hnext
    have hescape : ¬('\\' :: quotes).isPrefixOf (c :: cs) = true := by
      rw [List.isPrefixOf_iff_prefix]
      rintro ⟨more, hmore⟩
      obtain ⟨rfl, rfl⟩ := List.cons.inj hmore
      exact hescaped more rfl rfl
    have hclose : ¬quotes.isPrefixOf (c :: cs) = true := by
      rw [List.isPrefixOf_iff_prefix]
      rintro ⟨more, hmore⟩
      obtain ⟨rfl, rfl⟩ := List.cons.inj hmore
      exact hquotes more rfl rfl
    rw [blockEnd?_cons, if_neg hescape, if_neg hclose]
    refine hnext.trans (congrArg some ?_)
    simp only [byteSize_cons, Text.byteSize_nil]
    omega

theorem stringEnd?_cons (hslash : c ≠ '\\') : stringEnd? i (c :: cs) =
    if c = '"' then some (i + 1)
    else if isTerminator c then some i
    else stringEnd? (i + c.utf8Size) cs := by
  rw [stringEnd?]
  · exact fun heq _ => hslash heq
  · exact fun _ _ heq _ => hslash heq

theorem getD_stringEnd? (i : Nat) (cs : List Char) :
    (stringEnd? i cs).getD (i + byteSize cs) = i + byteSize (spanString cs).1 := by
  have hslash : '\\'.utf8Size = 1 := rfl
  have hquote : '"'.utf8Size = 1 := rfl
  fun_induction spanString cs generalizing i with
  | case1 => rfl
  | case2 c cs body rest hspan ih =>
    have hnext := ih (i + 1 + c.utf8Size)
    rw [hspan] at hnext
    rw [stringEnd?]
    simp only [byteSize_cons, hslash]
    rw [← Nat.add_assoc, ← Nat.add_assoc, hnext]
    dsimp only
    omega
  | case3 cs => simp [stringEnd?, hquote]
  | case4 c cs hescaped hquoted hterm =>
    have hne : c ≠ '\\' := by rintro rfl; exact absurd hterm (by decide)
    rw [stringEnd?_cons hne, if_neg hquoted, if_pos hterm]
    rfl
  | case5 c cs hescaped hquoted hterm body rest hspan ih =>
    by_cases hne : c = '\\'
    · -- a backslash at the very end takes nothing along
      subst hne
      cases cs with
      | nil => cases hspan; rfl
      | cons d cs => exact absurd rfl (hescaped d cs rfl)
    · have hnext := ih (i + c.utf8Size)
      rw [hspan] at hnext
      rw [stringEnd?_cons hne, if_neg hquoted, if_neg hterm, byteSize_cons, byteSize_cons,
        ← Nat.add_assoc, hnext, Nat.add_assoc]

theorem measure?_dot (cs : List Char) :
    measure? '.' cs = some ((spanToken '.' cs).1.kind, byteSize (spanToken '.' cs).1.text) := by
  by_cases hspread : ['.', '.', '.'].isPrefixOf ('.' :: cs) = true
  · obtain ⟨more, hmore⟩ := List.isPrefixOf_iff_prefix.1 hspread
    obtain ⟨-, rfl⟩ := List.cons.inj hmore
    rfl
  · have hspan : spanToken '.' cs = (⟨.punctuator, ['.']⟩, cs) := by
      unfold spanToken
      split
      · exact absurd rfl hspread
      · next heq => exact absurd heq (by decide)
      · next heq _ => exact absurd heq (by decide)
      · rfl
    rw [measure?, if_neg hspread, hspan]
    rfl

theorem measure?_quote (cs : List Char) :
    measure? '"' cs = some ((spanToken '"' cs).1.kind, byteSize (spanToken '"' cs).1.text) := by
  by_cases hblock : quotes.isPrefixOf ('"' :: cs) = true
  · obtain ⟨body, hbody⟩ := List.isPrefixOf_iff_prefix.1 hblock
    obtain ⟨-, rfl⟩ := List.cons.inj hbody
    have hslice := Text.slice?_end quotes body
    have hend := blockEnd?_append [] body
    have hsize : byteSize quotes = 3 := rfl
    rw [hsize] at hslice
    rw [measure?, if_neg (by simp), if_neg (by decide), if_pos hblock]
    show (slice? (quotes ++ body) 3 (byteSize (quotes ++ body))).bind _ = some (_, byteSize
      (quotes ++ (spanBlock body).1))
    rw [hslice, Option.bind_some, byteSize_append, hsize]
    rw [List.nil_append, Text.byteSize_nil, Nat.zero_add] at hend
    rw [hend]
    rfl
  · have hne : ∀ cs', cs ≠ '"' :: '"' :: cs' := by
      rintro cs' rfl
      exact hblock (by simp [quotes])
    rw [measure?, if_neg (by simp), if_neg (by decide), if_neg hblock, if_pos rfl,
      spanToken_string hne]
    have hend := getD_stringEnd? '"'.utf8Size cs
    rw [← byteSize_cons] at hend
    rw [hend, byteSize_cons]

/-- A token is measured as it is taken from the text. -/
theorem measure?_eq (c : Char) (cs : List Char) :
    measure? c cs = some ((spanToken c cs).1.kind, byteSize (spanToken c cs).1.text) := by
  by_cases hdot : c = '.'
  · subst hdot
    exact measure?_dot cs
  by_cases hquote : c = '"'
  · subst hquote
    exact measure?_quote cs
  have hspread : ¬['.', '.', '.'].isPrefixOf (c :: cs) = true := by simp [Ne.symm hdot]
  have hblock : ¬quotes.isPrefixOf (c :: cs) = true := by simp [quotes, Ne.symm hquote]
  rw [spanToken_of_ne hdot hquote, measure?, if_neg hspread]
  by_cases hpunct : isPunctuator c = true
  · have hsize : c.utf8Size = 1 := Text.utf8Size_of_ascii (toNat_lt_of_isPunctuator hpunct)
    rw [if_pos (by simp [hpunct]), if_pos hpunct]
    simp [hsize]
  · rw [if_neg (by simp [hpunct, hdot]), if_neg hpunct, if_neg hblock, if_neg hquote]
    split
    · next hends => simp [offsetOf, hends]
    · next hends => simp [offsetOf, hends]

/-! ### Runs -/

theorem left_skipIgnored? {l l' : Lexer} (h : l.skipIgnored? = some l') : l'.left ≤ l.left := by
  fun_induction skipIgnored? l with
  | case1 => cases h
  | case2 => exact Option.some.inj h ▸ le_rfl
  | case3 l c cs hrest hc ih =>
    exact (ih h).trans (Nat.le_of_lt (advance_lt hrest c.utf8Size_pos))
  | case4 l cs hrest hc ih =>
    exact (ih h).trans (Nat.le_of_lt (advance_lt hrest (offsetOf_pos (by decide))))
  | case5 => exact Option.some.inj h ▸ le_rfl

theorem left_next? {l start l' : Lexer} {token : Token}
    (h : l.next? = some (start, some (token, l'))) : l'.left < l.left := by
  obtain ⟨l₁, hskip, h⟩ := Option.bind_eq_some_iff.1 h
  obtain ⟨rest, hrest, h⟩ := Option.bind_eq_some_iff.1 h
  cases rest with
  | nil => cases h
  | cons c cs =>
    simp only [measure?_eq, Option.bind_eq_bind, Option.bind_some, Option.bind_eq_some_iff,
      Option.pure_def] at h
    obtain ⟨text, -, h⟩ := h
    cases h
    have hpos := Text.byteSize_pos (spanToken_text_ne_nil c cs)
    exact Nat.lt_of_lt_of_le (advance_lt hrest hpos) (left_skipIgnored? hskip)

/-- All tokens to come with what is passed over before each, and what is passed over at the end. -/
def run? (l : Lexer) : Option (List Lexeme × List Char) :=
  match _h : l.next? with
  | none => none
  | some (start, none) => (slice? l.source l.pos start.pos).map ([], ·)
  | some (start, some (token, l')) => do
    let gap ← slice? l.source l.pos start.pos
    let (more, final) ← run? l'
    return (⟨gap, token⟩ :: more, final)
termination_by l.left
decreasing_by exact left_next? _h

theorem next?_of_gap_nil (h : (spanGap false cs).2 = []) :
    next? ⟨before ++ cs, byteSize before⟩ =
      some (⟨before ++ cs, byteSize (before ++ cs)⟩, none) := by
  have happend := spanGap_append false cs
  rw [h, List.append_nil] at happend
  have hrest := rest?_append (before ++ cs) []
  rw [List.append_nil] at hrest
  rw [next?, skipIgnored?_append, happend, Option.bind_eq_bind, Option.bind_some, hrest]
  rfl

theorem next?_of_gap_cons {rest : List Char} (h : (spanGap false cs).2 = c :: rest) :
    next? ⟨before ++ cs, byteSize before⟩ =
      some (⟨before ++ cs, byteSize (before ++ (spanGap false cs).1)⟩,
        some ((spanToken c rest).1, ⟨before ++ cs,
          byteSize (before ++ ((spanGap false cs).1 ++ (spanToken c rest).1.text))⟩)) := by
  have hcs : cs = (spanGap false cs).1 ++ c :: rest := by rw [← h, spanGap_append]
  have hrest := rest?_append (before ++ (spanGap false cs).1) (c :: rest)
  rw [List.append_assoc, ← hcs] at hrest
  have htext := Text.slice?_start (spanToken c rest).1.text (spanToken c rest).2
  rw [spanToken_append] at htext
  rw [next?, skipIgnored?_append, Option.bind_eq_bind, Option.bind_some, hrest]
  simp only [Option.bind_eq_bind, Option.bind_some, measure?_eq, htext, Option.pure_def, advance,
    ← byteSize_append, List.append_assoc]

theorem slice?_gap (before cs : List Char) : slice? (before ++ cs) (byteSize before)
    (byteSize (before ++ (spanGap false cs).1)) = some (spanGap false cs).1 := by
  have h := Text.slice?_append before (spanGap false cs).1 (spanGap false cs).2
  rwa [spanGap_append, ← byteSize_append] at h

/-- What is to come is lexed as `lexemes` says. -/
theorem run?_append (before cs : List Char) :
    run? ⟨before ++ cs, byteSize before⟩ = some (lexemes cs) := by
  fun_induction lexemes cs generalizing before with
  | case1 cs h =>
    have happend := spanGap_append false cs
    have hslice := slice?_gap before cs
    rw [h, List.append_nil] at happend
    rw [happend] at hslice
    rw [run?, next?_of_gap_nil h]
    simp only [hslice, happend]
    rfl
  | case2 cs c rest h more final hmore ih =>
    have hcs : cs =
        (spanGap false cs).1 ++ ((spanToken c rest).1.text ++ (spanToken c rest).2) := by
      rw [spanToken_append, ← h, spanGap_append]
    have hnext := ih (before ++ ((spanGap false cs).1 ++ (spanToken c rest).1.text))
    rw [hmore] at hnext
    rw [List.append_assoc, List.append_assoc, ← hcs] at hnext
    rw [run?, next?_of_gap_cons h]
    simp only [Option.bind_eq_bind, Option.bind_some, slice?_gap, hnext]
    rfl

theorem run?_eq (cs : List Char) : run? ⟨cs, 0⟩ = some (lexemes cs) := run?_append [] cs

end Lexer

end GqlArtifacts.Graphql
