import GqlArtifacts.Proofs.Graphql.Lexer
import GqlArtifacts.Proofs.Graphql.Spacing

/-!
# Tokens tile their text

The tokens of a text and the gaps between them, put together in order, are the text again, no token
is empty, and a gap holds ignored characters and whole comments (`IsFiller`, and `IsTrailing` at the
end). All this is so whether the text is lexed by characters or at byte offsets (`lexer_tiles`).

The value of a block string is found at byte offsets, too: `blockValue?` cuts the lines where their
common indentation ends. A line is cut inside its indentation, which is one byte to the character; a
blank line may be shorter than that, and then nothing is left of it.
-/

namespace GqlArtifacts.Graphql

open Text (byteSize slice? byteSize_append)

variable {line : List Char} {lines : List (List Char)} {c : Char}

/-! ### Gaps -/

/-- Ignored text at the end of a text, where the last comment need not end in a line terminator. -/
def IsTrailing (cs : List Char) : Prop := ∃ filler, IsFiller filler ∧
  (cs = filler ∨ ∃ body, cs = filler ++ '#' :: body ∧ ∀ d ∈ body, isTerminator d = false)

theorem IsFiller.isTrailing {filler : List Char} (h : IsFiller filler) : IsTrailing filler :=
  ⟨filler, h, .inl rfl⟩

theorem IsTrailing.append {filler cs : List Char} (h : IsTrailing cs) (hfiller : IsFiller filler) :
    IsTrailing (filler ++ cs) := by
  obtain ⟨more, hmore, rfl | ⟨body, rfl, hbody⟩⟩ := h
  · exact (hfiller.append hmore).isTrailing
  · exact ⟨filler ++ more, hfiller.append hmore, .inr ⟨body, (List.append_assoc ..).symm, hbody⟩⟩

/-- What is passed over before a token is ignored, and so is what is passed over at the end. -/
theorem isFiller_spanGap (cs : List Char) :
    ((spanGap false cs).2 ≠ [] → IsFiller (spanGap false cs).1) ∧
      IsTrailing (spanGap false cs).1 := by
  induction hn : cs.length using Nat.strongRecOn generalizing cs with
  | ind n ih =>
    subst hn
    cases cs with
    | nil => exact ⟨fun _ => .nil, IsFiller.nil.isTrailing⟩
    | cons c cs =>
      by_cases hignored : isIgnored c = true
      · obtain ⟨hfiller, htrailing⟩ := ih _ (by simp) cs rfl
        rw [Lexer.spanGap_cons hignored]
        exact ⟨fun h => .ignored hignored (hfiller h), htrailing.append (.ignored hignored .nil)⟩
      by_cases hcomment : c = '#'
      · subst hcomment
        have hbody : ∀ d ∈ cs.takeWhile (fun c => !isTerminator c), isTerminator d = false :=
          fun d hd => by simpa using List.mem_takeWhile_imp hd
        have hgap : spanGap false ('#' :: cs) = ('#' :: (spanGap true cs).1, (spanGap true cs).2) :=
          rfl
        rw [hgap, Lexer.spanGap_true]
        have hlength := (List.dropWhile_sublist (l := cs) fun c => !isTerminator c).length_le
        have hhead := List.head?_dropWhile_not (fun c => !isTerminator c) cs
        cases hrest : cs.dropWhile fun c => !isTerminator c with
        | nil =>
          rw [spanGap, List.append_nil]
          exact ⟨fun h => absurd rfl h, [], .nil, .inr ⟨_, rfl, hbody⟩⟩
        | cons d rest =>
          rw [hrest] at hlength hhead
          have hterm : isTerminator d = true := by simpa using hhead
          have hshorter : rest.length < ('#' :: cs).length := by
            simp only [List.length_cons] at hlength ⊢
            omega
          obtain ⟨hfiller, htrailing⟩ := ih _ hshorter rest rfl
          rw [Lexer.spanGap_cons (isIgnored_of_isTerminator hterm)]
          refine ⟨fun h => .comment hbody hterm (hfiller h), ?_⟩
          simpa using htrailing.append (.comment hbody hterm .nil)
      · have hgap : spanGap false (c :: cs) = ([], c :: cs) := by
          simp [spanGap, hignored, hcomment]
        rw [hgap]
        exact ⟨fun _ => .nil, IsFiller.nil.isTrailing⟩

/-- The gaps and the tokens in order. -/
def tiles (xs : List Lexeme) (final : List Char) : List Char :=
  (xs.flatMap fun x => x.gap ++ x.token.text) ++ final

theorem tiles_lexemes (cs : List Char) : tiles (lexemes cs).1 (lexemes cs).2 = cs := by
  fun_induction lexemes cs with
  | case1 cs h =>
    have happend := spanGap_append false cs
    rwa [h, List.append_nil] at happend
  | case2 cs c rest h more final hmore ih =>
    rw [hmore] at ih
    rw [tiles, List.flatMap_cons, List.append_assoc, List.append_assoc]
    show _ ++ (_ ++ tiles more final) = cs
    rw [ih, spanToken_append, ← h, spanGap_append]

theorem gaps_lexemes (cs : List Char) :
    (∀ x ∈ (lexemes cs).1, IsFiller x.gap ∧ x.token.text ≠ []) ∧ IsTrailing (lexemes cs).2 := by
  fun_induction lexemes cs with
  | case1 cs h => exact ⟨List.forall_mem_nil _, (isFiller_spanGap cs).2⟩
  | case2 cs c rest h more final hmore ih =>
    have hgap := (isFiller_spanGap cs).1
    rw [h] at hgap
    rw [hmore] at ih
    refine ⟨fun x hx => ?_, ih.2⟩
    rcases List.mem_cons.1 hx with rfl | hx
    · exact ⟨hgap (List.cons_ne_nil _ _), spanToken_text_ne_nil c rest⟩
    · exact ih.1 x hx

/-! ### Block strings at byte offsets -/

/-- The size of the indentation of a line that has more than that. -/
def indentSize? (line : List Char) : Option Nat :=
  let size := byteSize line - byteSize (line.dropWhile isIndent)
  if size < byteSize line then some size else none

/-- The lines of a block string as they are written. -/
def writtenLines (token : List Char) : List (List Char) :=
  splitLines (unifyTerminators (unescapeQuotes (blockBody token)))

/-- The least indentation of the lines after the first. -/
def sharedSize (lines : List (List Char)) : Nat := ((lines.tail.filterMap indentSize?).min?).getD 0

/-- A line from a byte offset on, or nothing where there is no such offset. -/
def dropBytes (size : Nat) (line : List Char) : List Char :=
  (slice? line size (byteSize line)).getD []

/-- The first line that is not blank, or the end. -/
def firstFilled (lines : List (List Char)) : Nat :=
  (lines.findIdx? fun line => !isBlankLine line).getD lines.length

/-- The last line that is not blank. -/
def lastFilled? (lines : List (List Char)) : Option Nat :=
  (lines.reverse.findIdx? fun line => !isBlankLine line).map fun i => lines.length - 1 - i

/-- The lines from `start` up to `stop`; there are none out of range. -/
def sliceLines? (lines : List (List Char)) (start stop : Nat) : Option (List (List Char)) :=
  if start ≤ stop ∧ stop ≤ lines.length then some ((lines.take stop).drop start) else none

def dedentBytes : List (List Char) → List (List Char)
  | [] => []
  | first :: rest => first :: rest.map (dropBytes (sharedSize (first :: rest)))

/-- The value of a block string, with all its cuts at offsets. -/
def blockValue? (token : List Char) : Option (List Char) := do
  let lines := dedentBytes (writtenLines token)
  let start := firstFilled lines
  let kept ← sliceLines? lines start ((lastFilled? lines).elim start (· + 1))
  return joinLines kept

theorem toNat_lt_of_isIndent (h : isIndent c = true) : c.toNat < 0x80 := by
  simp only [isIndent, Bool.or_eq_true, beq_iff_eq] at h
  rcases h with rfl | rfl <;> decide

theorem byteSize_takeWhile (line : List Char) :
    byteSize (line.takeWhile isIndent) = (line.takeWhile isIndent).length :=
  Text.byteSize_of_ascii fun _ h => toNat_lt_of_isIndent (List.mem_takeWhile_imp h)

theorem indentSize?_eq (line : List Char) : indentSize? line = indent? line := by
  have hsplit := List.takeWhile_append_dropWhile (p := isIndent) (l := line)
  have hsize : byteSize line =
      (line.takeWhile isIndent).length + byteSize (line.dropWhile isIndent) := by
    rw [← byteSize_takeWhile, ← byteSize_append, hsplit]
  rw [indentSize?, indent?, hsize, Nat.add_sub_cancel]
  by_cases hblank : isBlankLine line = true
  · have hnil : line.dropWhile isIndent = [] :=
      List.dropWhile_eq_nil_iff.2 (List.all_eq_true.1 hblank)
    rw [if_pos hblank, hnil]
    simp
  · have hne : line.dropWhile isIndent ≠ [] := fun hnil =>
      hblank (List.all_eq_true.2 (List.dropWhile_eq_nil_iff.1 hnil))
    have hpos := Text.byteSize_pos hne
    rw [if_neg hblank, if_pos (by omega)]

theorem sharedSize_eq (lines : List (List Char)) : sharedSize lines = commonIndent lines.tail := by
  rw [sharedSize, commonIndent, funext indentSize?_eq]

/-- A line may be cut inside its indentation. -/
theorem slice?_indent {size : Nat} (h : size ≤ (line.takeWhile isIndent).length) :
    slice? line size (byteSize line) = some (line.drop size) := by
  have htake : line.take size = (line.takeWhile isIndent).take size := by
    conv_lhs => rw [← List.takeWhile_append_dropWhile (p := isIndent) (l := line)]
    exact List.take_append_of_le_length h
  have hsize : byteSize (line.take size) = size := by
    rw [htake, Text.byteSize_of_ascii, List.length_take, Nat.min_eq_left h]
    exact fun c hc => toNat_lt_of_isIndent (List.mem_takeWhile_imp (List.mem_of_mem_take hc))
  have hslice := Text.slice?_end (line.take size) (line.drop size)
  rwa [List.take_append_drop, hsize] at hslice

theorem commonIndent_le (h : line ∈ lines) (hline : isBlankLine line = false) :
    commonIndent lines ≤ (line.takeWhile isIndent).length := by
  have hindent : indent? line = some (line.takeWhile isIndent).length := by simp [indent?, hline]
  have hmem : (line.takeWhile isIndent).length ∈ lines.filterMap indent? :=
    List.mem_filterMap.2 ⟨line, h, hindent⟩
  obtain ⟨least, hleast⟩ : ∃ least, (lines.filterMap indent?).min? = some least :=
    Option.isSome_iff_exists.1 (List.isSome_min?_of_mem hmem)
  rw [commonIndent, hleast]
  exact (List.min?_eq_some_iff.1 hleast).2 _ hmem

/-- Where the lines after the first are cut they are indented, or else they are blank and
shorter. -/
theorem slice?_sharedSize (h : line ∈ lines.tail) :
    slice? line (sharedSize lines) (byteSize line) = some (line.drop (sharedSize lines)) ∨
      isBlankLine line = true ∧ byteSize line < sharedSize lines := by
  rw [sharedSize_eq]
  by_cases hblank : isBlankLine line = true
  · have hall : ∀ c ∈ line, isIndent c = true := List.all_eq_true.1 hblank
    have hsize : byteSize line = line.length :=
      Text.byteSize_of_ascii fun c hc => toNat_lt_of_isIndent (hall c hc)
    by_cases hlt : byteSize line < commonIndent lines.tail
    · exact .inr ⟨hblank, hlt⟩
    · refine .inl (slice?_indent ?_)
      rw [List.takeWhile_eq_self_iff.2 hall]
      omega
  · exact .inl (slice?_indent (commonIndent_le h (by simpa using hblank)))

theorem dropBytes_sharedSize (h : line ∈ lines.tail) :
    dropBytes (sharedSize lines) line = line.drop (sharedSize lines) := by
  rw [dropBytes]
  rcases slice?_sharedSize h with hslice | ⟨-, hshort⟩
  · rw [hslice]
    rfl
  · have hlength := Text.length_le_byteSize line
    rw [List.drop_eq_nil_of_le (by omega)]
    cases hslice : slice? line (sharedSize lines) (byteSize line) with
    | none => rfl
    | some part =>
      obtain ⟨before, after, -, -, hsize⟩ := Text.slice?_eq_some_iff.1 hslice
      omega

theorem dedentBytes_eq (lines : List (List Char)) : dedentBytes lines = dedent lines := by
  cases lines with
  | nil => rfl
  | cons first rest =>
    have hshared : sharedSize (first :: rest) = commonIndent rest := sharedSize_eq _
    rw [dedentBytes, dedent, dropColumns, ← hshared]
    exact congrArg (first :: ·) (List.map_congr_left fun line hline => dropBytes_sharedSize hline)

theorem dropWhile_isBlankLine (lines : List (List Char)) :
    lines.dropWhile isBlankLine = lines.drop (firstFilled lines) := by
  rw [firstFilled, ← List.findIdx_eq_getD_findIdx?, List.dropWhile_eq_drop_findIdx_not]

theorem sliceLines?_of_filled (h : line ∈ lines) (hline : isBlankLine line = false) :
    sliceLines? lines (firstFilled lines) ((lastFilled? lines).elim (firstFilled lines) (· + 1)) =
      some (dropBlankEdges lines) := by
  have hfilled : (!isBlankLine line) = true := by rw [hline]; rfl
  have hmem : line ∈ lines.drop (firstFilled lines) := by
    rw [← dropWhile_isBlankLine]
    exact mem_dropWhile h hline
  have hlt := List.findIdx_lt_length_of_exists (p := fun line => !isBlankLine line)
    ⟨line, List.mem_reverse.2 hmem, hfilled⟩
  -- the last line that is not blank is not one of those in front of the first
  have hback : lines.reverse.findIdx (fun line => !isBlankLine line) =
      (lines.drop (firstFilled lines)).reverse.findIdx fun line => !isBlankLine line := by
    conv_lhs => rw [← List.take_append_drop (firstFilled lines) lines, List.reverse_append]
    rw [List.findIdx_append, if_pos hlt]
  rw [← hback, List.length_reverse, List.length_drop] at hlt
  have hlast : lastFilled? lines = some
      (lines.length - 1 - lines.reverse.findIdx fun line => !isBlankLine line) := by
    rw [lastFilled?, List.findIdx?_eq_guard_findIdx_lt, Option.guard_pos (by
      rw [List.length_reverse, decide_eq_true_iff]; omega)]
    rfl
  have hedges : dropBlankEdges lines = (lines.drop (firstFilled lines)).take
      ((lines.drop (firstFilled lines)).length -
        lines.reverse.findIdx fun line => !isBlankLine line) := by
    rw [dropBlankEdges, dropWhile_isBlankLine lines, List.dropWhile_eq_drop_findIdx_not, ← hback,
      List.reverse_drop, List.reverse_reverse, List.length_reverse]
  rw [hlast, Option.elim_some, sliceLines?, if_pos (by omega), hedges, List.drop_take,
    List.length_drop]
  congr 2
  omega

theorem sliceLines?_eq (lines : List (List Char)) :
    sliceLines? lines (firstFilled lines) ((lastFilled? lines).elim (firstFilled lines) (· + 1)) =
      some (dropBlankEdges lines) := by
  by_cases hblank : ∀ line ∈ lines, isBlankLine line = true
  · have hfirst : firstFilled lines = lines.length := by
      rw [firstFilled, List.findIdx?_eq_none_iff.2 fun line hline => by simp [hblank line hline]]
      rfl
    have hlast : lastFilled? lines = none := by
      rw [lastFilled?, List.findIdx?_eq_none_iff.2 fun line hline => by
        simp [hblank line (List.mem_reverse.1 hline)]]
      rfl
    rw [hfirst, hlast, Option.elim_none, sliceLines?, if_pos ⟨le_rfl, le_rfl⟩, dropBlankEdges,
      List.dropWhile_eq_nil_iff.2 hblank, List.take_length, List.drop_length]
    rfl
  · push Not at hblank
    obtain ⟨line, hmem, hline⟩ := hblank
    exact sliceLines?_of_filled hmem (by simpa using hline)

theorem blockValue?_eq (token : List Char) : blockValue? token = some (blockValue token) := by
  rw [blockValue?, dedentBytes_eq, sliceLines?_eq]
  rfl

/-! ### All together -/

/-- The lexer ends on every text without a slice out of place, and tokens and gaps tile the text. -/
theorem lexer_tiles (source : String) :
    Lexer.run? ⟨source.toList, 0⟩ = some (lexemes source.toList) ∧
    (∀ x ∈ (lexemes source.toList).1, IsFiller x.gap ∧ x.token.text ≠ []) ∧
    IsTrailing (lexemes source.toList).2 ∧
    tiles (lexemes source.toList).1 (lexemes source.toList).2 = source.toList ∧
    ∀ token, blockValue? token = some (blockValue token) ∧
      ∀ line ∈ (writtenLines token).tail,
        (slice? line (sharedSize (writtenLines token)) (byteSize line)).isSome = true ∨
          isBlankLine line = true ∧ byteSize line < sharedSize (writtenLines token) := by
  refine ⟨Lexer.run?_eq _, (gaps_lexemes _).1, (gaps_lexemes _).2, tiles_lexemes _, fun token =>
    ⟨blockValue?_eq token, fun line hline => ?_⟩⟩
  rcases slice?_sharedSize hline with hslice | hshort
  · exact .inl (hslice ▸ rfl)
  · exact .inr hshort

end GqlArtifacts.Graphql
