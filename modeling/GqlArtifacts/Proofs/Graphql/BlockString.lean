import GqlArtifacts.Graphql.BlockString
import GqlArtifacts.Graphql.Token
import Mathlib.Data.List.DropRight
import Mathlib.Data.List.TakeWhile

/-!
# Block strings read back

`printBlock` writes the value that a block string has as a token of just that value
(`blockValue_printBlock`), and the token ends at its closing quotes whatever follows it
(`spanBlock_paddedValue`). The first rests on the shape of values: the blank lines at both ends are
gone, and a value of more than one line has one without indentation (`IsBlockValue`).
-/

namespace GqlArtifacts.Graphql

variable {c d : Char} {cs value rest more line : List Char} {lines pre post : List (List Char)}

/-! ### Escaped quotes -/

theorem mem_getLast?_cons (h : d ∈ cs.getLast?) : d ∈ (c :: cs).getLast? := by
  cases cs with
  | nil => cases h
  | cons a cs => rwa [List.getLast?_cons_cons]

/-- No quote at the end of `cs` meets one at the front of `rest`. -/
def EndsApart (cs rest : List Char) : Prop := rest = [] ∨ ∃ d ∈ cs.getLast?, d ≠ '"'

theorem endsApart_of_last (hne : cs ≠ []) (hlast : ∀ d ∈ cs.getLast?, d ≠ '"') :
    EndsApart cs rest :=
  .inr ⟨_, List.getLast?_eq_some_getLast hne, hlast _ (List.getLast?_eq_some_getLast hne)⟩

theorem EndsApart.uncons (hapart : EndsApart cs rest) (h : escapeQuotes cs ++ rest = '"' :: more) :
    ∃ cs', cs = '"' :: cs' ∧ escapeQuotes cs' ++ rest = more ∧ EndsApart cs' rest := by
  fun_cases escapeQuotes cs with
  | case1 cs' => exact absurd (List.cons.inj h).1 (by decide)
  | case2 c cs' hne =>
    rw [escapeQuotes, List.cons_append] at h
    · obtain ⟨rfl, rfl⟩ := List.cons.inj h
      refine ⟨cs', rfl, rfl, hapart.imp_right ?_⟩
      rintro ⟨d, hd, hquote⟩
      cases cs' with
      | nil => exact absurd (Option.some.inj hd).symm hquote
      | cons a cs' => exact ⟨d, by rwa [List.getLast?_cons_cons] at hd, hquote⟩
    · exact hne
  | case3 =>
    rcases hapart with rfl | ⟨d, hd, -⟩
    · cases h
    · cases hd

theorem not_quotes_prefix (hapart : EndsApart cs rest) : ¬ quotes <+: escapeQuotes cs ++ rest := by
  rintro ⟨more, hmore⟩
  obtain ⟨cs₁, rfl, h₁, hapart₁⟩ := hapart.uncons hmore.symm
  obtain ⟨cs₂, rfl, h₂, hapart₂⟩ := hapart₁.uncons h₁
  obtain ⟨cs₃, rfl, -, -⟩ := hapart₂.uncons h₂
  exact absurd (List.cons.inj hmore).1 (by decide)

theorem unescapeQuotes_cons (h : c = '\\' → ¬ quotes <+: cs) :
    unescapeQuotes (c :: cs) = c :: unescapeQuotes cs := by
  rw [unescapeQuotes]
  rintro cs' rfl rfl
  exact h rfl ⟨cs', rfl⟩

theorem unescapeQuotes_escapeQuotes (cs : List Char) : unescapeQuotes (escapeQuotes cs) = cs := by
  fun_induction escapeQuotes cs with
  | case1 cs ih => rw [unescapeQuotes, ih]
  | case2 c cs _ ih =>
    have hprefix : ¬ quotes <+: escapeQuotes cs := by
      simpa using not_quotes_prefix (.inl rfl : EndsApart cs [])
    rw [unescapeQuotes_cons fun _ => hprefix, ih]
  | case3 => rfl

theorem getLast?_escapeQuotes (cs : List Char) : (escapeQuotes cs).getLast? = cs.getLast? := by
  fun_induction escapeQuotes cs with
  | case1 cs ih => simp [List.getLast?_cons, ih]
  | case2 c cs _ ih => simp [List.getLast?_cons, ih]
  | case3 => rfl

theorem escapeQuotes_concat (cs : List Char) (h : d ≠ '"') :
    escapeQuotes (cs ++ [d]) = escapeQuotes cs ++ [d] := by
  fun_induction escapeQuotes cs with
  | case1 cs ih => simp only [List.cons_append, escapeQuotes, ih]
  | case2 c cs hne ih =>
    rw [List.cons_append, escapeQuotes, ih, List.cons_append]
    rintro cs' rfl heq
    match cs with
    | [] => cases heq
    | [a] => exact h (List.cons.inj (List.cons.inj heq).2).1
    | a :: b :: cs => exact hne cs rfl (by simp_all)
  | case3 =>
    rw [List.nil_append, escapeQuotes]
    · rfl
    · rintro cs' rfl
      exact absurd rfl h

theorem spanBlock_cons (hescaped : c = '\\' → ¬ quotes <+: cs) (hquotes : ¬ quotes <+: c :: cs) :
    spanBlock (c :: cs) = (c :: (spanBlock cs).1, (spanBlock cs).2) := by
  rw [spanBlock]
  · rintro cs' rfl rfl
    exact hescaped rfl ⟨cs', rfl⟩
  · rintro cs' rfl rfl
    exact hquotes ⟨cs', rfl⟩

theorem spanBlock_escapeQuotes (hlast : ∀ d ∈ cs.getLast?, d ≠ '"' ∧ d ≠ '\\') (rest : List Char) :
    spanBlock (escapeQuotes cs ++ (quotes ++ rest)) = (escapeQuotes cs ++ quotes, rest) := by
  fun_induction escapeQuotes cs with
  | case1 cs ih =>
    have hspan := ih fun d hd =>
      hlast d (mem_getLast?_cons (mem_getLast?_cons (mem_getLast?_cons hd)))
    simp only [List.cons_append, spanBlock, hspan]
  | case2 c cs hne ih =>
    have hspan := ih fun d hd => hlast d (mem_getLast?_cons hd)
    have hescape : escapeQuotes (c :: cs) = c :: escapeQuotes cs := by
      rw [escapeQuotes]
      exact hne
    rw [List.cons_append, spanBlock_cons, hspan]
    · rfl
    · -- what follows a backslash is more of the value, which cannot run into the closing quotes
      rintro rfl
      have hne : cs ≠ [] := by
        rintro rfl
        exact (hlast '\\' rfl).2 rfl
      exact not_quotes_prefix
        (endsApart_of_last hne fun d hd => (hlast d (mem_getLast?_cons hd)).1)
    · rw [← List.cons_append, ← hescape]
      exact not_quotes_prefix
        (endsApart_of_last (List.cons_ne_nil c cs) fun d hd => (hlast d hd).1)
  | case3 => rfl

/-! ### Lines -/

theorem mem_of_mem_splitLines (h : line ∈ splitLines cs) (hc : c ∈ line) : c ∈ cs ∧ c ≠ '\n' := by
  induction cs generalizing line with
  | nil =>
    rw [splitLines, List.splitOn_nil, List.mem_singleton] at h
    rw [h] at hc
    cases hc
  | cons a cs ih =>
    rw [splitLines, List.splitOn_cons_eq_if_modifyHead] at h
    split at h
    · rcases List.mem_cons.1 h with rfl | h
      · cases hc
      · exact (ih h hc).imp_left (List.mem_cons_of_mem a)
    · next hne =>
      cases hsplit : List.splitOn '\n' cs with
      | nil => exact absurd hsplit (List.splitOn_ne_nil _ _)
      | cons first more =>
        rw [splitLines, hsplit] at ih
        rw [hsplit, List.modifyHead_cons, List.mem_cons] at h
        rcases h with rfl | h
        · rcases List.mem_cons.1 hc with rfl | hc
          · exact ⟨List.mem_cons_self .., by simpa using hne⟩
          · exact (ih (List.mem_cons_self ..) hc).imp_left (List.mem_cons_of_mem a)
        · exact (ih (List.mem_cons_of_mem first h) hc).imp_left (List.mem_cons_of_mem a)

theorem mem_joinLines (h : c ∈ joinLines lines) : c = '\n' ∨ ∃ line ∈ lines, c ∈ line := by
  induction lines with
  | nil => cases h
  | cons first more ih =>
    cases more with
    | nil =>
      rw [joinLines, List.intercalate_singleton] at h
      exact .inr ⟨first, List.mem_cons_self .., h⟩
    | cons second more =>
      rw [joinLines, List.intercalate_cons_cons, List.append_assoc, List.mem_append,
        List.mem_append, List.mem_singleton] at h
      rcases h with h | h | h
      · exact .inr ⟨first, List.mem_cons_self .., h⟩
      · exact .inl h
      · exact (ih h).imp_right fun ⟨line, hline, hc⟩ => ⟨line, List.mem_cons_of_mem _ hline, hc⟩

theorem return_not_mem_unifyTerminators (cs : List Char) : '\r' ∉ unifyTerminators cs := by
  fun_induction unifyTerminators cs with
  | case1 cs ih => simpa using ih
  | case2 cs _ ih => simpa using ih
  | case3 c cs _ hne ih =>
    rw [List.mem_cons, not_or]
    exact ⟨fun hc => hne hc.symm, ih⟩
  | case4 => exact List.not_mem_nil

theorem unifyTerminators_of_not_mem (h : '\r' ∉ cs) : unifyTerminators cs = cs := by
  fun_induction unifyTerminators cs with
  | case1 cs ih => exact absurd (List.mem_cons_self ..) h
  | case2 cs _ ih => exact absurd (List.mem_cons_self ..) h
  | case3 c cs _ _ ih => rw [ih fun hmem => h (List.mem_cons_of_mem c hmem)]
  | case4 => rfl

/-! ### Blank edges -/

theorem dropBlankEdges_eq (lines : List (List Char)) :
    dropBlankEdges lines = (lines.dropWhile isBlankLine).rdropWhile isBlankLine := rfl

theorem mem_of_mem_dropBlankEdges (h : line ∈ dropBlankEdges lines) : line ∈ lines :=
  (List.dropWhile_sublist _).subset ((List.rdropWhile_prefix _ _).subset h)

theorem mem_dropWhile {α : Type} {p : α → Bool} {a : α} {as : List α} (h : a ∈ as)
    (ha : p a = false) : a ∈ as.dropWhile p := by
  rw [← List.takeWhile_append_dropWhile (p := p) (l := as), List.mem_append] at h
  refine h.resolve_left fun htake => ?_
  rw [List.mem_takeWhile_imp htake] at ha
  cases ha

theorem mem_dropBlankEdges (h : line ∈ lines) (hline : isBlankLine line = false) :
    line ∈ dropBlankEdges lines :=
  List.mem_reverse.2 (mem_dropWhile (List.mem_reverse.2 (mem_dropWhile h hline)) hline)

theorem dropBlankEdges_append (hpre : ∀ line ∈ pre, isBlankLine line = true)
    (hpost : ∀ line ∈ post, isBlankLine line = true) :
    dropBlankEdges (pre ++ lines ++ post) = dropBlankEdges lines := by
  have hpost' : ∀ line ∈ post.reverse, isBlankLine line = true := fun line hline =>
    hpost line (List.mem_reverse.1 hline)
  rw [dropBlankEdges, dropBlankEdges, List.append_assoc, List.dropWhile_append_of_pos hpre,
    List.dropWhile_append]
  split
  · next hnil =>
    rw [List.isEmpty_iff.1 hnil, List.dropWhile_eq_nil_iff.2 hpost]
  · rw [List.reverse_append, List.dropWhile_append_of_pos hpost']

theorem dropBlankEdges_idem (lines : List (List Char)) :
    dropBlankEdges (dropBlankEdges lines) = dropBlankEdges lines := by
  have hfront : (dropBlankEdges lines).dropWhile isBlankLine = dropBlankEdges lines := by
    cases hedges : dropBlankEdges lines with
    | nil => rfl
    | cons first more =>
      have hprefix : first :: more <+: lines.dropWhile isBlankLine :=
        hedges ▸ List.rdropWhile_prefix _ _
      have hfirst : (lines.dropWhile isBlankLine).head? = some first := by
        obtain ⟨after, hafter⟩ := hprefix
        rw [← hafter]
        rfl
      have hline := List.head?_dropWhile_not isBlankLine lines
      rw [hfirst] at hline
      rw [List.dropWhile_cons, if_neg (by simpa using hline)]
  rw [dropBlankEdges_eq (dropBlankEdges lines), hfront, dropBlankEdges_eq,
    List.rdropWhile_idempotent]

theorem exists_not_blank_of_newline {first : List Char} (hfirst : '\n' ∉ first)
    (h : '\n' ∈ joinLines (dropBlankEdges (first :: lines))) :
    ∃ line ∈ lines, isBlankLine line = false := by
  by_contra hblank
  have hpost : ∀ line ∈ lines, isBlankLine line = true := fun line hline =>
    Bool.of_not_eq_false fun heq => hblank ⟨line, hline, heq⟩
  have hedges : dropBlankEdges ([] ++ [first] ++ lines) = dropBlankEdges [first] :=
    dropBlankEdges_append nofun hpost
  change '\n' ∈ joinLines (dropBlankEdges ([] ++ [first] ++ lines)) at h
  rw [hedges] at h
  by_cases hline : isBlankLine first = true
  · simp [dropBlankEdges, hline, joinLines] at h
  · exact hfirst (by simpa [dropBlankEdges, hline, joinLines] using h)

/-! ### Indentation -/

theorem indent?_eq_zero_iff :
    indent? line = some 0 ↔ ∃ c cs, line = c :: cs ∧ isIndent c = false := by
  cases line with
  | nil => simp [indent?, isBlankLine]
  | cons c cs => by_cases hc : isIndent c = true <;> simp [indent?, isBlankLine, hc]

theorem isBlankLine_of_indent? {n : Nat} (h : indent? line = some n) :
    isBlankLine line = false := by
  unfold indent? at h
  split at h
  · cases h
  · next hline => simpa using hline

theorem indent?_drop {n : Nat} (h : indent? line = some n) : indent? (line.drop n) = some 0 := by
  have hblank := isBlankLine_of_indent? h
  rw [indent?, hblank, if_neg Bool.false_ne_true, Option.some.injEq] at h
  have hdrop : line.drop n = line.dropWhile isIndent := by
    conv => lhs; rw [← List.takeWhile_append_dropWhile (p := isIndent) (l := line), ← h]
    rw [List.drop_left]
  rw [hdrop, indent?_eq_zero_iff]
  cases hrest : line.dropWhile isIndent with
  | nil =>
    rw [isBlankLine, List.all_eq_true.2 (List.dropWhile_eq_nil_iff.1 hrest)] at hblank
    cases hblank
  | cons c cs =>
    have hc := List.head?_dropWhile_not isIndent line
    rw [hrest] at hc
    exact ⟨c, cs, rfl, hc⟩

theorem commonIndent_eq_zero (h : (∀ line ∈ lines, isBlankLine line = true) ∨
    ∃ line ∈ lines, indent? line = some 0) : commonIndent lines = 0 := by
  rcases h with hblank | ⟨line, hmem, hline⟩
  · have hnone : lines.filterMap indent? = [] :=
      List.filterMap_eq_nil_iff.2 fun line hmem => by rw [indent?, if_pos (hblank line hmem)]
    rw [commonIndent, hnone]
    rfl
  · have hzero : 0 ∈ lines.filterMap indent? := List.mem_filterMap.2 ⟨line, hmem, hline⟩
    have hmin : (lines.filterMap indent?).min? = some 0 :=
      List.min?_eq_some_iff.2 ⟨hzero, fun n _ => Nat.zero_le n⟩
    rw [commonIndent, hmin]
    rfl

theorem isBlankLine_drop {n : Nat} (h : isBlankLine line = true) :
    isBlankLine (line.drop n) = true :=
  List.all_eq_true.2 fun c hc => List.all_eq_true.1 h c (List.mem_of_mem_drop hc)

/-- Once the common indentation is taken away, some line has none, unless all are blank. -/
theorem dropColumns_commonIndent (h : ∃ line ∈ dropColumns (commonIndent lines) lines,
    isBlankLine line = false) :
    ∃ line ∈ dropColumns (commonIndent lines) lines, indent? line = some 0 := by
  cases hmin : (lines.filterMap indent?).min? with
  | none =>
    obtain ⟨dropped, hmem, hblank⟩ := h
    obtain ⟨line, hline, rfl⟩ := List.mem_map.1 hmem
    have hnone := List.filterMap_eq_nil_iff.1 (List.min?_eq_none_iff.1 hmin) line hline
    unfold indent? at hnone
    split at hnone
    · next hall => rw [isBlankLine_drop hall] at hblank; cases hblank
    · cases hnone
  | some n =>
    obtain ⟨line, hmem, hline⟩ := List.mem_filterMap.1 (List.min?_eq_some_iff.1 hmin).1
    refine ⟨line.drop n, List.mem_map.2 ⟨line, hmem, ?_⟩, indent?_drop hline⟩
    rw [commonIndent, hmin]
    rfl

theorem dedent_eq_self (h : commonIndent lines.tail = 0) : dedent lines = lines := by
  cases lines with
  | nil => rfl
  | cons first more =>
    rw [List.tail_cons] at h
    simp [dedent, dropColumns, h]

/-! ### Values -/

/-- What every value of a block string is like. -/
structure IsBlockValue (value : List Char) : Prop where
  return_not_mem : '\r' ∉ value
  edges : joinLines (dropBlankEdges (splitLines value)) = value
  flush : '\n' ∈ value → ∃ line ∈ splitLines value, indent? line = some 0

theorem dedent_chars (h : line ∈ dedent (splitLines cs)) (hc : c ∈ line) : c ∈ cs ∧ c ≠ '\n' := by
  cases hsplit : splitLines cs with
  | nil => rw [hsplit] at h; cases h
  | cons first more =>
    rw [hsplit, dedent, List.mem_cons] at h
    rcases h with rfl | h
    · exact mem_of_mem_splitLines (hsplit ▸ List.mem_cons_self ..) hc
    · obtain ⟨whole, hwhole, rfl⟩ := List.mem_map.1 h
      exact mem_of_mem_splitLines (hsplit ▸ List.mem_cons_of_mem _ hwhole) (List.mem_of_mem_drop hc)

theorem splitLines_joinLines (h : ∀ line ∈ lines, '\n' ∉ line) (hne : lines ≠ []) :
    splitLines (joinLines lines) = lines :=
  List.splitOn_intercalate '\n' h hne

theorem isBlockValue_joinLines (hreturn : '\r' ∉ cs) :
    IsBlockValue (joinLines (dropBlankEdges (dedent (splitLines cs)))) := by
  have hlines : ∀ line ∈ dropBlankEdges (dedent (splitLines cs)), '\n' ∉ line :=
    fun line hline hc => (dedent_chars (mem_of_mem_dropBlankEdges hline) hc).2 rfl
  by_cases hne : dropBlankEdges (dedent (splitLines cs)) = []
  · rw [hne]
    exact ⟨List.not_mem_nil, rfl, nofun⟩
  refine ⟨fun hmem => ?_, ?_, fun hmem => ?_⟩
  · rcases mem_joinLines hmem with heq | ⟨line, hline, hc⟩
    · exact absurd heq (by decide)
    · exact hreturn (dedent_chars (mem_of_mem_dropBlankEdges hline) hc).1
  · rw [splitLines_joinLines hlines hne, dropBlankEdges_idem]
  · rw [splitLines_joinLines hlines hne]
    cases hsplit : splitLines cs with
    | nil => rw [hsplit] at hne; exact absurd rfl hne
    | cons first more =>
      rw [hsplit] at hmem
      have hfirst : '\n' ∉ first := fun hc =>
        (mem_of_mem_splitLines (hsplit ▸ List.mem_cons_self ..) hc).2 rfl
      obtain ⟨line, hline, hzero⟩ :=
        dropColumns_commonIndent (exists_not_blank_of_newline hfirst hmem)
      exact ⟨line, mem_dropBlankEdges (List.mem_cons_of_mem first hline)
        (isBlankLine_of_indent? hzero), hzero⟩

theorem isBlockValue_blockValue (token : List Char) : IsBlockValue (blockValue token) :=
  isBlockValue_joinLines (return_not_mem_unifyTerminators _)

/-! ### Printed values -/

/-- A value with the line breaks that it is printed with. -/
def paddedValue (value : List Char) : List Char :=
  (if needsLeadingBreak value then ['\n'] else []) ++ value ++
    (if needsTrailingBreak value then ['\n'] else [])

theorem printBlock_eq (value : List Char) :
    printBlock value = quotes ++ (escapeQuotes (paddedValue value) ++ quotes) := by
  have hlead : ∀ cs, escapeQuotes ('\n' :: cs) = '\n' :: escapeQuotes cs := fun _ => rfl
  rw [printBlock, paddedValue]
  split <;> split <;> simp [hlead, escapeQuotes_concat]

theorem last_paddedValue (value : List Char) :
    ∀ d ∈ (paddedValue value).getLast?, d ≠ '"' ∧ d ≠ '\\' := by
  intro d hd
  rw [paddedValue, List.getLast?_append, List.getLast?_append] at hd
  by_cases htrail : needsTrailingBreak value = true
  · rw [if_pos htrail] at hd
    obtain rfl := Option.some.inj hd
    exact ⟨by decide, by decide⟩
  · rw [if_neg htrail, List.getLast?_nil, Option.none_or] at hd
    simp only [needsTrailingBreak, Bool.or_eq_true, beq_iff_eq, not_or] at htrail
    cases hlast : value.getLast? with
    | none =>
      rw [hlast, Option.none_or] at hd
      split at hd
      · obtain rfl := Option.some.inj hd
        exact ⟨by decide, by decide⟩
      · cases hd
    | some e =>
      rw [hlast, Option.some_or] at hd
      obtain rfl := Option.some.inj hd
      exact ⟨fun heq => htrail.1 (heq ▸ hlast), fun heq => htrail.2 (heq ▸ hlast)⟩

theorem spanBlock_paddedValue (value rest : List Char) :
    spanBlock (escapeQuotes (paddedValue value) ++ (quotes ++ rest)) =
      (escapeQuotes (paddedValue value) ++ quotes, rest) :=
  spanBlock_escapeQuotes (last_paddedValue value) rest

theorem blockBody_quoted (h : cs.getLast? ≠ some '\\') :
    blockBody (quotes ++ (cs ++ quotes)) = cs := by
  have hopen : quotes.isPrefixOf (quotes ++ (cs ++ quotes)) = true :=
    List.isPrefixOf_iff_prefix.2 (List.prefix_append _ _)
  have hclose : quotes.isSuffixOf (cs ++ quotes) = true :=
    List.isSuffixOf_iff_suffix.2 (List.suffix_append _ _)
  have hdrop : (quotes ++ (cs ++ quotes)).drop 3 = cs ++ quotes := rfl
  have htake : (cs ++ quotes).take ((cs ++ quotes).length - 3) = cs := by
    rw [List.length_append]
    exact List.take_left
  simp only [blockBody, hopen, hdrop, hclose, htake, if_true, if_neg h]

theorem blockBody_printBlock (value : List Char) :
    blockBody (printBlock value) = escapeQuotes (paddedValue value) := by
  rw [printBlock_eq]
  refine blockBody_quoted fun heq => ?_
  rw [getLast?_escapeQuotes] at heq
  exact (last_paddedValue value '\\' heq).2 rfl

/-- The lines that a break at an end adds. -/
def breakLines (b : Bool) : List (List Char) := if b then [[]] else []

theorem breakLines_blank (b : Bool) : ∀ line ∈ breakLines b, isBlankLine line = true := by
  cases b
  · nofun
  · rintro line hline
    rw [List.mem_singleton.1 hline]
    rfl

theorem splitLines_paddedValue (value : List Char) : splitLines (paddedValue value) =
    breakLines (needsLeadingBreak value) ++ splitLines value ++
      breakLines (needsTrailingBreak value) := by
  have hlead : ∀ cs : List Char, splitLines ('\n' :: cs) = [] :: splitLines cs := fun cs =>
    List.splitOn_append_cons_self [] cs
  have htrail : ∀ cs : List Char, splitLines (cs ++ ['\n']) = splitLines cs ++ [[]] := fun cs =>
    List.splitOn_append_cons_self cs []
  rw [paddedValue, breakLines, breakLines]
  split <;> split <;> simp [hlead, htrail]

theorem commonIndent_paddedValue (h : IsBlockValue value) :
    commonIndent (splitLines (paddedValue value)).tail = 0 := by
  rw [splitLines_paddedValue]
  apply commonIndent_eq_zero
  cases hlead : needsLeadingBreak value with
  | true =>
    -- behind the break all lines count, the one without indentation among them
    rw [needsLeadingBreak, Bool.and_eq_true, List.contains_iff_mem] at hlead
    obtain ⟨line, hmem, hline⟩ := h.flush hlead.1
    exact .inr ⟨line, List.mem_append_left _ hmem, hline⟩
  | false =>
    -- no line counts but the blank one of a break at the end, or one without indentation does
    rw [needsLeadingBreak, Bool.and_eq_false_iff] at hlead
    rcases hlead with hbreak | hall
    · have hsingle : splitLines value = [value] := List.splitOn_eq_singleton fun hmem => by
        rw [List.contains_iff_mem.2 hmem] at hbreak
        cases hbreak
      rw [hsingle]
      exact .inl (breakLines_blank _)
    · rw [List.all_eq_false] at hall
      obtain ⟨line, hmem, hline⟩ := hall
      refine .inr ⟨line, ?_, indent?_eq_zero_iff.2 ?_⟩
      · cases hsplit : splitLines value with
        | nil => rw [hsplit] at hmem; cases hmem
        | cons first more =>
          rw [hsplit] at hmem
          exact List.mem_append_left _ hmem
      · cases line with
        | nil => exact absurd rfl hline
        | cons c cs => exact ⟨c, cs, rfl, by simpa using hline⟩

theorem blockValue_printBlock (h : IsBlockValue value) : blockValue (printBlock value) = value := by
  have hreturn : '\r' ∉ paddedValue value := by
    rw [paddedValue]
    split <;> split <;> simpa using h.return_not_mem
  rw [blockValue, blockBody_printBlock, unescapeQuotes_escapeQuotes,
    unifyTerminators_of_not_mem hreturn, dedent_eq_self (commonIndent_paddedValue h),
    splitLines_paddedValue, dropBlankEdges_append (breakLines_blank _) (breakLines_blank _),
    h.edges]

end GqlArtifacts.Graphql
