import GqlArtifacts.Proofs.Graphql.Spacing

/-!
# Block strings by value

A block string may be moved to the right as a whole, by the same blanks behind each of its line
terminators, and its terminators may all be written in one way: its value stays
(`rawValue_indentLines`, `rawValue_respell`), and so does the stripped text of the document it stands
in (`strip_reindented`). Both edits write terminators anew and leave all else (`mapTerminators`), so
they make no quotes and no escapes (`Respells`).
-/

namespace GqlArtifacts.Graphql

variable {c d : Char} {cs rest margin body inner : List Char} {write : List Char → List Char}
  {f : List Char → List Char} {lines : List (List Char)} {t : Token} {l : Lexeme} {i n : Nat}
  {source : String}

/-- The ways to end a line. -/
def terminators : List (List Char) := [['\r', '\n'], ['\r'], ['\n']]

/-- Writes every line terminator as `write` says. -/
def mapTerminators (write : List Char → List Char) : List Char → List Char
  | '\r' :: '\n' :: cs => write ['\r', '\n'] ++ mapTerminators write cs
  | c :: cs =>
    if isTerminator c then write [c] ++ mapTerminators write cs else c :: mapTerminators write cs
  | [] => []

/-- Puts a margin behind every line terminator. -/
def indentLines (margin : List Char) : List Char → List Char := mapTerminators (· ++ margin)

/-- Writes every line terminator in the same way. -/
def respell (terminator : List Char) : List Char → List Char := mapTerminators fun _ => terminator

/-- Terminators are written as something in which no quote and no backslash occurs. -/
structure Respells (write : List Char → List Char) : Prop where
  nonempty : ∀ t ∈ terminators, write t ≠ []
  plain : ∀ t ∈ terminators, ∀ c ∈ write t, c ≠ '"' ∧ c ≠ '\\'

theorem isTerminator_iff : isTerminator c = true ↔ c = '\n' ∨ c = '\r' := by
  simp [isTerminator]

theorem respells_indent (hmargin : ∀ c ∈ margin, isIndent c = true) : Respells (· ++ margin) := by
  have hplain : ∀ c ∈ margin, c ≠ '"' ∧ c ≠ '\\' := by
    rintro c hc
    constructor <;> rintro rfl <;> cases hmargin _ hc
  constructor
  · intro t ht
    simp only [terminators, List.mem_cons, List.not_mem_nil, or_false] at ht
    rcases ht with rfl | rfl | rfl <;> simp
  · intro t ht c hc
    rcases List.mem_append.1 hc with hc | hc
    · simp only [terminators, List.mem_cons, List.not_mem_nil, or_false] at ht
      rcases ht with rfl | rfl | rfl <;> simp at hc
      · rcases hc with rfl | rfl <;> decide
      · subst hc; decide
      · subst hc; decide
    · exact hplain c hc

theorem respells_const {terminator : List Char} (h : terminator ∈ terminators) :
    Respells fun _ => terminator := by
  simp only [terminators, List.mem_cons, List.not_mem_nil, or_false] at h
  rcases h with rfl | rfl | rfl <;> exact ⟨fun _ _ => by simp, fun _ _ => by simp⟩

/-! ### One step of an edit -/

theorem mapTerminators_char (h : isTerminator c = false) (cs : List Char) :
    mapTerminators write (c :: cs) = c :: mapTerminators write cs := by
  rw [mapTerminators]
  · simp [h]
  · rintro cs' rfl rfl
    cases h

theorem mapTerminators_feed (cs : List Char) :
    mapTerminators write ('\n' :: cs) = write ['\n'] ++ mapTerminators write cs := by
  rw [mapTerminators]
  · rfl
  · rintro cs' heq
    cases heq

theorem mapTerminators_return (h : cs.head? ≠ some '\n') :
    mapTerminators write ('\r' :: cs) = write ['\r'] ++ mapTerminators write cs := by
  rw [mapTerminators]
  · rfl
  · rintro cs' - rfl
    exact h rfl

/-- A terminator at the front is written anew, alone or with the line feed that belongs to it. -/
theorem exists_terminator (h : isTerminator c = true) (cs : List Char) :
    ∃ t ∈ terminators, ∃ cs', (cs = cs' ∨ cs = '\n' :: cs') ∧
      ∀ write, mapTerminators write (c :: cs) = write t ++ mapTerminators write cs' := by
  rcases isTerminator_iff.1 h with rfl | rfl
  · exact ⟨['\n'], by decide, cs, .inl rfl, fun write => mapTerminators_feed cs⟩
  · by_cases hhead : cs.head? = some '\n'
    · obtain ⟨cs', rfl⟩ := List.head?_eq_some_iff.1 hhead
      exact ⟨['\r', '\n'], by decide, cs', .inr rfl, fun write => rfl⟩
    · exact ⟨['\r'], by decide, cs, .inl rfl, fun write => mapTerminators_return hhead⟩

/-! ### Quotes and backslashes stay -/

theorem spanBlock_plain (h : ∀ c ∈ body, c ≠ '"' ∧ c ≠ '\\') (cs : List Char) :
    spanBlock (body ++ cs) = (body ++ (spanBlock cs).1, (spanBlock cs).2) := by
  induction body with
  | nil => rfl
  | cons c body ih =>
    obtain ⟨⟨hquote, hslash⟩, hbody⟩ := List.forall_mem_cons.1 h
    rw [List.cons_append, spanBlock_cons (fun hc => absurd hc hslash), ih hbody, List.cons_append]
    rintro ⟨cs', heq⟩
    exact hquote (List.cons.inj heq).1.symm

theorem unescapeQuotes_plain (h : ∀ c ∈ body, c ≠ '"' ∧ c ≠ '\\') (cs : List Char) :
    unescapeQuotes (body ++ cs) = body ++ unescapeQuotes cs := by
  induction body with
  | nil => rfl
  | cons c body ih =>
    obtain ⟨⟨-, hslash⟩, hbody⟩ := List.forall_mem_cons.1 h
    rw [List.cons_append, unescapeQuotes_cons (fun hc => absurd hc hslash), ih hbody,
      List.cons_append]

theorem head?_unescapeQuotes (h : (unescapeQuotes cs).head? = some '\n') :
    cs.head? = some '\n' := by
  unfold unescapeQuotes at h
  split at h
  · cases h
  · exact h
  · cases h

namespace Respells
variable (hw : Respells write)
include hw

theorem head?_ne (t : List Char) (ht : t ∈ terminators) (cs : List Char) :
    (write t ++ cs).head? ≠ some '"' := by
  obtain ⟨c, more, hmore⟩ := List.exists_cons_of_ne_nil (hw.nonempty t ht)
  have hc := hw.plain t ht c (by rw [hmore]; exact List.mem_cons_self ..)
  rw [hmore]
  simpa using hc.1

/-- A run of quotes has stood there before. -/
theorem quotes_run (hlen : n ≤ cs.length ∨ rest = [])
    (h : List.replicate n '"' <+: mapTerminators write cs ++ rest) :
    List.replicate n '"' <+: cs := by
  induction n generalizing cs with
  | zero => exact List.nil_prefix
  | succ n ih =>
    cases cs with
    | nil =>
      rcases hlen with hlen | rfl
      · cases hlen
      · exact h
    | cons c cs =>
      by_cases hterm : isTerminator c = true
      · obtain ⟨t, ht, cs', -, heq⟩ := exists_terminator hterm cs
        obtain ⟨more, hmore⟩ := h
        rw [heq, List.append_assoc] at hmore
        exact absurd (by rw [← hmore]; rfl) (hw.head?_ne t ht (mapTerminators write cs' ++ rest))
      · rw [mapTerminators_char (by simpa using hterm), List.cons_append, List.replicate_succ,
          List.cons_prefix_cons] at h
        rw [List.replicate_succ, List.cons_prefix_cons]
        exact ⟨h.1, ih (hlen.imp_left fun hlen => by simpa using hlen) h.2⟩

theorem passes (h : Passes c cs) (hc : isTerminator c = false) (hlen : 3 ≤ cs.length ∨ rest = []) :
    Passes c (mapTerminators write cs ++ rest) := by
  refine ⟨fun hslash hp => h.slash hslash (hw.quotes_run (n := 3) hlen hp), fun hp => h.quotes ?_⟩
  rw [← List.cons_append, ← mapTerminators_char hc] at hp
  exact hw.quotes_run (n := 3) (hlen.imp_left fun hlen => Nat.le_succ_of_le hlen) hp

/-- What a block string takes up to its closing quotes, it takes when terminators are written anew. -/
theorem spanBlock_eq (h : blockCloses (spanBlock cs).1 = true) :
    spanBlock (mapTerminators write (spanBlock cs).1 ++ rest) =
      (mapTerminators write (spanBlock cs).1, rest) := by
  fun_induction spanBlock cs with
  | case1 => cases h
  | case2 cs body rest' hspan ih =>
    rw [hspan] at ih
    have hescape : mapTerminators write ('\\' :: '"' :: '"' :: '"' :: body) =
        '\\' :: '"' :: '"' :: '"' :: mapTerminators write body := rfl
    rw [hescape]
    simp only [List.cons_append, spanBlock, ih h]
  | case3 cs => rfl
  | case4 c cs hslash hquotes body rest' hspan ih =>
    have hpasses := (Passes.of_forall hslash hquotes).shorten (spanBlock_isPrefix cs)
    rw [hspan] at ih hpasses
    rw [hpasses.blockCloses_eq] at h
    have hbody := ih h
    by_cases hterm : isTerminator c = true
    · obtain ⟨t, ht, body', hshape, heq⟩ := exists_terminator hterm body
      have hmore : spanBlock (mapTerminators write body' ++ rest) =
          (mapTerminators write body', rest) := by
        rcases hshape with rfl | rfl
        · exact hbody
        · rw [mapTerminators_feed, List.append_assoc, spanBlock_plain (hw.plain _ (by decide)),
            Prod.mk.injEq, List.append_cancel_left_eq] at hbody
          exact Prod.ext hbody.1 hbody.2
      rw [heq, List.append_assoc, spanBlock_plain (hw.plain t ht), hmore]
    · have hchar : isTerminator c = false := by simpa using hterm
      have hpasses' : Passes c (mapTerminators write body ++ rest) :=
        hw.passes hpasses hchar (.inl (three_le_length_of_blockCloses h))
      rw [mapTerminators_char hchar, List.cons_append, hpasses'.spanBlock_eq, hbody]

theorem unescapeQuotes_eq (cs : List Char) :
    unescapeQuotes (mapTerminators write cs) = mapTerminators write (unescapeQuotes cs) := by
  fun_induction unescapeQuotes cs with
  | case1 cs ih =>
    have hescape (cs : List Char) : mapTerminators write ('"' :: '"' :: '"' :: cs) =
        '"' :: '"' :: '"' :: mapTerminators write cs := rfl
    rw [hescape, ← ih]
    rfl
  | case2 c cs hslash ih =>
    have hescaped : c = '\\' → ¬quotes <+: cs := by
      rintro rfl ⟨cs', rfl⟩
      exact hslash cs' rfl rfl
    have hplain : ∀ t ∈ terminators, ∀ cs, unescapeQuotes (write t ++ cs) =
        write t ++ unescapeQuotes cs := fun t ht => unescapeQuotes_plain (hw.plain t ht)
    by_cases hterm : isTerminator c = true
    · rcases isTerminator_iff.1 hterm with rfl | rfl
      · rw [mapTerminators_feed, mapTerminators_feed, hplain _ (by decide), ih]
      by_cases hhead : cs.head? = some '\n'
      · obtain ⟨cs', rfl⟩ := List.head?_eq_some_iff.1 hhead
        have hfeed : unescapeQuotes ('\n' :: cs') = '\n' :: unescapeQuotes cs' :=
          unescapeQuotes_cons fun heq => absurd heq (by decide)
        have hpair (cs : List Char) : mapTerminators write ('\r' :: '\n' :: cs) =
            write ['\r', '\n'] ++ mapTerminators write cs := rfl
        rw [hfeed, mapTerminators_feed, mapTerminators_feed, hplain _ (by decide),
          List.append_cancel_left_eq] at ih
        rw [hfeed, hpair, hpair, hplain _ (by decide), ih]
      · rw [mapTerminators_return hhead, mapTerminators_return (mt head?_unescapeQuotes hhead),
          hplain _ (by decide), ih]
    · have hchar : isTerminator c = false := by simpa using hterm
      rw [mapTerminators_char hchar, mapTerminators_char hchar, unescapeQuotes_cons, ih]
      intro hc hp
      rw [← List.append_nil (mapTerminators write cs)] at hp
      exact hescaped hc (hw.quotes_run (n := 3) (.inr rfl) hp)
  | case3 => rfl

end Respells

/-! ### The text between the quotes -/

/-- A closed block string ends with its quotes, and no backslash comes before them. -/
theorem exists_inner (h : blockCloses (spanBlock cs).1 = true) :
    ∃ inner, (spanBlock cs).1 = inner ++ quotes ∧ inner.getLast? ≠ some '\\' := by
  fun_induction spanBlock cs with
  | case1 => cases h
  | case2 cs body rest hspan ih =>
    rw [hspan] at ih
    obtain ⟨inner, heq, hlast⟩ := ih h
    refine ⟨'\\' :: '"' :: '"' :: '"' :: inner, by rw [show body = _ from heq]; rfl, ?_⟩
    cases hinner : inner.getLast? with
    | none => simp [List.getLast?_cons, hinner]
    | some d => rw [hinner] at hlast; simpa [List.getLast?_cons, hinner] using hlast
  | case3 cs => exact ⟨[], rfl, by simp⟩
  | case4 c cs hslash hquotes body rest hspan ih =>
    have hpasses := (Passes.of_forall hslash hquotes).shorten (spanBlock_isPrefix cs)
    rw [hspan] at ih hpasses
    rw [hpasses.blockCloses_eq] at h
    obtain ⟨inner, heq, hlast⟩ := ih h
    refine ⟨c :: inner, by rw [show body = _ from heq]; rfl, ?_⟩
    cases inner with
    | nil =>
      rintro hc
      obtain rfl := Option.some.inj hc
      exact hpasses.slash rfl (by rw [show body = _ from heq]; exact List.prefix_append _ _)
    | cons d inner => rwa [List.getLast?_cons_cons]

theorem mapTerminators_append_quotes (inner : List Char) :
    mapTerminators write (inner ++ quotes) = mapTerminators write inner ++ quotes := by
  fun_induction mapTerminators write inner with
  | case1 cs ih =>
    rw [List.append_assoc, ← ih]
    rfl
  | case2 c cs hpair hterm ih =>
    rw [List.cons_append, mapTerminators, if_pos hterm, ih, List.append_assoc]
    rintro cs' rfl heq
    cases cs with
    | nil => cases heq
    | cons d cs => exact hpair cs rfl (by rw [(List.cons.inj heq).1])
  | case3 c cs hpair hterm ih =>
    rw [List.cons_append, mapTerminators_char (by simpa using hterm), ih, List.cons_append]
  | case4 => rfl

/-! ### Lines -/

theorem unifyTerminators_return (h : cs.head? ≠ some '\n') :
    unifyTerminators ('\r' :: cs) = '\n' :: unifyTerminators cs := by
  rw [unifyTerminators]
  rintro cs' rfl
  exact h rfl

theorem unifyTerminators_char (h : c ≠ '\r') (cs : List Char) :
    unifyTerminators (c :: cs) = c :: unifyTerminators cs := by
  rw [unifyTerminators]
  · rintro cs' rfl
    exact absurd rfl h
  · rintro rfl
    exact h rfl

theorem unifyTerminators_append (h : '\r' ∉ body) (cs : List Char) :
    unifyTerminators (body ++ cs) = body ++ unifyTerminators cs := by
  induction body with
  | nil => rfl
  | cons c body ih =>
    rw [List.mem_cons, not_or] at h
    rw [List.cons_append, unifyTerminators_char (Ne.symm h.1), ih h.2, List.cons_append]

/-- Terminators that are all written in the same way come to the same lines. -/
theorem unifyTerminators_respell {terminator : List Char} (h : terminator ∈ terminators)
    (cs : List Char) : unifyTerminators (respell terminator cs) = unifyTerminators cs := by
  have hstep : ∀ cs, unifyTerminators (terminator ++ respell terminator cs) =
      '\n' :: unifyTerminators (respell terminator cs) := by
    intro cs
    simp only [terminators, List.mem_cons, List.not_mem_nil, or_false] at h
    rcases h with rfl | rfl | rfl
    · rfl
    · -- no line feed is left that could belong to the carriage return
      refine unifyTerminators_return fun hhead => ?_
      unfold respell mapTerminators at hhead
      split at hhead
      · exact absurd (Option.some.inj hhead) (by decide)
      · next c cs _ =>
        split at hhead
        · exact absurd (Option.some.inj hhead) (by decide)
        · next hterm =>
          obtain rfl := Option.some.inj hhead
          exact hterm rfl
      · cases hhead
    · rfl
  unfold respell at hstep ⊢
  fun_induction mapTerminators (fun _ => terminator) cs with
  | case1 cs ih =>
    rw [hstep, ih]
    rfl
  | case2 c cs hpair hterm ih =>
    rw [hstep, ih]
    rcases isTerminator_iff.1 hterm with rfl | rfl
    · rfl
    · refine (unifyTerminators_return fun hhead => ?_).symm
      obtain ⟨cs', rfl⟩ := List.head?_eq_some_iff.1 hhead
      exact hpair cs' rfl rfl
  | case3 c cs hpair hterm ih =>
    have hne : c ≠ '\r' := by
      rintro rfl
      exact hterm rfl
    rw [unifyTerminators_char hne, unifyTerminators_char hne, ih]
  | case4 => rfl

theorem splitLines_feed (cs : List Char) : splitLines ('\n' :: cs) = [] :: splitLines cs :=
  List.splitOn_append_cons_self [] cs

theorem splitLines_char (h : c ≠ '\n') (cs : List Char) :
    splitLines (c :: cs) = (splitLines cs).modifyHead (c :: ·) := by
  rw [splitLines, List.splitOn_cons_eq_if_modifyHead, if_neg (by simpa using h)]
  rfl

theorem splitLines_append (h : '\n' ∉ body) (cs : List Char) :
    splitLines (body ++ cs) = (splitLines cs).modifyHead (body ++ ·) := by
  induction body with
  | nil => cases hs : splitLines cs <;> simp [hs]
  | cons c body ih =>
    rw [List.mem_cons, not_or] at h
    rw [List.cons_append, splitLines_char (Ne.symm h.1), ih h.2, List.modifyHead_modifyHead]
    rfl

/-- A margin before all lines but the first. -/
def indentTail (margin : List Char) : List (List Char) → List (List Char)
  | [] => []
  | first :: rest => first :: rest.map (margin ++ ·)

theorem modifyHead_indentTail (lines : List (List Char)) :
    (indentTail margin lines).modifyHead (margin ++ ·) = lines.map (margin ++ ·) := by
  cases lines <;> rfl

theorem head?_indentLines (h : (indentLines margin cs).head? = some '\n') : cs.head? = some '\n' := by
  unfold indentLines mapTerminators at h
  split at h
  · exact absurd (Option.some.inj h) (by decide)
  · split at h <;> exact h
  · cases h

section Margin
variable (hmargin : ∀ c ∈ margin, isIndent c = true)
include hmargin

theorem feed_not_mem_margin : '\n' ∉ margin := fun h => absurd (hmargin _ h) (by decide)

theorem return_not_mem_margin : '\r' ∉ margin := fun h => absurd (hmargin _ h) (by decide)

theorem splitLines_indentLines (cs : List Char) :
    splitLines (unifyTerminators (indentLines margin cs)) =
      indentTail margin (splitLines (unifyTerminators cs)) := by
  have hline : ∀ cs, splitLines (unifyTerminators (indentLines margin cs)) =
      indentTail margin (splitLines (unifyTerminators cs)) →
      splitLines ('\n' :: unifyTerminators (margin ++ indentLines margin cs)) =
        indentTail margin (splitLines ('\n' :: unifyTerminators cs)) := by
    intro cs ih
    rw [unifyTerminators_append (return_not_mem_margin hmargin), splitLines_feed,
      splitLines_append (feed_not_mem_margin hmargin), ih, modifyHead_indentTail, splitLines_feed]
    rfl
  unfold indentLines at hline ⊢
  fun_induction mapTerminators (· ++ margin) cs with
  | case1 cs ih => exact hline cs ih
  | case2 c cs hpair hterm ih =>
    rcases isTerminator_iff.1 hterm with rfl | rfl
    · exact hline cs ih
    · have hcs : cs.head? ≠ some '\n' := by
        intro hhead
        obtain ⟨cs', rfl⟩ := List.head?_eq_some_iff.1 hhead
        exact hpair cs' rfl rfl
      have hmore : (margin ++ mapTerminators (· ++ margin) cs).head? ≠ some '\n' := by
        intro hhead
        cases hm : margin with
        | nil =>
          rw [hm, List.nil_append] at hhead
          exact hcs (head?_indentLines hhead)
        | cons d ds =>
          rw [hm] at hhead
          obtain rfl := Option.some.inj hhead
          exact feed_not_mem_margin hmargin (by rw [hm]; exact List.mem_cons_self ..)
      show splitLines (unifyTerminators ('\r' :: (margin ++ mapTerminators (· ++ margin) cs))) = _
      rw [unifyTerminators_return hmore, unifyTerminators_return hcs]
      exact hline cs ih
  | case3 c cs hpair hterm ih =>
    rw [isTerminator_iff, not_or] at hterm
    rw [unifyTerminators_char hterm.2, unifyTerminators_char hterm.2, splitLines_char hterm.1,
      splitLines_char hterm.1, ih]
    cases splitLines (unifyTerminators cs) <;> rfl
  | case4 => rfl

theorem isBlankLine_margin (line : List Char) : isBlankLine (margin ++ line) = isBlankLine line := by
  rw [isBlankLine, isBlankLine, List.all_append, List.all_eq_true.2 hmargin, Bool.true_and]

theorem indent?_margin (line : List Char) :
    indent? (margin ++ line) = (indent? line).map (margin.length + ·) := by
  rw [indent?, indent?, isBlankLine_margin hmargin]
  split
  · rfl
  · rw [List.takeWhile_append_of_pos hmargin, List.length_append]
    rfl

/-- Lines that are moved to the right have as much more in common, unless they are all blank. -/
theorem commonIndent_margin (h : ∃ line ∈ lines, isBlankLine line = false) :
    commonIndent (lines.map (margin ++ ·)) = margin.length + commonIndent lines := by
  obtain ⟨line, hline, hblank⟩ := h
  have hindents : (lines.map (margin ++ ·)).filterMap indent? =
      (lines.filterMap indent?).map (margin.length + ·) := by
    rw [List.filterMap_map, List.map_filterMap]
    exact List.filterMap_congr fun line _ => indent?_margin hmargin line
  cases hmin : (lines.filterMap indent?).min? with
  | none =>
    have hnone := List.filterMap_eq_nil_iff.1 (List.min?_eq_none_iff.1 hmin) line hline
    rw [indent?, hblank] at hnone
    cases hnone
  | some n =>
    obtain ⟨hmem, hle⟩ := List.min?_eq_some_iff.1 hmin
    have hmin' : ((lines.filterMap indent?).map (margin.length + ·)).min? =
        some (margin.length + n) := by
      refine List.min?_eq_some_iff.2 ⟨List.mem_map_of_mem hmem, fun k hk => ?_⟩
      obtain ⟨j, hj, rfl⟩ := List.mem_map.1 hk
      exact Nat.add_le_add_left (hle j hj) _
    rw [commonIndent, commonIndent, hindents, hmin, hmin']
    rfl

theorem dropBlankEdges_indentTail (lines : List (List Char)) :
    dropBlankEdges (dedent (indentTail margin lines)) = dropBlankEdges (dedent lines) := by
  cases lines with
  | nil => rfl
  | cons first rest =>
    rw [indentTail, dedent, dedent]
    by_cases hsome : ∃ line ∈ rest, isBlankLine line = false
    · have hcolumns : dropColumns (margin.length + commonIndent rest) (rest.map (margin ++ ·)) =
          dropColumns (commonIndent rest) rest := by
        simp [dropColumns, Function.comp_def]
      rw [commonIndent_margin hmargin hsome, hcolumns]
    · -- blank lines at the end are left out however long they are
      have hblank : ∀ line ∈ rest, isBlankLine line = true := fun line hline =>
        Bool.of_not_eq_false fun heq => hsome ⟨line, hline, heq⟩
      have hdropped : ∀ (width : Nat) (post : List (List Char)),
          (∀ line ∈ post, isBlankLine line = true) →
          dropBlankEdges (first :: dropColumns width post) = dropBlankEdges [first] := by
        intro width post hpost
        have hdropped : ∀ line ∈ dropColumns width post, isBlankLine line = true := by
          intro line hline
          obtain ⟨whole, hwhole, rfl⟩ := List.mem_map.1 hline
          exact isBlankLine_drop (hpost whole hwhole)
        have happend : dropBlankEdges ([] ++ [first] ++ dropColumns width post) =
            dropBlankEdges [first] := dropBlankEdges_append (by simp) hdropped
        exact happend
      rw [hdropped _ _ hblank, hdropped]
      intro line hline
      obtain ⟨whole, hwhole, rfl⟩ := List.mem_map.1 hline
      rw [isBlankLine_margin hmargin]
      exact hblank whole hwhole

end Margin

/-! ### Values -/

/-- The value of a block string with the text `raw` between its quotes, escapes apart. -/
def rawValue (raw : List Char) : List Char :=
  joinLines (dropBlankEdges (dedent (splitLines (unifyTerminators raw))))

theorem rawValue_indentLines (hmargin : ∀ c ∈ margin, isIndent c = true) (raw : List Char) :
    rawValue (indentLines margin raw) = rawValue raw := by
  rw [rawValue, splitLines_indentLines hmargin, dropBlankEdges_indentTail hmargin]
  rfl

theorem rawValue_respell {terminator : List Char} (h : terminator ∈ terminators) (raw : List Char) :
    rawValue (respell terminator raw) = rawValue raw := by
  rw [rawValue, unifyTerminators_respell h]
  rfl

theorem Respells.blockCloses (hw : Respells write) (h : blockCloses (spanBlock cs).1 = true) :
    Graphql.blockCloses (mapTerminators write (spanBlock cs).1) = true := by
  have hspan : spanBlock (mapTerminators write (spanBlock cs).1 ++ ['x']) =
      (mapTerminators write (spanBlock cs).1, ['x']) := hw.spanBlock_eq h
  rcases blockCloses_or_rest_eq_nil (mapTerminators write (spanBlock cs).1 ++ ['x']) with
    hcloses | hnil
  · rwa [hspan] at hcloses
  · rw [hspan] at hnil
    cases hnil

theorem mapTerminators_quotes (cs : List Char) :
    mapTerminators write (quotes ++ cs) = quotes ++ mapTerminators write cs := rfl

/-- A block string with its terminators written anew has the value of its text with these written
anew. -/
theorem exists_rawValue (h : blockCloses (spanBlock cs).1 = true) :
    ∃ raw, blockValue (quotes ++ (spanBlock cs).1) = rawValue raw ∧ ∀ write, Respells write →
      blockValue (mapTerminators write (quotes ++ (spanBlock cs).1)) =
        rawValue (mapTerminators write raw) := by
  obtain ⟨inner, heq, hlast⟩ := exists_inner h
  refine ⟨unescapeQuotes inner, by rw [heq, blockValue, blockBody_quoted hlast]; rfl,
    fun write hw => ?_⟩
  have hspan : spanBlock (mapTerminators write (spanBlock cs).1 ++ []) =
      (mapTerminators write (spanBlock cs).1, []) := hw.spanBlock_eq h
  rw [List.append_nil] at hspan
  have hcloses : blockCloses (spanBlock (mapTerminators write (spanBlock cs).1)).1 = true := by
    rw [hspan]
    exact hw.blockCloses h
  obtain ⟨inner', heq', hlast'⟩ := exists_inner hcloses
  rw [hspan, heq, mapTerminators_append_quotes] at heq'
  rw [← List.append_cancel_right heq'] at hlast'
  rw [mapTerminators_quotes, heq, mapTerminators_append_quotes, blockValue,
    blockBody_quoted hlast', hw.unescapeQuotes_eq]
  rfl

/-! ### One token of a text -/

namespace Lexeme

def text (l : Lexeme) : List Char := l.gap ++ l.token.text

/-- The lexeme with the text of its token edited. -/
def edit (f : List Char → List Char) (l : Lexeme) : Lexeme :=
  { l with token := { l.token with text := f l.token.text } }

end Lexeme

/-- The text with the token number `i` edited. -/
def editToken (i : Nat) (f : List Char → List Char) (cs : List Char) : List Char :=
  ((lexemes cs).1.modify i (Lexeme.edit f)).flatMap Lexeme.text ++ (lexemes cs).2

theorem flatMap_lexemes (cs : List Char) :
    (lexemes cs).1.flatMap Lexeme.text ++ (lexemes cs).2 = cs := by
  induction hn : cs.length using Nat.strongRecOn generalizing cs with
  | ind len ih =>
    subst hn
    have hcs := spanGap_append false cs
    cases hgap : (spanGap false cs).2 with
    | nil =>
      rw [hgap, List.append_nil] at hcs
      rw [lexemes_of_gap_nil hgap]
      exact hcs
    | cons c rest =>
      have hlen := length_spanToken c rest
      rw [hgap] at hcs
      have hrest := ih (spanToken c rest).2.length (by
        rw [← hcs, List.length_append, List.length_cons]
        omega) _ rfl
      rw [lexemes_of_gap_cons hgap, List.flatMap_cons, List.append_assoc, hrest, Lexeme.text,
        List.append_assoc, spanToken_append, hcs]

section Edit
variable (hgap : (spanGap false cs).2 = c :: rest)
include hgap

theorem editToken_zero : editToken 0 f cs =
    (spanGap false cs).1 ++ (f (spanToken c rest).1.text ++ (spanToken c rest).2) := by
  have hrest := flatMap_lexemes (spanToken c rest).2
  rw [editToken, lexemes_of_gap_cons hgap, List.modify_zero_cons, List.flatMap_cons, Lexeme.text,
    Lexeme.edit]
  simp only [List.append_assoc, hrest]

theorem editToken_succ : editToken (i + 1) f cs = (spanGap false cs).1 ++
    ((spanToken c rest).1.text ++ editToken i f (spanToken c rest).2) := by
  rw [editToken, lexemes_of_gap_cons hgap, List.modify_succ_cons, List.flatMap_cons, Lexeme.text]
  simp only [List.append_assoc]
  rfl

end Edit

theorem Token.Unmoved.of_take (h : cs.take 2 = rest.take 2) : t.Unmoved rest cs := by
  constructor
  · left
    cases cs <;> cases rest <;> simp_all
  · rintro ⟨more, rfl⟩
    exact ⟨rest.drop 2, by rw [show ['.', '.'] = rest.take 2 from h, List.take_append_drop]⟩

theorem take_append_congr {pre cs rest : List Char} (h : cs.take 2 = rest.take 2) :
    (pre ++ cs).take 2 = (pre ++ rest).take 2 := by
  have hless : ∀ n ≤ 2, cs.take n = rest.take n := by
    intro n hn
    have htake := congrArg (List.take n) h
    rwa [List.take_take, List.take_take, Nat.min_eq_left hn] at htake
  rw [List.take_append, List.take_append, hless _ (Nat.sub_le 2 _)]

theorem exists_block_of_spanToken (h : (spanToken c rest).1.kind = .blockString) :
    ∃ cs, c = '"' ∧ rest = '"' :: '"' :: cs ∧ (spanToken c rest).1.text = quotes ++ (spanBlock cs).1 := by
  unfold spanToken at h ⊢
  split at h
  · cases h
  · next cs => exact ⟨cs, rfl, rfl, rfl⟩
  · cases h
  · split at h
    · cases h
    · split at h <;> cases h

/-- A block string that becomes another one leaves the tokens around it, those before it because they
see the same quotes. -/
theorem tokens_editToken (hi : (tokens cs)[i]? = some t) (hkind : t.kind = .blockString)
    (hf : ∃ body, f t.text = quotes ++ body ∧ ∀ rest, spanBlock (body ++ rest) = (body, rest)) :
    tokens (editToken i f cs) = (tokens cs).modify i (fun t => { t with text := f t.text }) ∧
      (editToken i f cs).take 2 = cs.take 2 := by
  induction i generalizing cs with
  | zero =>
    cases hgap : (spanGap false cs).2 with
    | nil => rw [tokens_of_gap_nil hgap] at hi; cases hi
    | cons c rest =>
      have hcs := spanGap_append false cs
      have htext := spanToken_append c rest
      rw [hgap] at hcs
      rw [tokens_of_gap_cons hgap] at hi ⊢
      obtain rfl := Option.some.inj hi
      obtain ⟨body, hbody, hspan⟩ := hf
      obtain ⟨cs', rfl, rfl, hquotes⟩ := exists_block_of_spanToken hkind
      have hedit := editToken_zero (f := f) hgap
      rw [hbody, List.append_assoc] at hedit
      constructor
      · have hgap' : (spanGap false (editToken 0 f cs)).2 =
            '"' :: '"' :: '"' :: (body ++ (spanToken '"' ('"' :: '"' :: cs')).2) := by
          rw [hedit]
          exact spanGap_gap hgap _
        rw [tokens_of_gap_cons hgap', spanToken_block, hspan, List.modify_zero_cons, hbody]
        rfl
      · calc (editToken 0 f cs).take 2
            = ((spanGap false cs).1 ++ ((spanToken '"' ('"' :: '"' :: cs')).1.text ++
                (spanToken '"' ('"' :: '"' :: cs')).2)).take 2 := by
              rw [hedit, hquotes]
              exact take_append_congr rfl
          _ = cs.take 2 := by rw [htext, hcs]
  | succ i ih =>
    cases hgap : (spanGap false cs).2 with
    | nil => rw [tokens_of_gap_nil hgap] at hi; cases hi
    | cons c rest =>
      have hcs := spanGap_append false cs
      have htext := spanToken_append c rest
      rw [hgap] at hcs
      rw [tokens_of_gap_cons hgap, List.getElem?_cons_succ] at hi
      obtain ⟨htokens, htake⟩ := ih hi
      have hedit := editToken_succ (f := f) (i := i) hgap
      constructor
      · have hgap' : (spanGap false (editToken (i + 1) f cs)).2 =
            c :: ((spanToken c rest).1.text.tail ++ editToken i f (spanToken c rest).2) := by
          rw [hedit, ← cons_tail_spanToken, List.cons_append]
          exact spanGap_gap hgap _
        rw [tokens_of_gap_cons hgap', tokens_of_gap_cons hgap, List.modify_succ_cons,
          spanToken_of_unmoved (.of_take htake), htokens]
      · calc (editToken (i + 1) f cs).take 2
            = ((spanGap false cs).1 ++
                ((spanToken c rest).1.text ++ (spanToken c rest).2)).take 2 := by
              rw [hedit]
              exact take_append_congr (take_append_congr htake)
          _ = cs.take 2 := by rw [htext, hcs]

/-- An edit of a block string that keeps its value keeps the stripped text. -/
theorem strip_editToken (hi : (tokens source.toList)[i]? = some t) (hkind : t.kind = .blockString)
    (hf : ∃ body, f t.text = quotes ++ body ∧ ∀ rest, spanBlock (body ++ rest) = (body, rest))
    (hvalue : blockValue (f t.text) = blockValue t.text) :
    strip (String.ofList (editToken i f source.toList)) = strip source := by
  refine strip_congr ?_
  rw [String.toList_ofList, (tokens_editToken hi hkind hf).1]
  refine List.ext_getElem? fun j => ?_
  rw [List.getElem?_map, List.getElem?_map, List.getElem?_modify]
  by_cases hij : i = j
  · subst hij
    rw [hi]
    simp [Token.meaning, hkind, hvalue]
  · cases (tokens source.toList)[j]? <;> simp [hij]

/-- Where a closed block string is moved to the right as a whole, or has its line terminators
written in one way, the stripped text is as before. -/
theorem strip_reindented (hi : (tokens source.toList)[i]? = some t) (hkind : t.kind = .blockString)
    (hclosed : t.IsClosed = true) :
    (∀ margin, (∀ c ∈ margin, isIndent c = true) →
      strip (String.ofList (editToken i (indentLines margin) source.toList)) = strip source) ∧
    ∀ terminator ∈ terminators,
      strip (String.ofList (editToken i (respell terminator) source.toList)) = strip source := by
  obtain ⟨c, rest, -, ht⟩ := exists_spanToken_of_mem (List.mem_of_getElem? hi)
  rw [← ht] at hkind
  obtain ⟨cs, -, -, htext⟩ := exists_block_of_spanToken hkind
  rw [ht] at hkind htext
  have hcloses : blockCloses (spanBlock cs).1 = true := by
    rw [Token.IsClosed, hkind, htext] at hclosed
    exact hclosed
  obtain ⟨raw, hvalue, hvalues⟩ := exists_rawValue hcloses
  have hkeeps : ∀ write, Respells write → ∃ body, mapTerminators write t.text = quotes ++ body ∧
      ∀ rest, spanBlock (body ++ rest) = (body, rest) := fun write hw =>
    ⟨_, by rw [htext, mapTerminators_quotes], fun rest => hw.spanBlock_eq hcloses⟩
  refine ⟨fun margin hmargin => ?_, fun terminator hterminator => ?_⟩
  · have hw := respells_indent hmargin
    refine strip_editToken hi hkind (hkeeps _ hw) ?_
    rw [htext, indentLines, hvalues _ hw, hvalue]
    exact rawValue_indentLines hmargin raw
  · have hw := respells_const hterminator
    refine strip_editToken hi hkind (hkeeps _ hw) ?_
    rw [htext, respell, hvalues _ hw, hvalue]
    exact rawValue_respell hterminator raw

namespace Sample

/-- A first line, a blank line shorter than the margin, escaped quotes, and all three terminators. -/
def blocky : String :=
  "type A \x7b\r\n  \"\"\"one\r\n    two \\\"\"\"\n \r      three\n  \"\"\" id: ID\n\x7d"

def blockText : List Char :=
  "\"\"\"one\r\n    two \\\"\"\"\n \r      three\n  \"\"\"".toList

def shifted : String :=
  "type A \x7b\r\n  \"\"\"one\r\n \t    two \\\"\"\"\n \t \r \t      three\n \t  \"\"\"" ++
  " id: ID\n\x7d"

def respelled : String :=
  "type A \x7b\r\n  \"\"\"one\r    two \\\"\"\"\r \r      three\r  \"\"\" id: ID\n\x7d"

end Sample

set_option maxRecDepth 100000 in
theorem strip_reindented_sample :
    (tokens Sample.blocky.toList)[3]? = some ⟨.blockString, Sample.blockText⟩ ∧
      strip Sample.shifted = strip Sample.blocky ∧
      strip Sample.respelled = strip Sample.blocky := by
  have htoken : (tokens Sample.blocky.toList)[3]? = some ⟨.blockString, Sample.blockText⟩ := by
    decide +kernel
  have hclosed : Token.IsClosed ⟨.blockString, Sample.blockText⟩ = true := by decide +kernel
  obtain ⟨hindented, hrespelled⟩ := strip_reindented htoken rfl hclosed
  have hindent := hindented [' ', '\t'] (by simp [isIndent])
  have hrespell := hrespelled ['\r'] (by decide)
  have hfirst : editToken 3 (indentLines [' ', '\t']) Sample.blocky.toList =
      Sample.shifted.toList := by decide +kernel
  have hsecond : editToken 3 (respell ['\r']) Sample.blocky.toList = Sample.respelled.toList := by
    decide +kernel
  rw [hfirst, String.ofList_toList] at hindent
  rw [hsecond, String.ofList_toList] at hrespell
  exact ⟨htoken, hindent, hrespell⟩

end GqlArtifacts.Graphql
