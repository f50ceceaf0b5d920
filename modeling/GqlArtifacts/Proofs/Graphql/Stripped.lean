import GqlArtifacts.Proofs.Graphql.BlockString
import GqlArtifacts.Proofs.Graphql.Token
import GqlArtifacts.Proofs.Text.Bytes

/-!
# Stripped documents read back

Lexing a stripped document gives the tokens of the document, block strings in printed form
(`tokens_strip`): what is written after a token is a blank or a punctuator wherever the token could
run on. So a stripped text is as good as the tokens by their meaning (`strip_keeps_tokens`).
-/

namespace GqlArtifacts.Graphql

variable {t : Token} {ts ts' : List Token} {cs : List Char} {source other : String}

/-! ### Tokens by their meaning -/

namespace Token

/-- The token as it stands in a stripped document. -/
def printed (t : Token) : Token := { t with text := t.strippedText }

/-- What a token says: a block string its value, any other token its text. -/
def meaning (t : Token) : TokenKind × List Char :=
  (t.kind, if t.kind = .blockString then blockValue t.text else t.text)

theorem printed_of_ne (h : t.kind ≠ .blockString) : t.printed = t := by
  rw [printed, strippedText, if_neg h]

theorem printed_text (h : t.kind = .blockString) :
    t.printed.text = printBlock (blockValue t.text) := if_pos h

theorem blockValue_printed (h : t.kind = .blockString) :
    blockValue t.printed.text = blockValue t.text := by
  rw [printed_text h, blockValue_printBlock (isBlockValue_blockValue t.text)]

theorem kind_eq_punctuator (h : ¬ (t.isWordLike || t.kind == .spread) = true) :
    t.kind = .punctuator := by
  cases hkind : t.kind <;> simp [isWordLike, hkind] at h ⊢

theorem meaning_printed (t : Token) : t.printed.meaning = t.meaning := by
  by_cases h : t.kind = .blockString
  · rw [meaning, meaning, if_pos h, if_pos (show t.printed.kind = _ from h), blockValue_printed h]
    rfl
  · rw [printed_of_ne h]

theorem isClean_printed (h : t.IsClean = true) : t.printed.IsClean = true := by
  by_cases hkind : t.kind = .blockString
  · simp [IsClean, printed, hkind]
  · rwa [printed_of_ne hkind]

theorem strippedText_eq (t : Token) : t.strippedText =
    if t.meaning.1 = .blockString then printBlock t.meaning.2 else t.meaning.2 := by
  by_cases h : t.kind = .blockString <;> simp [strippedText, meaning, h]

end Token

theorem writeTokens_congr (h : ts.map Token.meaning = ts'.map Token.meaning) (afterWord : Bool) :
    writeTokens afterWord ts = writeTokens afterWord ts' := by
  induction ts generalizing ts' afterWord with
  | nil =>
    rw [List.map_nil, eq_comm, List.map_eq_nil_iff] at h
    rw [h]
  | cons t ts ih =>
    obtain ⟨t', ts'', rfl, hhead, htail⟩ := List.map_eq_cons_iff.1 h.symm
    have hkind : t'.kind = t.kind := congrArg Prod.fst hhead
    have hword : t'.isWordLike = t.isWordLike := by simp only [Token.isWordLike, hkind]
    rw [writeTokens, writeTokens, Token.strippedText_eq, Token.strippedText_eq, hhead, hword, hkind,
      ih htail.symm]

/-! ### Reading a stripped document -/

theorem spanToken_block (cs : List Char) : spanToken '"' ('"' :: '"' :: cs) =
    (⟨.blockString, '"' :: '"' :: '"' :: (spanBlock cs).1⟩, (spanBlock cs).2) := rfl

theorem reads_printBlock (value : List Char) : Token.Reads ⟨.blockString, printBlock value⟩ := by
  rw [printBlock_eq]
  refine ⟨'"', '"' :: '"' :: (escapeQuotes (paddedValue value) ++ quotes), rfl,
    ⟨rfl, by decide⟩, nofun, fun rest _ => ?_⟩
  rw [List.cons_append, List.cons_append, List.append_assoc, spanToken_block, spanBlock_paddedValue]
  rfl

theorem reads_printed (hmem : t ∈ tokens cs) (h : t.IsClean = true) : t.printed.Reads := by
  by_cases hkind : t.kind = .blockString
  · have hprinted : t.printed = ⟨.blockString, printBlock (blockValue t.text)⟩ := by
      rw [Token.printed, Token.strippedText, if_pos hkind, hkind]
    rw [hprinted]
    exact reads_printBlock _
  · rw [Token.printed_of_ne hkind]
    exact reads_of_isClean hmem h hkind

theorem endsBefore_writeTokens (h : ∀ t ∈ ts, t.printed.Reads) (t : Token) :
    t.EndsBefore (writeTokens t.isWordLike ts) := by
  intro hword d hd
  rw [hword] at hd
  cases ts with
  | nil => cases hd
  | cons u ts =>
    obtain ⟨c, cs, htext, -, hpunct, -⟩ := h u (List.mem_cons_self ..)
    rw [writeTokens, Bool.true_and, show u.strippedText = c :: cs from htext] at hd
    split at hd
    · exact .inl (Option.some.inj hd).symm
    · next hsep =>
      obtain rfl : c = d := Option.some.inj hd
      exact .inr (hpunct (Token.kind_eq_punctuator hsep))

theorem tokens_writeTokens (h : ∀ t ∈ ts, t.printed.Reads) (afterWord : Bool) :
    tokens (writeTokens afterWord ts) = ts.map Token.printed := by
  induction ts generalizing afterWord with
  | nil => exact tokens_of_gap_nil rfl
  | cons t ts ih =>
    obtain ⟨c, cs, htext, hstart, -, hspan⟩ := h t (List.mem_cons_self ..)
    have hmore : ∀ u ∈ ts, u.printed.Reads := fun u hu => h u (List.mem_cons_of_mem t hu)
    have hgap : (spanGap false (writeTokens afterWord (t :: ts))).2 =
        c :: (cs ++ writeTokens t.isWordLike ts) := by
      rw [writeTokens, show t.strippedText = c :: cs from htext]
      split
      · rw [List.singleton_append, List.cons_append, spanGap_space, List.cons_append,
          spanGap_of_startsToken hstart]
      · rw [List.nil_append, List.cons_append, spanGap_of_startsToken hstart]
    rw [tokens_of_gap_cons hgap, hspan _ (endsBefore_writeTokens hmore t), ih hmore, List.map_cons]

/-! ### Clean documents -/

/-- No token of the document is a lone dot or a string without a closing quote. -/
def LexesCleanly (source : String) : Prop := ∀ t ∈ tokens source.toList, t.IsClean = true

instance (source : String) : Decidable (LexesCleanly source) :=
  inferInstanceAs (Decidable (∀ t ∈ tokens source.toList, t.IsClean = true))

theorem tokens_strip (h : LexesCleanly source) :
    tokens (strip source).toList = (tokens source.toList).map Token.printed := by
  rw [strip, String.toList_ofList, Text.chars_eq, stripChars]
  exact tokens_writeTokens (fun t hmem => reads_printed hmem (h t hmem)) false

-- lone dots are left out since side by side they are a spread
example : strip ". . ." = "..." := by decide +kernel

theorem meaning_tokens_strip (h : LexesCleanly source) :
    (tokens (strip source).toList).map Token.meaning =
      (tokens source.toList).map Token.meaning := by
  rw [tokens_strip h, List.map_map]
  exact List.map_congr_left fun t _ => t.meaning_printed

theorem strip_congr
    (h : (tokens source.toList).map Token.meaning = (tokens other.toList).map Token.meaning) :
    strip source = strip other := by
  rw [strip, strip, Text.chars_eq, Text.chars_eq, stripChars, stripChars, writeTokens_congr h]

/-- A clean document and its stripped text have the same tokens by their meaning, and the stripped
text is the same for another clean document just if its tokens are. -/
theorem strip_keeps_tokens (h : LexesCleanly source) : LexesCleanly (strip source) ∧
    (tokens (strip source).toList).map Token.meaning = (tokens source.toList).map Token.meaning ∧
    (∀ t ∈ tokens (strip source).toList, t.kind = .blockString →
      t.text = printBlock (blockValue t.text)) ∧
    strip (strip source) = strip source ∧
    ∀ other, LexesCleanly other → (strip other = strip source ↔
      (tokens other.toList).map Token.meaning = (tokens source.toList).map Token.meaning) := by
  refine ⟨fun t hmem => ?_, meaning_tokens_strip h, fun t hmem hkind => ?_,
    strip_congr (meaning_tokens_strip h), fun other hother => ⟨fun heq => ?_, strip_congr⟩⟩
  · rw [tokens_strip h] at hmem
    obtain ⟨u, hu, rfl⟩ := List.mem_map.1 hmem
    exact Token.isClean_printed (h u hu)
  · rw [tokens_strip h] at hmem
    obtain ⟨u, -, rfl⟩ := List.mem_map.1 hmem
    have hblock : u.kind = .blockString := hkind
    rw [Token.blockValue_printed hblock, Token.printed_text hblock]
  · rw [← meaning_tokens_strip hother, heq, meaning_tokens_strip h]

namespace Sample

/-- Empty strings side by side, a number before a spread, and a block string that is printed with a
break at either end. -/
def wide : String :=
  "query Q($n: Int = -1) \x7b\n  f(a: \"\" \"\" \"b\", n: 2 ...F) # c\n  \"\"\"\n" ++
  "    one\n      two \\\"\"\"\n  \"\"\"\n\x7d\n"

def tight : String :=
  "query Q($n:Int=-1)\x7bf(a:\"\" \"\" \"b\" n:2 ...F)\"\"\"\none\n  two \\\"\"\"\n\"\"\"\x7d"

end Sample

set_option maxRecDepth 100000 in
theorem strip_keeps_tokens_sample : LexesCleanly Sample.wide ∧ LexesCleanly Sample.tight ∧
    strip Sample.wide = Sample.tight ∧ strip Sample.tight = strip Sample.wide ∧
    (tokens Sample.tight.toList).map Token.meaning =
      (tokens Sample.wide.toList).map Token.meaning := by
  have hwide : LexesCleanly Sample.wide := by decide +kernel
  have hstrip : strip Sample.wide = Sample.tight := by decide +kernel
  obtain ⟨htight, -, -, hidem, hiff⟩ := strip_keeps_tokens hwide
  rw [hstrip] at htight hidem
  have hsame := hidem.trans hstrip.symm
  exact ⟨hwide, htight, hstrip, hsame, (hiff _ htight).1 hsame⟩

end GqlArtifacts.Graphql
