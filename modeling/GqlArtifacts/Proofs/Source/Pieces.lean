import GqlArtifacts.Proofs.Source.ScriptCall
import GqlArtifacts.Proofs.Text.Bytes

/-!
# Scripts in pieces

A script may be put together of calls and of other text between them (`Piece`), and then the scan
finds the calls, in their order and with their arguments as written, and nothing else
(`scan_concat`). Of the text between only two things are asked: the names of calls do not occur in
it, and a call does not follow a name. A body may hold whatever its closing quote can be told in,
other calls included, since the search goes on behind a call that it has found.

What is asked is told of the bytes of a text (`Text.bytes`). A character beyond ASCII has no byte
that the scan looks for (`utf8EncodeChar_cases`), so it comes to the same for characters.
-/

namespace GqlArtifacts

namespace ScriptCall

variable {quote c x : Char} {cs rest body w written s : List Char} {call : ScriptCall}
  {start : Nat} {afterName : Bool} {q b : UInt8} {bs : List UInt8}

/-- A byte of a name, or a dot. -/
def isNameByte (b : UInt8) : Bool :=
  (0x41 ≤ b && b ≤ 0x5A) || (0x61 ≤ b && b ≤ 0x7A) || (0x30 ≤ b && b ≤ 0x39) || b == 0x5F ||
    b == 0x24 || b == 0x2E

/-- A body that is not over before its end: a backslash takes the next byte along, no other byte is
the quote, and none is a line feed unless the quote is a backtick. -/
def closes (quote : UInt8) : List UInt8 → Bool
  | [] => true
  | b :: bs =>
    if b = 0x5C then
      match bs with
      | [] => false
      | _ :: bs => closes quote bs
    else b != quote && (b != 0x0A || quote == 0x60) && closes quote bs

/-- No name of a call occurs in the text. -/
def Nameless (cs : List Char) : Prop := ¬"gql".toList <:+: cs ∧ ¬"load".toList <:+: cs

instance (cs : List Char) : Decidable (Blank cs) := List.decidableBAll _ cs

/-- Some text and a call after it. -/
structure Piece where
  lead : String
  written : String
  call : ScriptCall

namespace Piece

/-- The call stands on its own and is written in full. -/
structure Sound (x : Piece) : Prop where
  nameless : Nameless x.lead.toList
  apart : ∀ b ∈ (Text.bytes x.lead.toList).getLast?, isNameByte b = false
  written : ∃ quote, Written x.call quote x.written.toList ∧
    closes (Text.byte quote) (Text.bytes x.call.text.toList) = true
  document : x.call.isLoad = true →
    ∃ ext ∈ FileKind.documentExtensions, Path.extension? ⟨x.call.text⟩ = some ext

/-- The pieces one after another, and some text at the end. -/
def concat : List Piece → String → String
  | [], last => last
  | x :: xs, last => x.lead ++ (x.written ++ concat xs last)

end Piece

/-! ### Bodies -/

theorem closes_cons_of_ne (hb : b ≠ 0x5C) :
    closes q (b :: bs) = (b != q && (b != 0x0A || q == 0x60) && closes q bs) := by
  cases bs <;> exact if_neg hb

/-- Bytes that are not ASCII are part of a body. -/
theorem closes_append (hq : q.toNat < 0x80) (hbs : ∀ b ∈ bs, 0x80 ≤ b.toNat)
    (more : List UInt8) : closes q (bs ++ more) = closes q more := by
  induction bs with
  | nil => rfl
  | cons b bs ih =>
    have hb := hbs b (List.mem_cons_self ..)
    have hne : ∀ k : UInt8, k.toNat < 0x80 → b ≠ k := by
      rintro k hk rfl
      omega
    rw [List.cons_append, closes_cons_of_ne (hne 0x5C (by decide)), bne_iff_ne.2 (hne q hq),
      bne_iff_ne.2 (hne 0x0A (by decide)), Bool.true_or, Bool.true_and, Bool.true_and]
    exact ih fun b hb => hbs b (List.mem_cons_of_mem _ hb)

theorem quote_cases {ofLoad : Bool} (h : isQuoteFor ofLoad quote = true) :
    quote = '`' ∨ quote = '"' ∨ quote = '\'' := by
  rw [isQuoteFor, Bool.or_eq_true, Bool.and_eq_true, Bool.or_eq_true, beq_iff_eq, beq_iff_eq,
    beq_iff_eq] at h
  exact h.imp_right And.right

/-- A character of a body that is no backslash is read as such. -/
theorem closes_cons (hquote : quote.toNat < 0x80) (hc : c ≠ '\\')
    (h : closes (Text.byte quote) (Text.bytes (c :: cs)) = true) :
    c ≠ quote ∧ ¬(c = '\n' ∧ quote ≠ '`') ∧ closes (Text.byte quote) (Text.bytes cs) = true := by
  rw [Text.bytes_cons] at h
  rcases utf8EncodeChar_cases c with ⟨hascii, hbytes⟩ | ⟨hlarge, hbytes⟩
  · have hne : ∀ d : Char, d.toNat < 0x80 → c ≠ d → Text.byte c ≠ Text.byte d := fun d hd hcd heq =>
      hcd (Text.byte_inj hascii hd heq)
    rw [hbytes, List.singleton_append, closes_cons_of_ne (hne '\\' (by decide) hc), Bool.and_eq_true,
      Bool.and_eq_true, bne_iff_ne] at h
    obtain ⟨⟨hq, hfeed⟩, hrest⟩ := h
    refine ⟨fun heq => hq (congrArg _ heq), ?_, hrest⟩
    rintro ⟨rfl, htemplate⟩
    have hne' : Text.byte quote ≠ Text.byte '`' := fun heq =>
      htemplate (Text.byte_inj hquote (by decide) heq)
    rw [show (Text.byte '\n' != 0x0A) = false from rfl, Bool.false_or, beq_iff_eq] at hfeed
    exact hne' hfeed
  · have hbyte : (Text.byte quote).toNat < 0x80 := by
      rwa [Text.toNat_byte hquote]
    rw [closes_append hbyte hbytes] at h
    refine ⟨?_, ?_, h⟩
    · rintro rfl
      omega
    · rintro ⟨rfl, -⟩
      exact absurd hlarge (by decide)

/-- A backslash takes the next character along. -/
theorem closes_escape (hquote : quote.toNat < 0x80)
    (h : closes (Text.byte quote) (Text.bytes ('\\' :: c :: cs)) = true) :
    closes (Text.byte quote) (Text.bytes cs) = true := by
  rw [Text.bytes_cons, Text.bytes_cons, show String.utf8EncodeChar '\\' = [0x5C] from by decide,
    List.singleton_append] at h
  rcases utf8EncodeChar_cases c with ⟨-, hbytes⟩ | ⟨-, hbytes⟩
  · rw [hbytes, List.singleton_append, closes, if_pos rfl] at h
    exact h
  · obtain ⟨b, bs, hb⟩ := List.exists_cons_of_ne_nil (String.utf8EncodeChar_ne_nil (c := c))
    have hbyte : (Text.byte quote).toNat < 0x80 := by
      rwa [Text.toNat_byte hquote]
    rw [hb] at hbytes h
    rw [List.cons_append, closes, if_pos rfl] at h
    rwa [closes_append hbyte fun b hb => hbytes b (List.mem_cons_of_mem _ hb)] at h

theorem ne_of_not_escape (hlast : c = '\\' → cs = [] → False)
    (hescape : ∀ d ds, c = '\\' → cs = d :: ds → False) : c ≠ '\\' := by
  rintro rfl
  cases cs with
  | nil => exact hlast rfl rfl
  | cons d ds => exact hescape d ds rfl rfl

/-- A body is read up to its closing quote. -/
theorem readLiteral?_of_closes (hquote : quote = '`' ∨ quote = '"' ∨ quote = '\'')
    (h : closes (Text.byte quote) (Text.bytes body) = true) (rest : List Char) :
    readLiteral? quote (body ++ quote :: rest) = some (body, rest) := by
  have hascii : quote.toNat < 0x80 := by rcases hquote with rfl | rfl | rfl <;> decide
  have hslash : quote ≠ '\\' := by rcases hquote with rfl | rfl | rfl <;> decide
  fun_induction readLiteral? quote body with
  | case1 =>
    rw [List.nil_append, readLiteral?, if_pos rfl]
    · exact fun heq _ => hslash heq
    · exact fun _ _ heq _ => hslash heq
  | case2 => cases h
  | case3 c cs ih =>
    rw [List.cons_append, List.cons_append, readLiteral?, ih (closes_escape hascii h)]
    rfl
  | case4 cs => exact absurd rfl (closes_cons hascii hslash h).1
  | case5 c cs hlast hescape hq hfeed =>
    have hc := ne_of_not_escape hlast hescape
    exact absurd hfeed (closes_cons hascii hc h).2.1
  | case6 c cs hlast hescape hq hfeed ih =>
    have hc := ne_of_not_escape hlast hescape
    rw [List.cons_append, readLiteral?, if_neg hq, if_neg hfeed, ih (closes_cons hascii hc h).2.2]
    · rfl
    · exact fun heq _ => hc heq
    · exact fun _ _ heq _ => hc heq

/-! ### Calls -/

theorem skipWhite_append (hw : Blank w) (hc : Text.isAsciiWhite c = false) (rest : List Char) :
    skipWhite (w ++ c :: rest) = c :: rest := by
  rw [skipWhite, List.dropWhile_append_of_pos hw, List.dropWhile_cons_of_neg]
  rw [hc]
  decide

theorem readArguments?_of_parenthesized {ofLoad : Bool} {arguments : List Char}
    (hquote : isQuoteFor ofLoad quote = true)
    (hbody : closes (Text.byte quote) (Text.bytes body) = true)
    (hcall : ofArgument? ofLoad body = some call) (h : Parenthesized quote body arguments)
    (rest : List Char) :
    ∃ size, readArguments? ofLoad (arguments ++ rest) = some (call, size, rest) := by
  obtain ⟨w₁, w₂, w₃, h₁, h₂, h₃, rfl⟩ := h
  have hcases := quote_cases hquote
  have hwhite : Text.isAsciiWhite quote = false := by
    rcases hcases with rfl | rfl | rfl <;> rfl
  simp only [List.append_assoc, List.cons_append, List.nil_append, readArguments?,
    skipWhite_append h₁ (c := '(') rfl, skipWhite_append h₂ hwhite, if_pos hquote,
    readLiteral?_of_closes hcases hbody, skipWhite_append h₃ (c := ')') rfl, hcall,
    Option.map_some]
  exact ⟨_, rfl⟩

/-- A call that is written in full is read. -/
theorem read?_of_written (h : Written call quote written)
    (hbody : closes (Text.byte quote) (Text.bytes call.text.toList) = true)
    (hdocument : call.isLoad = true →
      ∃ ext ∈ FileKind.documentExtensions, Path.extension? ⟨call.text⟩ = some ext)
    (rest : List Char) : read? (written ++ rest) = some (call, written.length, rest) := by
  obtain ⟨arguments, hparens, rfl, hquote⟩ := h
  have hcall : ofArgument? call.isLoad call.text.toList = some call := by
    cases call with
    | gql text => exact congrArg (some <| gql ·) String.ofList_toList
    | load argument =>
      obtain ⟨ext, hmem, hext⟩ := hdocument rfl
      have hkind : FileKind.ofPath? ⟨(load argument).text⟩ = some .document := by
        rw [FileKind.ofPath?, hext]
        exact if_pos (List.contains_iff_mem.2 hmem)
      rw [ofArgument?, isLoad, if_pos rfl, String.ofList_toList, if_pos hkind, text]
  obtain ⟨size, hread⟩ := readArguments?_of_parenthesized hquote hbody hcall hparens rest
  have hsome : ∃ size, read? (call.name ++ arguments ++ rest) = some (call, size, rest) := by
    rw [List.append_assoc]
    cases call with
    | gql text => exact ⟨_, congrArg (Option.map _) hread⟩
    | load argument => exact ⟨_, congrArg (Option.map _) hread⟩
  obtain ⟨size, hread⟩ := hsome
  have hlength := (length_read? hread).2
  rw [List.length_append] at hlength
  rw [hread, Nat.add_right_cancel hlength]

/-! ### Between calls -/

/-- Nothing is read where no name stands. -/
theorem read?_eq_none (h : ∀ call : ScriptCall, ¬call.name <+: cs) : read? cs = none := by
  rw [Option.eq_none_iff_forall_ne_some]
  rintro ⟨call, size, rest⟩ hread
  obtain ⟨quote, written, rfl, -, arguments, -, rfl, -⟩ := read?_eq hread
  rw [List.append_assoc] at h
  exact h call (List.prefix_append ..)

theorem Nameless.not_occurs (h : Nameless cs) (call : ScriptCall) : ¬call.name <:+: cs := by
  cases call with
  | gql text => exact h.1
  | load argument => exact h.2

theorem isNameByte_byte (h : isNameChar c = true) :
    c.toNat < 0x80 ∧ isNameByte (Text.byte c) = true := by
  have hrange : ∀ low high : Char, high.toNat < 0x80 → low ≤ c → c ≤ high →
      c.toNat < 0x80 ∧ Text.byte low ≤ Text.byte c ∧ Text.byte c ≤ Text.byte high :=
    fun low high hhigh hl hr =>
      have hc : c.toNat < 0x80 := Nat.lt_of_le_of_lt hr hhigh
      ⟨hc, Text.byte_le hc hl, Text.byte_le hhigh hr⟩
  simp only [isNameChar, Bool.or_eq_true, Bool.and_eq_true, decide_eq_true_eq, beq_iff_eq] at h
  simp only [isNameByte, Bool.or_eq_true, Bool.and_eq_true, decide_eq_true_eq, beq_iff_eq]
  rcases h with ((((⟨hl, hr⟩ | ⟨hl, hr⟩) | ⟨hl, hr⟩) | rfl) | rfl) | rfl
  · exact (hrange 'A' 'Z' (by decide) hl hr).imp_right fun h => .inl (.inl (.inl (.inl (.inl h))))
  · exact (hrange 'a' 'z' (by decide) hl hr).imp_right fun h => .inl (.inl (.inl (.inl (.inr h))))
  · exact (hrange '0' '9' (by decide) hl hr).imp_right fun h => .inl (.inl (.inl (.inr h)))
  all_goals decide

theorem isNameChar_of_mem_name (hc : c ∈ call.name) : isNameChar c = true := by
  cases call with
  | gql text => exact List.all_eq_true.1 (by decide : "gql".toList.all isNameChar = true) c hc
  | load argument => exact List.all_eq_true.1 (by decide : "load".toList.all isNameChar = true) c hc

theorem getLast?_bytes_concat (hc : c.toNat < 0x80) :
    (Text.bytes (cs ++ [c])).getLast? = some (Text.byte c) := by
  rcases utf8EncodeChar_cases c with ⟨-, hbytes⟩ | ⟨hlarge, -⟩
  · rw [Text.bytes, List.flatMap_append, List.flatMap_singleton, hbytes, List.getLast?_concat]
  · omega

/-- A text whose last byte is of no name does not end in a character of one. -/
theorem not_isNameChar_of_apart
    (h : ∀ b ∈ (Text.bytes (cs ++ [c])).getLast?, isNameByte b = false) :
    isNameChar c = false := by
  rw [Bool.eq_false_iff]
  intro hname
  obtain ⟨hascii, hbyte⟩ := isNameByte_byte hname
  rw [h _ (getLast?_bytes_concat hascii)] at hbyte
  cases hbyte

theorem find_skip (h : afterName = true ∨ read? (c :: cs) = none) :
    find start afterName (c :: cs) = find (start + 1) (isNameChar c) cs := by
  rw [find]
  split
  · rfl
  · next hafter =>
    have hread := h.resolve_left hafter
    split
    · next hsome =>
      rw [hread] at hsome
      cases hsome
    · rfl

theorem find_of_read? {size : Nat} (h : read? cs = some (call, size, rest)) :
    find start false cs = ⟨start, start + size, call⟩ :: find (start + size) false rest := by
  cases cs with
  | nil => cases h
  | cons c cs =>
    rw [find, if_neg Bool.false_ne_true]
    split
    · next hsome =>
      rw [h] at hsome
      cases hsome
      rfl
    · next hnone =>
      rw [h] at hnone
      cases hnone

/-- Nothing is found up to a place before which nothing is read. -/
theorem find_append {lead : List Char}
    (h : ∀ s, s ≠ [] → s <:+ lead → read? (s ++ rest) = none) :
    find start afterName (lead ++ rest) =
      find (start + lead.length) ((lead.getLast?.map isNameChar).getD afterName) rest := by
  induction lead generalizing start afterName with
  | nil => rfl
  | cons c lead ih =>
    have hread : read? (c :: (lead ++ rest)) = none := h (c :: lead) (by simp) List.suffix_rfl
    have hrest : ∀ s, s ≠ [] → s <:+ lead → read? (s ++ rest) = none := fun s hs hsuffix =>
      h s hs (hsuffix.trans (List.suffix_cons ..))
    rw [List.cons_append, find_skip (.inr hread), ih hrest, List.length_cons, Nat.add_assoc,
      Nat.add_comm 1, List.getLast?_cons]
    cases lead.getLast? <;> rfl

theorem find_of_nameless (h : Nameless cs) : find start afterName cs = [] := by
  rw [← List.append_nil cs, find_append, find]
  intro s hs hsuffix
  rw [List.append_nil]
  exact read?_eq_none fun call hbegins => h.not_occurs call (hbegins.isInfix.trans hsuffix.isInfix)

/-- The text before a call is passed over. -/
theorem find_lead {lead : List Char} (hlead : Nameless lead)
    (hapart : ∀ b ∈ (Text.bytes lead).getLast?, isNameByte b = false) :
    find start false (lead ++ rest) = find (start + lead.length) false rest := by
  rw [find_append]
  · congr 1
    rcases List.eq_nil_or_concat lead with rfl | ⟨init, c, rfl⟩
    · rfl
    · rw [List.concat_eq_append] at hapart ⊢
      rw [List.getLast?_concat]
      exact not_isNameChar_of_apart hapart
  · intro s hs hsuffix
    refine read?_eq_none fun call hbegins => ?_
    rcases List.prefix_or_prefix_of_prefix hbegins (List.prefix_append s rest) with hname | hname
    · exact hlead.not_occurs call (hname.isInfix.trans hsuffix.isInfix)
    · -- the text ends in the beginning of a name
      obtain ⟨init, c, rfl⟩ := (List.eq_nil_or_concat s).resolve_left hs
      rw [List.concat_eq_append] at hname hsuffix
      have hc : isNameChar c = true :=
        isNameChar_of_mem_name (hname.subset (List.mem_append_right init (List.mem_singleton_self c)))
      obtain ⟨before, rfl⟩ := hsuffix
      rw [← List.append_assoc] at hapart
      rw [not_isNameChar_of_apart hapart] at hc
      cases hc

/-- The scan finds the calls that a script is put together of, and no others. -/
theorem scan_concat {pieces : List Piece} {last : String} (hpieces : ∀ x ∈ pieces, x.Sound)
    (hlast : Nameless last.toList) : scan (Piece.concat pieces last) = pieces.map Piece.call := by
  rw [scan, Text.chars_eq]
  generalize 0 = start
  induction pieces generalizing start with
  | nil =>
    rw [Piece.concat, find_of_nameless hlast]
    rfl
  | cons x pieces ih =>
    have hx := hpieces x (List.mem_cons_self ..)
    obtain ⟨quote, hwritten, hbody⟩ := hx.written
    rw [Piece.concat, String.toList_append, String.toList_append, find_lead hx.nameless hx.apart,
      find_of_read? (read?_of_written hwritten hbody hx.document _), List.map_cons, List.map_cons,
      ih fun y hy => hpieces y (List.mem_cons_of_mem _ hy)]

namespace Sample

/-- A template with another call in it and its own quote, escaped. -/
def template : Piece where
  lead := "é="
  written := "gql (`{a} load('b.gql') \\`` )"
  call := .gql "{a} load('b.gql') \\`"

/-- A call right after it, with the other quotes in its argument. -/
def file : Piece where
  lead := ""
  written := "load(\"a'`.gql\")"
  call := .load "a'`.gql"

theorem sound_template : template.Sound where
  nameless := by unfold Nameless; decide
  apart := by decide +kernel
  written := ⟨'`', ⟨" (`{a} load('b.gql') \\`` )".toList,
    ⟨[' '], [], [' '], by decide, by decide, by decide,
      by decide⟩, by decide, rfl⟩, by decide +kernel⟩
  document := by decide

theorem sound_file : file.Sound where
  nameless := by unfold Nameless; decide
  apart := by decide +kernel
  written := ⟨'"', ⟨"(\"a'`.gql\")".toList,
    ⟨[], [], [], by decide, by decide, by decide,
      by decide⟩, by decide, rfl⟩, by decide +kernel⟩
  document := fun _ => ⟨"gql", by decide, by decide +kernel⟩

end Sample

/-- The call in the template is not found, and the call right after it is. -/
theorem scan_concat_sample : (∀ x ∈ [Sample.template, Sample.file], x.Sound) ∧
    Nameless ";ql".toList ∧
    Piece.concat [Sample.template, Sample.file] ";ql" =
      "é=gql (`{a} load('b.gql') \\`` )load(\"a'`.gql\");ql" ∧
    scan (Piece.concat [Sample.template, Sample.file] ";ql") =
      [.gql "{a} load('b.gql') \\`", .load "a'`.gql"] := by
  have hpieces : ∀ x ∈ [Sample.template, Sample.file], x.Sound := by
    simp only [List.mem_cons, List.not_mem_nil, or_false, forall_eq_or_imp, forall_eq]
    exact ⟨Sample.sound_template, Sample.sound_file⟩
  have hlast : Nameless ";ql".toList := by
    unfold Nameless
    decide
  exact ⟨hpieces, hlast, by decide +kernel, scan_concat hpieces hlast⟩

end ScriptCall

end GqlArtifacts
