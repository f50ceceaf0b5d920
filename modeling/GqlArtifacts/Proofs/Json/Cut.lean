import GqlArtifacts.Proofs.Json.Splice

/-!
# Texts that are cut off

A proper prefix of the printed text of a value without numbers is no value (`parse?_of_pretty_eq`). Where
the prefix can be cut into tokens at all, these start the tokens of the whole text (`tokens?_of_append`)
and some are missing, since what is missing of the text does not end in a blank; and no value goes on
after it is complete.
-/

namespace GqlArtifacts.Json

variable {cs rest : Symbols}

/-! ### Tokens of a prefix -/

theorem isNumber_stringOf (s : Symbols) : Token.isNumber (.scalar (stringOf s)) = false := by
  unfold stringOf
  split <;> rfl

/-- A token is a number just when the text starts like one. -/
theorem isNumber_iff_of_readToken? {c : Char} {t : Token} {r : Symbols}
    (h : readToken? (some c :: cs) = some (t, r)) :
    t.isNumber = true ↔ c = '-' ∨ isDigit c = true := by
  constructor
  · intro ht
    rcases readToken?_cases h with ⟨word, hword, -⟩ | ⟨_, s, -, -, rfl⟩ | ⟨v, hnumber, -⟩
    · have hfixed : ∀ e ∈ fixedTokens, e.2.isNumber = false := by decide
      exact absurd ht (Bool.eq_false_iff.1 (hfixed _ hword))
    · exact absurd ht (Bool.eq_false_iff.1 (isNumber_stringOf s))
    · obtain ⟨c', tail, heq, hc⟩ := exists_head_of_readNumber? hnumber
      cases heq
      exact hc
  · intro hc
    rw [readToken?_of_numeral hc] at h
    obtain ⟨⟨v, r'⟩, hnumber, h⟩ := Option.map_eq_some_iff.1 h
    cases h
    exact isNumber_of_readNumber? hnumber

/-- The tokens of a prefix are the first tokens of a text without numbers. -/
theorem tokens?_of_append {ts us : List Token} (hts : tokens? (cs ++ rest) = some ts)
    (hplain : ∀ t ∈ ts, t.isNumber = false) (hus : tokens? cs = some us) :
    ∃ ts', tokens? rest = some ts' ∧ ts = us ++ ts' := by
  fun_induction tokens? cs generalizing ts us with
  | case1 =>
    cases hus
    exact ⟨ts, hts, rfl⟩
  | case2 => cases hus
  | case3 c cs hblank ih =>
    rw [List.cons_append, tokens?_cons_of_isBlank hblank] at hts
    exact ih hts hplain hus
  | case4 => cases hus
  | case5 c cs hblank t r htoken ih =>
    obtain ⟨us', hus', rfl⟩ := Option.map_eq_some_iff.1 hus
    rw [List.cons_append] at hts
    have hblank' : isBlank c = false := by simpa using hblank
    obtain ⟨t', r', htoken'⟩ : ∃ t' r', readToken? (some c :: (cs ++ rest)) = some (t', r') := by
      rw [tokens?, if_neg hblank] at hts
      split at hts
      · cases hts
      · next t' r' h => exact ⟨t', r', h⟩
    have hnumber : t.isNumber = true ↔ t'.isNumber = true :=
      (isNumber_iff_of_readToken? htoken).trans (isNumber_iff_of_readToken? htoken').symm
    have htail := hts
    rw [tokens?_cons hblank' htoken'] at htail
    obtain ⟨tail, -, rfl⟩ := Option.map_eq_some_iff.1 htail
    have hfirst : t.isNumber = false := by
      rw [Bool.eq_false_iff, ne_eq, hnumber, hplain t' List.mem_cons_self]
      exact Bool.false_ne_true
    have hends : t.isNumber = true → Ends rest := by simp [hfirst]
    have hwhole := readToken?_append htoken hends
    rw [List.cons_append, htoken'] at hwhole
    cases hwhole
    rw [tokens?_cons hblank' htoken'] at hts
    obtain ⟨tail', htail', heq⟩ := Option.map_eq_some_iff.1 hts
    obtain ⟨-, rfl⟩ := List.cons.inj heq
    obtain ⟨ts', hts', rfl⟩ := ih htail' (fun u hu => hplain u (List.mem_cons_of_mem _ hu)) hus'
    exact ⟨ts', hts', rfl⟩

/-- Where there are no tokens there are only blanks. -/
theorem isBlank_of_tokens?_eq_nil (h : tokens? cs = some []) :
    ∀ c ∈ cs, ∃ b, c = some b ∧ isBlank b = true := by
  fun_induction tokens? cs with
  | case1 => simp
  | case2 => cases h
  | case3 c cs hblank ih =>
    intro d hd
    rcases List.mem_cons.1 hd with rfl | hd
    · exact ⟨c, rfl, hblank⟩
    · exact ih h d hd
  | case4 => cases h
  | case5 =>
    obtain ⟨_, -, h⟩ := Option.map_eq_some_iff.1 h
    cases h

/-- Nothing may follow a complete value. -/
theorem ofTokens?_append_cons {us : List Token} {v : Json} (h : ofTokens? us = some v) (t : Token)
    (ts : List Token) : ofTokens? (us ++ t :: ts) = none := by
  obtain ⟨⟨e, fs⟩, hr, hv⟩ := Option.bind_eq_some_iff.1 h
  rw [ofTokens?, List.foldlM_append, hr]
  cases e with
  | nothing w =>
    show ((Reader.step ⟨.nothing w, fs⟩ t).bind (ts.foldlM Reader.step ·)).bind _ = none
    rw [Reader.step_nothing]
    rfl
  | _ => cases hv

/-! ### Printed values -/

mutual

theorem isNumber_tokens : ∀ v : Json, v.plain → ∀ t ∈ v.tokens, t.isNumber = false
  | null, _, t, ht => by simp only [tokens, List.mem_singleton] at ht; rw [ht]; rfl
  | bool _, _, t, ht => by simp only [tokens, List.mem_singleton] at ht; rw [ht]; rfl
  | string _, _, t, ht => by simp only [tokens, List.mem_singleton] at ht; rw [ht]; rfl
  | array items, h, t, ht => by
    simp only [tokens, List.mem_cons, List.mem_append, List.not_mem_nil, or_false] at ht
    rcases ht with rfl | ht | rfl
    · rfl
    · exact isNumber_itemTokens items h t ht
    · rfl
  | object fields, h, t, ht => by
    simp only [tokens, List.mem_cons, List.mem_append, List.not_mem_nil, or_false] at ht
    rcases ht with rfl | ht | rfl
    · rfl
    · exact isNumber_fieldTokens fields h t ht
    · rfl

theorem isNumber_itemTokens : ∀ vs : List Json, plainItems vs → ∀ t ∈ itemTokens vs,
    t.isNumber = false
  | [], _, _, ht => by cases ht
  | [v], h, t, ht => isNumber_tokens v (by simpa [plainItems] using h) t ht
  | v :: w :: vs, h, t, ht => by
    simp only [plainItems, Bool.and_eq_true] at h
    simp only [itemTokens, List.mem_append, List.mem_cons] at ht
    rcases ht with ht | rfl | ht
    · exact isNumber_tokens v h.1 t ht
    · rfl
    · exact isNumber_itemTokens (w :: vs) (by simp [plainItems, h.2]) t ht

theorem isNumber_fieldTokens : ∀ es : List (String × Json), plainFields es → ∀ t ∈ fieldTokens es,
    t.isNumber = false
  | [], _, _, ht => by cases ht
  | [(k, v)], h, t, ht => by
    simp only [fieldTokens, List.mem_cons] at ht
    rcases ht with rfl | rfl | ht
    · rfl
    · rfl
    · exact isNumber_tokens v (by simpa [plainFields] using h) t ht
  | (k, v) :: e :: es, h, t, ht => by
    simp only [plainFields, Bool.and_eq_true] at h
    simp only [fieldTokens, List.mem_append, List.mem_cons] at ht
    rcases ht with rfl | rfl | ht | rfl | ht
    · rfl
    · rfl
    · exact isNumber_tokens v h.1 t ht
    · rfl
    · exact isNumber_fieldTokens (e :: es) (by simp [plainFields, h.2]) t ht

end

/-- A printed value does not end in a blank. -/
theorem exists_last_prettyChars (v : Json) (depth : Nat) (h : v.plain) :
    ∃ init c, v.prettyChars depth = init ++ [c] ∧ isBlank c = false := by
  match v with
  | null => exact ⟨"nul".toList, 'l', rfl, rfl⟩
  | bool true => exact ⟨"tru".toList, 'e', rfl, rfl⟩
  | bool false => exact ⟨"fals".toList, 'e', rfl, rfl⟩
  | string s => exact ⟨_, '"', (List.cons_append ..).symm, rfl⟩
  | array [] => exact ⟨['['], ']', rfl, rfl⟩
  | array (v :: vs) => exact ⟨_, ']', (List.cons_append ..).symm, rfl⟩
  | object [] => exact ⟨['\x7b'], '\x7d', rfl, rfl⟩
  | object (e :: es) => exact ⟨_, '\x7d', (List.cons_append ..).symm, rfl⟩

/-- A proper prefix of the printed text of a value without numbers is no value. -/
theorem parse?_of_pretty_eq {v : Json} (hv : v.plain) {s rest : String} (h : v.pretty = s ++ rest)
    (hrest : rest ≠ "") : parse? s = none := by
  have hprinted := printsAs_prettyChars v 0 hv []
  have htext : v.prettyChars 0 = s.toList ++ rest.toList := by
    rw [← String.toList_append, ← h, pretty, String.toList_ofList]
  rw [List.append_nil, List.map_nil, tokens?, Option.map_some, List.append_nil, htext,
    List.map_append] at hprinted
  rw [parse?_eq, ofSymbols?]
  cases hus : tokens? (s.toList.map some) with
  | none => rfl
  | some us =>
    rw [Option.bind_some]
    by_contra hread
    obtain ⟨w, hw⟩ := Option.ne_none_iff_exists'.1 hread
    obtain ⟨ts', hts', hsplit⟩ := tokens?_of_append hprinted (isNumber_tokens v hv) hus
    cases ts' with
    | nil =>
      obtain ⟨init, c, hlast, hblank⟩ := exists_last_prettyChars v 0 hv
      have hne : rest.toList ≠ [] := fun hnil => hrest (String.toList_inj.1 hnil)
      have hmem : c ∈ rest.toList := by
        refine List.mem_of_getLast? ?_
        rw [← List.getLast?_append_of_ne_nil s.toList hne, ← htext, hlast, List.getLast?_concat]
      obtain ⟨b, hb, hb'⟩ := isBlank_of_tokens?_eq_nil hts' _ (List.mem_map_of_mem hmem)
      cases hb
      rw [hblank] at hb'
      cases hb'
    | cons t ts =>
      have hwhole := ofTokens?_tokens v
      rw [hsplit, ofTokens?_append_cons hw] at hwhole
      cases hwhole

end GqlArtifacts.Json
