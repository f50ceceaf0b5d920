import GqlArtifacts.Proofs.Graphql.Spacing

/-!
# Joined documents

A line terminator ends a comment and starts no token, and no closed token runs on over it. So documents
that leave no string open may be joined by line feeds: the whole has the tokens of each of them, one
document after another (`tokens_intercalate`), and what it is stripped to depends on nothing but what
they are stripped to (`strip_joined_congr`).
-/

namespace GqlArtifacts.Graphql

variable {c d : Char} {cs rest : List Char} {t : Token} {texts : List (List Char)}
  {contents contents' : List String}

theorem not_startsToken_of_isTerminator (h : isTerminator d = true) : ¬StartsToken d := by
  rintro ⟨hignored, -⟩
  rw [isIgnored_of_isTerminator h] at hignored
  cases hignored

/-- A terminator ends a gap, also one that is a comment. -/
theorem spanGap_append_terminator {comment : Bool} (h : (spanGap comment cs).2 = [])
    (hd : isTerminator d = true) (rest : List Char) :
    (spanGap comment (cs ++ d :: rest)).2 = (spanGap false rest).2 := by
  fun_induction spanGap comment cs with
  | case1 =>
    rw [List.nil_append, spanGap, hd, Bool.not_true, Bool.and_false, if_neg Bool.false_ne_true,
      if_pos (isIgnored_of_isTerminator hd)]
  | case2 comment c cs hcomment gap rest' hspan ih =>
    rw [hspan] at ih
    rw [List.cons_append, spanGap, if_pos hcomment]
    exact ih h
  | case3 comment c cs hcomment hignored gap rest' hspan ih =>
    rw [hspan] at ih
    rw [List.cons_append, spanGap, if_neg hcomment, if_pos hignored]
    exact ih h
  | case4 comment c cs hcomment hignored hhash gap rest' hspan ih =>
    rw [hspan] at ih
    rw [List.cons_append, spanGap, if_neg hcomment, if_neg hignored, if_pos hhash]
    exact ih h
  | case5 comment c cs hcomment hignored hhash => cases h

theorem Token.unmoved_terminator (h : t.IsClosed = true) (hd : isTerminator d = true)
    (cs rest : List Char) : t.Unmoved cs (cs ++ d :: rest) := by
  have hdot : d ≠ '.' := by
    rintro rfl
    cases hd
  constructor
  · cases cs with
    | nil =>
      refine .inr ⟨h, fun d' hd' => ?_⟩
      obtain rfl := Option.some.inj hd'
      exact not_startsToken_of_isTerminator hd
    | cons c cs => exact .inl rfl
  · rintro ⟨more, hmore⟩
    match cs with
    | [] => exact absurd (List.cons.inj hmore).1.symm hdot
    | [c] => exact absurd (List.cons.inj (List.cons.inj hmore).2).1.symm hdot
    | c :: c' :: cs =>
      obtain ⟨rfl, htail⟩ := List.cons.inj hmore
      obtain ⟨rfl, -⟩ := List.cons.inj htail
      exact ⟨cs, rfl⟩

/-- Closed tokens are read as before with a terminator behind them, and what follows is read anew. -/
theorem tokens_append_terminator (h : ∀ t ∈ tokens cs, t.IsClosed = true) (hd : isTerminator d = true)
    (rest : List Char) : tokens (cs ++ d :: rest) = tokens cs ++ tokens rest := by
  -- by the length of the text, since reading a token takes off a gap and as much as it wants
  induction hn : cs.length using Nat.strongRecOn generalizing cs with
  | ind len ih =>
    subst hn
    cases hgap : (spanGap false cs).2 with
    | nil =>
      have hspan := spanGap_append_terminator hgap hd rest
      rw [tokens_of_gap_nil hgap, List.nil_append]
      cases hrest : (spanGap false rest).2 with
      | nil => rw [tokens_of_gap_nil (hspan.trans hrest), tokens_of_gap_nil hrest]
      | cons c more => rw [tokens_of_gap_cons (hspan.trans hrest), tokens_of_gap_cons hrest]
    | cons c more =>
      have hcs := spanGap_append false cs
      have htext := spanToken_append c more
      have hlen := length_spanToken c more
      rw [tokens_of_gap_cons hgap, List.forall_mem_cons] at h
      rw [hgap] at hcs
      have hspan : (spanGap false (cs ++ d :: rest)).2 = c :: (more ++ d :: rest) := by
        have hfound := spanGap_gap hgap (more ++ d :: rest)
        rwa [← List.cons_append, ← List.append_assoc, hcs] at hfound
      have htoken : spanToken c (more ++ d :: rest) =
          ((spanToken c more).1, (spanToken c more).2 ++ d :: rest) := by
        have hread := spanToken_of_unmoved (Token.unmoved_terminator h.1 hd (spanToken c more).2 rest)
        rw [← cons_tail_spanToken, List.cons_append] at htext
        rwa [← List.append_assoc, (List.cons.inj htext).2] at hread
      have hshort : (spanToken c more).2.length < cs.length := by
        rw [← hcs, List.length_append, List.length_cons]
        omega
      rw [tokens_of_gap_cons hspan, tokens_of_gap_cons hgap, htoken, ih _ hshort h.2 rfl,
        List.cons_append]

theorem tokens_intercalate (h : ∀ cs ∈ texts, ∀ t ∈ tokens cs, t.IsClosed = true) :
    tokens (['\n'].intercalate texts) = texts.flatMap tokens := by
  induction texts with
  | nil => exact tokens_of_gap_nil rfl
  | cons cs texts ih =>
    obtain ⟨hcs, htexts⟩ := List.forall_mem_cons.1 h
    cases texts with
    | nil => rw [List.intercalate_singleton, List.flatMap_cons, List.flatMap_nil, List.append_nil]
    | cons cs' texts =>
      rw [List.intercalate_cons_cons, List.append_assoc, List.singleton_append,
        tokens_append_terminator hcs rfl, ih htexts]
      rfl

/-! ### Whole documents -/

/-- All strings of both kinds are closed, and no dot stands alone. -/
def Sealed (source : String) : Prop :=
  ∀ t ∈ tokens source.toList, t.IsClosed = true ∧ t ≠ ⟨.punctuator, ['.']⟩

instance (source : String) : Decidable (Sealed source) :=
  inferInstanceAs (Decidable (∀ t ∈ tokens source.toList, _ ∧ _))

theorem Sealed.lexesCleanly {source : String} (h : Sealed source) : LexesCleanly source := by
  intro t ht
  obtain ⟨hclosed, hdot⟩ := h t ht
  have hstring : t.kind = .string → stringCloses t.text.tail = true := fun hkind => by
    rwa [Token.IsClosed, hkind] at hclosed
  simpa [Token.IsClean, hdot, Classical.or_iff_not_imp_left] using hstring

theorem tokens_joined (h : ∀ s ∈ contents, Sealed s) :
    tokens ("\n".intercalate contents).toList = contents.flatMap fun s => tokens s.toList := by
  have hclosed : ∀ cs ∈ contents.map String.toList, ∀ t ∈ tokens cs, t.IsClosed = true := by
    intro cs hcs t ht
    obtain ⟨s, hs, rfl⟩ := List.mem_map.1 hcs
    exact (h s hs t ht).1
  rw [String.toList_intercalate]
  exact (tokens_intercalate hclosed).trans (List.flatMap_map ..)

theorem meaning_tokens_joined (h : ∀ s ∈ contents, Sealed s) :
    (tokens ("\n".intercalate contents).toList).map Token.meaning =
      (contents.map strip).flatMap fun s => (tokens s.toList).map Token.meaning := by
  rw [tokens_joined h, List.map_flatMap, List.flatMap_map]
  exact List.flatMap_congr fun s hs => (meaning_tokens_strip (h s hs).lexesCleanly).symm

theorem strip_joined_congr (h : ∀ s ∈ contents, Sealed s) (h' : ∀ s ∈ contents', Sealed s)
    (hstrip : contents.map strip = contents'.map strip) :
    strip ("\n".intercalate contents) = strip ("\n".intercalate contents') :=
  strip_congr (by rw [meaning_tokens_joined h, meaning_tokens_joined h', hstrip])

end GqlArtifacts.Graphql
