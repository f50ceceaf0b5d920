import GqlArtifacts.Graphql.Stripped
import Mathlib.Data.List.TakeWhile

/-!
# Tokens that read back

A token is read off the front of a text by its own characters, as long as what follows cannot run
on from it (`Token.Reads`). The tokens of a text are like that (`reads_of_isClean`), but for a lone dot,
which may run into a spread, and a string without a closing quote, which may go on. Block strings
are left to their own module.
-/

namespace GqlArtifacts.Graphql

variable {c d : Char} {cs rest : List Char} {t : Token}

/-- Neither ignored nor the start of a comment. -/
def StartsToken (c : Char) : Prop := isIgnored c = false ∧ c ≠ '#'

theorem startsToken_of_spanGap {comment : Bool} (h : (spanGap comment cs).2 = c :: rest) :
    StartsToken c := by
  fun_induction spanGap comment cs with
  | case1 => cases h
  | case2 comment d cs _ gap rest' hspan ih => exact ih (by rw [hspan]; exact h)
  | case3 comment d cs _ _ gap rest' hspan ih => exact ih (by rw [hspan]; exact h)
  | case4 comment d cs _ _ _ gap rest' hspan ih => exact ih (by rw [hspan]; exact h)
  | case5 comment d cs _ hignored hhash =>
    obtain ⟨rfl, -⟩ := List.cons.inj h
    exact ⟨by simpa using hignored, by simpa using hhash⟩

theorem spanGap_of_startsToken (h : StartsToken c) : spanGap false (c :: cs) = ([], c :: cs) := by
  simp [spanGap, h.1, h.2]

theorem spanGap_space (cs : List Char) : (spanGap false (' ' :: cs)).2 = (spanGap false cs).2 := rfl

theorem tokens_of_gap_nil (h : (spanGap false cs).2 = []) : tokens cs = [] := by
  rw [tokens, lexemes]
  split
  · rfl
  · next h' => rw [h] at h'; cases h'

theorem tokens_of_gap_cons (h : (spanGap false cs).2 = c :: rest) :
    tokens cs = (spanToken c rest).1 :: tokens (spanToken c rest).2 := by
  rw [tokens, lexemes]
  split
  · next h' => rw [h] at h'; cases h'
  · next h' =>
    obtain ⟨rfl, rfl⟩ := List.cons.inj (h.symm.trans h')
    rfl

theorem exists_spanToken_of_mem (h : t ∈ tokens cs) :
    ∃ c rest, StartsToken c ∧ (spanToken c rest).1 = t := by
  induction hn : cs.length using Nat.strongRecOn generalizing cs with
  | ind n ih =>
    cases hgap : (spanGap false cs).2 with
    | nil => rw [tokens_of_gap_nil hgap] at h; cases h
    | cons c rest =>
      rw [tokens_of_gap_cons hgap, List.mem_cons] at h
      rcases h with rfl | h
      · exact ⟨c, rest, startsToken_of_spanGap hgap, rfl⟩
      · refine ih _ ?_ h rfl
        have hlen := congrArg List.length (spanGap_append false cs)
        have := length_spanToken c rest
        rw [hgap, List.length_append, List.length_cons] at hlen
        omega

/-! ### Reading a token back -/

/-- What follows a word does not run on from it. -/
def Token.EndsBefore (t : Token) (rest : List Char) : Prop :=
  t.isWordLike = true → ∀ d ∈ rest.head?, d = ' ' ∨ isPunctuator d = true

/-- The token is read off the front of every text that starts with its characters and does not run
on from them. -/
def Token.Reads (t : Token) : Prop :=
  ∃ c cs, t.text = c :: cs ∧ StartsToken c ∧ (t.kind = .punctuator → isPunctuator c = true) ∧
    ∀ rest, t.EndsBefore rest → spanToken c (cs ++ rest) = (t, rest)

theorem spanToken_of_ne (hdot : c ≠ '.') (hquote : c ≠ '"') : spanToken c cs =
    if isPunctuator c then (⟨.punctuator, [c]⟩, cs)
    else if endsWord (startsNumber c) c then (⟨.word, [c]⟩, cs)
    else (⟨.word, c :: cs.takeWhile (!endsWord (startsNumber c) ·)⟩,
      cs.dropWhile (!endsWord (startsNumber c) ·)) := by
  unfold spanToken
  split
  · exact absurd rfl hdot
  · exact absurd rfl hquote
  · exact absurd rfl hquote
  · simp [hdot]

theorem spanToken_string (h : ∀ cs', cs ≠ '"' :: '"' :: cs') :
    spanToken '"' cs = (⟨.string, '"' :: (spanString cs).1⟩, (spanString cs).2) := by
  unfold spanToken
  split
  · next heq => exact absurd heq (by decide)
  · next cs' _ => exact absurd rfl (h cs')
  · rfl
  · next hne _ _ => exact absurd rfl hne

/-- A lone dot, or three of them in a row. -/
theorem spanToken_dot (cs : List Char) :
    (spanToken '.' cs).1 = ⟨.punctuator, ['.']⟩ ∨
      (spanToken '.' cs).1 = ⟨.spread, ['.', '.', '.']⟩ := by
  unfold spanToken
  split
  · exact .inr rfl
  · next heq => exact absurd heq (by decide)
  · next heq _ => exact absurd heq (by decide)
  · exact .inl rfl

theorem reads_spread : Token.Reads ⟨.spread, ['.', '.', '.']⟩ :=
  ⟨'.', ['.', '.'], rfl, ⟨rfl, by decide⟩, nofun, fun _ _ => rfl⟩

theorem endsWord_of_follows (numeric : Bool) (h : c = ' ' ∨ isPunctuator c = true) :
    endsWord numeric c = true := by
  rcases h with rfl | h
  · rfl
  · simp [endsWord, h]

/-- Punctuators other than dots, and words. -/
theorem reads_of_ne (hstart : StartsToken c) (hdot : c ≠ '.') (hquote : c ≠ '"') :
    (spanToken c cs).1.Reads := by
  have hspan (cs) := @spanToken_of_ne c cs hdot hquote
  by_cases hpunct : isPunctuator c = true
  · rw [hspan, if_pos hpunct]
    refine ⟨c, [], rfl, hstart, fun _ => hpunct, fun rest _ => ?_⟩
    rw [hspan, if_pos hpunct, List.nil_append]
  by_cases hends : endsWord (startsNumber c) c = true
  · rw [hspan, if_neg hpunct, if_pos hends]
    refine ⟨c, [], rfl, hstart, nofun, fun rest _ => ?_⟩
    rw [hspan, if_neg hpunct, if_pos hends, List.nil_append]
  · rw [hspan, if_neg hpunct, if_neg hends]
    refine ⟨c, _, rfl, hstart, nofun, fun rest hrest => ?_⟩
    have hall : ∀ d ∈ cs.takeWhile (!endsWord (startsNumber c) ·),
        (!endsWord (startsNumber c) d) = true := fun d hd => by
      simpa using List.mem_takeWhile_imp hd
    have hstop : ∀ d ∈ rest.head?, (!endsWord (startsNumber c) d) = false := fun d hd => by
      rw [endsWord_of_follows _ (hrest rfl d hd), Bool.not_true]
    rw [hspan, if_neg hpunct, if_neg hends, List.takeWhile_append_of_pos hall,
      List.dropWhile_append_of_pos hall]
    cases rest with
    | nil => simp
    | cons d ds => simp [hstop d rfl]

/-- Whether a string, read after its opening quote, comes to a closing one. -/
def stringCloses : List Char → Bool
  | [] => false
  | '\\' :: _ :: cs => stringCloses cs
  | '"' :: _ => true
  | _ :: cs => stringCloses cs

theorem stringCloses_cons (hslash : c ≠ '\\') (hquote : c ≠ '"') :
    stringCloses (c :: cs) = stringCloses cs := by
  conv => lhs; unfold stringCloses
  split
  · next heq => cases heq
  · next heq => exact absurd (List.cons.inj heq).1 hslash
  · next heq => exact absurd (List.cons.inj heq).1 hquote
  · next heq => rw [(List.cons.inj heq).2]

theorem spanString_cons (hslash : c ≠ '\\') (hquote : c ≠ '"') (hterm : ¬ isTerminator c = true) :
    spanString (c :: cs) = (c :: (spanString cs).1, (spanString cs).2) := by
  conv => lhs; unfold spanString
  split
  · next heq => cases heq
  · next heq => exact absurd (List.cons.inj heq).1 hslash
  · next heq => exact absurd (List.cons.inj heq).1 hquote
  · next heq =>
    obtain ⟨rfl, rfl⟩ := List.cons.inj heq
    rw [if_neg hterm]

theorem spanString_of_closes (h : stringCloses (spanString cs).1 = true) (rest : List Char) :
    spanString ((spanString cs).1 ++ rest) = ((spanString cs).1, rest) := by
  fun_induction spanString cs with
  | case1 => cases h
  | case2 c cs body rest' hspan ih =>
    rw [hspan] at ih
    simp only [stringCloses] at h
    simp only [List.cons_append, spanString, ih h]
  | case3 cs => rfl
  | case4 => cases h
  | case5 c cs hescaped hquote hterm body rest' hspan ih =>
    rw [hspan] at ih
    -- a backslash that takes nothing along ends the text, and the string stays open
    have hslash : c ≠ '\\' := by
      rintro rfl
      cases cs with
      | nil => cases hspan; cases h
      | cons d cs => exact hescaped d cs rfl rfl
    rw [stringCloses_cons hslash hquote] at h
    simp only [List.cons_append, spanString_cons hslash hquote hterm, ih h]

theorem eq_of_spanString_eq_quote {body : List Char} (h : (spanString cs).1 = '"' :: body) :
    body = [] := by
  have happend := spanString_append cs
  rw [h, List.cons_append] at happend
  rw [← happend] at h
  exact ((List.cons.inj h).2).symm

theorem reads_string (h : stringCloses (spanString cs).1 = true) :
    Token.Reads ⟨.string, '"' :: (spanString cs).1⟩ := by
  refine ⟨'"', _, rfl, ⟨rfl, by decide⟩, nofun, fun rest hrest => ?_⟩
  rw [spanToken_string, spanString_of_closes h]
  intro cs' heq
  cases hbody : (spanString cs).1 with
  | nil => rw [hbody] at h; cases h
  | cons c body =>
    rw [hbody, List.cons_append] at heq
    obtain ⟨rfl, htail⟩ := List.cons.inj heq
    rw [eq_of_spanString_eq_quote hbody, List.nil_append] at htail
    -- an empty string right before a quote would open a block string
    rcases hrest rfl '"' (by rw [htail]; rfl) with hspace | hpunct
    · exact absurd hspace (by decide)
    · cases hpunct

/-! ### Clean tokens -/

/-- Neither a lone dot nor a string without a closing quote. -/
def Token.IsClean (t : Token) : Bool :=
  t != ⟨.punctuator, ['.']⟩ && (t.kind != .string || stringCloses t.text.tail)

theorem reads_of_isClean (hmem : t ∈ tokens cs) (h : t.IsClean = true)
    (hkind : t.kind ≠ .blockString) : t.Reads := by
  obtain ⟨c, rest, hstart, rfl⟩ := exists_spanToken_of_mem hmem
  simp only [Token.IsClean, Bool.and_eq_true, bne_iff_ne, Bool.or_eq_true] at h
  obtain ⟨hlone, hcloses⟩ := h
  by_cases hdot : c = '.'
  · subst hdot
    rcases spanToken_dot rest with hspan | hspan
    · exact absurd hspan hlone
    · rw [hspan]; exact reads_spread
  by_cases hquote : c = '"'
  · subst hquote
    have hne : ∀ cs', rest ≠ '"' :: '"' :: cs' := by
      rintro cs' rfl
      exact hkind rfl
    rw [spanToken_string hne] at hcloses ⊢
    exact reads_string (hcloses.resolve_left fun h => h rfl)
  exact reads_of_ne hstart hdot hquote

end GqlArtifacts.Graphql
