import GqlArtifacts.Proofs.Graphql.Stripped

/-!
# Space between tokens

Ignored text may be put in before the first token and behind every token that is closed: the tokens
stay as they are, and so does the stripped text (`strip_inserted`). What is put in starts with a
character that no token runs on into, and a token that has nothing put behind it still sees what it
saw before (`Token.Unmoved`).
-/

namespace GqlArtifacts.Graphql

variable {c d : Char} {cs rest rest' body filler : List Char} {t : Token} {l : Lexeme}
  {ls : List Lexeme} {edits : List (Nat × List Char)} {n m : Nat} {source : String}

/-! ### Ignored text -/

/-- Text that is ignored wherever a token may start: blanks, line terminators, commas, byte order
marks, and comments up to the end of their line. -/
inductive IsFiller : List Char → Prop
  | nil : IsFiller []
  | ignored {c : Char} {cs : List Char} (hc : isIgnored c = true) (h : IsFiller cs) :
    IsFiller (c :: cs)
  | comment {c : Char} {body cs : List Char} (hbody : ∀ d ∈ body, isTerminator d = false)
    (hc : isTerminator c = true) (h : IsFiller cs) : IsFiller ('#' :: (body ++ c :: cs))

theorem isIgnored_of_isTerminator (h : isTerminator c = true) : isIgnored c = true := by
  simp [isIgnored, h]

theorem spanGap_ignored (h : isIgnored c = true) (cs : List Char) :
    (spanGap false (c :: cs)).2 = (spanGap false cs).2 := by
  rw [spanGap, Bool.false_and, if_neg Bool.false_ne_true, if_pos h]

theorem spanGap_comment (hbody : ∀ d ∈ body, isTerminator d = false) (hc : isTerminator c = true)
    (cs : List Char) : (spanGap true (body ++ c :: cs)).2 = (spanGap false cs).2 := by
  induction body with
  | nil => simp [spanGap, hc, isIgnored_of_isTerminator hc]
  | cons d body ih =>
    have hd : isTerminator d = false := hbody d (List.mem_cons_self ..)
    rw [List.cons_append, spanGap, Bool.true_and, hd, Bool.not_false, if_pos rfl]
    exact ih fun d hd => hbody d (List.mem_cons_of_mem _ hd)

namespace IsFiller

theorem spanGap_append (h : IsFiller filler) (cs : List Char) :
    (spanGap false (filler ++ cs)).2 = (spanGap false cs).2 := by
  induction h with
  | nil => rfl
  | ignored hc _ ih => rw [List.cons_append, spanGap_ignored hc, ih]
  | comment hbody hc _ ih =>
    have hhash (cs : List Char) : (spanGap false ('#' :: cs)).2 = (spanGap true cs).2 := rfl
    rw [List.cons_append, hhash, List.append_assoc, List.cons_append, spanGap_comment hbody hc, ih]

theorem append (h : IsFiller filler) (hrest : IsFiller rest) : IsFiller (filler ++ rest) := by
  induction h with
  | nil => exact hrest
  | ignored hc _ ih => exact .ignored hc ih
  | comment hbody hc _ ih =>
    rw [List.cons_append, List.append_assoc, List.cons_append]
    exact .comment hbody hc ih

theorem not_startsToken (h : IsFiller filler) (hc : c ∈ filler.head?) : ¬StartsToken c := by
  rintro ⟨hignored, hhash⟩
  cases h with
  | nil => cases hc
  | ignored hd _ =>
    obtain rfl := Option.some.inj hc
    rw [hd] at hignored
    cases hignored
  | comment _ _ _ => exact hhash (Option.some.inj hc).symm

end IsFiller

theorem endsWord_of_not_startsToken (numeric : Bool) (h : ¬StartsToken c) :
    endsWord numeric c = true := by
  by_cases hhash : c = '#'
  · subst hhash
    rfl
  · have hignored : isIgnored c = true := by
      rw [← Bool.not_eq_false]
      exact fun hfalse => h ⟨hfalse, hhash⟩
    simp only [isIgnored, isTerminator, Bool.or_eq_true, beq_iff_eq] at hignored
    rcases hignored with (((rfl | rfl) | rfl) | rfl | rfl) | rfl <;> rfl

/-- The gap before a token is found again whatever the token is. -/
theorem spanGap_gap {comment : Bool} (h : (spanGap comment cs).2 = c :: rest) (rest' : List Char) :
    (spanGap comment ((spanGap comment cs).1 ++ c :: rest')).2 = c :: rest' := by
  fun_induction spanGap comment cs with
  | case1 => cases h
  | case2 comment d cs hcomment gap rest'' hspan ih =>
    rw [hspan] at ih
    rw [List.cons_append, spanGap, if_pos hcomment]
    exact ih h
  | case3 comment d cs hcomment hignored gap rest'' hspan ih =>
    rw [hspan] at ih
    rw [List.cons_append, spanGap, if_neg hcomment, if_pos hignored]
    exact ih h
  | case4 comment d cs hcomment hignored hhash gap rest'' hspan ih =>
    rw [hspan] at ih
    rw [List.cons_append, spanGap, if_neg hcomment, if_neg hignored, if_pos hhash]
    exact ih h
  | case5 comment d cs hcomment hignored hhash =>
    obtain ⟨rfl, -⟩ := List.cons.inj h
    rw [List.nil_append, spanGap, if_neg hcomment, if_neg hignored, if_neg hhash]

/-! ### Closed tokens -/

/-- Whether a block string, read after its opening quotes, comes to closing ones. -/
def blockCloses : List Char → Bool
  | [] => false
  | '\\' :: '"' :: '"' :: '"' :: cs => blockCloses cs
  | '"' :: '"' :: '"' :: _ => true
  | _ :: cs => blockCloses cs

/-- Neither a string nor a block string without its closing quotes. -/
def Token.IsClosed (t : Token) : Bool :=
  match t.kind with
  | .string => stringCloses t.text.tail
  | .blockString => blockCloses (t.text.drop 3)
  | _ => true

/-- Neither the closing quotes nor a backslash that escapes them starts the text `c :: cs`. -/
structure Passes (c : Char) (cs : List Char) : Prop where
  slash : c = '\\' → ¬quotes <+: cs
  quotes : ¬quotes <+: c :: cs

namespace Passes

theorem of_forall (hslash : ∀ cs', c = '\\' → cs = '"' :: '"' :: '"' :: cs' → False)
    (hquotes : ∀ cs', c = '"' → cs = '"' :: '"' :: cs' → False) : Passes c cs := by
  constructor
  · rintro rfl ⟨cs', rfl⟩
    exact hslash cs' rfl rfl
  · rintro ⟨cs', heq⟩
    obtain ⟨rfl, rfl⟩ := List.cons.inj heq
    exact hquotes cs' rfl rfl

theorem prefix_left (hbody : 3 ≤ body.length ∨ rest = []) (h : Graphql.quotes <+: body ++ rest) :
    Graphql.quotes <+: body := by
  rcases hbody with hlen | rfl
  · exact List.prefix_of_prefix_length_le h (List.prefix_append _ _) hlen
  · rwa [List.append_nil] at h

theorem shorten (h : Passes c cs) (hbody : body <+: cs) : Passes c body :=
  ⟨fun hc hp => h.slash hc (hp.trans hbody),
    fun hp => h.quotes (hp.trans (List.cons_prefix_cons.2 ⟨rfl, hbody⟩))⟩

theorem append (h : Passes c body) (hbody : 3 ≤ body.length ∨ rest = []) : Passes c (body ++ rest) := by
  refine ⟨fun hc hp => h.slash hc (prefix_left hbody hp), fun hp => h.quotes ?_⟩
  rw [← List.cons_append] at hp
  refine prefix_left (hbody.imp_left fun hlen => ?_) hp
  simp only [List.length_cons]
  omega

theorem spanBlock_eq (h : Passes c cs) :
    spanBlock (c :: cs) = (c :: (spanBlock cs).1, (spanBlock cs).2) :=
  spanBlock_cons h.slash h.quotes

theorem blockCloses_eq (h : Passes c cs) : blockCloses (c :: cs) = blockCloses cs := by
  rw [blockCloses]
  · rintro cs' rfl rfl
    exact h.slash rfl ⟨cs', rfl⟩
  · rintro cs' rfl rfl
    exact h.quotes ⟨cs', rfl⟩

end Passes

theorem three_le_length_of_blockCloses (h : blockCloses cs = true) : 3 ≤ cs.length := by
  fun_induction blockCloses cs with
  | case1 => cases h
  | case2 cs ih =>
    have := ih h
    simp only [List.length_cons]
    omega
  | case3 cs => simp
  | case4 c cs _ _ ih =>
    have := ih h
    simp only [List.length_cons]
    omega

theorem spanBlock_isPrefix (cs : List Char) : (spanBlock cs).1 <+: cs :=
  ⟨(spanBlock cs).2, spanBlock_append cs⟩

/-- Without closing quotes a block string takes all there is. -/
theorem blockCloses_or_rest_eq_nil (cs : List Char) :
    blockCloses (spanBlock cs).1 = true ∨ (spanBlock cs).2 = [] := by
  fun_induction spanBlock cs with
  | case1 => exact .inr rfl
  | case2 cs body rest hspan ih => rwa [hspan] at ih
  | case3 cs => exact .inl rfl
  | case4 c cs hslash hquotes body rest hspan ih =>
    have hpasses := (Passes.of_forall hslash hquotes).shorten (spanBlock_isPrefix cs)
    rw [hspan] at ih hpasses
    rwa [hpasses.blockCloses_eq]

/-- A block string is read again if it is closed, and otherwise if nothing follows it. -/
theorem spanBlock_append_of (h : blockCloses (spanBlock cs).1 = true ∨ rest = []) :
    spanBlock ((spanBlock cs).1 ++ rest) = ((spanBlock cs).1, rest) := by
  fun_induction spanBlock cs with
  | case1 =>
    rcases h with h | rfl
    · cases h
    · rfl
  | case2 cs body rest' hspan ih =>
    rw [hspan] at ih
    simp only [List.cons_append, spanBlock, ih h]
  | case3 cs => rfl
  | case4 c cs hslash hquotes body rest' hspan ih =>
    have hpasses := (Passes.of_forall hslash hquotes).shorten (spanBlock_isPrefix cs)
    rw [hspan] at ih hpasses
    rw [hpasses.blockCloses_eq] at h
    have happend := hpasses.append (h.imp_left three_le_length_of_blockCloses)
    rw [List.cons_append, happend.spanBlock_eq, ih h]

/-- A string is read again if the same character follows it, as it did before. -/
theorem spanString_append_of (h : rest.head? = (spanString cs).2.head?) :
    spanString ((spanString cs).1 ++ rest) = ((spanString cs).1, rest) := by
  fun_induction spanString cs with
  | case1 =>
    rw [List.head?_eq_none_iff.1 h]
    rfl
  | case2 c cs body rest' hspan ih =>
    rw [hspan] at ih
    simp only [List.cons_append, spanString, ih h]
  | case3 cs => rfl
  | case4 c cs hescaped hquote hterm =>
    obtain ⟨cs', rfl⟩ := List.head?_eq_some_iff.1 h
    have hslash : c ≠ '\\' := by
      rintro rfl
      cases hterm
    rw [List.nil_append, spanString, if_pos hterm]
    · rintro d ds rfl
      exact absurd rfl hslash
    · rintro rfl
      exact hquote rfl
  | case5 c cs hescaped hquote hterm body rest' hspan ih =>
    rw [hspan] at ih
    by_cases hslash : c = '\\'
    · -- a backslash that takes nothing along is the last character
      subst hslash
      cases cs with
      | nil =>
        cases hspan
        rw [List.head?_eq_none_iff.1 h]
        rfl
      | cons d cs => exact absurd rfl (hescaped d cs rfl)
    · simp only [List.cons_append, spanString_cons hslash hquote hterm, ih h]

theorem cons_tail_spanToken (c : Char) (cs : List Char) :
    c :: (spanToken c cs).1.text.tail = (spanToken c cs).1.text := by
  have happend := spanToken_append c cs
  obtain ⟨d, ds, hds⟩ := List.exists_cons_of_ne_nil (spanToken_text_ne_nil c cs)
  rw [hds, List.cons_append] at happend
  rw [hds, List.tail_cons, (List.cons.inj happend).1]

theorem spanToken_lone (h : ¬['.', '.'] <+: cs) :
    spanToken '.' cs = (⟨.punctuator, ['.']⟩, cs) := by
  unfold spanToken
  split
  · next rest _ => exact absurd ⟨rest, rfl⟩ h
  · next heq => exact absurd heq (by decide)
  · next heq _ => exact absurd heq (by decide)
  · rfl

/-- What is put behind a token leaves it as it is: either it begins as before, or the token is closed
and it begins with ignored text. No dots come next to each other that did not. -/
structure Token.Unmoved (t : Token) (rest rest' : List Char) : Prop where
  head : rest'.head? = rest.head? ∨ t.IsClosed = true ∧ ∀ d ∈ rest'.head?, ¬StartsToken d
  dots : ['.', '.'] <+: rest' → ['.', '.'] <+: rest

namespace Token.Unmoved

theorem block (h : Unmoved ⟨.blockString, '"' :: '"' :: '"' :: (spanBlock cs).1⟩ (spanBlock cs).2 rest) :
    spanBlock ((spanBlock cs).1 ++ rest) = ((spanBlock cs).1, rest) := by
  rcases blockCloses_or_rest_eq_nil cs with hclosed | hnil
  · exact spanBlock_append_of (.inl hclosed)
  · rcases h.head with hhead | ⟨hclosed, -⟩
    · rw [hnil] at hhead
      exact spanBlock_append_of (.inr (List.head?_eq_none_iff.1 hhead))
    · exact spanBlock_append_of (.inl hclosed)

theorem string (h : Unmoved ⟨.string, '"' :: (spanString cs).1⟩ (spanString cs).2 rest) :
    spanString ((spanString cs).1 ++ rest) = ((spanString cs).1, rest) := by
  rcases h.head with hhead | ⟨hclosed, -⟩
  · exact spanString_append_of hhead
  · exact spanString_of_closes hclosed rest

/-- A string does not become a block string. -/
theorem string_ne (h : Unmoved ⟨.string, '"' :: (spanString cs).1⟩ (spanString cs).2 rest)
    (hne : ∀ cs', cs ≠ '"' :: '"' :: cs') (cs' : List Char) :
    (spanString cs).1 ++ rest ≠ '"' :: '"' :: cs' := by
  intro heq
  have hcs := spanString_append cs
  cases hbody : (spanString cs).1 with
  | nil =>
    rw [hbody] at heq hcs
    rcases h.head with hhead | ⟨hclosed, -⟩
    · rw [show rest = _ from heq, show (spanString cs).2 = cs from hcs] at hhead
      obtain ⟨cs'', rfl⟩ := List.head?_eq_some_iff.1 hhead.symm
      cases hbody
    · change stringCloses (spanString cs).1 = true at hclosed
      rw [hbody] at hclosed
      cases hclosed
  | cons c body =>
    rw [hbody, List.cons_append] at heq
    obtain ⟨rfl, hrest⟩ := List.cons.inj heq
    rw [eq_of_spanString_eq_quote hbody] at hrest hbody
    rw [hbody] at hcs
    rcases h.head with hhead | ⟨-, hhead⟩
    · rw [show rest = _ from hrest] at hhead
      obtain ⟨cs'', hrest'⟩ := List.head?_eq_some_iff.1 hhead.symm
      exact hne cs'' (by rw [← hcs, hrest']; rfl)
    · exact hhead '"' (by rw [show rest = _ from hrest]; rfl) ⟨rfl, by decide⟩

theorem endsWord_head {numeric : Bool} (h : t.Unmoved (cs.dropWhile (!endsWord numeric ·)) rest) :
    ∀ d ∈ rest.head?, endsWord numeric d = true := by
  intro d hd
  rcases h.head with hhead | ⟨-, hhead⟩
  · have hstop := List.head?_dropWhile_not (!endsWord numeric ·) cs
    rw [← hhead, Option.mem_def.1 hd] at hstop
    simpa using hstop
  · exact endsWord_of_not_startsToken numeric (hhead d hd)

end Token.Unmoved

/-- A token is read again before what leaves it as it is. -/
theorem spanToken_of_unmoved (h : (spanToken c cs).1.Unmoved (spanToken c cs).2 rest) :
    spanToken c ((spanToken c cs).1.text.tail ++ rest) = ((spanToken c cs).1, rest) := by
  by_cases hdot : c = '.'
  · subst hdot
    by_cases hdots : ['.', '.'] <+: cs
    · obtain ⟨cs', rfl⟩ := hdots
      rfl
    · rw [spanToken_lone hdots] at h ⊢
      exact spanToken_lone (mt h.dots hdots)
  by_cases hquote : c = '"'
  · subst hquote
    by_cases hblock : ∃ cs', cs = '"' :: '"' :: cs'
    · obtain ⟨cs', rfl⟩ := hblock
      rw [spanToken_block] at h ⊢
      show spanToken '"' ('"' :: '"' :: ((spanBlock cs').1 ++ rest)) = _
      rw [spanToken_block, h.block]
    · have hne : ∀ cs', cs ≠ '"' :: '"' :: cs' := fun cs' heq => hblock ⟨cs', heq⟩
      rw [spanToken_string hne] at h ⊢
      show spanToken '"' ((spanString cs).1 ++ rest) = _
      rw [spanToken_string (h.string_ne hne), h.string]
  · have hspan (cs : List Char) := @spanToken_of_ne c cs hdot hquote
    have hhere := hspan cs
    by_cases hpunct : isPunctuator c = true
    · rw [if_pos hpunct] at hhere
      rw [hhere]
      exact (hspan rest).trans (if_pos hpunct)
    by_cases hends : endsWord (startsNumber c) c = true
    · rw [if_neg hpunct, if_pos hends] at hhere
      rw [hhere]
      exact (hspan rest).trans ((if_neg hpunct).trans (if_pos hends))
    · rw [if_neg hpunct, if_neg hends] at hhere
      rw [hhere] at h ⊢
      have hstop := h.endsWord_head
      have hall : ∀ d ∈ cs.takeWhile (!endsWord (startsNumber c) ·),
          (!endsWord (startsNumber c) d) = true := fun d hd => by
        simpa using List.mem_takeWhile_imp hd
      rw [List.tail_cons, hspan, if_neg hpunct, if_neg hends, List.takeWhile_append_of_pos hall,
        List.dropWhile_append_of_pos hall]
      cases rest with
      | nil => simp
      | cons d ds => simp [hstop d rfl]

/-! ### Putting text in -/

/-- What the edits put in at a place, in their order. -/
def insertedAt (edits : List (Nat × List Char)) (n : Nat) : List Char :=
  (edits.filter fun e => e.1 = n).flatMap Prod.snd

/-- The text with the edits made; it starts at place `n`. -/
def insertFrom (edits : List (Nat × List Char)) : Nat → List Char → List Char
  | n, [] => insertedAt edits n
  | n, c :: cs => insertedAt edits n ++ c :: insertFrom edits (n + 1) cs

/-- The ends of the closed tokens of a text that starts at place `n`. -/
def endsFrom : Nat → List Lexeme → List Nat
  | _, [] => []
  | n, l :: ls =>
    let finish := n + (l.gap.length + l.token.text.length)
    if l.token.IsClosed then finish :: endsFrom finish ls else endsFrom finish ls

/-- The places where text may be put in: the start, and the end of every closed token. -/
def boundaries (cs : List Char) : List Nat := 0 :: endsFrom 0 (lexemes cs).1

theorem isFiller_insertedAt (h : ∀ e ∈ edits, IsFiller e.2) (n : Nat) :
    IsFiller (insertedAt edits n) := by
  rw [insertedAt]
  induction edits with
  | nil => exact .nil
  | cons e edits ih =>
    obtain ⟨he, hedits⟩ := List.forall_mem_cons.1 h
    rw [List.filter_cons]
    split
    · exact he.append (ih hedits)
    · exact ih hedits

theorem exists_edit_of_insertedAt (h : insertedAt edits n ≠ []) : ∃ e ∈ edits, e.1 = n := by
  by_contra hnone
  refine h ?_
  have hfilter : edits.filter (fun e => e.1 = n) = [] :=
    List.filter_eq_nil_iff.2 fun e he heq => hnone ⟨e, he, by simpa using heq⟩
  rw [insertedAt, hfilter, List.flatMap_nil]

/-- Nothing is put in between the characters of `cs`. -/
theorem insertFrom_append (hne : cs ≠ [])
    (h : ∀ m, n < m → m < n + cs.length → insertedAt edits m = []) (rest : List Char) :
    insertFrom edits n (cs ++ rest) =
      insertedAt edits n ++ (cs ++ insertFrom edits (n + cs.length) rest) := by
  induction cs generalizing n with
  | nil => exact absurd rfl hne
  | cons c cs ih =>
    rw [List.cons_append, insertFrom, List.cons_append]
    cases cs with
    | nil => rfl
    | cons d ds =>
      have hlen : n + 1 + (d :: ds).length = n + (c :: d :: ds).length := by
        simp only [List.length_cons]
        omega
      rw [ih (List.cons_ne_nil d ds) fun m hm hm' => h m (by omega) (by omega),
        h (n + 1) (by omega) (by simp only [List.length_cons]; omega), List.nil_append, hlen]

theorem mem_endsFrom_cons : m ∈ endsFrom n (l :: ls) ↔
    m = n + (l.gap.length + l.token.text.length) ∧ l.token.IsClosed = true ∨
      m ∈ endsFrom (n + (l.gap.length + l.token.text.length)) ls := by
  rw [endsFrom]
  split <;> simp_all

theorem lt_of_mem_endsFrom (hls : ∀ l ∈ ls, l.token.text ≠ []) (h : m ∈ endsFrom n ls) : n < m := by
  induction ls generalizing n with
  | nil => cases h
  | cons l ls ih =>
    obtain ⟨hl, hls⟩ := List.forall_mem_cons.1 hls
    have hpos := List.length_pos_iff.2 hl
    rcases mem_endsFrom_cons.1 h with ⟨rfl, -⟩ | h
    · omega
    · have := ih hls h
      omega

theorem insertFrom_of_clear (h : ∀ m, n < m → insertedAt edits m = []) :
    insertFrom edits n cs = insertedAt edits n ++ cs := by
  induction cs generalizing n with
  | nil => rw [insertFrom, List.append_nil]
  | cons c cs ih =>
    rw [insertFrom, ih fun m hm => h m (by omega), h (n + 1) (by omega), List.nil_append]

theorem lexemes_of_gap_nil (h : (spanGap false cs).2 = []) :
    lexemes cs = ([], (spanGap false cs).1) := by
  rw [lexemes]
  split
  · rfl
  · next h' => rw [h] at h'; cases h'

theorem lexemes_of_gap_cons (h : (spanGap false cs).2 = c :: rest) :
    lexemes cs = (⟨(spanGap false cs).1, (spanToken c rest).1⟩ :: (lexemes (spanToken c rest).2).1,
      (lexemes (spanToken c rest).2).2) := by
  rw [lexemes]
  split
  · next h' => rw [h] at h'; cases h'
  · next h' =>
    obtain ⟨rfl, rfl⟩ := List.cons.inj (h.symm.trans h')
    rfl

theorem text_ne_nil_of_mem (h : l ∈ (lexemes cs).1) : l.token.text ≠ [] := by
  obtain ⟨c, rest, -, heq⟩ := exists_spanToken_of_mem (List.mem_map_of_mem h)
  rw [← heq]
  exact spanToken_text_ne_nil c rest

/-- A character that starts a token has not been put in. -/
theorem head?_insertFrom (hfill : ∀ n, IsFiller (insertedAt edits n)) (hd : StartsToken d)
    (h : (insertFrom edits n cs).head? = some d) : insertedAt edits n = [] ∧ cs.head? = some d := by
  by_cases hnil : insertedAt edits n = []
  · cases cs with
    | nil => rw [insertFrom, hnil] at h; cases h
    | cons c cs => rw [insertFrom, hnil] at h; exact ⟨hnil, h⟩
  · have hhead : (insertFrom edits n cs).head? = (insertedAt edits n).head? := by
      obtain ⟨e, es, hes⟩ := List.exists_cons_of_ne_nil hnil
      cases cs <;> simp [insertFrom, hes]
    rw [hhead] at h
    exact absurd hd ((hfill n).not_startsToken h)

theorem unmoved_insertFrom (hfill : ∀ n, IsFiller (insertedAt edits n))
    (hclosed : insertedAt edits n ≠ [] → t.IsClosed = true) :
    t.Unmoved cs (insertFrom edits n cs) := by
  have hdot : StartsToken '.' := ⟨rfl, by decide⟩
  constructor
  · by_cases hnil : insertedAt edits n = []
    · left
      cases cs <;> simp [insertFrom, hnil]
    · refine .inr ⟨hclosed hnil, fun d hd hstart => ?_⟩
      exact hnil (head?_insertFrom hfill hstart hd).1
  · rintro ⟨more, hmore⟩
    have hhead : (insertFrom edits n cs).head? = some '.' := by rw [← hmore]; rfl
    obtain ⟨hnil, hcs⟩ := head?_insertFrom hfill hdot hhead
    obtain ⟨cs', rfl⟩ := List.head?_eq_some_iff.1 hcs
    rw [insertFrom, hnil] at hmore
    have hhead' : (insertFrom edits (n + 1) cs').head? = some '.' := by
      rw [← (List.cons.inj hmore).2]
      rfl
    obtain ⟨cs'', rfl⟩ := List.head?_eq_some_iff.1 (head?_insertFrom hfill hdot hhead').2
    exact ⟨cs'', rfl⟩

/-- Each token is read as before, from where the one before it has ended. -/
theorem tokens_insertFrom (hfill : ∀ n, IsFiller (insertedAt edits n))
    (h : ∀ m, n < m → insertedAt edits m ≠ [] → m ∈ endsFrom n (lexemes cs).1) :
    tokens (insertFrom edits n cs) = tokens cs := by
  induction hn : cs.length using Nat.strongRecOn generalizing cs n with
  | ind len ih =>
    subst hn
    cases hgap : (spanGap false cs).2 with
    | nil =>
      rw [lexemes_of_gap_nil hgap] at h
      have hclear : ∀ m, n < m → insertedAt edits m = [] := fun m hm => by
        by_contra hne
        cases h m hm hne
      rw [insertFrom_of_clear hclear, tokens_of_gap_nil hgap]
      exact tokens_of_gap_nil (((hfill n).spanGap_append cs).trans hgap)
    | cons c rest =>
      have hcs := spanGap_append false cs
      have htext := spanToken_append c rest
      have hpos := List.length_pos_iff.2 (spanToken_text_ne_nil c rest)
      have hlen := length_spanToken c rest
      rw [lexemes_of_gap_cons hgap] at h
      rw [hgap] at hcs
      generalize hgapText : (spanGap false cs).1 = gap at h hcs
      generalize hfinish : n + (gap.length + (spanToken c rest).1.text.length) = finish
      have hends : ∀ m, n < m → insertedAt edits m ≠ [] →
          m = finish ∧ (spanToken c rest).1.IsClosed = true ∨
            m ∈ endsFrom finish (lexemes (spanToken c rest).2).1 ∧ finish < m := by
        intro m hm hne
        have hmem := h m hm hne
        rw [mem_endsFrom_cons, hfinish] at hmem
        exact hmem.imp_right fun hmem =>
          ⟨hmem, lt_of_mem_endsFrom (fun l hl => text_ne_nil_of_mem hl) hmem⟩
      have hclear : ∀ m, n < m → m < finish → insertedAt edits m = [] := fun m hm hm' => by
        by_contra hne
        have := hends m hm hne
        omega
      have hclosed : insertedAt edits finish ≠ [] → (spanToken c rest).1.IsClosed = true := by
        intro hne
        rcases hends finish (by omega) hne with ⟨-, hclosed⟩ | ⟨-, hlt⟩
        · exact hclosed
        · omega
      have hrest : tokens (insertFrom edits finish (spanToken c rest).2) =
          tokens (spanToken c rest).2 := by
        refine ih _ ?_ (fun m hm hne => ?_) rfl
        · rw [← hcs, List.length_append, List.length_cons]
          omega
        · rcases hends m (by omega) hne with ⟨rfl, -⟩ | ⟨hmem, -⟩
          · omega
          · exact hmem
      have hinsert : insertFrom edits n cs = insertedAt edits n ++ (gap ++ c ::
          ((spanToken c rest).1.text.tail ++ insertFrom edits finish (spanToken c rest).2)) := by
        have hwhole : (gap ++ (spanToken c rest).1.text) ++ (spanToken c rest).2 = cs := by
          rw [List.append_assoc, htext, hcs]
        have hlength : n + (gap ++ (spanToken c rest).1.text).length = finish := by
          rw [List.length_append, hfinish]
        have hne : gap ++ (spanToken c rest).1.text ≠ [] := fun heq =>
          spanToken_text_ne_nil c rest (List.append_eq_nil_iff.1 heq).2
        rw [← hwhole, insertFrom_append hne (by rwa [hlength]), hlength, List.append_assoc,
          ← List.cons_append, cons_tail_spanToken]
      have hgap' : (spanGap false (insertFrom edits n cs)).2 = c ::
          ((spanToken c rest).1.text.tail ++ insertFrom edits finish (spanToken c rest).2) := by
        rw [hinsert, (hfill n).spanGap_append, ← hgapText, spanGap_gap hgap]
      rw [tokens_of_gap_cons hgap', tokens_of_gap_cons hgap,
        spanToken_of_unmoved (unmoved_insertFrom hfill hclosed), hrest]

/-- Putting ignored text in at the start or behind closed tokens changes no token, and so nothing of
the stripped text. -/
theorem strip_inserted
    (h : ∀ e ∈ edits, e.1 ∈ boundaries source.toList ∧ IsFiller e.2) :
    tokens (insertFrom edits 0 source.toList) = tokens source.toList ∧
      strip (String.ofList (insertFrom edits 0 source.toList)) = strip source := by
  have hfill : ∀ n, IsFiller (insertedAt edits n) :=
    isFiller_insertedAt fun e he => (h e he).2
  have htokens : tokens (insertFrom edits 0 source.toList) = tokens source.toList := by
    refine tokens_insertFrom hfill fun m hm hne => ?_
    obtain ⟨e, he, rfl⟩ := exists_edit_of_insertedAt hne
    exact (List.mem_cons.1 (h e he).1).resolve_left (by omega)
  refine ⟨htokens, ?_⟩
  rw [strip, strip, Text.chars_eq, Text.chars_eq, String.toList_ofList, stripChars, stripChars, htokens]

namespace Sample

/-- A number before a closing bracket, a spread before its name, and strings of both kinds. -/
def dense : String := "\x7ba(n:-1.5)...F\"s\"\"\"\"b\"\"\"\x7d"

/-- Text behind the number, the spread and both strings, and a comment at the start. -/
def insertions : List (Nat × List Char) :=
  [(9, [',', ' ']), (13, ['\r', '\n']), (0, ['#', '"', '\n']), (17, ['\t']), (24, ['#', '\r']),
    (0, [' '])]

end Sample

set_option maxRecDepth 10000 in
theorem strip_inserted_sample :
    (∀ e ∈ Sample.insertions, e.1 ∈ boundaries Sample.dense.toList ∧ IsFiller e.2) ∧
      insertFrom Sample.insertions 0 Sample.dense.toList =
        "#\"\n \x7ba(n:-1.5, )...\r\nF\"s\"\t\"\"\"b\"\"\"#\r\x7d".toList ∧
      strip "#\"\n \x7ba(n:-1.5, )...\r\nF\"s\"\t\"\"\"b\"\"\"#\r\x7d" = strip Sample.dense := by
  have hplaces : ∀ e ∈ Sample.insertions, e.1 ∈ boundaries Sample.dense.toList := by decide +kernel
  have hfill : ∀ e ∈ Sample.insertions, IsFiller e.2 := by
    have hcomment : IsFiller ('#' :: (['"'] ++ '\n' :: [])) := .comment (by simp [isTerminator]) rfl .nil
    have hempty : IsFiller ('#' :: ([] ++ '\r' :: [])) := .comment (by simp) rfl .nil
    have hblank {c : Char} (hc : isIgnored c = true) : IsFiller [c] := .ignored hc .nil
    intro e he
    simp only [Sample.insertions, List.mem_cons, List.not_mem_nil, or_false] at he
    rcases he with rfl | rfl | rfl | rfl | rfl | rfl
    · exact .ignored rfl (hblank rfl)
    · exact .ignored rfl (hblank rfl)
    · exact hcomment
    · exact hblank rfl
    · exact hempty
    · exact hblank rfl
  have htext : insertFrom Sample.insertions 0 Sample.dense.toList =
      "#\"\n \x7ba(n:-1.5, )...\r\nF\"s\"\t\"\"\"b\"\"\"#\r\x7d".toList := by decide +kernel
  have hedits := fun e he => And.intro (hplaces e he) (hfill e he)
  have hstrip := (strip_inserted hedits).2
  rw [htext, String.ofList_toList] at hstrip
  exact ⟨hedits, htext, hstrip⟩

end GqlArtifacts.Graphql
