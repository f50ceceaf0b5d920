import GqlArtifacts.Json.Printer
import GqlArtifacts.Json.Reader
import GqlArtifacts.Proofs.Text.Bytes

/-!
# Reading what was printed

`parse?_pretty`: the indented text of a value without numbers reads back as that value. The proof
goes through the tokens of the value: `tokens?_prettyChars` cuts the text into them whatever stands
after it, and `foldlM_tokens` lets the reader put them together inside any open frames.
-/

namespace GqlArtifacts.Json

mutual

/-- Neither a number nor something unreadable is in the value. -/
def plain : Json → Bool
  | int _ => false
  | float _ => false
  | unreadable => false
  | array items => plainItems items
  | object fields => plainFields fields
  | _ => true

def plainItems : List Json → Bool
  | [] => true
  | v :: vs => plain v && plainItems vs

def plainFields : List (String × Json) → Bool
  | [] => true
  | (_, v) :: rest => plain v && plainFields rest

end

mutual

/-- The tokens that a text of the value is made of. -/
def tokens : Json → List Token
  | array items => .openArray :: (itemTokens items ++ [.closeArray])
  | object fields => .openObject :: (fieldTokens fields ++ [.closeObject])
  | v => [.scalar v]

def itemTokens : List Json → List Token
  | [] => []
  | [v] => tokens v
  | v :: vs => tokens v ++ .comma :: itemTokens vs

def fieldTokens : List (String × Json) → List Token
  | [] => []
  | [(k, v)] => .scalar (.string k) :: .colon :: tokens v
  | (k, v) :: rest => .scalar (.string k) :: .colon :: (tokens v ++ .comma :: fieldTokens rest)

end

/-! ### Strings -/

theorem unit?_hexDigit : ∀ n < 32, unit? '0' '0' (hexDigit (n / 16)) (hexDigit (n % 16)) = some n := by
  decide

theorem readString?_escapeChar (c : Char) (cs : Symbols) :
    readString? ((escapeChar c).map some ++ cs) =
      (readString? cs).map fun (s, r) => (some c :: s, r) := by
  fun_cases escapeChar c with
  | case8 h1 h2 h3 h4 h5 h6 h7 h8 =>
    have hu := unit?_hexDigit c.toNat h8
    have hhi : isHighSurrogate c.toNat = false := by
      simp only [isHighSurrogate, Bool.and_eq_false_iff, decide_eq_false_iff_not]; omega
    have hlo : isLowSurrogate c.toNat = false := by
      simp only [isLowSurrogate, Bool.and_eq_false_iff, decide_eq_false_iff_not]; omega
    have he : readEscape? (some 'u' :: some '0' :: some '0' :: some (hexDigit (c.toNat / 16)) ::
        some (hexDigit (c.toNat % 16)) :: cs) = some (some c, cs) := by
      simp only [readEscape?, readUnit?, hu, Option.map_some, hhi, hlo, Bool.false_eq_true,
        ↓reduceIte, Char.ofNat_toNat]
    simp only [List.map_cons, List.map_nil, List.cons_append, List.nil_append]
    rw [readString?]
    split
    · next h => rw [he] at h; cases h
    · next h => rw [he] at h; cases h; rfl
  | case9 h1 h2 h3 h4 h5 h6 h7 h8 =>
    rw [List.map_cons, List.map_nil, List.cons_append, List.nil_append]
    rw [readString?.eq_def]
    split
    · next h => cases h
    · next h => cases h
    · next h => cases h; exact absurd rfl h1
    · next h => cases h; exact absurd rfl h2
    · next h => cases h; rw [if_neg h8]
  | _ =>
    rename_i hc
    subst hc
    rw [List.map_cons, List.map_cons, List.map_nil, List.cons_append, List.cons_append,
      List.nil_append, readString?]
    rfl

theorem readString?_quoted (cs : List Char) (rest : Symbols) :
    readString? ((cs.flatMap escapeChar).map some ++ some '"' :: rest) =
      some (cs.map some, rest) := by
  induction cs with
  | nil => rw [List.flatMap_nil, List.map_nil, List.nil_append, readString?]
  | cons c cs ih =>
    rw [List.flatMap_cons, List.map_append, List.append_assoc, readString?_escapeChar, ih]
    rfl

/-- Reading item by item what was written item by item. -/
theorem mapM_map_eq_some {α β : Type} {f : β → Option α} {g : α → β} (h : ∀ a, f (g a) = some a)
    (l : List α) : (l.map g).mapM f = some l := by
  induction l with
  | nil => rfl
  | cons a l ih =>
    rw [List.map_cons, List.mapM_cons, h, ih]
    rfl

theorem stringOf_map_some (cs : List Char) :
    stringOf (cs.map some) = string (String.ofList cs) := by
  rw [stringOf, mapM_map_eq_some]
  exact fun _ => rfl

theorem readToken?_quote (s : String) (rest : List Char) :
    readToken? ((quote s ++ rest).map some) = some (.scalar (.string s), rest.map some) := by
  simp only [quote, Text.chars_eq, quoteChars, List.cons_append, List.append_assoc, List.nil_append,
    List.map_cons, List.map_append, readToken?, readString?_quoted, Option.map_some,
    stringOf_map_some, String.ofList_toList]

/-! ### From text to tokens -/

theorem tokens?_cons_of_isBlank {c : Char} {cs : Symbols} (h : isBlank c) :
    tokens? (some c :: cs) = tokens? cs := by
  rw [tokens?, if_pos h]

theorem tokens?_cons {c : Char} {cs r : Symbols} {t : Token} (hc : isBlank c = false)
    (h : readToken? (some c :: cs) = some (t, r)) :
    tokens? (some c :: cs) = (tokens? r).map (t :: ·) := by
  rw [tokens?, if_neg (by simp [hc])]
  split
  · next h' => rw [h] at h'; cases h'
  · next h' => rw [h] at h'; cases h'; rfl

theorem tokens?_newline (depth : Nat) (cs : List Char) :
    tokens? ((newline depth ++ cs).map some) = tokens? (cs.map some) := by
  have hspaces : ∀ n, tokens? ((List.replicate n ' ' ++ cs).map some) = tokens? (cs.map some) := by
    intro n
    induction n with
    | zero => rfl
    | succ n ih => rw [List.replicate_succ, List.cons_append, List.map_cons,
        tokens?_cons_of_isBlank (by decide), ih]
  rw [newline, List.cons_append, List.map_cons, tokens?_cons_of_isBlank (by decide), hspaces]

theorem tokens?_quote (s : String) (rest : List Char) :
    tokens? ((quote s ++ rest).map some) =
      (tokens? (rest.map some)).map (.scalar (.string s) :: ·) :=
  tokens?_cons (by decide) (readToken?_quote s rest)

section Punctuation
variable (cs : Symbols)

theorem tokens?_openArray : tokens? (some '[' :: cs) = (tokens? cs).map (.openArray :: ·) :=
  tokens?_cons (by decide) rfl

theorem tokens?_closeArray : tokens? (some ']' :: cs) = (tokens? cs).map (.closeArray :: ·) :=
  tokens?_cons (by decide) rfl

theorem tokens?_openObject : tokens? (some '\x7b' :: cs) = (tokens? cs).map (.openObject :: ·) :=
  tokens?_cons (by decide) rfl

theorem tokens?_closeObject : tokens? (some '\x7d' :: cs) = (tokens? cs).map (.closeObject :: ·) :=
  tokens?_cons (by decide) rfl

theorem tokens?_comma : tokens? (some ',' :: cs) = (tokens? cs).map (.comma :: ·) :=
  tokens?_cons (by decide) rfl

theorem tokens?_colon : tokens? (some ':' :: cs) = (tokens? cs).map (.colon :: ·) :=
  tokens?_cons (by decide) rfl

end Punctuation

/-- What stands before `rest` becomes the tokens of the value, wherever it is printed. -/
def PrintsAs (text : List Char) (ts : List Token) : Prop :=
  ∀ rest : List Char, tokens? ((text ++ rest).map some) = (tokens? (rest.map some)).map (ts ++ ·)

namespace PrintsAs
variable {text text' : List Char} {ts ts' : List Token} {t : Token}

theorem append (h : PrintsAs text ts) (h' : PrintsAs text' ts') :
    PrintsAs (text ++ text') (ts ++ ts') := by
  intro rest
  rw [List.append_assoc, h, h', Option.map_map]
  congr 1
  funext us
  simp

theorem newline (h : PrintsAs text ts) (depth : Nat) : PrintsAs (newline depth ++ text) ts := by
  intro rest
  rw [List.append_assoc, tokens?_newline, h]

theorem before_newline (h : PrintsAs text ts) (depth : Nat) :
    PrintsAs (text ++ Json.newline depth) ts := by
  intro rest
  rw [List.append_assoc, h, tokens?_newline]

theorem blank (h : PrintsAs text ts) : PrintsAs (' ' :: text) ts := by
  intro rest
  rw [List.cons_append, List.map_cons, tokens?_cons_of_isBlank (by decide), h]

theorem quote (s : String) : PrintsAs (quote s) [.scalar (.string s)] := tokens?_quote s

/-- One character in front that is a token of its own. -/
theorem cons {c : Char} (hc : ∀ cs, tokens? (some c :: cs) = (tokens? cs).map (t :: ·))
    (h : PrintsAs text ts) : PrintsAs (c :: text) (t :: ts) := by
  intro rest
  rw [List.cons_append, List.map_cons, hc, h, Option.map_map]
  rfl

theorem single {c : Char} (hc : ∀ cs, tokens? (some c :: cs) = (tokens? cs).map (t :: ·)) :
    PrintsAs [c] [t] := fun _ => hc _

end PrintsAs

mutual

theorem printsAs_prettyChars : ∀ (v : Json) (depth : Nat), v.plain → PrintsAs (v.prettyChars depth) v.tokens
  | null, _, _ => fun _ => tokens?_cons (by decide) rfl
  | bool true, _, _ => fun _ => tokens?_cons (by decide) rfl
  | bool false, _, _ => fun _ => tokens?_cons (by decide) rfl
  | string s, _, _ => .quote s
  | array [], _, _ => (PrintsAs.single tokens?_closeArray).cons tokens?_openArray
  | array (v :: vs), depth, h =>
    (((printsAs_prettyItems (v :: vs) (depth + 1) h).before_newline depth).append
      (.single tokens?_closeArray)).cons tokens?_openArray
  | object [], _, _ => (PrintsAs.single tokens?_closeObject).cons tokens?_openObject
  | object (e :: es), depth, h =>
    (((printsAs_prettyFields (e :: es) (depth + 1) h).before_newline depth).append
      (.single tokens?_closeObject)).cons tokens?_openObject

theorem printsAs_prettyItems : ∀ (vs : List Json) (depth : Nat), plainItems vs →
    PrintsAs (prettyItems depth vs) (itemTokens vs)
  | [], _, _ => fun _ => by simp [prettyItems, itemTokens]
  | [v], depth, h => (printsAs_prettyChars v depth (by simpa [plainItems] using h)).newline depth
  | v :: w :: vs, depth, h => by
    simp only [plainItems, Bool.and_eq_true] at h
    exact ((printsAs_prettyChars v depth h.1).append
      ((printsAs_prettyItems (w :: vs) depth (by simp [plainItems, h.2])).cons tokens?_comma)).newline depth

theorem printsAs_prettyFields : ∀ (es : List (String × Json)) (depth : Nat), plainFields es →
    PrintsAs (prettyFields depth es) (fieldTokens es)
  | [], _, _ => fun _ => by simp [prettyFields, fieldTokens]
  | [(k, v)], depth, h =>
    ((PrintsAs.quote k).append
      ((printsAs_prettyChars v depth (by simpa [plainFields] using h)).blank.cons
        tokens?_colon)).newline depth
  | (k, v) :: e :: es, depth, h => by
    simp only [plainFields, Bool.and_eq_true] at h
    have hrest := (printsAs_prettyFields (e :: es) depth (by simp [plainFields, h.2])).cons tokens?_comma
    exact ((PrintsAs.quote k).append
      (((printsAs_prettyChars v depth h.1).append hrest).blank.cons tokens?_colon)).newline depth

end

/-! ### From tokens to the value -/

open Reader

theorem objectOf_reverse (es : List (String × Json)) :
    objectOf (es.map fun e => (some e.1, e.2)).reverse = .object es := by
  rw [objectOf, List.reverse_reverse, mapM_map_eq_some]
  exact fun _ => rfl

theorem step_openArray (frames : List Frame) {e : Expectation}
    (he : e = .value ∨ e = .firstItem) :
    step ⟨e, frames⟩ .openArray = some ⟨.firstItem, .array [] :: frames⟩ := by
  rcases he with rfl | rfl <;> rfl

theorem step_openObject (frames : List Frame) {e : Expectation}
    (he : e = .value ∨ e = .firstItem) :
    step ⟨e, frames⟩ .openObject = some ⟨.firstName, .object [] :: frames⟩ := by
  rcases he with rfl | rfl <;> rfl

theorem step_name (k : String) (frames : List Frame) {e : Expectation}
    (he : e = .name ∨ e = .firstName) :
    step ⟨e, frames⟩ (.scalar (.string k)) = some ⟨.colon (some k), frames⟩ := by
  rcases he with rfl | rfl <;> rfl

theorem foldlM_scalar (v : Json) (ts : List Token) (frames : List Frame) {e : Expectation}
    (he : e = .value ∨ e = .firstItem) :
    (.scalar v :: ts).foldlM step ⟨e, frames⟩ = (finish v frames).bind (ts.foldlM step ·) := by
  rcases he with rfl | rfl <;> rfl

mutual

/-- The reader takes the tokens of a value as one step. -/
theorem foldlM_tokens : ∀ (v : Json) (ts : List Token) (frames : List Frame) (e : Expectation),
    e = .value ∨ e = .firstItem →
      (v.tokens ++ ts).foldlM step ⟨e, frames⟩ = (finish v frames).bind (ts.foldlM step ·)
  | null, ts, frames, _, he => foldlM_scalar _ ts frames he
  | bool _, ts, frames, _, he => foldlM_scalar _ ts frames he
  | int _, ts, frames, _, he => foldlM_scalar _ ts frames he
  | float _, ts, frames, _, he => foldlM_scalar _ ts frames he
  | string _, ts, frames, _, he => foldlM_scalar _ ts frames he
  | unreadable, ts, frames, _, he => foldlM_scalar _ ts frames he
  | array items, ts, frames, e, he => by
    rw [tokens, List.cons_append, List.append_assoc, List.foldlM_cons, step_openArray _ he,
      Option.bind_eq_bind, Option.bind_some]
    by_cases hn : items = []
    · subst hn; rfl
    · rw [foldlM_itemTokens items hn _ [] frames .firstItem (.inr rfl), List.append_nil]
      show (finish (.array items.reverse.reverse) frames).bind _ = _
      rw [List.reverse_reverse]
      rfl
  | object fields, ts, frames, e, he => by
    rw [tokens, List.cons_append, List.append_assoc, List.foldlM_cons, step_openObject _ he,
      Option.bind_eq_bind, Option.bind_some]
    by_cases hn : fields = []
    · subst hn; rfl
    · rw [foldlM_fieldTokens fields hn _ [] frames .firstName (.inr rfl), List.append_nil]
      show (finish (objectOf (fields.map fun f => (some f.1, f.2)).reverse) frames).bind _ = _
      rw [objectOf_reverse]
      rfl

theorem foldlM_itemTokens : ∀ (vs : List Json), vs ≠ [] → ∀ (ts : List Token) (acc : List Json)
    (frames : List Frame) (e : Expectation), e = .value ∨ e = .firstItem →
      (itemTokens vs ++ ts).foldlM step ⟨e, .array acc :: frames⟩ =
        ts.foldlM step ⟨.continuation, .array (vs.reverse ++ acc) :: frames⟩
  | [], hn, _, _, _, _, _ => absurd rfl hn
  | [v], _, ts, acc, frames, e, he => by
    rw [itemTokens, foldlM_tokens v ts _ e he]
    rfl
  | v :: w :: vs, _, ts, acc, frames, e, he => by
    show ((v.tokens ++ .comma :: itemTokens (w :: vs)) ++ ts).foldlM step _ = _
    rw [List.append_assoc, foldlM_tokens v _ _ e he]
    show (itemTokens (w :: vs) ++ ts).foldlM step ⟨.value, .array (v :: acc) :: frames⟩ = _
    rw [foldlM_itemTokens (w :: vs) (by simp) ts (v :: acc) frames .value (.inl rfl)]
    simp

theorem foldlM_fieldTokens : ∀ (fs : List (String × Json)), fs ≠ [] → ∀ (ts : List Token)
    (acc : List (Option String × Json)) (frames : List Frame) (e : Expectation),
    e = .name ∨ e = .firstName →
      (fieldTokens fs ++ ts).foldlM step ⟨e, .object acc :: frames⟩ =
        ts.foldlM step ⟨.continuation,
          .object ((fs.map fun f => (some f.1, f.2)).reverse ++ acc) :: frames⟩
  | [], hn, _, _, _, _, _ => absurd rfl hn
  | [(k, v)], _, ts, acc, frames, e, he => by
    rw [fieldTokens, List.cons_append, List.foldlM_cons, step_name _ _ he]
    show (v.tokens ++ ts).foldlM step ⟨.value, .field acc (some k) :: frames⟩ = _
    rw [foldlM_tokens v ts _ .value (.inl rfl)]
    rfl
  | (k, v) :: f :: fs, _, ts, acc, frames, e, he => by
    show (.scalar (.string k) :: _ :: ((v.tokens ++ .comma :: fieldTokens (f :: fs)) ++ ts)).foldlM
      step _ = _
    rw [List.foldlM_cons, step_name _ _ he]
    show ((v.tokens ++ .comma :: fieldTokens (f :: fs)) ++ ts).foldlM step
      ⟨.value, .field acc (some k) :: frames⟩ = _
    rw [List.append_assoc, foldlM_tokens v _ _ .value (.inl rfl)]
    show (fieldTokens (f :: fs) ++ ts).foldlM step
      ⟨.name, .object ((some k, v) :: acc) :: frames⟩ = _
    rw [foldlM_fieldTokens (f :: fs) (by simp) ts ((some k, v) :: acc) frames .name (.inl rfl)]
    simp

end

theorem ofTokens?_tokens (v : Json) : ofTokens? v.tokens = some v := by
  have h := foldlM_tokens v [] [] .value (.inl rfl)
  rw [List.append_nil] at h
  show ((v.tokens.foldlM step ⟨.value, []⟩).bind Reader.result?) = some v
  rw [h]
  rfl

theorem parse?_eq (s : String) : parse? s = ofSymbols? (s.toList.map some) := by
  rw [parse?, Text.chars_eq]

/-- A value without numbers reads back from its indented text. -/
theorem parse?_pretty (v : Json) (h : v.plain) : parse? v.pretty = some v := by
  have hts : tokens? (v.pretty.toList.map some) = some v.tokens := by
    have := printsAs_prettyChars v 0 h []
    rw [List.append_nil] at this
    rw [pretty, String.toList_ofList, this, List.map_nil, tokens?, Option.map_some,
      List.append_nil]
  rw [parse?_eq, ofSymbols?, hts, Option.bind_some, ofTokens?_tokens]

end GqlArtifacts.Json
