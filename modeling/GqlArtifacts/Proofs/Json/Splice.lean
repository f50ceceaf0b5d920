import GqlArtifacts.Proofs.Json.Append

/-!
# A text inside another

What tokens are read as does not depend on what is open around them (`ofTokens?_inside`). So where an
object is printed with texts in the places of its values, it reads as the object with the values of
those texts (`ofSymbols?_objectText`).
-/

namespace GqlArtifacts.Json

/-! ### What is open around a value -/

namespace Reader

variable {r r' : Reader} {t : Token} {fs : List Frame} {v : Json}

/-- The reader inside more open frames. -/
def inside (frames : List Frame) (r : Reader) : Option Reader :=
  match r.expected with
  | .nothing v => finish v frames
  | e => some ⟨e, r.frames ++ frames⟩

theorem finish_inside (frames : List Frame) (h : finish v fs = some r) :
    finish v (fs ++ frames) = r.inside frames := by
  match fs with
  | [] => cases h; rfl
  | .array _ :: _ => cases h; rfl
  | .field _ _ :: _ => cases h; rfl
  | .object _ :: _ => cases h

theorem closeArray_inside (frames : List Frame) (h : closeArray fs = some r) :
    closeArray (fs ++ frames) = r.inside frames := by
  match fs with
  | [] => cases h
  | .array _ :: _ => exact finish_inside frames h
  | .field _ _ :: _ => cases h
  | .object _ :: _ => cases h

theorem closeObject_inside (frames : List Frame) (h : closeObject fs = some r) :
    closeObject (fs ++ frames) = r.inside frames := by
  match fs with
  | [] => cases h
  | .array _ :: _ => cases h
  | .field _ _ :: _ => cases h
  | .object _ :: _ => exact finish_inside frames h

theorem beginValue_inside (frames : List Frame) (h : beginValue fs t = some r) :
    beginValue (fs ++ frames) t = r.inside frames := by
  cases t with
  | openArray => cases h; rfl
  | openObject => cases h; rfl
  | scalar v => exact finish_inside frames h
  | closeArray => cases h
  | closeObject => cases h
  | comma => cases h
  | colon => cases h

theorem beginField_inside (frames : List Frame) (h : beginField fs t = some r) :
    beginField (fs ++ frames) t = r.inside frames := by
  unfold beginField at h
  split at h
  · cases h; rfl
  · cases h; rfl
  · cases h

theorem step_firstItem (ht : t ≠ .closeArray) : step ⟨.firstItem, fs⟩ t = beginValue fs t := by
  cases t <;> first | rfl | exact absurd rfl ht

theorem step_firstName (ht : t ≠ .closeObject) : step ⟨.firstName, fs⟩ t = beginField fs t := by
  cases t <;> first | rfl | exact absurd rfl ht

theorem step_nothing : step ⟨.nothing v, fs⟩ t = none := by
  cases t <;> rfl

/-- A step does not look at the frames that were open before. -/
theorem step_inside (frames : List Frame) (h : step r t = some r') :
    (r.inside frames).bind (step · t) = r'.inside frames := by
  obtain ⟨e, fs⟩ := r
  cases e with
  | value => exact beginValue_inside frames h
  | firstItem =>
    by_cases ht : t = .closeArray
    · subst ht
      exact closeArray_inside frames h
    · rw [step_firstItem ht] at h
      show step ⟨.firstItem, fs ++ frames⟩ t = _
      rw [step_firstItem ht]
      exact beginValue_inside frames h
  | name => exact beginField_inside frames h
  | firstName =>
    by_cases ht : t = .closeObject
    · subst ht
      exact closeObject_inside frames h
    · rw [step_firstName ht] at h
      show step ⟨.firstName, fs ++ frames⟩ t = _
      rw [step_firstName ht]
      exact beginField_inside frames h
  | colon name =>
    cases t <;> try cases h
    match fs with
    | [] => cases h
    | .array _ :: _ => cases h
    | .field _ _ :: _ => cases h
    | .object _ :: _ => cases h; rfl
  | continuation =>
    cases t <;> try cases h
    · exact closeArray_inside frames h
    · exact closeObject_inside frames h
    · match fs with
      | [] => cases h
      | .array _ :: _ => cases h; rfl
      | .field _ _ :: _ => cases h
      | .object _ :: _ => cases h; rfl
  | nothing v =>
    rw [step_nothing] at h
    cases h

theorem foldlM_inside (frames : List Frame) (ts : List Token) (h : ts.foldlM step r = some r') :
    (r.inside frames).bind (ts.foldlM step ·) = r'.inside frames := by
  induction ts generalizing r with
  | nil =>
    cases h
    cases inside frames _ <;> rfl
  | cons t ts ih =>
    obtain ⟨r₁, hr₁, h⟩ := Option.bind_eq_some_iff.1 h
    rw [← ih h, ← step_inside frames hr₁, Option.bind_assoc]
    rfl

end Reader

open Reader

/-- Tokens that make a value make it inside any open frames. -/
theorem ofTokens?_inside {ts : List Token} {v : Json} (h : ofTokens? ts = some v)
    (frames : List Frame) : ts.foldlM step ⟨.value, frames⟩ = finish v frames := by
  obtain ⟨⟨e, fs⟩, hr, hv⟩ := Option.bind_eq_some_iff.1 h
  have hinside := foldlM_inside frames ts hr
  cases e with
  | nothing w =>
    cases hv
    exact hinside
  | _ => cases hv

/-! ### Objects -/

/-- The fields of an object as they are printed, with a text for each value. -/
def fieldsText (depth : Nat) : List (String × List Char) → List Char
  | [] => []
  | [(k, text)] => newline depth ++ (quote k ++ ':' :: ' ' :: text)
  | (k, text) :: rest =>
    newline depth ++ (quote k ++ ':' :: ' ' :: (text ++ ',' :: fieldsText depth rest))

/-- An object as it is printed, with a text for each value. -/
def objectText (depth : Nat) : List (String × List Char) → List Char
  | [] => ['\x7b', '\x7d']
  | fields => '\x7b' :: (fieldsText (depth + 1) fields ++ newline depth ++ ['\x7d'])

theorem prettyFields_eq_fieldsText (depth : Nat) : ∀ es : List (String × Json),
    prettyFields depth es = fieldsText depth (es.map fun e => (e.1, e.2.prettyChars depth))
  | [] => rfl
  | [_] => rfl
  | e :: e' :: es => by
    rw [prettyFields, prettyFields_eq_fieldsText depth (e' :: es)]
    · rfl
    · nofun

theorem prettyChars_object (depth : Nat) (es : List (String × Json)) :
    (object es).prettyChars depth =
      objectText depth (es.map fun e => (e.1, e.2.prettyChars (depth + 1))) := by
  cases es with
  | nil => rfl
  | cons e es => rw [prettyChars, prettyFields_eq_fieldsText]; rfl; nofun

/-- Text that is cut into these tokens wherever no numeral goes on behind it. -/
def CutsAs (text : List Char) (ts : List Token) : Prop :=
  ∀ rest : List Char, Ends (rest.map some) →
    tokens? ((text ++ rest).map some) = (tokens? (rest.map some)).map (ts ++ ·)

namespace CutsAs
variable {text text' : List Char} {ts ts' : List Token}

theorem of_tokens? (h : tokens? (text.map some) = some ts) : CutsAs text ts := by
  intro rest hrest
  rw [List.map_append, tokens?_append h fun _ _ _ => hrest]

/-- Before a text that no numeral goes on into. -/
theorem append (h : CutsAs text ts) (hends : Ends (text'.map some)) (hne : text' ≠ [])
    (h' : CutsAs text' ts') : CutsAs (text ++ text') (ts ++ ts') := by
  intro rest hrest
  have hends' : Ends ((text' ++ rest).map some) := by
    obtain ⟨c, tail, rfl⟩ := List.exists_cons_of_ne_nil hne
    exact hends
  rw [List.append_assoc, h _ hends', h' rest hrest, Option.map_map]
  congr 1
  funext us
  simp

theorem after (h : CutsAs text ts) (h' : PrintsAs text' ts') :
    CutsAs (text' ++ text) (ts' ++ ts) := by
  intro rest hrest
  rw [List.append_assoc, h', h rest hrest, Option.map_map]
  congr 1
  funext us
  simp

end CutsAs

theorem printsAs_blank : PrintsAs [' '] [] := by
  intro rest
  rw [List.singleton_append, List.map_cons, tokens?_cons_of_isBlank (by decide)]
  cases tokens? (rest.map some) <;> rfl

/-- What stands before the value of a field. -/
theorem printsAs_fieldName (depth : Nat) (k : String) :
    PrintsAs (newline depth ++ (quote k ++ [':', ' '])) [.scalar (.string k), .colon] :=
  ((PrintsAs.quote k).append (printsAs_blank.cons tokens?_colon)).newline depth

theorem foldlM_fieldName (k : String) (ts : List Token) (acc : List (Option String × Json))
    (frames : List Frame) {e : Expectation} (he : e = .name ∨ e = .firstName) :
    (.scalar (.string k) :: .colon :: ts).foldlM step ⟨e, .object acc :: frames⟩ =
      ts.foldlM step ⟨.value, .field acc (some k) :: frames⟩ := by
  rw [List.foldlM_cons, step_name _ _ he]
  rfl

/-- Fields that are printed with texts for values are read with the values of the texts. -/
theorem exists_tokens_fieldsText (depth : Nat) : ∀ es : List (String × List Char × Json), es ≠ [] →
    (∀ e ∈ es, ofSymbols? (e.2.1.map some) = some e.2.2) →
    ∃ ts, CutsAs (fieldsText depth (es.map fun e => (e.1, e.2.1))) ts ∧
      ∀ us acc frames e, e = .name ∨ e = .firstName →
        (ts ++ us).foldlM step ⟨e, .object acc :: frames⟩ =
          us.foldlM step ⟨.continuation,
            .object ((es.map fun e => (some e.1, e.2.2)).reverse ++ acc) :: frames⟩
  | [], hne, _ => absurd rfl hne
  | [(k, text, v)], _, h => by
    obtain ⟨ts, htext, hv⟩ := Option.bind_eq_some_iff.1 (h _ (List.mem_singleton_self _))
    refine ⟨.scalar (.string k) :: .colon :: ts, ?_, fun us acc frames e he => ?_⟩
    · have hcut := (CutsAs.of_tokens? htext).after (printsAs_fieldName depth k)
      simpa [fieldsText] using hcut
    · rw [List.cons_append, List.cons_append, foldlM_fieldName _ _ _ _ he, List.foldlM_append,
        ofTokens?_inside hv]
      rfl
  | (k, text, v) :: e :: es, _, h => by
    obtain ⟨ts, htext, hv⟩ := Option.bind_eq_some_iff.1 (h _ List.mem_cons_self)
    obtain ⟨ts', hcut', hfields⟩ := exists_tokens_fieldsText depth (e :: es) (by simp)
      fun e he => h e (List.mem_cons_of_mem _ he)
    refine ⟨.scalar (.string k) :: .colon :: (ts ++ .comma :: ts'), ?_, fun us acc frames e he => ?_⟩
    · have hends : Ends ((',' :: fieldsText depth ((e :: es).map fun e => (e.1, e.2.1))).map some) :=
        ends_cons (by decide)
      have hcomma := hcut'.after (PrintsAs.single tokens?_comma)
      have hcut := ((CutsAs.of_tokens? htext).append hends (by simp) hcomma).after
        (printsAs_fieldName depth k)
      simpa [fieldsText] using hcut
    · rw [List.cons_append, List.cons_append, foldlM_fieldName _ _ _ _ he, List.append_assoc,
        List.foldlM_append, ofTokens?_inside hv]
      show (ts' ++ us).foldlM step ⟨.name, .object ((some k, v) :: acc) :: frames⟩ = _
      rw [hfields us _ frames .name (.inl rfl)]
      simp

/-- An object that is printed with texts for values is read with the values of the texts. -/
theorem ofSymbols?_objectText (depth : Nat) {es : List (String × List Char × Json)}
    (h : ∀ e ∈ es, ofSymbols? (e.2.1.map some) = some e.2.2) :
    ofSymbols? ((objectText depth (es.map fun e => (e.1, e.2.1))).map some) =
      some (.object (es.map fun e => (e.1, e.2.2))) := by
  by_cases hne : es = []
  · subst hne
    exact parse?_pretty (.object []) rfl
  · obtain ⟨ts, hcut, hfields⟩ := exists_tokens_fieldsText (depth + 1) es hne h
    have htext : objectText depth (es.map fun e => (e.1, e.2.1)) =
        ['\x7b'] ++ (fieldsText (depth + 1) (es.map fun e => (e.1, e.2.1)) ++
          (newline depth ++ ['\x7d'])) := by
      obtain ⟨e, es, rfl⟩ := List.exists_cons_of_ne_nil hne
      simp [objectText]
    have hclose : CutsAs (newline depth ++ ['\x7d']) [.closeObject] := fun rest _ =>
      (PrintsAs.single tokens?_closeObject).newline depth rest
    have hends : Ends ((newline depth ++ ['\x7d']).map some) := ends_cons (by decide)
    have hwhole := ((hcut.append hends (by simp) hclose).after
      (PrintsAs.single tokens?_openObject)) [] ends_nil
    rw [List.append_nil, ← htext] at hwhole
    rw [ofSymbols?, hwhole, List.map_nil, tokens?, Option.map_some, List.append_nil, Option.bind_some]
    show ((ts ++ [Token.closeObject]).foldlM step ⟨.firstName, .object [] :: []⟩).bind result? = _
    rw [hfields _ [] [] .firstName (.inr rfl), List.append_nil]
    show (finish (objectOf _) []).bind result? = _
    have hobject := objectOf_reverse (es.map fun e => (e.1, e.2.2))
    rw [List.map_map] at hobject
    exact congrArg (fun v => (finish v []).bind result?) hobject

end GqlArtifacts.Json
