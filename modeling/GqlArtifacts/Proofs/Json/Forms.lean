import GqlArtifacts.Proofs.Json.Splice

/-!
# Tokens that form a value

`Forms` is the grammar of values: a scalar, or items or fields between brackets with a comma
between each and the next. `ofTokens?_eq_some_iff` says that the reader takes the tokens of one
value, and no others.

That it takes them is an induction on the value (`Forms.taken`). For the other direction
`Represents` says what a reader knows of the tokens that it has taken: `Before` is what they are
where a value, an item or a name is still to come. A step keeps that (`Represents.step`), and so
does a run (`Represents.foldlM`).
-/

namespace GqlArtifacts.Json

open Reader

variable {ts us : List Token} {t : Token} {v : Json} {frames : List Frame} {r r' : Reader}

/-- The token of a name. A name that is no text is unreadable. -/
def nameToken : Option String → Token
  | some k => .scalar (.string k)
  | none => .scalar .unreadable

def fieldPart (name : Option String) (value : List Token) : List Token :=
  nameToken name :: .colon :: value

/-- Parts with a comma between each and the next. -/
def commaList (parts : List (List Token)) : List Token := [Token.comma].intercalate parts

/-- An object, which is unreadable if a name is. -/
def objectWith (fields : List (Option String × Json)) : Json :=
  match fields.mapM fun (name, v) => name.map (·, v) with
  | some fields => .object fields
  | none => .unreadable

inductive Forms : List Token → Json → Prop
  | scalar (v : Json) : Forms [.scalar v] v
  | array (parts : List (List Token × Json)) (h : ∀ x ∈ parts, Forms x.1 x.2) :
    Forms (.openArray :: (commaList (parts.map Prod.fst) ++ [.closeArray]))
      (.array (parts.map Prod.snd))
  | object (parts : List (Option String × List Token × Json)) (h : ∀ x ∈ parts, Forms x.2.1 x.2.2) :
    Forms (.openObject :: (commaList (parts.map fun x => fieldPart x.1 x.2.1) ++ [.closeObject]))
      (objectWith (parts.map fun x => (x.1, x.2.2)))

/-! ### Values are taken -/

/-- The reader takes the tokens of a value as one step. -/
def Taken (us : List Token) (v : Json) : Prop := ∀ (ts : List Token) (frames : List Frame)
  (e : Expectation), e = .value ∨ e = .firstItem →
    (us ++ ts).foldlM step ⟨e, frames⟩ = (finish v frames).bind (ts.foldlM step ·)

theorem commaList_cons (part : List Token) {parts : List (List Token)} (h : parts ≠ []) :
    commaList (part :: parts) = part ++ .comma :: commaList parts := by
  cases parts with
  | nil => exact absurd rfl h
  | cons p parts => rw [commaList, List.intercalate_cons_cons]; simp [commaList]

theorem foldlM_items {parts : List (List Token × Json)} (h : ∀ x ∈ parts, Taken x.1 x.2)
    (hne : parts ≠ []) (ts : List Token) (items : List Json) (frames : List Frame)
    {e : Expectation} (he : e = .value ∨ e = .firstItem) :
    (commaList (parts.map Prod.fst) ++ ts).foldlM step ⟨e, .array items :: frames⟩ =
      ts.foldlM step ⟨.continuation, .array ((parts.map Prod.snd).reverse ++ items) :: frames⟩ := by
  induction parts generalizing items e with
  | nil => exact absurd rfl hne
  | cons x parts ih =>
    have hx := h x List.mem_cons_self
    by_cases hparts : parts = []
    · subst hparts
      rw [List.map_singleton, commaList, List.intercalate_singleton, hx ts _ e he]
      rfl
    · have hmap : parts.map Prod.fst ≠ [] := by simpa using hparts
      rw [List.map_cons, commaList_cons _ hmap, List.append_assoc, hx _ _ e he]
      show (commaList (parts.map Prod.fst) ++ ts).foldlM step
        ⟨.value, .array (x.2 :: items) :: frames⟩ = _
      rw [ih (fun y hy => h y (List.mem_cons_of_mem _ hy)) hparts _ (.inl rfl)]
      simp

theorem foldlM_fields {parts : List (Option String × List Token × Json)}
    (h : ∀ x ∈ parts, Taken x.2.1 x.2.2) (hne : parts ≠ []) (ts : List Token)
    (fields : List (Option String × Json)) (frames : List Frame) {e : Expectation}
    (he : e = .name ∨ e = .firstName) :
    (commaList (parts.map fun x => fieldPart x.1 x.2.1) ++ ts).foldlM step
        ⟨e, .object fields :: frames⟩ =
      ts.foldlM step ⟨.continuation,
        .object ((parts.map fun x => (x.1, x.2.2)).reverse ++ fields) :: frames⟩ := by
  have hname : ∀ (name : Option String) (ts : List Token) (fields : List (Option String × Json))
      (e : Expectation), e = .name ∨ e = .firstName →
      (nameToken name :: .colon :: ts).foldlM step ⟨e, .object fields :: frames⟩ =
        ts.foldlM step ⟨.value, .field fields name :: frames⟩ := by
    rintro (_ | k) ts fields e (rfl | rfl) <;> rfl
  induction parts generalizing fields e with
  | nil => exact absurd rfl hne
  | cons x parts ih =>
    have hx := h x List.mem_cons_self
    by_cases hparts : parts = []
    · subst hparts
      rw [List.map_singleton, commaList, List.intercalate_singleton, fieldPart, List.cons_append,
        List.cons_append, hname _ _ _ _ he, hx ts _ _ (.inl rfl)]
      rfl
    · have hmap : (parts.map fun x => fieldPart x.1 x.2.1) ≠ [] := by simpa using hparts
      rw [List.map_cons, commaList_cons _ hmap, List.append_assoc, fieldPart, List.cons_append,
        List.cons_append, hname _ _ _ _ he, hx _ _ _ (.inl rfl)]
      show (commaList (parts.map fun x => fieldPart x.1 x.2.1) ++ ts).foldlM step
        ⟨.name, .object ((x.1, x.2.2) :: fields) :: frames⟩ = _
      rw [ih (fun y hy => h y (List.mem_cons_of_mem _ hy)) hparts _ (.inl rfl)]
      simp

theorem Forms.taken (h : Forms us v) : Taken us v := by
  induction h with
  | scalar v => exact fun ts frames e he => foldlM_scalar v ts frames he
  | array parts _ ih =>
    intro ts frames e he
    rw [List.cons_append, List.append_assoc, List.foldlM_cons, step_openArray _ he,
      Option.bind_eq_bind, Option.bind_some]
    by_cases hparts : parts = []
    · subst hparts
      rfl
    · rw [foldlM_items ih hparts _ [] frames (.inr rfl), List.append_nil]
      show (finish (.array (parts.map Prod.snd).reverse.reverse) frames).bind _ = _
      rw [List.reverse_reverse]
      rfl
  | object parts _ ih =>
    intro ts frames e he
    rw [List.cons_append, List.append_assoc, List.foldlM_cons, step_openObject _ he,
      Option.bind_eq_bind, Option.bind_some]
    by_cases hparts : parts = []
    · subst hparts
      rfl
    · rw [foldlM_fields ih hparts _ [] frames (.inr rfl), List.append_nil]
      show (finish (objectOf (parts.map fun x => (x.1, x.2.2)).reverse) frames).bind _ = _
      rw [objectOf, List.reverse_reverse]
      rfl

/-! ### What was taken -/

/-- Parts with a comma after each. -/
def commasAfter (parts : List (List Token)) : List Token := parts.flatMap (· ++ [.comma])

theorem commaList_concat (parts : List (List Token)) (part : List Token) :
    commaList (parts ++ [part]) = commasAfter parts ++ part := by
  induction parts with
  | nil => simp [commaList, commasAfter]
  | cons p parts ih =>
    rw [List.cons_append, commaList_cons _ (by simp), ih, commasAfter, commasAfter,
      List.flatMap_cons, List.append_assoc, List.append_assoc]
    rfl

theorem commasAfter_concat (parts : List (List Token)) (part : List Token) :
    commasAfter (parts ++ [part]) = commasAfter parts ++ (part ++ [.comma]) := by
  simp [commasAfter]

/-- The tokens before a value, an item or a name. -/
inductive Before : List Frame → List Token → Prop
  | nil : Before [] []
  | array {frames : List Frame} {ts : List Token} {items : List Json} (h : Before frames ts)
    (parts : List (List Token × Json)) (hparts : ∀ x ∈ parts, Forms x.1 x.2)
    (hitems : items = (parts.map Prod.snd).reverse) :
    Before (.array items :: frames) (ts ++ .openArray :: commasAfter (parts.map Prod.fst))
  | object {frames : List Frame} {ts : List Token} {fields : List (Option String × Json)}
    (h : Before frames ts) (parts : List (Option String × List Token × Json))
    (hparts : ∀ x ∈ parts, Forms x.2.1 x.2.2)
    (hfields : fields = (parts.map fun x => (x.1, x.2.2)).reverse) :
    Before (.object fields :: frames)
      (ts ++ .openObject :: commasAfter (parts.map fun x => fieldPart x.1 x.2.1))
  | field {frames : List Frame} {ts : List Token} {fields : List (Option String × Json)}
    (h : Before (.object fields :: frames) ts) (name : Option String) :
    Before (.field fields name :: frames) (ts ++ [nameToken name, .colon])

/-- What a reader knows of the tokens that it has taken. -/
inductive Represents : Reader → List Token → Prop
  | value {frames : List Frame} {ts : List Token} (h : Before frames ts) :
    Represents ⟨.value, frames⟩ ts
  | firstItem {frames : List Frame} {ts : List Token} (h : Before frames ts) :
    Represents ⟨.firstItem, .array [] :: frames⟩ (ts ++ [.openArray])
  | name {frames : List Frame} {ts : List Token} {fields : List (Option String × Json)}
    (h : Before (.object fields :: frames) ts) : Represents ⟨.name, .object fields :: frames⟩ ts
  | firstName {frames : List Frame} {ts : List Token} (h : Before frames ts) :
    Represents ⟨.firstName, .object [] :: frames⟩ (ts ++ [.openObject])
  | colon {frames : List Frame} {ts : List Token} {fields : List (Option String × Json)}
    (h : Before (.object fields :: frames) ts) (name : Option String) :
    Represents ⟨.colon name, .object fields :: frames⟩ (ts ++ [nameToken name])
  | finished {frames : List Frame} {ts us : List Token} {v : Json} {r : Reader}
    (h : Before frames ts) (hv : Forms us v) (hr : finish v frames = some r) :
    Represents r (ts ++ us)

theorem Before.openArray (h : Before frames ts) :
    Before (.array [] :: frames) (ts ++ [.openArray]) := h.array [] nofun rfl

theorem Before.openObject (h : Before frames ts) :
    Before (.object [] :: frames) (ts ++ [.openObject]) := h.object [] nofun rfl

theorem Before.beginValue (h : Before frames ts) (hr : beginValue frames t = some r) :
    Represents r (ts ++ [t]) := by
  cases t with
  | openArray => cases hr; exact .firstItem h
  | openObject => cases hr; exact .firstName h
  | scalar v => exact .finished h (.scalar v) hr
  | closeArray => cases hr
  | closeObject => cases hr
  | comma => cases hr
  | colon => cases hr

theorem Before.beginField {fields : List (Option String × Json)}
    (h : Before (.object fields :: frames) ts)
    (hr : beginField (.object fields :: frames) t = some r) : Represents r (ts ++ [t]) := by
  unfold Reader.beginField at hr
  split at hr
  · next k => cases hr; exact .colon h (some k)
  · cases hr; exact .colon h none
  · cases hr

/-- An item goes on with a comma or with the end of the array. -/
theorem Before.item {items : List Json} (h : Before (.array items :: frames) ts) (hv : Forms us v)
    (hr : step ⟨.continuation, .array (v :: items) :: frames⟩ t = some r) :
    Represents r (ts ++ us ++ [t]) := by
  cases h with
  | array h parts hparts hitems =>
  have hmore : ∀ x ∈ parts ++ [(us, v)], Forms x.1 x.2 := by
    intro x hx
    rcases List.mem_append.1 hx with hx | hx
    · exact hparts x hx
    · rw [List.mem_singleton.1 hx]
      exact hv
  have hitems' : v :: items = ((parts ++ [(us, v)]).map Prod.snd).reverse := by simp [hitems]
  cases t with
  | comma =>
    cases hr
    have hbefore := h.array _ hmore hitems'
    rw [List.map_append, List.map_singleton, commasAfter_concat] at hbefore
    simpa using Represents.value hbefore
  | closeArray =>
    have hforms := Forms.array _ hmore
    rw [← List.reverse_eq_iff.2 hitems', List.map_append, List.map_singleton,
      commaList_concat] at hforms
    simpa using Represents.finished h hforms hr
  | _ => cases hr

/-- A field goes on with a comma or with the end of the object. -/
theorem Before.fieldValue {fields : List (Option String × Json)} {name : Option String}
    (h : Before (.field fields name :: frames) ts) (hv : Forms us v)
    (hr : step ⟨.continuation, .object ((name, v) :: fields) :: frames⟩ t = some r) :
    Represents r (ts ++ us ++ [t]) := by
  cases h with
  | field h name =>
  cases h with
  | object h parts hparts hfields =>
  have hmore : ∀ x ∈ parts ++ [(name, us, v)], Forms x.2.1 x.2.2 := by
    intro x hx
    rcases List.mem_append.1 hx with hx | hx
    · exact hparts x hx
    · rw [List.mem_singleton.1 hx]
      exact hv
  have hfields' : (name, v) :: fields =
      ((parts ++ [(name, us, v)]).map fun x => (x.1, x.2.2)).reverse := by simp [hfields]
  cases t with
  | comma =>
    cases hr
    have hbefore := h.object _ hmore hfields'
    rw [List.map_append, List.map_singleton, commasAfter_concat] at hbefore
    simpa [fieldPart] using Represents.name hbefore
  | closeObject =>
    have hforms := Forms.object _ hmore
    rw [← List.reverse_eq_iff.2 hfields', List.map_append, List.map_singleton,
      commaList_concat] at hforms
    simpa [fieldPart] using Represents.finished h hforms hr
  | _ => cases hr

/-- What is known is kept by a step. -/
theorem Represents.step (h : Represents r ts) (hr : step r t = some r') :
    Represents r' (ts ++ [t]) := by
  cases h with
  | value h => exact h.beginValue hr
  | firstItem h =>
    by_cases ht : t = .closeArray
    · subst ht
      simpa [commaList] using Represents.finished h (.array [] nofun) hr
    · rw [step_firstItem ht] at hr
      exact h.openArray.beginValue hr
  | name h => exact h.beginField hr
  | firstName h =>
    by_cases ht : t = .closeObject
    · subst ht
      simpa [commaList] using Represents.finished h (.object [] nofun) hr
    · rw [step_firstName ht] at hr
      exact h.openObject.beginField hr
  | colon h name =>
    cases t with
    | colon => cases hr; simpa using Represents.value (h.field name)
    | _ => cases hr
  | @finished frames _ _ _ _ h hv hfinish =>
    cases frames with
    | nil =>
      cases hfinish
      rw [step_nothing] at hr
      cases hr
    | cons frame frames =>
      cases frame with
      | array _ => cases hfinish; exact h.item hv hr
      | object _ => cases hfinish
      | field _ _ => cases hfinish; exact h.fieldValue hv hr

/-- What is known is kept by a run. -/
theorem Represents.foldlM (h : Represents r ts) (hr : us.foldlM Reader.step r = some r') :
    Represents r' (ts ++ us) := by
  induction us generalizing r ts with
  | nil =>
    cases hr
    rwa [List.append_nil]
  | cons t us ih =>
    obtain ⟨r₁, hstep, hr⟩ := Option.bind_eq_some_iff.1 hr
    simpa using ih (h.step hstep) hr

/-- The reader reads the tokens of one value and no others. -/
theorem ofTokens?_eq_some_iff : ofTokens? ts = some v ↔ Forms ts v := by
  constructor
  · intro h
    obtain ⟨r, hr, hv⟩ := Option.bind_eq_some_iff.1 h
    have hrep := (Represents.value .nil).foldlM hr
    rw [List.nil_append] at hrep
    cases hrep with
    | @finished frames _ _ _ _ h hforms hfinish =>
      cases frames with
      | nil =>
        cases hfinish
        cases h
        cases hv
        exact hforms
      | cons frame frames => cases frame <;> cases hfinish <;> cases hv
    | _ => cases hv
  · intro h
    have htaken := h.taken [] [] .value (.inl rfl)
    rw [List.append_nil] at htaken
    show (ts.foldlM Reader.step ⟨.value, []⟩).bind Reader.result? = some v
    rw [htaken]
    rfl

end GqlArtifacts.Json
