import GqlArtifacts.Backend.Response
import GqlArtifacts.Proofs.Json.Spelling
import GqlArtifacts.Proofs.Manifest.Decoding

/-!
# What a finished process amounts to

`Says` is what it is for the bytes on standard output to be a response: they are the text of one
JSON value, and the value has outputs and errors as its fields. A record may be written as an object
or as an array of its fields (`Json.HasFields`); it has no field twice, a list may be left out, and
other fields do not matter.

`judge_says` tells the answer from that: outputs count where the process succeeded and reported no
errors, reported errors come out all in one, and in every other case there is an error that has a
message and no locations.
-/

namespace GqlArtifacts

namespace Json

variable {v : Json} {a? b? : Option Json} {first second : String}

/-- The values of two fields of a record, where they are there. -/
inductive HasFields (first second : String) : Json → Option Json → Option Json → Prop
  | object {fields : List (String × Json)} {a? b? : Option Json}
    (ha : (fields.filter (·.1 == first)).map Prod.snd = a?.toList)
    (hb : (fields.filter (·.1 == second)).map Prod.snd = b?.toList) :
    HasFields first second (.object fields) a? b?
  | zero : HasFields first second (.array []) none none
  | one (a : Json) : HasFields first second (.array [a]) (some a) none
  | two (a b : Json) : HasFields first second (.array [a, b]) (some a) (some b)

/-- A list that may be left out. -/
inductive ListOf {α : Type} (written : α → Json → Prop) : Option Json → List α → Prop
  | absent : ListOf written none []
  | items {xs : List α} {vs : List Json} (h : List.Forall₂ written xs vs) :
    ListOf written (some (.array vs)) xs

/-! ### Records -/

namespace Record

theorem hasRepeat_eq_false_iff {l : List String} : hasRepeat l = false ↔ l.Nodup := by
  refine ⟨fun h => ?_, hasRepeat_eq_false⟩
  induction l with
  | nil => exact .nil
  | cons n ns ih =>
    rw [hasRepeat, Bool.or_eq_false_iff] at h
    exact List.nodup_cons.2 ⟨by simpa using h.1, ih h.2⟩

theorem filter_known {fields : List (String × Json)} {name : String}
    (hname : [first, second].contains name = true) :
    (fields.filter fun e => [first, second].contains e.1).filter (·.1 == name) =
      fields.filter (·.1 == name) := by
  rw [List.filter_filter]
  refine List.filter_congr fun e _ => ?_
  by_cases he : e.1 = name
  · rw [he, hname, Bool.and_true]
  · rw [beq_false_of_ne he, Bool.false_and]

/-- The known fields have no name twice just when there is at most one field of either name. -/
theorem nodup_known_iff {fields : List (String × Json)} :
    ((fields.filter fun e => [first, second].contains e.1).map Prod.fst).Nodup ↔
      (fields.filter (·.1 == first)).length ≤ 1 ∧ (fields.filter (·.1 == second)).length ≤ 1 := by
  have hcount : ∀ name, ((fields.filter fun e => [first, second].contains e.1).map Prod.fst).count
      name = if [first, second].contains name then (fields.filter (·.1 == name)).length else 0 := by
    intro name
    split
    · next hname =>
      rw [← filter_known hname, List.count_eq_countP, List.countP_map, List.countP_eq_length_filter]
      rfl
    · next hname =>
      rw [List.count_eq_zero]
      rintro hmem
      obtain ⟨e, he, rfl⟩ := List.mem_map.1 hmem
      exact hname (List.mem_filter.1 he).2
  rw [List.nodup_iff_count_le_one]
  constructor
  · intro h
    have h₁ := h first
    have h₂ := h second
    rw [hcount, if_pos (by simp)] at h₁ h₂
    exact ⟨h₁, h₂⟩
  · rintro ⟨h₁, h₂⟩ name
    rw [hcount]
    split
    · next hname =>
      simp only [List.contains_cons, List.contains_nil, Bool.or_false, Bool.or_eq_true,
        beq_iff_eq] at hname
      rcases hname with rfl | rfl
      · exact h₁
      · exact h₂
    · exact Nat.zero_le _

theorem get?_known {fields : List (String × Json)} {name : String}
    (hname : [first, second].contains name = true) :
    get? ⟨false, fields.filter fun e => [first, second].contains e.1⟩ name =
      ((fields.filter (·.1 == name)).map Prod.snd).head? := by
  rw [get?, ← List.head?_filter, filter_known hname, List.head?_map]

theorem eq_toList_head? {α : Type} {l : List α} (h : l.length ≤ 1) : l = l.head?.toList := by
  match l, h with
  | [], _ => rfl
  | [_], _ => rfl

/-- The two forms of a record give the fields that it has. -/
theorem exists_ofJson?_iff (hne : first ≠ second) :
    (∃ r, ofJson? [first, second] v = some r ∧ r.get? first = a? ∧ r.get? second = b?) ↔
      HasFields first second v a? b? := by
  constructor
  · rintro ⟨r, hr, rfl, rfl⟩
    unfold ofJson? at hr
    split at hr
    · next fields =>
      dsimp only at hr
      split at hr
      · cases hr
      · next hrepeat =>
        cases hr
        obtain ⟨h₁, h₂⟩ := nodup_known_iff.1 (hasRepeat_eq_false_iff.1 (by simpa using hrepeat))
        rw [get?_known (by simp), get?_known (by simp)]
        exact .object (eq_toList_head? (by simpa using h₁)) (eq_toList_head? (by simpa using h₂))
    · next items =>
      obtain ⟨fields, hfields, rfl⟩ := Option.map_eq_some_iff.1 hr
      obtain ⟨hlength, rfl⟩ := pair?_eq_some_iff.1 hfields
      match items, hlength with
      | [], _ => exact .zero
      | [a], _ => simpa [get?, hne] using HasFields.one a
      | [a, b], _ => simpa [get?, hne] using HasFields.two a b
    · cases hr
  · intro h
    cases h with
    | @object fields _ _ ha hb =>
      have hlength : ∀ {name : String} {x? : Option Json},
          (fields.filter (·.1 == name)).map Prod.snd = x?.toList →
            (fields.filter (·.1 == name)).length ≤ 1 := by
        intro name x? hx
        rw [← List.length_map, hx]
        cases x? <;> simp
      refine ⟨⟨false, fields.filter fun e => [first, second].contains e.1⟩, ?_, ?_, ?_⟩
      · rw [ofJson?, if_neg]
        rw [hasRepeat_eq_false_iff.2 (nodup_known_iff.2 ⟨hlength ha, hlength hb⟩)]
        exact Bool.false_ne_true
      · rw [get?_known (by simp), ha, Option.head?_toList]
      · rw [get?_known (by simp), hb, Option.head?_toList]
    | zero => exact ⟨_, rfl, rfl, rfl⟩
    | one a => exact ⟨_, rfl, by simp [get?], by simp [get?, hne]⟩
    | two a b => exact ⟨_, rfl, by simp [get?], by simp [get?, hne]⟩

theorem required_eq_some {α : Type} {r : Record} {name : String} {read : Json → Option α} {x : α} :
    r.required name read = some x ↔ ∃ v, r.get? name = some v ∧ read v = some x :=
  Option.bind_eq_some_iff

theorem withDefault_eq_some {α : Type} {r : Record} {name : String} {read : Json → Option α}
    {written : α → Json → Prop} (hread : ∀ v x, read v = some x ↔ written x v) {xs : List α} :
    r.withDefault name [] (items? read) = some xs ↔ ListOf written (r.get? name) xs := by
  have hitems : ∀ (vs : List Json) (xs : List α),
      vs.mapM read = some xs ↔ List.Forall₂ written xs vs := by
    intro vs xs
    rw [Manifest.mapM_eq_some_iff]
    induction vs generalizing xs with
    | nil => cases xs <;> simp
    | cons v vs ih => cases xs <;> simp [ih, hread]
  unfold withDefault
  cases r.get? name with
  | none =>
    constructor
    · rintro ⟨⟩
      exact .absent
    · rintro ⟨⟩
      rfl
  | some v =>
    constructor
    · intro h
      cases v with
      | array vs => exact .items ((hitems vs xs).1 h)
      | _ => cases h
    · rintro (_ | h)
      exact (hitems _ xs).2 h

end Record

theorem string?_eq_some {s : String} : v.string? = some s ↔ v = .string s := by
  cases v with
  | string _ => simp [string?]
  | _ => exact iff_of_false nofun nofun

theorem natBelow?_eq_some {bound n : Nat} :
    natBelow? bound v = some n ↔ v = .int n ∧ n < bound := by
  cases v with
  | int m =>
    rw [natBelow?, Json.int.injEq]
    split
    · next h =>
      rw [Option.some.injEq]
      omega
    · next h =>
      refine iff_of_false nofun ?_
      omega
  | _ => exact iff_of_false nofun fun h => nomatch h.1

end Json

/-! ### Responses -/

def Output.WrittenAs (o : Output) (v : Json) : Prop :=
  Json.HasFields "tsx" "dts" v (some (.string o.tsx)) (some (.string o.dts))

/-- Lines and columns have 32 bits. -/
def Location.WrittenAs (l : Location) (v : Json) : Prop :=
  Json.HasFields "line" "column" v (some (.int l.line)) (some (.int l.column)) ∧
    l.line < UInt32.size ∧ l.column < UInt32.size

def Diagnostic.WrittenAs (d : Diagnostic) (v : Json) : Prop :=
  ∃ locations?, Json.HasFields "message" "locations" v (some (.string d.message)) locations? ∧
    Json.ListOf Location.WrittenAs locations? d.locations

namespace Response

def WrittenAs (r : Response) (v : Json) : Prop :=
  ∃ outputs? errors?, Json.HasFields "outputs" "errors" v outputs? errors? ∧
    Json.ListOf Output.WrittenAs outputs? r.outputs ∧
    Json.ListOf Diagnostic.WrittenAs errors? r.errors

/-- The bytes are the text of one value, which is a response. -/
def Says (stdout : ByteArray) (r : Response) : Prop :=
  ∃ v, Json.IsText (Text.decode stdout.toList) v ∧ r.WrittenAs v

end Response

section

variable {v : Json}

theorem Output.ofJson?_eq_some {o : Output} : Output.ofJson? v = some o ↔ o.WrittenAs v := by
  rw [Output.WrittenAs, ← Json.Record.exists_ofJson?_iff (by decide)]
  simp only [Output.ofJson?, Option.bind_eq_bind, Option.bind_eq_some_iff,
    Json.Record.required_eq_some, Json.string?_eq_some, Option.pure_def, Option.some.injEq]
  constructor
  · rintro ⟨r, hr, tsx, ⟨_, htsx, rfl⟩, dts, ⟨_, hdts, rfl⟩, rfl⟩
    exact ⟨r, hr, htsx, hdts⟩
  · rintro ⟨r, hr, htsx, hdts⟩
    exact ⟨r, hr, _, ⟨_, htsx, rfl⟩, _, ⟨_, hdts, rfl⟩, rfl⟩

theorem Location.ofJson?_eq_some {l : Location} : Location.ofJson? v = some l ↔ l.WrittenAs v := by
  rw [Location.WrittenAs, ← Json.Record.exists_ofJson?_iff (by decide)]
  simp only [Location.ofJson?, Option.bind_eq_bind, Option.bind_eq_some_iff,
    Json.Record.required_eq_some, Json.natBelow?_eq_some, Option.pure_def, Option.some.injEq]
  constructor
  · rintro ⟨r, hr, line, ⟨_, hline, rfl, hl⟩, column, ⟨_, hcolumn, rfl, hc⟩, rfl⟩
    exact ⟨⟨r, hr, hline, hcolumn⟩, hl, hc⟩
  · rintro ⟨⟨r, hr, hline, hcolumn⟩, hl, hc⟩
    exact ⟨r, hr, _, ⟨_, hline, rfl, hl⟩, _, ⟨_, hcolumn, rfl, hc⟩, rfl⟩

theorem Diagnostic.ofJson?_eq_some {d : Diagnostic} :
    Diagnostic.ofJson? v = some d ↔ d.WrittenAs v := by
  have hne : "message" ≠ "locations" := by decide
  simp only [Diagnostic.WrittenAs, ← Json.Record.exists_ofJson?_iff hne, Diagnostic.ofJson?,
    Option.bind_eq_bind, Option.bind_eq_some_iff,
    Json.Record.required_eq_some, Json.string?_eq_some, Option.pure_def, Option.some.injEq,
    Json.Record.withDefault_eq_some fun _ _ => Location.ofJson?_eq_some]
  constructor
  · rintro ⟨r, hr, message, ⟨_, hmessage, rfl⟩, locations, hlocations, rfl⟩
    exact ⟨_, ⟨r, hr, hmessage, rfl⟩, hlocations⟩
  · rintro ⟨_, ⟨r, hr, hmessage, rfl⟩, hlocations⟩
    exact ⟨r, hr, _, ⟨_, hmessage, rfl⟩, _, hlocations, rfl⟩

theorem Response.ofJson?_eq_some {r : Response} : Response.ofJson? v = some r ↔ r.WrittenAs v := by
  have hne : "outputs" ≠ "errors" := by decide
  simp only [Response.WrittenAs, ← Json.Record.exists_ofJson?_iff hne, Response.ofJson?,
    Option.bind_eq_bind, Option.bind_eq_some_iff, Option.pure_def,
    Option.some.injEq, Json.Record.withDefault_eq_some fun _ _ => Output.ofJson?_eq_some,
    Json.Record.withDefault_eq_some fun _ _ => Diagnostic.ofJson?_eq_some]
  constructor
  · rintro ⟨record, hrecord, outputs, houtputs, errors, herrors, rfl⟩
    exact ⟨_, _, ⟨record, hrecord, rfl, rfl⟩, houtputs, herrors⟩
  · rintro ⟨_, _, ⟨record, hrecord, rfl, rfl⟩, houtputs, herrors⟩
    exact ⟨record, hrecord, _, houtputs, _, herrors, rfl⟩

end

namespace Response

variable {stdout : ByteArray} {r : Response}

theorem parse?_eq_some_iff : parse? stdout = some r ↔ Says stdout r := by
  simp only [parse?, Json.parseBytes?, Option.bind_eq_some_iff, Json.ofSymbols?_eq_some_iff,
    ofJson?_eq_some, Says]

/-! ### Answers -/

variable {f : Finished}

theorem append_ne_empty (s : String) {t : String} (ht : t ≠ "") : s ++ t ≠ "" := fun h =>
  ht (String.append_eq_empty_iff.1 h).2

theorem exitMessage_ne_empty (command : String) (stderr : ByteArray) :
    exitMessage command stderr ≠ "" := by
  unfold exitMessage
  dsimp only
  split
  · exact append_ne_empty _ (by decide)
  · next h =>
    intro hempty
    rw [hempty] at h
    exact h rfl

section
variable (explain : ByteArray → String) (command : String)

theorem judge_of_errors (h : Says f.stdout r) (herrors : r.errors ≠ []) :
    judge explain command f = .error (.merge r.errors) := by
  rw [judge, parse?_eq_some_iff.2 h]
  exact if_pos (by simpa using herrors)

theorem judge_of_outputs (h : Says f.stdout r) (herrors : r.errors = []) (hsuccess : f.success = true) :
    judge explain command f = .ok r.outputs := by
  rw [judge, parse?_eq_some_iff.2 h]
  simp [herrors, hsuccess]

/-- Where nothing is said that counts, there is an error with a message and no locations. -/
theorem exists_message (h : ¬∃ r, Says f.stdout r ∧ (r.errors ≠ [] ∨ f.success = true)) :
    ∃ message, judge explain command f = .error ⟨message, []⟩ ∧ message ≠ "" := by
  unfold judge
  cases hparse : parse? f.stdout with
  | some r =>
    have hsays := parse?_eq_some_iff.1 hparse
    have herrors : r.errors = [] := by
      by_contra herrors
      exact h ⟨r, hsays, .inl herrors⟩
    have hfailed : f.success = false := by
      rw [Bool.eq_false_iff]
      exact fun hsuccess => h ⟨r, hsays, .inr hsuccess⟩
    refine ⟨exitMessage command f.stderr, ?_, exitMessage_ne_empty command f.stderr⟩
    simp [herrors, hfailed, Diagnostic.plain]
  | none =>
    dsimp only
    split
    · refine ⟨_, rfl, fun hempty => ?_⟩
      exact append_ne_empty _ (by decide) (String.append_eq_empty_iff.1 hempty).1
    · exact ⟨_, rfl, exitMessage_ne_empty command f.stderr⟩

/-- A process is believed only when it says so: outputs count where it succeeded and its output is
a response without errors, reported errors come out all in one, and otherwise there is an error
without locations. The words for an output that is no response make no difference. -/
theorem judge_says (f : Finished) :
    (∀ outputs, judge explain command f = .ok outputs ↔
      f.success = true ∧ Says f.stdout ⟨outputs, []⟩) ∧
    (∀ r, Says f.stdout r → r.errors ≠ [] → judge explain command f = .error
      ⟨String.intercalate "\n" (r.errors.map Diagnostic.message),
        r.errors.flatMap Diagnostic.locations⟩) ∧
    ((¬∃ r, Says f.stdout r ∧ (r.errors ≠ [] ∨ f.success = true)) →
      ∃ message, judge explain command f = .error ⟨message, []⟩ ∧ message ≠ "") := by
  refine ⟨fun outputs => ⟨fun h => ?_, fun ⟨hsuccess, hsays⟩ => ?_⟩,
    fun r hsays herrors => judge_of_errors explain command hsays herrors,
    exists_message explain command⟩
  · by_cases hcounts : ∃ r, Says f.stdout r ∧ (r.errors ≠ [] ∨ f.success = true)
    · obtain ⟨r, hsays, hcounts⟩ := hcounts
      by_cases herrors : r.errors = []
      · have hsuccess := hcounts.resolve_left fun hne => hne herrors
        rw [judge_of_outputs explain command hsays herrors hsuccess] at h
        obtain ⟨outputs', errors'⟩ := r
        cases h
        cases herrors
        exact ⟨hsuccess, hsays⟩
      · rw [judge_of_errors explain command hsays herrors] at h
        cases h
    · obtain ⟨message, hmessage, -⟩ := exists_message explain command hcounts
      rw [hmessage] at h
      cases h
  · exact judge_of_outputs explain command hsays rfl hsuccess

end

end Response

end GqlArtifacts
