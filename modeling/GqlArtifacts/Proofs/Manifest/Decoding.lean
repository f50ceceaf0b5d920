import GqlArtifacts.Proofs.Manifest.RoundTrip

/-!
# What decodes as rows

The rows of a source are read from the canonical form of a value. Here the decoder is told as a
relation on the value as it is written: `Row.IsEntry` says which values are an entry, and `IsRows`
which are a map from hashes to entries, with fields found by name and the last of several fields of a
name (`Json.last?`). `rowsOfJson?_canonical_eq_some_iff` says that this is what the decoder does.
-/

namespace GqlArtifacts

namespace Json

/-- The value of the last field of a name. -/
def last? (fields : List (String × Json)) (name : String) : Option Json :=
  (fields.reverse.find? (·.1 == name)).map Prod.snd

/-- What the value of an optional text field may be, and the text it gives. -/
inductive IsOptional : Option Json → Option String → Prop
  | absent : IsOptional none none
  | null : IsOptional (some .null) none
  | text (s : String) : IsOptional (some (.string s)) (some s)

/-! ### Canonical values -/

theorem insertField_eq_insertEntry (k : String) (v : Json) (es : List (String × Json)) :
    insertField k v es = OrderedMap.insertEntry compare k v es := by
  induction es with
  | nil => rfl
  | cons e es ih =>
    obtain ⟨k', v'⟩ := e
    rw [insertField, OrderedMap.insertEntry, ih]
    cases hk : compare k k' with
    | lt => rfl
    | gt => rfl
    | eq =>
      obtain rfl := Std.LawfulEqCmp.eq_of_compare hk
      rfl

/-- The fields of an object by name, in canonical form. -/
def fieldMap (fields : List (String × Json)) : OrderedMap String Json compare :=
  .ofList (fields.map fun e => (e.1, e.2.canonical))

theorem canonical_object (fields : List (String × Json)) :
    (object fields).canonical = .object (fieldMap fields).toList := by
  have hfold : ∀ (es : List (String × Json)) (m : OrderedMap String Json compare),
      es.foldl (fun acc e => insertField e.1 e.2 acc) m.toList =
        (es.foldl (fun m e => m.insert e.1 e.2) m).toList := by
    intro es
    induction es with
    | nil => exact fun _ => rfl
    | cons e es ih =>
      intro m
      rw [List.foldl_cons, List.foldl_cons, ← ih, insertField_eq_insertEntry]
      rfl
  rw [canonical, canonicalFields_eq_map]
  exact congrArg object (hfold _ .empty)

theorem get?_fieldMap (fields : List (String × Json)) (k : String) :
    (fieldMap fields).get? k = (last? fields k).map canonical := by
  rw [fieldMap, OrderedMap.get?_ofList, ← List.map_reverse, List.find?_map, Option.map_map, last?,
    Option.map_map]
  have hkey : ∀ e : String × Json, (compare k e.1 == .eq) = (e.1 == k) := fun e => by
    rw [Bool.eq_iff_iff, beq_iff_eq, beq_iff_eq, Std.LawfulEqCmp.compare_eq_iff_eq, eq_comm]
  exact congrArg (fun p => (fields.reverse.find? p).map _) (funext hkey)

theorem mem_fieldMap_iff {fields : List (String × Json)} {k : String} {v : Json} :
    (k, v) ∈ (fieldMap fields).toList ↔ ∃ value, last? fields k = some value ∧ v = value.canonical := by
  constructor
  · intro h
    have hget := get?_fieldMap fields k
    rw [OrderedMap.get?_self_of_mem h] at hget
    obtain ⟨value, hvalue, rfl⟩ := Option.map_eq_some_iff.1 hget.symm
    exact ⟨value, hvalue, rfl⟩
  · rintro ⟨value, hvalue, rfl⟩
    have hget := get?_fieldMap fields k
    rw [hvalue] at hget
    obtain ⟨k', hk', hmem⟩ := OrderedMap.exists_mem_of_get? hget
    obtain rfl := Std.LawfulEqCmp.eq_of_compare hk'
    exact hmem

end Json

namespace Json

variable {v? : Option Json}

theorem canonicalItems_eq_map (items : List Json) : canonicalItems items = items.map canonical := by
  induction items with
  | nil => rfl
  | cons v items ih => rw [canonicalItems, ih, List.map_cons]

theorem map_canonical_eq_string {s : String} :
    v?.map canonical = some (.string s) ↔ v? = some (.string s) := by
  match v? with
  | none => simp
  | some v => cases v <;> simp [canonical]

theorem isOptional_map_canonical {s? : Option String} :
    IsOptional (v?.map canonical) s? ↔ IsOptional v? s? := by
  constructor
  · intro h
    match v?, h with
    | none, h => exact h
    | some .null, h => exact h
    | some (.string _), h => exact h
    | some (.bool _), h => cases h
    | some (.int _), h => cases h
    | some (.float _), h => cases h
    | some (.array _), h => cases h
    | some (.object _), h => cases h
    | some .unreadable, h => cases h
  · rintro (_ | _ | s)
    · exact .absent
    · exact .null
    · exact .text s

end Json

namespace Json.Record

variable {fields : List (String × Json)} {names : List String} {name : String}

theorem hasRepeat_eq_false {l : List String} (h : l.Nodup) : hasRepeat l = false := by
  induction l with
  | nil => rfl
  | cons n l ih =>
    obtain ⟨hn, hl⟩ := List.nodup_cons.1 h
    rw [hasRepeat, ih hl, Bool.or_false]
    simpa using hn

/-- A canonical object has no field twice, so it always makes a record. -/
theorem ofJson?_canonical_object (names : List String) (fields : List (String × Json)) :
    ofJson? names (object fields).canonical =
      some ⟨false, (fieldMap fields).toList.filter fun e => names.contains e.1⟩ := by
  have hnodup : (((fieldMap fields).toList.filter fun e => names.contains e.1).map
      Prod.fst).Nodup := by
    refine (List.pairwise_map.2 ?_ : List.Pairwise _ _)
    refine ((fieldMap fields).sorted.filter _).imp fun {a b} hlt heq => ?_
    cases hlt.symm.trans (Std.LawfulEqCmp.compare_eq_iff_eq.2 (show a.1 = b.1 from heq))
  rw [canonical_object, ofJson?]
  exact if_neg (by rw [hasRepeat_eq_false hnodup]; exact Bool.false_ne_true)

/-- A known field of a record is the last of its name. -/
theorem get?_canonical_object (hname : name ∈ names) :
    get? ⟨false, (fieldMap fields).toList.filter fun e => names.contains e.1⟩ name =
      (last? fields name).map canonical := by
  rw [← get?_fieldMap, get?, OrderedMap.get?, List.find?_filter]
  have hkey : ∀ e : String × Json, decide (names.contains e.1 = true ∧ (e.1 == name) = true) =
      (compare name e.1 == .eq) := fun e => by
    refine Bool.eq_iff_iff.2 (decide_eq_true_iff.trans ?_)
    rw [beq_iff_eq, beq_iff_eq, Std.LawfulEqCmp.compare_eq_iff_eq, List.contains_iff_mem]
    exact ⟨fun h => h.2.symm, fun h => ⟨h ▸ hname, h.symm⟩⟩
  exact congrArg (fun p => ((fieldMap fields).toList.find? p).map Prod.snd) (funext hkey)

theorem pair?_eq_some_iff {items : List Json} {fields : List (String × Json)} :
    pair? names items = some fields ↔ items.length ≤ names.length ∧ fields = names.zip items := by
  induction names generalizing items fields with
  | nil => cases items <;> simp [pair?, eq_comm]
  | cons n names ih =>
    cases items with
    | nil => simp [pair?, eq_comm]
    | cons v items => simp [pair?, ih, eq_comm]

theorem optionalOrAbsent_eq_some_iff {r : Record} {s? : Option String} :
    r.optionalOrAbsent name string? = some s? ↔ IsOptional (r.get? name) s? := by
  unfold optionalOrAbsent
  split
  · next h =>
    rw [h, Option.some.injEq]
    exact ⟨fun heq => heq ▸ .null, fun hopt => by cases hopt; rfl⟩
  · next v hnull h =>
    rw [h]
    constructor
    · intro hread
      obtain ⟨s, hs, rfl⟩ := Option.map_eq_some_iff.1 hread
      cases v with
      | string _ => cases hs; exact .text s
      | _ => cases hs
    · intro hopt
      cases hopt with
      | null => exact absurd rfl hnull
      | text s => rfl
  · next h =>
    rw [h, Option.some.injEq]
    exact ⟨fun heq => heq ▸ .absent, fun hopt => by cases hopt; rfl⟩

theorem required_eq_some_iff {r : Record} {s : String} :
    r.required name string? = some s ↔ r.get? name = some (.string s) := by
  rw [required, Option.bind_eq_some_iff]
  constructor
  · rintro ⟨v, hv, hs⟩
    cases v with
    | string _ => cases hs; exact hv
    | _ => cases hs
  · exact fun hv => ⟨_, hv, rfl⟩

end Json.Record

/-! ### Entries -/

namespace Row

variable {v : Json} {row : Row}

/-- The values that are the entry of a row: an object, or an array of the fields in order. -/
inductive IsEntry (row : Row) : Json → Prop
  | object {fields : List (String × Json)}
    (htsx : Json.last? fields "tsx_rel_path" = some (.string row.tsx.text))
    (hdts : Json.last? fields "dts_rel_path" = some (.string row.dts.text))
    (hgql : Json.IsOptional (Json.last? fields "gql_content") row.gql?)
    (hfragment : Json.IsOptional (Json.last? fields "gql_path_fragment") row.fragment?) :
    IsEntry row (.object fields)
  | array {items : List Json} (hlength : items.length ≤ 4)
    (htsx : items[0]? = some (.string row.tsx.text)) (hdts : items[1]? = some (.string row.dts.text))
    (hgql : Json.IsOptional items[2]? row.gql?)
    (hfragment : Json.IsOptional items[3]? row.fragment?) : IsEntry row (.array items)

/-- The names of the fields of an entry, in order. -/
def fieldNames : List String :=
  ["tsx_rel_path", "dts_rel_path", "gql_content", "gql_path_fragment"]

theorem ofJson?_eq_some_iff : Row.ofJson? v = some row ↔
    ∃ r, Json.Record.ofJson? fieldNames v = some r ∧
      r.get? "tsx_rel_path" = some (.string row.tsx.text) ∧
      r.get? "dts_rel_path" = some (.string row.dts.text) ∧
      Json.IsOptional (r.get? "gql_content") row.gql? ∧
      Json.IsOptional (r.get? "gql_path_fragment") row.fragment? := by
  simp only [Row.ofJson?, Option.bind_eq_bind, Option.bind_eq_some_iff,
    Json.Record.required_eq_some_iff, Json.Record.optionalOrAbsent_eq_some_iff]
  constructor
  · rintro ⟨r, hr, tsx, htsx, dts, hdts, gql?, hgql, fragment?, hfragment, h⟩
    cases h
    exact ⟨r, hr, htsx, hdts, hgql, hfragment⟩
  · rintro ⟨r, hr, htsx, hdts, hgql, hfragment⟩
    exact ⟨r, hr, _, htsx, _, hdts, _, hgql, _, hfragment, rfl⟩

theorem get?_positional {items : List Json} (hlength : items.length ≤ 4) :
    Json.Record.get? ⟨true, fieldNames.zip items⟩ "tsx_rel_path" = items[0]? ∧
      Json.Record.get? ⟨true, fieldNames.zip items⟩ "dts_rel_path" = items[1]? ∧
      Json.Record.get? ⟨true, fieldNames.zip items⟩ "gql_content" = items[2]? ∧
      Json.Record.get? ⟨true, fieldNames.zip items⟩ "gql_path_fragment" = items[3]? :=
  match items, hlength with
  | [], _ => ⟨rfl, rfl, rfl, rfl⟩
  | [_], _ => ⟨rfl, rfl, rfl, rfl⟩
  | [_, _], _ => ⟨rfl, rfl, rfl, rfl⟩
  | [_, _, _], _ => ⟨rfl, rfl, rfl, rfl⟩
  | [_, _, _, _], _ => ⟨rfl, rfl, rfl, rfl⟩

/-- A row is read from a value just when the value is its entry. -/
theorem ofJson?_canonical_eq_some_iff : Row.ofJson? v.canonical = some row ↔ row.IsEntry v := by
  rw [ofJson?_eq_some_iff]
  cases v with
  | object fields =>
    rw [Json.Record.ofJson?_canonical_object]
    have hget : ∀ name ∈ fieldNames, Json.Record.get? ⟨false, (Json.fieldMap fields).toList.filter
        fun e => fieldNames.contains e.1⟩ name = (Json.last? fields name).map Json.canonical :=
      fun name hname => Json.Record.get?_canonical_object hname
    constructor
    · rintro ⟨r, hr, htsx, hdts, hgql, hfragment⟩
      cases hr
      rw [hget _ (by decide)] at htsx hdts hgql hfragment
      exact .object (Json.map_canonical_eq_string.1 htsx) (Json.map_canonical_eq_string.1 hdts)
        (Json.isOptional_map_canonical.1 hgql) (Json.isOptional_map_canonical.1 hfragment)
    · rintro ⟨htsx, hdts, hgql, hfragment⟩
      refine ⟨_, rfl, ?_, ?_, ?_, ?_⟩ <;> rw [hget _ (by decide)]
      · exact Json.map_canonical_eq_string.2 htsx
      · exact Json.map_canonical_eq_string.2 hdts
      · exact Json.isOptional_map_canonical.2 hgql
      · exact Json.isOptional_map_canonical.2 hfragment
  | array items =>
    have hrecord : ∀ r, Json.Record.ofJson? fieldNames (Json.array items).canonical = some r ↔
        items.length ≤ 4 ∧ r = ⟨true, fieldNames.zip (items.map Json.canonical)⟩ := by
      intro r
      rw [Json.canonical, Json.canonicalItems_eq_map, Json.Record.ofJson?, Option.map_eq_some_iff]
      simp only [Json.Record.pair?_eq_some_iff, List.length_map]
      constructor
      · rintro ⟨fields, ⟨hlength, hfields⟩, hr⟩
        exact ⟨hlength, by rw [← hr, hfields]⟩
      · rintro ⟨hlength, hr⟩
        exact ⟨_, ⟨hlength, rfl⟩, hr.symm⟩
    simp only [hrecord]
    constructor
    · rintro ⟨r, ⟨hlength, rfl⟩, hfields⟩
      have hfour : (items.map Json.canonical).length ≤ 4 := by simpa using hlength
      obtain ⟨h0, h1, h2, h3⟩ := get?_positional hfour
      rw [h0, h1, h2, h3] at hfields
      simp only [List.getElem?_map, Json.map_canonical_eq_string, Json.isOptional_map_canonical]
        at hfields
      exact .array hlength hfields.1 hfields.2.1 hfields.2.2.1 hfields.2.2.2
    · intro hentry
      cases hentry with
      | array hlength htsx hdts hgql hfragment =>
      refine ⟨_, ⟨hlength, rfl⟩, ?_⟩
      have hfour : (items.map Json.canonical).length ≤ 4 := by simpa using hlength
      obtain ⟨h0, h1, h2, h3⟩ := get?_positional hfour
      rw [h0, h1, h2, h3]
      simp only [List.getElem?_map, Json.map_canonical_eq_string, Json.isOptional_map_canonical]
      exact ⟨htsx, hdts, hgql, hfragment⟩
  | _ =>
    refine iff_of_false ?_ fun h => by cases h
    rintro ⟨r, hr, -⟩
    cases hr

end Row

/-! ### Rows -/

namespace Manifest

variable {v : Json} {rows : Rows}

/-- The values that are a map from hashes to entries: every name is a hash, every value the entry of
the row at that hash, and there are no other rows. -/
structure IsRows (rows : Rows) (fields : List (String × Json)) : Prop where
  row : ∀ k value, Json.last? fields k = some value →
    ∃ h row, k = h.toHex ∧ row.IsEntry value ∧ rows.get? h = some row
  field : ∀ h row, rows.get? h = some row →
    ∃ value, Json.last? fields h.toHex = some value ∧ row.IsEntry value

theorem mapM_eq_some_iff {α β : Type} {f : α → Option β} {l : List α} {bs : List β} :
    l.mapM f = some bs ↔ l.map f = bs.map some := by
  induction l generalizing bs with
  | nil => cases bs <;> simp
  | cons a l ih =>
    simp only [List.mapM_cons, Option.bind_eq_bind, Option.bind_eq_some_iff, ih, Option.pure_def,
      Option.some.injEq]
    constructor
    · rintro ⟨b, hb, bs, hbs, rfl⟩
      rw [List.map_cons, List.map_cons, hb, hbs]
    · intro h
      cases bs with
      | nil => cases h
      | cons b bs =>
        obtain ⟨hb, hbs⟩ := List.cons.inj h
        exact ⟨b, hb, bs, hbs, rfl⟩

theorem exists_mapM_eq_some {α β : Type} {f : α → Option β} {l : List α}
    (h : ∀ a ∈ l, ∃ b, f a = some b) : ∃ bs, l.mapM f = some bs := by
  induction l with
  | nil => exact ⟨[], rfl⟩
  | cons a l ih =>
    obtain ⟨b, hb⟩ := h a List.mem_cons_self
    obtain ⟨bs, hbs⟩ := ih fun a' ha' => h a' (List.mem_cons_of_mem _ ha')
    exact ⟨b :: bs, by rw [List.mapM_cons, hb, hbs]; rfl⟩

/-- How one field of the rows of a source is read. -/
def entry? (e : String × Json) : Option (ContentHash × Row) := do
  let h ← ContentHash.ofHex? e.1
  let row ← Row.ofJson? e.2
  return (h, row)

theorem entry?_eq_some_iff {e : String × Json} {h : ContentHash} {row : Row} :
    entry? e = some (h, row) ↔ e.1 = h.toHex ∧ Row.ofJson? e.2 = some row := by
  simp only [ entry?, Option.bind_eq_bind, Option.bind_eq_some_iff, ContentHash.ofHex?_eq_some_iff,
    Option.pure_def, Option.some.injEq, Prod.mk.injEq]
  constructor
  · rintro ⟨h, he, row, hrow, rfl, rfl⟩
    exact ⟨he, hrow⟩
  · exact fun ⟨he, hrow⟩ => ⟨h, he, row, hrow, rfl, rfl⟩

/-- Rows that are read one by one from fields in the order of their names are in order, too. -/
theorem sorted_of_mapM {es : List (String × Json)} {entries : List (ContentHash × Row)}
    (hes : es.Pairwise fun a b => compare a.1 b.1 = .lt) (h : es.map entry? = entries.map some) :
    entries.Pairwise fun a b => ContentHash.compare a.1 b.1 = .lt := by
  have hnames : ∀ (es : List (String × Json)) (entries : List (ContentHash × Row)),
      es.map entry? = entries.map some → es.map Prod.fst = entries.map fun e => e.1.toHex := by
    intro es
    induction es with
    | nil => intro entries h; cases entries <;> simp at h ⊢
    | cons e es ih =>
      intro entries h
      cases entries with
      | nil => cases h
      | cons b entries =>
        obtain ⟨he, hes⟩ := List.cons.inj h
        rw [List.map_cons, List.map_cons, ih _ hes, ( entry?_eq_some_iff.1 he).1]
  have hpairwise : (entries.map fun e => e.1.toHex).Pairwise fun a b => compare a b = .lt := by
    rw [← hnames _ _ h, List.pairwise_map]
    exact hes
  refine (List.pairwise_map.1 hpairwise).imp fun {a b} hlt => ?_
  cases hcompare : ContentHash.compare a.1 b.1 with
  | lt => rfl
  | eq =>
    rw [Std.LawfulEqCmp.eq_of_compare hcompare] at hlt
    cases hlt.symm.trans (Std.LawfulEqCmp.compare_eq_iff_eq.2 rfl)
  | gt =>
    have hgt := ContentHash.compare_toHex (Std.OrientedCmp.gt_iff_lt.1 hcompare)
    cases hgt.symm.trans (Std.OrientedCmp.gt_iff_lt.2 hlt)

/-- The rows that are read from the fields of an object are the rows of that object. -/
theorem isRows_of_mapM {fields : List (String × Json)} {entries : List (ContentHash × Row)}
    (h : (Json.fieldMap fields).toList.mapM entry? = some entries) :
    IsRows (.ofList entries) fields := by
  rw [mapM_eq_some_iff] at h
  have htoList : (OrderedMap.ofList entries : Rows).toList = entries :=
    OrderedMap.toList_foldl_insert (m := .empty)
      (by simpa [OrderedMap.empty] using sorted_of_mapM (Json.fieldMap fields).sorted h)
  constructor
  · intro k value hvalue
    have hmem := List.mem_map_of_mem (f := entry?) (Json.mem_fieldMap_iff.2 ⟨value, hvalue, rfl⟩)
    rw [h] at hmem
    obtain ⟨⟨hash, row⟩, hmem, he⟩ := List.mem_map.1 hmem
    obtain ⟨hk, hrow⟩ := entry?_eq_some_iff.1 he.symm
    exact ⟨hash, row, hk, Row.ofJson?_canonical_eq_some_iff.1 hrow,
      OrderedMap.get?_self_of_mem (by rwa [htoList])⟩
  · intro hash row hget
    obtain ⟨hash', hsame, hmem⟩ := OrderedMap.exists_mem_of_get? hget
    obtain rfl := Std.LawfulEqCmp.eq_of_compare hsame
    rw [htoList] at hmem
    have hmem' := List.mem_map_of_mem (f := some) hmem
    rw [← h] at hmem'
    obtain ⟨⟨k, v⟩, hmem', he⟩ := List.mem_map.1 hmem'
    obtain ⟨hk, hrow⟩ := entry?_eq_some_iff.1 he
    obtain ⟨value, hvalue, rfl⟩ := Json.mem_fieldMap_iff.1 hmem'
    exact ⟨value, hk ▸ hvalue, Row.ofJson?_canonical_eq_some_iff.1 hrow⟩

theorem IsRows.unique {rows' : Rows} {fields : List (String × Json)} (h : IsRows rows fields)
    (h' : IsRows rows' fields) : rows = rows' := by
  have hle : ∀ {r r' : Rows}, IsRows r fields → IsRows r' fields →
      ∀ k row, r.get? k = some row → r'.get? k = some row := by
    intro r r' hr hr' k row hget
    obtain ⟨value, hvalue, hentry⟩ := hr.field k row hget
    obtain ⟨k', row', hk', hentry', hget'⟩ := hr'.row _ _ hvalue
    obtain rfl := ContentHash.toHex_injective hk'
    rw [← Row.ofJson?_canonical_eq_some_iff] at hentry hentry'
    rw [hentry] at hentry'
    cases hentry'
    exact hget'
  exact OrderedMap.ext_get? fun k => Option.ext fun row => ⟨hle h h' k row, hle h' h k row⟩

/-- Rows are read from a value just when it is their map as a whole. -/
theorem rowsOfJson?_canonical_eq_some_iff :
    rowsOfJson? v.canonical = some rows ↔ ∃ fields, v = .object fields ∧ IsRows rows fields := by
  cases v with
  | object fields =>
    have hread : rowsOfJson? (Json.object fields).canonical =
        ((Json.fieldMap fields).toList.mapM entry?).bind fun entries => some (.ofList entries) := by
      rw [Json.canonical_object]
      rfl
    rw [hread, Option.bind_eq_some_iff]
    constructor
    · rintro ⟨entries, hentries, h⟩
      cases h
      exact ⟨fields, rfl, isRows_of_mapM hentries⟩
    · rintro ⟨_, ⟨⟩, hrows⟩
      obtain ⟨entries, hentries⟩ : ∃ entries, (Json.fieldMap fields).toList.mapM entry? = some entries := by
        refine exists_mapM_eq_some fun e he => ?_
        obtain ⟨value, hvalue, hv⟩ := Json.mem_fieldMap_iff.1 he
        obtain ⟨h, row, hk, hentry, -⟩ := hrows.row _ _ hvalue
        exact ⟨(h, row), entry?_eq_some_iff.2
          ⟨hk, by rw [hv]; exact Row.ofJson?_canonical_eq_some_iff.2 hentry⟩⟩
      exact ⟨entries, hentries, congrArg some ((isRows_of_mapM hentries).unique hrows)⟩
  | _ => exact iff_of_false nofun fun ⟨_, h, _⟩ => by cases h

end Manifest

end GqlArtifacts
