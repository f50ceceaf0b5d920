import GqlArtifacts.Manifest.Json
import GqlArtifacts.Proofs.Hash
import GqlArtifacts.Proofs.Json.RoundTrip
import GqlArtifacts.Proofs.OrderedMap

/-!
# A saved manifest reads back

`Manifest.parse?_render`: reading the text of any manifest gives that manifest. Rows are read from
the canonical form of their object, whose fields stand in the order of their names; the rows of a
source are already written in that order (`canonical_rowsToJson`), since hashes are ordered as their
texts are.
-/

namespace GqlArtifacts

namespace Json

theorem insertField_of_forall_lt {k : String} {v : Json} {es : List (String × Json)}
    (h : ∀ e ∈ es, compare e.1 k = .lt) : insertField k v es = es ++ [(k, v)] := by
  induction es with
  | nil => rfl
  | cons e es ih =>
    have hgt : compare k e.1 = .gt := Std.OrientedCmp.gt_iff_lt.2 (h e (by simp))
    simp [insertField, hgt, ih fun x hx => h x (by simp [hx])]

/-- Fields in the order of their names stay as they are. -/
theorem foldl_insertField {acc es : List (String × Json)}
    (h : (acc ++ es).Pairwise fun a b => compare a.1 b.1 = .lt) :
    es.foldl (fun acc e => insertField e.1 e.2 acc) acc = acc ++ es := by
  induction es generalizing acc with
  | nil => simp
  | cons e es ih =>
    have hlt : ∀ x ∈ acc, compare x.1 e.1 = .lt := fun x hx =>
      (List.pairwise_append.1 h).2.2 x hx e (by simp)
    rw [List.foldl_cons, insertField_of_forall_lt hlt, ih (by simpa using h)]
    simp

theorem canonicalFields_eq_map (es : List (String × Json)) :
    canonicalFields es = es.map fun e => (e.1, e.2.canonical) := by
  induction es with
  | nil => rfl
  | cons e es ih => rw [canonicalFields, ih]; rfl

theorem plainFields_iff {es : List (String × Json)} :
    plainFields es = true ↔ ∀ e ∈ es, e.2.plain = true := by
  induction es with
  | nil => simp [plainFields]
  | cons e es ih => simp [plainFields, ih]

theorem fieldsWithinLimits_iff {depth : Nat} {es : List (String × Json)} :
    fieldsWithinLimits depth es = true ↔ ∀ e ∈ es, e.2.withinLimits depth = true := by
  induction es with
  | nil => simp [fieldsWithinLimits]
  | cons e es ih => simp [fieldsWithinLimits, ih]

end Json

namespace Row
variable (row : Row)

theorem plain_toJson : row.toJson.plain = true := by
  obtain ⟨tsx, dts, gql?, fragment?⟩ := row
  cases gql? <;> cases fragment? <;> rfl

theorem withinLimits_toJson (depth : Nat) : row.toJson.withinLimits (depth + 1) = true := by
  obtain ⟨tsx, dts, gql?, fragment?⟩ := row
  cases gql? <;> cases fragment? <;> rfl

/-- A row reads back from its object with the fields in the order of their names. -/
theorem ofJson?_canonical_toJson : Row.ofJson? row.toJson.canonical = some row := by
  obtain ⟨⟨tsx⟩, ⟨dts⟩, gql?, fragment?⟩ := row
  have h1 : compare "dts_rel_path" "tsx_rel_path" = .lt := by decide
  have h2 : compare "gql_content" "tsx_rel_path" = .lt := by decide
  have h3 : compare "gql_content" "dts_rel_path" = .gt := by decide
  have h4 : compare "gql_path_fragment" "tsx_rel_path" = .lt := by decide
  have h5 : compare "gql_path_fragment" "dts_rel_path" = .gt := by decide
  have h6 : compare "gql_path_fragment" "gql_content" = .gt := by decide
  cases gql? <;> cases fragment? <;>
    simp [toJson, Json.canonical, Json.canonicalFields, Json.insertField, h1, h2, h3, h4, h5, h6] <;>
    rfl

end Row

namespace Manifest

/-! ### The rows of one source -/

section Rows
variable (rows : Rows)

theorem plain_rowsToJson : (rowsToJson rows).plain = true := by
  rw [rowsToJson, Json.plain, Json.plainFields_iff]
  intro e he
  obtain ⟨x, -, rfl⟩ := List.mem_map.1 he
  exact x.2.plain_toJson

theorem withinLimits_rowsToJson : (rowsToJson rows).withinLimits rowNesting = true := by
  show Json.fieldsWithinLimits _ _ = true
  rw [Json.fieldsWithinLimits_iff]
  intro e he
  obtain ⟨x, -, rfl⟩ := List.mem_map.1 he
  exact x.2.withinLimits_toJson _

theorem canonical_rowsToJson :
    (rowsToJson rows).canonical =
      .object (rows.toList.map fun e => (e.1.toHex, e.2.toJson.canonical)) := by
  rw [rowsToJson, Json.canonical, Json.canonicalFields_eq_map, List.map_map,
    Json.foldl_insertField]
  · rfl
  · rw [List.nil_append, List.pairwise_map]
    exact rows.sorted.imp fun h => ContentHash.compare_toHex h

theorem rowsOfJson?_canonical : rowsOfJson? (rowsToJson rows).canonical = some rows := by
  rw [canonical_rowsToJson, rowsOfJson?, Json.mapM_map_eq_some]
  · exact congrArg some (OrderedMap.ofList_toList rows)
  · intro e
    dsimp only
    rw [ContentHash.ofHex?_toHex, Row.ofJson?_canonical_toJson]
    rfl

end Rows

/-! ### The document -/

variable (m : Manifest)

theorem plain_toJson : m.toJson.plain = true := by
  have hsources : Json.plainFields (m.sources.toList.map fun e => (e.1.text, rowsToJson e.2)) =
      true := by
    rw [Json.plainFields_iff]
    intro e he
    obtain ⟨x, -, rfl⟩ := List.mem_map.1 he
    exact plain_rowsToJson _
  simpa [toJson, Json.plain, Json.plainFields] using hsources

theorem sourcesOfJson?_toJson :
    sourcesOfJson? (.object (m.sources.toList.map fun e => (e.1.text, rowsToJson e.2))) =
      some m.sources := by
  have hlimits : (m.sources.toList.map fun e => (e.1.text, rowsToJson e.2)).all
      (fun e => e.2.withinLimits rowNesting) = true := by
    rw [List.all_eq_true]
    intro e he
    obtain ⟨x, -, rfl⟩ := List.mem_map.1 he
    exact withinLimits_rowsToJson _
  have hvalues : (m.sources.toList.map fun e => (e.1.text, rowsToJson e.2)).map
      (fun e : String × Json => ((⟨e.1⟩ : Path), e.2)) =
        (m.sources.map fun _ rows => rowsToJson rows).toList := by
    rw [List.map_map]
    rfl
  have hrows : (m.sources.map fun _ rows => rowsToJson rows).filterMap
      (fun _ value => rowsOfJson? value.canonical) = m.sources := by
    apply OrderedMap.ext
    simp [OrderedMap.filterMap, OrderedMap.map, List.filterMap_map, rowsOfJson?_canonical]
  show (if _ then _ else _) = _
  rw [if_pos hlimits, hvalues, OrderedMap.ofList_toList, hrows]

theorem ofJson?_toJson : ofJson? m.toJson = some m := by
  have hrecord : Json.Record.ofJson? ["graft_version", "sources"] m.toJson =
      some ⟨false, [("graft_version", .string m.version),
        ("sources", .object (m.sources.toList.map fun e => (e.1.text, rowsToJson e.2)))]⟩ := rfl
  rw [ofJson?, hrecord]
  show ((sourcesOfJson? (.object _)).bind fun sources => some ⟨m.version, sources⟩) = some m
  rw [sourcesOfJson?_toJson, Option.bind_some]

/-- The text of a manifest reads back as that manifest. -/
theorem parse?_render : parse? m.render = some m := by
  rw [parse?, render, Json.parse?_pretty _ m.plain_toJson, Option.bind_some, ofJson?_toJson]

end Manifest

end GqlArtifacts
