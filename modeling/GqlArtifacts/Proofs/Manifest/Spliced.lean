import GqlArtifacts.Proofs.Cache.Load
import GqlArtifacts.Proofs.Json.Splice
import GqlArtifacts.Proofs.Manifest.Decoding

/-!
# Damaged rows

`Manifest.spliced` is the saved text of a manifest with the values of some sources replaced by other
texts. Where each of these texts is a JSON value, the document is still read, the sources that were
left alone have their rows, and each of the others has the rows that its new value is a map of, or is
left out as a whole (`load_spliced`).
-/

namespace GqlArtifacts

open Files

namespace Manifest

variable {m : Manifest} {text? : Path → Option String}

/-- The text of a manifest, with a text for the value of each source. -/
def textWith (version : String) (values : List (String × List Char)) : String :=
  String.ofList (Json.objectText 0 [("graft_version", Json.quote version),
    ("sources", Json.objectText 1 values)])

/-- The text of the value of a source. -/
def valueText (text? : Option String) (rows : Rows) : List Char :=
  (text?.map String.toList).getD ((rowsToJson rows).prettyChars 2)

/-- The saved text of a manifest with the values of some sources replaced. -/
def spliced (m : Manifest) (text? : Path → Option String) : String :=
  textWith m.version (m.sources.toList.map fun e => (e.1.text, valueText (text? e.1) e.2))

theorem spliced_none (m : Manifest) : (m.spliced fun _ => none) = m.render := by
  rw [spliced, textWith, render, Json.pretty, toJson, Json.prettyChars_object, List.map_cons,
    List.map_singleton, Json.prettyChars_object, List.map_map]
  rfl

/-- A text for a value as the document can hold it: within the limits on nesting and numbers. -/
def IsValueText (text : String) : Prop :=
  ∃ v, Json.parse? text = some v ∧ v.withinLimits rowNesting = true

/-- The value of a source in a spliced text. -/
def splicedValue (text? : Option String) (rows : Rows) : Json :=
  match text? with
  | some text => (Json.parse? text).getD .null
  | none => rowsToJson rows

theorem ofSymbols?_valueText {t? : Option String} (h : ∀ text, t? = some text → IsValueText text)
    (rows : Rows) :
    Json.ofSymbols? ((valueText t? rows).map some) = some (splicedValue t? rows) := by
  cases t? with
  | some text =>
    obtain ⟨v, hv, -⟩ := h text rfl
    rw [splicedValue, hv]
    rwa [Json.parse?_eq] at hv
  | none =>
    have hprints := Json.printsAs_prettyChars (rowsToJson rows) 2 (plain_rowsToJson rows) []
    rw [List.append_nil, List.map_nil, Json.tokens?, Option.map_some, List.append_nil] at hprints
    show (Json.tokens? (((rowsToJson rows).prettyChars 2).map some)).bind _ = _
    rw [hprints, Option.bind_some, Json.ofTokens?_tokens]
    rfl

theorem withinLimits_splicedValue {t? : Option String}
    (h : ∀ text, t? = some text → IsValueText text) (rows : Rows) :
    (splicedValue t? rows).withinLimits rowNesting = true := by
  cases t? with
  | some text =>
    obtain ⟨v, hv, hlimits⟩ := h text rfl
    rw [splicedValue, hv]
    exact hlimits
  | none => exact withinLimits_rowsToJson rows

/-- The values of the sources in a spliced text. -/
def splicedValues (m : Manifest) (text? : Path → Option String) : OrderedMap Path Json Path.compare :=
  m.sources.map fun source rows => splicedValue (text? source) rows

/-- The manifest of a spliced text: a source stays where its value decodes as a whole. -/
def surviving (m : Manifest) (text? : Path → Option String) : Manifest :=
  ⟨m.version, (m.splicedValues text?).filterMap fun _ value => rowsOfJson? value.canonical⟩

/-- The texts in the places of values are JSON values. -/
def AreValueTexts (m : Manifest) (text? : Path → Option String) : Prop :=
  ∀ e ∈ m.sources.toList, ∀ text, text? e.1 = some text → IsValueText text

/-- A spliced text is read as the document with the values that were put in. -/
theorem parse?_spliced (h : m.AreValueTexts text?) :
    Json.parse? (m.spliced text?) = some (.object [("graft_version", .string m.version),
      ("sources", .object ((m.splicedValues text?).toList.map fun e => (e.1.text, e.2)))]) := by
  have hversion : Json.ofSymbols? ((Json.quote m.version).map some) = some (.string m.version) := by
    have hquote := Json.parse?_pretty (.string m.version) rfl
    rwa [Json.parse?_eq, Json.pretty, String.toList_ofList] at hquote
  have hvalues : ∀ e ∈ m.sources.toList.map fun e =>
      (e.1.text, valueText (text? e.1) e.2, splicedValue (text? e.1) e.2),
      Json.ofSymbols? (e.2.1.map some) = some e.2.2 := by
    intro e he
    obtain ⟨x, hx, rfl⟩ := List.mem_map.1 he
    exact ofSymbols?_valueText (h x hx) x.2
  have hsources := Json.ofSymbols?_objectText 1 hvalues
  have hfields : ∀ (text : List Char) (value : Json), Json.ofSymbols? (text.map some) = some value →
      ∀ e ∈ [("graft_version", Json.quote m.version, Json.string m.version), ("sources", text, value)],
        Json.ofSymbols? (e.2.1.map some) = some e.2.2 := by
    intro text value hvalue e he
    rcases List.mem_pair.1 he with rfl | rfl
    · exact hversion
    · exact hvalue
  have hdocument := Json.ofSymbols?_objectText 0 (hfields _ _ hsources)
  simp only [List.map_map] at hdocument
  rw [Json.parse?_eq, spliced, textWith, String.toList_ofList]
  refine hdocument.trans ?_
  simp [splicedValues, OrderedMap.map, Function.comp_def]

theorem parse?_spliced_eq (h : m.AreValueTexts text?) :
    parse? (m.spliced text?) = some (m.surviving text?) := by
  have hlimits : ((m.splicedValues text?).toList.map fun e => (e.1.text, e.2)).all
      (fun e => e.2.withinLimits rowNesting) = true := by
    rw [List.all_eq_true]
    intro e he
    obtain ⟨x, hx, rfl⟩ := List.mem_map.1 he
    obtain ⟨y, hy, rfl⟩ := List.mem_map.1 hx
    exact withinLimits_splicedValue (h y hy) y.2
  have hvalues : ((m.splicedValues text?).toList.map fun e => (e.1.text, e.2)).map
      (fun e : String × Json => ((⟨e.1⟩ : Path), e.2)) = (m.splicedValues text?).toList := by
    rw [List.map_map]
    exact List.map_id _
  have hsources : sourcesOfJson?
      (.object ((m.splicedValues text?).toList.map fun e => (e.1.text, e.2))) =
        some (m.surviving text?).sources := by
    rw [sourcesOfJson?, if_pos hlimits, hvalues, OrderedMap.ofList_toList]
    rfl
  rw [parse?, parse?_spliced h, Option.bind_some]
  show ((sourcesOfJson? (.object _)).bind fun sources => some (⟨m.version, sources⟩ : Manifest)) = _
  rw [hsources, Option.bind_some]
  rfl

theorem get?_surviving {source : Path} {rows : Rows} (hmem : (source, rows) ∈ m.sources.toList) :
    (m.surviving text?).sources.get? source =
      rowsOfJson? (splicedValue (text? source) rows).canonical := by
  have hvalue : (source, splicedValue (text? source) rows) ∈ (m.splicedValues text?).toList :=
    List.mem_map_of_mem hmem
  rw [surviving, OrderedMap.get?_filterMap fun _ _ _ _ => rfl, OrderedMap.get?_self_of_mem hvalue,
    Option.bind_some]

theorem get?_surviving_eq_none {source : Path} (hnone : m.sources.get? source = none) :
    (m.surviving text?).sources.get? source = none := by
  have hvalues : (m.splicedValues text?).get? source = none := by
    rw [OrderedMap.get?_eq_none_iff] at hnone ⊢
    intro e he
    obtain ⟨x, hx, rfl⟩ := List.mem_map.1 he
    exact hnone x hx
  rw [surviving, OrderedMap.get?_filterMap fun _ _ _ _ => rfl, hvalues, Option.bind_none]

/-- The saved text of a manifest with the values of some sources replaced by JSON values is still
loaded. The other sources have their rows, and a source with a new value has the rows that the value
is a map of, or is not there. With none replaced the text is the saved one. -/
theorem load_spliced {t : Tree} {dir : Path} (h : m.AreValueTexts text?)
    (hread : t.read (dir / manifestName) = .ok (m.spliced text?).toUTF8) :
    (m.spliced fun _ => none) = m.render ∧
      ∃ m', (Manifest.load dir).run t = (some m', t) ∧ m'.version = m.version ∧
      (∀ source, m.sources.get? source = none → m'.sources.get? source = none) ∧
      ∀ source rows, (source, rows) ∈ m.sources.toList →
        (text? source = none → m'.sources.get? source = some rows) ∧
        ∀ text, text? source = some text → ∃ v, Json.parse? text = some v ∧
          ∀ rows', m'.sources.get? source = some rows' ↔
            ∃ fields, v = .object fields ∧ IsRows rows' fields := by
  refine ⟨m.spliced_none, m.surviving text?, ?_, rfl, fun _ => get?_surviving_eq_none,
    fun source rows hmem => ⟨?_, ?_⟩⟩
  · rw [run_manifestLoad_eq, Tree.readText, hread]
    simp only [Text.ofBytes?_toUTF8]
    rw [parse?_spliced_eq h]
  · intro hnone
    rw [get?_surviving hmem, hnone]
    exact rowsOfJson?_canonical rows
  · intro text htext
    obtain ⟨v, hv, -⟩ := h _ hmem text htext
    refine ⟨v, hv, fun rows' => ?_⟩
    rw [get?_surviving hmem, htext, splicedValue, hv, Option.getD_some,
      rowsOfJson?_canonical_eq_some_iff]

namespace Sample

def row : Row := ⟨⟨"u"⟩, ⟨"v"⟩, some "é", none⟩

def rows (n : UInt8) : Rows := .ofList [(⟨Vector.replicate 16 n⟩, row)]

/-- Three sources with a row each. -/
def whole : Manifest :=
  ⟨"1", .ofList [(⟨"a"⟩, rows 1), (⟨"b"⟩, rows 2), (⟨"c"⟩, rows 3)]⟩

/-- No map in the place of the first value, and another map in the place of the second. -/
def texts (source : Path) : Option String :=
  if source = ⟨"a"⟩ then some Json.null.pretty
  else if source = ⟨"b"⟩ then some (rowsToJson (rows 4)).pretty
  else none

def tree (content : ByteArray) : Tree := Tree.empty.put ["manifest.json"] (.file content)

theorem read_tree (content : ByteArray) : (tree content).read (⟨"/"⟩ / manifestName) = .ok content :=
  rfl

theorem sources_whole :
    whole.sources.toList = [(⟨"a"⟩, rows 1), (⟨"b"⟩, rows 2), (⟨"c"⟩, rows 3)] := rfl

theorem areValueTexts : whole.AreValueTexts texts := by
  intro e he text htext
  rw [sources_whole] at he
  simp only [List.mem_cons, List.not_mem_nil, or_false] at he
  rcases he with rfl | rfl | rfl
  · obtain rfl := Option.some.inj htext
    exact ⟨_, Json.parse?_pretty .null rfl, rfl⟩
  · obtain rfl := Option.some.inj htext
    exact ⟨_, Json.parse?_pretty _ (plain_rowsToJson _), withinLimits_rowsToJson _⟩
  · cases htext

end Sample

/-- The first source is gone, the second has its new row, and the third its old one. -/
theorem load_spliced_sample : ∃ m', (Manifest.load ⟨"/"⟩).run
      (Sample.tree (Sample.whole.spliced Sample.texts).toUTF8) =
        (some m', Sample.tree (Sample.whole.spliced Sample.texts).toUTF8) ∧
    m'.sources.get? ⟨"a"⟩ = none ∧ m'.sources.get? ⟨"b"⟩ = some (Sample.rows 4) ∧
    m'.sources.get? ⟨"c"⟩ = some (Sample.rows 3) := by
  obtain ⟨-, m', hload, -, -, hsources⟩ :=
    load_spliced Sample.areValueTexts (Sample.read_tree (Sample.whole.spliced Sample.texts).toUTF8)
  rw [Sample.sources_whole] at hsources
  obtain ⟨v, hv, ha⟩ := (hsources ⟨"a"⟩ (Sample.rows 1) (by simp)).2 _ rfl
  obtain ⟨w, hw, hb⟩ := (hsources ⟨"b"⟩ (Sample.rows 2) (by simp)).2 _ rfl
  obtain rfl := Option.some.inj ((Json.parse?_pretty .null rfl).symm.trans hv)
  obtain rfl := Option.some.inj ((Json.parse?_pretty _ (plain_rowsToJson _)).symm.trans hw)
  refine ⟨m', hload, ?_, ?_, (hsources ⟨"c"⟩ (Sample.rows 3) (by simp)).1 rfl⟩
  · refine Option.eq_none_iff_forall_ne_some.2 fun rows hrows => ?_
    obtain ⟨_, hobject, -⟩ := (ha rows).1 hrows
    cases hobject
  · exact (hb _).2 (rowsOfJson?_canonical_eq_some_iff.1 (rowsOfJson?_canonical _))

end Manifest

end GqlArtifacts
