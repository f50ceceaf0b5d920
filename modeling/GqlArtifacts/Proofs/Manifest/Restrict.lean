import GqlArtifacts.Manifest
import GqlArtifacts.Proofs.Hash
import GqlArtifacts.Proofs.OrderedMap
import GqlArtifacts.Proofs.Path

/-!
# Rows that stay and rows that go

Every way in which a manifest loses rows is `Manifest.restrict` with some condition. Conditions on
rows here do not mind how a path is spelled (`Spelled`), and a manifest is `Full` when no source is
without rows. `lookup?_restrict` and `toList_restrict` say what is left, `restrict_restrict` that
two restrictions are one, and `pruned_eq_restrict` that erasing row by row comes to the same.
-/

namespace GqlArtifacts.Manifest

variable {m : Manifest} {p q : Path} {h k : ContentHash} {row : Row}

/-! ### Look-ups -/

theorem mem_toList_iff :
    (p, h, row) ∈ m.toList ↔ ∃ rows, (p, rows) ∈ m.sources.toList ∧ (h, row) ∈ rows.toList := by
  simp only [toList, List.mem_flatMap, List.mem_map, Prod.mk.injEq, Prod.exists]
  constructor
  · rintro ⟨p', rows, hp, h', row', hr, rfl, rfl, rfl⟩
    exact ⟨rows, hp, hr⟩
  · rintro ⟨rows, hp, hr⟩
    exact ⟨p, rows, hp, h, row, hr, rfl, rfl, rfl⟩

theorem lookup?_eq_bind : m.lookup? p h = (m.sources.get? p).bind fun rows => rows.get? h := by
  rw [lookup?, rows]
  cases m.sources.get? p <;> rfl

theorem lookup?_congr (hs : p.same q = true) : m.lookup? p h = m.lookup? q h := by
  rw [lookup?_eq_bind, lookup?_eq_bind, OrderedMap.get?_congr (Path.compare_eq_iff.2 hs)]

theorem lookup?_eq_some_iff :
    m.lookup? p h = some row ↔ ∃ q, p.same q = true ∧ (q, h, row) ∈ m.toList := by
  rw [lookup?_eq_bind, Option.bind_eq_some_iff]
  simp only [OrderedMap.get?_eq_some_iff, Path.compare_eq_iff, Std.LawfulEqCmp.compare_eq_iff_eq,
    mem_toList_iff]
  constructor
  · rintro ⟨rows, ⟨q, hq, hrows⟩, h', rfl, hrow⟩
    exact ⟨q, hq, rows, hrows, hrow⟩
  · rintro ⟨q, hq, rows, hrows, hrow⟩
    exact ⟨rows, ⟨q, hq, hrows⟩, h, rfl, hrow⟩

theorem lookup?_of_mem (hm : (p, h, row) ∈ m.toList) : m.lookup? p h = some row :=
  lookup?_eq_some_iff.2 ⟨p, Path.same_self p, hm⟩

@[simp] theorem lookup?_empty (version : String) : (empty version).lookup? p h = none := rfl

theorem lookup?_record : (m.record q k row).lookup? p h =
    if p.same q = true ∧ h = k then some row else m.lookup? p h := by
  rw [lookup?_eq_bind, record]
  simp only [OrderedMap.get?_insert, Path.compare_eq_iff]
  by_cases hs : p.same q = true
  · simp only [hs, if_true, true_and, Option.bind_some, OrderedMap.get?_insert,
      Std.LawfulEqCmp.compare_eq_iff_eq]
    rw [lookup?_congr hs]
    rfl
  · simp only [hs, if_false, false_and, Bool.false_eq_true]
    rw [lookup?_eq_bind]

theorem lookup?_eraseRow : (m.eraseRow q k).lookup? p h =
    if p.same q = true ∧ h = k then none else m.lookup? p h := by
  rw [lookup?_eq_bind, eraseRow]
  simp only [OrderedMap.get?_insert, Path.compare_eq_iff]
  by_cases hs : p.same q = true
  · simp only [hs, if_true, true_and, Option.bind_some, OrderedMap.get?_erase,
      Std.LawfulEqCmp.compare_eq_iff_eq]
    rw [lookup?_congr hs]
    rfl
  · simp only [hs, if_false, false_and, Bool.false_eq_true]
    rw [lookup?_eq_bind]

theorem lookup?_eraseSource : (m.eraseSource q).lookup? p h =
    if p.same q = true then none else m.lookup? p h := by
  rw [lookup?_eq_bind, eraseSource]
  simp only [OrderedMap.get?_erase, Path.compare_eq_iff]
  split
  · rfl
  · rw [lookup?_eq_bind]

/-- Manifests with the same sources, spelled in the same way, and the same rows are the same. -/
theorem ext_lookup? {n : Manifest} (hv : m.version = n.version)
    (hkeys : ∀ p, p ∈ m.sources.keys ↔ p ∈ n.sources.keys)
    (h : ∀ p k, m.lookup? p k = n.lookup? p k) : m = n := by
  have hsome : ∀ p, (m.sources.get? p).isSome = (n.sources.get? p).isSome := fun p => by
    rw [Bool.eq_iff_iff, OrderedMap.isSome_get?_iff, OrderedMap.isSome_get?_iff]
    simp only [hkeys]
  have hsources : m.sources = n.sources := by
    refine OrderedMap.ext_keys hkeys fun p => ?_
    have hp := hsome p
    have hrows := fun k => h p k
    simp only [lookup?_eq_bind] at hrows
    cases hm : m.sources.get? p <;> cases hn : n.sources.get? p <;> rw [hm, hn] at hp hrows
    · cases hp
    · cases hp
    · exact congrArg some (OrderedMap.ext_get? hrows)
  obtain ⟨v, s⟩ := m
  obtain ⟨v', s'⟩ := n
  obtain rfl : v = v' := hv
  exact congrArg (Manifest.mk v) hsources

/-- Recording a source that is there keeps the sources as they are spelled. -/
theorem keys_record (hp : ∃ q ∈ m.sources.keys, p.same q = true) :
    (m.record p h row).sources.keys = m.sources.keys := by
  have hsome : (m.sources.get? p).isSome := by
    rw [OrderedMap.isSome_get?_iff]
    simpa only [Path.compare_eq_iff] using hp
  obtain ⟨rows, hrows⟩ := Option.isSome_iff_exists.1 hsome
  rw [record, OrderedMap.keys, OrderedMap.keys, OrderedMap.toList_insert_of_get? hrows, List.map_map]
  refine List.map_congr_left fun e _ => ?_
  show (if Path.compare p e.1 = .eq then (e.1, _) else e).1 = e.1
  split <;> rfl

theorem mem_keys_of_lookup? (hl : m.lookup? p h = some row) :
    ∃ q ∈ m.sources.keys, p.same q = true := by
  obtain ⟨q, hs, hq⟩ := lookup?_eq_some_iff.1 hl
  obtain ⟨rows, hrows, -⟩ := mem_toList_iff.1 hq
  exact ⟨q, List.mem_map_of_mem hrows, hs⟩

/-! ### Restrictions -/

/-- A condition on rows that is the same for all spellings of a path. -/
def Spelled (P : Path → ContentHash → Bool) : Prop :=
  ∀ p q h, p.same q = true → P p h = P q h

/-- Every source has a row. -/
def Full (m : Manifest) : Prop := ∀ e ∈ m.sources.toList, e.2.isEmpty = false

variable {P Q : Path → ContentHash → Bool}

/-- The rows of one source that a condition leaves, if it leaves any. -/
def keptRows (P : Path → ContentHash → Bool) (p : Path) (rows : Rows) : Option Rows :=
  if (rows.filter fun h _ => P p h).isEmpty then none else some (rows.filter fun h _ => P p h)

theorem version_restrict : (m.restrict P).version = m.version := rfl

theorem restrict_sources : (m.restrict P).sources = m.sources.filterMap (keptRows P) := rfl

theorem toList_restrict_sources : (m.restrict P).sources.toList =
    m.sources.toList.filterMap fun e => (keptRows P e.1 e.2).map (e.1, ·) := rfl

theorem eq_of_sources {n : Manifest} (hv : m.version = n.version)
    (hs : m.sources.toList = n.sources.toList) : m = n := by
  obtain ⟨v, s⟩ := m
  obtain ⟨v', s'⟩ := n
  obtain rfl : v = v' := hv
  exact congrArg (Manifest.mk v) (OrderedMap.ext hs)

theorem keptRows_congr (hP : Spelled P) (rows : Rows) (hs : p.same q = true) :
    keptRows P p rows = keptRows P q rows := by
  simp only [keptRows, hP p q _ hs]

theorem lookup?_restrict (hP : Spelled P) :
    (m.restrict P).lookup? p h = (m.lookup? p h).filter fun _ => P p h := by
  have hfilter : ∀ rows : Rows, (rows.filter fun h _ => P p h).get? h =
      (rows.get? h).filter fun _ => P p h := fun rows =>
    OrderedMap.get?_filter fun a b _ hab => by rw [Std.LawfulEqCmp.eq_of_compare hab]
  have hkept : ∀ p q rows, Path.compare p q = .eq → keptRows P p rows = keptRows P q rows :=
    fun _ _ rows hpq => keptRows_congr hP rows (Path.compare_eq_iff.1 hpq)
  rw [lookup?_eq_bind, lookup?_eq_bind, restrict_sources, OrderedMap.get?_filterMap hkept]
  cases m.sources.get? p with
  | none => rfl
  | some rows =>
    rw [Option.bind_some, Option.bind_some, ← hfilter, keptRows]
    split
    · next hempty => exact (OrderedMap.isEmpty_iff.1 hempty h).symm
    · rfl

theorem full_empty (version : String) : (empty version).Full := by
  simp [Full, empty, OrderedMap.empty]

theorem full_restrict : (m.restrict P).Full := by
  intro e he
  rw [restrict_sources] at he
  obtain ⟨x, -, hx⟩ := List.mem_filterMap.1 he
  obtain ⟨rows, hrows, rfl⟩ := Option.map_eq_some_iff.1 hx
  unfold keptRows at hrows
  split at hrows
  · cases hrows
  · next hne => cases hrows; simpa using hne

theorem full_record (hm : m.Full) : (m.record p h row).Full := by
  intro e he
  rcases OrderedMap.mem_insert he with he | ⟨-, hv⟩
  · exact hm e he
  · rw [hv, Bool.eq_false_iff]
    intro hempty
    have := OrderedMap.isEmpty_iff.1 hempty h
    rw [OrderedMap.get?_insert, if_pos Std.ReflCmp.compare_self] at this
    cases this

theorem getD_keptRows (P : Path → ContentHash → Bool) (p : Path) (rows : Rows) :
    ((keptRows P p rows).getD .empty).toList = rows.toList.filter fun e => P p e.1 := by
  unfold keptRows
  split
  · next hempty => exact (List.isEmpty_iff.1 hempty).symm
  · rfl

/-- The rows of a listing of sources. -/
def entries (es : List (Path × Rows)) : List (Path × ContentHash × Row) :=
  es.flatMap fun e => e.2.toList.map fun r => (e.1, r.1, r.2)

theorem entries_cons (e : Path × Rows) (es : List (Path × Rows)) :
    entries (e :: es) = e.2.toList.map (fun r => (e.1, r.1, r.2)) ++ entries es := rfl

theorem toList_eq_entries : m.toList = entries m.sources.toList := rfl

theorem toList_restrict : (m.restrict P).toList = m.toList.filter fun e => P e.1 e.2.1 := by
  rw [toList_eq_entries, toList_eq_entries, restrict_sources]
  show entries (m.sources.toList.filterMap fun e => (keptRows P e.1 e.2).map (e.1, ·)) = _
  induction m.sources.toList with
  | nil => rfl
  | cons e es ih =>
    have hrows := getD_keptRows P e.1 e.2
    have he : (e.2.toList.map fun r => (e.1, r.1, r.2)).filter (fun e => P e.1 e.2.1) =
        (e.2.toList.filter fun r => P e.1 r.1).map fun r => (e.1, r.1, r.2) := by
      rw [List.filter_map]; rfl
    rw [List.filterMap_cons, entries_cons, List.filter_append, he, ← hrows]
    cases keptRows P e.1 e.2 with
    | none => exact ih
    | some rows => exact congrArg (rows.toList.map (fun r => (e.1, r.1, r.2)) ++ ·) ih

theorem restrict_restrict :
    (m.restrict P).restrict Q = m.restrict fun p h => P p h && Q p h := by
  have hboth : ∀ (p : Path) (rows : Rows), (rows.filter fun h _ => P p h && Q p h) =
      (rows.filter fun h _ => P p h).filter fun h _ => Q p h := fun p rows =>
    OrderedMap.ext (by simp only [OrderedMap.filter, List.filter_filter, Bool.and_comm])
  have hempty : ∀ (p : Path) (rows : Rows), rows.isEmpty = true →
      (rows.filter fun h _ => Q p h).isEmpty = true := by
    intro p rows hrows
    show (rows.toList.filter _).isEmpty = true
    rw [List.isEmpty_iff.1 hrows]
    rfl
  have hrows : ∀ (p : Path) (rows : Rows), keptRows (fun p h => P p h && Q p h) p rows =
      (keptRows P p rows).bind (keptRows Q p) := by
    intro p rows
    unfold keptRows
    rw [hboth]
    by_cases hp : (rows.filter fun h _ => P p h).isEmpty = true
    · rw [if_pos hp, if_pos (hempty p _ hp)]
      rfl
    · rw [if_neg hp, Option.bind_some]
  refine eq_of_sources rfl ?_
  simp only [toList_restrict_sources, List.filterMap_filterMap]
  refine List.filterMap_congr fun e _ => ?_
  rw [hrows]
  cases keptRows P e.1 e.2 with
  | none => rfl
  | some rows => rfl

/-- A condition that all rows meet takes nothing away. -/
theorem keptRows_of_forall {rows : Rows} (hr : rows.isEmpty = false)
    (hP : ∀ e ∈ rows.toList, P p e.1 = true) : keptRows P p rows = some rows := by
  have hall : (rows.filter fun h _ => P p h) = rows :=
    OrderedMap.ext (List.filter_eq_self.2 hP)
  rw [keptRows, hall, hr]
  rfl

/-- Only the rows that are there matter to a restriction. -/
theorem restrict_congr (hPQ : ∀ e ∈ m.toList, P e.1 e.2.1 = Q e.1 e.2.1) :
    m.restrict P = m.restrict Q := by
  refine eq_of_sources rfl ?_
  rw [toList_restrict_sources, toList_restrict_sources]
  refine List.filterMap_congr fun e he => ?_
  have hrows : (e.2.filter fun h _ => P e.1 h) = e.2.filter fun h _ => Q e.1 h :=
    OrderedMap.ext (List.filter_congr fun r hr =>
      hPQ (e.1, r.1, r.2) (mem_toList_iff.2 ⟨_, he, hr⟩))
  rw [keptRows, keptRows, hrows]

theorem restrict_of_forall (hm : m.Full) (hP : ∀ e ∈ m.toList, P e.1 e.2.1 = true) :
    m.restrict P = m := by
  refine eq_of_sources rfl ?_
  rw [toList_restrict_sources]
  conv => rhs; rw [← List.filterMap_some (l := m.sources.toList)]
  refine List.filterMap_congr fun e he => ?_
  rw [keptRows_of_forall (hm e he) fun r hr => hP (e.1, r.1, r.2) (mem_toList_iff.2 ⟨_, he, hr⟩)]
  rfl

/-! ### Erasing row by row -/

/-- Whether a row is not one of the source `p` with a hash outside `live`. -/
def sparedBy (source : Path) (live : List ContentHash) (p : Path) (h : ContentHash) : Bool :=
  !p.same source || live.contains h

theorem spelled_sparedBy (source : Path) (live : List ContentHash) :
    Spelled (sparedBy source live) := by
  intro p q h hs
  have : p.same source = q.same source := by
    rw [Path.same, Path.same, eq_of_beq hs]
  rw [sparedBy, sparedBy, this]

theorem foldl_eraseRow {rows : Rows} (hs : m.sources.get? p = some rows)
    (es : List (ContentHash × Row)) : es.foldl (fun m e => m.eraseRow p e.1) m =
      { m with sources := m.sources.insert p (es.foldl (fun r e => r.erase e.1) rows) } := by
  induction es generalizing m rows with
  | nil => rw [List.foldl_nil, List.foldl_nil, OrderedMap.insert_of_get? hs]
  | cons e es ih =>
    have hrows : m.eraseRow p e.1 = { m with sources := m.sources.insert p (rows.erase e.1) } := by
      rw [eraseRow, Manifest.rows, hs, Option.getD_some]
    rw [List.foldl_cons, hrows, ih (OrderedMap.get?_insert_of_eq Std.ReflCmp.compare_self),
      OrderedMap.insert_insert hs]
    rfl

theorem keptRows_sparedBy (hm : m.Full) {rows : Rows} {source : Path}
    (hs : m.sources.get? source = some rows) (live : List ContentHash) {e : Path × Rows}
    (he : e ∈ m.sources.toList) : keptRows (sparedBy source live) e.1 e.2 =
      if Path.compare source e.1 = .eq then
        if (rows.filter fun h _ => live.contains h).isEmpty then none
        else some (rows.filter fun h _ => live.contains h)
      else some e.2 := by
  split
  · next heq =>
    have hrows : e.2 = rows := by
      rw [OrderedMap.get?_of_mem (v := e.2) he heq] at hs
      exact Option.some.inj hs
    have hspared : sparedBy source live e.1 = live.contains := by
      funext h
      rw [sparedBy, Path.same_comm, Path.compare_eq_iff.1 heq, Bool.not_true, Bool.false_or]
    rw [keptRows, hspared, hrows]
  · next hne =>
    refine keptRows_of_forall (hm e he) fun r _ => ?_
    rw [Path.compare_eq_iff, Bool.not_eq_true, Path.same_comm] at hne
    rw [sparedBy, hne]
    rfl

/-- Erasing the rows of a source outside `live`, and then the source if it is bare. -/
theorem pruned_eq_restrict (hm : m.Full) {rows : Rows} {source : Path}
    (hs : m.sources.get? source = some rows) (live : List ContentHash) :
    ((rows.toList.filter fun e => !live.contains e.1).foldl (fun m e => m.eraseRow source e.1)
      m).eraseIfBare source = m.restrict (sparedBy source live) := by
  rw [foldl_eraseRow hs, OrderedMap.foldl_erase_filter rows live.contains, eraseIfBare, Manifest.rows,
    OrderedMap.get?_insert_of_eq Std.ReflCmp.compare_self, Option.getD_some]
  split
  · next hbare =>
    refine eq_of_sources rfl ?_
    show (m.sources.insert source _).toList.filter _ = _
    rw [toList_restrict_sources, OrderedMap.toList_insert_of_get? hs, ← List.filterMap_eq_filter,
      List.filterMap_map]
    refine List.filterMap_congr fun e he => ?_
    rw [keptRows_sparedBy hm hs live he, if_pos hbare]
    by_cases heq : Path.compare source e.1 = .eq
    · simp [heq, Option.guard]
    · simp [heq, Option.guard]
  · next hkept =>
    refine eq_of_sources rfl ?_
    show (m.sources.insert source _).toList = _
    rw [toList_restrict_sources, OrderedMap.toList_insert_of_get? hs, ← List.filterMap_eq_map]
    refine List.filterMap_congr fun e he => ?_
    rw [keptRows_sparedBy hm hs live he, if_neg hkept]
    by_cases heq : Path.compare source e.1 = .eq
    · simp [heq]
    · simp [heq]

/-- A source without rows loses none. -/
theorem sparedBy_of_get?_none {source : Path} (hs : m.sources.get? source = none)
    (live : List ContentHash) {e : Path × ContentHash × Row} (he : e ∈ m.toList) :
    sparedBy source live e.1 e.2.1 = true := by
  obtain ⟨rows, hp, -⟩ := mem_toList_iff.1 he
  have hne := OrderedMap.get?_eq_none_iff.1 hs _ hp
  rw [Ne, Path.compare_eq_iff, Bool.not_eq_true, Path.same_comm] at hne
  rw [sparedBy, hne]
  rfl

/-- Erasing whole sources. -/
theorem foldl_eraseSource_filter (m : Manifest) (live : List Path) :
    (m.sources.toList.filter fun e => !live.any e.1.same).foldl (fun m e => m.eraseSource e.1) m =
      { m with sources := m.sources.filter fun p _ => live.any p.same } := by
  have hfold : ∀ (es : List (Path × Rows)) (m : Manifest),
      es.foldl (fun m e => m.eraseSource e.1) m =
        { m with sources := es.foldl (fun s e => s.erase e.1) m.sources } := by
    intro es
    induction es with
    | nil => intro m; rfl
    | cons e es ih => intro m; exact ih _
  rw [hfold, OrderedMap.foldl_erase_filter m.sources fun p => live.any p.same]

theorem foldl_eraseSource (hm : m.Full) (live : List Path) :
    (m.sources.toList.filter fun e => !live.any e.1.same).foldl
      (fun m e => m.eraseSource e.1) m = m.restrict fun p _ => live.any p.same := by
  rw [foldl_eraseSource_filter]
  refine eq_of_sources rfl ?_
  show m.sources.toList.filter _ = _
  rw [toList_restrict_sources, ← List.filterMap_eq_filter]
  refine List.filterMap_congr fun e he => ?_
  cases hlive : live.any e.1.same with
  | true =>
    rw [keptRows_of_forall (hm e he) fun _ _ => hlive]
    simp [Option.guard, hlive]
  | false =>
    have hnone : (e.2.filter fun _ _ => live.any e.1.same).isEmpty = true := by
      rw [hlive]
      exact List.isEmpty_iff.2 (List.filter_false _)
    rw [keptRows, if_pos hnone]
    simp [Option.guard, hlive]

/-! ### Counting -/

theorem countP_toList (R : Path → ContentHash → Bool) :
    m.toList.countP (fun e => R e.1 e.2.1) =
      (m.sources.toList.map fun e => e.2.toList.countP fun r => R e.1 r.1).sum := by
  rw [toList_eq_entries, entries, List.countP_flatMap]
  congr 1
  refine List.map_congr_left fun e _ => ?_
  show List.countP _ (e.2.toList.map _) = _
  rw [List.countP_map]
  rfl

/-- Recording a row is not seen by a condition that refuses it. -/
theorem countP_record {R : Path → ContentHash → Bool} (hR : Spelled R) (hk : R p h = false) :
    (m.record p h row).toList.countP (fun e => R e.1 e.2.1) =
      m.toList.countP fun e => R e.1 e.2.1 := by
  have hrows : ∀ rows : Rows, (rows.insert h row).toList.countP (fun r => R p r.1) =
      rows.toList.countP fun r => R p r.1 := by
    intro rows
    rw [List.countP_eq_length_filter, List.countP_eq_length_filter]
    refine congrArg List.length (OrderedMap.filter_toList_insert (fun k' heq => ?_) rows)
    rwa [← Std.LawfulEqCmp.eq_of_compare heq]
  have hsum := OrderedMap.sum_insert (f := fun p rows => rows.toList.countP fun r => R p r.1)
    (fun a b rows hab => by simp only [hR a b _ (Path.compare_eq_iff.1 hab)]) m.sources p
    ((m.rows p).insert h row)
  have hold : ((m.sources.get? p).map fun rows => rows.toList.countP fun r => R p r.1).getD 0 =
      (m.rows p).toList.countP fun r => R p r.1 := by
    rw [Manifest.rows]
    cases m.sources.get? p <;> rfl
  rw [hold, hrows] at hsum
  rw [countP_toList, countP_toList]
  exact Nat.add_right_cancel hsum

theorem countP_sources_record {S : Path → Bool} (hS : ∀ q, p.same q = true → S q = false) :
    (m.record p h row).sources.toList.countP (fun e => S e.1) =
      m.sources.toList.countP fun e => S e.1 := by
  rw [List.countP_eq_length_filter, List.countP_eq_length_filter]
  refine congrArg List.length (OrderedMap.filter_toList_insert (fun q heq => ?_) m.sources)
  exact hS q (Path.compare_eq_iff.1 heq)

/-- A restriction that spares all rows of certain sources keeps their number. -/
theorem countP_sources_restrict (hm : m.Full) {S : Path → Bool}
    (hP : ∀ p h, S p = true → P p h = true) :
    (m.restrict P).sources.toList.countP (fun e => S e.1) =
      m.sources.toList.countP fun e => S e.1 := by
  rw [toList_restrict_sources, List.countP_filterMap]
  refine List.countP_congr fun e he => ?_
  cases hS : S e.1 with
  | true => rw [keptRows_of_forall (hm e he) fun _ _ => hP _ _ hS]; simp [hS]
  | false => cases keptRows P e.1 e.2 <;> simp [hS]

theorem count_restrict :
    m.toList.countP (fun e => !P e.1 e.2.1) + (m.restrict P).count = m.count := by
  rw [count, count, toList_restrict, ← List.countP_eq_length_filter, Nat.add_comm,
    List.length_eq_countP_add_countP (fun e => P e.1 e.2.1)]
  simp only [Bool.decide_eq_false, Bool.not_eq_true]

end GqlArtifacts.Manifest
