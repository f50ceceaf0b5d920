import GqlArtifacts.Proofs.Session.Run

/-!
# The manifest after a run

Whatever the tree, the manifest on disk, the units, the scope and the backend are: after a run that
succeeds the manifest that can be loaded is the one described by `Reconciled`, and the summary counts
what has happened (`Tallied`). A source that the run covers has the rows of its last contexts and no
others. Any other source keeps the rows whose artifacts were there at the start, or has none after a
run for the whole project.
-/

namespace GqlArtifacts

open Files CacheM

/-- Whether a source is that of a unit or listed. -/
def Scope.covers (scope : Scope) (units : List SourceUnit) (p : Path) : Bool :=
  units.any (fun u => u.path.same p) || scope.listed.any fun q => q.same p

namespace Session

variable {backend : Backend} {scope : Scope} {units : List SourceUnit} {s s' : Session}
  {t t₁ t₂ t₃ t₄ t' : Tree} {contexts : List Context} {outputs : List (Context × Output)}
  {p : Path} {k : ContentHash}

/-- What a manifest holds after a run; `previous` are the rows that were found with their artifacts.
-/
structure Reconciled (scope : Scope) (units : List SourceUnit) (contexts : List Context)
    (previous : Path → ContentHash → Option Row) (m : Manifest) : Prop where
  /-- A covered source has exactly the hashes that were built for it. -/
  hashes : ∀ p k, scope.covers units p = true →
    ((m.lookup? p k).isSome = true ↔ ∃ c ∈ contexts, c.path.same p = true ∧ c.hash = k)
  /-- Each with the row of the last context in the order of the units. -/
  rows : ∀ p k, scope.covers units p = true →
    m.lookup? p k = (lastContext? contexts p k).map Context.row
  others : ∀ p k, scope.covers units p = false →
    m.lookup? p k = if scope = .project then none else previous p k
  /-- No source is listed without a row. -/
  full : ∀ p rows, m.sources.get? p = some rows → rows.isEmpty = false

/-- What a summary counts; `loaded` is the manifest as the run found it. -/
structure Tallied (scope : Scope) (units : List SourceUnit) (contexts : List Context)
    (loaded : Manifest) (summary : Summary) : Prop where
  all : summary.generated + summary.skipped = contexts.length
  generated : summary.generated = (contexts.filter fun c => !c.skip).length
  /-- The rows of covered sources whose hash was not built. -/
  pruned : summary.pruned = (loaded.toList.filter fun e =>
    scope.covers units e.1 && !contexts.any fun c => c.path.same e.1 && c.hash == e.2.1).length
  removedSources : summary.removedSources =
    if scope = .project then (loaded.sources.keys.filter fun p => !scope.covers units p).length
    else 0

theorem covers_eq (hb : s.contexts? units t = some contexts) (scope : Scope) (p : Path) :
    scope.covers units p = covered scope contexts p := by
  rw [Scope.covers, covered, Context.any_path_eq hb]

namespace Completed

variable (h : Completed backend scope units s s' contexts outputs t t₁ t₂ t₃ t₄ t')
include h

/-- The memory after a run, look-up by look-up. -/
theorem lookup? (p : Path) (k : ContentHash) : s'.cache.manifest.lookup? p k =
    (((lastContext? contexts p k).map Context.row).or
      ((s.cache.loaded t).manifest.lookup? p k)).filter fun _ => keeps scope contexts p k := by
  rw [h.shrunk.manifest, Manifest.lookup?_restrict spelled_keeps, lookup?_recorded]

/-- A run for the whole project leaves the rows of its last contexts, whatever there was before. -/
theorem lookup?_project (hscope : scope = .project) (p : Path) (k : ContentHash) :
    s'.cache.manifest.lookup? p k = (lastContext? contexts p k).map Context.row := by
  rw [h.lookup?, hscope, keeps, ← isSome_lastContext?]
  cases lastContext? contexts p k with
  | some c => rfl
  | none => cases (s.cache.loaded t).manifest.lookup? p k <;> rfl

theorem version : s'.cache.manifest.version = s.cache.version := by
  rw [h.shrunk.manifest, Manifest.version_restrict, version_recorded, Cache.loaded,
    Manifest.version_restrict, Cache.version_persisted]

theorem full : s'.cache.manifest.Full := h.shrunk.manifest ▸ Manifest.full_restrict

theorem length_outputs : outputs.length = contexts.countP fun c => !c.skip := by
  rw [← length_flatMap_staleGroups, ← (exec_generate_eq_ok h.generated).2, List.length_map]

theorem reconciled : Reconciled scope units contexts
    (fun p k => ((s.cache.persisted t).lookup? p k).filter (Row.isPresent s.cache.root t))
    s'.cache.manifest := by
  have hrows : ∀ p k, scope.covers units p = true →
      s'.cache.manifest.lookup? p k = (lastContext? contexts p k).map Context.row := by
    intro p k hcover
    rw [covers_eq h.batch] at hcover
    have hkeeps : keeps scope contexts p k = built contexts p k := by
      cases scope with
      | project => rfl
      | partly listed => rw [keeps, hcover]; rfl
    rw [h.lookup?, hkeeps, ← isSome_lastContext?]
    cases lastContext? contexts p k with
    | some c => rfl
    | none => cases (s.cache.loaded t).manifest.lookup? p k <;> rfl
  refine ⟨fun p k hcover => ?_, hrows, fun p k hcover => ?_, fun p rows hp => ?_⟩
  · rw [hrows p k hcover, Option.isSome_map, isSome_lastContext?, built_iff]
  · rw [covers_eq h.batch] at hcover
    have hbuilt : built contexts p k = false := by
      rw [Bool.eq_false_iff]
      intro hb
      rw [covered_of_built hb] at hcover
      cases hcover
    have hlast : lastContext? contexts p k = none := by
      rw [← Option.not_isSome_iff_eq_none, isSome_lastContext?, hbuilt]
      simp
    rw [h.lookup?, hlast, Option.map_none, Option.none_or]
    cases scope with
    | project =>
      rw [keeps, hbuilt, if_pos rfl]
      cases (s.cache.loaded t).manifest.lookup? p k <;> rfl
    | partly listed =>
      rw [keeps, hcover, Bool.not_false, Bool.true_or, if_neg (by simp), Cache.lookup?_loaded]
      cases ((s.cache.persisted t).lookup? p k).filter (Row.isPresent s.cache.root t) <;> rfl
  · obtain ⟨q, -, hmem⟩ := OrderedMap.exists_mem_of_get? hp
    exact h.full _ hmem

theorem tallied : Tallied scope units contexts (s.cache.loaded t).manifest s'.summary := by
  have hlen := h.length_outputs
  have hle := List.countP_le_length (p := fun c : Context => !c.skip) (l := contexts)
  constructor <;> rw [h.summary]
  · show outputs.length + (contexts.length - outputs.length) = contexts.length
    omega
  · rw [← List.countP_eq_length_filter]
    exact hlen
  · rw [← List.countP_eq_length_filter]
    simp only [covers_eq h.batch]
    rfl
  · cases scope with
    | partly listed => rfl
    | project =>
      rw [if_pos rfl, OrderedMap.keys, List.filter_map, List.length_map,
        ← List.countP_eq_length_filter]
      show forgotten .project contexts _ = _
      simp only [forgotten, ← covers_eq h.batch]
      rfl

end Completed

/-- After a run that succeeds the manifest on disk has, for every covered source, exactly the rows
of its last contexts, and for every other source what the scope leaves it; the summary agrees. -/
theorem reconciled_of_run
    (h : (Session.run backend scope units s).run t = ((.ok contexts, s'), t')) :
    ∃ m, ((Manifest.load s.cache.dir).run t').1 = some m ∧ m.version = s.cache.version ∧
      Reconciled scope units contexts
        (fun p k => ((s.cache.persisted t).lookup? p k).filter (Row.isPresent s.cache.root t)) m ∧
      Tallied scope units contexts (s.cache.load.run t).1.2.manifest s'.summary := by
  obtain ⟨outputs, t₁, t₂, t₃, t₄, hrun⟩ := completed_of_run h
  refine ⟨s'.cache.manifest, manifest?_of_wrote hrun.saved, hrun.version, hrun.reconciled, ?_⟩
  rw [Cache.run_load]
  exact hrun.tallied

namespace Sample

/-- The only hash in the manifest on disk. -/
def old : ContentHash := ⟨Vector.replicate 16 0⟩

/-- A source with one row, as a manifest lists it. -/
def rowText (source tsx dts : String) : String :=
  "\"" ++ source ++ "\":\x7b\"00000000000000000000000000000000\":\x7b\"tsx_rel_path\":\"" ++ tsx ++
    "\",\"dts_rel_path\":\"" ++ dts ++ "\"\x7d\x7d"

/-- A manifest with a row for each of three sources, and the artifacts of the rows. -/
def tree : Tree :=
  ["t", "u", "v", "w", "x", "y"].foldl (fun t name => t.put [name] (.file "".toUTF8))
    (Tree.empty.put ["manifest.json"] (.file ("\x7b\"graft_version\":\"1\",\"sources\":\x7b" ++
      rowText "a" "t" "u" ++ "," ++ rowText "b" "v" "w" ++ "," ++ rowText "d" "x" "y" ++
      "\x7d\x7d").toUTF8))

def session : Session :=
  .new ⟨⟨⟨""⟩, ⟨""⟩, ⟨""⟩⟩, ⟨Vector.replicate 16 0⟩, [], .null, none⟩ (.new ⟨""⟩ ⟨""⟩ "1")

/-- The document `a` is not the one that the manifest knows. -/
def batch : List SourceUnit := [⟨⟨"s"⟩, "type Q", .schema⟩, ⟨⟨"a"⟩, "\x7bx\x7d", .document⟩]

/-- A backend that answers each document with a pair of empty files. -/
def answering : Backend := .ofFunction fun r => .ok (r.documents.map fun _ => ⟨"", ""⟩)

/-- A run for `a` that lists `b`, and finds nothing in it. -/
def result : (Except RunError (List Context) × Session) × Tree :=
  (run answering (.partly [⟨"b"⟩]) batch session).run tree

/-- The sources of the contexts that a run has built, and whether they have the old hash. -/
def builtBy (result : Except RunError (List Context)) : List (Path × Bool) :=
  match result with
  | .ok contexts => contexts.map fun c => (c.path, c.hash = old)
  | .error _ => []

set_option maxRecDepth 100000 in
theorem result_eq : builtBy result.1.1 = [(⟨"s"⟩, false), (⟨"a"⟩, false)] ∧
    result.1.2.summary = ⟨2, 0, 2, 0⟩ ∧
    ((session.cache.persisted tree).lookup? ⟨"d"⟩ old).filter (Row.isPresent session.cache.root tree) =
      some ⟨⟨"x"⟩, ⟨"y"⟩, none, none⟩ := by
  decide +kernel

end Sample

/-- The document has its new row only, the listed source has none, and the source that the run does not
cover keeps the row that it has. -/
theorem reconciled_of_run_sample : ∃ contexts s' t' m c,
    (run Sample.answering (.partly [⟨"b"⟩]) Sample.batch Sample.session).run Sample.tree =
      ((.ok contexts, s'), t') ∧ ((Manifest.load Sample.session.cache.dir).run t').1 = some m ∧
    c ∈ contexts ∧ c.hash ≠ Sample.old ∧
    (∀ k, (m.lookup? ⟨"a"⟩ k).isSome = true ↔ k = c.hash) ∧ (∀ k, m.lookup? ⟨"b"⟩ k = none) ∧
    m.lookup? ⟨"d"⟩ Sample.old = some ⟨⟨"x"⟩, ⟨"y"⟩, none, none⟩ ∧ s'.summary = ⟨2, 0, 2, 0⟩ := by
  have hrun : (run Sample.answering (.partly [⟨"b"⟩]) Sample.batch Sample.session).run Sample.tree =
    Sample.result := rfl
  obtain ⟨hbuilt, hsummary, hprevious⟩ := Sample.result_eq
  generalize Sample.result = r at hrun hbuilt hsummary
  obtain ⟨⟨outcome, s'⟩, t'⟩ := r
  cases outcome with
  | error e => cases hbuilt
  | ok contexts =>
    obtain ⟨m, hload, -, hreconciled, -⟩ := reconciled_of_run hrun
    obtain ⟨d, contexts, rfl, hd, hbuilt⟩ := List.map_eq_cons_iff.1 hbuilt
    obtain ⟨c, contexts, rfl, hc, hbuilt⟩ := List.map_eq_cons_iff.1 hbuilt
    obtain rfl := List.map_eq_nil_iff.1 hbuilt
    obtain ⟨hd, -⟩ := Prod.mk.inj hd
    obtain ⟨hc, hnew⟩ := Prod.mk.inj hc
    have hschema : d.path.same ⟨"a"⟩ = false ∧ d.path.same ⟨"b"⟩ = false := by
      rw [hd]
      decide +kernel
    have hdocument : c.path.same ⟨"a"⟩ = true ∧ c.path.same ⟨"b"⟩ = false := by
      rw [hc]
      decide +kernel
    refine ⟨_, s', t', m, c, hrun, hload, by simp, of_decide_eq_false hnew, fun k => ?_, fun k => ?_, ?_,
      hsummary⟩
    · rw [hreconciled.hashes ⟨"a"⟩ k (by decide +kernel)]
      simpa [hschema, hdocument] using eq_comm
    · rw [← Option.not_isSome_iff_eq_none, hreconciled.hashes ⟨"b"⟩ k (by decide +kernel)]
      simp [hschema, hdocument]
    · rw [hreconciled.others ⟨"d"⟩ Sample.old (by decide +kernel), if_neg (by simp)]
      exact hprevious

end Session

end GqlArtifacts
