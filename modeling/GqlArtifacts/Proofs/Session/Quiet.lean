import GqlArtifacts.Proofs.Session.Publish
import GqlArtifacts.Proofs.Session.Reconcile

/-!
# Runs that find everything up to date

A run is quiet when it generates nothing and takes no row away. The tree is then as before when the
entrypoint is looked at (`Completed.alike`), and the manifest is as it was found if the texts of the
calls are (`Completed.manifest_eq`).
-/

namespace GqlArtifacts.Session

open Files CacheM Manifest

variable {reply : Request → Answer} {scope : Scope} {units : List SourceUnit} {s s' : Session}
  {t t₁ t₂ t₃ t₄ t' : Tree} {contexts : List Context} {outputs : List (Context × Output)}
  {p : Path} {k : ContentHash} {m : Manifest}

/-- Recording rows that are there already keeps the sources as they are spelled. -/
theorem keys_recorded (h : ∀ c ∈ contexts, (m.lookup? c.path c.hash).isSome = true) :
    (recorded contexts m).sources.keys = m.sources.keys := by
  induction contexts using List.reverseRecOn with
  | nil => rfl
  | append_singleton contexts c ih =>
    have hkeys := ih fun x hx => h x (by simp [hx])
    obtain ⟨row, hrow⟩ := Option.isSome_iff_exists.1 (h c (by simp))
    rw [recorded_concat, keys_record (hkeys ▸ mem_keys_of_lookup? hrow), hkeys]

/-- Recording rows as they are changes nothing. -/
theorem recorded_eq (h : ∀ c ∈ contexts, (m.lookup? c.path c.hash).isSome = true)
    (hrows : ∀ p k c, lastContext? contexts p k = some c → m.lookup? p k = some c.row) :
    recorded contexts m = m := by
  refine ext_lookup? (version_recorded contexts m) (fun p => by rw [keys_recorded h]) fun p k => ?_
  rw [lookup?_recorded]
  cases hl : lastContext? contexts p k with
  | none => rw [Option.map_none, Option.none_or]
  | some c => rw [hrows p k c hl]; rfl

namespace Completed
variable (h : Completed (.ofFunction reply) scope units s s' contexts outputs t t₁ t₂ t₃ t₄ t')
include h

/-- What a run counts is all that it takes away. -/
theorem keeps_of_counts (hpruned : s'.summary.pruned = 0) (hremoved : s'.summary.removedSources = 0)
    (hk : ((known s t contexts).lookup? p k).isSome = true) : keeps scope contexts p k = true := by
  rw [h.summary] at hpruned hremoved
  by_contra hlost
  rw [keeps_iff, not_or, not_not] at hlost
  obtain ⟨hbuilt, hcovered⟩ := hlost
  rw [known, lookup?_recorded, Option.isSome_or, Option.isSome_map, isSome_lastContext?,
    (Bool.not_eq_true _).mp hbuilt, Bool.false_or] at hk
  obtain ⟨row, hrow⟩ := Option.isSome_iff_exists.1 hk
  obtain ⟨q, hs, hq⟩ := lookup?_eq_some_iff.1 hrow
  rw [built_congr hs] at hbuilt
  rw [covered_congr hs] at hcovered
  by_cases hc : covered scope contexts q = true
  · dsimp only [superseded] at hpruned
    have hstale := List.countP_eq_zero.1 hpruned _ hq
    simp [hc, hbuilt] at hstale
  · obtain rfl := hcovered.resolve_right hc
    obtain ⟨rows, hsource, -⟩ := mem_toList_iff.1 hq
    dsimp only [forgotten] at hremoved
    have hgone := List.countP_eq_zero.1 hremoved _ hsource
    simp [hc] at hgone

theorem alike (hout : outputs = [])
    (hkeeps : ∀ p k, ((known s t contexts).lookup? p k).isSome = true →
      keeps scope contexts p k = true) : t.Alike t₃ := by
  have ht₂ : t₂ = t := by
    have hwritten := h.written
    rw [hout, h.answers_eq.2] at hwritten
    exact (congrArg Prod.snd hwritten).symm
  have hcleared := h.shrunk.cleared
  rw [ht₂] at hcleared
  refine ⟨hcleared.grows, hcleared.shrinks, fun a => hcleared.file?_of_not ?_⟩
  rintro q ⟨e, he, hlost, -⟩ -
  have hkept := hkeeps e.1 e.2.1 (by rw [known, lookup?_of_mem he]; rfl)
  rw [hlost] at hkept
  cases hkept

/-- Nothing is forgotten, and what is recorded is there already. -/
theorem manifest_eq
    (hkeeps : ∀ p k, ((known s t contexts).lookup? p k).isSome = true →
      keeps scope contexts p k = true)
    (hrows : ∀ p k c, lastContext? contexts p k = some c →
      (s.cache.loaded t).manifest.lookup? p k = some c.row) :
    s'.cache.manifest = (s.cache.loaded t).manifest := by
  have hpresent : ∀ c ∈ contexts,
      ((s.cache.loaded t).manifest.lookup? c.path c.hash).isSome = true := by
    intro c hc
    have hsome : (lastContext? contexts c.path c.hash).isSome = true := by
      rw [isSome_lastContext?, built_iff]
      exact ⟨c, hc, Path.same_self _, rfl⟩
    obtain ⟨d, hd⟩ := Option.isSome_iff_exists.1 hsome
    rw [hrows _ _ _ hd]
    rfl
  have hrecorded : recorded contexts (s.cache.loaded t).manifest = (s.cache.loaded t).manifest :=
    recorded_eq hpresent hrows
  rw [h.shrunk.manifest]
  dsimp only
  rw [hrecorded]
  refine restrict_of_forall Cache.full_loaded fun e he => hkeeps e.1 e.2.1 ?_
  rw [known, hrecorded, lookup?_of_mem he]
  rfl

/-- A run that leaves no row and takes none away has had nothing to do. -/
theorem counts_of_bare (hbare : s'.cache.manifest.toList = [])
    (hkeeps : ∀ p k, ((known s t contexts).lookup? p k).isSome = true →
      keeps scope contexts p k = true) :
    outputs = [] ∧ s'.summary.pruned = 0 ∧ s'.summary.removedSources = 0 := by
  have hnone : ∀ p k, ((known s t contexts).lookup? p k).isSome = false := by
    intro p k
    rw [Bool.eq_false_iff]
    intro hk
    obtain ⟨row, hrow⟩ := Option.isSome_iff_exists.1 (h.isSome_lookup?_iff.2 ⟨hk, hkeeps p k hk⟩)
    obtain ⟨q, -, hq⟩ := lookup?_eq_some_iff.1 hrow
    rw [hbare] at hq
    cases hq
  have hcontexts : contexts = [] := by
    rw [List.eq_nil_iff_forall_not_mem]
    intro c hc
    have hsome := isSome_known s t hc
    rw [hnone] at hsome
    cases hsome
  have hrows : (s.cache.loaded t).manifest.toList = [] := by
    rw [List.eq_nil_iff_forall_not_mem]
    intro e he
    have hsome := hnone e.1 e.2.1
    rw [known, lookup?_recorded, lookup?_of_mem he, Option.isSome_or, Option.isSome_some,
      Bool.or_true] at hsome
    cases hsome
  have hsources : (s.cache.loaded t).manifest.sources.toList = [] := by
    rw [List.eq_nil_iff_forall_not_mem]
    rintro ⟨p, rows⟩ he
    obtain ⟨r, hr⟩ := List.exists_mem_of_ne_nil rows.toList fun hnil => by
      have hfull := Cache.full_loaded _ he
      rw [OrderedMap.isEmpty, hnil] at hfull
      cases hfull
    have hmem := mem_toList_iff.2 ⟨rows, he, hr⟩
    rw [hrows] at hmem
    cases hmem
  refine ⟨?_, ?_, ?_⟩
  · rw [List.eq_nil_iff_forall_not_mem]
    intro x hx
    have hmem := (h.mem_of_output hx).1
    rw [hcontexts] at hmem
    cases hmem
  · rw [h.summary, superseded, hrows]
    rfl
  · rw [h.summary]
    cases scope with
    | partly listed => rfl
    | project => rw [forgotten, hsources]; rfl

end Completed

end GqlArtifacts.Session
