import GqlArtifacts.Proofs.Session.Failure
import GqlArtifacts.Proofs.Session.Idle

/-!
# Running again

A run for the whole project that succeeds leaves nothing to do as long as what it has generated is
`InPlace` when it ends: a run whose contexts are some of its own, on the tree that is left, is then idle
(`Completed.idle`), and a context without its artifacts is to be generated again (`Completed.skip_again`).
Everything is in place unless the rows that the run finds get in its way (`Completed.inPlace`,
`Untangled`).
-/

namespace GqlArtifacts.Session

open Files CacheM

variable {backend : Backend} {scope : Scope} {units units' : List SourceUnit} {s s' : Session}
  {t t₁ t₂ t₃ t₄ t' : Tree} {contexts contexts' : List Context} {outputs : List (Context × Output)}
  {p : Path} {k : ContentHash} {row : Row} {c : Context}

/-- The rows that a run finds leave the artifacts of its contexts alone, and the entrypoint is not
written to where the manifest is prepared. -/
structure Untangled (s : Session) (t : Tree) (contexts : List Context) : Prop where
  root : s.settings.layout.root = s.cache.root
  /-- A row that makes a context be skipped points to the artifacts of the context. -/
  own : ∀ c ∈ contexts, ∀ row, (s.cache.loaded t).manifest.lookup? c.path c.hash = some row →
    ∀ f : Artifact, s.cache.root / row.artifact f = f.full c.paths
  /-- A row without a context points elsewhere. -/
  apart : ∀ p k row, (s.cache.loaded t).manifest.lookup? p k = some row → built contexts p k = false →
    ∀ f : Artifact, ∀ c ∈ contexts, ∀ f' : Artifact,
      (s.cache.root / row.artifact f).place ≠ (f'.full c.paths).place
  entrypoint : ∀ e ∈ s.settings.entrypoint?,
    (s.cache.root / e).place ≠ (temporaryPath (s.cache.dir / manifestName)).place

/-- What a run has generated is there: the artifacts of its contexts and the entrypoint. -/
structure InPlace (s : Session) (contexts : List Context) (t : Tree) : Prop where
  artifacts : ∀ c ∈ contexts, ∀ f : Artifact, t.isFile (f.full c.paths) = true
  entrypoint : ∀ e ∈ s.settings.entrypoint?, t.isFile (s.cache.root / e) = true

/-- Without a manifest there are no rows. -/
theorem untangled_of_manifest? (hroot : s.settings.layout.root = s.cache.root)
    (hnone : t.manifest? s.cache.dir = none)
    (hentrypoint : ∀ e ∈ s.settings.entrypoint?,
      (s.cache.root / e).place ≠ (temporaryPath (s.cache.dir / manifestName)).place) :
    s.Untangled t contexts := by
  have hrow : ∀ p k, (s.cache.loaded t).manifest.lookup? p k = none := fun p k => by
    rw [Cache.lookup?_loaded, Cache.persisted_eq_empty hnone]
    rfl
  refine ⟨hroot, fun c _ row h => ?_, fun p k row h => ?_, hentrypoint⟩
  · rw [hrow] at h
    cases h
  · rw [hrow] at h
    cases h

theorem row_artifact (hroot : s.settings.layout.root = s.cache.root)
    (hpaths : c.paths = s.settings.layout.paths c.path c.hash) (f : Artifact) :
    s.cache.root / c.row.artifact f = f.full c.paths := by
  rw [← hroot, hpaths]
  cases f with
  | tsx => rw [Row.artifact, c.row_tsx, hpaths]; rfl
  | dts => rw [Row.artifact, c.row_dts, hpaths]; rfl

theorem Entered.isFile {root e : Path} {m : Manifest} {entrypoint? : Option Path} {changes : Nat}
    (h : Entered root m entrypoint? changes t t') (he : e ∈ entrypoint?) :
    t'.isFile (root / e) = true := by
  rw [Option.mem_def.1 he, entered_some] at h
  rcases h with ⟨rfl, hfile, -⟩ | ⟨hw, -⟩
  · exact hfile
  · exact Tree.isFile_iff.2 ⟨hw.reaches, hw.isSome_file?⟩

namespace Completed

section Artifacts
variable (h : Completed backend scope units s s' contexts outputs t t₁ t₂ t₃ t₄ t')
include h

theorem lastChar?_artifact (hc : c ∈ contexts) (f : Artifact) :
    (f.full c.paths).place.lastChar? ≠ some 'n' ∧ (f.full c.paths).place.lastChar? ≠ some 'p' := by
  rw [(Context.faithful_of_batch? h.batch hc).paths]
  exact Layout.lastChar?_place_ne f

/-- Once the outputs are written, what was to be generated has its artifacts. -/
theorem isFile_generated (hc : c ∈ contexts) (hskip : c.skip = false) (f : Artifact) :
    t₂.isFile (f.full c.paths) = true := by
  obtain ⟨o, hx⟩ := h.exists_output hc hskip
  have hmem := mem_writes hx f
  rw [Tree.isFile_iff, h.wroteOutputs.file?_of_lastChar? (h.lastChar?_artifact hc f).2]
  refine ⟨h.wroteOutputs.reaches _ hmem, ?_⟩
  rw [Option.isSome_or, Bool.or_eq_true]
  refine .inl (Option.isSome_iff_ne_none.2 fun hnone => ?_)
  exact lastWrite?_eq_none.1 hnone _ hmem rfl

/-- What follows does not delete the artifacts of a context. -/
theorem isFile_kept (ho : s.Untangled t contexts) (hc : c ∈ contexts) (f : Artifact)
    (hthere : t₂.isFile (f.full c.paths) = true) : t'.isFile (f.full c.paths) = true := by
  obtain ⟨hman, htmp⟩ := h.lastChar?_artifact hc f
  obtain ⟨hreaches, hsome⟩ := Tree.isFile_iff.1 hthere
  have hkept : t₃.file? (f.full c.paths).place = t₂.file? (f.full c.paths).place := by
    refine h.shrunk.cleared.file?_of_not ?_
    rintro q ⟨⟨p, k, row⟩, hmem, hlost, howns⟩ heq
    obtain ⟨f', rfl⟩ := Row.owns_iff.1 howns
    have hrow := Manifest.lookup?_of_mem hmem
    have hbuilt : built contexts p k = false := by
      refine Bool.eq_false_iff.2 fun hbuilt => ?_
      rw [keeps_iff.2 (.inl hbuilt)] at hlost
      cases hlost
    have hnone : lastContext? contexts p k = none := by
      rw [← Option.not_isSome_iff_eq_none, isSome_lastContext?]
      exact Bool.eq_false_iff.1 hbuilt
    rw [lookup?_recorded, hnone, Option.map_none, Option.none_or] at hrow
    rw [Cache.root_loaded] at heq
    exact ho.apart p k row hrow hbuilt f' c hc f heq
  have hentered : (t₄.file? (f.full c.paths).place).isSome = true := by
    by_cases hex : ∃ e ∈ s.settings.entrypoint?, (f.full c.paths).place = (s.cache.root / e).place
    · obtain ⟨e, he, heq⟩ := hex
      rw [heq]
      exact h.entered.isSome_file? he
    · rcases h.entered.file?_of_ne fun e he heq => hex ⟨e, he, heq⟩ with heq | ⟨-, hlast, -⟩
      · rw [heq, hkept]
        exact hsome
      · exact absurd hlast htmp
  have hmanifest : (f.full c.paths).place ≠ (s.cache.dir / manifestName).place := by
    intro heq
    rw [heq, lastChar?_manifest] at hman
    exact hman rfl
  refine Tree.isFile_iff.2 ⟨hreaches.grows ((h.shrunk.cleared.grows.trans h.entered.grows).trans
    h.saved.grows), ?_⟩
  rw [h.saved.file?_of_lastChar? hmanifest htmp]
  exact hentered

end Artifacts

variable (h : Completed backend .project units s s' contexts outputs t t₁ t₂ t₃ t₄ t')
include h

section Untangled
variable (hb : backend.KeepsFiles) (ho : s.Untangled t contexts)
include hb

theorem keeps_generated : t.Keeps t₁ := by
  have houtcome := outcome_exec (generate backend s.settings (schemaText units)
    (staleGroups contexts).toList) (s.cache.loaded t) t
  rw [h.generated] at houtcome
  exact keeps_of_generate hb houtcome

include ho

/-- Once the outputs are written, every context has its artifacts. -/
theorem isFile_written (hc : c ∈ contexts) (f : Artifact) : t₂.isFile (f.full c.paths) = true := by
  cases hskip : c.skip with
  | false => exact h.isFile_generated hc hskip f
  | true =>
    rw [(Context.faithful_of_batch? h.batch hc).skip] at hskip
    obtain ⟨row, hrow⟩ := Option.isSome_iff_exists.1 hskip
    have hown := ho.own c hc row hrow
    rw [Cache.lookup?_loaded, Option.filter_eq_some_iff] at hrow
    obtain ⟨htsx, hdts⟩ := (Bool.and_eq_true _ _).mp hrow.2
    have hfile : t₁.isFile (f.full c.paths) = true := by
      refine (h.keeps_generated hb).isFile ?_
      rw [← hown f]
      cases f with
      | tsx => exact htsx
      | dts => exact hdts
    obtain ⟨hreaches, hsome⟩ := Tree.isFile_iff.1 hfile
    rw [Tree.isFile_iff, h.wroteOutputs.file?_of_lastChar? (h.lastChar?_artifact hc f).2]
    refine ⟨hreaches.grows h.wroteOutputs.grows, ?_⟩
    rw [Option.isSome_or, hsome, Bool.or_true]

theorem inPlace : s.InPlace contexts t' := by
  refine ⟨fun c hc f => h.isFile_kept ho hc f (h.isFile_written hb ho hc f), fun e he => ?_⟩
  obtain ⟨hreaches, hsome⟩ := Tree.isFile_iff.1 (h.entered.isFile he)
  refine Tree.isFile_iff.2 ⟨hreaches.grows h.saved.grows, ?_⟩
  by_cases hmanifest : (s.cache.root / e).place = (s.cache.dir / manifestName).place
  · rw [hmanifest]
    exact h.saved.isSome_file?
  · rcases h.saved.file?_of_ne hmanifest with heq | ⟨-, heq⟩
    · rw [heq]
      exact hsome
    · exact absurd heq (ho.entrypoint e he)

end Untangled

/-- The manifest that is left has the rows of the contexts, and no others. -/
theorem persisted : s.cache.persisted t' = s'.cache.manifest :=
  Cache.persisted_of_manifest? (manifest?_of_wrote h.saved) h.version

theorem lookup?_persisted (p : Path) (k : ContentHash) :
    (s.cache.persisted t').lookup? p k = (lastContext? contexts p k).map Context.row := by
  rw [h.persisted]
  exact h.lookup?_project rfl p k

/-- A context without an artifact on the tree that the run leaves is not skipped there. -/
theorem skip_again (hunits : s.contexts? units' t' = some contexts') (hc : c ∈ contexts')
    (hgone : ∀ d ∈ contexts, d.path.same c.path = true → d.hash = c.hash →
      ∃ f : Artifact, t'.isFile (s.cache.root / d.row.artifact f) = false) : c.skip = false := by
  rw [(Context.faithful_of_batch? hunits hc).skip, Cache.lookup?_loaded, h.lookup?_persisted]
  cases hlast : lastContext? contexts c.path c.hash with
  | none => rfl
  | some d =>
    obtain ⟨hd, hsame, hhash⟩ := lastContext?_eq_some hlast
    obtain ⟨f, hf⟩ := hgone d hd hsame hhash
    have hpresent : d.row.isPresent s.cache.root t' = false := by
      refine Bool.and_eq_false_iff.2 ?_
      cases f with
      | tsx => exact .inl hf
      | dts => exact .inr hf
    rw [Option.map_some, Option.filter_some, hpresent]
    rfl

/-- On the tree that the run leaves there is nothing to do for contexts that are among its own. -/
theorem idle (hroot : s.settings.layout.root = s.cache.root) (hplace : s.InPlace contexts t')
    (hcontexts : ∀ p k, scope = .project ∨ covered scope contexts' p = true →
      (lastContext? contexts' p k).map Context.row = (lastContext? contexts p k).map Context.row) :
    s.Idle scope contexts' t' := by
  refine ⟨?_, ?_, ?_, ?_, hplace.entrypoint, t₄, ?_⟩
  · rw [h.persisted]
    exact h.full
  · rintro ⟨p, k, row⟩ hmem
    have hrow := Manifest.lookup?_of_mem hmem
    rw [h.lookup?_persisted] at hrow
    obtain ⟨c, hc, rfl⟩ := Option.map_eq_some_iff.1 hrow
    have hmem := (lastContext?_eq_some hc).1
    have hpaths := (Context.faithful_of_batch? h.batch hmem).paths
    have hfile : ∀ f : Artifact, t'.isFile (s.cache.root / c.row.artifact f) = true := fun f => by
      rw [row_artifact hroot hpaths f]
      exact hplace.artifacts c hmem f
    exact (Bool.and_eq_true _ _).mpr ⟨hfile .tsx, hfile .dts⟩
  · intro p k c hc
    obtain ⟨hmem, hs, -⟩ := lastContext?_eq_some hc
    have hcovered : covered scope contexts' p = true := by
      rw [covered, List.any_eq_true.2 ⟨c, hmem, hs⟩, Bool.true_or]
    rw [h.lookup?_persisted, ← hcontexts p k (.inr hcovered), hc]
    rfl
  · rintro ⟨p, k, row⟩ hmem
    rw [keeps_iff]
    by_cases hcovered : scope = .project ∨ covered scope contexts' p = true
    · have hrow := Manifest.lookup?_of_mem hmem
      rw [h.lookup?_persisted, ← hcontexts p k hcovered] at hrow
      left
      rw [← isSome_lastContext?, ← Option.isSome_map (f := Context.row), hrow]
      rfl
    · exact .inr hcovered
  · rw [h.persisted]
    exact h.saved

end Completed

end GqlArtifacts.Session
