import GqlArtifacts.Proofs.Session.Publish
import GqlArtifacts.Proofs.Session.Reconcile

/-!
# Histories of a project

The runs of a `Project` follow each other on one tree. Layout, version and entrypoint stay, while
each `Job` has a configuration, a memory, a backend, units and a scope of its own.
`Project.history` lists what has happened as `Event`s, failed runs among them.

`Kept` is what the history alone says of a source at a hash: that some successful run has built it,
and no later one covers the source without building it again. `kept_concat` adds a run to it, and
`history_induction` is induction over the runs.

A history is `Admissible` when sources and directories are logical, no file operation fails, and the
entrypoint is no other file of the project.
-/

namespace GqlArtifacts

open Files CacheM

/-! ### Runs -/

/-- What all runs of a project have in common. -/
structure Project where
  layout : Layout
  version : String
  /-- The entrypoint relative to the root, where one is wanted. -/
  entrypoint? : Option Path

/-- What a run is given. A new session has nothing in memory; a session that has run before has what
it remembers and its last summary. The requests of a run are all different, so a function says all
that a backend can answer in it. -/
structure Job where
  configHash : ContentHash
  plugins : List String
  options : Json
  memory : Manifest
  last : Summary
  backend : Request → Answer
  scope : Scope
  units : List SourceUnit

/-- What a run was given, and what came of it. -/
structure Event where
  job : Job
  before : Tree
  /-- The contexts of the units, none if there was no schema. -/
  contexts : List Context
  /-- What the run has to ask the backend for. It asks for nothing else (`Session.run_congr`), and for
  all of it unless it fails. -/
  requests : List Request
  result : Except RunError (List Context)
  session : Session
  after : Tree

namespace Project

def cache (P : Project) : Cache := .new P.layout.root P.layout.cacheDir P.version

def session (P : Project) (j : Job) : Session :=
  ⟨⟨P.layout, j.configHash, j.plugins, j.options, P.entrypoint?⟩,
    { P.cache with manifest := j.memory }, j.last⟩

def perform (P : Project) (j : Job) (t : Tree) : Event :=
  let loaded := ((P.session j).cache.load.run t).1.2
  let contexts := ((Context.ofUnits? P.layout loaded j.configHash j.units).run t).1.getD []
  let run := (Session.run (.ofFunction j.backend) j.scope j.units (P.session j)).run t
  ⟨j, t, contexts, Session.requests (P.session j).settings j.units contexts, run.1.1, run.1.2, run.2⟩

/-- What happens when runs follow each other, from a tree on. -/
def history (P : Project) : Tree → List Job → List Event
  | _, [] => []
  | t, j :: js => P.perform j t :: P.history (P.perform j t).after js

def manifestPath (P : Project) : Path := P.cache.dir / manifestName

/-- The readable manifest of a project. -/
def manifest? (P : Project) (t : Tree) : Option Manifest := t.manifest? P.cache.dir

end Project

/-! ### What the history says -/

namespace Event

def Succeeded (e : Event) : Prop := e.result.isOk = true

/-- Whether the run ended because an operation on files failed. -/
def filesFailed (e : Event) : Bool :=
  match e.result with
  | .error (.files _) => true
  | _ => false

/-- A successful run has a context of the source at the hash. -/
def Built (e : Event) (p : Path) (h : ContentHash) : Prop :=
  e.Succeeded ∧ ∃ c ∈ e.contexts, c.path.same p = true ∧ c.hash = h

/-- A successful run has a unit of the source, lists it, or is for the whole project. -/
def Covers (e : Event) (p : Path) : Prop :=
  e.Succeeded ∧
    (e.job.scope = .project ∨ e.job.scope.covers e.job.units p = true)

/-- The backend returned the output in the run, in answer to a request for the source and at the
position of a document with the hash. -/
def Returned (e : Event) (p : Path) (h : ContentHash) (o : Output) : Prop :=
  ∃ r ∈ e.requests, r.sourcePath = p ∧ ∃ (os : List Output) (n : Nat) (d : RequestDocument),
    e.job.backend r = .ok os ∧ r.documents[n]? = some d ∧ d.hash = h ∧ os[n]? = some o

end Event

/-- A successful run has built the source at the hash, and so has every later one that covers the
source. -/
def Kept (es : List Event) (p : Path) (h : ContentHash) : Prop :=
  ∃ earlier e later, es = earlier ++ e :: later ∧ e.Built p h ∧
    ∀ e' ∈ later, e'.Covers p → e'.Built p h

/-! ### Places -/

/-- The artifacts of a source at a hash, and their temporary files. -/
def Layout.places (layout : Layout) (p : Path) (h : ContentHash) : List Place :=
  [layout.place .tsx p h, (temporaryPath (layout.paths p h).tsxFull).place,
    layout.place .dts p h, (temporaryPath (layout.paths p h).dtsFull).place]

def Event.places (layout : Layout) (e : Event) : List Place :=
  if e.result.isOk then e.contexts.flatMap fun c => layout.places c.path c.hash else []

namespace Project

/-- The places that successful runs use, other than for the entrypoint. -/
def places (P : Project) (es : List Event) : List Place :=
  P.manifestPath.place :: (temporaryPath P.manifestPath).place :: es.flatMap (Event.places P.layout)

/-- The entrypoint and its temporary file. -/
def entrypointPlaces (P : Project) : List Place :=
  match P.entrypoint? with
  | none => []
  | some p => [(P.layout.root / p).place, (temporaryPath (P.layout.root / p)).place]

structure Admissible (P : Project) (t : Tree) (js : List Job) : Prop where
  layout : P.layout.Inner
  sources : ∀ j ∈ js, ∀ u ∈ j.units, u.path.Logical
  files : ∀ e ∈ P.history t js, e.filesFailed = false
  entrypoint : ∀ p ∈ P.entrypoint?, (P.layout.root / p).place ∉ P.places (P.history t js)

end Project

/-! ### One run -/

section Perform
variable {P : Project} {j : Job} {t : Tree}

theorem Project.loaded_session (P : Project) (j : Job) (t : Tree) :
    (P.session j).cache.loaded t = P.cache.loaded t := Cache.loaded_withManifest P.cache j.memory t

theorem Project.persisted_session (P : Project) (j : Job) (t : Tree) :
    (P.session j).cache.persisted t = P.cache.persisted t := Cache.persisted_congr rfl rfl

theorem Project.contexts_perform (P : Project) (j : Job) (t : Tree) :
    (P.perform j t).contexts = ((P.session j).contexts? j.units t).getD [] := by
  show ((Context.ofUnits? P.layout ((P.session j).cache.load.run t).1.2 j.configHash j.units).run
    t).1.getD [] = _
  rw [Cache.run_load, Context.run_ofUnits?]
  rfl

theorem Project.run_perform (P : Project) (j : Job) (t : Tree) :
    (Session.run (.ofFunction j.backend) j.scope j.units (P.session j)).run t =
      (((P.perform j t).result, (P.perform j t).session), (P.perform j t).after) := by
  simp only [perform, Prod.eta]

/-- Each context stands for a unit, with the paths of the layout, and is skipped when the memory
has its row. -/
theorem Project.faithful_of_mem_contexts {c : Context} (hc : c ∈ (P.perform j t).contexts) :
    (∃ u ∈ j.units, u.path = c.path) ∧
      c.Faithful P.layout ((P.session j).cache.loaded t).manifest := by
  rw [contexts_perform] at hc
  cases hb : (P.session j).contexts? j.units t with
  | none => rw [hb] at hc; cases hc
  | some contexts =>
    rw [hb] at hc
    exact ⟨Context.exists_unit_of_mem hb hc, Context.faithful_of_batch? hb hc⟩

/-- The sources and hashes of a run are given by its units alone. -/
theorem Project.keys_perform {identity : ContentHash}
    (hid : schemaIdentity? j.configHash j.units = some identity) :
    (P.session j).contexts? j.units t = some (P.perform j t).contexts ∧
    (P.perform j t).contexts.map (fun c => (c.path, c.hash)) =
      j.units.map fun u => (u.path, u.hash j.configHash identity) := by
  have hbatch : ∃ contexts, (P.session j).contexts? j.units t = some contexts ∧
      contexts.map (fun c => (c.path, c.hash)) =
        j.units.map fun u => (u.path, u.hash j.configHash identity) := Context.keys_of_batch? hid
  obtain ⟨contexts, hcontexts, hkeys⟩ := hbatch
  rw [contexts_perform, hcontexts]
  exact ⟨rfl, hkeys⟩

theorem Event.filesFailed_of_succeeded {e : Event} (h : e.Succeeded) : e.filesFailed = false := by
  rw [Succeeded] at h
  rw [filesFailed]
  cases hr : e.result with
  | error f => rw [hr] at h; cases h
  | ok contexts => rfl

theorem Event.not_onFiles {e : Event} {failure : RunError} (h : e.filesFailed = false)
    (hr : e.result = .error failure) : ¬Session.OnFiles failure := by
  rintro ⟨f, rfl⟩
  rw [filesFailed, hr] at h
  cases h

theorem Project.completed_of_succeeded (h : (P.perform j t).Succeeded) :
    (P.perform j t).result = .ok (P.perform j t).contexts ∧ ∃ outputs t₁ t₂ t₃ t₄,
      Session.Completed (.ofFunction j.backend) j.scope j.units (P.session j) (P.perform j t).session
        (P.perform j t).contexts outputs t t₁ t₂ t₃ t₄ (P.perform j t).after := by
  have hrun := P.run_perform j t
  rw [Event.Succeeded] at h
  cases hr : (P.perform j t).result with
  | error e => rw [hr] at h; cases h
  | ok contexts =>
    rw [hr] at hrun
    obtain ⟨outputs, t₁, t₂, t₃, t₄, hdone⟩ := Session.completed_of_run hrun
    have hcontexts : (P.perform j t).contexts = contexts := by
      rw [contexts_perform, hdone.batch, Option.getD_some]
    rw [hcontexts]
    exact ⟨rfl, outputs, t₁, t₂, t₃, t₄, hdone⟩

/-- A run whose requests are all answered goes through, unless a file operation fails. -/
theorem Project.completed_of_answers {contexts : List Context} {outputs : List (Context × Output)}
    (hb : (P.session j).contexts? j.units t = some contexts)
    (ha : Session.answers j.backend (P.session j).settings (Session.schemaText j.units)
      (Session.staleGroups contexts).toList = .ok outputs)
    (hfiles : (P.perform j t).filesFailed = false) :
    (P.perform j t).Succeeded ∧ ∃ t₁ t₂ t₃ t₄,
      Session.Completed (.ofFunction j.backend) j.scope j.units (P.session j) (P.perform j t).session
        contexts outputs t t₁ t₂ t₃ t₄ (P.perform j t).after := by
  have hsucceeded : (P.perform j t).Succeeded := by
    have hrun := P.run_perform j t
    rw [Event.Succeeded]
    cases hr : (P.perform j t).result with
    | ok contexts => rfl
    | error failure =>
      rw [hr] at hrun
      exact absurd (Session.onFiles_of_answers hb ha hrun) (Event.not_onFiles hfiles hr)
  obtain ⟨-, outputs', t₁, t₂, t₃, t₄, hdone⟩ := completed_of_succeeded hsucceeded
  have hbatch := hdone.batch
  rw [hb, Option.some_inj] at hbatch
  have hanswers := hdone.answers_eq.1
  rw [← hbatch, ha, Except.ok.injEq] at hanswers
  rw [← hbatch, ← hanswers] at hdone
  exact ⟨hsucceeded, t₁, t₂, t₃, t₄, hdone⟩

/-- What is persisted after a run is what the run has in memory. -/
theorem Project.manifest?_of_completed {backend : Backend} {scope : Scope} {units : List SourceUnit}
    {s : Session} {contexts : List Context} {outputs : List (Context × Output)}
    {t₁ t₂ t₃ t₄ t' : Tree} (hdone : Session.Completed backend scope units (P.session j) s contexts
      outputs t t₁ t₂ t₃ t₄ t') :
    P.manifest? t' = some s.cache.manifest ∧ P.cache.persisted t' = s.cache.manifest := by
  have hload : P.manifest? t' = some s.cache.manifest := manifest?_of_wrote hdone.saved
  exact ⟨hload, Cache.persisted_of_manifest? hload hdone.version⟩

/-- A run that fails for another reason than its file operations changes nothing. -/
theorem Project.after_of_failed (h : ¬(P.perform j t).Succeeded)
    (hfiles : (P.perform j t).filesFailed = false) : (P.perform j t).after = t := by
  have hrun := P.run_perform j t
  rw [Event.Succeeded] at h
  cases hr : (P.perform j t).result with
  | ok contexts => rw [hr] at h; exact absurd rfl h
  | error e =>
    rw [hr] at hrun
    exact (Session.eq_of_failed hrun (Event.not_onFiles hfiles hr)).1

/-- A backend that refuses everything ends a run that is not all skipped. -/
theorem Project.exists_refused (hrefuses : ∀ r, ∃ d, j.backend r = .error d) {c : Context}
    (hschema : (schemaIdentity? j.configHash j.units).isSome = true)
    (hc : c ∈ (P.perform j t).contexts) (hskip : c.skip = false) :
    ∃ source d, (P.perform j t).result = .error (.refused source d) := by
  obtain ⟨identity, hid⟩ := Option.isSome_iff_exists.1 hschema
  have hrun := P.run_perform j t
  obtain ⟨source, d, hresult⟩ := Session.run_refused hrefuses (keys_perform hid).1 hc hskip
  rw [hrun] at hresult
  generalize (P.perform j t).result = result at hresult ⊢
  exact ⟨source, d, hresult⟩

/-- No persisted row is left out by a load when the artifacts are there. -/
theorem Project.lookup?_loaded {p : Path} {h : ContentHash}
    (hlaid : (P.cache.persisted t).LaidOut P.layout) (hp : p.Logical)
    (hthere : ((P.cache.persisted t).lookup? p h).isSome = true → ∀ f : Artifact,
      t.Reaches (f.full (P.layout.paths p h)) ∧ (t.file? (P.layout.place f p h)).isSome = true) :
    (P.cache.loaded t).manifest.lookup? p h = (P.cache.persisted t).lookup? p h := by
  rw [Cache.lookup?_loaded]
  cases hl : (P.cache.persisted t).lookup? p h with
  | none => rfl
  | some row =>
    have hpresent : ∀ f : Artifact, t.isFile (P.cache.root / row.artifact f) = true := by
      intro f
      have hat : P.cache.root / row.artifact f = f.full (P.layout.paths p h) :=
        (hlaid.liesAt hp hl).full f
      rw [hat, Tree.isFile_iff]
      exact hthere (by rw [hl]; rfl) f
    rw [Option.filter_some, Row.isPresent]
    have htsx : t.isFile (P.cache.root / row.tsx) = true := hpresent .tsx
    have hdts : t.isFile (P.cache.root / row.dts) = true := hpresent .dts
    rw [htsx, hdts]
    rfl

end Perform

section Event
variable {P : Project} {e : Event} (hperform : e = P.perform e.job e.before)
  (hsucceeded : e.Succeeded)
include hperform hsucceeded

theorem Event.completed : ∃ outputs t₁ t₂ t₃ t₄,
    Session.Completed (.ofFunction e.job.backend) e.job.scope e.job.units (P.session e.job) e.session
      e.contexts outputs e.before t₁ t₂ t₃ t₄ e.after := by
  rw [hperform] at hsucceeded
  obtain ⟨-, outputs, t₁, t₂, t₃, t₄, hdone⟩ := Project.completed_of_succeeded hsucceeded
  rw [← hperform] at hdone
  exact ⟨outputs, t₁, t₂, t₃, t₄, hdone⟩

theorem Event.manifest?_after : P.manifest? e.after = some e.session.cache.manifest ∧
    P.cache.persisted e.after = e.session.cache.manifest := by
  obtain ⟨outputs, t₁, t₂, t₃, t₄, hdone⟩ := e.completed hperform hsucceeded
  exact Project.manifest?_of_completed hdone

theorem Event.read_manifest :
    e.after.read P.manifestPath = .ok (P.cache.persisted e.after).render.toUTF8 := by
  obtain ⟨outputs, t₁, t₂, t₃, t₄, hdone⟩ := e.completed hperform hsucceeded
  rw [(Project.manifest?_of_completed hdone).2]
  exact hdone.saved.read

end Event

/-! ### Many runs -/

section History
variable {P : Project} {t : Tree} {js : List Job} {earlier later : List Event} {e : Event}
  {p : Path} {h : ContentHash} {es : List Event}

theorem Project.event_of_history (hs : P.history t js = earlier ++ e :: later) :
    e.job ∈ js ∧ e = P.perform e.job e.before ∧
      e.before = (earlier.getLast?.map Event.after).getD t := by
  induction js generalizing t earlier with
  | nil => cases earlier <;> cases hs
  | cons j js ih =>
    rw [history] at hs
    cases earlier with
    | nil =>
      obtain ⟨rfl, -⟩ := List.cons.inj hs
      exact ⟨List.mem_cons_self .., rfl, rfl⟩
    | cons e₀ earlier =>
      obtain ⟨rfl, hrest⟩ := List.cons.inj hs
      obtain ⟨hmem, hperform, hbefore⟩ := ih hrest
      refine ⟨List.mem_cons_of_mem _ hmem, hperform, hbefore.trans ?_⟩
      rw [List.getLast?_cons]
      cases earlier.getLast? <;> simp

theorem Project.completed_of_history (hs : P.history t js = earlier ++ e :: later)
    (hsucceeded : e.Succeeded) : e.result = .ok e.contexts ∧ ∃ outputs t₁ t₂ t₃ t₄,
      Session.Completed (.ofFunction e.job.backend) e.job.scope e.job.units (P.session e.job) e.session
        e.contexts outputs e.before t₁ t₂ t₃ t₄ e.after := by
  obtain ⟨-, hperform, -⟩ := event_of_history hs
  rw [hperform] at hsucceeded
  have hdone := completed_of_succeeded hsucceeded
  rwa [← hperform] at hdone

theorem Project.contexts_of_history (hs : P.history t js = earlier ++ e :: later) :
    e.contexts = ((P.session e.job).contexts? e.job.units e.before).getD [] := by
  obtain ⟨-, hperform, -⟩ := event_of_history hs
  have hcontexts := P.contexts_perform e.job e.before
  rwa [← hperform] at hcontexts

theorem Project.run_of_history (hs : P.history t js = earlier ++ e :: later) :
    (Session.run (.ofFunction e.job.backend) e.job.scope e.job.units (P.session e.job)).run e.before =
      ((e.result, e.session), e.after) := by
  obtain ⟨-, hperform, -⟩ := event_of_history hs
  have hrun := P.run_perform e.job e.before
  rwa [← hperform] at hrun

theorem Project.requests_of_history (hs : P.history t js = earlier ++ e :: later) : e.requests =
    Session.requests (P.session e.job).settings e.job.units e.contexts := by
  obtain ⟨-, hperform, -⟩ := event_of_history hs
  rw [hperform]
  rfl

/-- Induction over the runs of a history. -/
theorem Project.history_induction {Q : List Event → Tree → Prop} (hstart : Q [] t)
    (hstep : ∀ earlier e later, P.history t js = earlier ++ e :: later → Q earlier e.before →
      Q (earlier ++ [e]) e.after)
    (hs : P.history t js = earlier ++ e :: later) : Q earlier e.before := by
  induction earlier using List.reverseRecOn generalizing e later with
  | nil =>
    rw [(event_of_history hs).2.2]
    exact hstart
  | append_singleton earlier e₀ ih =>
    rw [(event_of_history hs).2.2, List.getLast?_concat]
    rw [List.append_assoc] at hs
    exact hstep earlier e₀ (e :: later) hs (ih hs)

theorem kept_nil : ¬Kept [] p h := by
  rintro ⟨earlier, e, later, hs, -⟩
  cases earlier <;> cases hs

/-- What one more run changes. -/
theorem kept_concat : Kept (es ++ [e]) p h ↔ e.Built p h ∨ Kept es p h ∧ ¬e.Covers p := by
  constructor
  · rintro ⟨earlier, e₀, later, hs, hbuilt, hlater⟩
    rcases List.eq_nil_or_concat later with rfl | ⟨later, e', rfl⟩
    · obtain ⟨-, heq⟩ := List.append_inj' hs rfl
      rw [(List.cons.inj heq).1]
      exact .inl hbuilt
    · rw [List.concat_eq_append, ← List.cons_append, ← List.append_assoc] at hs
      obtain ⟨hes, heq⟩ := List.append_inj' hs rfl
      obtain rfl := (List.cons.inj heq).1
      by_cases hcovers : e.Covers p
      · exact .inl (hlater e (by simp) hcovers)
      · exact .inr ⟨⟨earlier, e₀, later, hes, hbuilt, fun e' he' => hlater e' (by simp [he'])⟩,
          hcovers⟩
  · rintro (hbuilt | ⟨⟨earlier, e₀, later, rfl, hbuilt, hlater⟩, hcovers⟩)
    · exact ⟨es, e, [], rfl, hbuilt, by simp⟩
    · refine ⟨earlier, e₀, later ++ [e], by simp, hbuilt, fun e' he' hcov => ?_⟩
      rcases List.mem_append.1 he' with he' | he'
      · exact hlater e' he' hcov
      · rw [List.mem_singleton.1 he'] at hcov
        exact absurd hcov hcovers

theorem kept_congr {q : Path} (hs : p.same q = true) : Kept es p h ↔ Kept es q h := by
  have hbuilt : ∀ e : Event, e.Built p h ↔ e.Built q h := fun e => by
    simp only [Event.Built, Session.any_same_congr hs]
  have hcovers : ∀ e : Event, e.Covers p ↔ e.Covers q := fun e => by
    simp only [Event.Covers, Scope.covers, Session.any_same_congr hs]
  simp only [Kept, hbuilt, hcovers]

theorem exists_built_of_kept (hk : Kept es p h) : ∃ e ∈ es, e.Built p h := by
  obtain ⟨earlier, e, later, rfl, hbuilt, -⟩ := hk
  exact ⟨e, by simp, hbuilt⟩

end History

end GqlArtifacts
