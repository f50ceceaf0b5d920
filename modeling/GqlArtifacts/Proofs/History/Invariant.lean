import GqlArtifacts.Proofs.History

/-!
# What a history leaves in the cache

After any number of runs the persisted rows are those that the history keeps, laid out by the
project, and the artifacts of each are files with what a backend returned for the source at the hash
(`Matches`). A run that fails changes nothing, and a run that succeeds does what `Session.Completed`
and `Session.Published` say (`Matches.succeeded`). So it holds before and after each run of a history
that starts without a manifest (`matches_before`, `matches_after`).
-/

namespace GqlArtifacts

open Files CacheM

variable {P : Project} {j : Job} {t t₀ : Tree} {js : List Job} {es earlier later : List Event}
  {e : Event} {p : Path} {h : ContentHash} {c : Context}

/-- The two artifacts hold one output that a successful run got for the source at the hash. -/
def Project.Generated (P : Project) (es : List Event) (t : Tree) (p : Path) (h : ContentHash) : Prop :=
  ∃ e ∈ es, e.Succeeded ∧ ∃ o, e.Returned p h o ∧
    t.read (P.layout.paths p h).tsxFull = .ok o.tsx.toUTF8 ∧
    t.read (P.layout.paths p h).dtsFull = .ok o.dts.toUTF8

/-- The persisted rows are those that the history keeps, and each stands for generated files. -/
structure Matches (P : Project) (es : List Event) (t : Tree) : Prop where
  version : ∀ m, P.manifest? t = some m → m.version = P.version
  laidOut : (P.cache.persisted t).LaidOut P.layout
  rows : ∀ p h, p.Logical → (((P.cache.persisted t).lookup? p h).isSome = true ↔ Kept es p h)
  generated : ∀ p h, p.Logical → Kept es p h → P.Generated es t p h

/-! ### Looking at rows -/

theorem Project.Generated.file? (hg : P.Generated es t p h) :
    ∃ e ∈ es, e.Succeeded ∧ ∃ o, e.Returned p h o ∧ ∀ f : Artifact,
      t.Reaches (f.full (P.layout.paths p h)) ∧
        t.file? (P.layout.place f p h) = some (f.text o).toUTF8 := by
  obtain ⟨e, he, hs, o, ho, htsx, hdts⟩ := hg
  refine ⟨e, he, hs, o, ho, fun f => ?_⟩
  rw [Tree.read_eq_ok] at htsx hdts
  cases f with
  | tsx => exact htsx
  | dts => exact hdts

theorem Project.generated_of_file? {o : Output} (he : e ∈ es) (hs : e.Succeeded)
    (ho : e.Returned p h o) (hfile : ∀ f : Artifact, t.Reaches (f.full (P.layout.paths p h)) ∧
      t.file? (P.layout.place f p h) = some (f.text o).toUTF8) : P.Generated es t p h := by
  refine ⟨e, he, hs, o, ho, ?_, ?_⟩
  · rw [Tree.read_eq_ok]
    exact hfile .tsx
  · rw [Tree.read_eq_ok]
    exact hfile .dts

namespace Matches
variable (hm : Matches P es t)
include hm

/-- No persisted row has lost an artifact. -/
theorem lookup?_loaded (hp : p.Logical) :
    (P.cache.loaded t).manifest.lookup? p h = (P.cache.persisted t).lookup? p h := by
  refine Project.lookup?_loaded hm.laidOut hp fun hsome f => ?_
  obtain ⟨-, -, -, o, -, hfile⟩ := (hm.generated p h hp ((hm.rows p h hp).1 hsome)).file?
  refine ⟨(hfile f).1, ?_⟩
  rw [(hfile f).2]
  rfl

theorem isSome_loaded_iff (hp : p.Logical) :
    ((P.cache.loaded t).manifest.lookup? p h).isSome = true ↔ Kept es p h := by
  rw [hm.lookup?_loaded hp, hm.rows p h hp]

/-- A context is skipped when the history keeps it. -/
theorem skip_iff (hc : c ∈ (P.perform j t).contexts) (hp : c.path.Logical) :
    c.skip = true ↔ Kept es c.path c.hash := by
  rw [(Project.faithful_of_mem_contexts hc).2.skip, ← hm.isSome_loaded_iff hp,
    Project.loaded_session]

/-- A row is known to a successful run when the run builds it or the history keeps it. -/
theorem isSome_known_iff {contexts : List Context} (hp : p.Logical) :
    ((Session.known (P.session j) t contexts).lookup? p h).isSome = true ↔
      Session.built contexts p h = true ∨ Kept es p h := by
  rw [Session.known, Session.lookup?_recorded, Option.isSome_or, Option.isSome_map,
    Session.isSome_lastContext?, Bool.or_eq_true, Project.loaded_session, hm.isSome_loaded_iff hp]

end Matches

/-! ### A run that succeeds -/

/-- The rows in memory after a successful run are those that the history keeps. -/
theorem Matches.isSome_session_iff (hs : P.history t₀ js = earlier ++ e :: later)
    (hm : Matches P earlier e.before) (hsucceeded : e.Succeeded) (hp : p.Logical) :
    (e.session.cache.manifest.lookup? p h).isSome = true ↔ Kept (earlier ++ [e]) p h := by
  obtain ⟨-, outputs, t₁, t₂, t₃, t₄, hdone⟩ := Project.completed_of_history hs hsucceeded
  have hbuilt : e.Built p h ↔ Session.built e.contexts p h = true := by
    rw [Session.built_iff, Event.Built]
    simp only [hsucceeded, true_and]
  have hcovers : e.Covers p ↔ (e.job.scope = .project ∨
      Session.covered e.job.scope e.contexts p = true) := by
    rw [Event.Covers, Session.covers_eq hdone.batch]
    simp only [hsucceeded, true_and]
  rw [hdone.isSome_lookup?_iff, hm.isSome_known_iff hp, Session.keeps_iff, kept_concat, hbuilt,
    hcovers, or_and_left]

section Step
variable (hadm : P.Admissible t₀ js) (hs : P.history t₀ js = earlier ++ e :: later)
include hadm hs

theorem Project.Admissible.logical (hc : c ∈ e.contexts) : c.path.Logical := by
  obtain ⟨hmem, hperform, -⟩ := Project.event_of_history hs
  rw [hperform] at hc
  obtain ⟨⟨u, hu, hpath⟩, -⟩ := Project.faithful_of_mem_contexts hc
  rw [← hpath]
  exact hadm.sources _ hmem u hu

/-- What a successful run builds is among the places of the project. -/
theorem Project.Admissible.mem_places (hp : p.Logical) (hb : e.Built p h) {a : Place}
    (ha : a ∈ P.layout.places p h) : a ∈ P.places (P.history t₀ js) := by
  obtain ⟨hsucceeded, c, hc, hsame, rfl⟩ := hb
  rw [← (hadm.logical hs hc).eq_of_same hp hsame] at ha
  rw [hs]
  refine List.mem_cons_of_mem _ (List.mem_cons_of_mem _ (List.mem_flatMap.2 ⟨e, by simp, ?_⟩))
  rw [Event.Succeeded] at hsucceeded
  rw [Event.places, if_pos hsucceeded]
  exact List.mem_flatMap.2 ⟨c, hc, ha⟩

omit hs in
/-- What the history keeps is among the places of the project. -/
theorem Project.Admissible.mem_places_of_kept (hs : P.history t₀ js = es ++ later) (hp : p.Logical)
    (hk : Kept es p h) {a : Place} (ha : a ∈ P.layout.places p h) :
    a ∈ P.places (P.history t₀ js) := by
  obtain ⟨e₀, he₀, hb⟩ := exists_built_of_kept hk
  obtain ⟨es₁, es₂, rfl⟩ := List.append_of_mem he₀
  rw [List.append_assoc] at hs
  exact hadm.mem_places hs hp hb ha

omit hs in
/-- What a run needs to go through without getting in its own way, when it builds what some run of the
history has built. -/
theorem Project.Admissible.orderly_of (hs : P.history t₀ js = es ++ later) {contexts : List Context}
    (hcontexts : ∀ c ∈ contexts, c.path.Logical ∧ ∃ e ∈ P.history t₀ js, e.Built c.path c.hash)
    (hlaid : (P.cache.persisted t).LaidOut P.layout)
    (hrows : ∀ p h, p.Logical → ((P.cache.persisted t).lookup? p h).isSome = true → Kept es p h) :
    Session.Orderly (P.session j) t contexts := by
  refine ⟨⟨rfl, fun c hc => (hcontexts c hc).1, ?_⟩, fun x hx => ?_⟩
  · rw [P.loaded_session]
    exact hlaid.restrict _
  have hplaces := hadm.entrypoint x hx
  have hapart := hplaces
  rw [Project.places, List.mem_cons, List.mem_cons, not_or, not_or] at hapart
  refine ⟨hapart.1, hapart.2.1, fun f p k hp hk heq => ?_⟩
  have hmem : (P.layout.root / x).place ∈ P.layout.places p k := by
    rw [show (P.layout.root / x).place = P.layout.place f p k from heq]
    cases f <;> simp [Layout.places]
  rw [Session.known, Session.lookup?_recorded, Option.isSome_or, Option.isSome_map,
    Session.isSome_lastContext?, Bool.or_eq_true, P.loaded_session, Cache.lookup?_loaded] at hk
  rcases hk with hb | hk
  · obtain ⟨c, hc, hsame, rfl⟩ := Session.built_iff.1 hb
    obtain ⟨hlogical, e, he, hbuilt⟩ := hcontexts c hc
    obtain rfl := hlogical.eq_of_same hp hsame
    obtain ⟨es₁, es₂, hsplit⟩ := List.append_of_mem he
    exact hplaces (hadm.mem_places hsplit hp hbuilt hmem)
  · obtain ⟨row, hrow⟩ := Option.isSome_iff_exists.1 hk
    have hkept := hrows p k hp (by rw [(Option.filter_eq_some_iff.1 hrow).1]; rfl)
    exact hplaces (hadm.mem_places_of_kept hs hp hkept hmem)

theorem Project.Admissible.orderly (hm : Matches P earlier e.before) (hsucceeded : e.Succeeded) :
    Session.Orderly (P.session e.job) e.before e.contexts := by
  refine hadm.orderly_of hs (fun c hc => ⟨hadm.logical hs hc, e, by rw [hs]; simp, hsucceeded, c, hc,
    Path.same_self _, rfl⟩) hm.laidOut fun p h hp => (hm.rows p h hp).1

variable (hm : Matches P earlier e.before) (hsucceeded : e.Succeeded)
include hm hsucceeded

/-- A row that the history keeps stands for generated files after a successful run, either for what
the run has got itself or for what was there before. -/
theorem Matches.generated_succeeded (hp : p.Logical) (hk : Kept (earlier ++ [e]) p h) :
    P.Generated (earlier ++ [e]) e.after p h := by
  obtain ⟨-, outputs, t₁, t₂, t₃, t₄, hdone⟩ := Project.completed_of_history hs hsucceeded
  have horderly := hadm.orderly hs hm hsucceeded
  have hrow := (hm.isSome_session_iff hs hsucceeded hp).2 hk
  have hlive := fun f => (hdone.published horderly).live f p h hp hrow
  cases hl : Session.lastOutput? outputs p h with
  | some o =>
    have hreturned : e.Returned p h o := by
      rw [Event.Returned, Project.requests_of_history hs]
      exact hdone.exists_request horderly.logical hp hl
    refine Project.generated_of_file? (by simp) hsucceeded hreturned fun f => ⟨(hlive f).2, ?_⟩
    have hfile := (hlive f).1
    rw [hl, Option.map_some, Option.some_or] at hfile
    exact hfile
  | none =>
    -- nothing was written for the source at the hash, so the history has kept it before
    have hbefore : Kept earlier p h := by
      rw [← hm.isSome_loaded_iff hp, ← P.loaded_session e.job]
      exact hdone.isSome_loaded_of_live hrow hl
    obtain ⟨e₀, he₀, hs₀, o, ho, hfile₀⟩ := (hm.generated p h hp hbefore).file?
    refine Project.generated_of_file? (by simp [he₀]) hs₀ ho fun f => ⟨(hlive f).2, ?_⟩
    have hfile := (hlive f).1
    rw [hl, Option.map_none, Option.none_or] at hfile
    exact hfile.trans (hfile₀ f).2

theorem Matches.succeeded : Matches P (earlier ++ [e]) e.after := by
  obtain ⟨-, outputs, t₁, t₂, t₃, t₄, hdone⟩ := Project.completed_of_history hs hsucceeded
  obtain ⟨hload, hpersisted⟩ := Project.manifest?_of_completed hdone
  have hversion : e.session.cache.manifest.version = P.version := hdone.version
  refine ⟨fun m hm' => ?_, ?_, fun p h hp => ?_, fun p h hp hk => ?_⟩
  · rw [hload] at hm'
    rw [← Option.some.inj hm', hversion]
  · rw [hpersisted]
    exact hdone.laidOut (hadm.orderly hs hm hsucceeded).toFits
  · rw [hpersisted]
    exact hm.isSome_session_iff hs hsucceeded hp
  · exact hm.generated_succeeded hadm hs hsucceeded hp hk

end Step

/-! ### Any run -/

theorem Project.Generated.mono (hg : P.Generated es t p h) (e : Event) :
    P.Generated (es ++ [e]) t p h := by
  obtain ⟨e₀, he₀, hg⟩ := hg
  exact ⟨e₀, List.mem_append_left _ he₀, hg⟩

theorem kept_concat_failed (hfailed : ¬e.Succeeded) : Kept (es ++ [e]) p h ↔ Kept es p h := by
  rw [kept_concat, Event.Built, Event.Covers]
  simp only [hfailed, false_and, not_false_eq_true, and_true, false_or]

/-- A run that fails changes neither the files nor what the history keeps. -/
theorem Matches.failed (hm : Matches P es t) (hfailed : ¬e.Succeeded) : Matches P (es ++ [e]) t := by
  refine ⟨hm.version, hm.laidOut, fun p h hp => ?_, fun p h hp hk => ?_⟩
  · rw [hm.rows p h hp, kept_concat_failed hfailed]
  · exact (hm.generated p h hp ((kept_concat_failed hfailed).1 hk)).mono e

theorem Project.Admissible.after_of_failed (hadm : P.Admissible t₀ js)
    (hs : P.history t₀ js = earlier ++ e :: later) (hfailed : ¬e.Succeeded) : e.after = e.before := by
  obtain ⟨-, hperform, -⟩ := Project.event_of_history hs
  have hfiles := hadm.files e (by rw [hs]; simp)
  rw [hperform] at hfailed hfiles
  have hafter := Project.after_of_failed hfailed hfiles
  rwa [← hperform] at hafter

theorem matches_start (hnone : P.manifest? t = none) : Matches P [] t := by
  have hpersisted : P.cache.persisted t = .empty P.version := Cache.persisted_eq_empty hnone
  refine ⟨fun m hm => ?_, ?_, fun p h _ => ?_, fun p h _ hk => absurd hk kept_nil⟩
  · rw [hnone] at hm
    cases hm
  · rw [hpersisted]
    exact Manifest.laidOut_empty P.version
  · rw [hpersisted, Manifest.lookup?_empty]
    simp [kept_nil]

section Runs
variable (hadm : P.Admissible t₀ js) (hnone : P.manifest? t₀ = none)
  (hs : P.history t₀ js = earlier ++ e :: later)
include hadm hs

theorem Matches.concat (hm : Matches P earlier e.before) : Matches P (earlier ++ [e]) e.after := by
  by_cases hsucceeded : e.Succeeded
  · exact hm.succeeded hadm hs hsucceeded
  · rw [hadm.after_of_failed hs hsucceeded]
    exact hm.failed hsucceeded

include hnone

theorem Project.Admissible.matches_before : Matches P earlier e.before :=
  Project.history_induction (matches_start hnone) (fun _ _ _ hs hm => hm.concat hadm hs) hs

theorem Project.Admissible.matches_after : Matches P (earlier ++ [e]) e.after :=
  (hadm.matches_before hnone hs).concat hadm hs

end Runs

/-! ### A small history -/

namespace Sample

def project : Project := ⟨⟨⟨"/p"⟩, ⟨".c"⟩, ⟨"t"⟩⟩, "1", some ⟨"g.d.ts"⟩⟩

def config : ContentHash := ⟨Vector.replicate 16 0⟩

def schema : SourceUnit := ⟨⟨"s"⟩, "type Q", .schema⟩

def literal : SourceUnit := ⟨⟨"a/q"⟩, "{a}", .literal⟩

/-- The hash of the schema units, alone or with other units. -/
def identity : ContentHash := .combine [.chained config schema.stripped]

/-- A run for the project, with a backend that gives back what it gets. -/
def first : Job where
  configHash := config
  plugins := []
  options := .null
  memory := .empty "1"
  last := .zero
  backend := fun r => .ok (r.documents.map fun d => ⟨d.content, d.kind⟩)
  scope := .project
  units := [schema]

/-- A run with one more unit, and with a backend that refuses everything. -/
def second : Job :=
  { first with backend := fun _ => .error (.plain ""), scope := .partly [], units := [schema, literal] }

/-- One file that has nothing to do with the project. -/
def tree : Tree := Tree.empty.put ["n"] (.file "".toUTF8)

def firstEvent : Event := project.perform first tree

def secondEvent : Event := project.perform second firstEvent.after

/-- The places that the project uses, other than for the entrypoint. -/
def used : List Place :=
  [project.manifestPath.place, (temporaryPath project.manifestPath).place] ++
    project.layout.places schema.path (schema.hash config identity)

theorem history_eq : project.history tree [first, second] = [firstEvent, secondEvent] := rfl

set_option maxRecDepth 100000 in
theorem succeeded_firstEvent : firstEvent.Succeeded := by
  show firstEvent.result.isOk = true
  decide +kernel

set_option maxRecDepth 100000 in
theorem not_mem_used : ["n"] ∉ used ∧ (project.layout.root / ⟨"g.d.ts"⟩).place ∉ used := by
  decide +kernel

set_option maxRecDepth 100000 in
theorem not_mem_entrypointPlaces : ["n"] ∉ project.entrypointPlaces := by
  decide +kernel

set_option maxRecDepth 100000 in
theorem identity_eq : schemaIdentity? config [schema] = some identity ∧
    schemaIdentity? config [schema, literal] = some identity := by
  decide +kernel

theorem inner : project.layout.Inner :=
  ⟨⟨by decide +kernel, by decide +kernel, by decide +kernel⟩,
    ⟨by decide +kernel, by decide +kernel, by decide +kernel⟩⟩

theorem logical : schema.path.Logical ∧ literal.path.Logical :=
  ⟨⟨⟨by decide +kernel, by decide +kernel, by decide +kernel⟩, by decide +kernel⟩,
    ⟨⟨by decide +kernel, by decide +kernel, by decide +kernel⟩, by decide +kernel⟩⟩

theorem file?_tree {a : Place} (ha : a ≠ ["n"]) : tree.file? a = none := by
  rw [tree, Tree.file?_put_file rfl, if_neg ha]
  cases a <;> rfl

theorem manifest?_tree : project.manifest? tree = none := by
  refine manifest?_of_file?_eq_none (file?_tree fun heq => not_mem_used.1 ?_)
  rw [← heq]
  exact List.mem_cons_self ..

theorem keys_firstEvent : firstEvent.contexts.map (fun c => (c.path, c.hash)) =
    [(schema.path, schema.hash config identity)] := (Project.keys_perform identity_eq.1).2

theorem keys_secondEvent : secondEvent.contexts.map (fun c => (c.path, c.hash)) =
    [(schema.path, schema.hash config identity), (literal.path, literal.hash config identity)] :=
  (Project.keys_perform identity_eq.2).2

theorem places_firstEvent : firstEvent.places project.layout =
    project.layout.places schema.path (schema.hash config identity) := by
  have hok : firstEvent.result.isOk = true := succeeded_firstEvent
  obtain ⟨c, hcontexts, hkey⟩ := List.map_eq_singleton_iff.1 keys_firstEvent
  obtain ⟨hpath, hhash⟩ := Prod.mk.inj hkey
  rw [Event.places, if_pos hok, hcontexts, List.flatMap_singleton, hpath, hhash]

theorem admissible_first : project.Admissible tree [first] := by
  refine ⟨inner, ?_, ?_, ?_⟩
  · simp [first, logical.1]
  · intro e he
    obtain rfl : e = firstEvent := List.mem_singleton.1 he
    exact Event.filesFailed_of_succeeded succeeded_firstEvent
  · intro p hp
    obtain rfl : p = ⟨"g.d.ts"⟩ := (Option.some.inj hp).symm
    show _ ∉ project.places [firstEvent]
    rw [Project.places, List.flatMap_singleton, places_firstEvent]
    exact not_mem_used.2

theorem matches_first : Matches project [firstEvent] firstEvent.after := by
  have hs : project.history tree [first] = [] ++ firstEvent :: [] := rfl
  exact admissible_first.matches_after manifest?_tree hs

theorem kept_schema : Kept [firstEvent] schema.path (schema.hash config identity) := by
  obtain ⟨c, hcontexts, hkey⟩ := List.map_eq_singleton_iff.1 keys_firstEvent
  obtain ⟨hpath, hhash⟩ := Prod.mk.inj hkey
  have hbuilt : firstEvent.Built schema.path (schema.hash config identity) :=
    ⟨succeeded_firstEvent, c, by simp [hcontexts], hpath ▸ Path.same_self _, hhash⟩
  exact kept_concat.2 (.inl hbuilt : _ ∨ Kept [] _ _ ∧ _)

theorem not_kept_literal (k : ContentHash) : ¬Kept [firstEvent] literal.path k := by
  intro hk
  obtain ⟨e, he, -, c, hc, hsame, -⟩ := exists_built_of_kept hk
  obtain rfl := List.mem_singleton.1 he
  have hkey : (c.path, c.hash) ∈ [(schema.path, schema.hash config identity)] :=
    keys_firstEvent ▸ List.mem_map_of_mem hc
  rw [(Prod.mk.inj (List.mem_singleton.1 hkey)).1] at hsame
  exact absurd hsame (by decide)

/-- The backend of the second run refuses the literal, which no run has built before. -/
theorem exists_refused : ∃ source d, secondEvent.result = .error (.refused source d) := by
  have hmem : (literal.path, literal.hash config identity) ∈
      secondEvent.contexts.map fun c => (c.path, c.hash) := by
    rw [keys_secondEvent]
    simp
  obtain ⟨c, hc, hkey⟩ := List.mem_map.1 hmem
  have hpath : c.path = literal.path := (Prod.mk.inj hkey).1
  have hskip : c.skip = false := by
    rw [Bool.eq_false_iff]
    intro h
    have hk := (matches_first.skip_iff hc (hpath ▸ logical.2)).1 h
    exact not_kept_literal _ (hpath ▸ hk)
  have hschema : (schemaIdentity? second.configHash second.units).isSome = true := by
    rw [show schemaIdentity? second.configHash second.units = some identity from identity_eq.2]
    rfl
  exact Project.exists_refused (fun _ => ⟨_, rfl⟩) hschema hc hskip

theorem places_secondEvent : secondEvent.places project.layout = [] := by
  obtain ⟨source, d, hresult⟩ := exists_refused
  have hfailed : secondEvent.result.isOk = false := by rw [hresult]; rfl
  rw [Event.places, hfailed]
  rfl

theorem admissible : project.Admissible tree [first, second] := by
  refine ⟨inner, ?_, ?_, ?_⟩
  · simp [first, second, logical.1, logical.2]
  · intro e he
    rw [history_eq] at he
    rcases List.mem_cons.1 he with rfl | he
    · exact Event.filesFailed_of_succeeded succeeded_firstEvent
    · obtain rfl := List.mem_singleton.1 he
      obtain ⟨source, d, hresult⟩ := exists_refused
      rw [Event.filesFailed, hresult]
  · intro p hp
    obtain rfl : p = ⟨"g.d.ts"⟩ := (Option.some.inj hp).symm
    rw [history_eq, Project.places, List.flatMap_cons, List.flatMap_singleton, places_firstEvent,
      places_secondEvent, List.append_nil]
    exact not_mem_used.2

end Sample

end GqlArtifacts
