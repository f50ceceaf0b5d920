import GqlArtifacts.Proofs.History.Entrypoint
import GqlArtifacts.Proofs.History.Sources

/-!
# Building file by file

Runs for one file each, in any order and however often, come to the same as one run for the whole
project, once every file has had a run (`partwise_eq_whole`).

`Stands` says what is on disk when some units have been built, look-up by look-up and place by place:
the row of a source at a hash is that of its last unit, its artifacts are what the backend makes of
that unit, and everything else is as at the start. A run adds its units, provided that it does not
take away what other runs have built (`Stands.run`). So what is on disk in the end depends on the last
units alone, and these do not depend on the order (`Sources.last?_flatMap`).

A project without a schema is an exception. Its units cannot be built, but a run for a file that has
no units goes through and saves an empty manifest, while the run for the project fails
(`partwise_ne_whole`).
-/

namespace GqlArtifacts

open Files CacheM

variable {P : Project} {C : Sources} {fs : List SourceFile} {scope : Scope} {t₀ t : Tree}
  {us : List SourceUnit} {e : Event} {p : Path} {k : ContentHash} {f : Artifact}

/-- What the entrypoint holds: what the persisted rows say, or what it held at the start while there
are none. -/
def Project.entry (P : Project) (t₀ t : Tree) (x : Path) : Option ByteArray :=
  if (P.cache.persisted t).toList.isEmpty && t₀.isFile (P.layout.root / x) then
    t₀.file? (P.layout.root / x).place
  else some (Entrypoint.render (P.cache.persisted t) x).toUTF8

/-- A tree in which some units have been built, and `t₀` the tree at the start. -/
structure Stands (P : Project) (C : Sources) (t₀ : Tree) (us : List SourceUnit) (t : Tree) :
    Prop where
  laidOut : (P.cache.persisted t).LaidOut P.layout
  full : (P.cache.persisted t).Full
  rows : ∀ p k, p.Logical →
    (P.cache.persisted t).lookup? p k = (C.last? us p k).map (C.row P.layout)
  there : ∀ p k, p.Logical → (C.last? us p k).isSome = true → ∀ f : Artifact,
    t.Reaches (f.full (P.layout.paths p k)) ∧ (t.file? (P.layout.place f p k)).isSome = true
  artifacts : ∀ f p k, p.Logical →
    (∀ x ∈ P.entrypoint?, (P.layout.root / x).place ≠ P.layout.place f p k) →
    t.file? (P.layout.place f p k) =
      ((C.last? us p k).map fun u => (f.text (C.generated u)).toUTF8).or
        (t₀.file? (P.layout.place f p k))
  /-- An entrypoint that lies where an artifact belongs. -/
  entrypoint : ∀ x ∈ P.entrypoint?, ∀ f p k, p.Logical →
    (P.layout.root / x).place = P.layout.place f p k →
    (t₀.isFile (P.layout.root / x) = true → t.isFile (P.layout.root / x) = true) ∧
    (t.isFile (P.layout.root / x) = true →
      t.file? (P.layout.root / x).place = P.entry t₀ t x)

/-- A tree that the last of some runs has left. -/
structure Concluded (P : Project) (C : Sources) (t₀ : Tree) (us : List SourceUnit) (t : Tree) : Prop
    extends Stands P C t₀ us t where
  present : ∀ x ∈ P.entrypoint?, ∀ f p k, p.Logical →
    (P.layout.root / x).place = P.layout.place f p k → t.isFile (P.layout.root / x) = true

/-- A run finds for each source either nothing new, or what has been built, or does not look at it. -/
def Sources.Agrees (C : Sources) (us : List SourceUnit) (fs : List SourceFile) (scope : Scope) :
    Prop :=
  ∀ p k, p.Logical → C.last? us p k = none ∨ C.last? (C.unitsOf fs) p k = C.last? us p k ∨
    C.last? (C.unitsOf fs) p k = none ∧ scope ≠ .project ∧ scope.covers (C.unitsOf fs) p = false

/-! ### Before a run -/

namespace Stands
variable (hstands : Stands P C t₀ us t)
include hstands

theorem lookup?_loaded (hp : p.Logical) : (P.cache.loaded t).manifest.lookup? p k =
    (C.last? us p k).map (C.row P.layout) := by
  rw [Project.lookup?_loaded hstands.laidOut hp, hstands.rows p k hp]
  intro hsome
  rw [hstands.rows p k hp, Option.isSome_map] at hsome
  exact hstands.there p k hp hsome

/-- Every persisted row has its artifacts. -/
theorem loaded_eq : (P.cache.loaded t).manifest = P.cache.persisted t := by
  have hlookup : ∀ p k, p.Logical →
      (P.cache.loaded t).manifest.lookup? p k = (P.cache.persisted t).lookup? p k := fun p k hp =>
    (hstands.lookup?_loaded hp).trans (hstands.rows p k hp).symm
  rw [Cache.loaded] at hlookup ⊢
  exact (hstands.laidOut.restrict _).ext hstands.laidOut Manifest.full_restrict hstands.full
    Manifest.version_restrict hlookup

end Stands

theorem stands_start (hnone : P.manifest? t = none) : Stands P C t [] t := by
  have hpersisted : P.cache.persisted t = .empty P.version := Cache.persisted_eq_empty hnone
  refine ⟨?_, ?_, fun p k _ => ?_, fun p k _ hsome => ?_, fun f p k _ _ => ?_,
    fun x _ f p k _ _ => ⟨id, fun hfile => ?_⟩⟩
  · rw [hpersisted]
    exact Manifest.laidOut_empty P.version
  · rw [hpersisted]
    exact Manifest.full_empty P.version
  · rw [hpersisted]
    rfl
  · cases hsome
  · rfl
  · rw [Project.entry, hpersisted, hfile]
    rfl

/-! ### A run -/

section Run
variable (hasks : C.Asks fs scope e.job) (hstands : Stands P C t₀ us e.before)
  (hagrees : C.Agrees us fs scope)
  {outputs : List (Context × Output)} {t₁ t₂ t₃ t₄ : Tree}
  (hdone : Session.Completed (.ofFunction e.job.backend) e.job.scope e.job.units (P.session e.job)
    e.session e.contexts outputs e.before t₁ t₂ t₃ t₄ e.after)
include hasks hdone

theorem contexts_eq : e.contexts =
    (C.unitsOf fs).map (C.context P.layout (P.cache.loaded e.before).manifest) := by
  have hbatch := hdone.batch
  rw [C.contexts_of_asks hasks] at hbatch
  split at hbatch
  · cases hbatch
  · exact (Option.some.inj hbatch).symm

theorem lastContext?_eq : Session.lastContext? e.contexts p k = (C.last? (C.unitsOf fs) p k).map
    (C.context P.layout (P.cache.loaded e.before).manifest) := by
  rw [contexts_eq hasks hdone, C.lastContext?_map]

theorem built_eq : Session.built e.contexts p k = (C.last? (C.unitsOf fs) p k).isSome := by
  rw [← Session.isSome_lastContext?, lastContext?_eq hasks hdone, Option.isSome_map]

theorem logical_of_contexts {c : Context} (hc : c ∈ e.contexts) : c.path.Logical := by
  rw [contexts_eq hasks hdone] at hc
  obtain ⟨u, hu, rfl⟩ := List.mem_map.1 hc
  exact C.logical_of_mem hu

include hstands

theorem fits : Session.Fits (P.session e.job) e.before e.contexts := by
  refine ⟨rfl, fun c hc => logical_of_contexts hasks hdone hc, ?_⟩
  rw [P.loaded_session]
  exact hstands.laidOut.restrict _

omit hstands hdone in
theorem alone_context {m : Manifest} {u : SourceUnit} (hpath : u.path = p) :
    Session.alone C.output (P.session e.job).settings (Session.schemaText e.job.units) p
      (C.context P.layout m u) = C.generated u := by
  rw [Session.alone, Sources.generated, hasks.units, C.schemaText_unitsOf, hpath, ← hasks.plugins,
    ← hasks.options]
  rfl

/-- The outputs of a run are those for the last units of what has not been built. -/
theorem lastOutput?_eq (hp : p.Logical) : Session.lastOutput? outputs p k =
    if (C.last? us p k).isSome then none else (C.last? (C.unitsOf fs) p k).map C.generated := by
  have hanswers := hdone.answers_eq.1
  rw [hasks.backend] at hanswers
  have hpath : ∀ u ∈ C.unitsOf fs, u.path.same p = true → u.path = p := fun u hu hs =>
    (C.logical_of_mem hu).eq_of_same hp hs
  -- whether a unit is skipped depends on its source and hash alone
  have hskip : ∀ u ∈ C.unitsOf fs, u.path.same p = true → u.hash C.configHash C.identity = k →
      ((fun c : Context => !c.skip) ∘ C.context P.layout (P.cache.loaded e.before).manifest) u =
        !(C.last? us p k).isSome := by
    intro u hu hs hhash
    have hloaded := hstands.lookup?_loaded (k := k) hp
    rw [Function.comp_apply, C.skip_context, hpath u hu hs, hhash, hloaded, Option.isSome_map]
  rw [Session.lastOutput?_byDocument hanswers (fun c hc => logical_of_contexts hasks hdone hc) hp,
    contexts_eq hasks hdone, List.filter_map, C.lastContext?_map, C.last?_filter hskip]
  cases (C.last? us p k).isSome with
  | true => rfl
  | false =>
    rw [Bool.not_false, if_pos rfl, if_neg Bool.false_ne_true, Option.map_map]
    refine Option.map_congr fun u hu => ?_
    obtain ⟨hmem, hs, -⟩ := C.last?_eq_some hu
    exact alone_context hasks (hpath u hmem hs)

/-- The rows that the run has in memory before it takes any away. -/
theorem lookup?_known (hp : p.Logical) :
    (Session.known (P.session e.job) e.before e.contexts).lookup? p k =
      (C.last? (us ++ C.unitsOf fs) p k).map (C.row P.layout) := by
  have hloaded := hstands.lookup?_loaded (k := k) hp
  have hrow : Context.row ∘ C.context P.layout (P.cache.loaded e.before).manifest =
      C.row P.layout := funext fun u => C.row_context
  rw [Session.known, Session.lookup?_recorded, P.loaded_session, hloaded]
  rw [lastContext?_eq hasks hdone, C.last?_append, Option.map_map, Option.map_or]
  rw [hrow]

include hagrees

/-- A run keeps all rows that it knows. -/
theorem keeps_known
    (hk : ((Session.known (P.session e.job) e.before e.contexts).lookup? p k).isSome = true) :
    Session.keeps e.job.scope e.contexts p k = true := by
  have hfits := fits hasks hstands hdone
  obtain ⟨row, hrow⟩ := Option.isSome_iff_exists.1 hk
  obtain ⟨q, hs, hq⟩ := Manifest.lookup?_eq_some_iff.1 hrow
  have hlogical : q.Logical := (hdone.laidOut_known hfits).logical hq
  rw [Session.spelled_keeps p q k hs, Session.keeps_iff, built_eq hasks hdone]
  rw [Manifest.lookup?_congr hs, lookup?_known hasks hstands hdone hlogical, Option.isSome_map,
    C.last?_append, Option.isSome_or, Bool.or_eq_true] at hk
  rcases hk with hbuilt | hbefore
  · exact .inl hbuilt
  · rcases hagrees q k hlogical with hnone | heq | ⟨-, hscope, hcovers⟩
    · rw [hnone] at hbefore
      cases hbefore
    · exact .inl (heq ▸ hbefore)
    · refine .inr ?_
      rw [← Session.covers_eq hdone.batch, hasks.scope, hasks.units, hcovers]
      simp [hscope]

theorem lookup?_session (hp : p.Logical) : e.session.cache.manifest.lookup? p k =
    (C.last? (us ++ C.unitsOf fs) p k).map (C.row P.layout) := by
  have hknown := lookup?_known (k := k) hasks hstands hdone hp
  have hlookup : e.session.cache.manifest.lookup? p k =
      ((Session.known (P.session e.job) e.before e.contexts).lookup? p k).filter
        fun _ => Session.keeps e.job.scope e.contexts p k := by
    rw [hdone.lookup?, Session.known, Session.lookup?_recorded]
  have hkeeps := keeps_known (p := p) (k := k) hasks hstands hagrees hdone
  rw [hlookup, ← hknown]
  cases hk : (Session.known (P.session e.job) e.before e.contexts).lookup? p k with
  | none => rfl
  | some row =>
    rw [hk] at hkeeps
    rw [Option.filter_some, if_pos (hkeeps rfl)]

/-- No artifact is lost, and those of new units are written. -/
theorem file?_cleared (f : Artifact) (hp : p.Logical) : t₃.file? (P.layout.place f p k) =
    (if (C.last? us p k).isSome then none
      else (C.last? (C.unitsOf fs) p k).map fun u => (f.text (C.generated u)).toUTF8).or
        (e.before.file? (P.layout.place f p k)) := by
  have hkept := hdone.file?_of_kept (k := k) (fits hasks hstands hdone) f hp fun hk =>
    keeps_known hasks hstands hagrees hdone hk
  rw [lastOutput?_eq hasks hstands hdone hp] at hkept
  refine hkept.trans ?_
  congr 1
  split
  · rfl
  · rw [Option.map_map]
    rfl

/-- A run that asks for nothing finds the rows of its contexts as they are. -/
theorem rows_of_skipped (hout : outputs = []) {p : Path} {k : ContentHash} {c : Context}
    (hc : Session.lastContext? e.contexts p k = some c) :
    (P.cache.loaded e.before).manifest.lookup? p k = some c.row := by
  have hmem : c ∈ e.contexts := List.mem_reverse.1 (List.mem_of_find?_eq_some hc)
  have hkey := List.find?_some hc
  rw [Bool.and_eq_true, beq_iff_eq] at hkey
  have hlogical := logical_of_contexts hasks hdone hmem
  have hloaded := hstands.lookup?_loaded (k := k) hlogical
  have hskip : c.skip = true := by
    by_contra hnot
    obtain ⟨o, ho⟩ := hdone.exists_output hmem (Bool.not_eq_true _ ▸ hnot)
    rw [hout] at ho
    cases ho
  rw [(Context.faithful_of_batch? hdone.batch hmem).skip, P.loaded_session, hkey.2, hloaded,
    Option.isSome_map] at hskip
  have hlast : Session.lastContext? e.contexts c.path k = some c := by
    rw [← hc, Session.lastContext?, Session.lastContext?]
    simp only [Session.any_same_congr hkey.1]
  rw [← Manifest.lookup?_congr hkey.1, hloaded]
  rw [lastContext?_eq hasks hdone] at hlast
  obtain ⟨u, hu, rfl⟩ := Option.map_eq_some_iff.1 hlast
  rcases hagrees _ k hlogical with hnone | heq | ⟨hnone, -⟩
  · rw [hnone] at hskip
    cases hskip
  · rw [← heq, hu, Option.map_some, C.row_context]
  · rw [hnone] at hu
    cases hu

/-- The entrypoint is there after a run, also if it lies where an artifact belongs. -/
theorem entrypoint_after {x : Path} (hx : x ∈ P.entrypoint?) (hp : p.Logical)
    (hplace : (P.layout.root / x).place = P.layout.place f p k) :
    e.after.isFile (P.layout.root / x) = true ∧
      e.after.file? (P.layout.root / x).place = P.entry t₀ e.after x := by
  obtain ⟨hpresent, hcurrent⟩ := hstands.entrypoint x hx f p k hp hplace
  have hkeeps : ∀ p k, ((Session.known (P.session e.job) e.before e.contexts).lookup? p k).isSome =
      true → Session.keeps e.job.scope e.contexts p k = true := fun p k hk =>
    keeps_known hasks hstands hagrees hdone hk
  have hpersisted : P.cache.persisted e.after = e.session.cache.manifest :=
    (Project.manifest?_of_completed hdone).2
  have hsaved : e.after.file? (P.layout.root / x).place = t₄.file? (P.layout.root / x).place := by
    obtain ⟨hman, htmp⟩ : (P.layout.place f p k).lastChar? ≠ some 'n' ∧
      (P.layout.place f p k).lastChar? ≠ some 'p' := Layout.lastChar?_place_ne f
    rw [← hplace] at hman htmp
    refine hdone.saved.file?_of_lastChar? (fun heq => hman ?_) htmp
    rw [heq]
    exact lastChar?_manifest _
  have hentered := hdone.entered
  rw [show (P.session e.job).settings.entrypoint? = some x from hx, Session.entered_some] at hentered
  rcases hentered with ⟨ht₄, hfile, hcounts⟩ | ⟨hwrote, hcounts⟩
  · -- the entrypoint was left alone, and the rows are those from before the run
    simp only [Nat.add_eq_zero_iff] at hcounts
    have hout : outputs = [] := by
      have hgenerated := hcounts.1.1
      rw [hdone.summary] at hgenerated
      exact List.eq_nil_of_length_eq_zero hgenerated
    have halike := hdone.alike hout hkeeps
    have hsame : P.cache.persisted e.after = P.cache.persisted e.before := by
      rw [hpersisted, hdone.manifest_eq hkeeps fun p k c hc => ?_, P.loaded_session,
        hstands.loaded_eq]
      rw [P.loaded_session]
      exact rows_of_skipped hasks hstands hagrees hdone hout hc
    have hbefore : e.before.isFile (P.layout.root / x) = true := by
      rw [← halike.isFile_eq]
      exact hfile
    have hafter : e.after.file? (P.layout.root / x).place = P.entry t₀ e.after x := by
      rw [hsaved, ht₄, halike.file?, hcurrent hbefore, Project.entry, Project.entry, hsame]
    refine ⟨?_, hafter⟩
    obtain ⟨hreaches, hsome⟩ := Tree.isFile_iff.1 hfile
    refine Tree.isFile_iff.2 ⟨(ht₄ ▸ hreaches).grows hdone.saved.grows, ?_⟩
    rw [hsaved, ht₄]
    exact hsome
  · have hafter : e.after.file? (P.layout.root / x).place =
        some (Entrypoint.render (P.cache.persisted e.after) x).toUTF8 := by
      rw [hsaved, hpersisted]
      exact (Tree.read_eq_ok.1 hwrote.read).2
    refine ⟨Tree.isFile_iff.2 ⟨hwrote.reaches.grows hdone.saved.grows, by rw [hafter]; rfl⟩, ?_⟩
    rw [hafter, Project.entry, if_neg]
    -- if the first tree had an entrypoint and there is no row, then the run had nothing to write
    rw [Bool.and_eq_true, List.isEmpty_iff, hpersisted]
    rintro ⟨hbare, hfirst⟩
    obtain ⟨hout, hpruned, hremoved⟩ := hdone.counts_of_bare hbare hkeeps
    have hfile : t₃.isFile (P.layout.root / x) = true := by
      rw [(hdone.alike hout hkeeps).isFile_eq]
      exact hpresent hfirst
    have hchanged := hcounts hfile
    rw [hpruned, hremoved, hdone.summary, hout] at hchanged
    exact absurd hchanged (by simp)

/-- A run adds its units to what has been built. -/
theorem Stands.run : Concluded P C t₀ (us ++ C.unitsOf fs) e.after := by
  have hfits := fits hasks hstands hdone
  have hpersisted : P.cache.persisted e.after = e.session.cache.manifest :=
    (Project.manifest?_of_completed hdone).2
  have hplace : ∀ (f : Artifact) p k, p.Logical →
      (∀ x ∈ P.entrypoint?, (P.layout.root / x).place ≠ P.layout.place f p k) →
      e.after.file? (P.layout.place f p k) = t₃.file? (P.layout.place f p k) :=
    fun f p k _ hentry => hdone.file?_place f hentry
  refine ⟨⟨?_, ?_, fun p k hp => ?_, fun p k hp hsome f => ⟨?_, ?_⟩, fun f p k hp hentry => ?_,
    fun x hx f p k hp heq => ?_⟩, fun x hx f p k hp heq => ?_⟩
  · rw [hpersisted]
    exact hdone.laidOut hfits
  · rw [hpersisted]
    exact hdone.full
  · rw [hpersisted]
    exact lookup?_session hasks hstands hagrees hdone hp
  · refine hdone.reaches_live hfits hp ?_ f
    rw [lookup?_session hasks hstands hagrees hdone hp, Option.isSome_map]
    exact hsome
  · by_cases hentry : ∃ x ∈ P.entrypoint?, (P.layout.root / x).place = P.layout.place f p k
    · obtain ⟨x, hx, heq⟩ := hentry
      have hfile := (entrypoint_after hasks hstands hagrees hdone hx hp heq).1
      rw [← heq]
      exact (Tree.isFile_iff.1 hfile).2
    · rw [hplace f p k hp fun x hx heq => hentry ⟨x, hx, heq⟩,
        file?_cleared hasks hstands hagrees hdone f hp, Option.isSome_or, Bool.or_eq_true]
      rw [C.last?_append, Option.isSome_or, Bool.or_eq_true] at hsome
      by_cases hbefore : (C.last? us p k).isSome = true
      · exact .inr (hstands.there p k hp hbefore f).2
      · rw [if_neg hbefore, Option.isSome_map]
        exact .inl (hsome.resolve_right hbefore)
  · rw [hplace f p k hp hentry, file?_cleared hasks hstands hagrees hdone f hp,
      hstands.artifacts f p k hp hentry, C.last?_append]
    rcases hagrees p k hp with hnone | heq | ⟨hnone, -⟩
    · rw [hnone]
      simp
    · rw [heq]
      cases C.last? us p k <;> simp
    · rw [hnone]
      cases C.last? us p k <;> simp
  · obtain ⟨hfile, hentry⟩ := entrypoint_after hasks hstands hagrees hdone hx hp heq
    exact ⟨fun _ => hfile, fun _ => hentry⟩
  · exact (entrypoint_after hasks hstands hagrees hdone hx hp heq).1

end Run

/-! ### Many runs -/

section Runs
variable {j : Job} {L M : List SourceFile} {js : List Job} {earlier : List Event}

/-- With a schema, or with nothing to build, a run goes through. -/
theorem Sources.Asks.succeeded (hasks : C.Asks fs scope j)
    (hgiven : C.schema = [] → C.unitsOf fs = []) (hfiles : (P.perform j t).filesFailed = false) :
    (P.perform j t).Succeeded := by
  have hcontexts := C.contexts_of_asks (P := P) (t := t) hasks
  rw [if_neg fun hboth => hboth.2 (hgiven hboth.1)] at hcontexts
  have hanswers := Session.answers_byDocument C.output (P.session j).settings
    (Session.schemaText j.units) (Session.staleGroups ((C.unitsOf fs).map
      (C.context P.layout (P.cache.loaded t).manifest))).toList
  rw [← hasks.backend] at hanswers
  exact (Project.completed_of_answers hcontexts hanswers hfiles).1

/-- A run that has units but no schema changes nothing. -/
theorem Sources.Asks.after_eq (hasks : C.Asks fs scope j) (hschema : C.schema = [])
    (hunits : C.unitsOf fs ≠ []) : (P.perform j t).after = t := by
  have hcontexts := C.contexts_of_asks (P := P) (t := t) hasks
  rw [if_pos ⟨hschema, hunits⟩] at hcontexts
  have hrun := P.run_perform j t
  rw [Session.run_eq, Session.exec_runCache, hcontexts] at hrun
  dsimp only at hrun
  exact (Prod.mk.inj hrun).2.symm

theorem Sources.agrees_of_partly {g : SourceFile} (hg : g ∈ C.files) (hM : ∀ f ∈ M, f ∈ C.files) :
    C.Agrees (M.flatMap fun f => C.unitsOf [f]) [g] (.partly [g.path]) := by
  intro p k hp
  have hsingle : ∀ f ∈ [g], f ∈ C.files := fun f hf => List.mem_singleton.1 hf ▸ hg
  rw [C.last?_flatMap hM hp, C.last?_unitsOf hsingle hp]
  split
  · split
    · exact .inr (.inl rfl)
    · next hother =>
      rw [not_or] at hother
      refine .inr (.inr ⟨rfl, by simp, ?_⟩)
      have hpath : g.path ≠ p := fun heq => hother.1 ⟨g, List.mem_singleton_self g, heq⟩
      rw [Scope.covers, Scope.listed, Bool.or_eq_false_iff, List.any_eq_false, List.any_eq_false]
      refine ⟨fun u hu hs => ?_, fun q hq hs => ?_⟩
      · obtain rfl := (C.logical_of_mem hu).eq_of_same hp hs
        rcases C.mem_unitsOf.1 hu with hu | ⟨f, hf, hu⟩
        · exact hother.2 fun f hf heq => C.apart f hf u hu heq.symm
        · rw [List.mem_singleton.1 hf] at hu
          exact hpath (g.within u hu).symm
      · rw [List.mem_singleton.1 hq] at hs
        exact hpath (g.logical.eq_of_same hp hs)
  · exact .inl rfl

/-- After runs for one file each, the units of all of them have been built. -/
theorem Stands.history (hL : ∀ f ∈ L, f ∈ C.files) (hM : ∀ f ∈ M, f ∈ C.files)
    (hgiven : C.schema = [] → ∀ f ∈ C.files, f.units = [])
    (hjs : List.Forall₂ (fun f j => C.Asks [f] (.partly [f.path]) j) L js)
    (hfiles : ∀ e ∈ P.history t js, e.filesFailed = false)
    (hstands : Stands P C t₀ (M.flatMap fun f => C.unitsOf [f]) t) :
    (∀ e ∈ P.history t js, e.Succeeded) ∧ ∀ earlier e, P.history t js = earlier ++ [e] →
      Concluded P C t₀ ((M ++ L).flatMap fun f => C.unitsOf [f]) e.after := by
  induction hjs generalizing t M with
  | nil =>
    refine ⟨fun e he => absurd he List.not_mem_nil, fun earlier e hs => ?_⟩
    cases earlier <;> cases hs
  | @cons f j L js hasks hrest ih =>
    have hf := hL f (List.mem_cons_self ..)
    have hempty : C.schema = [] → C.unitsOf [f] = [] := fun hnil => by
      rw [Sources.unitsOf, hnil, List.flatMap_singleton, hgiven hnil f hf]
      rfl
    have hsucceeded := hasks.succeeded hempty (hfiles _ (List.mem_cons_self ..))
    obtain ⟨-, outputs, t₁, t₂, t₃, t₄, hdone⟩ := Project.completed_of_succeeded hsucceeded
    have hafter := Stands.run (e := P.perform j t) hasks hstands (C.agrees_of_partly hf hM) hdone
    have hM' : ∀ g ∈ M ++ [f], g ∈ C.files := fun g hg => by
      rcases List.mem_append.1 hg with hg | hg
      · exact hM g hg
      · exact List.mem_singleton.1 hg ▸ hf
    have hconcat : (M.flatMap fun f => C.unitsOf [f]) ++ C.unitsOf [f] =
        (M ++ [f]).flatMap fun f => C.unitsOf [f] := by
      rw [List.flatMap_append, List.flatMap_singleton]
    rw [hconcat] at hafter
    obtain ⟨hall, hlast⟩ := ih (fun g hg => hL g (List.mem_cons_of_mem _ hg)) hM'
      (fun e he => hfiles e (List.mem_cons_of_mem _ he)) hafter.toStands
    refine ⟨fun e he => ?_, fun earlier e hs => ?_⟩
    · rcases List.mem_cons.1 he with rfl | he
      · exact hsucceeded
      · exact hall e he
    · rw [Project.history] at hs
      cases earlier with
      | nil =>
        obtain ⟨rfl, hnil⟩ := List.cons.inj hs
        cases hrest with
        | nil => exact hafter
        | cons => cases hnil
      | cons e₀ earlier =>
        have hrun := hlast earlier e (List.cons.inj hs).2
        rwa [List.append_assoc] at hrun

/-- Runs that have units but no schema change nothing. -/
theorem Project.history_eq_of_nil (hschema : C.schema = []) (hL : ∀ f ∈ L, f.units ≠ [])
    (hjs : List.Forall₂ (fun f j => C.Asks [f] (.partly [f.path]) j) L js) :
    ∀ e ∈ P.history t js, e.after = t := by
  induction hjs with
  | nil => exact fun e he => absurd he List.not_mem_nil
  | @cons f j L js hasks hrest ih =>
    have hunits : C.unitsOf [f] ≠ [] := by
      rw [Sources.unitsOf, hschema, List.flatMap_singleton]
      exact hL f (List.mem_cons_self ..)
    have hafter : (P.perform j t).after = t := hasks.after_eq hschema hunits
    intro e he
    rw [Project.history, hafter] at he
    rcases List.mem_cons.1 he with rfl | he
    · exact hafter
    · exact ih (fun f hf => hL f (List.mem_cons_of_mem _ hf)) e he

/-! ### What the last units tell -/

section Told
variable {vs : List SourceUnit} {t' : Tree} (h : Concluded P C t₀ us t) (h' : Concluded P C t₀ vs t')
  (hlast : ∀ p k, p.Logical → C.last? us p k = C.last? vs p k)
include h h' hlast

theorem Concluded.persisted_eq : P.cache.persisted t = P.cache.persisted t' := by
  refine h.laidOut.ext h'.laidOut h.full h'.full ?_ fun p k hp => ?_
  · rw [Cache.version_persisted, Cache.version_persisted]
  · rw [h.rows p k hp, h'.rows p k hp, hlast p k hp]

theorem Concluded.file?_eq (f : Artifact) (hp : p.Logical) :
    t.file? (P.layout.place f p k) = t'.file? (P.layout.place f p k) := by
  by_cases hentry : ∃ x ∈ P.entrypoint?, (P.layout.root / x).place = P.layout.place f p k
  · obtain ⟨x, hx, heq⟩ := hentry
    have hcurrent := (h.entrypoint x hx f p k hp heq).2 (h.present x hx f p k hp heq)
    have hcurrent' := (h'.entrypoint x hx f p k hp heq).2 (h'.present x hx f p k hp heq)
    rw [← heq, hcurrent, hcurrent', Project.entry, Project.entry, h.persisted_eq h' hlast]
  · have hapart : ∀ x ∈ P.entrypoint?, (P.layout.root / x).place ≠ P.layout.place f p k :=
      fun x hx heq => hentry ⟨x, hx, heq⟩
    rw [h.artifacts f p k hp hapart, h'.artifacts f p k hp hapart, hlast p k hp]

end Told

/-- To build file by file is to build the project, when there is a schema, or none or all of the files
have no unit. Every file has had a run at the end, the files may come in any order and more than once,
and a session may remember anything. With a schema all runs go through. -/
theorem partwise_eq_whole (hnone : P.manifest? t = none) (hL : ∀ f, f ∈ L ↔ f ∈ C.files)
    (hjs : List.Forall₂ (fun f j => C.Asks [f] (.partly [f.path]) j) L js)
    (hwhole : C.Asks C.files .project j)
    (hgiven : C.schema ≠ [] ∨ (∀ f ∈ C.files, f.units = []) ∨ ∀ f ∈ C.files, f.units ≠ [])
    (hfiles : ∀ e ∈ P.perform j t :: P.history t js, e.filesFailed = false)
    (hs : P.history t js = earlier ++ [e]) :
    (C.schema ≠ [] → ∀ e ∈ P.perform j t :: P.history t js, e.Succeeded) ∧
    e.after.read P.manifestPath = (P.perform j t).after.read P.manifestPath ∧
    ∀ f p k, p.Logical →
      e.after.file? (P.layout.place f p k) = (P.perform j t).after.file? (P.layout.place f p k) := by
  by_cases hmissing : C.schema = [] ∧ ∃ f ∈ C.files, f.units ≠ []
  · -- nothing can be built
    obtain ⟨hschema, f, hf, hne⟩ := hmissing
    have hunits : ∀ f ∈ C.files, f.units ≠ [] := by
      rcases hgiven with hschema' | hall | hall
      · exact absurd hschema hschema'
      · exact absurd (hall f hf) hne
      · exact hall
    have hafter : e.after = t :=
      P.history_eq_of_nil hschema (fun f hf => hunits f ((hL f).1 hf)) hjs e (by rw [hs]; simp)
    have hwhole' : (P.perform j t).after = t := by
      refine hwhole.after_eq hschema fun hnil => hne ?_
      rw [Sources.unitsOf, List.append_eq_nil_iff, List.flatMap_eq_nil_iff] at hnil
      exact hnil.2 f hf
    rw [hafter, hwhole']
    exact ⟨fun hschema' => absurd hschema hschema', rfl, fun _ _ _ _ => rfl⟩
  · have hempty : C.schema = [] → ∀ f ∈ C.files, f.units = [] := by
      intro hschema f hf
      by_contra hne
      exact hmissing ⟨hschema, f, hf, hne⟩
    have hall : ∀ f ∈ C.files, f ∈ C.files := fun _ hf => hf
    have hstart : Stands P C t ([].flatMap fun f => C.unitsOf [f]) t := stands_start hnone
    obtain ⟨hsucceeded, hlast⟩ := Stands.history (fun f hf => (hL f).1 hf) (by simp) hempty hjs
      (fun e he => hfiles e (List.mem_cons_of_mem _ he)) hstart
    have hpartwise : Concluded P C t (L.flatMap fun f => C.unitsOf [f]) e.after := hlast earlier e hs
    have hwholly : (P.perform j t).Succeeded := by
      refine hwhole.succeeded (fun hnil => ?_) (hfiles _ (List.mem_cons_self ..))
      rw [Sources.unitsOf, hnil, List.nil_append, List.flatMap_eq_nil_iff]
      exact hempty hnil
    have hwhole' : Concluded P C t (C.unitsOf C.files) (P.perform j t).after := by
      obtain ⟨-, outputs, t₁, t₂, t₃, t₄, hdone⟩ := Project.completed_of_succeeded hwholly
      exact Stands.run (e := P.perform j t) hwhole hstart (fun p k _ => .inl rfl) hdone
    have htold : ∀ p k, p.Logical → C.last? (L.flatMap fun f => C.unitsOf [f]) p k =
        C.last? (C.unitsOf C.files) p k := by
      intro p k hp
      rw [C.last?_flatMap (fun f hf => (hL f).1 hf) hp, if_pos]
      by_cases hfile : ∃ f ∈ C.files, f.path = p
      · obtain ⟨f, hf, heq⟩ := hfile
        exact .inl ⟨f, (hL f).2 hf, heq⟩
      · refine .inr ⟨?_, fun f hf heq => hfile ⟨f, hf, heq⟩⟩
        rintro rfl
        cases hjs
        cases earlier <;> cases hs
    obtain ⟨-, hperform, -⟩ := Project.event_of_history hs
    refine ⟨fun _ e' he' => ?_, ?_, fun f p k hp => hpartwise.file?_eq hwhole' htold f hp⟩
    · rcases List.mem_cons.1 he' with rfl | he'
      · exact hwholly
      · exact hsucceeded e' he'
    · rw [e.read_manifest hperform (hsucceeded e (by rw [hs]; simp)),
        Event.read_manifest (e := P.perform j t) rfl hwholly, hpartwise.persisted_eq hwhole' htold]

end Runs

namespace Sample

/-- A script with one literal. -/
def script : SourceFile where
  path := ⟨"a/q"⟩
  units := [literal]
  logical := logical.2
  within := by simp [literal]
  noSchema := by decide

/-- A document. -/
def sheet : SourceFile where
  path := ⟨"b"⟩
  units := [⟨⟨"b"⟩, "\x7bb\x7d", .document⟩]
  logical := ⟨⟨by decide +kernel, by decide +kernel, by decide +kernel⟩, by decide +kernel⟩
  within := by simp
  noSchema := by decide

/-- A script without any literal. -/
def blank : SourceFile where
  path := ⟨"b"⟩
  units := []
  logical := ⟨⟨by decide +kernel, by decide +kernel, by decide +kernel⟩, by decide +kernel⟩
  within := by simp
  noSchema := by simp

def sources : Sources where
  configHash := config
  plugins := []
  options := .null
  output := fun _ _ _ _ d => ⟨d.content, d.kind⟩
  schema := [schema]
  files := [script, sheet]
  isSchema := by decide
  logical := by simp [logical.1]
  distinct := by simp [script, sheet]
  apart := by simp [schema, script, sheet]

/-- Two scripts and no schema. -/
def schemaless : Sources := { sources with
  schema := []
  files := [script, blank]
  isSchema := by simp
  logical := by simp
  distinct := by simp [script, blank]
  apart := by simp }

/-- A job for some files of a project. -/
def job (C : Sources) (fs : List SourceFile) (scope : Scope) : Job where
  configHash := C.configHash
  plugins := C.plugins
  options := C.options
  memory := .empty "1"
  last := .zero
  backend := Request.byDocument C.output
  scope := scope
  units := C.unitsOf fs

theorem asks_job (C : Sources) (fs : List SourceFile) (scope : Scope) :
    C.Asks fs scope (job C fs scope) := ⟨rfl, rfl, rfl, rfl, rfl, rfl⟩

/-- The run for one file of the project. -/
def jobFor (f : SourceFile) : Job := job sources [f] (.partly [f.path])

/-- The run for the whole project. -/
def wholeRun : Event := project.perform (job sources sources.files .project) tree

/-- The script by itself, then the document, and then the script again. -/
def firstPart : Event := project.perform (jobFor script) tree

def secondPart : Event := project.perform (jobFor sheet) firstPart.after

def thirdPart : Event := project.perform (jobFor script) secondPart.after

/-- The second run when it has loaded what the first one saved. -/
def proceeding : (Except RunError (List Context × Summary) × Cache) × Tree :=
  project.proceed (jobFor sheet) { project.cache with manifest := firstPart.session.cache.manifest }
    firstPart.after

/-- The third run when it has loaded what the second one saved. -/
def ending : (Except RunError (List Context × Summary) × Cache) × Tree :=
  project.proceed (jobFor script) { project.cache with manifest := proceeding.1.2.manifest } proceeding.2

/-- The script without a schema. -/
def missing : Event := project.perform (job schemaless [script] (.partly [script.path])) tree

/-- The blank script without a schema. -/
def vacuous : Event := project.perform (job schemaless [blank] (.partly [blank.path])) tree

/-- All of the project without a schema. -/
def unbuilt : Event := project.perform (job schemaless schemaless.files .project) tree

set_option maxRecDepth 100000 in
theorem evaluated : wholeRun.result.isOk = true ∧ firstPart.result.isOk = true ∧
    (∀ e ∈ firstPart.session.cache.manifest.toList,
      e.2.2.isPresent project.cache.root firstPart.after = true) ∧
    proceeding.1.1.isOk = true ∧
    (∀ e ∈ proceeding.1.2.manifest.toList, e.2.2.isPresent project.cache.root proceeding.2 = true) ∧
    ending.1.1.isOk = true ∧
    missing.filesFailed = false ∧ vacuous.filesFailed = false ∧ unbuilt.filesFailed = false := by
  decide +kernel

theorem history_parts : project.history tree ([script, sheet, script].map jobFor) =
    [firstPart, secondPart] ++ [thirdPart] := rfl

theorem performed_part : ∀ e ∈ [firstPart, secondPart] ++ [thirdPart],
    e = project.perform e.job e.before :=
  (history_parts ▸ project.trace_history tree ([script, sheet, script].map jobFor)).performed

theorem secondPart_eq : secondPart.result.isOk = proceeding.1.1.isOk ∧
    secondPart.session.cache = proceeding.1.2 ∧ secondPart.after = proceeding.2 := by
  obtain ⟨-, hfirst, hpresent, -⟩ := evaluated
  rw [secondPart, proceeding]
  exact Project.perform_eq_proceed (firstPart.loaded_after (performed_part _ (by simp)) hfirst hpresent)

theorem succeeded_secondPart : secondPart.Succeeded := secondPart_eq.1.trans evaluated.2.2.2.1

theorem succeeded_thirdPart : thirdPart.Succeeded := by
  obtain ⟨-, -, -, -, hpresent, hending, -⟩ := evaluated
  obtain ⟨-, hcache, hafter⟩ := secondPart_eq
  rw [← hcache, ← hafter] at hpresent
  have hproceed := Project.perform_eq_proceed (j := jobFor script)
    (secondPart.loaded_after (performed_part _ (by simp)) succeeded_secondPart hpresent)
  rw [ending, ← hcache, ← hafter] at hending
  rw [Event.Succeeded, thirdPart]
  exact hproceed.1.trans hending

/-- All runs of the project go through. -/
theorem parts_succeed : ∀ e ∈ [wholeRun, firstPart, secondPart, thirdPart], e.Succeeded := by
  obtain ⟨hwhole, hfirst, -⟩ := evaluated
  have hwhole : wholeRun.Succeeded := hwhole
  have hfirst : firstPart.Succeeded := hfirst
  simp [hwhole, hfirst, succeeded_secondPart, succeeded_thirdPart]

theorem after_missing : missing.after = tree :=
  (asks_job schemaless [script] _).after_eq rfl (List.cons_ne_nil _ _)

theorem after_unbuilt : unbuilt.after = tree :=
  (asks_job schemaless schemaless.files _).after_eq rfl (List.cons_ne_nil _ _)

theorem history_schemaless : project.history tree
      [job schemaless [script] (.partly [script.path]), job schemaless [blank] (.partly [blank.path])] =
    [missing] ++ [vacuous] := by
  rw [Project.history, Project.history]
  show [missing, project.perform _ missing.after] = _
  rw [after_missing]
  rfl

theorem read_vacuous : vacuous.after.read project.manifestPath =
    .ok (project.cache.persisted vacuous.after).render.toUTF8 :=
  Event.read_manifest (e := vacuous) rfl
    ((asks_job schemaless [blank] _).succeeded (fun _ => rfl) evaluated.2.2.2.2.2.2.2.1)

end Sample

/-- A script and a document, built one after the other and the script once more, or as a project. -/
theorem partwise_eq_whole_repeated : Sample.project.manifest? Sample.tree = none ∧
    Sample.sources.schema ≠ [] ∧ Sample.sources.files = [Sample.script, Sample.sheet] ∧
    Sample.sources.Asks Sample.sources.files .project Sample.wholeRun.job ∧
    Sample.project.history Sample.tree ([Sample.script, Sample.sheet, Sample.script].map Sample.jobFor) =
      [Sample.firstPart, Sample.secondPart] ++ [Sample.thirdPart] ∧
    (∀ e ∈ [Sample.wholeRun, Sample.firstPart, Sample.secondPart, Sample.thirdPart], e.Succeeded) ∧
    Sample.thirdPart.after.read Sample.project.manifestPath =
      Sample.wholeRun.after.read Sample.project.manifestPath ∧
    ∀ f p k, p.Logical → Sample.thirdPart.after.file? (Sample.project.layout.place f p k) =
      Sample.wholeRun.after.file? (Sample.project.layout.place f p k) := by
  have hjs : List.Forall₂ (fun f j => Sample.sources.Asks [f] (.partly [f.path]) j)
      [Sample.script, Sample.sheet, Sample.script]
      ([Sample.script, Sample.sheet, Sample.script].map Sample.jobFor) :=
    .cons (Sample.asks_job _ _ _) (.cons (Sample.asks_job _ _ _) (.cons (Sample.asks_job _ _ _) .nil))
  have hwhole : Sample.sources.Asks Sample.sources.files .project
      (Sample.job Sample.sources Sample.sources.files .project) := Sample.asks_job _ _ _
  have hschema : Sample.sources.schema ≠ [] := List.cons_ne_nil _ _
  obtain ⟨-, hmanifest, hfile⟩ := partwise_eq_whole Sample.manifest?_tree
    (fun f => by simp [Sample.sources, or_comm]) hjs hwhole (.inl hschema)
    (fun e he => Event.filesFailed_of_succeeded (Sample.parts_succeed e he)) Sample.history_parts
  exact ⟨Sample.manifest?_tree, hschema, rfl, hwhole, Sample.history_parts, Sample.parts_succeed,
    hmanifest, hfile⟩

/-- Without a schema the run for the project fails and saves nothing, and so does the run for a script
with a literal, but the run for a script without units saves an empty manifest. -/
theorem partwise_ne_whole : Sample.project.manifest? Sample.tree = none ∧
    List.Forall₂ (fun f j => Sample.schemaless.Asks [f] (.partly [f.path]) j)
      Sample.schemaless.files
      [Sample.job Sample.schemaless [Sample.script] (.partly [Sample.script.path]),
        Sample.job Sample.schemaless [Sample.blank] (.partly [Sample.blank.path])] ∧
    Sample.schemaless.Asks Sample.schemaless.files .project Sample.unbuilt.job ∧
    Sample.project.history Sample.tree
      [Sample.job Sample.schemaless [Sample.script] (.partly [Sample.script.path]),
        Sample.job Sample.schemaless [Sample.blank] (.partly [Sample.blank.path])] =
      [Sample.missing] ++ [Sample.vacuous] ∧
    (∀ e ∈ Sample.unbuilt :: ([Sample.missing] ++ [Sample.vacuous]), e.filesFailed = false) ∧
    Sample.vacuous.after.read Sample.project.manifestPath ≠
      Sample.unbuilt.after.read Sample.project.manifestPath := by
  obtain ⟨-, -, -, -, -, -, hmissing, hvacuous, hunbuilt⟩ := Sample.evaluated
  refine ⟨Sample.manifest?_tree, .cons (Sample.asks_job _ _ _) (.cons (Sample.asks_job _ _ _) .nil),
    Sample.asks_job _ _ _, Sample.history_schemaless, ?_, ?_⟩
  · simp [hmissing, hvacuous, hunbuilt]
  · rw [Sample.read_vacuous, Sample.after_unbuilt]
    intro heq
    have hplace : Sample.project.manifestPath.place ≠ ["n"] := fun hn =>
      Sample.not_mem_used.1 (hn ▸ List.mem_cons_self ..)
    have hfile := (Tree.read_eq_ok.1 heq.symm).2
    rw [Sample.file?_tree hplace] at hfile
    cases hfile

end GqlArtifacts
