import GqlArtifacts.Proofs.Files.Rewrite
import GqlArtifacts.Proofs.History.Entrypoint

/-!
# Artifacts that are left behind

In a `Project.Decay` others delete artifacts between the runs. A load leaves out a row that has lost
one of its two artifacts, so no later run deletes the other one, whatever becomes of the source
(`Sample.orphan_left`).

That is all that can go wrong: what a run has written for a source at a hash stays `Tracked` as long
as every later run finds both artifacts, or none, or builds them anew (`Tracked.run`), and a run that
covers the source without building it at the hash then leaves none of the two (`no_orphan`).
-/

namespace GqlArtifacts

open Files

variable {P : Project} {t t' : Tree} {es earlier between : List Event} {e e₀ : Event} {p : Path}
  {h : ContentHash}

/-! ### Deletions between runs -/

namespace Project

/-- The manifest reads as before, all directories are there, and no artifact has appeared. -/
structure Thinned (P : Project) (t t' : Tree) : Prop where
  manifest : t'.read P.manifestPath = t.read P.manifestPath
  grows : t.Grows t'
  artifacts : ∀ f p h, p.Logical → t.file? (P.layout.place f p h) = none →
    t'.file? (P.layout.place f p h) = none

/-- Runs one after the other. In between others may delete artifacts. -/
def Decay (P : Project) : Tree → List Event → Prop
  | _, [] => True
  | t, e :: es => e = P.perform e.job e.before ∧ P.Thinned t e.before ∧ P.Decay e.after es

/-- An artifact does not lie where the entrypoint does. -/
def Elsewhere (P : Project) (f : Artifact) (p : Path) (h : ContentHash) : Prop :=
  ∀ x ∈ P.entrypoint?, (P.layout.root / x).place ≠ P.layout.place f p h

/-- The artifacts of a source at a hash are those of a row, or gone. -/
structure Tracked (P : Project) (t : Tree) (p : Path) (h : ContentHash) : Prop where
  reaches : ∀ f : Artifact, t.Reaches (f.full (P.layout.paths p h))
  liesAt : ∀ row, (P.cache.persisted t).lookup? p h = some row → row.LiesAt P.layout p h
  gone : (P.cache.persisted t).lookup? p h = none → ∀ f, P.Elsewhere f p h →
    t.file? (P.layout.place f p h) = none

theorem Thinned.rfl : P.Thinned t t := ⟨by rfl, .rfl, fun _ _ _ _ hnone => hnone⟩

/-- Deleting a file does no more, unless it is the manifest. -/
theorem thinned_drop {a : Place} {c : ByteArray} (ha : t.file? a = some c)
    (hman : a ≠ P.manifestPath.place) {d : ByteArray} (hd : t.read P.manifestPath = .ok d) :
    P.Thinned t (t.drop a) := by
  have hgrows := Tree.grows_drop ha
  refine ⟨?_, hgrows, fun f p h _ hnone => ?_⟩
  · rw [hd]
    obtain ⟨hreach, hfile⟩ := Tree.read_eq_ok.1 hd
    exact Tree.read_eq_ok.2 ⟨hreach.grows hgrows, by rw [Tree.file?_drop ha, if_neg hman.symm, hfile]⟩
  · rw [Tree.file?_drop ha]
    split
    · rfl
    · exact hnone

theorem Tracked.thinned (ht : P.Tracked t p h) (hp : p.Logical) (hthinned : P.Thinned t t') :
    P.Tracked t' p h := by
  have hpersisted : P.cache.persisted t' = P.cache.persisted t := by
    rw [Cache.persisted, Cache.persisted, manifest?_congr hthinned.manifest]
  refine ⟨fun f => (ht.reaches f).grows hthinned.grows, ?_, fun hnone f hf => ?_⟩
  · rw [hpersisted]
    exact ht.liesAt
  · rw [hpersisted] at hnone
    exact hthinned.artifacts f p h hp (ht.gone hnone f hf)

end Project

/-! ### One run -/

namespace Event

/-- The run has written the artifacts of the source at the hash. -/
def Wrote (e : Event) (p : Path) (h : ContentHash) : Prop :=
  e.Succeeded ∧ ∃ c ∈ e.contexts, c.path.same p = true ∧ c.hash = h ∧ c.skip = false

/-- The run finds either both artifacts of the source at the hash or none. -/
def FindsPair (P : Project) (e : Event) (p : Path) (h : ContentHash) : Prop :=
  (e.before.file? (P.layout.place .tsx p h)).isSome =
    (e.before.file? (P.layout.place .dts p h)).isSome

theorem findsPair_perform {j : Job} : (P.perform j t).FindsPair P p h ↔
    (t.file? (P.layout.place .tsx p h)).isSome = (t.file? (P.layout.place .dts p h)).isSome := Iff.rfl

theorem Wrote.built (hw : e.Wrote p h) : e.Built p h := by
  obtain ⟨hs, c, hc, hsame, hhash, -⟩ := hw
  exact ⟨hs, c, hc, hsame, hhash⟩

end Event

section Run
variable (hperform : e = P.perform e.job e.before) (hsucceeded : e.Succeeded)
  (hlogical : ∀ u ∈ e.job.units, u.path.Logical) (hp : p.Logical)
include hperform

theorem Event.grows : e.before.Grows e.after := by
  have hrun := P.run_perform e.job e.before
  rw [← hperform] at hrun
  have hgrows := grows_run (Session.run (.ofFunction e.job.backend) e.job.scope e.job.units
    (P.session e.job)) e.before
  rwa [hrun] at hgrows

include hlogical in
theorem Event.placed {c : Context} (hc : c ∈ e.contexts) : Session.Placed P.layout c := by
  rw [hperform] at hc
  obtain ⟨⟨u, hu, hpath⟩, hfaithful⟩ := Project.faithful_of_mem_contexts hc
  exact ⟨hpath ▸ hlogical u hu, hfaithful.paths⟩

include hsucceeded

/-- A row is persisted after a run when the run has built it, or has found and kept it. -/
theorem Event.isSome_persisted_iff :
    ((P.cache.persisted e.after).lookup? p h).isSome = true ↔
      (e.Built p h ∨ ((P.cache.loaded e.before).manifest.lookup? p h).isSome = true) ∧
        (e.Built p h ∨ ¬e.Covers p) := by
  obtain ⟨outputs, t₁, t₂, t₃, t₄, hdone⟩ := e.completed hperform hsucceeded
  have hbuilt : e.Built p h ↔ Session.built e.contexts p h = true := by
    rw [Session.built_iff, Event.Built]
    simp only [hsucceeded, true_and]
  have hcovers : e.Covers p ↔ (e.job.scope = .project ∨
      Session.covered e.job.scope e.contexts p = true) := by
    rw [Event.Covers, Session.covers_eq hdone.batch]
    simp only [hsucceeded, true_and]
  rw [(e.manifest?_after hperform hsucceeded).2, hdone.isSome_lookup?_iff, Session.known,
    Session.lookup?_recorded, Option.isSome_or, Option.isSome_map, Session.isSome_lastContext?,
    Bool.or_eq_true, P.loaded_session, Session.keeps_iff, hbuilt, hcovers]

include hlogical hp

theorem Event.liesAt (hrow : ¬e.Built p h → ∀ row,
      (P.cache.persisted e.before).lookup? p h = some row → row.LiesAt P.layout p h) {row : Row}
    (hl : (P.cache.persisted e.after).lookup? p h = some row) : row.LiesAt P.layout p h := by
  obtain ⟨outputs, t₁, t₂, t₃, t₄, hdone⟩ := e.completed hperform hsucceeded
  rw [(e.manifest?_after hperform hsucceeded).2, hdone.lookup?, Option.filter_eq_some_iff,
    P.loaded_session, Cache.lookup?_loaded] at hl
  cases hlast : Session.lastContext? e.contexts p h with
  | none =>
    rw [hlast, Option.map_none, Option.none_or] at hl
    refine hrow (fun hb => ?_) row (Option.filter_eq_some_iff.1 hl.1).1
    have hsome := Session.isSome_lastContext?.trans (Session.built_iff.2 hb.2)
    rw [hlast] at hsome
    cases hsome
  | some c =>
    rw [hlast, Option.map_some, Option.some_or, Option.some_inj] at hl
    obtain ⟨hmem, hsame, rfl⟩ := Session.lastContext?_eq_some hlast
    have hplaced := e.placed hperform hlogical hmem
    obtain rfl := hplaced.logical.eq_of_same hp hsame
    rw [← hl.1]
    exact ⟨by rw [c.row_tsx, hplaced.paths], by rw [c.row_dts, hplaced.paths]⟩

/-- A run writes no artifact that it does not build. -/
theorem Event.file?_of_not_built (hbuilt : ¬e.Built p h) {f : Artifact} (hf : P.Elsewhere f p h)
    (hnone : e.before.file? (P.layout.place f p h) = none) :
    e.after.file? (P.layout.place f p h) = none := by
  obtain ⟨outputs, t₁, t₂, t₃, t₄, hdone⟩ := e.completed hperform hsucceeded
  have hplaced : ∀ x ∈ outputs, Session.Placed P.layout x.1 := fun x hx =>
    e.placed hperform hlogical (hdone.mem_of_output hx).1
  have hlast : Session.lastOutput? outputs p h = none := by
    rw [Session.lastOutput?_eq_none]
    intro x hx hkey
    exact hbuilt ⟨hsucceeded, x.1, (hdone.mem_of_output hx).1, hkey⟩
  have ht₂ : t₂.file? (P.layout.place f p h) = none := by
    rw [hdone.wroteAll.file?_of_lastChar? (Layout.lastChar?_place_ne f).2,
      Session.lastWrite?_writes hplaced hp, hlast, Option.map_none, Option.none_or, hnone]
  refine (hdone.file?_place f hf).trans ?_
  rcases hdone.shrunk.cleared.file? (P.layout.place f p h) with heq | ⟨hgone, -⟩
  · exact heq.trans ht₂
  · exact hgone

omit hp hlogical in
/-- A run deletes the artifacts of a row that it finds and does not keep. -/
theorem Event.file?_of_dropped {row : Row} (hrow : row.LiesAt P.layout p h)
    (hfound : (P.cache.loaded e.before).manifest.lookup? p h = some row) (hbuilt : ¬e.Built p h)
    (hcovers : e.Covers p) {f : Artifact} (hf : P.Elsewhere f p h) :
    e.after.file? (P.layout.place f p h) = none := by
  obtain ⟨outputs, t₁, t₂, t₃, t₄, hdone⟩ := e.completed hperform hsucceeded
  have hnot : Session.built e.contexts p h = false := by
    rw [Bool.eq_false_iff, Ne, Session.built_iff]
    exact fun hb => hbuilt ⟨hsucceeded, hb⟩
  have hkeeps : Session.keeps e.job.scope e.contexts p h = false := by
    rw [Bool.eq_false_iff, Ne, Session.keeps_iff, hnot]
    rintro (hb | hb)
    · cases hb
    · rw [Event.Covers, Session.covers_eq hdone.batch] at hcovers
      exact hb hcovers.2
  have hknown : (Session.known (P.session e.job) e.before e.contexts).lookup? p h = some row := by
    have hlast : Session.lastContext? e.contexts p h = none := by
      rw [← Option.not_isSome_iff_eq_none, Session.isSome_lastContext?, hnot]
      simp
    rw [Session.known, Session.lookup?_recorded, hlast, Option.map_none, Option.none_or,
      P.loaded_session, hfound]
  obtain ⟨q, hsame, hq⟩ := Manifest.lookup?_eq_some_iff.1 hknown
  rw [Session.spelled_keeps _ _ _ hsame] at hkeeps
  have hpath : P.layout.root / row.artifact f = f.full (P.layout.paths p h) := hrow.full f
  have hreach : e.before.Reaches (f.full (P.layout.paths p h)) := by
    rw [Cache.lookup?_loaded, Option.filter_eq_some_iff] at hfound
    obtain ⟨htsx, hdts⟩ := (Bool.and_eq_true _ _).mp hfound.2
    rw [← hpath]
    cases f with
    | tsx => exact (Tree.isFile_iff.1 htsx).1
    | dts => exact (Tree.isFile_iff.1 hdts).1
  refine (hdone.file?_place f hf).trans (hdone.shrunk.cleared.cleared _ ⟨_, hq, hkeeps, ?_⟩ ?_)
  · exact Row.owns_iff.2 ⟨f, hpath.symm⟩
  · exact hreach.grows hdone.wroteAll.grows

/-- What a run writes is tracked from then on. -/
theorem Event.Wrote.tracked (hw : e.Wrote p h) : P.Tracked e.after p h := by
  obtain ⟨outputs, t₁, t₂, t₃, t₄, hdone⟩ := e.completed hperform hsucceeded
  obtain ⟨-, c, hc, hsame, rfl, hskip⟩ := id hw
  have hplaced := e.placed hperform hlogical hc
  obtain rfl := hplaced.logical.eq_of_same hp hsame
  have hrow := (e.isSome_persisted_iff hperform hsucceeded).2 ⟨.inl hw.built, .inl hw.built⟩
  refine ⟨fun f => ?_, fun row hl => ?_, fun hnone => ?_⟩
  · obtain ⟨o, hx⟩ := hdone.exists_output hc hskip
    rw [← hplaced.paths]
    refine (hdone.wroteAll.reaches _ (Session.mem_writes hx f)).grows ?_
    exact (hdone.shrunk.cleared.grows.trans hdone.entered.grows).trans hdone.saved.grows
  · exact e.liesAt hperform hsucceeded hlogical hp (fun hnot => absurd hw.built hnot) hl
  · rw [hnone] at hrow
    cases hrow

omit hperform hsucceeded hlogical hp in
/-- A row that is tracked and not found has lost an artifact. -/
theorem Project.Tracked.file?_of_lost (ht : P.Tracked e.before p h) (hpair : e.FindsPair P p h)
    (hlost : (P.cache.loaded e.before).manifest.lookup? p h = none) (f : Artifact)
    (hf : P.Elsewhere f p h) : e.before.file? (P.layout.place f p h) = none := by
  cases hl : (P.cache.persisted e.before).lookup? p h with
  | none => exact ht.gone hl f hf
  | some row =>
    have hisFile : ∀ f : Artifact, e.before.isFile (P.cache.root / row.artifact f) =
        (e.before.file? (P.layout.place f p h)).isSome := by
      intro f
      have hpath : P.cache.root / row.artifact f = f.full (P.layout.paths p h) :=
        (ht.liesAt row hl).full f
      rw [hpath, Bool.eq_iff_iff, Tree.isFile_iff, and_iff_right (ht.reaches f)]
      rfl
    have htsx : e.before.isFile (P.cache.root / row.tsx) = _ := hisFile .tsx
    have hdts : e.before.isFile (P.cache.root / row.dts) = _ := hisFile .dts
    rw [Event.FindsPair] at hpair
    rw [Cache.lookup?_loaded, hl, Option.filter_some, Row.isPresent, htsx, hdts, hpair,
      Bool.and_self, ite_eq_right_iff] at hlost
    rw [← Option.not_isSome_iff_eq_none]
    cases f with
    | tsx => exact fun hsome => absurd (hlost (hpair ▸ hsome)) (by simp)
    | dts => exact fun hsome => absurd (hlost hsome) (by simp)

/-- A run keeps track of what it finds complete, or not at all, or builds. -/
theorem Project.Tracked.run (ht : P.Tracked e.before p h)
    (hpair : e.Built p h ∨ e.FindsPair P p h) : P.Tracked e.after p h := by
  refine ⟨fun f => (ht.reaches f).grows (e.grows hperform), fun row =>
    e.liesAt hperform hsucceeded hlogical hp fun _ => ht.liesAt, fun hnone f hf => ?_⟩
  have hnot : ¬((e.Built p h ∨
      ((P.cache.loaded e.before).manifest.lookup? p h).isSome = true) ∧
        (e.Built p h ∨ ¬e.Covers p)) := by
    rw [← e.isSome_persisted_iff hperform hsucceeded, hnone]
    simp
  have hbuilt : ¬e.Built p h := fun hb => hnot ⟨.inl hb, .inl hb⟩
  cases hfound : (P.cache.loaded e.before).manifest.lookup? p h with
  | some row =>
    have hcovers : e.Covers p := by
      by_contra hcovers
      exact hnot ⟨.inr (by rw [hfound]; rfl), .inr hcovers⟩
    have hrow : row.LiesAt P.layout p h := by
      rw [Cache.lookup?_loaded] at hfound
      exact ht.liesAt row (Option.filter_eq_some_iff.1 hfound).1
    exact e.file?_of_dropped hperform hsucceeded hrow hfound hbuilt hcovers hf
  | none =>
    exact e.file?_of_not_built hperform hsucceeded hlogical hp hbuilt hf
      (ht.file?_of_lost (hpair.resolve_left hbuilt) hfound f hf)

end Run

/-! ### Traces -/

/-- From some run on nothing gets out of track that was in it. -/
theorem Project.Tracked.decay (hp : p.Logical) (ht : P.Tracked t p h)
    (hdecay : P.Decay t (es ++ [e])) (hsucceeded : ∀ e' ∈ es ++ [e], e'.Succeeded)
    (hlogical : ∀ e' ∈ es ++ [e], ∀ u ∈ e'.job.units, u.path.Logical)
    (hpairs : ∀ e' ∈ es ++ [e], e'.Built p h ∨ e'.FindsPair P p h) : P.Tracked e.after p h := by
  induction es generalizing t with
  | nil =>
    obtain ⟨hperform, hthinned, -⟩ := hdecay
    exact (ht.thinned hp hthinned).run hperform (hsucceeded e (by simp)) (hlogical e (by simp)) hp
      (hpairs e (by simp))
  | cons e₁ es ih =>
    obtain ⟨hperform, hthinned, hrest⟩ := hdecay
    rw [List.cons_append, List.forall_mem_cons] at hsucceeded hlogical hpairs
    exact ih ((ht.thinned hp hthinned).run hperform hsucceeded.1 hlogical.1 hp hpairs.1) hrest
      hsucceeded.2 hlogical.2 hpairs.2

theorem Project.Decay.cons_perform (j : Job) (hthinned : P.Thinned t t')
    (hrest : P.Decay (P.perform j t').after es) : P.Decay t (P.perform j t' :: es) :=
  ⟨rfl, hthinned, hrest⟩

theorem Project.Decay.of_append {later : List Event} (h : P.Decay t (es ++ e :: later)) :
    e = P.perform e.job e.before ∧ P.Decay e.after later := by
  induction es generalizing t with
  | nil => exact ⟨h.1, h.2.2⟩
  | cons e₁ es ih => exact ih h.2.2

/-- After a run that covers a source without building it at a hash, nothing is left of what an earlier
run has written for them, if each run in between has found both artifacts, or none, or built them. -/
theorem Project.no_orphan (hdecay : P.Decay t (earlier ++ e₀ :: (between ++ [e])))
    (hsucceeded : ∀ e' ∈ earlier ++ e₀ :: (between ++ [e]), e'.Succeeded)
    (hlogical : ∀ e' ∈ earlier ++ e₀ :: (between ++ [e]), ∀ u ∈ e'.job.units, u.path.Logical)
    (hp : p.Logical) (hwrote : e₀.Wrote p h)
    (hpairs : ∀ e' ∈ between ++ [e], e'.Built p h ∨ e'.FindsPair P p h)
    (hcovers : e.Covers p) (hbuilt : ¬e.Built p h) {f : Artifact} (hf : P.Elsewhere f p h) :
    e.after.file? (P.layout.place f p h) = none := by
  obtain ⟨hperform₀, hrest⟩ := hdecay.of_append
  rw [List.forall_mem_append, List.forall_mem_cons] at hsucceeded hlogical
  obtain ⟨-, hsucceeded₀, hsucceeded⟩ := hsucceeded
  obtain ⟨-, hlogical₀, hlogical⟩ := hlogical
  have htracked := (hwrote.tracked hperform₀ hsucceeded₀ hlogical₀ hp).decay hp hrest hsucceeded
    hlogical hpairs
  obtain ⟨hperform, -⟩ := hrest.of_append
  refine htracked.gone ?_ f hf
  rw [← Option.not_isSome_iff_eq_none,
    e.isSome_persisted_iff hperform (hsucceeded e (by simp))]
  exact fun hkept => hkept.2.elim hbuilt fun hnot => hnot hcovers

namespace Sample

def renamed : SourceUnit := { schema with content := "type R" }

/-- A run for another schema in the same file. -/
def changed : Job := { first with units := [renamed] }

def oldHash : ContentHash := schema.hash config identity

def tsx : Place := project.layout.place .tsx schema.path oldHash

def dts : Place := project.layout.place .dts schema.path oldHash

/-- What the first run has left, less the module of its schema. -/
def pared : Tree := firstEvent.after.drop tsx

def swept : Event := project.perform changed firstEvent.after

def overtaken : Event := project.perform changed pared

/-- What a load finds when nothing has been deleted. -/
def whole : Cache := { project.cache with manifest := firstEvent.session.cache.manifest }

/-- What it finds when the module is gone. -/
def salvaged : Cache :=
  let m := firstEvent.session.cache.manifest
  { project.cache with manifest := m.restrict (Cache.backed project.cache.root pared m) }

def sweeping : (Except RunError (List Context × Summary) × Cache) × Tree :=
  project.proceed changed whole firstEvent.after

def overtaking : (Except RunError (List Context × Summary) × Cache) × Tree :=
  project.proceed changed salvaged pared

set_option maxRecDepth 100000 in
theorem changed_computed : ((firstEvent.after.file? tsx).isSome = true ∧
      (firstEvent.after.file? dts).isSome = true ∧
      ∀ x ∈ firstEvent.session.cache.manifest.toList,
        x.2.2.isPresent project.cache.root firstEvent.after = true) ∧
    sweeping.1.1.isOk = true ∧
    overtaking.1.1.isOk = true ∧ overtaking.2.file? dts = firstEvent.after.file? dts := by
  decide +kernel

set_option maxRecDepth 100000 in
theorem renamed_hash : ∃ identity, schemaIdentity? config [renamed] = some identity ∧
    renamed.hash config identity ≠ oldHash := by
  refine ⟨.combine [.chained config renamed.stripped], ?_⟩
  decide +kernel

set_option maxRecDepth 100000 in
theorem apart_artifacts : tsx ≠ project.manifestPath.place ∧
    ∀ f, project.Elsewhere f schema.path oldHash := by
  refine ⟨by decide +kernel, fun f x hx => ?_⟩
  obtain rfl : x = ⟨"g.d.ts"⟩ := (Option.some.inj hx).symm
  cases f <;> decide +kernel

theorem perform_firstEvent : firstEvent = project.perform firstEvent.job firstEvent.before := rfl

theorem thinned_pared : project.Thinned firstEvent.after pared := by
  obtain ⟨c, hc⟩ := Option.isSome_iff_exists.1 changed_computed.1.1
  exact Project.thinned_drop hc apart_artifacts.1
    (firstEvent.read_manifest perform_firstEvent succeeded_firstEvent)

theorem loaded_pared : project.cache.loaded pared = salvaged := by
  have hpersisted : project.cache.persisted pared = firstEvent.session.cache.manifest := by
    rw [← (firstEvent.manifest?_after perform_firstEvent succeeded_firstEvent).2, Cache.persisted,
      Cache.persisted, manifest?_congr thinned_pared.manifest]
  rw [Cache.loaded, hpersisted, salvaged]

theorem wrote_firstEvent : firstEvent.Wrote schema.path oldHash := by
  obtain ⟨c, hcontexts, hkey⟩ := List.map_eq_singleton_iff.1 keys_firstEvent
  obtain ⟨hpath, hhash⟩ := Prod.mk.inj hkey
  have hc : c ∈ firstEvent.contexts := by simp [hcontexts]
  refine ⟨succeeded_firstEvent, c, hc, hpath ▸ Path.same_self _, hhash, ?_⟩
  rw [Bool.eq_false_iff]
  intro hskip
  exact kept_nil (((matches_start manifest?_tree).skip_iff hc (hpath ▸ logical.1)).1 hskip)

theorem logical_units : (∀ u ∈ first.units, u.path.Logical) ∧ ∀ u ∈ changed.units, u.path.Logical := by
  refine ⟨fun u hu => ?_, fun u hu => ?_⟩ <;> obtain rfl := List.mem_singleton.1 hu
  · exact logical.1
  · exact logical.1

/-- No run for the other schema builds the old hash. -/
theorem not_built_changed (t : Tree) : ¬(project.perform changed t).Built schema.path oldHash := by
  rintro ⟨-, c, hc, -, hhash⟩
  obtain ⟨identity, hid, hne⟩ := renamed_hash
  have hkeys := (Project.keys_perform (P := project) (j := changed) (t := t) hid).2
  have hmem : (c.path, c.hash) ∈ [renamed].map fun u => (u.path, u.hash config identity) :=
    hkeys ▸ List.mem_map_of_mem hc
  obtain ⟨-, hold⟩ := Prod.mk.inj (List.mem_singleton.1 hmem)
  exact hne (hold.symm.trans hhash)

theorem overtaken_eq : overtaken.result.isOk = overtaking.1.1.isOk ∧
    overtaken.session.cache = overtaking.1.2 ∧ overtaken.after = overtaking.2 := by
  rw [overtaken, overtaking]
  exact Project.perform_eq_proceed loaded_pared

theorem succeeded_swept : swept.Succeeded := by
  have hloaded : project.cache.loaded firstEvent.after = whole := by
    rw [firstEvent.loaded_after perform_firstEvent succeeded_firstEvent changed_computed.1.2.2, whole]
  have hok := changed_computed.2.1
  rw [sweeping] at hok
  exact (Project.perform_eq_proceed (j := changed) hloaded).1.trans hok

end Sample

/-- When the schema of the first run changes and nobody has deleted anything, the artifacts for the old
one go. -/
theorem Sample.no_orphan_swept :
    Sample.project.Decay Sample.tree [Sample.firstEvent, Sample.swept] ∧
    Sample.firstEvent.Wrote Sample.schema.path Sample.oldHash ∧
    Sample.swept.Covers Sample.schema.path ∧
    ¬Sample.swept.Built Sample.schema.path Sample.oldHash ∧
    (Sample.firstEvent.after.file? Sample.dts).isSome = true ∧
    Sample.swept.after.file? Sample.tsx = none ∧ Sample.swept.after.file? Sample.dts = none := by
  obtain ⟨⟨htsx, hdts, -⟩, -⟩ := Sample.changed_computed
  have hdecay : Sample.project.Decay Sample.tree
      ([] ++ Sample.firstEvent :: ([] ++ [Sample.swept])) :=
    .cons_perform Sample.first .rfl (.cons_perform Sample.changed .rfl trivial)
  have hcovers : Sample.swept.Covers Sample.schema.path := ⟨Sample.succeeded_swept, .inl rfl⟩
  have hbuilt := Sample.not_built_changed Sample.firstEvent.after
  have hpair : Sample.swept.FindsPair Sample.project Sample.schema.path Sample.oldHash :=
    Event.findsPair_perform.2 (htsx.trans hdts.symm)
  have hgone := fun f => Project.no_orphan hdecay ?_ ?_ Sample.logical.1 Sample.wrote_firstEvent
    ?_ hcovers hbuilt (Sample.apart_artifacts.2 f)
  · exact ⟨hdecay, Sample.wrote_firstEvent, hcovers, hbuilt, hdts, hgone .tsx, hgone .dts⟩
  · simp [Sample.succeeded_firstEvent, Sample.succeeded_swept]
  · simp only [List.nil_append, List.forall_mem_cons, List.not_mem_nil]
    exact ⟨Sample.logical_units.1, Sample.logical_units.2, fun _ hnot => hnot.elim⟩
  · exact fun e' he' => List.mem_singleton.1 he' ▸ .inr hpair

/-- The first run writes two artifacts, and the module is deleted. When the schema then changes, the
declaration for the old one stays. -/
theorem Sample.orphan_left :
    Sample.project.Decay Sample.tree [Sample.firstEvent, Sample.overtaken] ∧
    Sample.overtaken.before = Sample.firstEvent.after.drop Sample.tsx ∧
    Sample.firstEvent.Wrote Sample.schema.path Sample.oldHash ∧
    Sample.overtaken.Covers Sample.schema.path ∧
    ¬Sample.overtaken.Built Sample.schema.path Sample.oldHash ∧
    (Sample.firstEvent.after.file? Sample.dts).isSome = true ∧
    Sample.overtaken.after.file? Sample.dts = Sample.firstEvent.after.file? Sample.dts := by
  obtain ⟨⟨-, hsome, -⟩, -, hok, hfile⟩ := Sample.changed_computed
  have hsucceeded : Sample.overtaken.Succeeded := Sample.overtaken_eq.1.trans hok
  refine ⟨⟨rfl, .rfl, rfl, Sample.thinned_pared, trivial⟩, rfl, Sample.wrote_firstEvent,
    ⟨hsucceeded, .inl rfl⟩, Sample.not_built_changed _, hsome, ?_⟩
  rw [Sample.overtaken_eq.2.2]
  exact hfile

end GqlArtifacts
