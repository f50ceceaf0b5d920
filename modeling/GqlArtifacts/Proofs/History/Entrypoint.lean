import GqlArtifacts.Proofs.History.Invariant
import GqlArtifacts.Proofs.Session.Again

/-!
# The entrypoint and the rows it is made from

A run writes the entrypoint anew when it counts a change or finds no entrypoint. So the entrypoint
says what the persisted rows say after each run of a `Project.Trace`, whatever others do to other
files in between, as long as the runs that count nothing change no row (`entrypoint_follows`). There
are two ways in which such a run does change rows, and `Event.Unaltered` rules out just these: a row
whose artifacts are gone is left out by the load, and a call that is spelled in another way gets its
new text recorded though its hash is the old one. The second is enough for the entrypoint to fall
behind (`entrypoint_stale`).
-/

namespace GqlArtifacts

open Files

variable {P : Project} {t t' : Tree} {earlier later : List Event} {e : Event}

/-! ### Runs with others at work in between -/

namespace Project

/-- The manifest and the entrypoint read as before. -/
structure Untouched (P : Project) (t t' : Tree) : Prop where
  manifest : t'.read P.manifestPath = t.read P.manifestPath
  entrypoint : ∀ x ∈ P.entrypoint?, t'.read (P.layout.root / x) = t.read (P.layout.root / x)

/-- Runs one after the other. In between others may do what they want to other files than the manifest
and the entrypoint. -/
def Trace (P : Project) : Tree → List Event → Prop
  | _, [] => True
  | t, e :: es => e = P.perform e.job e.before ∧ P.Untouched t e.before ∧ P.Trace e.after es

/-- The entrypoint, if it is there, says what the persisted rows say. So it is for a project that has
no entrypoint yet. -/
def Current (P : Project) (t : Tree) : Prop :=
  ∀ x ∈ P.entrypoint?, t.isFile (P.layout.root / x) = true →
    t.read (P.layout.root / x) = .ok (Entrypoint.render (P.cache.persisted t) x).toUTF8

/-- The entrypoint is not a file that a save touches. -/
def Apart (P : Project) : Prop :=
  ∀ x ∈ P.entrypoint?, (P.layout.root / x).place ≠ P.manifestPath.place ∧
    (P.layout.root / x).place ≠ (temporaryPath P.manifestPath).place

theorem Current.untouched (h : P.Current t) (hu : P.Untouched t t') : P.Current t' := by
  intro x hx hfile
  have hread := hu.entrypoint x hx
  have hpersisted : P.cache.persisted t' = P.cache.persisted t := by
    rw [Cache.persisted, Cache.persisted, manifest?_congr hu.manifest]
  rw [hread, hpersisted]
  refine h x hx ?_
  rw [Tree.isFile_iff_read] at hfile ⊢
  rwa [hread] at hfile

end Project

/-- A history is a trace in which nobody else does anything. -/
theorem Project.trace_history (P : Project) (t : Tree) (js : List Job) :
    P.Trace t (P.history t js) := by
  induction js generalizing t with
  | nil => trivial
  | cons j js ih => exact ⟨rfl, ⟨rfl, fun _ _ => rfl⟩, ih _⟩

theorem Project.Trace.performed {es : List Event} (h : P.Trace t es) :
    ∀ e ∈ es, e = P.perform e.job e.before := by
  induction es generalizing t with
  | nil => simp
  | cons e₀ es ih =>
    intro e he
    rcases List.mem_cons.1 he with rfl | he
    · exact h.1
    · exact ih h.2.2 e he

/-! ### One run -/

/-- What a successful run counts. -/
def Event.changes (e : Event) : Nat :=
  e.session.summary.generated + e.session.summary.pruned + e.session.summary.removedSources

theorem Event.changes_eq_zero : e.changes = 0 ↔ e.session.summary.generated = 0 ∧
    e.session.summary.pruned = 0 ∧ e.session.summary.removedSources = 0 := by
  simp only [changes, Nat.add_eq_zero_iff, and_assoc]

/-- All persisted rows have their artifacts, and the rows of the run are as they are persisted. -/
structure Event.Unaltered (P : Project) (e : Event) : Prop where
  present : ∀ x ∈ (P.cache.persisted e.before).toList,
    x.2.2.isPresent P.cache.root e.before = true
  rows : ∀ p h c, Session.lastContext? e.contexts p h = some c →
    (P.cache.persisted e.before).lookup? p h = some c.row

theorem render_congr {m n : Manifest} (h : m.toList = n.toList) (x : Path) :
    Entrypoint.render m x = Entrypoint.render n x := by
  rw [Entrypoint.render, Entrypoint.render, Entrypoint.overloads, Entrypoint.overloads, h]

section Run
variable (hperform : e = P.perform e.job e.before) (hsucceeded : e.Succeeded)
include hperform hsucceeded

/-- While the artifacts are there, the next run loads what this one has in memory. -/
theorem Event.loaded_after (hpresent : ∀ x ∈ e.session.cache.manifest.toList,
    x.2.2.isPresent P.cache.root e.after = true) :
    P.cache.loaded e.after = { P.cache with manifest := e.session.cache.manifest } := by
  obtain ⟨outputs, t₁, t₂, t₃, t₄, hdone⟩ := e.completed hperform hsucceeded
  have hfull : e.session.cache.manifest.Full := by
    rw [hdone.shrunk.manifest]
    exact Manifest.full_restrict
  rw [Cache.loaded, (e.manifest?_after hperform hsucceeded).2]
  rw [Manifest.restrict_of_forall hfull fun x hx => ?_]
  rw [Cache.backed, Manifest.lookup?_of_mem hx, Option.any_some]
  exact hpresent x hx

/-- A run that counts nothing and alters nothing saves the rows that were persisted. -/
theorem Event.Unaltered.toList_eq (hu : e.Unaltered P) (hcounts : e.changes = 0) :
    e.session.cache.manifest.toList = (P.cache.persisted e.before).toList := by
  obtain ⟨outputs, t₁, t₂, t₃, t₄, hdone⟩ := e.completed hperform hsucceeded
  obtain ⟨-, hpruned, hremoved⟩ := Event.changes_eq_zero.1 hcounts
  have hloaded := P.loaded_session e.job e.before
  have hrows : ∀ p h c, Session.lastContext? e.contexts p h = some c →
      ((P.session e.job).cache.loaded e.before).manifest.lookup? p h = some c.row := by
    intro p h c hc
    have hrow := hu.rows p h c hc
    obtain ⟨q, -, hq⟩ := Manifest.lookup?_eq_some_iff.1 hrow
    have hpresent : c.row.isPresent P.cache.root e.before = true := hu.present (q, h, c.row) hq
    rw [hloaded, Cache.lookup?_loaded, hrow, Option.filter_some, if_pos hpresent]
  rw [hdone.manifest_eq (fun p h => hdone.keeps_of_counts hpruned hremoved) hrows, hloaded,
    Cache.loaded, Manifest.toList_restrict, List.filter_eq_self]
  intro x hx
  rw [Cache.backed, Manifest.lookup?_of_mem hx, Option.any_some]
  exact hu.present x hx

theorem Project.Current.follows (hcurrent : P.Current e.before) (hapart : P.Apart)
    (hquiet : e.changes = 0 → e.Unaltered P) {x : Path} (hx : x ∈ P.entrypoint?) :
    e.after.read (P.layout.root / x) =
      .ok (Entrypoint.render e.session.cache.manifest x).toUTF8 := by
  obtain ⟨outputs, t₁, t₂, t₃, t₄, hdone⟩ := e.completed hperform hsucceeded
  obtain ⟨hmanifest, htemporary⟩ := hapart x hx
  refine hdone.saved.read_of_ne hmanifest htemporary ?_
  have hentered := hdone.entered
  rw [show (P.session e.job).settings.entrypoint? = some x from hx, Session.entered_some] at hentered
  rcases hentered with ⟨heq, hfile, hcounts⟩ | ⟨hwrote, -⟩
  · -- the entrypoint was left alone: it is what it was before the run
    obtain ⟨hgenerated, hpruned, hremoved⟩ := Event.changes_eq_zero.1 hcounts
    have hout : outputs = [] := by
      rw [hdone.summary] at hgenerated
      exact List.eq_nil_of_length_eq_zero hgenerated
    have halike := hdone.alike hout fun p h => hdone.keeps_of_counts hpruned hremoved
    rw [heq, halike.read_eq_ok_iff,
      render_congr ((hquiet hcounts).toList_eq hperform hsucceeded hcounts)]
    refine hcurrent x hx ?_
    rw [← halike.isFile_eq]
    exact hfile
  · exact hwrote.read

end Run

/-! ### Quiet runs -/

/-- A run with nothing to do succeeds, counts nothing and alters nothing. -/
theorem Project.quiet_of_idle {j : Job} {contexts : List Context}
    (hb : (P.session j).contexts? j.units t = some contexts)
    (h : (P.session j).Idle j.scope contexts t) :
    (P.perform j t).Succeeded ∧ (P.perform j t).changes = 0 ∧ (P.perform j t).Unaltered P := by
  obtain ⟨t', -, hidle⟩ := h.run_eq hb
  have hrun := (P.run_perform j t).symm.trans (hidle _)
  obtain ⟨hresult, hsession⟩ := Prod.mk.inj (Prod.mk.inj hrun).1
  have hcontexts : (P.perform j t).contexts = contexts := by
    rw [Project.contexts_perform, hb]
    rfl
  have hpersisted := P.persisted_session j t
  refine ⟨by rw [Event.Succeeded, hresult]; rfl, by simp [Event.changes, hsession], ⟨?_, ?_⟩⟩
  · exact hpersisted ▸ h.present
  · rw [hcontexts]
    exact hpersisted ▸ h.rows

/-- After a run for the whole project that finds no manifest, the same run again is quiet. -/
theorem Project.quiet_again {j : Job} (hapart : P.Apart) (hscope : j.scope = .project)
    (hnone : P.manifest? t = none) (hsucceeded : (P.perform j t).Succeeded) :
    (P.perform j (P.perform j t).after).Succeeded ∧ (P.perform j (P.perform j t).after).changes = 0 ∧
      (P.perform j (P.perform j t).after).Unaltered P := by
  obtain ⟨-, outputs, t₁, t₂, t₃, t₄, hdone⟩ := Project.completed_of_succeeded hsucceeded
  have hagain := Context.batch?_among hdone.batch
    ((P.session j).cache.loaded (P.perform j t).after).manifest
  refine Project.quiet_of_idle hagain ?_
  rw [hscope] at hdone ⊢
  have huntangled : (P.session j).Untangled t (P.perform j t).contexts :=
    Session.untangled_of_manifest? rfl hnone fun x hx => (hapart x hx).2
  have hplace := hdone.inPlace (Backend.leavesFiles_ofFunction _).keepsFiles huntangled
  refine hdone.idle rfl hplace fun p k _ => ?_
  rw [Session.lastContext?_among, Option.map_map]
  rfl

/-! ### Evaluation -/

/-- What a run does once the cache is loaded. -/
def Project.proceed (P : Project) (j : Job) (c : Cache) (t : Tree) :
    (Except RunError (List Context × Summary) × Cache) × Tree :=
  match Context.batch? P.layout c.manifest j.configHash j.units with
  | none => ((.error .missingSchema, c), t)
  | some contexts => CacheM.exec (do
      let outputs ← Session.generate (.ofFunction j.backend) (P.session j).settings
        (Session.schemaText j.units) (Session.staleGroups contexts).toList
      Session.publish (P.session j).settings j.scope contexts outputs) c t

theorem Project.perform_eq_proceed {j : Job} {c : Cache} (hc : P.cache.loaded t = c) :
    (P.perform j t).result.isOk = (P.proceed j c t).1.1.isOk ∧
    (P.perform j t).session.cache = (P.proceed j c t).1.2 ∧
    (P.perform j t).after = (P.proceed j c t).2 := by
  have hrun := P.run_perform j t
  have hexec : CacheM.exec (Session.runCache (.ofFunction j.backend) (P.session j).settings j.scope
      j.units) (P.session j).cache t = P.proceed j c t := by
    rw [Session.exec_runCache, Session.contexts?, P.loaded_session, hc]
    rfl
  rw [Session.run_eq, hexec] at hrun
  generalize P.proceed j c t = x at hrun ⊢
  obtain ⟨⟨r, cache⟩, t'⟩ := x
  cases r with
  | error f =>
    obtain ⟨hresult, hafter⟩ := Prod.mk.inj hrun
    obtain ⟨hresult, hsession⟩ := Prod.mk.inj hresult
    rw [← hresult, ← hsession, ← hafter]
    exact ⟨rfl, rfl, rfl⟩
  | ok x =>
    obtain ⟨hresult, hafter⟩ := Prod.mk.inj hrun
    obtain ⟨hresult, hsession⟩ := Prod.mk.inj hresult
    rw [← hresult, ← hsession, ← hafter]
    exact ⟨rfl, rfl, rfl⟩

/-! ### Traces -/

/-- After each successful run the entrypoint is rendered from the rows that the run has saved, when the
runs so far that count nothing alter nothing. -/
theorem Project.entrypoint_follows (hapart : P.Apart) (hstart : P.Current t)
    (htrace : P.Trace t (earlier ++ e :: later))
    (hfiles : ∀ e' ∈ earlier ++ [e], e'.filesFailed = false)
    (hquiet : ∀ e' ∈ earlier ++ [e], e'.Succeeded → e'.changes = 0 → e'.Unaltered P)
    (hsucceeded : e.Succeeded) : P.manifest? e.after = some e.session.cache.manifest ∧
    ∀ x ∈ P.entrypoint?, e.after.read (P.layout.root / x) =
      .ok (Entrypoint.render e.session.cache.manifest x).toUTF8 := by
  induction earlier generalizing t with
  | nil =>
    obtain ⟨hperform, huntouched, -⟩ := htrace
    refine ⟨(e.manifest?_after hperform hsucceeded).1, fun x hx => ?_⟩
    exact (hstart.untouched huntouched).follows hperform hsucceeded hapart
      (hquiet e (by simp) hsucceeded) hx
  | cons e₀ earlier ih =>
    obtain ⟨hperform, huntouched, hrest⟩ := htrace
    have hcurrent := hstart.untouched huntouched
    refine ih ?_ hrest (fun e' he' => hfiles e' (List.mem_cons_of_mem _ he'))
      fun e' he' => hquiet e' (List.mem_cons_of_mem _ he')
    by_cases hs : e₀.Succeeded
    · intro x hx _
      rw [(e₀.manifest?_after hperform hs).2]
      exact hcurrent.follows hperform hs hapart (hquiet e₀ (by simp) hs) hx
    · have hafter : e₀.after = e₀.before := by
        have hfile := hfiles e₀ (by simp)
        rw [hperform] at hs hfile
        have hsame := after_of_failed hs hfile
        rwa [← hperform] at hsame
      rw [hafter]
      exact hcurrent

namespace Sample

/-- A run for the schema and one literal. -/
def literally (text : String) : Job :=
  { first with units := [schema, ⟨⟨"a/q"⟩, text, .literal⟩] }

def written : Event := project.perform (literally "{a}") tree

/-- The same literal with a space in it, which does not count. -/
def respaced : Event := project.perform (literally "{ a}") written.after

def entrypoint : Path := project.layout.root / ⟨"g.d.ts"⟩

/-- What the first run has in memory. -/
def remembered : Cache := { project.cache with manifest := written.session.cache.manifest }

/-- The second run when it has loaded what the first one saved. -/
def resumed : (Except RunError (List Context × Summary) × Cache) × Tree :=
  project.proceed (literally "{ a}") remembered written.after

theorem apart : project.Apart := by
  intro x hx
  obtain rfl : x = ⟨"g.d.ts"⟩ := (Option.some.inj hx).symm
  decide +kernel

theorem current : project.Current tree := by
  intro x hx hfile
  obtain rfl : x = ⟨"g.d.ts"⟩ := (Option.some.inj hx).symm
  exact absurd hfile (by decide +kernel)

set_option maxRecDepth 100000 in
theorem computed : written.result.isOk = true ∧ written.changes ≠ 0 ∧
    (∀ e ∈ written.session.cache.manifest.toList,
      e.2.2.isPresent project.cache.root written.after = true) ∧
    resumed.1.1.isOk = true ∧ resumed.2.read entrypoint ≠
      .ok (Entrypoint.render resumed.1.2.manifest ⟨"g.d.ts"⟩).toUTF8 := by
  decide +kernel

/-- The first run once more. -/
def repeated : Event := project.perform (literally "{a}") written.after

theorem trace : project.Trace tree [written, respaced] :=
  project.trace_history tree [literally "{a}", literally "{ a}"]

theorem perform_written : written = project.perform written.job written.before :=
  trace.performed _ (List.mem_cons_self ..)

theorem perform_respaced : respaced = project.perform respaced.job respaced.before :=
  trace.performed _ (List.mem_cons_of_mem _ (List.mem_cons_self ..))

theorem loaded_written : project.cache.loaded written.after = remembered := by
  rw [written.loaded_after perform_written computed.1 computed.2.2.1, remembered]

theorem respaced_eq : respaced.result.isOk = resumed.1.1.isOk ∧
    respaced.session.cache = resumed.1.2 ∧ respaced.after = resumed.2 := by
  rw [respaced, resumed]
  exact Project.perform_eq_proceed loaded_written

end Sample

/-- The first run writes the entrypoint, and the same run again leaves it alone; it follows both times. -/
theorem Sample.entrypoint_follows_written : Sample.project.Apart ∧
    Sample.project.Current Sample.tree ∧
    Sample.project.Trace Sample.tree [Sample.written, Sample.repeated] ∧
    Sample.written.Succeeded ∧ Sample.written.changes ≠ 0 ∧
    Sample.repeated.Succeeded ∧ Sample.repeated.changes = 0 ∧ Sample.repeated.Unaltered Sample.project ∧
    Sample.project.manifest? Sample.repeated.after = some Sample.repeated.session.cache.manifest ∧
    ∀ x ∈ Sample.project.entrypoint?, Sample.repeated.after.read (Sample.project.layout.root / x) =
      .ok (Entrypoint.render Sample.repeated.session.cache.manifest x).toUTF8 := by
  obtain ⟨hsucceeded, hchanges, -⟩ := Sample.computed
  obtain ⟨hrepeated, hquiet, hunaltered⟩ : Sample.repeated.Succeeded ∧ Sample.repeated.changes = 0 ∧
      Sample.repeated.Unaltered Sample.project :=
    Project.quiet_again Sample.apart rfl Sample.manifest?_tree hsucceeded
  have htrace : Sample.project.Trace Sample.tree ([Sample.written] ++ Sample.repeated :: []) :=
    Sample.project.trace_history Sample.tree [Sample.literally "{a}", Sample.literally "{a}"]
  refine ⟨Sample.apart, Sample.current, htrace, hsucceeded, hchanges, hrepeated, hquiet, hunaltered, ?_⟩
  refine Project.entrypoint_follows Sample.apart Sample.current htrace (fun e he => ?_)
    (fun e he _ hnone => ?_) hrepeated
  · rcases List.mem_pair.1 he with rfl | rfl
    · exact Event.filesFailed_of_succeeded hsucceeded
    · exact Event.filesFailed_of_succeeded hrepeated
  · rcases List.mem_pair.1 he with rfl | rfl
    · exact absurd hnone hchanges
    · exact hunaltered

/-- The entrypoint does not follow when a call is spelled in another way: its row gets the new text,
and the entrypoint keeps the old one. -/
theorem Sample.entrypoint_stale : Sample.project.Apart ∧ Sample.project.Current Sample.tree ∧
    Sample.project.Trace Sample.tree [Sample.written, Sample.respaced] ∧
    Sample.written.Succeeded ∧ Sample.respaced.Succeeded ∧
    Sample.project.manifest? Sample.respaced.after = some Sample.respaced.session.cache.manifest ∧
    Sample.respaced.after.read Sample.entrypoint ≠
      .ok (Entrypoint.render Sample.respaced.session.cache.manifest ⟨"g.d.ts"⟩).toUTF8 := by
  obtain ⟨hresult, hcache, hafter⟩ := Sample.respaced_eq
  obtain ⟨hwritten, -, -, hresumed, hread⟩ := Sample.computed
  have hsucceeded : Sample.respaced.Succeeded := hresult.trans hresumed
  refine ⟨Sample.apart, Sample.current, Sample.trace, hwritten, hsucceeded,
    (Sample.respaced.manifest?_after Sample.perform_respaced hsucceeded).1, ?_⟩
  rw [hcache, hafter]
  exact hread

end GqlArtifacts
