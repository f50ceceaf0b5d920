import GqlArtifacts.Proofs.History.Invariant
import GqlArtifacts.Proofs.Session.Stop

/-!
# Going on after a run that was stopped

A run that is stopped has touched none of the guarded files (`Settled.spared_of_stopped`), and they are
all that the next run builds on: it finds the same manifest and the same rows for its contexts, so it
asks for what the stopped run would have asked for and writes it anew (`Poised.contexts?_of_spared`).
This is so however often a run is stopped (`Poised.spared_of_interrupted`). In the end there are the
manifest and the artifacts that a run leaves which nobody stops (`recovers`).
-/

namespace GqlArtifacts

open Files

variable {P : Project} {j : Job} {t t₀ t₁ t₂ : Tree} {js : List Job} {es earlier later later' : List Event}
  {e : Event} {p : Path} {k : ContentHash} {contexts : List Context} {memory : Manifest}
  {last : Summary}

/-- The same job in another session, whatever that session has in memory. -/
def Job.again (j : Job) (memory : Manifest) (last : Summary) : Job := { j with memory, last }

/-- What is left when runs of a job are stopped one after the other, each in a process of its own. -/
inductive Project.Interrupted (P : Project) (j : Job) (t : Tree) : Tree → Prop
  | start : P.Interrupted j t t
  | stop {t₁ t₂ : Tree} {memory : Manifest} {last : Summary} : P.Interrupted j t t₁ →
      (Session.run (.ofFunction j.backend) j.scope j.units
        (P.session (j.again memory last))).Stopped t₁ t₂ → P.Interrupted j t t₂

/-- The manifest and the artifacts of its rows are there in both trees, and are the same. -/
structure Project.BuiltAlike (P : Project) (t t' : Tree) : Prop where
  manifest : ∃ content, t.read P.manifestPath = .ok content ∧ t'.read P.manifestPath = .ok content
  artifacts : ∀ m, P.manifest? t = some m → ∀ p h row, (p, h, row) ∈ m.toList → ∀ f : Artifact,
    ∃ content, t.read (P.layout.root / row.artifact f) = .ok content ∧
      t'.read (P.layout.root / row.artifact f) = .ok content

/-- A job for the whole project that comes to a cache in order. -/
structure Poised (P : Project) (j : Job) (t : Tree) (contexts : List Context) : Prop where
  scope : j.scope = .project
  settled : Session.Settled (P.session j) t j.units
  contexts : (P.session j).contexts? j.units t = some contexts
  manifest : t.isFile P.manifestPath = true ∨ t.file? P.manifestPath.place = none
  rows : ∀ p k, p.Logical →
    (P.cache.loaded t).manifest.lookup? p k = (P.cache.persisted t).lookup? p k

/-- The same job on another tree has the same contexts, and skips what is there. -/
theorem Project.contexts?_among (h : (P.session j).contexts? j.units t = some contexts)
    (memory : Manifest) (last : Summary) (t₁ : Tree) :
    (P.session (j.again memory last)).contexts? j.units t₁ =
      some (contexts.map (Context.among (P.cache.loaded t₁).manifest)) := by
  rw [Session.contexts?, P.loaded_session]
  exact Context.batch?_among h _

/-! ### Runs that are stopped -/

namespace Poised
variable (h : Poised P j t contexts)
  (hspared : t.Spared (Session.Guarded (P.session j) t .project contexts) t₁)
include h hspared

omit hspared in
theorem logical {c : Context} (hc : c ∈ contexts) : c.path.Logical := by
  obtain ⟨u, hu, hpath⟩ := Context.exists_unit_of_mem h.contexts hc
  exact hpath ▸ h.settled.logical u hu

theorem persisted_of_spared : P.cache.persisted t₁ = P.cache.persisted t :=
  Session.persisted_of_spared hspared (.inl rfl) h.manifest

theorem settled_of_spared : Session.Settled (P.session (j.again memory last)) t₁ j.units := by
  have hpersisted : (P.session (j.again memory last)).cache.persisted t₁ =
      (P.session j).cache.persisted t := by
    rw [P.persisted_session, P.persisted_session, h.persisted_of_spared hspared]
  refine ⟨h.settled.inner, h.settled.root, h.settled.logical, ?_, ?_⟩
  · rw [hpersisted]
    exact h.settled.laidOut
  · rw [hpersisted]
    exact h.settled.entrypoint

/-- A row that the run wants is found again if it was found before. -/
theorem lookup?_of_spared (hp : p.Logical) (hb : Session.built contexts p k = true) :
    (P.cache.loaded t₁).manifest.lookup? p k = (P.cache.loaded t).manifest.lookup? p k := by
  have hloaded := h.rows p k hp
  rw [Cache.lookup?_loaded, h.persisted_of_spared hspared, ← hloaded]
  cases hrow : (P.cache.loaded t).manifest.lookup? p k with
  | none => rfl
  | some row =>
    have hpresent : row.isPresent P.cache.root t = true := by
      rw [Cache.lookup?_loaded, Option.filter_eq_some_iff] at hrow
      exact hrow.2
    rw [Option.filter_some, if_pos (Session.isPresent_of_spared hspared (fun q howns => ?_) hpresent)]
    refine .inr ⟨p, k, row, ?_, hb, q, howns, rfl⟩
    rw [P.loaded_session]
    exact hrow

theorem guarded_of_spared {a : Place}
    (ha : Session.Guarded (P.session j) t .project contexts a) :
    Session.Guarded (P.session (j.again memory last)) t₁ .project contexts a := by
  rcases h.settled.guarded_cases ha with heq | ⟨f, p, k, hp, hfound, hkeeps, rfl⟩
  · exact .inl heq
  · refine (h.settled_of_spared hspared).guarded_of_found f hp ?_ hkeeps
    rw [P.loaded_session] at hfound ⊢
    rw [h.lookup?_of_spared hspared hp hkeeps]
    exact hfound

/-- The next run skips the same contexts. -/
theorem among_of_spared : contexts.map (Context.among (P.cache.loaded t₁).manifest) = contexts := by
  have hsame : ∀ c ∈ contexts, c.among (P.cache.loaded t₁).manifest = c := by
    intro c hc
    obtain ⟨hpaths, hskip⟩ := Context.faithful_of_batch? h.contexts hc
    have hbuilt : Session.built contexts c.path c.hash = true :=
      Session.built_iff.2 ⟨c, hc, Path.same_self _, rfl⟩
    refine Context.Faithful.among_eq ⟨hpaths, ?_⟩
    rw [h.lookup?_of_spared hspared (h.logical hc) hbuilt, hskip, P.loaded_session]
  rw [List.map_congr_left hsame, List.map_id']

theorem contexts?_of_spared :
    (P.session (j.again memory last)).contexts? j.units t₁ = some contexts := by
  rw [Project.contexts?_among h.contexts, h.among_of_spared hspared]

omit hspared in
/-- However often the run is stopped, no guarded file is touched. -/
theorem spared_of_interrupted (hstopped : P.Interrupted j t t₁) :
    t.Spared (Session.Guarded (P.session j) t .project contexts) t₁ := by
  induction hstopped with
  | start => exact .rfl
  | @stop t₁ t₂ memory last _ hstop hspared =>
    rw [h.scope] at hstop
    have hnext : t₁.Spared (Session.Guarded (P.session (j.again memory last)) t₁ .project contexts)
        t₂ := (h.settled_of_spared hspared).spared_of_stopped (Backend.leavesFiles_ofFunction _)
      (h.contexts?_of_spared hspared) hstop
    exact hspared.trans (hnext.mono fun a ha => h.guarded_of_spared hspared ha)

end Poised

/-! ### Runs that go on -/

section Resumed
variable (hadm : P.Admissible t₀ js) (hs : P.history t₀ js = earlier ++ e :: later)
include hadm hs

/-- The manifest of a project is a file that can be read, or there is none. -/
theorem Project.Admissible.manifest_cases (hfree : t₀.file? P.manifestPath.place = none) :
    e.before.isFile P.manifestPath = true ∨ e.before.file? P.manifestPath.place = none := by
  refine Project.history_induction (Q := fun _ t => t.isFile P.manifestPath = true ∨
    t.file? P.manifestPath.place = none) (.inr hfree) (fun earlier e later hs hstart => ?_) hs
  by_cases hsucceeded : e.Succeeded
  · have hread := e.read_manifest (Project.event_of_history hs).2.1 hsucceeded
    exact .inl (Tree.isFile_iff_read.2 ⟨_, hread⟩)
  · rwa [hadm.after_of_failed hs hsucceeded]

theorem Project.Admissible.settled (hm : Matches P earlier e.before) :
    Session.Settled (P.session e.job) e.before e.job.units := by
  refine ⟨hadm.layout, rfl, hadm.sources _ (Project.event_of_history hs).1, ?_, fun x hx => ?_⟩
  · rw [P.persisted_session]
    exact hm.laidOut
  have hplaces := hadm.entrypoint x hx
  refine ⟨fun heq => hplaces ?_, fun p k row hrow q howns heq => hplaces ?_⟩
  · rw [show (P.layout.root / x).place = P.manifestPath.place from heq]
    exact List.mem_cons_self ..
  · rw [P.persisted_session] at hrow
    obtain ⟨p', -, hmem⟩ := Manifest.lookup?_eq_some_iff.1 hrow
    obtain ⟨f, rfl⟩ := Row.owns_iff.1 howns
    have hp' := hm.laidOut.logical hmem
    have hkept : Kept earlier p' k := by
      rw [← hm.rows p' k hp', Manifest.lookup?_of_mem hmem]
      rfl
    refine hadm.mem_places_of_kept hs hp' hkept ?_
    rw [show (P.layout.root / x).place = P.layout.place f p' k from
      heq.trans ((hm.laidOut.rows _ hmem).place f)]
    cases f <;> simp [Layout.places]

variable (hsucceeded : e.Succeeded)
include hsucceeded

theorem Project.Admissible.poised (hm : Matches P earlier e.before)
    (hfree : t₀.file? P.manifestPath.place = none) (hscope : e.job.scope = .project) :
    Poised P e.job e.before e.contexts := by
  obtain ⟨-, outputs, t₁, t₂, t₃, t₄, hdone⟩ := Project.completed_of_history hs hsucceeded
  exact ⟨hscope, hadm.settled hs hm, hdone.batch, hadm.manifest_cases hs hfree,
    fun p k hp => hm.lookup?_loaded hp⟩

theorem Project.Admissible.orderly_among (hes : P.history t₀ js = es ++ later')
    (hm : Matches P es t) (hpersisted : P.cache.persisted t₁ = P.cache.persisted t) (m : Manifest) :
    Session.Orderly (P.session j) t₁ (e.contexts.map (Context.among m)) := by
  refine hadm.orderly_of hes (fun c hc => ?_) ?_ fun p h hp => ?_
  · obtain ⟨d, hd, rfl⟩ := List.mem_map.1 hc
    have hlogical : d.path.Logical := hadm.logical hs hd
    exact ⟨hlogical, e, by rw [hs]; simp, hsucceeded, d, hd, Path.same_self _, rfl⟩
  · rw [hpersisted]
    exact hm.laidOut
  · rw [hpersisted]
    exact (hm.rows p h hp).1

/-- A run for the same units leaves what the first one left, if it writes the same or finds it
written. -/
theorem Project.Admissible.builtAlike (hm : Matches P earlier e.before)
    (hscope : e.job.scope = .project) {backend : Request → Answer} {units : List SourceUnit}
    {s' : Session} {outputs : List (Context × Output)} {m : Manifest} {t₂ t₃ t₄ t₅ t' : Tree}
    (hdone : Session.Completed (.ofFunction backend) .project units (P.session j) s'
      (e.contexts.map (Context.among m)) outputs t₁ t₂ t₃ t₄ t₅ t')
    (horderly : Session.Orderly (P.session j) t₁ (e.contexts.map (Context.among m)))
    (hfile : ∀ f p k, p.Logical → (e.session.cache.manifest.lookup? p k).isSome = true →
      ((Session.lastOutput? outputs p k).map fun o => (f.text o).toUTF8).or
        (t₁.file? (P.layout.place f p k)) = e.after.file? (P.layout.place f p k)) :
    P.BuiltAlike e.after t' := by
  obtain ⟨-, outputs₀, t₂', t₃', t₄', t₅', hdone₀⟩ := Project.completed_of_history hs hsucceeded
  have hlaid := hdone₀.laidOut (hadm.orderly hs hm hsucceeded).toFits
  have hmanifest : s'.cache.manifest = e.session.cache.manifest := by
    refine (hdone.laidOut horderly.toFits).ext hlaid hdone.full hdone₀.full
      (hdone.version.trans hdone₀.version.symm) fun p k _ => ?_
    rw [hdone.lookup?_project rfl, hdone₀.lookup?_project hscope, Session.lastContext?_among,
      Option.map_map]
    rfl
  refine ⟨⟨_, hdone₀.saved.read, hmanifest ▸ hdone.saved.read⟩, fun n hn p h row hrow f => ?_⟩
  obtain rfl := Option.some.inj (hn.symm.trans (Project.manifest?_of_completed hdone₀).1)
  have hp := hlaid.logical hrow
  have hlive : (e.session.cache.manifest.lookup? p h).isSome = true := by
    rw [Manifest.lookup?_of_mem hrow]
    rfl
  have hkept := (hm.isSome_session_iff hs hsucceeded hp).1 hlive
  obtain ⟨-, -, -, o, -, hold⟩ := (hm.generated_succeeded hadm hs hsucceeded hp hkept).file?
  obtain ⟨hnew, hreaches⟩ := (hdone.published horderly).live f p h hp (hmanifest ▸ hlive)
  have hpath : P.layout.root / row.artifact f = f.full (P.layout.paths p h) :=
    (hlaid.rows _ hrow).full f
  rw [hpath]
  refine ⟨_, Tree.read_eq_ok.2 (hold f), Tree.read_eq_ok.2 ⟨hreaches, ?_⟩⟩
  exact (hnew.trans (hfile f p h hp hlive)).trans (hold f).2

end Resumed

/-! ### The whole run -/

/-- When a run for the project is stopped, however often and wherever, and then goes through in another
session, there are the manifest and the artifacts that it would have left by itself. -/
theorem Project.Admissible.recovers (memory : Manifest) (last : Summary) (hadm : P.Admissible t₀ js)
    (hfree : t₀.file? P.manifestPath.place = none) (hs : P.history t₀ js = earlier ++ e :: later)
    (hscope : e.job.scope = .project) (hsucceeded : e.Succeeded)
    (hstopped : P.Interrupted e.job e.before t₁ ∨ t₁ = e.after)
    (hfiles : (P.perform (e.job.again memory last) t₁).filesFailed = false) :
    (P.perform (e.job.again memory last) t₁).Succeeded ∧
      P.BuiltAlike e.after (P.perform (e.job.again memory last) t₁).after := by
  have hnone : P.manifest? t₀ = none := manifest?_of_file?_eq_none hfree
  have hm := hadm.matches_before hnone hs
  obtain ⟨-, outputs, t₂, t₃, t₄, t₅, hdone⟩ := Project.completed_of_history hs hsucceeded
  have hcontexts := Project.contexts?_among hdone.batch memory last t₁
  rcases hstopped with hstopped | rfl
  · -- what was guarded is as it was, and everything else is written again
    have hpoised := hadm.poised hs hsucceeded hm hfree hscope
    have hspared := hpoised.spared_of_interrupted hstopped
    have hanswers := hdone.answers_eq.1
    rw [← hpoised.among_of_spared hspared] at hanswers
    obtain ⟨hsucceeded', t₂', t₃', t₄', t₅', hdone'⟩ :=
      Project.completed_of_answers hcontexts hanswers hfiles
    refine ⟨hsucceeded', hadm.builtAlike hs hsucceeded hm hscope (hscope ▸ hdone')
      (hadm.orderly_among hs hsucceeded hs hm (hpoised.persisted_of_spared hspared) _) ?_⟩
    intro f p k hp hlive
    have hold := ((hdone.published (hadm.orderly hs hm hsucceeded)).live f p k hp hlive).1
    refine Eq.trans ?_ hold.symm
    cases hl : Session.lastOutput? outputs p k with
    | some o => rfl
    | none =>
      refine hspared.file? _ (hpoised.settled.guarded_of_found f hp ?_ ?_)
      · exact hdone.isSome_loaded_of_live hlive hl
      · exact hscope ▸ (hdone.isSome_lookup?_iff.1 hlive).2
  · -- the run is over, and the next one skips everything
    have hm' := hm.succeeded hadm hs hsucceeded
    have hskip : ∀ c ∈ e.contexts.map (Context.among (P.cache.loaded e.after).manifest),
        c.skip = true := by
      intro c hc
      obtain ⟨d, hd, rfl⟩ := List.mem_map.1 hc
      have hp : d.path.Logical := hadm.logical hs hd
      rw [Context.skip_among, hm'.isSome_loaded_iff hp, kept_concat]
      exact .inl ⟨hsucceeded, d, hd, Path.same_self _, rfl⟩
    have hanswers : Session.answers e.job.backend (P.session e.job).settings
        (Session.schemaText e.job.units) (Session.staleGroups (e.contexts.map
          (Context.among (P.cache.loaded e.after).manifest))).toList = .ok [] := by
      rw [Session.toList_staleGroups_eq_nil hskip]
      rfl
    obtain ⟨hsucceeded', t₂', t₃', t₄', t₅', hdone'⟩ :=
      Project.completed_of_answers hcontexts hanswers hfiles
    have hs' : P.history t₀ js = (earlier ++ [e]) ++ later := by rw [hs, List.append_assoc]; rfl
    exact ⟨hsucceeded', hadm.builtAlike hs hsucceeded hm hscope (hscope ▸ hdone')
      (hadm.orderly_among hs hsucceeded hs' hm' rfl _) fun _ _ _ _ _ => rfl⟩

namespace Sample

/-- The first run of the sample, in any session. -/
def building : Program (Except RunError (List Context) × Session) :=
  Session.run (.ofFunction first.backend) first.scope first.units
    (project.session (first.again (.empty "1") .zero))

/-- What is there when it has written one artifact, and the other one to a temporary file. -/
def halfway : Tree := (building.at? 8 tree).getD tree

def restarted : Event := project.perform (first.again (.empty "1") .zero) halfway

set_option maxRecDepth 100000 in
theorem restarted_eq : (building.at? 8 tree).isSome = true ∧
    (halfway.file? (project.layout.place .dts schema.path (schema.hash config identity))).isSome =
      false ∧
    restarted.filesFailed = false := by
  decide +kernel

theorem interrupted_halfway : project.Interrupted first tree halfway := by
  obtain ⟨t, ht⟩ := Option.isSome_iff_exists.1 restarted_eq.1
  have hstopped : building.Stopped tree halfway := by
    rw [halfway, ht, Option.getD_some]
    exact Program.stopped_of_at? ht
  exact .stop .start hstopped

end Sample

/-- The run of the sample is stopped between its two artifacts. The next one makes up for it. -/
theorem Project.Admissible.recovers_halfway : Sample.project.Admissible Sample.tree [Sample.first] ∧
    Sample.tree.file? Sample.project.manifestPath.place = none ∧ Sample.firstEvent.Succeeded ∧
    Sample.project.Interrupted Sample.first Sample.tree Sample.halfway ∧
    (Sample.halfway.file? (Sample.project.layout.place .dts Sample.schema.path
      (Sample.schema.hash Sample.config Sample.identity))).isSome = false ∧
    Sample.restarted.filesFailed = false ∧ Sample.restarted.Succeeded ∧
    Sample.project.BuiltAlike Sample.firstEvent.after Sample.restarted.after := by
  have hs : Sample.project.history Sample.tree [Sample.first] = [] ++ Sample.firstEvent :: [] := rfl
  have hfree : Sample.tree.file? Sample.project.manifestPath.place = none :=
    Sample.file?_tree fun heq => Sample.not_mem_used.1 (heq ▸ List.mem_cons_self ..)
  obtain ⟨-, hdts, hfiles⟩ := Sample.restarted_eq
  have hrecovered := recovers (.empty "1") .zero Sample.admissible_first hfree hs rfl
    Sample.succeeded_firstEvent (.inl Sample.interrupted_halfway) hfiles
  exact ⟨Sample.admissible_first, hfree, Sample.succeeded_firstEvent, Sample.interrupted_halfway, hdts,
    hfiles, hrecovered⟩

end GqlArtifacts
