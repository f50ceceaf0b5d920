import GqlArtifacts.Proofs.History.Invariant

/-!
# Skipped is kept

Over all histories that start without a manifest: a context is skipped exactly when the history
keeps it, so nothing that is kept reaches the backend (`skip_iff_kept`), and every row of the manifest
stands for the two files of one output that the backend returned for the row's source and hash
(`generated_of_row`).
-/

namespace GqlArtifacts

open Files

namespace Project.Admissible

variable {P : Project} {t : Tree} {js : List Job} {earlier later : List Event} {e : Event}

/-- A context is skipped when some earlier successful run has built it and every later one that
covers its source has built it again, and only then. The run asks for the other contexts alone: what
any other call would answer or do to the files makes no difference, so no other call is made. -/
theorem skip_iff_kept (hadm : P.Admissible t js) (hnone : P.manifest? t = none)
    (hs : P.history t js = earlier ++ e :: later) :
    (∀ contexts, e.result = .ok contexts → contexts = e.contexts) ∧
    (∀ c ∈ e.contexts, c.skip = true ↔ Kept earlier c.path c.hash) ∧
    (∀ r ∈ e.requests, ∀ d ∈ r.documents, ¬Kept earlier r.sourcePath d.hash) ∧
    ∀ backend : Backend, (∀ r ∈ e.requests, backend r = pure (e.job.backend r)) →
      (Session.run backend e.job.scope e.job.units (P.session e.job)).run e.before =
        ((e.result, e.session), e.after) := by
  have hm := hadm.matches_before hnone hs
  obtain ⟨-, hperform, -⟩ := event_of_history hs
  have hskip : ∀ c ∈ e.contexts, c.skip = true ↔ Kept earlier c.path c.hash := fun c hc =>
    hm.skip_iff (hperform ▸ hc) (hadm.logical hs hc)
  refine ⟨fun contexts hr => ?_, hskip, fun r hr d hd hk => ?_, fun backend hbackend => ?_⟩
  · have hsucceeded : e.Succeeded := by
      rw [Event.Succeeded, hr]
      rfl
    rw [(completed_of_history hs hsucceeded).1] at hr
    exact (Except.ok.inj hr).symm
  · rw [requests_of_history hs] at hr
    obtain ⟨c, hc, hstale, hsame, hhash⟩ := Session.exists_context_of_document hr hd
    rw [← hhash, kept_congr hsame, ← hskip c hc, hstale] at hk
    cases hk
  · have hasked : ∀ contexts, (P.session e.job).contexts? e.job.units e.before = some contexts →
        ∀ r ∈ Session.requests (P.session e.job).settings e.job.units contexts,
          backend r = Backend.ofFunction e.job.backend r := by
      intro contexts hcontexts r hr
      refine hbackend r ?_
      rw [requests_of_history hs, contexts_of_history hs, hcontexts, Option.getD_some]
      exact hr
    rw [Session.run_congr hasked, run_of_history hs]

/-- The second run of the sample skips the schema and asks for the literal. -/
theorem skip_iff_kept_sample : Sample.project.Admissible Sample.tree [Sample.first, Sample.second] ∧
    Sample.project.manifest? Sample.tree = none ∧
    (∃ c ∈ Sample.secondEvent.contexts, c.path = ⟨"s"⟩ ∧ c.skip = true) ∧
    ∃ c ∈ Sample.secondEvent.contexts, c.path = ⟨"a/q"⟩ ∧ c.skip = false := by
  have hs : Sample.project.history Sample.tree [Sample.first, Sample.second] =
    [Sample.firstEvent] ++ Sample.secondEvent :: [] := Sample.history_eq
  have hskip := (skip_iff_kept Sample.admissible Sample.manifest?_tree hs).2.1
  have hmem : ∀ u ∈ [Sample.schema, Sample.literal], ∃ c ∈ Sample.secondEvent.contexts,
      c.path = u.path ∧ c.hash = u.hash Sample.config Sample.identity := by
    intro u hu
    have hkey : (u.path, u.hash Sample.config Sample.identity) ∈
        Sample.secondEvent.contexts.map fun c => (c.path, c.hash) := by
      rw [Sample.keys_secondEvent]
      exact List.mem_map_of_mem (f := fun u => (u.path, u.hash Sample.config Sample.identity)) hu
    obtain ⟨c, hc, heq⟩ := List.mem_map.1 hkey
    exact ⟨c, hc, Prod.mk.inj heq⟩
  obtain ⟨c, hc, hpath, hhash⟩ := hmem Sample.schema (by simp)
  obtain ⟨d, hd, hpath', -⟩ := hmem Sample.literal (by simp)
  refine ⟨Sample.admissible, Sample.manifest?_tree, ⟨c, hc, hpath, ?_⟩, d, hd, hpath', ?_⟩
  · rw [hskip c hc, hpath, hhash]
    exact Sample.kept_schema
  · rw [Bool.eq_false_iff, Ne, hskip d hd, hpath']
    exact Sample.not_kept_literal _

/-- Every row of the manifest points to where the layout puts the artifacts of its source at its
hash, and both are files with one output that the backend returned for a document of the source with
the hash, in this or an earlier successful run. So it is for the contexts that are skipped, and what
they point to is there already when the run starts. -/
theorem generated_of_row (hadm : P.Admissible t js) (hnone : P.manifest? t = none)
    (hs : P.history t js = earlier ++ e :: later) :
    (∀ m, P.manifest? e.after = some m → ∀ p h row, (p, h, row) ∈ m.toList →
      row.tsx = (P.layout.paths p h).tsx ∧ row.dts = (P.layout.paths p h).dts ∧
        P.Generated (earlier ++ [e]) e.after p h) ∧
    ∀ c ∈ e.contexts, c.skip = true →
      c.paths = P.layout.paths c.path c.hash ∧ P.Generated earlier e.before c.path c.hash ∧
        P.Generated (earlier ++ [e]) e.after c.path c.hash := by
  have hbefore := hadm.matches_before hnone hs
  have hafter := hadm.matches_after hnone hs
  refine ⟨fun m hload p h row hrow => ?_, fun c hc hskip => ?_⟩
  · have hpersisted : P.cache.persisted e.after = m :=
      Cache.persisted_of_manifest? hload (hafter.version m hload)
    have hlaid := hafter.laidOut
    have hrows := hafter.rows p h
    rw [hpersisted] at hlaid hrows
    have hp := hlaid.logical hrow
    have hat := hlaid.rows _ hrow
    have hk : Kept (earlier ++ [e]) p h := by
      rw [← hrows hp, Manifest.lookup?_of_mem hrow]
      rfl
    exact ⟨hat.tsx, hat.dts, hafter.generated p h hp hk⟩
  · have hp := hadm.logical hs hc
    obtain ⟨-, hperform, -⟩ := event_of_history hs
    have hmem : c ∈ (P.perform e.job e.before).contexts := hperform ▸ hc
    have hk : Kept earlier c.path c.hash := (hbefore.skip_iff hmem hp).1 hskip
    refine ⟨(faithful_of_mem_contexts hmem).2.paths, hbefore.generated _ _ hp hk,
      hafter.generated _ _ hp ?_⟩
    -- the run builds the context again, if it succeeds
    by_cases hsucceeded : e.Succeeded
    · exact kept_concat.2 (.inl ⟨hsucceeded, c, hc, Path.same_self _, rfl⟩)
    · exact (kept_concat_failed hsucceeded).2 hk

/-- After the first run of the sample there is a row for the schema. -/
theorem generated_of_row_sample : Sample.project.Admissible Sample.tree [Sample.first] ∧
    Sample.project.manifest? Sample.tree = none ∧
    ∃ m p h row, Sample.project.manifest? Sample.firstEvent.after = some m ∧
      (p, h, row) ∈ m.toList ∧ row.tsx = (Sample.project.layout.paths p h).tsx ∧
      Sample.project.Generated [Sample.firstEvent] Sample.firstEvent.after p h := by
  have hs : Sample.project.history Sample.tree [Sample.first] = [] ++ Sample.firstEvent :: [] := rfl
  have hrows := (generated_of_row Sample.admissible_first Sample.manifest?_tree hs).1
  have hm := Sample.matches_first
  obtain ⟨row, hrow⟩ :=
    Option.isSome_iff_exists.1 ((hm.rows _ _ Sample.logical.1).2 Sample.kept_schema)
  have hmem := hm.laidOut.mem_toList Sample.logical.1 hrow
  refine ⟨Sample.admissible_first, Sample.manifest?_tree, ?_⟩
  cases hload : Sample.project.manifest? Sample.firstEvent.after with
  | none =>
    rw [Cache.persisted_eq_empty hload] at hrow
    cases hrow
  | some m =>
    rw [Cache.persisted_of_manifest? hload (hm.version m hload)] at hmem
    obtain ⟨htsx, -, hgenerated⟩ := hrows m hload _ _ row hmem
    exact ⟨m, _, _, row, rfl, hmem, htsx, hgenerated⟩

end Project.Admissible

end GqlArtifacts
