import GqlArtifacts.Proofs.CommandLine.Again

/-!
# Resolving a file after `gen`

Discovering a single file of a project finds the schema and the units of the file, as discovering all of
the project does, so `resolve` has nothing to do after a `gen` that succeeds (`resolve_again`). It needs
for that what another `gen` needs (`generate_again`), and `resolve_disturbed` is about projects without.
-/

namespace GqlArtifacts.CommandLine

open Files Program Discovery Config.Resolved

variable {units : List SourceUnit} {contexts : List Context} {p : Path} {env : Environment}
  {options : Options} {r : Config.Resolved} {t t' : Tree} {f : Path}
  {schemaFiles documentFiles : List Path}

theorem sayOwn_congr {contexts contexts' : List Context} (h : contexts.filter (fun c => c.path.same f) =
    contexts'.filter fun c => c.path.same f) (compact : Bool) :
    sayOwn f compact contexts = sayOwn f compact contexts' := by
  rw [sayOwn, sayOwn, h]

section Own
variable (hunits : answer r.units t = .ok units)
  (hschema : answer (globFiles r.root r.schema) t = .ok schemaFiles)
  (hdocuments : answer (globFiles r.root r.documents) t = .ok documentFiles)
  (hroot : r.root.Rooted) (hf : f ∈ schemaFiles ∨ f ∈ documentFiles)
include hunits hschema hdocuments hroot hf

/-- A source that a run for the file covers has all its contexts among those of the file. -/
theorem isOwn_of_covered (hcontexts : contexts.map Context.unit = units)
    (hcovered : Session.covered (.partly [f]) (contexts.filter fun c => isOwn f c.unit) p = true) :
    ∀ c ∈ contexts, c.path.same p = true → isOwn f c.unit = true := by
  have hmem : ∀ c ∈ contexts, c.unit ∈ units := fun c hc => hcontexts ▸ List.mem_map_of_mem hc
  rw [Session.covered, Scope.listed, Bool.or_eq_true, List.any_eq_true, List.any_cons, List.any_nil,
    Bool.or_false] at hcovered
  intro c hc hsame
  have hu := hmem c hc
  rcases hcovered with ⟨d, hd, hsame'⟩ | hsame'
  · obtain ⟨hd, hisOwn⟩ := List.mem_filter.1 hd
    have hv := hmem d hd
    exact own_of_same hunits hschema hdocuments hroot hf hu hsame (.inr ⟨hv, hisOwn, hsame'⟩)
  · exact own_of_same (v := c.unit) hunits hschema hdocuments hroot hf hu hsame (.inl hsame')

end Own

section Resolve
variable (h : Generates env options r units contexts t t') (hs : Settled env options r t t')
  (hschema : answer (globFiles r.root r.schema) t = .ok schemaFiles)
  (hdocuments : answer (globFiles r.root r.documents) t = .ok documentFiles)
include h hs

/-- On the tree that is left the globs find the same files. -/
theorem Generates.globFiles_again {patterns : List String} {files : List Path}
    (hpatterns : ∀ pattern ∈ patterns, pattern ∈ r.schema ++ r.documents)
    (hfiles : answer (globFiles r.root patterns) t = .ok files) :
    answer (globFiles r.root patterns) t' = .ok files :=
  answer_globFiles_same h.rooted h.proper h.proper_after hs.discovery hpatterns hfiles

include hschema hdocuments

/-- On the tree that is left, discovering a file of the project finds its share of the units. -/
theorem Generates.unitsOf_again (hf : f ∈ schemaFiles ∨ f ∈ documentFiles)
    (hparent : .parent ∉ f.components) : answer (r.unitsOf f) t' = .ok (units.filter (isOwn f)) := by
  have hunits := (h.finds_again hs).discovered
  have hschema' := h.globFiles_again hs (fun _ => List.mem_append_left _) hschema
  have hdocuments' := h.globFiles_again hs (fun _ => List.mem_append_right _) hdocuments
  rw [answer_unitsOf_eq hunits hschema' hdocuments' h.rooted hf hparent,
    ownUnits_eq_filter hunits hschema' hdocuments']

/-- There `resolve` has nothing to do for the file, if what has been generated is in place. -/
theorem Generates.exists_run_resolve (hplace : r.session.InPlace contexts t')
    (hf : f ∈ schemaFiles ∨ f ∈ documentFiles) (hparent : .parent ∉ f.components) {file : String}
    (hfile : answer (projectPath env r file) t' = .ok f) :
    ∃ t'', t'.Alike t'' ∧ ∀ launch compact,
      (run { env with launch } options (.resolve file compact)).run t' =
        (sayOwn f compact (contexts.map skipped), t'') := by
  have hfinds := h.finds_again hs
  obtain ⟨again, hbuilt, hunit, hskipped, hrows⟩ := h.contexts_again
  have hcontexts : r.session.contexts? (units.filter (isOwn f)) t' =
      some (again.filter fun c => isOwn f c.unit) :=
    Context.batch?_filter hbuilt fun u hu => by rw [isOwn, hu, Bool.true_or]
  have hcovered : ∀ p, Session.covered (.partly [f]) (again.filter fun c => isOwn f c.unit) p = true →
      ∀ c ∈ again, c.path.same p = true → isOwn f c.unit = true := fun p hp =>
    isOwn_of_covered hfinds.discovered (h.globFiles_again hs (fun _ => List.mem_append_left _) hschema)
      (h.globFiles_again hs (fun _ => List.mem_append_right _) hdocuments) h.rooted hf hunit hp
  have hidle : r.session.Idle (.partly [f]) (again.filter fun c => isOwn f c.unit) t' := by
    refine h.idle hplace fun p k hp => ?_
    rw [Session.lastContext?_filter (hcovered p (hp.resolve_left (by simp))), hrows]
  obtain ⟨t'', halike, hagain⟩ := hidle.run_eq hcontexts
  refine ⟨t'', halike, fun launch compact => ?_⟩
  rw [run_resolve (hfinds.loaded_with launch) hfile (h.unitsOf_again hs hschema hdocuments hf hparent),
    hagain, conclude]
  -- the contexts of the file are all told of, and they are skipped
  have hlisted : Session.covered (.partly [f]) (again.filter fun c => isOwn f c.unit) f = true := by
    rw [Session.covered, Scope.listed, List.any_cons, Path.same_self, Bool.true_or, Bool.or_true]
  have hsame : (again.filter fun c => isOwn f c.unit).filter (fun c => c.path.same f) =
      (contexts.map skipped).filter fun c => c.path.same f := by
    have htold : ∀ c ∈ again.filter fun c => c.path.same f, skipped c = c := by
      intro c hc
      obtain ⟨hc, hpath⟩ := List.mem_filter.1 hc
      exact skipped_eq (hidle.skip hcontexts c (List.mem_filter.2 ⟨hc, hcovered f hlisted c hc hpath⟩))
    rw [← hskipped, List.filter_map, List.filter_filter]
    calc again.filter (fun c => c.path.same f && isOwn f c.unit)
        = again.filter fun c => c.path.same f := List.filter_congr fun c hc => by
          cases hpath : c.path.same f with
          | false => rfl
          | true => rw [hcovered f hlisted c hc hpath, Bool.and_true]
      _ = (again.filter fun c => c.path.same f).map skipped := by
          rw [List.map_congr_left htold, List.map_id']
  exact congrArg (·, t'') (sayOwn_congr hsame compact)

end Resolve

/-- Discovering a file of the project gives its share of the units of the project, and so `resolve` for
the file has nothing to do after a `gen` that succeeds, when it finds the same project and what has been
generated is in place: it tells of the contexts that `gen` has built for the file, as skipped, starts no
process and changes no file. -/
theorem resolve_again (hhere : env.here.isAbsolute = true)
    (hfinds : Finds env options r units t)
    (hschema : answer (globFiles r.root r.schema) t = .ok schemaFiles)
    (hdocuments : answer (globFiles r.root r.documents) t = .ok documentFiles)
    (hf : f ∈ schemaFiles ∨ f ∈ documentFiles) (hparent : .parent ∉ f.components) :
    answer (r.unitsOf f) t = .ok (ownUnits f units) ∧
    ∀ contexts t', Generates env options r units contexts t t' →
      (env.launch.KeepsFiles → r.session.Untangled t contexts → r.session.InPlace contexts t') ∧
      (Settled env options r t t' → r.session.InPlace contexts t' →
        ∀ file, answer (projectPath env r file) t' = .ok f →
        ∃ t'', t'.Alike t'' ∧ ∀ launch compact,
          (run { env with launch } options (.resolve file compact)).run t' =
            (sayOwn f compact (contexts.map skipped), t'')) := by
  have hroot := (inside_of_loadProject hhere hfinds.loaded).root
  refine ⟨answer_unitsOf_eq hfinds.discovered hschema hdocuments hroot hf hparent,
    fun contexts t' h => ⟨h.inPlace, fun hs hplace file hfile => ?_⟩⟩
  exact h.exists_run_resolve hs hschema hdocuments hplace hf hparent hfile

namespace Sample

theorem answer_projectPath (hroot : r.root = ⟨"/p"⟩) {file : String} (hfile : file ∈ ["s", "q.ts"])
    (launch : Launcher) (t : Tree) : answer (projectPath (environment launch) r file) t = .ok ⟨file⟩ := by
  obtain ⟨p, hunder, hslash⟩ := Option.map_eq_some_iff.1 (evaluated.asked file hfile)
  rw [projectPath, environment, hroot, hunder]
  exact congrArg (fun s => Except.ok (Path.mk s)) hslash

end Sample

open Sample

/-- The script of a small project has a unit of its own beside the schema; it is generated with the
project, and then it is up to date. -/
theorem resolve_again_sample : ∃ r contexts t',
    (environment shell).here.isAbsolute = true ∧
    Finds (environment shell) named r projectUnits project ∧
    answer (globFiles r.root r.schema) project = .ok [⟨"s"⟩] ∧
    answer (globFiles r.root r.documents) project = .ok [⟨"d.gql"⟩, ⟨"q.ts"⟩] ∧
    .parent ∉ (Path.mk "q.ts").components ∧
    answer (r.unitsOf ⟨"q.ts"⟩) project =
      .ok [⟨⟨"s"⟩, "type Q", .schema⟩, ⟨⟨"q.ts"⟩, "\x7bb\x7d", .literal⟩] ∧
    Generates (environment shell) named r projectUnits contexts project t' ∧
    Settled (environment shell) named r project t' ∧
    (environment shell).launch.KeepsFiles ∧ r.session.Untangled project contexts ∧
    ∃ t'', t'.Alike t'' ∧ ∀ launch compact,
      (run (environment launch) named (.resolve "q.ts" compact)).run t' =
        (sayOwn ⟨"q.ts"⟩ compact (contexts.map skipped), t'') := by
  obtain ⟨r, contexts, t', hx, h, -, hlaunch, huntangled, hs⟩ := exists_generates
  have hparent : .parent ∉ (Path.mk "q.ts").components := by decide +kernel
  obtain ⟨hunits, hresolve⟩ := resolve_again h.here h.finds hx.schemaFiles hx.documentFiles
    (.inr (by decide +kernel)) hparent
  obtain ⟨hplace, hidle⟩ := hresolve contexts t' h
  obtain ⟨t'', halike, hsecond⟩ := hidle hs (hplace hlaunch huntangled) "q.ts"
    (answer_projectPath hx.root (by decide) _ _)
  refine ⟨r, contexts, t', h.here, h.finds, hx.schemaFiles, hx.documentFiles, hparent, ?_, h, hs,
    hlaunch, huntangled, t'', halike, hsecond⟩
  rw [hunits]
  decide +kernel

/-- The file is one of the document pattern from the start, and no run writes it; but it is of the schema
pattern only once `gen` has made the directory that the pattern leads through. And where `gen` believes a
row that points elsewhere, `resolve` has no artifacts either. Neither `gen` asks the backend, and both
times `resolve` fails for want of one. -/
theorem resolve_disturbed :
    ends (tree "c/../s" "s" "s") (.resolve "s" true) =
      (⟨0, "", "   Generated 0 artifact(s), 0 up to date\n"⟩,
        ⟨1, "", "error: codegen failed for s: failed to start `graft-codegen`: " ++
          "No such file or directory (os error 2)\n"⟩) ∧
    (ends tangled (.resolve "s" true)).1.exit = 0 ∧ (ends tangled (.resolve "s" true)).2.exit = 1 := by
  refine ⟨evaluated.reached, ?_⟩
  obtain ⟨r, contexts, t', hx, h, hs, hrefused⟩ := exists_tangled
  obtain ⟨fin, hexit, hrun⟩ := h.succeeds
  obtain ⟨source, d, herror⟩ := hrefused (.partly [⟨"s"⟩])
  have hfinds := h.finds_again hs
  have hunits := h.unitsOf_again hs hx.schemaFiles hx.documentFiles (.inl (List.mem_singleton_self _))
    (by decide +kernel)
  rw [show surveyed.units.filter (isOwn ⟨"s"⟩) = surveyed.units by decide +kernel] at hunits
  obtain ⟨hfirst, hsecond⟩ := ends_eq hrun (.resolve "s" true)
  rw [hfirst, hsecond, run_resolve hfinds.loaded (answer_projectPath hx.root (by decide) _ _) hunits]
  exact ⟨hexit, exit_conclude_of_error herror⟩

end GqlArtifacts.CommandLine
