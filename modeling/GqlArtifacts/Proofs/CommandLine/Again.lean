import GqlArtifacts.Proofs.CommandLine
import GqlArtifacts.Proofs.Session.Again
import GqlArtifacts.Proofs.Shell.Run

/-!
# Generating again

After a `gen` that succeeds (`Generates`) another one has nothing to do: no process is started, nothing is
counted and no file changes (`generate_again`). That takes two things, each a matter of course as a rule.

* The second run finds the same project (`Finds`), as it does when the two trees are the same
  wherever it looks (`Settled`). But a pattern may find what the first run has written, or find its way
  through a directory that the first run has made.
* What the first run has generated is in place. But a row of the manifest may point elsewhere, and then
  there is something to generate again (`Generates.refused`).

`generate_disturbed` is about such projects.
-/

namespace GqlArtifacts

open Files Program Discovery Config.Resolved

variable {layout : Layout} {m : Manifest} {config : ContentHash} {units : List SourceUnit}
  {contexts : List Context} {p : Path} {k : ContentHash}

namespace CommandLine

variable {env : Environment} {options : Options} {r : Config.Resolved} {t t' : Tree} {f : Path}
  {schemaFiles documentFiles : List Path}

/-- What a command finds on a tree: a configuration and the units that belong to it. -/
structure Finds (env : Environment) (options : Options) (r : Config.Resolved) (units : List SourceUnit)
    (t : Tree) : Prop where
  loaded : answer (loadProject env options) t = .ok r
  discovered : answer r.units t = .ok units

/-- Two trees are the same wherever the configuration is looked for and wherever discovery comes to. -/
structure Settled (env : Environment) (options : Options) (r : Config.Resolved) (t t' : Tree) : Prop where
  configuration : ∀ p ∈ consulted env options t, t.Same t' p
  discovery : r.Undisturbed t t'

/-- A `gen` that succeeds: what it finds, the contexts that it builds, and the tree that it leaves. -/
structure Generates (env : Environment) (options : Options) (r : Config.Resolved)
    (units : List SourceUnit) (contexts : List Context) (t t' : Tree) : Prop where
  here : env.here.isAbsolute = true
  proper : t.Proper
  finds : Finds env options r units t
  built : r.session.contexts? units t = some contexts
  succeeds : ∃ fin : Finish, fin.exit = 0 ∧ (run env options .generate).run t = (fin, t')

/-- The context as it is when nothing is to be generated for it. -/
def skipped (c : Context) : Context := { c with skip := true }

theorem skipped_among (m : Manifest) (c : Context) : skipped (c.among m) = skipped c := rfl

theorem skipped_eq {c : Context} (h : c.skip = true) : skipped c = c := by
  rw [skipped, ← h]

/-- The configuration does not depend on the backend. -/
theorem Finds.loaded_with (h : Finds env options r units t) (launch : Launcher) :
    answer (loadProject { env with launch } options) t = .ok r := h.loaded

namespace Generates
variable (h : Generates env options r units contexts t t')
include h

theorem rooted : r.root.Rooted := (inside_of_loadProject h.here h.finds.loaded).root

theorem proper_after : t'.Proper := by
  obtain ⟨fin, -, hrun⟩ := h.succeeds
  have hproper := h.proper.run (run env options .generate)
  rwa [hrun] at hproper

/-- On a tree that is the same wherever it looks, a command finds the same project. -/
theorem finds_again (hs : Settled env options r t t') : Finds env options r units t' :=
  ⟨(answer_loadProject_same hs.configuration).trans h.finds.loaded,
    Config.Resolved.answer_units_same h.rooted h.proper h.proper_after hs.discovery h.finds.discovered⟩

/-- On the tree that is left the same contexts are built, apart from what is skipped. -/
theorem contexts_again : ∃ again, r.session.contexts? units t' = some again ∧
    again.map Context.unit = units ∧ again.map skipped = contexts.map skipped ∧
    ∀ p k, (Session.lastContext? again p k).map Context.row =
      (Session.lastContext? contexts p k).map Context.row := by
  have hagain := Context.batch?_among h.built (r.session.cache.loaded t').manifest
  refine ⟨_, hagain, Context.unit_of_batch? hagain, ?_, fun p k => ?_⟩
  · rw [List.map_map]
    exact List.map_congr_left fun c _ => skipped_among _ c
  · rw [Session.lastContext?_among, Option.map_map]
    rfl

theorem exists_completed : ∃ s' outputs t₁ t₂ t₃ t₄, Session.Completed (backendOf env r) .project units
    r.session s' contexts outputs t t₁ t₂ t₃ t₄ t' := by
  obtain ⟨fin, hexit, hrun⟩ := h.succeeds
  rw [run_generate h.finds.loaded h.finds.discovered] at hrun
  obtain ⟨cs, s', hsession, -⟩ := exists_of_conclude hrun hexit
  obtain ⟨outputs, t₁, t₂, t₃, t₄, hdone⟩ := Session.completed_of_run hsession
  obtain rfl : cs = contexts := Option.some.inj (hdone.batch.symm.trans h.built)
  exact ⟨s', outputs, t₁, t₂, t₃, t₄, hdone⟩

/-- Everything is in place unless a process or an old row has been in the way. -/
theorem inPlace (hlaunch : env.launch.KeepsFiles) (huntangled : r.session.Untangled t contexts) :
    r.session.InPlace contexts t' := by
  obtain ⟨s', outputs, t₁, t₂, t₃, t₄, hdone⟩ := h.exists_completed
  exact hdone.inPlace (hlaunch.backend _ _) huntangled

/-- A session whose contexts are among those of the first one is idle. -/
theorem idle (hplace : r.session.InPlace contexts t') {scope : Scope} {contexts' : List Context}
    (hcontexts : ∀ p k, scope = .project ∨ Session.covered scope contexts' p = true →
      (Session.lastContext? contexts' p k).map Context.row =
        (Session.lastContext? contexts p k).map Context.row) :
    r.session.Idle scope contexts' t' := by
  obtain ⟨s', outputs, t₁, t₂, t₃, t₄, hdone⟩ := h.exists_completed
  exact hdone.idle rfl hplace hcontexts

/-- A session with a context that has lost an artifact asks for it, and gets nowhere with a backend that
refuses. -/
theorem refused {backend : Request → Answer} (hbackend : ∀ request, ∃ d, backend request = .error d)
    {scope : Scope} {units' : List SourceUnit} {contexts' : List Context} {c : Context}
    (hbuilt : r.session.contexts? units' t' = some contexts') (hc : c ∈ contexts')
    (hgone : ∀ d ∈ contexts, d.path.same c.path = true → d.hash = c.hash →
      ∃ f : Artifact, t'.isFile (f.full d.paths) = false) :
    ∃ source d, ((Session.run (.ofFunction backend) scope units' r.session).run t').1.1 =
      .error (.refused source d) := by
  obtain ⟨s', outputs, t₁, t₂, t₃, t₄, hdone⟩ := h.exists_completed
  refine Session.run_refused hbackend hbuilt hc (hdone.skip_again hbuilt hc fun d hd hsame hhash => ?_)
  obtain ⟨f, hf⟩ := hgone d hd hsame hhash
  have hpaths := (Context.faithful_of_batch? h.built hd).paths
  exact ⟨f, by rw [Session.row_artifact rfl hpaths f]; exact hf⟩

end Generates

/-- After a `gen` that succeeds, a second one that finds the same project starts no process, counts nothing
and changes no file, as long as what the first one has generated is in place. -/
theorem generate_again (h : Generates env options r units contexts t t') :
    (Settled env options r t t' → Finds env options r units t') ∧
    (env.launch.KeepsFiles → r.session.Untangled t contexts → r.session.InPlace contexts t') ∧
    (Finds env options r units t' → r.session.InPlace contexts t' →
      ∃ t'', t'.Alike t'' ∧ ∀ launch, (run { env with launch } options .generate).run t' =
        (⟨0, "", if options.quiet || r.silent then "" else summaryLine ⟨0, units.length, 0, 0⟩⟩, t'')) := by
  refine ⟨h.finds_again, h.inPlace, fun hfinds hplace => ?_⟩
  obtain ⟨again, hbuilt, hunit, -, hrows⟩ := h.contexts_again
  have hidle : r.session.Idle .project again t' := h.idle hplace fun p k _ => hrows p k
  obtain ⟨t'', halike, hagain⟩ := hidle.run_eq hbuilt
  have hlength : again.length = units.length := by rw [← hunit, List.length_map]
  refine ⟨t'', halike, fun launch => ?_⟩
  rw [run_generate (hfinds.loaded_with launch) hfinds.discovered, hagain, conclude, hlength]

/-! ### Small projects -/

namespace Sample

def plain : Options := ⟨false, false, none⟩

/-- The configuration is named, relative to where the command runs. -/
def named : Options := ⟨false, false, some "graft.toml"⟩

def environment (launch : Launcher) : Environment := ⟨⟨"/p"⟩, fun _ => none, launch, Response.complaint⟩

/-- A backend that is not there. -/
def missing : Launcher := fun _ _ => pure (.error (.file .notFound))

/-- The shell, without variables. -/
def shell : Launcher := Shell.launch fun _ => none

/-- A directory with the configuration of a project. What it says of the documents, and of the backend, is
given as it is written there. -/
def configured (schema documents backend : String) : Tree :=
  (Tree.empty.put ["p"] .directory).put ["p", "graft.toml"] (.file ("schema=\"" ++ schema ++
    "\"\ndocuments=" ++ documents ++ "\nplugins=[\"\"]\ncache_dir=\"c\"\n" ++ backend).toUTF8)

/-- A project of two patterns and an empty file. -/
def tree (schema documents file : String) : Tree :=
  (configured schema ("\"" ++ documents ++ "\"") "").put ["p", file] (.file "".toUTF8)

/-- The project has a manifest, and the row of the schema points to the schema itself. -/
def tangled : Tree :=
  ((tree "s" "d" "s").put ["p", "c"] .directory).put ["p", "c", "manifest.json"] (.file (
    "\x7b\"graft_version\":\"0.1.0\",\"sources\":\x7b\"s\":\x7b\"ee7c148b999ab686073650fd7281d794\":" ++
      "\x7b\"tsx_rel_path\":\"s\",\"dts_rel_path\":\"s\"\x7d\x7d\x7d\x7d").toUTF8)

/-- The settings of a backend that answers every request with one pair of empty files. -/
def echoing : String :=
  "[backend]\ncommand=\"echo\"\nargs=['\x7b\"outputs\":[\x7b\"tsx\":\"\",\"dts\":\"\"\x7d]\x7d']\n"

/-- A project of a schema, a document and a script with a literal. -/
def project : Tree :=
  (((configured "s" "[\"d.gql\",\"q.ts\"]" echoing).put ["p", "s"] (.file "type Q".toUTF8)).put
    ["p", "d.gql"] (.file "\x7ba\x7d".toUTF8)).put ["p", "q.ts"] (.file "gql(`\x7bb\x7d`)".toUTF8)

/-- How `gen` ends, and a command after it, when the backend is not there. -/
def ends (t : Tree) (c : Command) : Finish × Finish :=
  (((run (environment missing) plain .generate).run t).1,
    ((run (environment missing) plain c).run ((run (environment missing) plain .generate).run t).2).1)

theorem ends_eq {fin : Finish} (h : (run (environment missing) plain .generate).run t = (fin, t'))
    (c : Command) : (ends t c).1 = fin ∧
      (ends t c).2 = ((run (environment missing) plain c).run t').1 := by
  rw [ends, h]
  exact ⟨rfl, rfl⟩

/-- What is to be known of a project and its contexts. -/
structure Survey where
  root : Path
  schema : List String
  documents : List String
  schemaFiles : List Path
  documentFiles : List Path
  cacheDir : Path
  entrypoint : Path
  silent : Bool
  units : List SourceUnit
  modules : List Path
deriving DecidableEq

/-- The places that a command looks at, when the patterns are names of files. -/
def Survey.places (x : Survey) : List Path :=
  ⟨"/p/graft.toml"⟩ :: (x.schema ++ x.documents).map fun pattern => ⟨"/p"⟩ / ⟨pattern⟩

def survey? (options : Options) (t : Tree) : Option Survey :=
  (answer (loadProject (environment missing) options) t).toOption.bind fun r =>
    (answer (globFiles r.root r.schema) t).toOption.bind fun schemaFiles =>
      (answer (globFiles r.root r.documents) t).toOption.bind fun documentFiles =>
        (answer r.units t).toOption.bind fun units =>
          (r.session.contexts? units t).map fun contexts =>
            ⟨r.root, r.schema, r.documents, schemaFiles, documentFiles, r.cacheDir, r.entrypoint,
              r.silent, units, contexts.map fun c => Artifact.tsx.full c.paths⟩

/-- A survey is one of this project. -/
structure Survey.Of (x : Survey) (options : Options) (r : Config.Resolved) (contexts : List Context)
    (t : Tree) : Prop where
  root : r.root = x.root
  schema : r.schema = x.schema
  documents : r.documents = x.documents
  schemaFiles : answer (globFiles r.root r.schema) t = .ok x.schemaFiles
  documentFiles : answer (globFiles r.root r.documents) t = .ok x.documentFiles
  cacheDir : r.cacheDir = x.cacheDir
  entrypoint : r.entrypoint = x.entrypoint
  silent : r.silent = x.silent
  finds : ∀ launch, Finds (environment launch) options r x.units t
  built : r.session.contexts? x.units t = some contexts
  modules : ∀ c ∈ contexts, Artifact.tsx.full c.paths ∈ x.modules

theorem exists_of_survey? {x : Survey} (h : survey? options t = some x) :
    ∃ r contexts, x.Of options r contexts t := by
  obtain ⟨r, hload, h⟩ := Option.bind_eq_some_iff.1 h
  obtain ⟨schemaFiles, hschema, h⟩ := Option.bind_eq_some_iff.1 h
  obtain ⟨documentFiles, hdocuments, h⟩ := Option.bind_eq_some_iff.1 h
  obtain ⟨units, hunits, h⟩ := Option.bind_eq_some_iff.1 h
  obtain ⟨contexts, hcontexts, rfl⟩ := Option.map_eq_some_iff.1 h
  exact ⟨r, contexts, rfl, rfl, rfl, eq_ok_of_toOption hschema, eq_ok_of_toOption hdocuments, rfl, rfl, rfl,
    fun _ => ⟨eq_ok_of_toOption hload, eq_ok_of_toOption hunits⟩, hcontexts,
    fun _ hc => List.mem_map_of_mem hc⟩

/-- A pattern that is the name of a file. -/
def Names (pattern : String) : Prop :=
  Glob.ofPattern? pattern = some ⟨[.name (pattern.toList.map .char)], false⟩ ∧
    (Glob.Part.name (pattern.toList.map .char)).literal? = some pattern.toList ∧
    (Path.mk "/p" / ⟨pattern⟩).under? ⟨"/p"⟩ = some ⟨pattern⟩ ∧ Glob.logical ⟨pattern⟩ = ⟨pattern⟩

instance (pattern : String) : Decidable (Names pattern) :=
  inferInstanceAs (Decidable (_ ∧ _ ∧ _ ∧ _))

theorem Names.eq_of_hits {pattern : String} {g : Glob} {q : Path} (hn : Names pattern)
    (hg : Glob.ofPattern? pattern = some g) (h : Glob.Hits t ⟨"/p"⟩ g q) : q = ⟨"/p"⟩ / ⟨pattern⟩ := by
  obtain ⟨hparts, hliteral, -, -⟩ := hn
  obtain rfl := Option.some.inj (hg.symm.trans hparts)
  rw [h.eq_of_plain rfl hliteral, String.ofList_toList]

theorem Names.eq_of_matches {pattern : String} {p : Path} (hn : Names pattern)
    (h : Glob.Matches t ⟨"/p"⟩ pattern p) : p = ⟨pattern⟩ := by
  obtain ⟨g, q, p', hg, hits, hunder, rfl⟩ := h
  obtain ⟨-, -, hown, hlogical⟩ := id hn
  rw [hn.eq_of_hits hg hits, hown] at hunder
  rw [← Option.some.inj hunder, hlogical]

/-- A tree with a project that is surveyed, whose patterns are names of files that load nothing. -/
structure Surveyed (options : Options) (x : Survey) (t : Tree) : Prop where
  proper : t.Proper
  consulted : consulted (environment missing) options t = [⟨"/p/graft.toml"⟩]
  root : x.root = ⟨"/p"⟩
  names : ∀ pattern ∈ x.schema ++ x.documents, Names pattern
  loads : ∀ pattern ∈ x.documents, ∀ text ∈ (t.readText (⟨"/p"⟩ / ⟨pattern⟩)).toOption,
    ∀ call ∈ ScriptCall.scan text, call matches .gql _
  survey : survey? options t = some x

/-- The survey of the project whose patterns are `s` and `d`. -/
def surveyed : Survey where
  root := ⟨"/p"⟩
  schema := ["s"]
  documents := ["d"]
  schemaFiles := [⟨"s"⟩]
  documentFiles := []
  cacheDir := ⟨"c"⟩
  entrypoint := ⟨"node_modules/@types/graft/index.d.ts"⟩
  silent := false
  units := [⟨⟨"s"⟩, "", .schema⟩]
  modules := [⟨"/p/c/s-ee7c148b999ab686073650fd7281d794.tsx"⟩]

/-- The units of `project`. -/
def projectUnits : List SourceUnit :=
  [⟨⟨"s"⟩, "type Q", .schema⟩, ⟨⟨"d.gql"⟩, "\x7ba\x7d", .document⟩, ⟨⟨"q.ts"⟩, "\x7bb\x7d", .literal⟩]

/-- The survey of `project`. -/
def projectSurvey : Survey where
  root := ⟨"/p"⟩
  schema := ["s"]
  documents := ["d.gql", "q.ts"]
  schemaFiles := [⟨"s"⟩]
  documentFiles := [⟨"d.gql"⟩, ⟨"q.ts"⟩]
  cacheDir := ⟨"c"⟩
  entrypoint := ⟨"node_modules/@types/graft/index.d.ts"⟩
  silent := false
  units := projectUnits
  modules := [⟨"/p/c/s-96fc8bc668beb1030ada2ae878e8a493.tsx"⟩,
    ⟨"/p/c/d.gql-2340c3506d968a6d07c6f2b9e662d086.tsx"⟩,
    ⟨"/p/c/q.ts-995fca55d71401cacb9c882bda74d477.tsx"⟩]

/-- All that is evaluated of the projects here. -/
structure Evaluated : Prop where
  here : (Path.mk "/p").isAbsolute = true
  tangled : Surveyed plain surveyed tangled
  project : Surveyed named projectSurvey project
  asked : ∀ file ∈ ["s", "q.ts"],
    ((Path.mk "/p" / ⟨file⟩).normalize.under? ⟨"/p"⟩).map Path.toSlash = some file
  bare : Sample.project.manifest? (projectSurvey.root / projectSurvey.cacheDir) = none
  entrypoint : (projectSurvey.root / projectSurvey.entrypoint).place ≠
    (temporaryPath (projectSurvey.root / projectSurvey.cacheDir / manifestName)).place
  generated : ((run (environment shell) named .generate).run Sample.project).1 =
      ⟨0, "", "   Generated 3 artifact(s), 0 up to date\n"⟩ ∧
    ∀ p ∈ projectSurvey.places, Sample.project.Same
      ((run (environment shell) named .generate).run Sample.project).2 p
  skipped : ((run (environment missing) plain .generate).run Sample.tangled).1.exit = 0 ∧
    (∀ p ∈ surveyed.places, Sample.tangled.Same
      ((run (environment missing) plain .generate).run Sample.tangled).2 p) ∧
    ∀ p ∈ surveyed.modules,
      ((run (environment missing) plain .generate).run Sample.tangled).2.isFile p = false
  found : ends (tree "c/*" "d" "s") .generate =
    (⟨0, "", "   Generated 0 artifact(s), 0 up to date\n"⟩,
      ⟨1, "", "error: codegen failed for c/manifest.json: failed to start `graft-codegen`: " ++
        "No such file or directory (os error 2)\n"⟩)
  reached : ends (tree "c/../s" "s" "s") (.resolve "s" true) =
    (⟨0, "", "   Generated 0 artifact(s), 0 up to date\n"⟩,
      ⟨1, "", "error: codegen failed for s: failed to start `graft-codegen`: " ++
        "No such file or directory (os error 2)\n"⟩)

-- One theorem for all of them: each evaluation by the kernel waits for those before it.
set_option maxRecDepth 100000 in
theorem evaluated : Evaluated := by
  constructor <;> try decide +kernel
  all_goals constructor <;> decide +kernel

section Settled
variable {x : Survey} (hx : x.Of options r contexts t) (hs : ∀ p ∈ x.places, t.Same t' p)
include hx hs

theorem same_of_mem {pattern : String} (hpattern : pattern ∈ r.schema ++ r.documents) :
    t.Same t' (⟨"/p"⟩ / ⟨pattern⟩) := by
  rw [hx.schema, hx.documents] at hpattern
  exact hs _ (List.mem_cons_of_mem _ (List.mem_map_of_mem hpattern))

/-- Nothing has changed for a project if its configuration and the files of its patterns have not. -/
theorem settled (ht : Surveyed options x t) {launch : Launcher} :
    Settled (environment launch) options r t t' := by
  have hroot : r.root = ⟨"/p"⟩ := hx.root.trans ht.root
  have hnames : ∀ {pattern}, pattern ∈ r.schema ++ r.documents → Names pattern := by
    rw [hx.schema, hx.documents]
    exact fun h => ht.names _ h
  have hreached : ∀ {u q}, u = t ∨ u = t' → r.Reached u q → t.Same t' q := by
    intro u q hu h
    cases h with
    | found hpattern hg hits hunder =>
      rw [hroot] at hits
      rw [(hnames hpattern).eq_of_hits hg hits]
      exact same_of_mem hx hs hpattern
    | file hpattern hmatches =>
      rw [hroot] at hmatches ⊢
      rw [(hnames hpattern).eq_of_matches hmatches]
      exact same_of_mem hx hs hpattern
    | @loaded pattern text argument p hpattern hmatches hkind htext hcall =>
      -- the same text on both trees, and it loads nothing
      have hmem : pattern ∈ r.schema ++ r.documents := List.mem_append_right _ hpattern
      rw [hroot] at hmatches htext
      rw [(hnames hmem).eq_of_matches hmatches] at htext
      have htext : t.readText (⟨"/p"⟩ / ⟨pattern⟩) = .ok text := by
        rcases hu with rfl | rfl
        · exact htext
        · rwa [(same_of_mem hx hs hmem).readText] at htext
      have hload := ht.loads pattern (hx.documents ▸ hpattern) text (by rw [htext]; rfl) _ hcall
      cases hload
  refine ⟨fun p hp => ?_, fun q hq => hq.elim (hreached (.inl rfl)) (hreached (.inr rfl))⟩
  have hp : p ∈ consulted (environment missing) options t := hp
  rw [ht.consulted] at hp
  exact hs p (List.mem_cons.2 (.inl (List.mem_singleton.1 hp)))

end Settled

/-- The first run generates a pair of files for each unit, and nothing else changes. -/
theorem exists_generates : ∃ r contexts t', projectSurvey.Of named r contexts project ∧
    Generates (environment shell) named r projectUnits contexts project t' ∧
    (run (environment shell) named .generate).run project =
      (⟨0, "", "   Generated 3 artifact(s), 0 up to date\n"⟩, t') ∧
    (environment shell).launch.KeepsFiles ∧ r.session.Untangled project contexts ∧
    Settled (environment shell) named r project t' := by
  obtain ⟨r, contexts, hx⟩ := exists_of_survey? evaluated.project.survey
  obtain ⟨hfin, hsame⟩ := evaluated.generated
  obtain ⟨fin, t', hrun⟩ : ∃ fin t', (run (environment shell) named .generate).run project =
    (fin, t') := ⟨_, _, (Prod.eta _).symm⟩
  rw [hrun] at hfin hsame
  obtain rfl : fin = _ := hfin
  refine ⟨r, contexts, t', hx,
    ⟨evaluated.here, evaluated.project.proper, hx.finds _, hx.built, _, rfl, hrun⟩, hrun,
    Shell.keepsFiles_launch _, ?_, settled hx hsame evaluated.project⟩
  have hcache : r.session.cache.dir = projectSurvey.root / projectSurvey.cacheDir := by
    rw [← hx.root, ← hx.cacheDir]
    rfl
  refine Session.untangled_of_manifest? rfl ?_ fun e he => ?_
  · rw [hcache]
    exact evaluated.bare
  · obtain rfl : r.entrypoint = e := Option.some.inj he
    rw [hcache, hx.entrypoint]
    show (r.root / _).place ≠ _
    rw [hx.root]
    exact evaluated.entrypoint

theorem exit_conclude_of_error {say : List Context → Summary → Finish} {e : RunError}
    {result : (Except RunError (List Context) × Session) × Tree} (h : result.1.1 = .error e) :
    (conclude say result).1.exit = 1 := by
  obtain ⟨⟨outcome, s⟩, t'⟩ := result
  obtain rfl : outcome = .error e := h
  rfl

theorem backendOf_missing (r : Config.Resolved) : backendOf (environment missing) r =
    .ofFunction fun _ =>
      .error (.plain s!"failed to start `{r.backend.command}`: {FileError.notFound.message}") := rfl

/-- The first run believes the row and generates nothing; the next session of the project has to. -/
theorem exists_tangled : ∃ r contexts t', surveyed.Of plain r contexts tangled ∧
    Generates (environment missing) plain r surveyed.units contexts tangled t' ∧
    Settled (environment missing) plain r tangled t' ∧
    ∀ scope, ∃ source d, ((Session.run (backendOf (environment missing) r) scope
      surveyed.units r.session).run t').1.1 = .error (.refused source d) := by
  obtain ⟨r, contexts, hx⟩ := exists_of_survey? evaluated.tangled.survey
  obtain ⟨hexit, hsame, hgone⟩ := evaluated.skipped
  obtain ⟨fin, t', hrun⟩ : ∃ fin t', (run (environment missing) plain .generate).run tangled =
    (fin, t') := ⟨_, _, (Prod.eta _).symm⟩
  rw [hrun] at hexit hsame hgone
  have h : Generates (environment missing) plain r surveyed.units contexts tangled t' :=
    ⟨evaluated.here, evaluated.tangled.proper, hx.finds _, hx.built, fin, hexit, hrun⟩
  refine ⟨r, contexts, t', hx, h, settled hx hsame evaluated.tangled, fun scope => ?_⟩
  obtain ⟨again, hagain, hunit, -⟩ := h.contexts_again
  obtain ⟨c, rfl⟩ : ∃ c, again = [c] := List.length_eq_one_iff.1 (by rw [← List.length_map, hunit]; rfl)
  rw [backendOf_missing]
  exact h.refused (fun _ => ⟨_, rfl⟩) hagain (List.mem_singleton_self c) fun d hd _ _ =>
    ⟨.tsx, hgone _ (hx.modules d hd)⟩

end Sample

open Sample

/-- A project with a schema, a document and a script, whose configuration is named on the command line, is
generated once, and then all is up to date. -/
theorem generate_again_sample : ∃ r contexts t',
    Generates (environment shell) named r projectUnits contexts project t' ∧
    (run (environment shell) named .generate).run project =
      (⟨0, "", "   Generated 3 artifact(s), 0 up to date\n"⟩, t') ∧
    Settled (environment shell) named r project t' ∧
    (environment shell).launch.KeepsFiles ∧ r.session.Untangled project contexts ∧
    ∃ t'', t'.Alike t'' ∧ ∀ launch, (run (environment launch) named .generate).run t' =
      (⟨0, "", "   Generated 0 artifact(s), 3 up to date\n"⟩, t'') := by
  obtain ⟨r, contexts, t', hx, h, hrun, hlaunch, huntangled, hs⟩ := exists_generates
  obtain ⟨hagain, hplace, hidle⟩ := generate_again h
  obtain ⟨t'', halike, hsecond⟩ := hidle (hagain hs) (hplace hlaunch huntangled)
  refine ⟨r, contexts, t', h, hrun, hs, hlaunch, huntangled, t'', halike, fun launch => ?_⟩
  have hlast := hsecond launch
  rw [hx.silent] at hlast
  exact hlast

/-- A first run may write what the schema pattern asks for, and the next one generates it; or it may believe
a row that points elsewhere, and then the next one has no artifacts. Neither first run asks the backend,
and both second runs fail for want of one. -/
theorem generate_disturbed :
    ends (tree "c/*" "d" "s") .generate = (⟨0, "", "   Generated 0 artifact(s), 0 up to date\n"⟩,
      ⟨1, "", "error: codegen failed for c/manifest.json: failed to start `graft-codegen`: " ++
        "No such file or directory (os error 2)\n"⟩) ∧
    (ends tangled .generate).1.exit = 0 ∧ (ends tangled .generate).2.exit = 1 := by
  refine ⟨evaluated.found, ?_⟩
  obtain ⟨r, contexts, t', -, h, hs, hrefused⟩ := exists_tangled
  obtain ⟨fin, hexit, hrun⟩ := h.succeeds
  obtain ⟨source, d, herror⟩ := hrefused .project
  have hfinds := h.finds_again hs
  obtain ⟨hfirst, hsecond⟩ := ends_eq hrun .generate
  rw [hfirst, hsecond, run_generate hfinds.loaded hfinds.discovered]
  exact ⟨hexit, exit_conclude_of_error herror⟩

end CommandLine

end GqlArtifacts
