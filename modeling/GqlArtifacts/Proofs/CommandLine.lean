import GqlArtifacts.CommandLine.Run
import GqlArtifacts.Proofs.Config.Units
import GqlArtifacts.Proofs.Discovery.Single

/-!
# Commands step by step

`gen` and `resolve` locate the project and discover units, which only looks, and then run a session
(`run_generate`, `run_resolve`). The configuration is the same in two trees when these agree on the
paths that it is looked for at (`consulted`, `answer_loadProject_same`).
-/

namespace GqlArtifacts

open Files Program

namespace CommandLine

variable {env : Environment} {options : Options} {r : Config.Resolved} {units : List SourceUnit}
  {t t' : Tree} {dirs : List Path} {here f : Path} {file : String} {fin : Finish}

/-! ### Locating the project -/

theorem looks_firstWithConfig (here : Path) (dirs : List Path) :
    (firstWithConfig here dirs).Looks := by
  induction dirs with
  | nil => exact .pure _
  | cons dir dirs ih =>
    refine (looks_exists? _).bind fun b => ?_
    split
    · exact .pure _
    · exact ih

theorem run_firstWithConfig (here : Path) (dirs : List Path) :
    ((firstWithConfig here dirs).run t).1 =
      dirs.find? fun dir => t.holds ((dir / ⟨configName⟩).startingAt here) := by
  induction dirs with
  | nil => rfl
  | cons dir dirs ih =>
    rw [firstWithConfig, run_bind_of_looks (looks_exists? _), run_exists?, List.find?_cons]
    cases t.holds ((dir / ⟨configName⟩).startingAt here) with
    | true => rfl
    | false => exact ih

theorem reads_configPath (env : Environment) (options : Options) :
    Reads (configPath env options) := by
  rw [configPath]
  split
  · refine (Reads.lift (looks_isDirectory _)).bind fun b => ?_
    split <;> exact .pure _
  · refine (Reads.lift (looks_firstWithConfig _ _)).bind fun dir? => ?_
    split
    · exact .pure _
    · exact .throw _

/-- What a configuration file comes to. -/
def readConfig (env : Environment) (file : Path) : CommandM Config.Resolved := do
  match ← liftM (Program.readText (env.full file)) with
  | .error e => throw (.config file (.unreadable e))
  | .ok text =>
    match Config.load env.lookup text with
    | .error e => throw (.config file e)
    | .ok loaded => return loaded.resolve (env.here / (file.parent?.getD ⟨"."⟩))

theorem loadProject_eq (env : Environment) (options : Options) :
    loadProject env options = configPath env options >>= readConfig env := rfl

theorem reads_readConfig (env : Environment) (file : Path) : Reads (readConfig env file) := by
  refine (Reads.lift (looks_readText _)).bind fun content => ?_
  split
  · exact .throw _
  · split
    · exact .throw _
    · exact .pure _

theorem reads_loadProject (env : Environment) (options : Options) :
    Reads (loadProject env options) :=
  (reads_configPath env options).bind fun file => reads_readConfig env file

/-- The project of a working directory with an absolute path is where it should be. -/
theorem inside_of_loadProject (hhere : env.here.isAbsolute = true)
    (h : answer (loadProject env options) t = .ok r) : r.Inside := by
  rw [loadProject_eq, answer_bind (reads_configPath _ _)] at h
  obtain ⟨file, -, h⟩ := bind_eq_ok.1 h
  rw [readConfig, answer_bind_lift (looks_readText _)] at h
  split at h
  · cases h
  · split at h
    · cases h
    · next hload =>
      obtain rfl := Except.ok.inj h
      exact Config.resolve_inside hload (Path.isAbsolute_join_left hhere)

/-- The files that are looked for one after the other, up to the first that is there. -/
def tried (here : Path) (t : Tree) : List Path → List Path
  | [] => []
  | dir :: dirs =>
    (dir / ⟨configName⟩).startingAt here ::
      if t.holds ((dir / ⟨configName⟩).startingAt here) then [] else tried here t dirs

/-- The paths that locating and reading the configuration looks at. -/
def consulted (env : Environment) (options : Options) (t : Tree) : List Path :=
  match options.config? with
  | some config =>
    env.full ⟨config⟩ ::
      if t.isFolder (env.full ⟨config⟩) then [env.full (⟨config⟩ / ⟨configName⟩)] else []
  | none => tried env.here t env.here.ancestors

theorem find?_same (h : ∀ p ∈ tried here t dirs, t.Same t' p) :
    dirs.find? (fun dir => t'.holds ((dir / ⟨configName⟩).startingAt here)) =
      dirs.find? (fun dir => t.holds ((dir / ⟨configName⟩).startingAt here)) := by
  induction dirs with
  | nil => rw [List.find?_nil, List.find?_nil]
  | cons dir dirs ih =>
    have hhere := (h _ (List.mem_cons_self ..)).holds
    rw [List.find?_cons, List.find?_cons, hhere]
    cases hholds : t.holds ((dir / ⟨configName⟩).startingAt here) with
    | true => rfl
    | false =>
      refine ih fun p hp => h p (List.mem_cons_of_mem _ ?_)
      rwa [hholds]

theorem mem_tried {dir : Path}
    (h : dirs.find? (fun dir => t.holds ((dir / ⟨configName⟩).startingAt here)) = some dir) :
    (dir / ⟨configName⟩).startingAt here ∈ tried here t dirs := by
  induction dirs with
  | nil => cases h
  | cons d dirs ih =>
    rw [List.find?_cons] at h
    rw [tried]
    cases hholds : t.holds ((d / ⟨configName⟩).startingAt here) with
    | true =>
      rw [hholds] at h
      obtain rfl := Option.some.inj h
      exact List.mem_cons_self ..
    | false =>
      rw [hholds] at h
      exact List.mem_cons_of_mem _ (ih h)

theorem answer_configPath_same (h : ∀ p ∈ consulted env options t, t.Same t' p) :
    answer (configPath env options) t' = answer (configPath env options) t ∧
      ∀ file, answer (configPath env options) t = .ok file → env.full file ∈ consulted env options t := by
  unfold configPath consulted at *
  cases hconfig : options.config? with
  | some config =>
    rw [hconfig] at h
    dsimp only at h ⊢
    have hfolder := (h (env.full ⟨config⟩) (List.mem_cons_self ..)).isFolder
    rw [answer_bind_lift (looks_isDirectory _), answer_bind_lift (looks_isDirectory _),
      run_isDirectory, run_isDirectory, hfolder]
    refine ⟨by split <;> rfl, fun file hfile => ?_⟩
    cases hdir : t.isFolder (env.full ⟨config⟩) with
    | true =>
      rw [hdir] at hfile
      obtain rfl := Except.ok.inj hfile
      exact List.mem_cons_of_mem _ (List.mem_cons_self ..)
    | false =>
      rw [hdir] at hfile
      obtain rfl := Except.ok.inj hfile
      exact List.mem_cons_self ..
  | none =>
    rw [hconfig] at h
    dsimp only at h ⊢
    rw [answer_bind_lift (looks_firstWithConfig _ _), answer_bind_lift (looks_firstWithConfig _ _),
      run_firstWithConfig, run_firstWithConfig, find?_same h]
    refine ⟨by split <;> rfl, fun file hfile => ?_⟩
    cases hfind : env.here.ancestors.find? fun dir =>
        t.holds ((dir / ⟨configName⟩).startingAt env.here) with
    | none => rw [hfind] at hfile; cases hfile
    | some dir =>
      rw [hfind] at hfile
      obtain rfl := Except.ok.inj hfile
      exact mem_tried hfind

/-- The configuration depends on the paths that it is looked for at. -/
theorem answer_loadProject_same (h : ∀ p ∈ consulted env options t, t.Same t' p) :
    answer (loadProject env options) t' = answer (loadProject env options) t := by
  obtain ⟨hpath, hmem⟩ := answer_configPath_same h
  rw [loadProject_eq, answer_bind (reads_configPath _ _), answer_bind (reads_configPath _ _), hpath]
  cases hfile : answer (configPath env options) t with
  | error e => rfl
  | ok file =>
    show answer (readConfig env file) t' = answer (readConfig env file) t
    rw [readConfig, answer_bind_lift (looks_readText _), answer_bind_lift (looks_readText _),
      run_readText, run_readText, (h _ (hmem file hfile)).readText]
    dsimp only
    cases t.readText (env.full file) with
    | error e => rfl
    | ok text =>
      dsimp only
      cases Config.load env.lookup text <;> rfl

/-! ### Commands -/

/-- How a command ends that has come to a result. -/
def close (result : Except Error Finish × Tree) : Finish × Tree :=
  match result with
  | (.ok f, t) => (f, t)
  | (.error e, t) => (⟨1, "", s!"error: {e.message}\n"⟩, t)

/-- How a command ends when its session does. -/
def conclude (say : List Context → Summary → Finish)
    (result : (Except RunError (List Context) × Session) × Tree) : Finish × Tree :=
  match result with
  | ((.ok contexts, s), t) => (say contexts s.summary, t)
  | ((.error e, _), t) => close (.error (.run e), t)

theorem run_eq (env : Environment) (options : Options) (c : Command) (t : Tree) :
    (run env options c).run t = close ((ExceptT.run (perform env options c)).run t) := by
  rw [run, Program.run_bind]
  obtain ⟨result, t'⟩ := (ExceptT.run (perform env options c)).run t
  cases result <;> rfl

theorem run_runSession {scope : Scope} (say : List Context → Summary → Finish) :
    close ((ExceptT.run (runSession env r scope units >>= fun x => pure (say x.1 x.2))).run t) =
      conclude say ((Session.run (backendOf env r) scope units r.session).run t) := by
  rw [ExceptT.run_bind, Program.run_bind, runSession, ExceptT.run_bind, Program.run_bind, run_lift]
  obtain ⟨⟨result, s⟩, t'⟩ := (Session.run (backendOf env r) scope units r.session).run t
  cases result <;> rfl

/-- What `gen` does once it knows what there is to generate. -/
theorem run_generate (hload : answer (loadProject env options) t = .ok r)
    (hunits : answer r.units t = .ok units) : (run env options .generate).run t =
      conclude (fun _ summary => ⟨0, "", if options.quiet || r.silent then "" else summaryLine summary⟩)
        ((Session.run (backendOf env r) .project units r.session).run t) := by
  rw [run_eq, ← run_runSession, perform, generate, (reads_loadProject env options).run_bind, hload]
  dsimp only
  rw [discover, (Reads.adapt r.reads_units).run_bind, answer_adapt, hunits]
  dsimp only [Except.mapError]

/-- What `resolve` tells of a session. -/
def sayOwn (f : Path) (compact : Bool) (contexts : List Context) : Finish :=
  let own := Json.array ((contexts.filter fun c => c.path.same f).map Context.toJson)
  ⟨0, (if compact then own.compact else own.pretty) ++ "\n", ""⟩

/-- What `resolve` does once it knows what there is to generate. -/
theorem run_resolve {compact : Bool} (hload : answer (loadProject env options) t = .ok r)
    (hfile : answer (projectPath env r file) t = .ok f) (hunits : answer (r.unitsOf f) t = .ok units) :
    (run env options (.resolve file compact)).run t =
      conclude (fun contexts _ => sayOwn f compact contexts)
        ((Session.run (backendOf env r) (.partly [f]) units r.session).run t) := by
  have hpath : Reads (projectPath env r file) := by
    rw [projectPath]
    split
    · exact .pure _
    · exact .throw _
  rw [run_eq, ← run_runSession, perform, resolve, (reads_loadProject env options).run_bind, hload]
  dsimp only
  rw [hpath.run_bind, hfile]
  dsimp only
  rw [discover, (Reads.adapt (r.reads_unitsOf f)).run_bind, answer_adapt, hunits]
  dsimp only [Except.mapError, sayOwn]

theorem exists_of_conclude {say : List Context → Summary → Finish}
    {result : (Except RunError (List Context) × Session) × Tree} (h : conclude say result = (fin, t'))
    (hexit : fin.exit = 0) : ∃ contexts s, result = ((.ok contexts, s), t') ∧
      fin = say contexts s.summary := by
  obtain ⟨⟨outcome, s⟩, t₁⟩ := result
  cases outcome with
  | error e =>
    cases h
    cases hexit
  | ok contexts =>
    cases h
    exact ⟨contexts, s, rfl, rfl⟩

end CommandLine

end GqlArtifacts
