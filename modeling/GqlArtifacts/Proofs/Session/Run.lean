import GqlArtifacts.Proofs.Cache.Outcome
import GqlArtifacts.Proofs.Context
import GqlArtifacts.Proofs.Session.Commit
import GqlArtifacts.Proofs.Session.Generate

/-!
# What a run does

`Completed` says everything that a successful run has done, tree by tree, and `completed_of_run` that
there is no other way for a run to succeed. With a backend that touches no files a run that fails for
another reason than its file operations has changed nothing (`eq_of_failed`). A run makes no call but
those for its requests (`run_congr`).
-/

namespace GqlArtifacts.Session

open Files CacheM

variable {backend : Backend} {scope : Scope} {units : List SourceUnit} {s s' : Session}
  {t t' : Tree} {contexts : List Context} {outputs : List (Context × Output)}

theorem run_eq (backend : Backend) (scope : Scope) (units : List SourceUnit) (s : Session)
    (t : Tree) : (Session.run backend scope units s).run t =
      match exec (runCache backend s.settings scope units) s.cache t with
      | ((.error e, cache), t') => ((.error e, { s with cache }), t')
      | ((.ok (contexts, summary), cache), t') =>
        ((.ok contexts, { s with cache, summary }), t') := by
  have hexec : ((runCache backend s.settings scope units).run s.cache).run t =
    exec (runCache backend s.settings scope units) s.cache t := rfl
  rw [Session.run, Program.run_bind, hexec]
  obtain ⟨⟨r, cache⟩, t'⟩ := exec (runCache backend s.settings scope units) s.cache t
  cases r <;> rfl

/-- The contexts that a run builds, when it finds a schema. -/
def contexts? (s : Session) (units : List SourceUnit) (t : Tree) : Option (List Context) :=
  Context.batch? s.settings.layout (s.cache.loaded t).manifest s.settings.configHash units

theorem lastContext?_among (m : Manifest) (contexts : List Context) (p : Path) (k : ContentHash) :
    lastContext? (contexts.map (Context.among m)) p k = (lastContext? contexts p k).map (Context.among m) := by
  rw [lastContext?, ← List.map_reverse, List.find?_map]
  rfl

/-- What follows once the outputs are there. -/
def publish (settings : Settings) (scope : Scope) (contexts : List Context)
    (outputs : List (Context × Output)) : RunM (List Context × Summary) := do
  writeOutputs outputs
  let (pruned, removed) ← commit settings contexts scope outputs.length
  return (contexts, ⟨outputs.length, contexts.length - outputs.length, pruned, removed⟩)

theorem exec_runCache (backend : Backend) (s : Session) (scope : Scope) (units : List SourceUnit)
    (t : Tree) : exec (runCache backend s.settings scope units) s.cache t =
      match s.contexts? units t with
      | none => ((.error .missingSchema, s.cache.loaded t), t)
      | some contexts => exec (do
          let outputs ← generate backend s.settings (schemaText units)
            (staleGroups contexts).toList
          publish s.settings scope contexts outputs) (s.cache.loaded t) t := by
  rw [runCache, exec_bind, exec_get]
  dsimp only
  rw [exec_bind, exec_files, Cache.run_load]
  dsimp only
  rw [exec_bind, exec_set]
  dsimp only
  rw [exec_bind, exec_files, Context.run_ofUnits?, contexts?]
  cases Context.batch? s.settings.layout (s.cache.loaded t).manifest s.settings.configHash units <;>
    rfl

/-! ### Runs that succeed -/

theorem exec_writeOutputs_eq_ok {c c' : Cache} {u : Unit}
    (h : exec (writeOutputs outputs) c t = ((.ok u, c'), t')) : c' = c := by
  induction outputs generalizing c t with
  | nil => cases h; rfl
  | cons x outputs ih =>
    rw [writeOutputs] at h
    obtain ⟨_, c₁, t₁, h₁, h₂⟩ := exec_bind_eq_ok.1 h
    obtain ⟨-, hc₁⟩ := exec_attempt_eq_ok.1 h₁
    obtain ⟨_, c₂, t₂, h₃, h₄⟩ := exec_bind_eq_ok.1 h₂
    obtain ⟨-, hc₂⟩ := exec_attempt_eq_ok.1 h₃
    rw [ih h₄, hc₂, hc₁]

/-- A run that succeeded: the backend left the tree `t₁`, the artifacts were then written (`t₂`),
old rows dropped (`t₃`), the entrypoint brought up to date (`t₄`) and the manifest saved. -/
structure Completed (backend : Backend) (scope : Scope) (units : List SourceUnit) (s s' : Session)
    (contexts : List Context) (outputs : List (Context × Output)) (t t₁ t₂ t₃ t₄ t' : Tree) :
    Prop where
  batch : s.contexts? units t = some contexts
  generated : exec (generate backend s.settings (schemaText units) (staleGroups contexts).toList)
    (s.cache.loaded t) t = ((.ok outputs, s.cache.loaded t), t₁)
  written : exec (writeOutputs outputs) (s.cache.loaded t) t₁ = ((.ok (), s.cache.loaded t), t₂)
  shrunk : Cache.Shrunk { s.cache.loaded t with
    manifest := recorded contexts (s.cache.loaded t).manifest } s'.cache t₂ t₃ (keeps scope contexts)
  entered : Entered s.cache.root s'.cache.manifest s.settings.entrypoint?
    (s'.summary.generated + s'.summary.pruned + s'.summary.removedSources) t₃ t₄
  saved : t₄.Wrote t' (s.cache.dir / manifestName) s'.cache.manifest.render.toUTF8
  settings : s'.settings = s.settings
  summary : s'.summary = ⟨outputs.length, contexts.length - outputs.length,
    superseded scope contexts (s.cache.loaded t).manifest,
    forgotten scope contexts (s.cache.loaded t).manifest⟩

theorem completed_of_run
    (h : (Session.run backend scope units s).run t = ((.ok contexts, s'), t')) :
    ∃ outputs t₁ t₂ t₃ t₄,
      Completed backend scope units s s' contexts outputs t t₁ t₂ t₃ t₄ t' := by
  rw [run_eq, exec_runCache] at h
  cases hb : s.contexts? units t with
  | none => rw [hb] at h; cases h
  | some cs =>
    rw [hb] at h
    dsimp only at h
    generalize hx : exec (do
      let outputs ← generate backend s.settings (schemaText units) (staleGroups cs).toList
      publish s.settings scope cs outputs) (s.cache.loaded t) t = x at h
    obtain ⟨⟨r, c'⟩, t₅⟩ := x
    cases r with
    | error e => cases h
    | ok r =>
      obtain ⟨outputs, c₁, t₁, hgen, h₁⟩ := exec_bind_eq_ok.1 hx
      obtain ⟨rfl, -⟩ := exec_generate_eq_ok hgen
      rw [publish] at h₁
      obtain ⟨_, c₂, t₂, hwrite, h₂⟩ := exec_bind_eq_ok.1 h₁
      obtain rfl := exec_writeOutputs_eq_ok hwrite
      obtain ⟨⟨pruned, removed⟩, c₃, t₃, hcommit, h₃⟩ := exec_bind_eq_ok.1 h₂
      cases h₃
      cases h
      obtain ⟨t₃, t₄, hshrunk, hentered, hsaved, hpruned, hremoved⟩ :=
        exec_commit_eq_ok Cache.full_loaded hcommit
      exact ⟨outputs, t₁, t₂, t₃, t₄, hb, hgen, hwrite, hshrunk, hentered, hsaved, rfl,
        by rw [← hpruned, ← hremoved]⟩

/-! ### Backends that touch no files -/

theorem exec_runCache_ofFunction (f : Request → Answer) (s : Session) (scope : Scope)
    (units : List SourceUnit) (t : Tree) :
    exec (runCache (.ofFunction f) s.settings scope units) s.cache t =
      match s.contexts? units t with
      | none => ((.error .missingSchema, s.cache.loaded t), t)
      | some contexts =>
        match answers f s.settings (schemaText units) (staleGroups contexts).toList with
        | .error e => ((.error e, s.cache.loaded t), t)
        | .ok outputs =>
          exec (publish s.settings scope contexts outputs) (s.cache.loaded t) t := by
  rw [exec_runCache]
  cases s.contexts? units t with
  | none => rfl
  | some contexts =>
    dsimp only
    rw [exec_bind, exec_generate_ofFunction]
    cases answers f s.settings (schemaText units) (staleGroups contexts).toList <;> rfl

/-- The failures of operations on files. -/
def OnFiles (e : RunError) : Prop := ∃ failure, e = .files failure

theorem onFiles (failure : FileFailure) : OnFiles (.files failure) := ⟨failure, rfl⟩

theorem failsOnly_writeOutputs (outputs : List (Context × Output)) :
    FailsOnly OnFiles (writeOutputs outputs) := by
  induction outputs with
  | nil => exact failsOnly_pure ()
  | cons x outputs ih =>
    exact (failsOnly_attempt onFiles _).bind fun _ => (failsOnly_attempt onFiles _).bind fun _ => ih

theorem failsOnly_pruneAll (l : List (Path × List ContentHash)) :
    FailsOnly OnFiles (pruneAll l) := by
  induction l with
  | nil => exact failsOnly_pure 0
  | cons e l ih =>
    exact (failsOnly_adapt onFiles _).bind fun _ => ih.bind fun _ => failsOnly_pure _

theorem failsOnly_finish (settings : Settings) (generated pruned removed : Nat) :
    FailsOnly OnFiles (finish settings generated pruned removed) := by
  have hsave : FailsOnly OnFiles (do
      CacheM.attempt .files (← get).save; return (pruned, removed) : RunM (Nat × Nat)) :=
    failsOnly_get.bind fun _ => (failsOnly_attempt onFiles _).bind fun _ => failsOnly_pure _
  have hentry : ∀ (current : Bool) (write : Program (Except FileFailure Unit)),
      FailsOnly OnFiles (if current = true then (do
          CacheM.attempt .files (← get).save; return (pruned, removed) : RunM (Nat × Nat))
        else do
          CacheM.attempt .files write
          CacheM.attempt .files (← get).save
          return (pruned, removed)) := by
    intro current write
    split
    · exact hsave
    · exact (failsOnly_attempt onFiles _).bind fun _ => hsave
  rw [finish]
  split
  · exact hsave
  · refine failsOnly_get.bind fun cache => ?_
    dsimp only
    split
    · exact (failsOnly_pure false).bind fun current => hentry current _
    · exact (failsOnly_files _).bind fun current => hentry current _

theorem failsOnly_commit (settings : Settings) (contexts : List Context) (scope : Scope)
    (generated : Nat) : FailsOnly OnFiles (commit settings contexts scope generated) := by
  rw [commit_eq]
  refine (failsOnly_modify _).bind fun _ => (failsOnly_pruneAll _).bind fun pruned => ?_
  cases scope with
  | partly listed => exact failsOnly_finish settings generated pruned 0
  | project =>
    exact (failsOnly_adapt onFiles _).bind fun removed =>
      failsOnly_finish settings generated pruned removed

theorem failsOnly_publish (settings : Settings) (scope : Scope) (contexts : List Context)
    (outputs : List (Context × Output)) :
    FailsOnly OnFiles (publish settings scope contexts outputs) :=
  (failsOnly_writeOutputs outputs).bind fun _ =>
    (failsOnly_commit settings contexts scope _).bind fun _ => failsOnly_pure _

theorem onFiles_of_publish {settings : Settings} {c c' : Cache} {e : RunError}
    (h : exec (publish settings scope contexts outputs) c t = ((.error e, c'), t')) : OnFiles e := by
  have houtcome := outcome_exec (publish settings scope contexts outputs) c t
  rw [h] at houtcome
  exact failsOnly_publish _ _ _ _ _ _ _ _ _ houtcome

/-- Once the backend has answered everything, a run fails for nothing but its file operations. -/
theorem onFiles_of_answers {f : Request → Answer} {e : RunError}
    (hb : s.contexts? units t = some contexts)
    (ha : answers f s.settings (schemaText units) (staleGroups contexts).toList = .ok outputs)
    (h : (Session.run (.ofFunction f) scope units s).run t = ((.error e, s'), t')) : OnFiles e := by
  rw [run_eq, exec_runCache_ofFunction, hb] at h
  dsimp only at h
  rw [ha] at h
  dsimp only at h
  generalize hx : exec (publish s.settings scope contexts outputs) (s.cache.loaded t) t = x at h
  obtain ⟨⟨r, c'⟩, t₁⟩ := x
  cases r with
  | ok r => cases h
  | error e' =>
    cases h
    exact onFiles_of_publish hx

/-- A run that fails before its first write changes no file, and leaves what it has loaded. -/
theorem eq_of_failed {f : Request → Answer} {e : RunError}
    (h : (Session.run (.ofFunction f) scope units s).run t = ((.error e, s'), t'))
    (he : ¬OnFiles e) : t' = t ∧ s' = { s with cache := s.cache.loaded t } := by
  have hrun := h
  rw [run_eq, exec_runCache_ofFunction] at h
  cases hb : s.contexts? units t with
  | none => rw [hb] at h; cases h; exact ⟨rfl, rfl⟩
  | some contexts =>
    rw [hb] at h
    dsimp only at h
    cases ha : answers f s.settings (schemaText units) (staleGroups contexts).toList with
    | error e' => rw [ha] at h; cases h; exact ⟨rfl, rfl⟩
    | ok outputs => exact absurd (onFiles_of_answers hb ha hrun) he

/-- Nothing gets past a backend that refuses everything, unless all is skipped. -/
theorem run_refused {f : Request → Answer} (hf : ∀ r, ∃ d, f r = .error d)
    (hb : s.contexts? units t = some contexts) {c : Context} (hc : c ∈ contexts)
    (hskip : c.skip = false) :
    ∃ source d, ((Session.run (.ofFunction f) scope units s).run t).1.1 =
      .error (.refused source d) := by
  obtain ⟨e, he, -⟩ := exists_mem_staleGroups hc hskip
  have hrefused : ∃ source d, answers f s.settings (schemaText units) (staleGroups contexts).toList =
      .error (.refused source d) := answers_refused hf (List.ne_nil_of_mem he)
  obtain ⟨source, d, hanswers⟩ := hrefused
  refine ⟨source, d, ?_⟩
  rw [run_eq, exec_runCache_ofFunction, hb]
  simp only [hanswers]

/-- No call but those for the requests of the run is made, whatever other calls would do to the files. -/
theorem run_congr {backend backend' : Backend} (h : ∀ contexts, s.contexts? units t = some contexts →
      ∀ r ∈ requests s.settings units contexts, backend r = backend' r) :
    (Session.run backend scope units s).run t = (Session.run backend' scope units s).run t := by
  rw [run_eq, run_eq, exec_runCache, exec_runCache]
  cases hb : s.contexts? units t with
  | none => rfl
  | some contexts =>
    dsimp only
    rw [generate_congr fun e he => h contexts hb _ (mem_requests_iff.2 ⟨e, he, rfl⟩)]

end GqlArtifacts.Session
