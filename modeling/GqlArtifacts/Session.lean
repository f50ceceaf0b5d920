import GqlArtifacts.Backend
import GqlArtifacts.Context
import GqlArtifacts.Entrypoint

/-!
# Runs

A `Session` generates the artifacts of batches of source units, one run after the other. A run loads
the cache, builds the contexts of its units, asks the backend for everything that is not fresh,
writes the artifacts, and then brings the cache up to date: it records all contexts, prunes the
hashes that its sources no longer have, writes the entrypoint anew if need be, and saves the
manifest last. A backend call always comes before the first write, so a refused source leaves all
files as they were.
-/

namespace GqlArtifacts

open Files

/-- What stays the same from run to run. -/
structure Settings where
  layout : Layout
  configHash : ContentHash
  plugins : List String
  options : Json
  /-- The entrypoint relative to the root, where one is wanted. -/
  entrypoint? : Option Path
deriving Inhabited

/-- What a run did. -/
structure Summary where
  generated : Nat
  skipped : Nat
  pruned : Nat
  removedSources : Nat
deriving DecidableEq, Inhabited

def Summary.zero : Summary := ⟨0, 0, 0, 0⟩

/-- The sources that a run brings up to date: those of its units and the listed ones, or all. -/
inductive Scope where
  | partly (listed : List Path)
  | project
deriving DecidableEq, Inhabited

inductive RunError where
  | files (failure : FileFailure)
  | refused (source : Path) (diagnostic : Diagnostic)
  | outputMismatch (source : Path) (expected actual : Nat)
  | missingSchema
deriving DecidableEq, Inhabited

def RunError.message : RunError → String
  | files f => f.message
  | refused source d => s!"codegen failed for {source}: {d.display}"
  | outputMismatch source expected actual =>
    s!"backend returned {actual} outputs for {expected} documents of {source}"
  | missingSchema =>
    "no schema sources found; documents cannot be generated without a schema"

structure Session where
  settings : Settings
  cache : Cache
  summary : Summary
deriving Inhabited

namespace Session

def new (settings : Settings) (cache : Cache) : Session := ⟨settings, cache, .zero⟩

abbrev RunM := CacheM RunError

/-- The contexts that are not skipped, by source and each time in order. -/
def staleGroups (contexts : List Context) : OrderedMap Path (List Context) Path.compare :=
  let groups : OrderedMap Path (List Context) Path.compare := contexts.foldl
    (fun groups c =>
      if c.skip then groups else groups.insert c.path (c :: (groups.get? c.path).getD []))
    .empty
  groups.map fun _ group => group.reverse

/-- The schema text of a batch. -/
def schemaText (units : List SourceUnit) : String :=
  String.intercalate "\n" ((units.filter SourceUnit.isSchema).map SourceUnit.content)

def request (settings : Settings) (schema : String) (source : Path) (contexts : List Context) :
    Request :=
  ⟨source, schema, contexts.map fun c => ⟨c.unit.kind.text, c.hash, c.unit.content⟩,
    settings.plugins, settings.options⟩

/-- What a run asks the backend for, in path order. -/
def requests (settings : Settings) (units : List SourceUnit) (contexts : List Context) :
    List Request :=
  (staleGroups contexts).toList.map fun (source, group) =>
    request settings (schemaText units) source group

/-- Asks the backend for one group and pairs its outputs with the contexts. -/
def generateGroup (backend : Backend) (settings : Settings) (schema : String) (source : Path)
    (contexts : List Context) : RunM (List (Context × Output)) := do
  match ← CacheM.files (backend (request settings schema source contexts)) with
  | .error d => throw (.refused source d)
  | .ok outputs =>
    if outputs.length = contexts.length then return contexts.zip outputs
    else throw (.outputMismatch source contexts.length outputs.length)

/-- Asks the backend for every group in path order. -/
def generate (backend : Backend) (settings : Settings) (schema : String) :
    List (Path × List Context) → RunM (List (Context × Output))
  | [] => return []
  | (source, contexts) :: rest => do
    let outputs ← generateGroup backend settings schema source contexts
    return outputs ++ (← generate backend settings schema rest)

/-- Writes the artifacts of each output, the module first. -/
def writeOutputs : List (Context × Output) → RunM Unit
  | [] => return ()
  | (c, output) :: rest => do
    CacheM.attempt .files (writeAtomically c.paths.tsxFull output.tsx.toUTF8)
    CacheM.attempt .files (writeAtomically c.paths.dtsFull output.dts.toUTF8)
    writeOutputs rest

/-- The hashes that each source of the run has now. -/
def liveHashes (contexts : List Context) (scope : Scope) :
    OrderedMap Path (List ContentHash) Path.compare :=
  let built := contexts.foldl
    (fun live c => live.insert c.path (c.hash :: (live.get? c.path).getD [])) .empty
  match scope with
  | .project => built
  | .partly listed =>
    listed.foldl (fun live p => live.insert p ((live.get? p).getD [])) built

/-- Prunes source by source and adds up the rows. -/
def pruneAll : List (Path × List ContentHash) → RunM Nat
  | [] => return 0
  | (source, live) :: rest => do
    let n ← CacheM.adapt .files (Cache.prune source live)
    return n + (← pruneAll rest)

/-- Brings the cache and the entrypoint up to date and saves; gives the numbers of pruned rows and
of removed sources. -/
def commit (settings : Settings) (contexts : List Context) (scope : Scope) (generated : Nat) :
    RunM (Nat × Nat) := do
  modify fun cache => contexts.foldl (fun cache c => cache.record c.path c.hash c.row) cache
  let live := liveHashes contexts scope
  let pruned ← pruneAll live.toList
  let removed ←
    match scope with
    | .project => CacheM.adapt .files (Cache.retain live.keys)
    | .partly _ => pure 0
  match settings.entrypoint? with
  | none => pure ()
  | some entrypoint =>
    let cache ← get
    let current ←
      if generated + pruned + removed > 0 then pure false
      else CacheM.files (Program.isFile (cache.root / entrypoint))
    if current then pure ()
    else CacheM.attempt .files (Entrypoint.write cache.root cache.manifest entrypoint)
  CacheM.attempt .files (← get).save
  return (pruned, removed)

/-- One run on the cache: the contexts of the units, in order, and what was done. -/
def runCache (backend : Backend) (settings : Settings) (scope : Scope) (units : List SourceUnit) :
    RunM (List Context × Summary) := do
  let (_, loaded) ← CacheM.files (← get).load
  set loaded
  match ← CacheM.files (Context.ofUnits? settings.layout loaded settings.configHash units) with
  | none => throw .missingSchema
  | some contexts =>
    let outputs ← generate backend settings (schemaText units) (staleGroups contexts).toList
    writeOutputs outputs
    let (pruned, removed) ← commit settings contexts scope outputs.length
    return (contexts, ⟨outputs.length, contexts.length - outputs.length, pruned, removed⟩)

/-- One run. The summary changes only when it succeeds. -/
def run (backend : Backend) (scope : Scope) (units : List SourceUnit) (s : Session) :
    Program (Except RunError (List Context) × Session) := do
  let (result, cache) ← (runCache backend s.settings scope units).run s.cache
  match result with
  | .error e => return (.error e, { s with cache })
  | .ok (contexts, summary) => return (.ok contexts, { s with cache, summary })

end Session

end GqlArtifacts
