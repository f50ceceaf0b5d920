import GqlArtifacts.Proofs.Files.Stop
import GqlArtifacts.Proofs.Session.Failure

/-!
# Runs that are stopped

A run ends with saving the manifest as a whole, so wherever it is stopped the tree is one that a
failed run may leave (`exists_failed_of_stopped`). What no failure touches is then as it was before the
run (`Settled.spared_of_stopped`).
-/

namespace GqlArtifacts

open Files CacheM

namespace CacheM

variable {ε δ α β : Type}

/-- From every memory the action may fail without having changed a file, and wherever it is stopped, it
may leave the same tree by failing. -/
def Fragile (x : CacheM ε α) : Prop :=
  ∀ c, (StateT.run (ExceptT.run x) c).Fragile fun r => Failed r.1

theorem fragile_throw (e : ε) : Fragile (throw e : CacheM ε α) := fun _ =>
  Program.fragile_pure ⟨e, rfl⟩

theorem fragile_bind {x : CacheM ε α} {f : α → CacheM ε β} (hf : ∀ a, Fragile (f a)) :
    Fragile (x >>= f) := by
  intro c
  rw [ExceptT.run_bind, StateT.run_bind]
  refine Program.fragile_bind fun r => ?_
  obtain ⟨r, c₁⟩ := r
  cases r with
  | ok a => exact hf a c₁
  | error e => exact Program.fragile_pure ⟨e, rfl⟩

theorem Fragile.bind_pure {x : CacheM ε α} {f : α → β} (hx : Fragile x) :
    Fragile (x >>= fun a => pure (f a)) := by
  intro c
  have hmap : StateT.run (ExceptT.run (x >>= fun a => pure (f a))) c =
      StateT.run (ExceptT.run x) c >>= fun r => pure (r.1.map f, r.2) := by
    rw [ExceptT.run_bind, StateT.run_bind]
    congr 1
    funext r
    obtain ⟨r, c₁⟩ := r
    cases r <;> rfl
  rw [hmap]
  refine (hx c).bind_pure fun r hr => ?_
  obtain ⟨e, he⟩ := hr
  exact ⟨e, by rw [he]; rfl⟩

theorem fragile_attempt {f : δ → ε} {p : Program (Except δ α)} (hp : p.Fragile Failed) :
    Fragile (attempt f p) := by
  intro c
  have hmap : StateT.run (ExceptT.run (attempt f p)) c =
      p >>= fun r => pure (r.mapError f, c) := by
    rw [attempt, ExceptT.run_bind, StateT.run_bind, files, ExceptT.run_lift, StateT.run_map,
      StateT.run_lift, map_eq_pure_bind, bind_assoc, bind_assoc]
    congr 1
    funext r
    cases r <;> rfl
  rw [hmap]
  refine hp.bind_pure fun r hr => ?_
  obtain ⟨e, rfl⟩ := hr
  exact ⟨f e, rfl⟩

end CacheM

namespace Session

variable {backend : Backend} {scope : Scope} {units : List SourceUnit} {s s' : Session}
  {t t' : Tree} {contexts : List Context} {outputs : List (Context × Output)}

theorem fragile_finish (settings : Settings) (generated pruned removed : Nat) :
    Fragile (finish settings generated pruned removed) := by
  have hsave : Fragile (do
      CacheM.attempt .files (← get).save; return (pruned, removed) : RunM (Nat × Nat)) :=
    fragile_bind fun c => (fragile_attempt (fragile_writeAtomically _ _)).bind_pure
  rw [finish]
  split
  · exact hsave
  · have hentry : ∀ (current : Bool) (write : Program (Except FileFailure Unit)),
        Fragile (if current = true then (do
            CacheM.attempt .files (← get).save; return (pruned, removed) : RunM (Nat × Nat))
          else do
            CacheM.attempt .files write
            CacheM.attempt .files (← get).save
            return (pruned, removed)) := by
      intro current write
      split
      · exact hsave
      · exact fragile_bind fun _ => hsave
    refine fragile_bind fun c => ?_
    dsimp only
    split
    · exact fragile_bind fun current => hentry current _
    · exact fragile_bind fun current => hentry current _

theorem fragile_commit (settings : Settings) (contexts : List Context) (scope : Scope)
    (generated : Nat) : Fragile (commit settings contexts scope generated) := by
  rw [commit_eq]
  refine fragile_bind fun _ => fragile_bind fun pruned => ?_
  cases scope with
  | partly listed => exact fragile_finish settings generated pruned 0
  | project => exact fragile_bind fun removed => fragile_finish settings generated pruned removed

theorem fragile_runCache (backend : Backend) (settings : Settings) (scope : Scope)
    (units : List SourceUnit) : Fragile (runCache backend settings scope units) := by
  rw [runCache]
  refine fragile_bind fun c => fragile_bind fun loaded => fragile_bind fun _ =>
    fragile_bind fun contexts? => ?_
  cases contexts? with
  | none => exact fragile_throw _
  | some contexts =>
    exact fragile_bind fun outputs => fragile_bind fun _ => (fragile_commit _ _ _ _).bind_pure

/-- Wherever a run is stopped, it leaves a tree that it may also leave by failing. -/
theorem exists_failed_of_stopped (h : (Session.run backend scope units s).Stopped t t') :
    ∃ e s', (Session.run backend scope units s).Outcome t (.error e, s') t' := by
  rcases Program.stopped_bind h with h | h
  · obtain ⟨⟨r, cache⟩, ⟨e, rfl⟩, hrun⟩ :=
      (fragile_runCache backend s.settings scope units s.cache).stopped t t' h
    exact ⟨e, _, Program.outcome_bind.2 ⟨_, t', hrun, rfl, rfl⟩⟩
  · generalize (Program.run _ t).1 = r at h
    obtain ⟨r, cache⟩ := r
    cases r <;> exact h.elim

/-- A run that is stopped has touched no guarded file. -/
theorem Settled.spared_of_stopped (hb : backend.LeavesFiles) (hs : Settled s t units)
    (hcontexts : s.contexts? units t = some contexts)
    (h : (Session.run backend scope units s).Stopped t t') :
    t.Spared (Guarded s t scope contexts) t' := by
  obtain ⟨e, s', hfailed⟩ := exists_failed_of_stopped h
  rcases hs.spared_of_failed hb hfailed with ⟨-, rfl⟩ | ⟨contexts', hcontexts', -, -, hspared⟩
  · exact .rfl
  · rw [hcontexts] at hcontexts'
    rwa [Option.some.inj hcontexts']

end Session

end GqlArtifacts
