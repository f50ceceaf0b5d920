import GqlArtifacts.Proofs.Files.Rewrite
import GqlArtifacts.Proofs.Session.Quiet

/-!
# Runs that have nothing to do

A run is `Idle` on a tree when the persisted rows all have their artifacts, are those of its contexts
where it has a context, and are all wanted, and when the entrypoint is there. Then it succeeds whatever
the backend is like, which it does not ask; it counts nothing, and leaves every file as it was
(`Idle.run_eq`). It does write the manifest again, so that has to be possible: it is after an earlier
write.
-/

namespace GqlArtifacts

open Files CacheM Manifest

namespace Cache

variable {c : Cache} {t : Tree}

/-! ### Nothing to take away -/

theorem exec_prune_of_spared (hc : c.manifest.Full) {source : Path} {live : List ContentHash}
    (h : ∀ e ∈ c.manifest.toList, sparedBy source live e.1 e.2.1 = true) :
    exec (prune source live) c t = ((.ok 0, c), t) := by
  rw [prune, exec_bind, exec_get]
  dsimp only
  cases hs : c.manifest.sources.get? source with
  | none => rfl
  | some rows =>
    obtain ⟨q, hq, hrows⟩ := OrderedMap.exists_mem_of_get? hs
    have hsame : q.same source = true := by rw [Path.same_comm, ← Path.compare_eq_iff]; exact hq
    have hstale : rows.toList.filter (fun e => !live.contains e.1) = [] := by
      refine List.filter_eq_nil_iff.2 fun e he => ?_
      have hspared := h (q, e.1, e.2) (mem_toList_iff.2 ⟨rows, hrows, he⟩)
      rw [sparedBy, hsame, Bool.not_true, Bool.false_or] at hspared
      dsimp only at hspared
      rw [hspared]
      exact Bool.false_ne_true
    have hbare : c.manifest.eraseIfBare source = c.manifest := by
      rw [eraseIfBare, Manifest.rows, hs, Option.getD_some, hc _ hrows]
      exact if_neg Bool.false_ne_true
    dsimp only
    rw [hstale]
    show ((Except.ok 0, { c with manifest := c.manifest.eraseIfBare source }), t) = _
    rw [hbare]

theorem exec_retain_of_live (hc : c.manifest.Full) {live : List Path}
    (h : ∀ e ∈ c.manifest.toList, live.any e.1.same = true) :
    exec (retain live) c t = ((.ok 0, c), t) := by
  have hgone : c.manifest.sources.toList.filter (fun e => !live.any e.1.same) = [] := by
    refine List.filter_eq_nil_iff.2 fun e he => ?_
    obtain ⟨row, hrow⟩ := List.exists_mem_of_ne_nil e.2.toList fun hnil => by
      have hbare := hc e he
      rw [OrderedMap.isEmpty, hnil] at hbare
      cases hbare
    have hlive := h (e.1, row.1, row.2) (mem_toList_iff.2 ⟨e.2, he, hrow⟩)
    dsimp only at hlive
    rw [hlive]
    simp
  rw [retain, exec_bind, exec_get]
  dsimp only
  rw [hgone]
  rfl

end Cache

namespace Session

variable {scope : Scope} {units : List SourceUnit} {s : Session} {t t' : Tree}
  {contexts : List Context} {c : Cache}

theorem exec_pruneAll_of_spared (hc : c.manifest.Full) {l : List (Path × List ContentHash)}
    (h : ∀ e ∈ c.manifest.toList, (l.all fun x => sparedBy x.1 x.2 e.1 e.2.1) = true) :
    exec (pruneAll l) c t = ((.ok 0, c), t) := by
  induction l with
  | nil => rfl
  | cons x l ih =>
    obtain ⟨source, live⟩ := x
    have hboth : ∀ e ∈ c.manifest.toList, sparedBy source live e.1 e.2.1 = true ∧
        (l.all fun x => sparedBy x.1 x.2 e.1 e.2.1) = true := fun e he => by
      have hall := h e he
      rwa [List.all_cons, Bool.and_eq_true] at hall
    have hfirst : exec (Cache.prune source live) c t = ((.ok 0, c), t) :=
      Cache.exec_prune_of_spared hc fun e he => (hboth e he).1
    have hrest : exec (pruneAll l) c t = ((.ok 0, c), t) := ih fun e he => (hboth e he).2
    exact exec_bind_eq_ok.2 ⟨0, c, t, exec_adapt_eq_ok.2 hfirst, exec_bind_eq_ok.2 ⟨0, c, t, hrest, rfl⟩⟩

/-- With the entrypoint there and nothing changed, a commit ends with the save. -/
theorem exec_finish_of_current {settings : Settings}
    (he : ∀ e ∈ settings.entrypoint?, t.isFile (c.root / e) = true)
    (hsave : c.save.run t = (.ok (), t')) :
    exec (finish settings 0 0 0) c t = ((.ok (0, 0), c), t') := by
  have hend : exec (do CacheM.attempt .files (← get).save; return (0, 0) : RunM (Nat × Nat)) c t =
      ((.ok (0, 0), c), t') :=
    exec_bind_eq_ok.2 ⟨c, c, t, rfl, exec_bind_eq_ok.2 ⟨(), c, t', exec_attempt_eq_ok.2 ⟨hsave, rfl⟩, rfl⟩⟩
  rw [finish]
  cases hentrypoint : settings.entrypoint? with
  | none => exact hend
  | some e =>
    have hfile : (Program.isFile (c.root / e)).run t = (true, t) := by
      rw [run_isFile, he e hentrypoint]
    have hunchanged : ¬(0 + 0 + 0 > 0) := by decide
    refine exec_bind_eq_ok.2 ⟨c, c, t, rfl, ?_⟩
    rw [if_neg hunchanged]
    exact exec_bind_eq_ok.2 ⟨true, c, t, exec_files_eq_ok.2 ⟨hfile, rfl⟩, hend⟩

/-! ### Idle runs -/

/-- All that a run would do is done. -/
structure Idle (s : Session) (scope : Scope) (contexts : List Context) (t : Tree) : Prop where
  full : (s.cache.persisted t).Full
  present : ∀ e ∈ (s.cache.persisted t).toList, e.2.2.isPresent s.cache.root t = true
  rows : ∀ p k c, lastContext? contexts p k = some c → (s.cache.persisted t).lookup? p k = some c.row
  wanted : ∀ e ∈ (s.cache.persisted t).toList, keeps scope contexts e.1 e.2.1 = true
  entrypoint : ∀ e ∈ s.settings.entrypoint?, t.isFile (s.cache.root / e) = true
  saved : ∃ t₀ : Tree, t₀.Wrote t (s.cache.dir / manifestName) (s.cache.persisted t).render.toUTF8

namespace Idle
variable (h : s.Idle scope contexts t)
include h

theorem manifest_loaded : (s.cache.loaded t).manifest = s.cache.persisted t :=
  restrict_of_forall h.full fun e he => by
    rw [Cache.backed, lookup?_of_mem he, Option.any_some]
    exact h.present e he

theorem isSome_lookup? {c : Context} (hc : c ∈ contexts) :
    ((s.cache.persisted t).lookup? c.path c.hash).isSome = true := by
  have hsome : (lastContext? contexts c.path c.hash).isSome = true := by
    rw [isSome_lastContext?, built_iff]
    exact ⟨c, hc, Path.same_self _, rfl⟩
  obtain ⟨d, hd⟩ := Option.isSome_iff_exists.1 hsome
  rw [h.rows _ _ d hd]
  rfl

theorem skip (hb : s.contexts? units t = some contexts) : ∀ c ∈ contexts, c.skip = true := by
  intro c hc
  rw [(Context.faithful_of_batch? hb hc).skip, h.manifest_loaded]
  exact h.isSome_lookup? hc

/-- The commit of an idle run is the save of what was loaded. -/
theorem exec_commit_eq (hsave : (s.cache.loaded t).save.run t = (.ok (), t')) :
    exec (commit s.settings contexts scope 0) (s.cache.loaded t) t =
      ((.ok (0, 0), s.cache.loaded t), t') := by
  have hmanifest := h.manifest_loaded
  have hrecorded : { s.cache.loaded t with
      manifest := recorded contexts (s.cache.loaded t).manifest } = s.cache.loaded t := by
    rw [hmanifest, recorded_eq (fun c => h.isSome_lookup?) h.rows, ← hmanifest]
  have hwanted : ∀ e ∈ (s.cache.loaded t).manifest.toList,
      keeps scope contexts e.1 e.2.1 = true := by
    rw [hmanifest]
    exact h.wanted
  have hfull : (s.cache.loaded t).manifest.Full := Cache.full_loaded
  have hprune : exec (pruneAll (liveHashes contexts scope).toList) (s.cache.loaded t) t =
      ((.ok 0, s.cache.loaded t), t) := by
    refine exec_pruneAll_of_spared hfull fun e he => ?_
    rw [all_sparedBy_liveHashes]
    rcases keeps_iff.1 (hwanted e he) with hbuilt | hcovered
    · rw [hbuilt, Bool.or_true]
    · rw [not_or, Bool.not_eq_true] at hcovered
      rw [hcovered.2]
      rfl
  have hfinish : exec (finish s.settings 0 0 0) (s.cache.loaded t) t =
      ((.ok (0, 0), s.cache.loaded t), t') := exec_finish_of_current h.entrypoint hsave
  have hmodify : exec (modify fun cache => { cache with
      manifest := recorded contexts cache.manifest } : RunM PUnit) (s.cache.loaded t) t =
      ((.ok ⟨⟩, s.cache.loaded t), t) := by
    show ((Except.ok PUnit.unit, { s.cache.loaded t with
      manifest := recorded contexts (s.cache.loaded t).manifest }), t) = _
    rw [hrecorded]
  rw [commit_eq]
  refine exec_bind_eq_ok.2 ⟨⟨⟩, s.cache.loaded t, t, hmodify,
    exec_bind_eq_ok.2 ⟨0, s.cache.loaded t, t, hprune, ?_⟩⟩
  cases scope with
  | partly listed => exact hfinish
  | project =>
    have hretain : exec (Cache.retain (liveHashes contexts .project).keys) (s.cache.loaded t) t =
        ((.ok 0, s.cache.loaded t), t) := by
      refine Cache.exec_retain_of_live hfull fun e he => ?_
      rw [any_keys_liveHashes]
      exact covered_of_built (hwanted e he)
    exact exec_bind_eq_ok.2 ⟨0, s.cache.loaded t, t, exec_adapt_eq_ok.2 hretain, hfinish⟩

/-- An idle run asks the backend for nothing, counts nothing and changes no file. -/
theorem run_eq (hb : s.contexts? units t = some contexts) : ∃ t', t.Alike t' ∧ ∀ backend,
    (Session.run backend scope units s).run t =
      ((.ok contexts, { s with
        cache := s.cache.loaded t, summary := ⟨0, contexts.length, 0, 0⟩ }), t') := by
  obtain ⟨t₀, hsaved⟩ := h.saved
  obtain ⟨t', hwrite, halike⟩ := hsaved.rewrite
  have hsave : (s.cache.loaded t).save.run t = (.ok (), t') := by
    rw [Cache.save, h.manifest_loaded]
    exact hwrite
  refine ⟨t', halike, fun backend => ?_⟩
  have hpublish : exec (publish s.settings scope contexts []) (s.cache.loaded t) t =
      ((.ok (contexts, ⟨0, contexts.length, 0, 0⟩), s.cache.loaded t), t') := by
    rw [publish]
    refine exec_bind_eq_ok.2 ⟨(), s.cache.loaded t, t, rfl, ?_⟩
    exact exec_bind_eq_ok.2 ⟨(0, 0), s.cache.loaded t, t', h.exec_commit_eq hsave, rfl⟩
  have hall : exec (runCache backend s.settings scope units) s.cache t =
      ((.ok (contexts, ⟨0, contexts.length, 0, 0⟩), s.cache.loaded t), t') := by
    rw [exec_runCache, hb]
    dsimp only
    rw [toList_staleGroups_eq_nil (h.skip hb)]
    exact exec_bind_eq_ok.2 ⟨[], s.cache.loaded t, t, rfl, hpublish⟩
  rw [Session.run_eq, hall]

end Idle

end Session

end GqlArtifacts
