import GqlArtifacts.Proofs.Session.Failure

/-!
# Where a run writes

`Program.Confined` says that no outcome of a program puts anything at a place outside `K`, and
`CacheM.Confined` the same of an action on a cache; files may be deleted anywhere. A run writes the
artifacts of its contexts, the entrypoint and the manifest, each by way of a temporary file, and
nothing else (`confined_run`).
-/

namespace GqlArtifacts

open Files CacheM

variable {α β ε δ : Type} {K : Place → Prop} {t t' t'' : Tree} {p q : Path}

/-! ### Programs -/

namespace Files

/-- Every file lies at one of the places or was there before. -/
def Tree.Confined (K : Place → Prop) (t t' : Tree) : Prop :=
  ∀ a c, t'.file? a = some c → K a ∨ t.file? a = some c

theorem Tree.Confined.trans (h : t.Confined K t') (h' : t'.Confined K t'') : t.Confined K t'' :=
  fun a c hc => (h' a c hc).elim .inl (h a c)

theorem Tree.Spared.confined (h : t.Spared (fun a => ¬K a) t') : t.Confined K t' := by
  intro a c hc
  by_cases ha : K a
  · exact .inl ha
  · exact .inr ((h.file? a ha).symm.trans hc)

namespace Program

def Confined (K : Place → Prop) (x : Program α) : Prop :=
  ∀ t a t', x.Outcome t a t' → t.Confined K t'

theorem Spares.confined {x : Program α} (h : x.Spares fun a => ¬K a) : x.Confined K :=
  fun t a t' hx => (h t a t' hx).confined

theorem Confined.bind {x : Program α} {f : α → Program β} (hx : x.Confined K)
    (hf : ∀ a, (f a).Confined K) : (x >>= f).Confined K := by
  intro t b t'' h
  obtain ⟨a, t', hx', hf'⟩ := outcome_bind.1 h
  exact (hx _ _ _ hx').trans (hf a _ _ _ hf')

theorem confined_pure (a : α) : (pure a : Program α).Confined K := (spares_pure a).confined

theorem confined_remove (p : Path) : (remove p).Confined K := by
  intro t answer t' h
  rcases outcome_remove h with ⟨-, hremove⟩ | ⟨-, rfl⟩
  · obtain ⟨hfile, rfl⟩ := Tree.remove_eq_ok hremove
    obtain ⟨d, hd⟩ := Option.isSome_iff_exists.1 (Tree.isFile_iff.1 hfile).2
    intro a c hc
    rw [Tree.file?_drop hd] at hc
    split at hc
    · cases hc
    · exact .inr hc
  · exact fun a c hc => .inr hc

end Program

theorem confined_removeIfPresent (p : Path) : (removeIfPresent p).Confined K := by
  refine (Program.confined_remove p).bind fun r => ?_
  split <;> exact Program.confined_pure _

/-- A write as a whole, whose target and temporary file are both among the places. -/
theorem confined_writeAtomically (hp : K p.place) (htmp : K (temporaryPath p).place)
    (content : ByteArray) : (writeAtomically p content).Confined K :=
  Program.Spares.confined fun _ _ _ h =>
    spared_of_outcome h (fun _ _ => not_not_intro htmp) fun _ => not_not_intro hp

end Files

/-! ### Actions on a cache -/

/-- A memory of the same cache. -/
def Cache.Sibling (base c : Cache) : Prop := ∃ m, c = { base with manifest := m }

theorem Cache.Sibling.withManifest {base c : Cache} (h : base.Sibling c) (m : Manifest) :
    base.Sibling { c with manifest := m } := by
  obtain ⟨n, rfl⟩ := h
  exact ⟨m, rfl⟩

namespace CacheM

variable {base : Cache}

/-- From any memory of the cache, each outcome is one of that cache and keeps to the places. -/
def Confined (K : Place → Prop) (base : Cache) (x : CacheM ε α) : Prop :=
  ∀ c t r c' t', base.Sibling c → Outcome x c t r c' t' → base.Sibling c' ∧ t.Confined K t'

theorem confined_pure (a : α) : Confined K base (pure a : CacheM ε α) := by
  intro c t r c' t' hc h
  obtain ⟨-, rfl, rfl⟩ := outcome_pure h
  exact ⟨hc, fun _ _ hc => .inr hc⟩

theorem Confined.bind {x : CacheM ε α} {f : α → CacheM ε β} (hx : Confined K base x)
    (hf : ∀ a, Confined K base (f a)) : Confined K base (x >>= f) := by
  intro c t r c' t' hc h
  rcases outcome_bind h with ⟨a, c₁, t₁, hx', hf'⟩ | ⟨e, -, hx'⟩
  · obtain ⟨hc₁, ht₁⟩ := hx _ _ _ _ _ hc hx'
    obtain ⟨hc', ht'⟩ := hf a _ _ _ _ _ hc₁ hf'
    exact ⟨hc', ht₁.trans ht'⟩
  · exact hx _ _ _ _ _ hc hx'

theorem confined_get_bind {f : Cache → CacheM ε β}
    (hf : ∀ c, base.Sibling c → Confined K base (f c)) : Confined K base (get >>= f) :=
  fun c _ _ _ _ hc h => hf c hc _ _ _ _ _ hc (outcome_get_bind h)

theorem confined_modify {f : Cache → Cache} (hf : ∀ c, base.Sibling c → base.Sibling (f c)) :
    Confined K base (modify f : CacheM ε PUnit) := by
  rintro c t r c' t' hc ⟨heq, rfl⟩
  obtain ⟨-, rfl⟩ := Prod.mk.inj heq
  exact ⟨hf c hc, fun _ _ hc => .inr hc⟩

theorem confined_files {p : Program α} (hp : p.Confined K) :
    Confined K base (files p : CacheM ε α) := by
  intro c t r c' t' hc h
  obtain ⟨a, hp', -, rfl⟩ := outcome_files h
  exact ⟨hc, hp _ _ _ hp'⟩

theorem confined_attempt {f : δ → ε} {p : Program (Except δ α)} (hp : p.Confined K) :
    Confined K base (attempt f p) := by
  intro c t r c' t' hc h
  obtain ⟨r₀, hp', -, rfl⟩ := outcome_attempt h
  exact ⟨hc, hp _ _ _ hp'⟩

theorem confined_adapt {f : δ → ε} {x : CacheM δ α} (hx : Confined K base x) :
    Confined K base (adapt f x) := by
  intro c t r c' t' hc h
  obtain ⟨r₀, hx', -⟩ := outcome_adapt h
  exact hx _ _ _ _ _ hc hx'

end CacheM

theorem Row.confined_removeArtifacts (root : Path) (row : Row) :
    (row.removeArtifacts root).Confined K := by
  refine (confined_removeIfPresent _).bind fun r => ?_
  split
  · exact Program.confined_pure _
  · exact (confined_removeIfPresent _).bind fun _ => Program.confined_pure _

namespace Cache

variable {base : Cache} {source : Path}

theorem confined_dropRows (l : List (ContentHash × Row)) :
    CacheM.Confined K base (dropRows source l) := by
  induction l with
  | nil => exact confined_pure _
  | cons e l ih =>
    refine (confined_modify fun c hc => hc.withManifest _).bind fun _ => ?_
    refine confined_get_bind fun c _ => ?_
    exact (confined_attempt (e.2.confined_removeArtifacts _)).bind fun _ => ih

theorem confined_prune (live : List ContentHash) : CacheM.Confined K base (prune source live) := by
  refine confined_get_bind fun c _ => ?_
  split
  · exact confined_pure _
  · refine (confined_dropRows _).bind fun _ => ?_
    exact (confined_modify fun c hc => hc.withManifest _).bind fun _ => confined_pure _

theorem confined_removeAll (l : List (ContentHash × Row)) : CacheM.Confined K base (removeAll l) := by
  induction l with
  | nil => exact confined_pure _
  | cons e l ih =>
    refine confined_get_bind fun c _ => ?_
    exact (confined_attempt (e.2.confined_removeArtifacts _)).bind fun _ => ih

theorem confined_dropSources (l : List (Path × Rows)) :
    CacheM.Confined K base (dropSources l) := by
  induction l with
  | nil => exact confined_pure _
  | cons e l ih =>
    refine (confined_modify fun c hc => hc.withManifest _).bind fun _ => ?_
    exact (confined_removeAll _).bind fun _ => ih

theorem confined_retain (live : List Path) : CacheM.Confined K base (retain live) :=
  confined_get_bind fun _ _ => (confined_dropSources _).bind fun _ => confined_pure _

end Cache

/-! ### Runs -/

namespace Session

variable {backend : Backend} {scope : Scope} {units : List SourceUnit} {s s' : Session}
  {contexts : List Context} {outputs : List (Context × Output)} {base : Cache}

/-- A path and its temporary file lie at some of the places. -/
def Holds (K : Place → Prop) (p : Path) : Prop := K p.place ∧ K (temporaryPath p).place

theorem confined_writeOutputs (h : ∀ x ∈ outputs, ∀ f : Artifact, Holds K (f.full x.1.paths)) :
    CacheM.Confined K base (writeOutputs outputs) := by
  induction outputs with
  | nil => exact confined_pure _
  | cons x outputs ih =>
    have hx : ∀ (f : Artifact) (content : ByteArray), CacheM.Confined K base
        (CacheM.attempt RunError.files (writeAtomically (f.full x.1.paths) content)) := fun f content =>
      confined_attempt (confined_writeAtomically (h x (List.mem_cons_self ..) f).1
        (h x (List.mem_cons_self ..) f).2 content)
    exact (hx .tsx _).bind fun _ => (hx .dts _).bind fun _ =>
      ih fun y hy => h y (List.mem_cons_of_mem _ hy)

theorem confined_pruneAll (l : List (Path × List ContentHash)) :
    CacheM.Confined K base (pruneAll l) := by
  induction l with
  | nil => exact confined_pure _
  | cons e l ih =>
    exact (confined_adapt (Cache.confined_prune _)).bind fun _ => ih.bind fun _ => confined_pure _

/-- What a run writes besides artifacts. -/
structure HoldsOthers (K : Place → Prop) (settings : Settings) (base : Cache) : Prop where
  manifest : Holds K (base.dir / manifestName)
  entrypoint : ∀ e ∈ settings.entrypoint?, Holds K (base.root / e)

section Others
variable {settings : Settings} (hothers : HoldsOthers K settings base)
include hothers

theorem confined_finish (generated pruned removed : Nat) :
    CacheM.Confined K base (finish settings generated pruned removed) := by
  have hsave : CacheM.Confined K base (do
      CacheM.attempt RunError.files (← get).save; return (pruned, removed) : RunM (Nat × Nat)) := by
    refine confined_get_bind fun c hc => ?_
    obtain ⟨m, rfl⟩ := hc
    exact (confined_attempt (confined_writeAtomically hothers.manifest.1 hothers.manifest.2 _)).bind
      fun _ => confined_pure _
  rw [finish]
  split
  · exact hsave
  · next e he =>
    refine confined_get_bind fun c hc => ?_
    have hentry : ∀ current : Bool, CacheM.Confined K base (if current = true then (do
          CacheM.attempt .files (← get).save; return (pruned, removed) : RunM (Nat × Nat))
        else do
          CacheM.attempt .files (Entrypoint.write c.root c.manifest e)
          CacheM.attempt .files (← get).save
          return (pruned, removed)) := by
      intro current
      split
      · exact hsave
      · obtain ⟨m, rfl⟩ := hc
        have hwrite := hothers.entrypoint e he
        exact (confined_attempt (confined_writeAtomically hwrite.1 hwrite.2 _)).bind fun _ => hsave
    dsimp only
    split
    · exact (confined_pure false).bind hentry
    · exact (confined_files (Program.looks_isFile _).spares.confined).bind hentry

theorem confined_commit (contexts : List Context) (scope : Scope) (generated : Nat) :
    CacheM.Confined K base (commit settings contexts scope generated) := by
  rw [commit_eq]
  refine (confined_modify fun c hc => hc.withManifest _).bind fun _ => ?_
  refine (confined_pruneAll _).bind fun pruned => ?_
  cases scope with
  | partly listed => exact confined_finish hothers generated pruned 0
  | project => exact (confined_adapt (Cache.confined_retain _)).bind fun removed =>
      confined_finish hothers generated pruned removed

theorem confined_publish (h : ∀ x ∈ outputs, ∀ f : Artifact, Holds K (f.full x.1.paths)) :
    CacheM.Confined K base (publish settings scope contexts outputs) :=
  (confined_writeOutputs h).bind fun _ =>
    (confined_commit hothers contexts scope _).bind fun _ => confined_pure _

end Others

/-- However a run ends, each file that is there afterwards was there before or lies where artifacts of
the units, the entrypoint, the manifest or their temporary files go. -/
theorem confined_run (hb : backend.LeavesFiles) (hothers : HoldsOthers K s.settings s.cache)
    (hunits : ∀ u ∈ units, ∀ (h : ContentHash) (f : Artifact),
      Holds K (f.full (s.settings.layout.paths u.path h))) :
    (Session.run backend scope units s).Confined K := by
  intro t a t' h
  obtain ⟨⟨r, c'⟩, t₁, hrun, h⟩ := Program.outcome_bind.1 h
  have ht' : t' = t₁ := by
    cases r <;> exact h.2
  rw [ht']
  rcases outcome_runCache hrun with ⟨-, -, -, rfl⟩ | ⟨contexts, hcontexts, h₁⟩
  · exact fun a c hc => .inr hc
  · rcases outcome_bind h₁ with ⟨outputs, c₁, t₂, hgenerate, hpublish⟩ | ⟨e, -, hgenerate⟩
    · obtain ⟨rfl, rfl, hgroups⟩ := outcome_generate hb hgenerate
      have hout : ∀ x ∈ outputs, ∀ f : Artifact, Holds K (f.full x.1.paths) := by
        intro x hx f
        have hmem : x.1 ∈ outputs.map Prod.fst := List.mem_map_of_mem hx
        rw [hgroups outputs rfl, List.mem_flatMap] at hmem
        obtain ⟨g, hg, hxg⟩ := hmem
        obtain ⟨hc, -⟩ := (gathered_of_mem_staleGroups hg).stale x.1 hxg
        obtain ⟨u, hu, hpath⟩ := Context.exists_unit_of_mem hcontexts hc
        rw [(Context.faithful_of_batch? hcontexts hc).paths, ← hpath]
        exact hunits u hu _ f
      exact (confined_publish hothers hout _ _ _ _ _ ⟨_, rfl⟩ hpublish).2
    · obtain ⟨-, rfl, -⟩ := outcome_generate hb hgenerate
      exact fun a c hc => .inr hc

end Session

end GqlArtifacts
