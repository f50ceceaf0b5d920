import GqlArtifacts.Proofs.Cache.Outcome
import GqlArtifacts.Proofs.Files.Keeps
import GqlArtifacts.Proofs.Session.Publish
import GqlArtifacts.Proofs.Session.Reconcile

/-!
# Runs that fail commit nothing

A change of a file may fail at any point of a run, for any reason. `Guarded` lists the files that no
failure may touch: the manifest, and the artifacts of the rows that the run finds with their files and
would keep. Outputs go elsewhere, because a context whose row is found is skipped; the rows that are
pruned or not retained have other artifacts; and the manifest itself comes last, as a whole
(`failsSparing_publish`). `Uncommitted` says what this means for the next load.
-/

namespace GqlArtifacts

open Files CacheM

/-! ### Looking -/

theorem looks_manifestLoad (dir : Path) : (Manifest.load dir).Looks := by
  refine (Program.looks_readText _).bind fun r => ?_
  split <;> exact .pure _

theorem looks_present (root : Path) (row : Row) : (row.present root).Looks := by
  refine (Program.looks_isFile _).bind fun b => ?_
  split
  · exact Program.looks_isFile _
  · exact .pure _

theorem looks_missingRows (root : Path) (l : List (Path × ContentHash × Row)) :
    (missingRows root l).Looks := by
  induction l with
  | nil => exact .pure _
  | cons e l ih => exact (looks_present root e.2.2).bind fun _ => ih.bind fun _ => .pure _

theorem looks_load (c : Cache) : c.load.Looks :=
  (looks_manifestLoad c.dir).bind fun _ => (looks_missingRows _ _).bind fun _ => .pure _

theorem looks_isFresh (c : Cache) (p : Path) (h : ContentHash) : (c.isFresh p h).Looks := by
  rw [Cache.isFresh]
  split
  · exact looks_present _ _
  · exact .pure _

theorem looks_ofUnits? (layout : Layout) (c : Cache) (config : ContentHash)
    (units : List SourceUnit) : (Context.ofUnits? layout c config units).Looks := by
  rw [Context.ofUnits?]
  split
  · exact (Program.Uses.mapM (fun u => (looks_isFresh _ _ _).bind fun _ => .pure _) _).bind
      fun _ => .pure _
  · exact .pure _

/-- A backend that changes no file in any of its outcomes. -/
def Backend.LeavesFiles (backend : Backend) : Prop :=
  ∀ r t a t', (backend r).Outcome t a t' → t' = t

theorem Backend.leavesFiles_ofFunction (f : Request → Answer) :
    (Backend.ofFunction f).LeavesFiles := fun _ _ _ _ h => h.2

theorem Backend.LeavesFiles.keepsFiles {backend : Backend} (h : backend.LeavesFiles) :
    backend.KeepsFiles := by
  intro r t a t' houtcome
  obtain rfl := h r t a t' houtcome
  exact .rfl

namespace Session

variable {backend : Backend} {scope : Scope} {units : List SourceUnit} {s s' : Session}
  {t t' : Tree} {contexts : List Context} {outputs : List (Context × Output)} {c c' : Cache}
  {e : RunError}

/-! ### Before the first write -/

section Generate
variable {R : Tree → Tree → Prop} {settings : Settings} {schema : String}
  {groups : List (Path × List Context)} {r : Except RunError (List (Context × Output))}

/-- What each answer of the backend does to the tree, generation does as a whole. -/
theorem outcome_generate_of (hrefl : ∀ t, R t t) (htrans : ∀ {t t' t''}, R t t' → R t' t'' → R t t'')
    (hb : ∀ request t answer t', (backend request).Outcome t answer t' → R t t')
    (h : Outcome (generate backend settings schema groups) c t r c' t') :
    c' = c ∧ R t t' ∧ ∀ outputs, r = .ok outputs → outputs.map Prod.fst = groups.flatMap fun g => g.2 := by
  have hgroup : ∀ {source group} {t t' : Tree} {c c' : Cache} {r},
      Outcome (generateGroup backend settings schema source group) c t r c' t' →
      c' = c ∧ R t t' ∧ ∀ outputs, r = .ok outputs → outputs.map Prod.fst = group := by
    intro source group t t' c c' r h
    rcases outcome_bind h with ⟨answer, c₁, t₁, hask, h⟩ | ⟨e, -, hask⟩
    · obtain ⟨answer', hreply, heq, rfl⟩ := outcome_files hask
      have hR := hb _ _ _ _ hreply
      cases answer with
      | error d =>
        obtain ⟨rfl, rfl, rfl⟩ := outcome_throw h
        exact ⟨rfl, hR, fun _ heq => by cases heq⟩
      | ok os =>
        dsimp only at h
        split at h
        · next hlen =>
          obtain ⟨rfl, rfl, rfl⟩ := outcome_pure h
          refine ⟨rfl, hR, fun outputs heq => ?_⟩
          rw [← Except.ok.inj heq]
          exact List.map_fst_zip (Nat.le_of_eq hlen.symm)
        · obtain ⟨rfl, rfl, rfl⟩ := outcome_throw h
          exact ⟨rfl, hR, fun _ heq => by cases heq⟩
    · obtain ⟨_, -, heq, -⟩ := outcome_files hask
      cases heq
  induction groups generalizing c c' t t' r with
  | nil =>
    obtain ⟨rfl, rfl, rfl⟩ := outcome_pure h
    exact ⟨rfl, hrefl _, fun outputs heq => by rw [← Except.ok.inj heq]; rfl⟩
  | cons g groups ih =>
    rw [generate] at h
    rcases outcome_bind h with ⟨first, c₁, t₁, hfirst, h₁⟩ | ⟨e, rfl, hfirst⟩
    · obtain ⟨rfl, hR, hfst⟩ := hgroup hfirst
      rcases outcome_bind h₁ with ⟨others, c₂, t₂, hothers, h₂⟩ | ⟨e, rfl, hothers⟩
      · obtain ⟨rfl, hR', hrest⟩ := ih hothers
        obtain ⟨rfl, rfl, rfl⟩ := outcome_pure h₂
        refine ⟨rfl, htrans hR hR', fun outputs heq => ?_⟩
        rw [← Except.ok.inj heq, List.map_append, hfst _ rfl, hrest _ rfl]
        rfl
      · obtain ⟨rfl, hR', -⟩ := ih hothers
        exact ⟨rfl, htrans hR hR', fun _ heq => by cases heq⟩
    · obtain ⟨rfl, hR, -⟩ := hgroup hfirst
      exact ⟨rfl, hR, fun _ heq => by cases heq⟩

/-- Generation touches nothing, whether it succeeds or not. -/
theorem outcome_generate (hb : backend.LeavesFiles)
    (h : Outcome (generate backend settings schema groups) c t r c' t') :
    c' = c ∧ t' = t ∧
      ∀ outputs, r = .ok outputs → outputs.map Prod.fst = groups.flatMap fun g => g.2 :=
  outcome_generate_of (R := fun t t' => t' = t) (fun _ => rfl) (fun h h' => h'.trans h) hb h

/-- Generation takes nothing away. -/
theorem keeps_of_generate (hb : backend.KeepsFiles)
    (h : Outcome (generate backend settings schema groups) c t r c' t') : t.Keeps t' :=
  (outcome_generate_of (fun _ => .rfl) .trans hb h).2.1

end Generate

theorem outcome_runCache {r : Except RunError (List Context × Summary)}
    (h : Outcome (runCache backend s.settings scope units) s.cache t r c' t') :
    s.contexts? units t = none ∧ r = .error .missingSchema ∧ c' = s.cache.loaded t ∧ t' = t ∨
      ∃ contexts, s.contexts? units t = some contexts ∧ Outcome (do
        let outputs ← generate backend s.settings (schemaText units) (staleGroups contexts).toList
        publish s.settings scope contexts outputs) (s.cache.loaded t) t r c' t' := by
  rw [runCache] at h
  have hload := outcome_looks_bind (looks_load s.cache) (outcome_get_bind h)
  rw [Cache.run_load] at hload
  have hbuild := outcome_looks_bind (looks_ofUnits? s.settings.layout (s.cache.loaded t)
    s.settings.configHash units) (outcome_set_bind hload)
  rw [Context.run_ofUnits?, ← contexts?] at hbuild
  cases hcontexts : s.contexts? units t with
  | none =>
    rw [hcontexts] at hbuild
    exact .inl ⟨rfl, outcome_throw hbuild⟩
  | some contexts =>
    rw [hcontexts] at hbuild
    exact .inr ⟨contexts, rfl, hbuild⟩

/-! ### The files that no failure may touch -/

/-- The manifest, and the artifacts of the rows that are found and that the run keeps. -/
def Guarded (s : Session) (t : Tree) (scope : Scope) (contexts : List Context) (a : Place) : Prop :=
  a = (s.cache.dir / manifestName).place ∨
    ∃ p k row, (s.cache.loaded t).manifest.lookup? p k = some row ∧
      keeps scope contexts p k = true ∧ ∃ q, row.Owns s.cache.root q ∧ a = q.place

/-- The sources are logical, the persisted rows those of the layout, and the entrypoint is neither the
manifest nor an artifact. -/
structure Settled (s : Session) (t : Tree) (units : List SourceUnit) : Prop where
  inner : s.settings.layout.Inner
  root : s.settings.layout.root = s.cache.root
  logical : ∀ u ∈ units, u.path.Logical
  laidOut : (s.cache.persisted t).LaidOut s.settings.layout
  entrypoint : ∀ e ∈ s.settings.entrypoint?,
    (s.cache.root / e).place ≠ (s.cache.dir / manifestName).place ∧
    ∀ p k row, (s.cache.persisted t).lookup? p k = some row →
      ∀ q, row.Owns s.cache.root q → (s.cache.root / e).place ≠ q.place

section Guarded
variable (hs : Settled s t units)
include hs

theorem Settled.laidOut_loaded : (s.cache.loaded t).manifest.LaidOut s.settings.layout :=
  hs.laidOut.restrict _

/-- A guarded file is the manifest or lies where the layout puts an artifact of a row that is kept. -/
theorem Settled.guarded_cases {a : Place} (ha : Guarded s t scope contexts a) :
    a = (s.cache.dir / manifestName).place ∨ ∃ f p k, p.Logical ∧
      ((s.cache.loaded t).manifest.lookup? p k).isSome = true ∧ keeps scope contexts p k = true ∧
      a = s.settings.layout.place f p k := by
  rcases ha with ha | ⟨p, k, row, hrow, hkeeps, q, howns, rfl⟩
  · exact .inl ha
  · obtain ⟨p', hsame, hmem⟩ := Manifest.lookup?_eq_some_iff.1 hrow
    obtain ⟨f, rfl⟩ := Row.owns_iff.1 howns
    refine .inr ⟨f, p', k, hs.laidOut_loaded.logical hmem, ?_, ?_, ?_⟩
    · rw [Manifest.lookup?_of_mem hmem]
      rfl
    · rw [← spelled_keeps p p' k hsame, hkeeps]
    · rw [← hs.root, (hs.laidOut_loaded.rows _ hmem).place]

theorem Settled.lastChar?_guarded {a : Place} (ha : Guarded s t scope contexts a) :
    a.lastChar? ≠ some 'p' := by
  rcases hs.guarded_cases ha with rfl | ⟨f, p, k, hp, -, -, rfl⟩
  · rw [lastChar?_manifest]
    decide
  · exact (Layout.lastChar?_place_ne f).2

/-- An artifact is guarded only as that of a row that is kept. -/
theorem Settled.guarded_place {f : Artifact} {p : Path} {k : ContentHash} (hp : p.Logical)
    (h : Guarded s t scope contexts (s.settings.layout.place f p k)) :
    ((s.cache.loaded t).manifest.lookup? p k).isSome = true ∧ keeps scope contexts p k = true := by
  rcases hs.guarded_cases h with heq | ⟨f', p', k', hp', hrow, hkeeps, heq⟩
  · exact absurd ((congrArg Place.lastChar? heq).trans (lastChar?_manifest _))
      (Layout.lastChar?_place_ne f).1
  · obtain ⟨rfl, rfl, rfl⟩ := Layout.place_inj hp hp' heq
    exact ⟨hrow, hkeeps⟩

theorem Settled.guarded_of_found (f : Artifact) {p : Path} {k : ContentHash} (hp : p.Logical)
    (hfound : ((s.cache.loaded t).manifest.lookup? p k).isSome = true)
    (hkeeps : keeps scope contexts p k = true) :
    Guarded s t scope contexts (s.settings.layout.place f p k) := by
  obtain ⟨row, hrow⟩ := Option.isSome_iff_exists.1 hfound
  have hat := (hs.laidOut_loaded.liesAt hp hrow).place f
  rw [hs.root] at hat
  exact .inr ⟨p, k, row, hrow, hkeeps, _, Row.owns_iff.2 ⟨f, rfl⟩, hat.symm⟩

theorem Settled.not_guarded_entrypoint {e : Path} (he : e ∈ s.settings.entrypoint?) :
    ¬Guarded s t scope contexts (s.cache.root / e).place := by
  obtain ⟨hmanifest, hrows⟩ := hs.entrypoint e he
  rintro (h | ⟨p, k, row, hrow, -, q, howns, hq⟩)
  · exact hmanifest h
  · rw [Cache.lookup?_loaded, Option.filter_eq_some_iff] at hrow
    exact hrows p k row hrow.1 q howns hq

variable (hb : s.contexts? units t = some contexts)
include hb

theorem Settled.placed {c : Context} (hc : c ∈ contexts) : Placed s.settings.layout c := by
  obtain ⟨u, hu, hpath⟩ := Context.exists_unit_of_mem hb hc
  exact ⟨hpath ▸ hs.logical u hu, (Context.faithful_of_batch? hb hc).paths⟩

/-- A context that is not skipped is written elsewhere. -/
theorem Settled.not_guarded_output {c : Context} (hc : c ∈ contexts) (hskip : c.skip = false)
    (f : Artifact) : ¬Guarded s t scope contexts (f.full c.paths).place := by
  intro h
  have hplaced := hs.placed hb hc
  rw [hplaced.place_full] at h
  have hrow := (hs.guarded_place hplaced.logical h).1
  rw [← (Context.faithful_of_batch? hb hc).skip, hskip] at hrow
  cases hrow

/-- A row that is not kept has its artifacts elsewhere. -/
theorem Settled.free_of_not_keeps {p : Path} {k : ContentHash} {row : Row}
    (hrow : (known s t contexts).lookup? p k = some row) (hkeeps : keeps scope contexts p k = false) :
    row.Free (Guarded s t scope contexts) s.cache.root := by
  have hknown : (known s t contexts).LaidOut s.settings.layout :=
    laidOut_recorded hs.laidOut_loaded fun _ hc => hs.placed hb hc
  obtain ⟨p', hsame, hmem⟩ := Manifest.lookup?_eq_some_iff.1 hrow
  intro q howns hguarded
  obtain ⟨f, rfl⟩ := Row.owns_iff.1 howns
  rw [← hs.root, (hknown.rows _ hmem).place] at hguarded
  have hkept := (hs.guarded_place (hknown.logical hmem) hguarded).2
  rw [← spelled_keeps p p' k hsame, hkeeps] at hkept
  cases hkept

/-! ### From the first write on -/

theorem Settled.sparesAt_writeOutputs (hout : ∀ x ∈ outputs, x.1 ∈ contexts ∧ x.1.skip = false) :
    SparesAt (Guarded s t scope contexts) (· = c) (writeOutputs outputs) c := by
  have hK : ∀ a, Guarded s t scope contexts a → Place.lastChar? a ≠ some 'p' :=
    fun _ ha => hs.lastChar?_guarded ha
  induction outputs with
  | nil => exact sparesAt_pure (I := (· = c)) rfl _
  | cons x outputs ih =>
    obtain ⟨hc, hskip⟩ := hout x (List.mem_cons_self ..)
    have hwrite : ∀ (f : Artifact) (content : ByteArray),
        SparesAt (Guarded s t scope contexts) (· = c)
          (CacheM.attempt RunError.files (writeAtomically (f.full x.1.paths) content)) c :=
      fun f content => sparesAt_attempt (I := (· = c)) rfl
        (spares_writeAtomically hK (hs.not_guarded_output hb hc hskip f) content)
    refine (hwrite .tsx _).bind fun _ c₁ hc₁ => ?_
    subst hc₁
    refine (hwrite .dts _).bind fun _ c₂ hc₂ => ?_
    subst hc₂
    exact ih fun y hy => hout y (List.mem_cons_of_mem _ hy)

theorem Settled.sparesAt_pruneAll {base : Cache} (hbase : base.root = s.cache.root)
    {l : List (Path × List ContentHash)} (hl : l ⊆ (liveHashes contexts scope).toList)
    (hc : Cache.Within base (known s t contexts) c) :
    SparesAt (Guarded s t scope contexts) (Cache.Within base (known s t contexts)) (pruneAll l) c := by
  induction l generalizing c with
  | nil => exact sparesAt_pure hc _
  | cons e l ih =>
    obtain ⟨source, live⟩ := e
    refine (sparesAt_adapt (Cache.sparesAt_prune hc fun k row hrow hlive => ?_)).bind
      fun _ c₁ hc₁ => (ih (fun x hx => hl (List.mem_cons_of_mem _ hx)) hc₁).bind
        fun _ c₂ hc₂ => sparesAt_pure hc₂ _
    have hget := OrderedMap.get?_self_of_mem (hl (List.mem_cons_self ..))
    obtain ⟨hcovered, hcontains⟩ := get?_liveHashes contexts scope source
    rw [hget, Option.isSome_some] at hcovered
    rw [hcontains live hget] at hlive
    rw [hbase]
    refine hs.free_of_not_keeps hb hrow ?_
    cases scope with
    | project => exact hlive
    | partly listed => rw [keeps, ← hcovered, hlive]; rfl

omit hb in
theorem Settled.failsSparing_finish {base : Cache} (hbase : base.root = s.cache.root)
    (hc : Cache.Within base (known s t contexts) c) (generated pruned removed : Nat) :
    FailsSparing (Guarded s t scope contexts) (Cache.Within base (known s t contexts))
      (finish s.settings generated pruned removed) c := by
  have hK : ∀ a, Guarded s t scope contexts a → Place.lastChar? a ≠ some 'p' :=
    fun _ ha => hs.lastChar?_guarded ha
  have hsave : ∀ {c : Cache}, Cache.Within base (known s t contexts) c →
      FailsSparing (Guarded s t scope contexts) (Cache.Within base (known s t contexts)) (do
        CacheM.attempt RunError.files (← get).save; return (pruned, removed) : RunM (Nat × Nat)) c :=
    fun hc => failsSparing_get_bind (failsSparing_writeAtomically hK hc _ _).bind_pure
  rw [finish]
  split
  · exact hsave hc
  · next e he =>
    have hentry : ∀ (current : Bool) {c₁ : Cache}, Cache.Within base (known s t contexts) c₁ →
        FailsSparing (Guarded s t scope contexts) (Cache.Within base (known s t contexts))
          (if current = true then (do
            CacheM.attempt .files (← get).save; return (pruned, removed) : RunM (Nat × Nat))
          else do
            CacheM.attempt .files (Entrypoint.write c.root c.manifest e)
            CacheM.attempt .files (← get).save
            return (pruned, removed)) c₁ := by
      intro current c₁ hc₁
      split
      · exact hsave hc₁
      · refine (sparesAt_attempt hc₁ (spares_writeAtomically hK ?_ _)).bind_failsSparing
          (fun _ h => h) fun _ c₂ hc₂ => hsave hc₂
        rw [hc.root, hbase]
        exact hs.not_guarded_entrypoint he
    refine failsSparing_get_bind ?_
    dsimp only
    split
    · exact (sparesAt_pure hc false).bind_failsSparing (fun _ h => h)
        fun current c₁ hc₁ => hentry current hc₁
    · exact (sparesAt_files hc (Program.looks_isFile _).spares).bind_failsSparing (fun _ h => h)
        fun current c₁ hc₁ => hentry current hc₁

theorem Settled.failsSparing_commit (generated : Nat) :
    FailsSparing (Guarded s t scope contexts) (Cache.Within s.cache (known s t contexts))
      (commit s.settings contexts scope generated) (s.cache.loaded t) := by
  rw [commit_eq]
  refine failsSparing_modify_bind ?_
  have hc : Cache.Within s.cache (known s t contexts)
      { s.cache.loaded t with manifest := known s t contexts } := ⟨⟨_, rfl⟩, fun _ _ _ h => h⟩
  refine (hs.sparesAt_pruneAll hb rfl (fun _ he => he) hc).bind_failsSparing (fun _ h => h)
    fun pruned c₁ hc₁ => ?_
  cases scope with
  | partly listed => exact hs.failsSparing_finish rfl hc₁ generated pruned 0
  | project =>
    refine (sparesAt_adapt (Cache.sparesAt_retain hc₁ fun p k row hrow hgone => ?_)).bind_failsSparing
      (fun _ h => h) fun removed c₂ hc₂ => hs.failsSparing_finish rfl hc₂ generated pruned removed
    refine hs.free_of_not_keeps hb hrow ?_
    rw [any_keys_liveHashes] at hgone
    rw [keeps, Bool.eq_false_iff]
    intro hbuilt
    rw [covered_of_built hbuilt] at hgone
    cases hgone

theorem Settled.failsSparing_publish (hout : ∀ x ∈ outputs, x.1 ∈ contexts ∧ x.1.skip = false) :
    FailsSparing (Guarded s t scope contexts) (fun c => ∃ n, c = { s.cache with manifest := n })
      (publish s.settings scope contexts outputs) (s.cache.loaded t) := by
  refine (hs.sparesAt_writeOutputs hb hout).bind_failsSparing ?_ fun _ c₁ hc₁ => ?_
  · rintro _ rfl
    exact ⟨_, rfl⟩
  · subst hc₁
    exact ((hs.failsSparing_commit hb _).mono fun _ h => h.cache).bind_pure

end Guarded

/-! ### Runs -/

/-- The scope does not cover the source, or the batch has built the source at the hash. -/
def Retained (s : Session) (t : Tree) (scope : Scope) (units : List SourceUnit) (p : Path)
    (k : ContentHash) : Prop :=
  ¬(scope = .project ∨ scope.covers units p = true) ∨
    ∃ contexts, s.contexts? units t = some contexts ∧
      ∃ c ∈ contexts, c.path.same p = true ∧ c.hash = k

/-- What is left of a run that has failed with `e`. -/
structure Uncommitted (s : Session) (t : Tree) (scope : Scope) (units : List SourceUnit)
    (e : RunError) (s' : Session) (t' : Tree) : Prop where
  manifest : t'.file? (s.cache.dir / manifestName).place = t.file? (s.cache.dir / manifestName).place
  summary : s'.summary = s.summary
  /-- Only a failure on files leaves the tree different. -/
  tree : ¬OnFiles e → t' = t
  /-- The artifacts of a row that counts still do are as they were, and the next load finds it. -/
  rows : ∀ p k row, (s.cache.persisted t).lookup? p k = some row →
    row.isPresent s.cache.root t = true → Retained s t scope units p k →
    (∀ q, row.Owns s.cache.root q → t'.file? q.place = t.file? q.place) ∧
      (s'.cache.load.run t').1.2.manifest.lookup? p k = some row

theorem persisted_of_spared {c : Cache} {K : Place → Prop} (hspared : t.Spared K t')
    (hmanifest : K (c.dir / manifestName).place)
    (hstart : t.isFile (c.dir / manifestName) = true ∨
      t.file? (c.dir / manifestName).place = none) : c.persisted t' = c.persisted t := by
  have hfile := hspared.file? _ hmanifest
  rcases hstart with hstart | hnone
  · obtain ⟨content, hcontent⟩ := Tree.isFile_iff_read.1 hstart
    have hread := Tree.read_eq_ok.1 hcontent
    have hcontent' : t'.read (c.dir / manifestName) = .ok content :=
      Tree.read_eq_ok.2 ⟨hread.1.grows hspared.grows, hfile.trans hread.2⟩
    rw [Cache.persisted, Cache.persisted, manifest?_congr (hcontent'.trans hcontent.symm)]
  · rw [Cache.persisted_eq_empty (manifest?_of_file?_eq_none hnone),
      Cache.persisted_eq_empty (manifest?_of_file?_eq_none (hfile.trans hnone))]

theorem isPresent_of_spared {root : Path} {row : Row} {K : Place → Prop} (hspared : t.Spared K t')
    (hartifacts : ∀ q, row.Owns root q → K q.place) (h : row.isPresent root t = true) :
    row.isPresent root t' = true := by
  have hfile : ∀ q, row.Owns root q → t.isFile q = true → t'.isFile q = true := by
    intro q howns hq
    obtain ⟨hreaches, hsome⟩ := Tree.isFile_iff.1 hq
    exact Tree.isFile_iff.2 ⟨hreaches.grows hspared.grows,
      by rw [hspared.file? _ (hartifacts q howns)]; exact hsome⟩
  rw [Row.isPresent, Bool.and_eq_true] at h ⊢
  exact ⟨hfile _ (.inl rfl) h.1, hfile _ (.inr rfl) h.2⟩

/-- Where the manifest and the artifacts of a row are as they were, a load finds the row again. -/
theorem lookup?_load_of_spared {c d : Cache} {n : Manifest} {p : Path} {k : ContentHash} {row : Row}
    {K : Place → Prop} (hd : d = { c with manifest := n }) (hspared : t.Spared K t')
    (hmanifest : K (c.dir / manifestName).place) (hartifacts : ∀ q, row.Owns c.root q → K q.place)
    (hrow : (c.persisted t).lookup? p k = some row) (hpresent : row.isPresent c.root t = true) :
    (d.load.run t').1.2.manifest.lookup? p k = some row := by
  have hfile : t.isFile (c.dir / manifestName) = true := by
    cases hm : t.manifest? c.dir with
    | some m => exact Tree.isFile_iff_read.2 (exists_read_of_manifest? hm)
    | none => rw [Cache.persisted_eq_empty hm] at hrow; cases hrow
  rw [hd, Cache.run_load, Cache.loaded_withManifest, Cache.lookup?_loaded,
    persisted_of_spared hspared hmanifest (.inl hfile), hrow, Option.filter_some,
    if_pos (isPresent_of_spared hspared hartifacts hpresent)]

/-- A failure before the first write changes nothing. -/
theorem uncommitted_of_eq (s : Session) (t : Tree) (scope : Scope) (units : List SourceUnit)
    (e : RunError) : Uncommitted s t scope units e { s with cache := s.cache.loaded t } t :=
  ⟨rfl, rfl, fun _ => rfl, fun _ _ _ hrow hpresent _ => ⟨fun _ _ => rfl,
    lookup?_load_of_spared (K := fun _ => True) rfl .rfl trivial (fun _ _ => trivial) hrow hpresent⟩⟩

theorem keeps_of_retained {p : Path} {k : ContentHash} (hb : s.contexts? units t = some contexts)
    (h : Retained s t scope units p k) : keeps scope contexts p k = true := by
  rw [keeps_iff]
  rcases h with h | ⟨contexts', hb', hbuilt⟩
  · rw [covers_eq hb] at h
    exact .inr h
  · rw [hb] at hb'
    obtain rfl := Option.some.inj hb'
    exact .inl (built_iff.2 hbuilt)

/-- A run that fails has changed nothing, or it has touched no guarded file. -/
theorem Settled.spared_of_failed (hb : backend.LeavesFiles) (hs : Settled s t units)
    (h : (Session.run backend scope units s).Outcome t (.error e, s') t') :
    s' = { s with cache := s.cache.loaded t } ∧ t' = t ∨
      ∃ contexts, s.contexts? units t = some contexts ∧ OnFiles e ∧
        (∃ n, s' = { s with cache := { s.cache with manifest := n } }) ∧
        t.Spared (Guarded s t scope contexts) t' := by
  obtain ⟨⟨r, c'⟩, t₁, hrun, h⟩ := Program.outcome_bind.1 h
  cases r with
  | ok r => obtain ⟨heq, -⟩ := h; cases heq
  | error e₁ =>
    obtain ⟨heq, rfl⟩ := h
    obtain ⟨herror, rfl⟩ := Prod.mk.inj heq
    obtain rfl := Except.error.inj herror
    rcases outcome_runCache hrun with ⟨-, -, rfl, rfl⟩ | ⟨contexts, hcontexts, h₁⟩
    · exact .inl ⟨rfl, rfl⟩
    · rcases outcome_bind h₁ with ⟨outputs, c₁, t₁, hgenerate, hpublish⟩ | ⟨e', -, hgenerate⟩
      · obtain ⟨rfl, rfl, hgroups⟩ := outcome_generate hb hgenerate
        have hout : ∀ x ∈ outputs, x.1 ∈ contexts ∧ x.1.skip = false := by
          intro x hx
          have hmem : x.1 ∈ outputs.map Prod.fst := List.mem_map_of_mem hx
          rw [hgroups outputs rfl, List.mem_flatMap] at hmem
          obtain ⟨g, hg, hxg⟩ := hmem
          obtain ⟨hc, hskip, -⟩ := (gathered_of_mem_staleGroups hg).stale x.1 hxg
          exact ⟨hc, hskip⟩
        have hspares : FailsSparing (Guarded s t₁ scope contexts)
            (fun c => ∃ n, c = { s.cache with manifest := n })
            (publish s.settings scope contexts outputs) (s.cache.loaded t₁) :=
          hs.failsSparing_publish hcontexts hout
        obtain ⟨⟨n, hn⟩, hspared⟩ := hspares _ _ _ _ hpublish
        exact .inr ⟨contexts, hcontexts, failsOnly_publish _ _ _ _ _ _ _ _ _ hpublish,
          ⟨n, by rw [hn]⟩, hspared⟩
      · obtain ⟨rfl, rfl, -⟩ := outcome_generate hb hgenerate
        exact .inl ⟨rfl, rfl⟩

/-- However and wherever a run fails, the manifest, the summary and the artifacts of all rows that
still count are as they were. -/
theorem uncommitted_of_failed (hb : backend.LeavesFiles) (hs : Settled s t units)
    (h : (Session.run backend scope units s).Outcome t (.error e, s') t') :
    Uncommitted s t scope units e s' t' := by
  rcases hs.spared_of_failed hb h with ⟨rfl, rfl⟩ | ⟨contexts, hcontexts, he, ⟨n, rfl⟩, hspared⟩
  · exact uncommitted_of_eq s _ scope units e
  · refine ⟨hspared.file? _ (.inl rfl), rfl, absurd he, fun p k row hrow hpresent hkept => ?_⟩
    have hguarded : ∀ q, row.Owns s.cache.root q → Guarded s t scope contexts q.place := by
      refine fun q howns => .inr ⟨p, k, row, ?_, keeps_of_retained hcontexts hkept, q, howns, rfl⟩
      rw [Cache.lookup?_loaded, hrow, Option.filter_some, if_pos hpresent]
    exact ⟨fun q howns => hspared.file? _ (hguarded q howns),
      lookup?_load_of_spared rfl hspared (.inl rfl) hguarded hrow hpresent⟩

/-- A run for no units fails where the entrypoint is a directory. -/
theorem exists_failed_of_directory {f : Request → Answer} {entrypoint : Path}
    (hentrypoint : s.settings.entrypoint? = some entrypoint)
    (hdirectory : t.isDirectory (s.cache.root / entrypoint).place = true) :
    ∃ e s' t', OnFiles e ∧ (run (.ofFunction f) (.partly []) [] s).run t = ((.error e, s'), t') := by
  have hbatch : s.contexts? [] t = some [] := rfl
  have houtcome := outcome_exec (publish s.settings (.partly []) [] []) (s.cache.loaded t) t
  have hrun := run_eq (.ofFunction f) (.partly []) [] s t
  rw [exec_runCache_ofFunction, hbatch] at hrun
  dsimp only at hrun
  rw [show answers f s.settings (schemaText []) (staleGroups []).toList = .ok [] from rfl] at hrun
  dsimp only at hrun
  generalize exec (publish s.settings (.partly []) [] []) (s.cache.loaded t) t = x at hrun houtcome
  obtain ⟨⟨r, c'⟩, t'⟩ := x
  cases r with
  | error e => exact ⟨e, _, t', failsOnly_publish _ _ _ _ _ _ _ _ _ houtcome, hrun⟩
  | ok r =>
    obtain ⟨contexts, summary⟩ := r
    -- the entrypoint would be a file and a directory in one
    obtain ⟨outputs, t₁, t₂, t₃, t₄, hdone⟩ := completed_of_run hrun
    obtain rfl : [] = contexts := Option.some.inj (hbatch.symm.trans hdone.batch)
    obtain ⟨hanswers, rfl⟩ := hdone.answers_eq
    cases hanswers
    have hwritten := hdone.written
    cases hwritten
    have hgrows := hdone.shrunk.cleared.grows.trans hdone.entered.grows
    have hsome := hdone.entered.isSome_file? hentrypoint
    rw [Tree.file?, Tree.isDirectory_iff.1 (hgrows _ hdirectory)] at hsome
    cases hsome

namespace Sample

/-- A session whose entrypoint is a directory in the tree below. -/
def settled : Session :=
  .new ⟨⟨⟨""⟩, ⟨"c"⟩, ⟨"t"⟩⟩, ⟨Vector.replicate 16 0⟩, [], .null, some ⟨"d"⟩⟩ (.new ⟨""⟩ ⟨"c"⟩ "1")

def key : ContentHash := ⟨Vector.replicate 16 1⟩

def found : Row :=
  ⟨⟨"c/b-01010101010101010101010101010101.tsx"⟩, ⟨"t/b-01010101010101010101010101010101.d.ts"⟩, none,
    none⟩

def foundManifest : Manifest := (Manifest.empty "1").record ⟨"b"⟩ key found

/-- The two artifacts of a row, and the directories. -/
def artifacts : Tree :=
  ((((Tree.empty.put ["c"] .directory).put ["t"] .directory).put ["d"] .directory).put
    ["c", "b-01010101010101010101010101010101.tsx"] (.file "".toUTF8)).put
      ["t", "b-01010101010101010101010101010101.d.ts"] (.file "".toUTF8)

def foundTree : Tree := artifacts.put ["c", "manifest.json"] (.file foundManifest.render.toUTF8)

set_option maxRecDepth 100000 in
theorem foundTree_eq : artifacts.isDirectory ["c", "manifest.json"] = false ∧
    foundTree.isFile (settled.cache.dir / manifestName) = true ∧
    found.isPresent settled.cache.root foundTree = true ∧
    foundTree.isDirectory (settled.cache.root / ⟨"d"⟩).place = true := by
  decide +kernel

theorem inner : settled.settings.layout.Inner :=
  ⟨⟨by decide +kernel, by decide +kernel, by decide +kernel⟩,
    ⟨by decide +kernel, by decide +kernel, by decide +kernel⟩⟩

theorem logical : Path.Logical ⟨"b"⟩ :=
  ⟨⟨by decide +kernel, by decide +kernel, by decide +kernel⟩, by decide +kernel⟩

theorem persisted_eq : settled.cache.persisted foundTree = foundManifest := by
  have hread : foundTree.read (settled.cache.dir / manifestName) = .ok foundManifest.render.toUTF8 := by
    refine Tree.read_eq_ok.2 ⟨(Tree.isFile_iff.1 foundTree_eq.2.1).1, ?_⟩
    rw [foundTree, Tree.file?_put_file foundTree_eq.1]
    exact if_pos (by decide +kernel)
  exact Cache.persisted_of_manifest? (manifest?_of_read hread) rfl

theorem laidOut : foundManifest.LaidOut settled.settings.layout :=
  (Manifest.laidOut_empty "1").record logical ⟨by decide +kernel, by decide +kernel⟩

theorem settled_found : Settled settled foundTree [] := by
  refine ⟨inner, rfl, nofun, persisted_eq ▸ laidOut, fun e he => ?_⟩
  obtain rfl : e = ⟨"d"⟩ := (Option.some.inj he).symm
  have hlast : Place.lastChar? (settled.cache.root / ⟨"d"⟩).place = some 'd' := by decide +kernel
  refine ⟨fun heq => ?_, fun p k row hrow q howns heq => ?_⟩
  · rw [heq, lastChar?_manifest] at hlast
    cases hlast
  · rw [persisted_eq] at hrow
    obtain ⟨p', -, hmem⟩ := Manifest.lookup?_eq_some_iff.1 hrow
    obtain ⟨f, rfl⟩ := Row.owns_iff.1 howns
    have hplace := (laidOut.rows _ hmem).place f
    rw [heq, show settled.cache.root = settled.settings.layout.root from rfl, hplace,
      Layout.lastChar?_place] at hlast
    cases f <;> exact absurd hlast (by decide)

end Sample

/-- The entrypoint of the sample cannot be written. The row is found again all the same. -/
theorem uncommitted_of_failed_sample : ∃ e s' t', OnFiles e ∧
    (run (.ofFunction fun _ => .ok []) (.partly []) [] Sample.settled).Outcome Sample.foundTree
      (.error e, s') t' ∧
    (s'.cache.load.run t').1.2.manifest.lookup? ⟨"b"⟩ Sample.key = some Sample.found := by
  obtain ⟨e, s', t', he, hrun⟩ := exists_failed_of_directory (s := Sample.settled)
    (f := fun _ => .ok []) rfl Sample.foundTree_eq.2.2.2
  have houtcome := Program.outcome_run
    (run (.ofFunction fun _ => .ok []) (.partly []) [] Sample.settled) Sample.foundTree
  rw [hrun] at houtcome
  have hfailed := uncommitted_of_failed (Backend.leavesFiles_ofFunction _) Sample.settled_found houtcome
  have hrow : (Sample.settled.cache.persisted Sample.foundTree).lookup? ⟨"b"⟩ Sample.key =
      some Sample.found := by
    rw [Sample.persisted_eq, Sample.foundManifest, Manifest.lookup?_record]
    exact if_pos ⟨Path.same_self _, rfl⟩
  refine ⟨e, s', t', he, houtcome, (hfailed.rows _ _ _ hrow Sample.foundTree_eq.2.2.1 (.inl ?_)).2⟩
  rintro (h | h)
  · cases h
  · cases h

end Session

end GqlArtifacts
