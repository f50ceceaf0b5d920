import GqlArtifacts.Proofs.Cache.Prune

/-!
# Actions on a cache whose operations may fail

`CacheM.Outcome` carries out an action on a memory and a tree with failures allowed. `FailsOnly`
says which failures an action can have, and `CacheM.SparesAt` that from a memory on an action keeps
an invariant of the memory and spares the files at certain places, whether it succeeds or not.
Pruning and retaining spare what is no artifact of a row that they forget (`sparesAt_prune`,
`sparesAt_retain`), in each of their outcomes; the invariant is that the memory never gains a row
(`Cache.Within`).
-/

namespace GqlArtifacts

open Files

namespace CacheM

variable {ε δ α β : Type} {c c' : Cache} {t t' : Tree} {K : Place → Prop} {I J : Cache → Prop}

/-- An action may come to a result, a memory and a tree, if each change of a file may fail. -/
def Outcome (x : CacheM ε α) (c : Cache) (t : Tree) (r : Except ε α) (c' : Cache) (t' : Tree) :
    Prop :=
  (StateT.run (ExceptT.run x) c).Outcome t (r, c') t'

theorem outcome_bind {x : CacheM ε α} {f : α → CacheM ε β} {r : Except ε β}
    (h : Outcome (x >>= f) c t r c' t') :
    (∃ a c₁ t₁, Outcome x c t (.ok a) c₁ t₁ ∧ Outcome (f a) c₁ t₁ r c' t') ∨
      ∃ e, r = .error e ∧ Outcome x c t (.error e) c' t' := by
  rw [Outcome, ExceptT.run_bind, StateT.run_bind, Program.outcome_bind] at h
  obtain ⟨⟨r₁, c₁⟩, t₁, hx, hf⟩ := h
  cases r₁ with
  | ok a => exact .inl ⟨a, c₁, t₁, hx, hf⟩
  | error e =>
    obtain ⟨heq, rfl⟩ := hf
    obtain ⟨rfl, rfl⟩ := Prod.mk.inj heq
    exact .inr ⟨e, rfl, hx⟩

theorem outcome_pure {a : α} {r : Except ε α} (h : Outcome (pure a : CacheM ε α) c t r c' t') :
    r = .ok a ∧ c' = c ∧ t' = t := by
  obtain ⟨heq, rfl⟩ := h
  obtain ⟨rfl, rfl⟩ := Prod.mk.inj heq
  exact ⟨rfl, rfl, rfl⟩

theorem outcome_throw {e : ε} {r : Except ε α} (h : Outcome (throw e : CacheM ε α) c t r c' t') :
    r = .error e ∧ c' = c ∧ t' = t := by
  obtain ⟨heq, rfl⟩ := h
  obtain ⟨rfl, rfl⟩ := Prod.mk.inj heq
  exact ⟨rfl, rfl, rfl⟩

theorem outcome_files {p : Program α} {r : Except ε α}
    (h : Outcome (files p : CacheM ε α) c t r c' t') :
    ∃ a, p.Outcome t a t' ∧ r = .ok a ∧ c' = c := by
  rw [Outcome, files, ExceptT.run_lift, StateT.run_map, StateT.run_lift, map_eq_pure_bind,
    Program.outcome_bind] at h
  obtain ⟨⟨a, c₁⟩, t₁, h, heq, rfl⟩ := h
  obtain ⟨a', hp, heq'⟩ := Program.outcome_map.1 h
  obtain ⟨rfl, rfl⟩ := Prod.mk.inj heq'
  obtain ⟨rfl, rfl⟩ := Prod.mk.inj heq
  exact ⟨a, hp, rfl, rfl⟩

theorem outcome_get_bind {f : Cache → CacheM ε β} {r : Except ε β}
    (h : Outcome (get >>= f) c t r c' t') : Outcome (f c) c t r c' t' := h

theorem outcome_set_bind {d : Cache} {f : PUnit → CacheM ε β} {r : Except ε β}
    (h : Outcome (set d >>= f) c t r c' t') : Outcome (f ⟨⟩) d t r c' t' := h

/-- Looking goes one way. -/
theorem outcome_looks_bind {p : Program α} (hp : p.Looks) {f : α → CacheM ε β} {r : Except ε β}
    (h : Outcome (files p >>= f) c t r c' t') : Outcome (f (p.run t).1) c t r c' t' := by
  rcases outcome_bind h with ⟨a, c₁, t₁, hlook, hf⟩ | ⟨e, -, hlook⟩
  · obtain ⟨_, hlooked, heq, rfl⟩ := outcome_files hlook
    obtain rfl := Except.ok.inj heq
    obtain ⟨hrun, htree⟩ := hp.outcome hlooked
    rw [hrun, ← htree]
    exact hf
  · obtain ⟨_, -, heq, -⟩ := outcome_files hlook
    cases heq

theorem outcome_attempt {f : δ → ε} {p : Program (Except δ α)} {r : Except ε α}
    (h : Outcome (attempt f p) c t r c' t') :
    ∃ r₀, p.Outcome t r₀ t' ∧ r = r₀.mapError f ∧ c' = c := by
  rcases outcome_bind h with ⟨r₀, c₁, t₁, hp, hr⟩ | ⟨e, rfl, hp⟩
  · obtain ⟨r₁, hp', heq, rfl⟩ := outcome_files hp
    obtain rfl := Except.ok.inj heq
    refine ⟨r₀, ?_⟩
    cases r₀ with
    | ok a =>
      obtain ⟨rfl, rfl, rfl⟩ := outcome_pure hr
      exact ⟨hp', rfl, rfl⟩
    | error e =>
      obtain ⟨rfl, rfl, rfl⟩ := outcome_throw hr
      exact ⟨hp', rfl, rfl⟩
  · obtain ⟨r₁, -, heq, -⟩ := outcome_files hp
    cases heq

theorem outcome_adapt {f : δ → ε} {x : CacheM δ α} {r : Except ε α}
    (h : Outcome (adapt f x) c t r c' t') :
    ∃ r₀, Outcome x c t r₀ c' t' ∧ r = r₀.mapError f := by
  have h' : Outcome (ExceptT.mk (Except.mapError f <$> ExceptT.run x)) c t r c' t' := h
  rw [Outcome, ExceptT.run_mk, StateT.run_map, map_eq_pure_bind, Program.outcome_bind] at h'
  obtain ⟨⟨r₀, c₁⟩, t₁, hx, heq, rfl⟩ := h'
  obtain ⟨rfl, rfl⟩ := Prod.mk.inj heq
  exact ⟨r₀, hx, rfl⟩

theorem outcome_exec (x : CacheM ε α) (c : Cache) (t : Tree) :
    Outcome x c t (exec x c t).1.1 (exec x c t).1.2 (exec x c t).2 := Program.outcome_run _ t

/-! ### Failures -/

/-- Every failure of an action is among these. -/
def FailsOnly (S : ε → Prop) (x : CacheM ε α) : Prop :=
  ∀ c t e c' t', Outcome x c t (.error e) c' t' → S e

section FailsOnly
variable {S : ε → Prop}

theorem failsOnly_pure (a : α) : FailsOnly S (pure a : CacheM ε α) := by
  intro c t e c' t' h
  cases (outcome_pure h).1

theorem failsOnly_get : FailsOnly S (get : CacheM ε Cache) := by
  rintro c t e c' t' ⟨heq, -⟩
  cases heq

theorem failsOnly_modify (f : Cache → Cache) : FailsOnly S (modify f : CacheM ε PUnit) := by
  rintro c t e c' t' ⟨heq, -⟩
  cases heq

theorem failsOnly_files (p : Program α) : FailsOnly S (files p : CacheM ε α) := by
  intro c t e c' t' h
  obtain ⟨_, -, heq, -⟩ := outcome_files h
  cases heq

theorem failsOnly_attempt {f : δ → ε} (hf : ∀ d, S (f d)) (p : Program (Except δ α)) :
    FailsOnly S (attempt f p) := by
  intro c t e c' t' h
  obtain ⟨r, -, heq, -⟩ := outcome_attempt h
  cases r with
  | ok a => cases heq
  | error d => cases heq; exact hf d

theorem failsOnly_adapt {f : δ → ε} (hf : ∀ d, S (f d)) (x : CacheM δ α) :
    FailsOnly S (adapt f x) := by
  intro c t e c' t' h
  obtain ⟨r, -, heq⟩ := outcome_adapt h
  cases r with
  | ok a => cases heq
  | error d => cases heq; exact hf d

theorem FailsOnly.bind {x : CacheM ε α} {f : α → CacheM ε β} (hx : FailsOnly S x)
    (hf : ∀ a, FailsOnly S (f a)) : FailsOnly S (x >>= f) := by
  intro c t e c' t' h
  rcases outcome_bind h with ⟨a, c₁, t₁, -, hf'⟩ | ⟨e', heq, hx'⟩
  · exact hf a _ _ _ _ _ hf'
  · obtain rfl := Except.error.inj heq
    exact hx _ _ _ _ _ hx'

end FailsOnly

/-! ### What an action leaves alone -/

/-- From the memory `c` on, each outcome has the invariant and spares the files. -/
def SparesAt (K : Place → Prop) (I : Cache → Prop) (x : CacheM ε α) (c : Cache) : Prop :=
  ∀ t r c' t', Outcome x c t r c' t' → I c' ∧ t.Spared K t'

theorem sparesAt_pure (hc : I c) (a : α) : SparesAt K I (pure a : CacheM ε α) c := by
  intro t r c' t' h
  obtain ⟨-, rfl, rfl⟩ := outcome_pure h
  exact ⟨hc, .rfl⟩

theorem SparesAt.bind {x : CacheM ε α} {f : α → CacheM ε β} (hx : SparesAt K I x c)
    (hf : ∀ a c₁, I c₁ → SparesAt K I (f a) c₁) : SparesAt K I (x >>= f) c := by
  intro t r c' t' h
  rcases outcome_bind h with ⟨a, c₁, t₁, hx', hf'⟩ | ⟨e, rfl, hx'⟩
  · obtain ⟨hc₁, hspared⟩ := hx _ _ _ _ hx'
    obtain ⟨hc', hspared'⟩ := hf a c₁ hc₁ _ _ _ _ hf'
    exact ⟨hc', hspared.trans hspared'⟩
  · exact hx _ _ _ _ hx'

theorem sparesAt_get_bind {f : Cache → CacheM ε β} (hf : SparesAt K I (f c) c) :
    SparesAt K I (get >>= f) c := hf

theorem sparesAt_modify_bind {g : Cache → Cache} {f : PUnit → CacheM ε β}
    (hf : SparesAt K I (f ⟨⟩) (g c)) : SparesAt K I (modify g >>= f) c := hf

theorem sparesAt_files (hc : I c) {p : Program α} (hp : p.Spares K) :
    SparesAt K I (files p : CacheM ε α) c := by
  intro t r c' t' h
  obtain ⟨a, hp', -, rfl⟩ := outcome_files h
  exact ⟨hc, hp _ _ _ hp'⟩

theorem sparesAt_attempt (hc : I c) {f : δ → ε} {p : Program (Except δ α)} (hp : p.Spares K) :
    SparesAt K I (attempt f p) c := by
  intro t r c' t' h
  obtain ⟨r₀, hp', -, rfl⟩ := outcome_attempt h
  exact ⟨hc, hp _ _ _ hp'⟩

theorem sparesAt_adapt {f : δ → ε} {x : CacheM δ α} (hx : SparesAt K I x c) :
    SparesAt K I (adapt f x) c := by
  intro t r c' t' h
  obtain ⟨r₀, hx', -⟩ := outcome_adapt h
  exact hx _ _ _ _ hx'

/-- From the memory `c` on, each failure has the invariant and spares the files. -/
def FailsSparing (K : Place → Prop) (I : Cache → Prop) (x : CacheM ε α) (c : Cache) : Prop :=
  ∀ t e c' t', Outcome x c t (.error e) c' t' → I c' ∧ t.Spared K t'

theorem FailsSparing.mono {x : CacheM ε α} (hx : FailsSparing K I x c) (hI : ∀ c, I c → J c) :
    FailsSparing K J x c := fun _ _ _ _ h => (hx _ _ _ _ h).imp_left (hI _)

/-- An action that spares the files, and then one that does so when it fails. -/
theorem SparesAt.bind_failsSparing {x : CacheM ε α} {f : α → CacheM ε β} (hx : SparesAt K I x c)
    (hI : ∀ c, I c → J c) (hf : ∀ a c₁, I c₁ → FailsSparing K J (f a) c₁) :
    FailsSparing K J (x >>= f) c := by
  intro t e c' t' h
  rcases outcome_bind h with ⟨a, c₁, t₁, hx', hf'⟩ | ⟨e, -, hx'⟩
  · obtain ⟨hc₁, hspared⟩ := hx _ _ _ _ hx'
    obtain ⟨hc', hspared'⟩ := hf a c₁ hc₁ _ _ _ _ hf'
    exact ⟨hc', hspared.trans hspared'⟩
  · exact (hx _ _ _ _ hx').imp_left (hI _)

theorem FailsSparing.bind_pure {x : CacheM ε α} {f : α → β} (hx : FailsSparing K I x c) :
    FailsSparing K I (x >>= fun a => pure (f a)) c := by
  intro t e c' t' h
  rcases outcome_bind h with ⟨a, c₁, t₁, -, hf⟩ | ⟨e', heq, hx'⟩
  · cases (outcome_pure hf).1
  · exact hx _ _ _ _ hx'

theorem failsSparing_get_bind {f : Cache → CacheM ε β} (hf : FailsSparing K I (f c) c) :
    FailsSparing K I (get >>= f) c := hf

theorem failsSparing_modify_bind {g : Cache → Cache} {f : PUnit → CacheM ε β}
    (hf : FailsSparing K I (f ⟨⟩) (g c)) : FailsSparing K I (modify g >>= f) c := hf

theorem failsSparing_writeAtomically (hK : ∀ a, K a → Place.lastChar? a ≠ some 'p') (hc : I c)
    {f : FileFailure → ε} (p : Path) (content : ByteArray) :
    FailsSparing K I (attempt f (writeAtomically p content)) c := by
  intro t e c' t' h
  obtain ⟨r, hwrite, heq, rfl⟩ := outcome_attempt h
  cases r with
  | ok u => cases heq
  | error e => exact ⟨hc, spared_of_writeAtomically hK hwrite nofun⟩

end CacheM

open CacheM

/-- None of the artifacts of a row is among the places. -/
def Row.Free (K : Place → Prop) (root : Path) (row : Row) : Prop :=
  ∀ p, row.Owns root p → ¬K p.place

theorem Row.Free.spares {K : Place → Prop} {root : Path} {row : Row} (h : row.Free K root) :
    (row.removeArtifacts root).Spares K := by
  refine (spares_removeIfPresent (h _ (.inl rfl))).bind fun r => ?_
  split
  · exact Program.spares_pure _
  · exact (spares_removeIfPresent (h _ (.inr rfl))).bind fun _ => Program.spares_pure _

namespace Cache

variable {base c : Cache} {m : Manifest} {K : Place → Prop} {source : Path}

/-- A memory of the same cache, with no row that is not in `m`. -/
structure Within (base : Cache) (m : Manifest) (c : Cache) : Prop where
  cache : ∃ n, c = { base with manifest := n }
  rows : ∀ p k row, c.manifest.lookup? p k = some row → m.lookup? p k = some row

namespace Within

theorem root (hc : Within base m c) : c.root = base.root := by
  obtain ⟨n, rfl⟩ := hc.cache
  rfl

theorem withManifest (hc : Within base m c) {n : Manifest}
    (hn : ∀ p k row, n.lookup? p k = some row → c.manifest.lookup? p k = some row) :
    Within base m { c with manifest := n } := by
  obtain ⟨_, rfl⟩ := hc.cache
  exact ⟨⟨n, rfl⟩, fun p k row hrow => hc.rows p k row (hn p k row hrow)⟩

theorem eraseRow (hc : Within base m c) (p : Path) (k : ContentHash) :
    Within base m { c with manifest := c.manifest.eraseRow p k } := by
  refine hc.withManifest fun q h row hrow => ?_
  rw [Manifest.lookup?_eraseRow] at hrow
  split at hrow
  · cases hrow
  · exact hrow

theorem eraseSource (hc : Within base m c) (p : Path) :
    Within base m { c with manifest := c.manifest.eraseSource p } := by
  refine hc.withManifest fun q h row hrow => ?_
  rw [Manifest.lookup?_eraseSource] at hrow
  split at hrow
  · cases hrow
  · exact hrow

theorem eraseIfBare (hc : Within base m c) (p : Path) :
    Within base m { c with manifest := c.manifest.eraseIfBare p } := by
  rw [Manifest.eraseIfBare]
  split
  · exact hc.eraseSource p
  · exact hc

end Within

theorem sparesAt_dropRows {l : List (ContentHash × Row)} (hc : Within base m c)
    (hl : ∀ e ∈ l, e.2.Free K base.root) : SparesAt K (Within base m) (dropRows source l) c := by
  induction l generalizing c with
  | nil => exact sparesAt_pure hc _
  | cons e l ih =>
    obtain ⟨k, row⟩ := e
    have hrow : (row.removeArtifacts c.root).Spares K :=
      hc.root ▸ (hl _ (List.mem_cons_self ..)).spares
    have hfirst : SparesAt K (Within base m) (CacheM.attempt id (row.removeArtifacts c.root))
        { c with manifest := c.manifest.eraseRow source k } :=
      sparesAt_attempt (hc.eraseRow source k) hrow
    rw [dropRows]
    exact sparesAt_modify_bind (sparesAt_get_bind (hfirst.bind fun _ c₁ hc₁ =>
      ih hc₁ fun e he => hl e (List.mem_cons_of_mem _ he)))

/-- Pruning spares what is no artifact of a row of the source at a hash that is not live. -/
theorem sparesAt_prune {live : List ContentHash} (hc : Within base m c)
    (hfree : ∀ k row, m.lookup? source k = some row → live.contains k = false →
      row.Free K base.root) : SparesAt K (Within base m) (prune source live) c := by
  rw [prune]
  refine sparesAt_get_bind ?_
  cases hs : c.manifest.sources.get? source with
  | none => exact sparesAt_pure hc _
  | some rows =>
    refine (sparesAt_dropRows hc fun e he => ?_).bind fun _ c₁ hc₁ => ?_
    · obtain ⟨hrow, hstale⟩ := List.mem_filter.1 he
      refine hfree e.1 e.2 (hc.rows _ _ _ ?_) (by simpa using hstale)
      rw [Manifest.lookup?_eq_bind, hs, Option.bind_some]
      exact OrderedMap.get?_self_of_mem hrow
    · exact sparesAt_modify_bind (sparesAt_pure (hc₁.eraseIfBare source) _)

theorem sparesAt_removeAll {l : List (ContentHash × Row)} (hc : Within base m c)
    (hl : ∀ e ∈ l, e.2.Free K base.root) : SparesAt K (Within base m) (removeAll l) c := by
  induction l generalizing c with
  | nil => exact sparesAt_pure hc _
  | cons e l ih =>
    obtain ⟨k, row⟩ := e
    have hrow : (row.removeArtifacts c.root).Spares K :=
      hc.root ▸ (hl _ (List.mem_cons_self ..)).spares
    have hfirst : SparesAt K (Within base m) (CacheM.attempt id (row.removeArtifacts c.root)) c :=
      sparesAt_attempt hc hrow
    rw [removeAll]
    exact sparesAt_get_bind (hfirst.bind fun _ c₁ hc₁ =>
      ih hc₁ fun e he => hl e (List.mem_cons_of_mem _ he))

theorem sparesAt_dropSources {l : List (Path × Rows)} (hc : Within base m c)
    (hl : ∀ e ∈ l, ∀ r ∈ e.2.toList, r.2.Free K base.root) :
    SparesAt K (Within base m) (dropSources l) c := by
  induction l generalizing c with
  | nil => exact sparesAt_pure hc _
  | cons e l ih =>
    obtain ⟨p, rows⟩ := e
    refine sparesAt_modify_bind ?_
    exact (sparesAt_removeAll (hc.eraseSource p) (hl _ (List.mem_cons_self ..))).bind
      fun _ c₁ hc₁ => ih hc₁ fun e he => hl e (List.mem_cons_of_mem _ he)

/-- Retaining spares what is no artifact of a row of a source that is not live. -/
theorem sparesAt_retain {live : List Path} (hc : Within base m c)
    (hfree : ∀ p k row, m.lookup? p k = some row → live.any p.same = false →
      row.Free K base.root) : SparesAt K (Within base m) (retain live) c := by
  rw [retain]
  refine sparesAt_get_bind ?_
  refine (sparesAt_dropSources hc fun e he r hr => ?_).bind fun _ c₁ hc₁ => sparesAt_pure hc₁ _
  obtain ⟨hsource, hgone⟩ := List.mem_filter.1 he
  refine hfree e.1 r.1 r.2 (hc.rows _ _ _ (Manifest.lookup?_of_mem ?_)) (by simpa using hgone)
  exact Manifest.mem_toList_iff.2 ⟨e.2, hsource, hr⟩

end Cache

end GqlArtifacts
