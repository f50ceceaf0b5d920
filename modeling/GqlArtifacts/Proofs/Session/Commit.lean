import GqlArtifacts.Session
import GqlArtifacts.Proofs.Cache.Load
import GqlArtifacts.Proofs.Cache.Prune
import Mathlib.Data.List.Find
import Mathlib.Data.List.Induction

/-!
# Bringing the cache up to date

A commit records the rows of all contexts (`recorded`), takes away what its scope no longer wants,
writes the entrypoint anew if need be (`Entered`) and saves. Which rows stay is one condition
(`keeps`), although a project run prunes and retains in two passes: a source that the run covers
keeps the hashes built for it, any other source keeps all of its rows unless the run is for the whole
project. `exec_commit_eq_ok` puts this together with the two numbers that a commit answers with.
-/

namespace GqlArtifacts

open Files CacheM Manifest

/-- The sources that a run lists besides those of its units. -/
def Scope.listed : Scope → List Path
  | .partly listed => listed
  | .project => []

namespace Session

variable {contexts : List Context} {scope : Scope} {p q : Path} {h : ContentHash} {m : Manifest}
  {c c' : Cache} {t t' : Tree}

/-! ### Which rows are wanted -/

/-- Whether there is a context of a source at a hash. -/
def built (contexts : List Context) (p : Path) (h : ContentHash) : Bool :=
  contexts.any fun c => c.path.same p && c.hash == h

/-- Whether a source has a context or is listed. -/
def covered (scope : Scope) (contexts : List Context) (p : Path) : Bool :=
  contexts.any (fun c => c.path.same p) || scope.listed.any fun q => q.same p

/-- Whether a row of a source at a hash may stay. -/
def keeps (scope : Scope) (contexts : List Context) (p : Path) (h : ContentHash) : Bool :=
  match scope with
  | .project => built contexts p h
  | .partly _ => !covered scope contexts p || built contexts p h

/-- The number of rows that covered sources have at hashes that were not built. -/
def superseded (scope : Scope) (contexts : List Context) (m : Manifest) : Nat :=
  m.toList.countP fun e => covered scope contexts e.1 && !built contexts e.1 e.2.1

/-- The number of sources that a project run does not find any more. -/
def forgotten (scope : Scope) (contexts : List Context) (m : Manifest) : Nat :=
  match scope with
  | .project => m.sources.toList.countP fun e => !covered scope contexts e.1
  | .partly _ => 0

theorem built_iff : built contexts p h = true ↔
    ∃ c ∈ contexts, c.path.same p = true ∧ c.hash = h := by
  simp [built]

theorem any_same_congr (hs : p.same q = true) (x : Path) : x.same p = x.same q := by
  rw [Path.same, Path.same, eq_of_beq hs]

theorem built_congr (hs : p.same q = true) : built contexts p h = built contexts q h := by
  simp only [built, any_same_congr hs]

theorem covered_congr (hs : p.same q = true) :
    covered scope contexts p = covered scope contexts q := by
  simp only [covered, any_same_congr hs]

theorem covered_of_built (hb : built contexts p h = true) : covered scope contexts p = true := by
  obtain ⟨c, hc, hs, -⟩ := built_iff.1 hb
  rw [covered, List.any_eq_true.2 ⟨c, hc, hs⟩, Bool.true_or]

theorem keeps_iff : keeps scope contexts p h = true ↔
    built contexts p h = true ∨ ¬(scope = .project ∨ covered scope contexts p = true) := by
  cases scope with
  | project => simp [keeps]
  | partly listed => simp [keeps, or_comm]

theorem spelled_keeps : Spelled (keeps scope contexts) := by
  intro p q h hs
  cases scope with
  | project => exact built_congr hs
  | partly listed => rw [keeps, keeps, covered_congr hs, built_congr hs]

/-! ### Recording -/

def recorded (contexts : List Context) (m : Manifest) : Manifest :=
  contexts.foldl (fun m c => m.record c.path c.hash c.row) m

theorem recorded_concat (contexts : List Context) (c : Context) (m : Manifest) :
    recorded (contexts ++ [c]) m = (recorded contexts m).record c.path c.hash c.row := by
  rw [recorded, List.foldl_append]
  rfl

theorem foldl_record (contexts : List Context) (c : Cache) :
    contexts.foldl (fun cache c => cache.record c.path c.hash c.row) c =
      { c with manifest := recorded contexts c.manifest } := by
  induction contexts generalizing c with
  | nil => rfl
  | cons x contexts ih => exact ih _

/-- The last context of a source at a hash. -/
def lastContext? (contexts : List Context) (p : Path) (h : ContentHash) : Option Context :=
  contexts.reverse.find? fun c => c.path.same p && c.hash == h

theorem isSome_lastContext? : (lastContext? contexts p h).isSome = built contexts p h := by
  rw [lastContext?, built, Bool.eq_iff_iff, List.find?_isSome, List.any_eq_true]
  simp only [List.mem_reverse]

theorem lastContext?_concat (contexts : List Context) (c : Context) :
    lastContext? (contexts ++ [c]) p h =
      if c.path.same p && c.hash == h then some c else lastContext? contexts p h := by
  rw [lastContext?, List.reverse_append, List.reverse_singleton, List.singleton_append,
    List.find?_cons]
  cases c.path.same p && c.hash == h <;> rfl

theorem lastContext?_eq_some {c : Context} (hc : lastContext? contexts p h = some c) :
    c ∈ contexts ∧ c.path.same p = true ∧ c.hash = h := by
  obtain ⟨hkey, -⟩ := List.find?_eq_some_iff_append.1 hc
  rw [Bool.and_eq_true, beq_iff_eq] at hkey
  exact ⟨List.mem_reverse.1 (List.mem_of_find?_eq_some hc), hkey⟩

theorem lastContext?_congr (h : ContentHash) (hs : p.same q = true) :
    lastContext? contexts p h = lastContext? contexts q h := by
  simp only [lastContext?, any_same_congr hs]

/-- The last context of a source is among some of the contexts, if all of the source are. -/
theorem lastContext?_filter {own : Context → Bool}
    (hown : ∀ c ∈ contexts, c.path.same p = true → own c = true) :
    lastContext? (contexts.filter own) p h = lastContext? contexts p h := by
  rw [lastContext?, lastContext?, ← List.filter_reverse, List.find?_filter]
  refine List.find?_congr fun c hc => ?_
  cases hs : c.path.same p with
  | false => simp
  | true => rw [Bool.eq_iff_iff]; simp [hown c (List.mem_reverse.1 hc) hs]

theorem lookup?_recorded : (recorded contexts m).lookup? p h =
    ((lastContext? contexts p h).map Context.row).or (m.lookup? p h) := by
  induction contexts using List.reverseRecOn with
  | nil => rfl
  | append_singleton contexts c ih =>
    have hkey : (p.same c.path = true ∧ h = c.hash) ↔ (c.path.same p && c.hash == h) = true := by
      rw [Bool.and_eq_true, beq_iff_eq, Path.same_comm, eq_comm (a := h)]
    rw [recorded_concat, lookup?_record, ih, lastContext?_concat]
    by_cases hc : (c.path.same p && c.hash == h) = true
    · rw [if_pos (hkey.2 hc), if_pos hc]
      rfl
    · rw [if_neg (mt hkey.1 hc), if_neg hc]

theorem version_recorded (contexts : List Context) (m : Manifest) :
    (recorded contexts m).version = m.version := by
  induction contexts using List.reverseRecOn with
  | nil => rfl
  | append_singleton contexts c ih => rw [recorded_concat]; exact ih

theorem full_recorded (hm : m.Full) : (recorded contexts m).Full := by
  induction contexts using List.reverseRecOn with
  | nil => exact hm
  | append_singleton contexts c ih => rw [recorded_concat]; exact full_record ih

/-- Recording is not seen by a condition that refuses what was built. -/
theorem countP_recorded {R : Path → ContentHash → Bool} (hR : Spelled R)
    (hb : ∀ c ∈ contexts, R c.path c.hash = false) :
    (recorded contexts m).toList.countP (fun e => R e.1 e.2.1) =
      m.toList.countP fun e => R e.1 e.2.1 := by
  induction contexts using List.reverseRecOn with
  | nil => rfl
  | append_singleton contexts c ih =>
    rw [recorded_concat, countP_record hR (hb c (by simp)), ih fun x hx => hb x (by simp [hx])]

theorem countP_sources_recorded {S : Path → Bool}
    (hb : ∀ c ∈ contexts, ∀ q, c.path.same q = true → S q = false) :
    (recorded contexts m).sources.toList.countP (fun e => S e.1) =
      m.sources.toList.countP fun e => S e.1 := by
  induction contexts using List.reverseRecOn with
  | nil => rfl
  | append_singleton contexts c ih =>
    rw [recorded_concat, countP_sources_record (hb c (by simp)), ih fun x hx => hb x (by simp [hx])]

/-! ### The hashes that sources have now -/

theorem get?_builtHashes (contexts : List Context) (p : Path) :
    (contexts.foldl (fun live c => live.insert c.path (c.hash :: (live.get? c.path).getD []))
      (.empty : OrderedMap Path (List ContentHash) Path.compare)).get? p =
      if contexts.any (fun c => c.path.same p) then
        some ((contexts.filter fun c => c.path.same p).map Context.hash).reverse
      else none := by
  induction contexts using List.reverseRecOn with
  | nil => rfl
  | append_singleton contexts c ih =>
    have hkey : Path.compare p c.path = .eq ↔ c.path.same p = true := by
      rw [Path.compare_eq_iff, Path.same_comm]
    rw [List.foldl_append, List.foldl_cons, List.foldl_nil, OrderedMap.get?_insert,
      List.any_append, List.filter_append]
    by_cases hs : c.path.same p = true
    · rw [if_pos (hkey.2 hs), ← OrderedMap.get?_congr (hkey.2 hs), ih]
      by_cases hany : contexts.any (fun c => c.path.same p) = true
      · simp [hs, hany]
      · have hnone : contexts.filter (fun c => c.path.same p) = [] := by
          simpa [List.filter_eq_nil_iff] using hany
        simp [hs, hany, hnone]
    · rw [if_neg (mt hkey.1 hs), ih]
      simp [hs]

theorem get?_foldl_listed (live : OrderedMap Path (List ContentHash) Path.compare)
    (listed : List Path) (p : Path) :
    (listed.foldl (fun live q => live.insert q ((live.get? q).getD [])) live).get? p =
      if listed.any (fun q => q.same p) then some ((live.get? p).getD []) else live.get? p := by
  induction listed using List.reverseRecOn with
  | nil => rfl
  | append_singleton listed q ih =>
    have hkey : Path.compare p q = .eq ↔ q.same p = true := by
      rw [Path.compare_eq_iff, Path.same_comm]
    rw [List.foldl_append, List.foldl_cons, List.foldl_nil, OrderedMap.get?_insert, List.any_append]
    by_cases hs : q.same p = true
    · rw [if_pos (hkey.2 hs), ← OrderedMap.get?_congr (hkey.2 hs), ih]
      by_cases hany : listed.any (fun q => q.same p) = true
      · simp [hs, hany]
      · simp [hs, hany]
    · rw [if_neg (mt hkey.1 hs), ih]
      simp [hs]

theorem contains_filter_map (contexts : List Context) (p : Path) (h : ContentHash) :
    ((contexts.filter fun c => c.path.same p).map Context.hash).reverse.contains h =
      built contexts p h := by
  rw [Bool.eq_iff_iff, built_iff, List.contains_iff_mem, List.mem_reverse, List.mem_map]
  simp only [List.mem_filter, and_assoc]

/-- A covered source has the hashes that were built for it, any other source has none. -/
theorem get?_liveHashes (contexts : List Context) (scope : Scope) (p : Path) :
    ((liveHashes contexts scope).get? p).isSome = covered scope contexts p ∧
      ∀ hashes, (liveHashes contexts scope).get? p = some hashes →
        ∀ h, hashes.contains h = built contexts p h := by
  have hnone : contexts.any (fun c => c.path.same p) = false → ∀ h, built contexts p h = false := by
    intro hany h
    rw [Bool.eq_false_iff]
    intro hb
    obtain ⟨c, hc, hs, -⟩ := built_iff.1 hb
    rw [List.any_eq_true.2 ⟨c, hc, hs⟩] at hany
    cases hany
  cases scope with
  | project =>
    rw [liveHashes, get?_builtHashes, covered, Scope.listed, List.any_nil, Bool.or_false]
    split
    · next hany =>
      refine ⟨hany.symm, fun hashes heq h => ?_⟩
      rw [← Option.some.inj heq]
      exact contains_filter_map contexts p h
    · next hany => exact ⟨by simpa using hany, by simp⟩
  | partly listed =>
    rw [liveHashes, get?_foldl_listed, get?_builtHashes, covered, Scope.listed]
    by_cases hany : contexts.any (fun c => c.path.same p) = true
    · rw [if_pos hany, hany]
      refine ⟨by simp, fun hashes heq h => ?_⟩
      rw [Option.getD_some, ite_self] at heq
      rw [← Option.some.inj heq]
      exact contains_filter_map contexts p h
    · rw [if_neg hany]
      rw [Bool.not_eq_true] at hany
      rw [hany, Bool.false_or]
      split
      · next hl =>
        refine ⟨hl.symm, fun hashes heq h => ?_⟩
        rw [← Option.some.inj heq, hnone hany h]
        rfl
      · next hl => exact ⟨by simpa using hl, by simp⟩

/-- What pruning source by source leaves, in terms of one look-up. -/
theorem all_sparedBy (live : OrderedMap Path (List ContentHash) Path.compare) (p : Path)
    (h : ContentHash) : (live.toList.all fun e => sparedBy e.1 e.2 p h) =
      ((live.get? p).map fun hashes => hashes.contains h).getD true := by
  cases hl : live.get? p with
  | none =>
    rw [Option.map_none, Option.getD_none, List.all_eq_true]
    intro e he
    have hne := OrderedMap.get?_eq_none_iff.1 hl e he
    rw [Ne, Path.compare_eq_iff, Bool.not_eq_true] at hne
    rw [sparedBy, hne]
    rfl
  | some hashes =>
    obtain ⟨q, hq, hmem⟩ := OrderedMap.exists_mem_of_get? hl
    rw [Option.map_some, Option.getD_some, Bool.eq_iff_iff, List.all_eq_true]
    constructor
    · intro hall
      have hspared := hall _ hmem
      rw [sparedBy, Path.compare_eq_iff.1 hq] at hspared
      exact hspared
    · intro hcontains e he
      by_cases hs : p.same e.1 = true
      · rw [OrderedMap.get?_of_mem (v := e.2) he (Path.compare_eq_iff.2 hs)] at hl
        rw [sparedBy, hs, Option.some.inj hl, hcontains]
        rfl
      · rw [Bool.not_eq_true] at hs
        rw [sparedBy, hs]
        rfl

theorem all_sparedBy_liveHashes (contexts : List Context) (scope : Scope) (p : Path)
    (h : ContentHash) : ((liveHashes contexts scope).toList.all fun e => sparedBy e.1 e.2 p h) =
      (!covered scope contexts p || built contexts p h) := by
  obtain ⟨hsome, hcontains⟩ := get?_liveHashes contexts scope p
  rw [all_sparedBy, ← hsome]
  cases hl : (liveHashes contexts scope).get? p with
  | none => rfl
  | some hashes => exact hcontains hashes hl h

theorem any_keys_liveHashes (contexts : List Context) (scope : Scope) (p : Path) :
    (liveHashes contexts scope).keys.any p.same = covered scope contexts p := by
  rw [← (get?_liveHashes contexts scope p).1, Bool.eq_iff_iff, OrderedMap.isSome_get?_iff,
    List.any_eq_true]
  simp only [Path.compare_eq_iff]

/-! ### The commit -/

theorem exec_pruneAll {l : List (Path × List ContentHash)} {n : Nat} (hc : c.manifest.Full)
    (h : exec (pruneAll l) c t = ((.ok n, c'), t')) :
    Cache.Shrunk c c' t t' (fun p k => l.all fun e => sparedBy e.1 e.2 p k) ∧
      n = c.manifest.toList.countP fun x => !l.all fun e => sparedBy e.1 e.2 x.1 x.2.1 := by
  induction l generalizing c t n with
  | nil =>
    cases h
    exact ⟨.rfl hc (by simp), by simp⟩
  | cons e l ih =>
    obtain ⟨source, live⟩ := e
    rw [pruneAll] at h
    obtain ⟨k, c₁, t₁, h₁, h₂⟩ := exec_bind_eq_ok.1 h
    obtain ⟨hprune, hk⟩ := Cache.shrunk_of_prune hc (exec_adapt_eq_ok.1 h₁)
    obtain ⟨k', c₂, t₂, h₃, h₄⟩ := exec_bind_eq_ok.1 h₂
    cases h₄
    obtain ⟨hrest, hk'⟩ := ih (hprune.manifest ▸ full_restrict) h₃
    refine ⟨hprune.trans hrest, ?_⟩
    have hfirst := count_restrict (m := c.manifest) (P := sparedBy source live)
    have hothers := count_restrict (m := c₁.manifest)
      (P := fun p k => l.all fun e => sparedBy e.1 e.2 p k)
    have hall := count_restrict (m := c.manifest)
      (P := fun p k => sparedBy source live p k && l.all fun e => sparedBy e.1 e.2 p k)
    rw [← restrict_restrict, ← hprune.manifest] at hall
    rw [← hprune.manifest] at hfirst
    simp only [List.all_cons]
    omega

/-- The entrypoint after a commit: written anew, or there already and left alone, which it only is
when nothing has changed. -/
def Entered (root : Path) (m : Manifest) (entrypoint? : Option Path) (changes : Nat) (t t' : Tree) :
    Prop :=
  match entrypoint? with
  | none => t' = t
  | some p => t' = t ∧ t.isFile (root / p) = true ∧ changes = 0 ∨
      t.Wrote t' (root / p) (Entrypoint.render m p).toUTF8 ∧
        (t.isFile (root / p) = true → 0 < changes)

theorem entered_none {root : Path} {changes : Nat} : Entered root m none changes t t' ↔ t' = t :=
  Iff.rfl

theorem entered_some {root e : Path} {changes : Nat} : Entered root m (some e) changes t t' ↔
    t' = t ∧ t.isFile (root / e) = true ∧ changes = 0 ∨
      t.Wrote t' (root / e) (Entrypoint.render m e).toUTF8 ∧
        (t.isFile (root / e) = true → 0 < changes) := Iff.rfl

namespace Entered
variable {root : Path} {entrypoint? : Option Path} {changes : Nat}
  (hentered : Entered root m entrypoint? changes t t')
include hentered

theorem grows : t.Grows t' := by
  cases entrypoint? with
  | none => rw [entered_none.1 hentered]; exact .rfl
  | some e =>
    rcases entered_some.1 hentered with hcurrent | ⟨hw, -⟩
    · rw [hcurrent.1]; exact .rfl
    · exact hw.grows

theorem isSome_file? {e : Path} (he : e ∈ entrypoint?) : (t'.file? (root / e).place).isSome = true := by
  rw [Option.mem_def.1 he, entered_some] at hentered
  rcases hentered with hcurrent | ⟨hw, -⟩
  · rw [hcurrent.1]; exact (Tree.isFile_iff.1 hcurrent.2.1).2
  · exact hw.isSome_file?

theorem file?_of_ne {a : Place} (ha : ∀ e ∈ entrypoint?, a ≠ (root / e).place) :
    t'.file? a = t.file? a ∨ t'.file? a = none ∧ a.lastChar? = some 'p' ∧
      ∃ e ∈ entrypoint?, a = (temporaryPath (root / e)).place := by
  cases entrypoint? with
  | none => rw [entered_none.1 hentered]; exact .inl rfl
  | some e =>
    rcases entered_some.1 hentered with hcurrent | ⟨hw, -⟩
    · rw [hcurrent.1]; exact .inl rfl
    · rcases hw.file?_of_ne (ha e rfl) with heq | ⟨hnone, htmp⟩
      · exact .inl heq
      · exact .inr ⟨hnone, htmp ▸ hw.temporary, e, rfl, htmp⟩

end Entered

/-- The end of a commit: the entrypoint, if need be, and the manifest. -/
def finish (settings : Settings) (generated pruned removed : Nat) : RunM (Nat × Nat) := do
  match settings.entrypoint? with
  | none => pure ()
  | some entrypoint =>
    let cache ← get
    let current ←
      if generated + pruned + removed > 0 then pure false
      else CacheM.files (Program.isFile (cache.root / entrypoint))
    if current then pure ()
    else CacheM.attempt .files (Entrypoint.write cache.root cache.manifest entrypoint)
  CacheM.attempt .files (← get).save
  return (pruned, removed)

theorem commit_eq (settings : Settings) (contexts : List Context) (scope : Scope) (generated : Nat) :
    commit settings contexts scope generated = (do
      modify fun cache => { cache with manifest := recorded contexts cache.manifest }
      let pruned ← pruneAll (liveHashes contexts scope).toList
      match scope with
      | .project =>
        let removed ← CacheM.adapt .files (Cache.retain (liveHashes contexts scope).keys)
        finish settings generated pruned removed
      | .partly _ => finish settings generated pruned 0) := by
  rw [commit, show (fun cache : Cache => contexts.foldl
    (fun cache c => cache.record c.path c.hash c.row) cache) =
      fun cache => { cache with manifest := recorded contexts cache.manifest } from
    funext fun cache => foldl_record contexts cache]
  cases scope <;> rfl

theorem exec_finish_eq_ok {settings : Settings} {generated pruned removed : Nat} {r : Nat × Nat}
    (h : exec (finish settings generated pruned removed) c t = ((.ok r, c'), t')) :
    r = (pruned, removed) ∧ c' = c ∧ ∃ t₁,
      Entered c.root c.manifest settings.entrypoint? (generated + pruned + removed) t t₁ ∧
      t₁.Wrote t' (c.dir / manifestName) c.manifest.render.toUTF8 := by
  have hsave : ∀ {t : Tree}, exec (do CacheM.attempt .files (← get).save; return (pruned, removed) :
      RunM (Nat × Nat)) c t = ((.ok r, c'), t') → r = (pruned, removed) ∧ c' = c ∧
        t.Wrote t' (c.dir / manifestName) c.manifest.render.toUTF8 := by
    intro t h
    obtain ⟨c₁, c₂, t₁, h₁, h₂⟩ := exec_bind_eq_ok.1 h
    cases h₁
    obtain ⟨_, c₃, t₂, h₃, h₄⟩ := exec_bind_eq_ok.1 h₂
    obtain ⟨hrun, rfl⟩ := exec_attempt_eq_ok.1 h₃
    cases h₄
    exact ⟨rfl, rfl, wrote_of_writeAtomically hrun⟩
  rw [finish] at h
  cases he : settings.entrypoint? with
  | none =>
    rw [he] at h
    obtain ⟨hr, hc, hw⟩ := hsave h
    exact ⟨hr, hc, t, rfl, hw⟩
  | some p =>
    have hwrite : ∀ {t : Tree}, exec (do
        CacheM.attempt .files (Entrypoint.write c.root c.manifest p)
        CacheM.attempt .files (← get).save
        return (pruned, removed) : RunM (Nat × Nat)) c t = ((.ok r, c'), t') →
        r = (pruned, removed) ∧ c' = c ∧
          ∃ t₁, t.Wrote t₁ (c.root / p) (Entrypoint.render c.manifest p).toUTF8 ∧
            t₁.Wrote t' (c.dir / manifestName) c.manifest.render.toUTF8 := by
      intro t h
      obtain ⟨_, c₁, t₁, h₁, h₂⟩ := exec_bind_eq_ok.1 h
      obtain ⟨hrun, rfl⟩ := exec_attempt_eq_ok.1 h₁
      obtain ⟨hr, hc, hw⟩ := hsave h₂
      exact ⟨hr, hc, t₁, wrote_of_writeAtomically hrun, hw⟩
    rw [he] at h
    obtain ⟨c₁, c₂, t₁, h₁, h₂⟩ := exec_bind_eq_ok.1 h
    cases h₁
    by_cases hchanged : generated + pruned + removed > 0
    · rw [if_pos hchanged] at h₂
      obtain ⟨current, c₂, t₂, h₃, h₄⟩ := exec_bind_eq_ok.1 h₂
      cases h₃
      simp only [Bool.false_eq_true, if_false] at h₄
      obtain ⟨hr, hc, t₂, hentry, hw⟩ := hwrite h₄
      exact ⟨hr, hc, t₂, .inr ⟨hentry, fun _ => hchanged⟩, hw⟩
    · rw [if_neg hchanged] at h₂
      obtain ⟨current, c₂, t₂, h₃, h₄⟩ := exec_bind_eq_ok.1 h₂
      obtain ⟨hrun, hmemory⟩ := exec_files_eq_ok.1 h₃
      rw [run_isFile] at hrun
      obtain ⟨rfl, rfl⟩ := Prod.mk.inj hrun
      rw [hmemory] at h₄
      cases hfile : t.isFile (c.root / p) with
      | true =>
        simp only [hfile, if_true] at h₄
        obtain ⟨hr, hc, hw⟩ := hsave h₄
        exact ⟨hr, hc, t, .inl ⟨rfl, hfile, by omega⟩, hw⟩
      | false =>
        simp only [hfile, Bool.false_eq_true, if_false] at h₄
        obtain ⟨hr, hc, t₂, hentry, hw⟩ := hwrite h₄
        refine ⟨hr, hc, t₂, .inr ⟨hentry, fun hexists => ?_⟩, hw⟩
        rw [hfile] at hexists
        cases hexists

theorem exec_commit_eq_ok {settings : Settings} {generated pruned removed : Nat}
    (hc : c.manifest.Full) (h : exec (commit settings contexts scope generated) c t =
      ((.ok (pruned, removed), c'), t')) :
    ∃ t₁ t₂, Cache.Shrunk { c with manifest := recorded contexts c.manifest } c' t t₁
        (keeps scope contexts) ∧
      Entered c.root c'.manifest settings.entrypoint? (generated + pruned + removed) t₁ t₂ ∧
      t₂.Wrote t' (c.dir / manifestName) c'.manifest.render.toUTF8 ∧
      pruned = superseded scope contexts c.manifest ∧
      removed = forgotten scope contexts c.manifest := by
  have hfull : (recorded contexts c.manifest).Full := full_recorded hc
  rw [commit_eq] at h
  obtain ⟨_, c₁, t₁, hrecord, h₁⟩ := exec_bind_eq_ok.1 h
  cases hrecord
  obtain ⟨n, c₂, t₂, hprune, h₂⟩ := exec_bind_eq_ok.1 h₁
  dsimp only at hprune
  obtain ⟨hshrunk, hn⟩ := exec_pruneAll hfull hprune
  have hP : (fun p k => (liveHashes contexts scope).toList.all fun e => sparedBy e.1 e.2 p k) =
      fun p k => !covered scope contexts p || built contexts p k :=
    funext fun p => funext fun k => all_sparedBy_liveHashes contexts scope p k
  rw [hP] at hshrunk
  have hcount : n = superseded scope contexts c.manifest := by
    have hR : Spelled fun p k => covered scope contexts p && !built contexts p k :=
      fun p q k hs => by simp only [covered_congr hs, built_congr hs]
    rw [superseded, ← countP_recorded hR fun x hx => by rw [built_iff.2 ⟨x, hx, Path.same_self _, rfl⟩]; simp,
      hn]
    refine List.countP_congr fun e _ => ?_
    rw [all_sparedBy_liveHashes, Bool.not_or, Bool.not_not]
  cases scope with
  | partly listed =>
    obtain ⟨hr, rfl, t₃, hentered, hw⟩ := exec_finish_eq_ok h₂
    cases hr
    rw [hshrunk.root] at hentered
    refine ⟨t₂, t₃, hshrunk, hentered, ?_, hcount, rfl⟩
    rw [hshrunk.cache] at hw ⊢
    exact hw
  | project =>
    obtain ⟨k, c₃, t₃, hretain, h₃⟩ := exec_bind_eq_ok.1 h₂
    obtain ⟨hgone, hk⟩ := Cache.shrunk_of_retain (hshrunk.manifest ▸ full_restrict)
      (exec_adapt_eq_ok.1 hretain)
    have hboth : (fun p k => (!covered Scope.project contexts p || built contexts p k) &&
        (liveHashes contexts .project).keys.any p.same) = keeps .project contexts := by
      funext p k
      rw [any_keys_liveHashes, keeps]
      cases hb : built contexts p k with
      | true => rw [covered_of_built hb]; rfl
      | false => cases covered Scope.project contexts p <;> rfl
    have hremoved : k = forgotten .project contexts c.manifest := by
      rw [hk, hshrunk.manifest, forgotten]
      simp only [any_keys_liveHashes]
      rw [countP_sources_restrict hfull (S := fun p => !covered Scope.project contexts p)
        fun p k hS => by rw [hS, Bool.true_or]]
      refine countP_sources_recorded (S := fun p => !covered Scope.project contexts p)
        fun x hx q hs => ?_
      rw [covered, List.any_eq_true.2 ⟨x, hx, hs⟩]
      rfl
    obtain ⟨hr, rfl, t₄, hentered, hw⟩ := exec_finish_eq_ok h₃
    cases hr
    have hall := hshrunk.trans hgone
    rw [hboth] at hall
    rw [hall.root] at hentered
    refine ⟨t₃, t₄, hall, hentered, ?_, hcount, hremoved⟩
    rw [hall.cache] at hw ⊢
    exact hw

end Session

end GqlArtifacts
