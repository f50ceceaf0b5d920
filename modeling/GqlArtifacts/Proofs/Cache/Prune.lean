import GqlArtifacts.Proofs.Cache.Action
import GqlArtifacts.Proofs.Manifest.Restrict

/-!
# Forgetting rows with their artifacts

A successful `prune` or `retain` restricts the manifest in memory and deletes the artifacts of
exactly the rows that are lost by it (`Cache.Shrunk`), however the loops inside go about it; and the
number it answers with counts what is lost. `Shrunk.trans` puts several of them together.
-/

namespace GqlArtifacts

open Files CacheM

variable {c c' c'' : Cache} {t t' t'' : Tree} {P Q : Path → ContentHash → Bool}

/-- The artifacts of a row, as paths. -/
def Row.Owns (root : Path) (row : Row) (p : Path) : Prop := p = root / row.tsx ∨ p = root / row.dts

theorem cleared_of_removeArtifacts {root : Path} {row : Row}
    (h : (row.removeArtifacts root).run t = (.ok (), t')) : t.Cleared t' (row.Owns root) := by
  rw [Row.removeArtifacts, Program.run_bind] at h
  cases hx : (removeIfPresent (root / row.tsx)).run t with
  | mk r t₁ =>
  rw [hx] at h
  cases r with
  | error e => cases h
  | ok b =>
    simp only [Program.run_bind] at h
    cases hd : (removeIfPresent (root / row.dts)).run t₁ with
    | mk r' t₂ =>
    rw [hd] at h
    cases r' with
    | error e => cases h
    | ok b' =>
      obtain rfl : t₂ = t' := congrArg Prod.snd h
      exact (cleared_of_removeIfPresent hx).trans (cleared_of_removeIfPresent hd)

namespace Cache

/-- The artifacts of the rows that a condition refuses. -/
def Lost (c : Cache) (P : Path → ContentHash → Bool) (p : Path) : Prop :=
  ∃ e ∈ c.manifest.toList, P e.1 e.2.1 = false ∧ e.2.2.Owns c.root p

/-- Rows are forgotten and their artifacts deleted; what stays are the rows that `P` accepts. -/
structure Shrunk (c c' : Cache) (t t' : Tree) (P : Path → ContentHash → Bool) : Prop where
  cache : c' = { c with manifest := c.manifest.restrict P }
  cleared : t.Cleared t' (c.Lost P)

namespace Shrunk

theorem root (h : Shrunk c c' t t' P) : c'.root = c.root := by rw [h.cache]

theorem manifest (h : Shrunk c c' t t' P) : c'.manifest = c.manifest.restrict P := by rw [h.cache]

theorem rfl (hc : c.manifest.Full) (hP : ∀ e ∈ c.manifest.toList, P e.1 e.2.1 = true) :
    Shrunk c c t t P := by
  refine ⟨by rw [Manifest.restrict_of_forall hc hP], .rfl ?_⟩
  rintro p ⟨e, he, hfalse, -⟩
  rw [hP e he] at hfalse
  cases hfalse

theorem trans (h : Shrunk c c' t t' P) (h' : Shrunk c' c'' t' t'' Q) :
    Shrunk c c'' t t'' fun p k => P p k && Q p k := by
  refine ⟨by rw [h'.cache, h.cache, Manifest.restrict_restrict],
    (h.cleared.trans h'.cleared).congr fun p => ?_⟩
  rw [Lost, Lost, Lost, h.root, h.manifest, Manifest.toList_restrict]
  simp only [List.mem_filter, Bool.and_eq_false_iff]
  constructor
  · rintro (⟨e, he, hP, ho⟩ | ⟨e, ⟨he, -⟩, hQ, ho⟩)
    · exact ⟨e, he, .inl hP, ho⟩
    · exact ⟨e, he, .inr hQ, ho⟩
  · rintro ⟨e, he, hPQ, ho⟩
    cases hP : P e.1 e.2.1 with
    | false => exact .inl ⟨e, he, hP, ho⟩
    | true =>
      rw [hP] at hPQ
      exact .inr ⟨e, ⟨he, hP⟩, hPQ.resolve_left (by simp), ho⟩

end Shrunk

/-! ### Pruning a source -/

theorem exec_dropRows {source : Path} {l : List (ContentHash × Row)}
    (h : exec (dropRows source l) c t = ((.ok (), c'), t')) :
    c' = { c with manifest := l.foldl (fun m e => m.eraseRow source e.1) c.manifest } ∧
      t.Cleared t' fun p => ∃ e ∈ l, e.2.Owns c.root p := by
  induction l generalizing c t with
  | nil =>
    cases h
    exact ⟨rfl, .rfl (by simp)⟩
  | cons e l ih =>
    obtain ⟨k, row⟩ := e
    rw [dropRows] at h
    obtain ⟨_, c₁, t₁, h₁, h⟩ := exec_bind_eq_ok.1 h
    cases h₁
    obtain ⟨c₂, c₃, t₂, h₂, h⟩ := exec_bind_eq_ok.1 h
    cases h₂
    obtain ⟨_, c₄, t₃, h₃, hrest⟩ := exec_bind_eq_ok.1 h
    obtain ⟨hrun, rfl⟩ := exec_attempt_eq_ok.1 h₃
    obtain ⟨rfl, hcleared⟩ := ih hrest
    refine ⟨rfl, ((cleared_of_removeArtifacts hrun).trans hcleared).congr fun p => ?_⟩
    simp only [List.mem_cons, exists_eq_or_imp]

/-- The stale rows of a source are all the rows that the source does not spare. -/
theorem length_stale {m : Manifest} {source : Path} {rows : Rows}
    (hs : m.sources.get? source = some rows) (live : List ContentHash) :
    (rows.toList.filter fun e => !live.contains e.1).length =
      m.toList.countP fun e => !Manifest.sparedBy source live e.1 e.2.1 := by
  let f (p : Path) (rows : Rows) : Nat :=
    rows.toList.countP fun r => !Manifest.sparedBy source live p r.1
  have hf : ∀ p q rows, Path.compare p q = .eq → f p rows = f q rows := by
    intro p q rows hpq
    have hspell := Manifest.spelled_sparedBy source live p q
    simp only [f, hspell _ (Path.compare_eq_iff.1 hpq)]
  have hsource : f source rows = (rows.toList.filter fun e => !live.contains e.1).length := by
    simp only [f, Manifest.sparedBy, Path.same_self, Bool.not_true, Bool.false_or]
    exact List.countP_eq_length_filter
  -- without the rows of the source nothing is counted
  have hnone : ((m.sources.insert source .empty).toList.map fun e => f e.1 e.2).sum = 0 := by
    rw [List.sum_eq_zero_iff_forall_eq_nat]
    intro n hn
    obtain ⟨e, he, rfl⟩ := List.mem_map.1 hn
    rw [OrderedMap.toList_insert_of_get? hs, List.mem_map] at he
    obtain ⟨x, -, rfl⟩ := he
    split
    · rfl
    · next hne =>
      rw [Path.compare_eq_iff, Bool.not_eq_true, Path.same_comm] at hne
      refine List.countP_eq_zero.2 fun r _ => ?_
      rw [Manifest.sparedBy, hne]
      simp
  have hsum := OrderedMap.sum_insert hf m.sources source .empty
  rw [hnone, hs, Nat.zero_add] at hsum
  rw [Manifest.countP_toList fun p k => !Manifest.sparedBy source live p k, ← hsource]
  exact hsum

theorem prune_eq_ok {source : Path} {live : List ContentHash} {n : Nat}
    (h : exec (prune source live) c t = ((.ok n, c'), t')) :
    (c.manifest.sources.get? source = none ∧ n = 0 ∧ c' = c ∧ t' = t) ∨
    ∃ rows, c.manifest.sources.get? source = some rows ∧
      n = (rows.toList.filter fun e => !live.contains e.1).length ∧
      c' = { c with manifest := ((rows.toList.filter fun e => !live.contains e.1).foldl
        (fun m e => m.eraseRow source e.1) c.manifest).eraseIfBare source } ∧
      t.Cleared t' fun p =>
        ∃ e ∈ rows.toList.filter (fun e => !live.contains e.1), e.2.Owns c.root p := by
  rw [prune] at h
  obtain ⟨c₁, c₂, t₁, h₁, h⟩ := exec_bind_eq_ok.1 h
  cases h₁
  cases hs : c.manifest.sources.get? source with
  | none =>
    rw [hs] at h
    cases h
    exact .inl ⟨rfl, rfl, rfl, rfl⟩
  | some rows =>
    rw [hs] at h
    obtain ⟨_, c₃, t₂, hdrop, h⟩ := exec_bind_eq_ok.1 h
    obtain ⟨_, c₄, t₃, hbare, h⟩ := exec_bind_eq_ok.1 h
    cases hbare
    cases h
    obtain ⟨rfl, hcleared⟩ := exec_dropRows hdrop
    exact .inr ⟨rows, rfl, rfl, rfl, hcleared⟩

theorem shrunk_of_prune (hc : c.manifest.Full) {source : Path} {live : List ContentHash} {n : Nat}
    (h : exec (prune source live) c t = ((.ok n, c'), t')) :
    Shrunk c c' t t' (Manifest.sparedBy source live) ∧
      n = c.manifest.toList.countP fun e => !Manifest.sparedBy source live e.1 e.2.1 := by
  rcases prune_eq_ok h with ⟨hs, rfl, rfl, rfl⟩ | ⟨rows, hs, rfl, rfl, hcleared⟩
  · have hspared : ∀ e ∈ c'.manifest.toList, Manifest.sparedBy source live e.1 e.2.1 = true :=
      fun e he => Manifest.sparedBy_of_get?_none hs live he
    refine ⟨.rfl hc hspared, (List.countP_eq_zero.2 fun e he => ?_).symm⟩
    rw [hspared e he]
    simp
  · refine ⟨⟨?_, hcleared.congr fun p => ?_⟩, length_stale hs live⟩
    · rw [← Manifest.pruned_eq_restrict hc hs live]
    · obtain ⟨q, hq, hrows⟩ := OrderedMap.exists_mem_of_get? hs
      have hqs : q.same source = true := by rw [Path.same_comm, ← Path.compare_eq_iff]; exact hq
      constructor
      · rintro ⟨⟨k, row⟩, he, ho⟩
        obtain ⟨hrow, hstale⟩ := List.mem_filter.1 he
        refine ⟨(q, k, row), Manifest.mem_toList_iff.2 ⟨rows, hrows, hrow⟩, ?_, ho⟩
        simpa [Manifest.sparedBy, hqs] using hstale
      · rintro ⟨⟨p', k, row⟩, he, hfalse, ho⟩
        obtain ⟨hne, hstale⟩ := Bool.or_eq_false_iff.1 hfalse
        obtain ⟨rows', hp', hrow⟩ := Manifest.mem_toList_iff.1 he
        have hsame : source.compare p' = .eq := by
          rw [Path.compare_eq_iff, Path.same_comm]
          simpa using hne
        rw [OrderedMap.get?_of_mem hp' hsame] at hs
        obtain rfl := Option.some.inj hs
        exact ⟨(k, row), List.mem_filter.2 ⟨hrow, by simpa using hstale⟩, ho⟩

/-! ### Forgetting whole sources -/

theorem exec_removeAll {l : List (ContentHash × Row)}
    (h : exec (removeAll l) c t = ((.ok (), c'), t')) :
    c' = c ∧ t.Cleared t' fun p => ∃ e ∈ l, e.2.Owns c.root p := by
  induction l generalizing t with
  | nil =>
    cases h
    exact ⟨rfl, .rfl (by simp)⟩
  | cons e l ih =>
    obtain ⟨k, row⟩ := e
    rw [removeAll] at h
    obtain ⟨c₁, c₂, t₁, h₁, h⟩ := exec_bind_eq_ok.1 h
    cases h₁
    obtain ⟨_, c₃, t₂, h₂, hrest⟩ := exec_bind_eq_ok.1 h
    obtain ⟨hrun, rfl⟩ := exec_attempt_eq_ok.1 h₂
    obtain ⟨rfl, hcleared⟩ := ih hrest
    refine ⟨rfl, ((cleared_of_removeArtifacts hrun).trans hcleared).congr fun p => ?_⟩
    simp only [List.mem_cons, exists_eq_or_imp]

theorem exec_dropSources {l : List (Path × Rows)}
    (h : exec (dropSources l) c t = ((.ok (), c'), t')) :
    c' = { c with manifest := l.foldl (fun m e => m.eraseSource e.1) c.manifest } ∧
      t.Cleared t' fun p => ∃ e ∈ l, ∃ r ∈ e.2.toList, r.2.Owns c.root p := by
  induction l generalizing c t with
  | nil =>
    cases h
    exact ⟨rfl, .rfl (by simp)⟩
  | cons e l ih =>
    obtain ⟨source, rows⟩ := e
    rw [dropSources] at h
    obtain ⟨_, c₁, t₁, h₁, h⟩ := exec_bind_eq_ok.1 h
    cases h₁
    obtain ⟨_, c₂, t₂, h₂, hrest⟩ := exec_bind_eq_ok.1 h
    obtain ⟨rfl, hrows⟩ := exec_removeAll h₂
    obtain ⟨rfl, hcleared⟩ := ih hrest
    refine ⟨rfl, (hrows.trans hcleared).congr fun p => ?_⟩
    simp only [List.mem_cons, exists_eq_or_imp]

theorem retain_eq_ok {live : List Path} {n : Nat}
    (h : exec (retain live) c t = ((.ok n, c'), t')) :
    n = (c.manifest.sources.toList.filter fun e => !live.any e.1.same).length ∧
      c' = { c with manifest := (c.manifest.sources.toList.filter fun e =>
        !live.any e.1.same).foldl (fun m e => m.eraseSource e.1) c.manifest } ∧
      t.Cleared t' fun p => ∃ e ∈ c.manifest.sources.toList.filter (fun e => !live.any e.1.same),
        ∃ r ∈ e.2.toList, r.2.Owns c.root p := by
  rw [retain] at h
  obtain ⟨c₁, c₂, t₁, h₁, h⟩ := exec_bind_eq_ok.1 h
  cases h₁
  obtain ⟨_, c₃, t₂, hdrop, h⟩ := exec_bind_eq_ok.1 h
  cases h
  obtain ⟨rfl, hcleared⟩ := exec_dropSources hdrop
  exact ⟨rfl, rfl, hcleared⟩

theorem shrunk_of_retain (hc : c.manifest.Full) {live : List Path} {n : Nat}
    (h : exec (retain live) c t = ((.ok n, c'), t')) :
    Shrunk c c' t t' (fun p _ => live.any p.same) ∧
      n = c.manifest.sources.toList.countP fun e => !live.any e.1.same := by
  obtain ⟨rfl, rfl, hcleared⟩ := retain_eq_ok h
  refine ⟨⟨by rw [Manifest.foldl_eraseSource hc], hcleared.congr fun p => ?_⟩,
    List.countP_eq_length_filter.symm⟩
  constructor
  · rintro ⟨⟨q, rows⟩, he, ⟨k, row⟩, hr, ho⟩
    obtain ⟨hrows, hgone⟩ := List.mem_filter.1 he
    exact ⟨(q, k, row), Manifest.mem_toList_iff.2 ⟨rows, hrows, hr⟩, by simpa using hgone, ho⟩
  · rintro ⟨⟨q, k, row⟩, he, hgone, ho⟩
    obtain ⟨rows, hrows, hr⟩ := Manifest.mem_toList_iff.1 he
    exact ⟨(q, rows), List.mem_filter.2 ⟨hrows, by simpa using hgone⟩, (k, row), hr, ho⟩

end Cache

end GqlArtifacts
