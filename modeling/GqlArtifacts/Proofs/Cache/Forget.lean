import GqlArtifacts.Proofs.Cache.Load
import GqlArtifacts.Proofs.Cache.Outcome
import Mathlib.Data.List.Nodup
import Mathlib.Data.List.Pairwise

/-!
# Forgetting rows when a deletion fails

`prune` and `retain` take rows from the memory and delete their artifacts file by file, so a failure
may come between two files of a row, between two rows and between two sources. `Forgetting` says
what holds at each of these points: the rows to be kept are in memory, no row is new, and a file
that is gone belonged to a row that has left the memory. Every outcome ends at such a point
(`forgetting_of_prune`, `forgetting_of_retain`).

When no file belongs to two rows and none is the manifest (`Cache.Apart`), a failure leaves a state
that can be loaded again (`Halted`), and a success has done all that was asked (`Forgot`).
-/

namespace GqlArtifacts

open Files CacheM

namespace Cache

variable {base c c' : Cache} {t t' t'' : Tree} {P : Path → ContentHash → Bool} {p q source : Path}
  {k : ContentHash} {row : Row}

theorem lookup?_eraseIfBare (m : Manifest) (source p : Path) (k : ContentHash) :
    (m.eraseIfBare source).lookup? p k = m.lookup? p k := by
  rw [Manifest.eraseIfBare]
  split
  · next hbare =>
    rw [Manifest.lookup?_eraseSource]
    split
    · next hqp => rw [Manifest.lookup?_congr hqp, Manifest.lookup?, OrderedMap.isEmpty_iff.1 hbare]
    · rfl
  · rfl

/-- Some rows that `P` refuses have left the memory, and only artifacts of such rows are gone. -/
structure Forgetting (P : Path → ContentHash → Bool) (base : Cache) (t : Tree) (c : Cache)
    (t' : Tree) : Prop where
  within : Within base base.manifest c
  kept : ∀ p k, P p k = true → c.manifest.lookup? p k = base.manifest.lookup? p k
  node? : ∀ a, t'.node? a = t.node? a ∨ t'.node? a = none ∧ ∃ p k row q,
    base.manifest.lookup? p k = some row ∧ c.manifest.lookup? p k = none ∧
      row.Owns base.root q ∧ t.isFile q = true ∧ q.place = a

namespace Forgetting

theorem start (c : Cache) (t : Tree) : Forgetting P c t c t :=
  ⟨⟨⟨c.manifest, rfl⟩, fun _ _ _ h => h⟩, fun _ _ _ => rfl, fun _ => .inl rfl⟩

/-- Fewer rows in memory do no harm, as long as they are refused ones. -/
theorem forget (h : Forgetting P base t c t') {m : Manifest}
    (hm : ∀ p k, m.lookup? p k = c.manifest.lookup? p k ∨ m.lookup? p k = none ∧ P p k = false) :
    Forgetting P base t { c with manifest := m } t' := by
  refine ⟨h.within.withManifest fun p k row hrow => ?_, fun p k hP => ?_, fun a => ?_⟩
  · rcases hm p k with heq | ⟨hnone, -⟩
    · exact heq ▸ hrow
    · rw [hnone] at hrow
      cases hrow
  · rcases hm p k with heq | ⟨-, hfalse⟩
    · exact heq.trans (h.kept p k hP)
    · rw [hP] at hfalse
      cases hfalse
  · refine (h.node? a).imp_right fun ⟨hnone, p, k, row, q, hrow, hlost, hq⟩ => ?_
    refine ⟨hnone, p, k, row, q, hrow, ?_, hq⟩
    rcases hm p k with heq | ⟨hnone, -⟩
    · exact heq.trans hlost
    · exact hnone

theorem eraseRow (h : Forgetting P base t c t') (hP : Manifest.Spelled P) (hk : P p k = false) :
    Forgetting P base t { c with manifest := c.manifest.eraseRow p k } t' := by
  refine h.forget fun q j => ?_
  rw [Manifest.lookup?_eraseRow]
  split
  · next hsame =>
    obtain ⟨hqp, rfl⟩ := hsame
    exact .inr ⟨rfl, (hP q p j hqp).trans hk⟩
  · exact .inl rfl

theorem eraseSource (h : Forgetting P base t c t') (hP : Manifest.Spelled P)
    (hp : ∀ k, P p k = false) :
    Forgetting P base t { c with manifest := c.manifest.eraseSource p } t' := by
  refine h.forget fun q j => ?_
  rw [Manifest.lookup?_eraseSource]
  split
  · next hqp => exact .inr ⟨rfl, (hP q p j hqp).trans (hp j)⟩
  · exact .inl rfl

theorem eraseIfBare (h : Forgetting P base t c t') (p : Path) :
    Forgetting P base t { c with manifest := c.manifest.eraseIfBare p } t' := by
  exact h.forget fun q j => .inl (lookup?_eraseIfBare c.manifest p q j)

/-! ### The files that are left -/

theorem shrinks (h : Forgetting P base t c t') : t'.Grows t := by
  intro a ha
  rw [Tree.isDirectory_iff] at ha ⊢
  rcases h.node? a with heq | ⟨hnone, -⟩
  · exact heq ▸ ha
  · rw [hnone] at ha
    cases ha

theorem grows (h : Forgetting P base t c t') : t.Grows t' := by
  intro a ha
  rw [Tree.isDirectory_iff] at ha ⊢
  rcases h.node? a with heq | ⟨-, p, k, row, q, -, -, -, hfile, rfl⟩
  · exact heq.trans ha
  · have hsome := (Tree.isFile_iff.1 hfile).2
    rw [Tree.file?, ha] at hsome
    cases hsome

theorem file?_of_file? (h : Forgetting P base t c t') {a : Place} {content : ByteArray}
    (ha : t'.file? a = some content) : t.file? a = some content := by
  rw [Tree.file?_eq_some] at ha ⊢
  rcases h.node? a with heq | ⟨hnone, -⟩
  · exact heq ▸ ha
  · rw [hnone] at ha
    cases ha

theorem read_of_read (h : Forgetting P base t c t') {content : ByteArray}
    (hq : t'.read q = .ok content) : t.read q = .ok content := by
  obtain ⟨hreaches, hfile⟩ := Tree.read_eq_ok.1 hq
  exact Tree.read_eq_ok.2 ⟨hreaches.grows h.shrinks, h.file?_of_file? hfile⟩

theorem isFile_of_isFile (h : Forgetting P base t c t') (hq : t'.isFile q = true) :
    t.isFile q = true := by
  obtain ⟨content, hread⟩ := Tree.isFile_iff_read.1 hq
  exact Tree.isFile_iff_read.2 ⟨content, h.read_of_read hread⟩

/-- Deleting an artifact of a row that has left the memory, whether it fails or not. -/
theorem removeIfPresent (h : Forgetting P base t c t') (hrow : base.manifest.lookup? p k = some row)
    (hlost : c.manifest.lookup? p k = none) (hq : row.Owns base.root q)
    {r : Except FileFailure Bool} (ho : (removeIfPresent q).Outcome t' r t'') :
    Forgetting P base t c t'' := by
  obtain ⟨answer, t₁, hremove, hrest⟩ := Program.outcome_bind.1 ho
  obtain rfl : t'' = t₁ := by
    split at hrest <;> exact hrest.2
  rcases Program.outcome_remove hremove with ⟨-, hremoved⟩ | ⟨-, rfl⟩
  · obtain ⟨hfile, rfl⟩ := Tree.remove_eq_ok hremoved
    obtain ⟨content, hcontent⟩ := Option.isSome_iff_exists.1 (Tree.isFile_iff.1 hfile).2
    refine ⟨h.within, h.kept, fun a => ?_⟩
    rw [Tree.node?_drop (Tree.ne_nil_of_file? hcontent)]
    split
    · next ha =>
      exact .inr ⟨rfl, p, k, row, q, hrow, hlost, hq, h.isFile_of_isFile hfile, ha.symm⟩
    · exact h.node? a
  · exact h

theorem removeArtifacts (h : Forgetting P base t c t')
    (hrow : base.manifest.lookup? p k = some row) (hlost : c.manifest.lookup? p k = none)
    {r : Except FileFailure Unit} (ho : (row.removeArtifacts c.root).Outcome t' r t'') :
    Forgetting P base t c t'' := by
  rw [h.within.root] at ho
  obtain ⟨first, t₁, htsx, hrest⟩ := Program.outcome_bind.1 ho
  have hfirst := h.removeIfPresent hrow hlost (.inl rfl) htsx
  cases first with
  | error e =>
    obtain ⟨-, rfl⟩ := hrest
    exact hfirst
  | ok b =>
    obtain ⟨second, hdts, -⟩ := Program.outcome_map.1 hrest
    exact hfirst.removeIfPresent hrow hlost (.inr rfl) hdts

/-! ### Pruning a source -/

theorem dropRows (h : Forgetting P base t c t') (hP : Manifest.Spelled P)
    {l : List (ContentHash × Row)}
    (hl : ∀ e ∈ l, base.manifest.lookup? source e.1 = some e.2 ∧ P source e.1 = false)
    {r : Except FileFailure Unit} (ho : Outcome (dropRows source l) c t' r c' t'') :
    Forgetting P base t c' t'' := by
  induction l generalizing c t' with
  | nil =>
    obtain ⟨-, rfl, rfl⟩ := outcome_pure ho
    exact h
  | cons e l ih =>
    obtain ⟨k, row⟩ := e
    obtain ⟨hrow, hstale⟩ := hl _ (List.mem_cons_self ..)
    have herased := h.eraseRow hP hstale
    have hlost : (c.manifest.eraseRow source k).lookup? source k = none := by
      rw [Manifest.lookup?_eraseRow]
      exact if_pos ⟨Path.same_self source, rfl⟩
    have hdrop : Outcome (attempt id (row.removeArtifacts c.root) >>= fun _ =>
        Cache.dropRows source l) { c with manifest := c.manifest.eraseRow source k } t' r c' t'' := ho
    rcases outcome_bind hdrop with ⟨_, c₁, t₁, hfirst, hrest⟩ | ⟨_, -, hfirst⟩
    · obtain ⟨_, hremove, -, rfl⟩ := outcome_attempt hfirst
      exact ih (herased.removeArtifacts hrow hlost hremove)
        (fun e he => hl e (List.mem_cons_of_mem _ he)) hrest
    · obtain ⟨_, hremove, -, rfl⟩ := outcome_attempt hfirst
      exact herased.removeArtifacts hrow hlost hremove

end Forgetting

theorem forgetting_of_prune {live : List ContentHash} {r : Except FileFailure Nat}
    (h : Outcome (prune source live) c t r c' t') :
    Forgetting (Manifest.sparedBy source live) c t c' t' := by
  have hstart : Forgetting (Manifest.sparedBy source live) c t c t := .start c t
  have h := outcome_get_bind h
  cases hs : c.manifest.sources.get? source with
  | none =>
    rw [hs] at h
    obtain ⟨-, rfl, rfl⟩ := outcome_pure h
    exact hstart
  | some rows =>
    rw [hs] at h
    have hstale : ∀ e ∈ rows.toList.filter (fun e => !live.contains e.1),
        c.manifest.lookup? source e.1 = some e.2 ∧
          Manifest.sparedBy source live source e.1 = false := by
      intro e he
      obtain ⟨hmem, hdead⟩ := List.mem_filter.1 he
      refine ⟨?_, ?_⟩
      · rw [Manifest.lookup?_eq_bind, hs, Option.bind_some]
        exact OrderedMap.get?_self_of_mem hmem
      · rw [Manifest.sparedBy, Path.same_self, Bool.not_true, Bool.false_or]
        simpa using hdead
    have hspelled := Manifest.spelled_sparedBy source live
    rcases outcome_bind h with ⟨_, c₁, t₁, hdrop, hrest⟩ | ⟨_, -, hdrop⟩
    · obtain ⟨-, rfl, rfl⟩ := outcome_pure (show Outcome (pure _) { c₁ with
        manifest := c₁.manifest.eraseIfBare source } t₁ r c' t' from hrest)
      exact (hstart.dropRows hspelled hstale hdrop).eraseIfBare source
    · exact hstart.dropRows hspelled hstale hdrop

/-! ### Forgetting whole sources -/

namespace Forgetting

theorem removeAll (h : Forgetting P base t c t') {l : List (ContentHash × Row)}
    (hl : ∀ e ∈ l, base.manifest.lookup? source e.1 = some e.2)
    (hlost : ∀ k, c.manifest.lookup? source k = none)
    {r : Except FileFailure Unit} (ho : Outcome (removeAll l) c t' r c' t'') :
    Forgetting P base t c' t'' ∧ c' = c := by
  induction l generalizing t' with
  | nil =>
    obtain ⟨-, rfl, rfl⟩ := outcome_pure ho
    exact ⟨h, rfl⟩
  | cons e l ih =>
    obtain ⟨k, row⟩ := e
    have hrow := hl _ (List.mem_cons_self ..)
    rcases outcome_bind (outcome_get_bind ho) with ⟨_, c₁, t₁, hfirst, hrest⟩ | ⟨_, -, hfirst⟩
    · obtain ⟨_, hremove, -, rfl⟩ := outcome_attempt hfirst
      exact ih (h.removeArtifacts hrow (hlost k) hremove)
        (fun e he => hl e (List.mem_cons_of_mem _ he)) hrest
    · obtain ⟨_, hremove, -, rfl⟩ := outcome_attempt hfirst
      exact ⟨h.removeArtifacts hrow (hlost k) hremove, rfl⟩

theorem dropSources (h : Forgetting P base t c t') (hP : Manifest.Spelled P)
    {l : List (Path × Rows)}
    (hl : ∀ e ∈ l, e ∈ base.manifest.sources.toList ∧ ∀ k, P e.1 k = false)
    {r : Except FileFailure Unit} (ho : Outcome (dropSources l) c t' r c' t'') :
    Forgetting P base t c' t'' := by
  induction l generalizing c t' with
  | nil =>
    obtain ⟨-, rfl, rfl⟩ := outcome_pure ho
    exact h
  | cons e l ih =>
    obtain ⟨p, rows⟩ := e
    obtain ⟨hmem, hgone⟩ := hl _ (List.mem_cons_self ..)
    have herased := h.eraseSource hP hgone
    have hlost : ∀ k, (c.manifest.eraseSource p).lookup? p k = none := fun k => by
      rw [Manifest.lookup?_eraseSource]
      exact if_pos (Path.same_self p)
    have hrows : ∀ e ∈ rows.toList, base.manifest.lookup? p e.1 = some e.2 := fun e he =>
      Manifest.lookup?_of_mem (Manifest.mem_toList_iff.2 ⟨rows, hmem, he⟩)
    have hdrop : Outcome (Cache.removeAll rows.toList >>= fun _ => Cache.dropSources l)
        { c with manifest := c.manifest.eraseSource p } t' r c' t'' := ho
    rcases outcome_bind hdrop with ⟨_, c₁, t₁, hfirst, hrest⟩ | ⟨_, -, hfirst⟩
    · obtain ⟨hremoved, rfl⟩ := herased.removeAll hrows hlost hfirst
      exact ih hremoved (fun e he => hl e (List.mem_cons_of_mem _ he)) hrest
    · exact (herased.removeAll hrows hlost hfirst).1

end Forgetting

theorem spelled_any (live : List Path) : Manifest.Spelled fun p _ => live.any p.same := by
  intro p q k hpq
  have hsame : p.same = q.same := funext fun x => by rw [Path.same, Path.same, eq_of_beq hpq]
  simp only [hsame]

theorem forgetting_of_retain {live : List Path} {r : Except FileFailure Nat}
    (h : Outcome (retain live) c t r c' t') :
    Forgetting (fun p _ => live.any p.same) c t c' t' := by
  have hgone : ∀ e ∈ c.manifest.sources.toList.filter (fun e => !live.any e.1.same),
      e ∈ c.manifest.sources.toList ∧ ∀ _ : ContentHash, live.any e.1.same = false := by
    intro e he
    obtain ⟨hmem, hdead⟩ := List.mem_filter.1 he
    exact ⟨hmem, fun _ => by simpa using hdead⟩
  rcases outcome_bind (outcome_get_bind h) with ⟨_, c₁, t₁, hdrop, hrest⟩ | ⟨_, -, hdrop⟩
  · obtain ⟨-, rfl, rfl⟩ := outcome_pure hrest
    exact (Forgetting.start c t).dropSources (spelled_any live) hgone hdrop
  · exact (Forgetting.start c t).dropSources (spelled_any live) hgone hdrop

/-! ### Rows that share no file -/

/-- No file of the tree belongs to two rows, and none that belongs to a row is the manifest. -/
structure Apart (c : Cache) (t : Tree) : Prop where
  rows : ∀ e ∈ c.manifest.toList, ∀ e' ∈ c.manifest.toList, e ≠ e' → ∀ q q',
    e.2.2.Owns c.root q → e'.2.2.Owns c.root q' → t.isFile q = true → t.isFile q' = true →
      q.place ≠ q'.place
  manifest : ∀ e ∈ c.manifest.toList, ∀ q, e.2.2.Owns c.root q → t.isFile q = true →
    q.place ≠ (c.dir / manifestName).place

/-- The places of the artifacts of all rows. -/
def artifacts (c : Cache) : List Place :=
  c.manifest.toList.flatMap fun e => [(c.root / e.2.2.tsx).place, (c.root / e.2.2.dts).place]

theorem apart_of_nodup (h : ((c.dir / manifestName).place :: c.artifacts).Nodup) (t : Tree) :
    c.Apart t := by
  obtain ⟨hmanifest, hnodup⟩ := List.nodup_cons.1 h
  have howns : ∀ (e : Path × ContentHash × Row) q, e.2.2.Owns c.root q →
      q.place ∈ [(c.root / e.2.2.tsx).place, (c.root / e.2.2.dts).place] := by
    rintro e q (rfl | rfl)
    · exact List.mem_cons_self ..
    · exact List.mem_cons_of_mem _ (List.mem_cons_self ..)
  refine ⟨fun e he e' he' hne q q' hq hq' _ _ heq => ?_, fun e he q hq _ heq => ?_⟩
  · have hsymm : Std.Symm (Function.onFun List.Disjoint fun e : Path × ContentHash × Row =>
        [(c.root / e.2.2.tsx).place, (c.root / e.2.2.dts).place]) :=
        ⟨fun _ _ h _ ha hb => h hb ha⟩
    have hdisjoint := (List.nodup_flatMap.1 hnodup).2.forall he he' hne
    exact hdisjoint (howns e q hq) (heq ▸ howns e' q' hq')
  · exact hmanifest (heq ▸ List.mem_flatMap.2 ⟨e, he, howns e q hq⟩)

namespace Forgetting
variable (h : Forgetting P base t c t') (hapart : base.Apart t)
include h hapart

/-- A row in memory has lost no file. -/
theorem read_iff (hrow : c.manifest.lookup? p k = some row) (hq : row.Owns base.root q)
    (content : ByteArray) : t'.read q = .ok content ↔ t.read q = .ok content := by
  refine ⟨h.read_of_read, fun hread => ?_⟩
  have hfile := Tree.isFile_iff_read.2 ⟨content, hread⟩
  obtain ⟨hreaches, hcontent⟩ := Tree.read_eq_ok.1 hread
  refine Tree.read_eq_ok.2 ⟨hreaches.grows h.grows, ?_⟩
  rw [Tree.file?_eq_some] at hcontent ⊢
  rcases h.node? q.place with heq | ⟨-, p', k', row', q', hrow', hlost, hq', hfile', hplace⟩
  · exact heq.trans hcontent
  · -- the file would belong to this row and to another one that has left the memory
    obtain ⟨p₁, hp₁, hmem⟩ := Manifest.lookup?_eq_some_iff.1 (h.within.rows _ _ _ hrow)
    obtain ⟨p₂, hp₂, hmem'⟩ := Manifest.lookup?_eq_some_iff.1 hrow'
    refine absurd hplace (hapart.rows _ hmem' _ hmem (fun heq => ?_) q' q hq' hq hfile' hfile)
    obtain ⟨rfl, rfl, -⟩ : p₂ = p₁ ∧ k' = k ∧ row' = row := by simpa using heq
    rw [Manifest.lookup?_congr hp₂, ← Manifest.lookup?_congr hp₁, hrow] at hlost
    cases hlost

theorem node?_manifest :
    t'.node? (base.dir / manifestName).place = t.node? (base.dir / manifestName).place := by
  rcases h.node? (base.dir / manifestName).place with
    heq | ⟨-, p, k, row, q, hrow, -, hq, hfile, hplace⟩
  · exact heq
  · obtain ⟨p₁, -, hmem⟩ := Manifest.lookup?_eq_some_iff.1 hrow
    exact absurd hplace (hapart.manifest _ hmem q hq hfile)

theorem manifest?_eq : t'.manifest? base.dir = t.manifest? base.dir := by
  have hread : ∀ content, t'.read (base.dir / manifestName) = .ok content ↔
      t.read (base.dir / manifestName) = .ok content := by
    intro content
    refine ⟨h.read_of_read, fun hread => ?_⟩
    obtain ⟨hreaches, hcontent⟩ := Tree.read_eq_ok.1 hread
    refine Tree.read_eq_ok.2 ⟨hreaches.grows h.grows, ?_⟩
    rw [Tree.file?, h.node?_manifest hapart]
    exact hcontent
  rw [Tree.manifest?, Tree.manifest?, run_manifestLoad_eq, run_manifestLoad_eq, Tree.readText,
    Tree.readText]
  cases hr : t.read (base.dir / manifestName) with
  | ok content => rw [(hread content).2 hr]
  | error e =>
    cases hr' : t'.read (base.dir / manifestName) with
    | ok content =>
      rw [(hread content).1 hr'] at hr
      cases hr
    | error e' => rfl

/-- What is loaded then is what was persisted before, less the rows whose files are gone. -/
theorem lookup?_load {d : Cache} (hroot : d.root = base.root) (hdir : d.dir = base.dir) (p : Path)
    (k : ContentHash) : (d.load.run t').1.2.manifest.lookup? p k =
      ((d.persisted t).lookup? p k).filter (Row.isPresent base.root t') := by
  have hpersisted : d.persisted t' = d.persisted t := by
    rw [persisted, persisted, hdir, h.manifest?_eq hapart]
  rw [run_load, lookup?_loaded, hpersisted, hroot]

end Forgetting

/-! ### What is left in memory -/

theorem isEmpty_of_mem_eraseIfBare {m : Manifest} {e : Path × Rows}
    (he : e ∈ (m.eraseIfBare source).sources.toList) (hs : e.1.same source = true) :
    e.2.isEmpty = false := by
  have heq : source.compare e.1 = .eq := by rw [Path.compare_eq_iff, Path.same_comm, hs]
  rw [Manifest.eraseIfBare] at he
  split at he
  · have hne := (List.mem_filter.1 he).2
    exact absurd heq (bne_iff_ne.1 hne)
  · next hrows =>
    rw [Manifest.rows, OrderedMap.get?_of_mem he heq, Option.getD_some] at hrows
    simpa using hrows

theorem get?_eraseIfBare {m : Manifest} (hs : p.same source = false) :
    (m.eraseIfBare source).sources.get? p = m.sources.get? p := by
  rw [Manifest.eraseIfBare]
  split
  · exact OrderedMap.get?_erase_of_ne (by rw [Ne, Path.compare_eq_iff, hs]; exact Bool.false_ne_true)
  · rfl

/-- The manifest with other rows for a source. -/
def Manifest.putRows (m : Manifest) (source : Path) (rows : Rows) : Manifest :=
  { m with sources := m.sources.insert source rows }

theorem lookup?_putRows_filter {m : Manifest} {rows : Rows}
    (hs : m.sources.get? source = some rows) (live : List ContentHash) (p : Path) (k : ContentHash) :
    (Manifest.putRows m source (rows.filter fun h _ => live.contains h)).lookup? p k =
      (m.lookup? p k).filter fun _ => Manifest.sparedBy source live p k := by
  rw [Manifest.lookup?_eq_bind, Manifest.lookup?_eq_bind, Manifest.putRows]
  simp only [OrderedMap.get?_insert, Path.compare_eq_iff]
  cases hp : p.same source with
  | true =>
    have hrows : m.sources.get? p = some rows :=
      (OrderedMap.get?_congr (Path.compare_eq_iff.2 hp)).trans hs
    have hspared : Manifest.sparedBy source live p k = live.contains k := by
      rw [Manifest.sparedBy, hp, Bool.not_true, Bool.false_or]
    rw [if_pos rfl, hrows, Option.bind_some, Option.bind_some, hspared]
    exact OrderedMap.get?_filter fun a b _ hab => by rw [Std.LawfulEqCmp.eq_of_compare hab]
  | false =>
    have hspared : Manifest.sparedBy source live p k = true := by
      rw [Manifest.sparedBy, hp, Bool.not_false, Bool.true_or]
    rw [if_neg Bool.false_ne_true, hspared]
    cases (m.sources.get? p).bind fun rows => rows.get? k <;> rfl

/-! ### Success and failure -/

/-- The rows that `P` refuses are gone with their artifacts and nothing else is. Of the sources in
`T`, none is left without rows. -/
structure Forgot (P : Path → ContentHash → Bool) (T : Path → Bool) (c : Cache) (t : Tree)
    (c' : Cache) (t' : Tree) : Prop where
  cache : ∃ sources, c' = { c with manifest := { c.manifest with sources } }
  rows : ∀ p k, c'.manifest.lookup? p k = (c.manifest.lookup? p k).filter fun _ => P p k
  bare : ∀ e ∈ c'.manifest.sources.toList, T e.1 = true → e.2.isEmpty = false
  others : ∀ p, T p = false → c'.manifest.sources.get? p = c.manifest.sources.get? p
  deleted : ∀ p k row, c.manifest.lookup? p k = some row → P p k = false →
    ∀ q, row.Owns c.root q → t'.isFile q = false
  spared : ∀ p k row, c.manifest.lookup? p k = some row → P p k = true →
    ∀ q, row.Owns c.root q → ∀ content, t'.read q = .ok content ↔ t.read q = .ok content
  node? : ∀ a, t'.node? a = t.node? a ∨ t'.node? a = none ∧ ∃ p k row q,
    c.manifest.lookup? p k = some row ∧ P p k = false ∧ row.Owns c.root q ∧ t.isFile q = true ∧
      q.place = a

/-- Some of the rows that `P` refuses are gone from memory, and each file that is gone was an
artifact of one of these. What is loaded from there has every persisted row with its artifacts. -/
structure Halted (P : Path → ContentHash → Bool) (c : Cache) (t : Tree) (c' : Cache) (t' : Tree) :
    Prop where
  cache : ∃ m, c' = { c with manifest := m }
  kept : ∀ p k, P p k = true → c'.manifest.lookup? p k = c.manifest.lookup? p k
  known : ∀ p k row, c'.manifest.lookup? p k = some row → c.manifest.lookup? p k = some row
  spared : ∀ p k row, c'.manifest.lookup? p k = some row →
    ∀ q, row.Owns c.root q → ∀ content, t'.read q = .ok content ↔ t.read q = .ok content
  node? : ∀ a, t'.node? a = t.node? a ∨ t'.node? a = none ∧ ∃ p k row q,
    c.manifest.lookup? p k = some row ∧ c'.manifest.lookup? p k = none ∧ row.Owns c.root q ∧
      t.isFile q = true ∧ q.place = a
  manifest : t'.node? (c.dir / manifestName).place = t.node? (c.dir / manifestName).place
  loaded : ∀ d : Cache, d.root = c.root → d.dir = c.dir → ∀ p k,
    (d.load.run t').1.2.manifest.lookup? p k =
      ((d.persisted t).lookup? p k).filter (Row.isPresent c.root t')

theorem Forgetting.halted (h : Forgetting P c t c' t') (hapart : c.Apart t) :
    Halted P c t c' t' where
  cache := h.within.cache
  kept := h.kept
  known := h.within.rows
  spared := fun _ _ _ hrow _ hq content => h.read_iff hapart hrow hq content
  node? := h.node?
  manifest := h.node?_manifest hapart
  loaded := fun _ hroot hdir p k => h.lookup?_load hapart hroot hdir p k

theorem Forgetting.forgot {T : Path → Bool} (h : Forgetting P c t c' t') (hapart : c.Apart t)
    (hcache : ∃ sources, c' = { c with manifest := { c.manifest with sources } })
    (hrows : ∀ p k, c'.manifest.lookup? p k = (c.manifest.lookup? p k).filter fun _ => P p k)
    (hbare : ∀ e ∈ c'.manifest.sources.toList, T e.1 = true → e.2.isEmpty = false)
    (hothers : ∀ p, T p = false → c'.manifest.sources.get? p = c.manifest.sources.get? p)
    {gone : Path → Prop} (hcleared : t.Cleared t' gone)
    (hgone : ∀ p k row q, c.manifest.lookup? p k = some row → P p k = false →
      row.Owns c.root q → gone q) : Forgot P T c t c' t' where
  cache := hcache
  rows := hrows
  bare := hbare
  others := hothers
  deleted := by
    intro p k row hrow hP q hq
    rw [Bool.eq_false_iff, Ne, Tree.isFile_iff]
    rintro ⟨hreaches, hsome⟩
    rw [hcleared.cleared q (hgone p k row q hrow hP hq) (hreaches.grows h.shrinks)] at hsome
    cases hsome
  spared := by
    intro p k row hrow hP q hq content
    refine h.read_iff hapart (p := p) (k := k) ?_ hq content
    rw [hrows, hrow, hP]
    rfl
  node? := by
    intro a
    refine (h.node? a).imp_right fun ⟨hnone, p, k, row, q, hrow, hlost, hq⟩ => ?_
    refine ⟨hnone, p, k, row, q, hrow, ?_, hq⟩
    rw [hrows, hrow, Option.filter_some] at hlost
    by_contra hP
    rw [if_pos (by simpa using hP)] at hlost
    cases hlost

/-- Where no row is refused, nothing has to be done. -/
theorem Forgot.refl {T : Path → Bool}
    (hP : ∀ p k row, c.manifest.lookup? p k = some row → P p k = true)
    (hT : ∀ e ∈ c.manifest.sources.toList, T e.1 = true → e.2.isEmpty = false) :
    Forgot P T c t c t where
  cache := ⟨c.manifest.sources, rfl⟩
  rows := by
    intro p k
    cases hrow : c.manifest.lookup? p k with
    | none => rfl
    | some row => rw [hP p k row hrow]; rfl
  bare := hT
  others := fun _ _ => rfl
  deleted := by
    intro p k row hrow hfalse
    rw [hP p k row hrow] at hfalse
    cases hfalse
  spared := fun _ _ _ _ _ _ _ _ => Iff.rfl
  node? := fun _ => .inl rfl

theorem forgot_of_prune (hapart : c.Apart t) {live : List ContentHash} {n : Nat}
    (h : exec (prune source live) c t = ((.ok n, c'), t')) :
    Forgot (Manifest.sparedBy source live) (·.same source) c t c' t' ∧
      n = c.manifest.toList.countP fun e => !Manifest.sparedBy source live e.1 e.2.1 := by
  have houtcome := outcome_exec (prune source live) c t
  rw [h] at houtcome
  have hforgetting : Forgetting (Manifest.sparedBy source live) c t c' t' :=
    forgetting_of_prune houtcome
  rcases prune_eq_ok h with ⟨hs, rfl, rfl, rfl⟩ | ⟨rows, hs, rfl, rfl, hcleared⟩
  · -- the source is unknown, so no row is refused
    have hspared : ∀ p k row, c'.manifest.lookup? p k = some row →
        Manifest.sparedBy source live p k = true := by
      intro p k row hrow
      obtain ⟨q, hpq, hmem⟩ := Manifest.lookup?_eq_some_iff.1 hrow
      rw [Manifest.spelled_sparedBy source live p q k hpq]
      exact Manifest.sparedBy_of_get?_none (e := (q, k, row)) hs live hmem
    refine ⟨.refl hspared fun e he hsame => ?_, ?_⟩
    · refine absurd ?_ (OrderedMap.get?_eq_none_iff.1 hs e he)
      rw [Path.compare_eq_iff, Path.same_comm, hsame]
    · refine (List.countP_eq_zero.2 fun e he => ?_).symm
      rw [Manifest.sparedBy_of_get?_none hs live he]
      exact Bool.false_ne_true
  · have hfold : (rows.toList.filter fun e => !live.contains e.1).foldl
        (fun m e => m.eraseRow source e.1) c.manifest =
        Manifest.putRows c.manifest source (rows.filter fun h _ => live.contains h) := by
      rw [Manifest.foldl_eraseRow hs, OrderedMap.foldl_erase_filter rows live.contains]
      rfl
    rw [hfold] at hforgetting ⊢
    refine ⟨hforgetting.forgot hapart ?_ (fun p k => ?_) (fun e he hsame => ?_) (fun p hp => ?_)
      hcleared fun p k row q hrow hP hq => ?_, length_stale hs live⟩
    · refine ⟨((Manifest.putRows c.manifest source
        (rows.filter fun h _ => live.contains h)).eraseIfBare source).sources, ?_⟩
      rw [Manifest.eraseIfBare]
      split <;> rfl
    · rw [lookup?_eraseIfBare]
      exact lookup?_putRows_filter hs live p k
    · exact isEmpty_of_mem_eraseIfBare he hsame
    · rw [get?_eraseIfBare hp]
      refine OrderedMap.get?_insert_of_ne ?_
      rw [Ne, Path.compare_eq_iff, hp]
      exact Bool.false_ne_true
    · obtain ⟨hsame, hdead⟩ := Bool.or_eq_false_iff.1 hP
      rw [Manifest.lookup?_congr (q := source) (by simpa using hsame), Manifest.lookup?_eq_bind, hs,
        Option.bind_some] at hrow
      obtain ⟨k', hk, hmem⟩ := OrderedMap.exists_mem_of_get? hrow
      obtain rfl := Std.LawfulEqCmp.eq_of_compare hk
      exact ⟨(k, row), List.mem_filter.2 ⟨hmem, by simpa using hdead⟩, hq⟩

theorem forgot_of_retain (hapart : c.Apart t) {live : List Path} {n : Nat}
    (h : exec (retain live) c t = ((.ok n, c'), t')) :
    Forgot (fun p _ => live.any p.same) (fun p => !live.any p.same) c t c' t' ∧
      n = c.manifest.sources.toList.countP fun e => !live.any e.1.same := by
  have houtcome := outcome_exec (retain live) c t
  rw [h] at houtcome
  have hforgetting : Forgetting (fun p _ => live.any p.same) c t c' t' := forgetting_of_retain houtcome
  obtain ⟨rfl, rfl, hcleared⟩ := retain_eq_ok h
  rw [Manifest.foldl_eraseSource_filter] at hforgetting ⊢
  have hspelled : ∀ p q (rows : Rows), Path.compare p q = .eq → live.any p.same = live.any q.same :=
    fun p q _ hpq => spelled_any live p q default (Path.compare_eq_iff.1 hpq)
  refine ⟨hforgetting.forgot hapart ⟨_, rfl⟩ (fun p k => ?_) (fun e he hdead => ?_) (fun p hp => ?_)
    hcleared fun p k row q hrow hdead hq => ?_, List.countP_eq_length_filter.symm⟩
  · rw [Manifest.lookup?_eq_bind, Manifest.lookup?_eq_bind]
    simp only [OrderedMap.get?_filter hspelled]
    cases c.manifest.sources.get? p with
    | none => rfl
    | some rows =>
      rw [Option.filter_some, Option.bind_some]
      cases live.any p.same with
      | true => rw [if_pos rfl, Option.bind_some]; cases rows.get? k <;> rfl
      | false => cases rows.get? k <;> rfl
  · have hlive : live.any e.1.same = true := (List.mem_filter.1 he).2
    rw [hlive] at hdead
    cases hdead
  · rw [OrderedMap.get?_filter hspelled]
    cases c.manifest.sources.get? p with
    | none => rfl
    | some rows =>
      rw [Bool.not_eq_false'] at hp
      simp [hp]
  · obtain ⟨p', hpp', hmem⟩ := Manifest.lookup?_eq_some_iff.1 hrow
    obtain ⟨rows, hrows, hk⟩ := Manifest.mem_toList_iff.1 hmem
    have hgone : live.any p'.same = false := (spelled_any live p p' k hpp').symm.trans hdead
    exact ⟨(p', rows), List.mem_filter.2 ⟨hrows, by simpa using hgone⟩, (k, row), hk, hq⟩

/-- When no file belongs to two rows, pruning and retaining do all that is asked or halt in a state
that can be loaded again, whichever deletion fails. -/
theorem forgets_or_halts (hapart : c.Apart t) (source : Path) (hashes : List ContentHash)
    (sources : List Path) :
    (∀ n c' t', exec (prune source hashes) c t = ((.ok n, c'), t') →
      Forgot (Manifest.sparedBy source hashes) (·.same source) c t c' t' ∧
        n = c.manifest.toList.countP fun e => !Manifest.sparedBy source hashes e.1 e.2.1) ∧
    (∀ e c' t', Outcome (prune source hashes) c t (.error e) c' t' →
      Halted (Manifest.sparedBy source hashes) c t c' t') ∧
    (∀ n c' t', exec (retain sources) c t = ((.ok n, c'), t') →
      Forgot (fun p _ => sources.any p.same) (fun p => !sources.any p.same) c t c' t' ∧
        n = c.manifest.sources.toList.countP fun e => !sources.any e.1.same) ∧
    (∀ e c' t', Outcome (retain sources) c t (.error e) c' t' →
      Halted (fun p _ => sources.any p.same) c t c' t') :=
  ⟨fun _ _ _ h => forgot_of_prune hapart h, fun _ _ _ h => (forgetting_of_prune h).halted hapart,
    fun _ _ _ h => forgot_of_retain hapart h, fun _ _ _ h => (forgetting_of_retain h).halted hapart⟩

namespace Sample

def key (n : UInt8) : ContentHash := ⟨Vector.replicate 16 n⟩

def named (name : String) : Row := ⟨⟨s!"c/{name}.tsx"⟩, ⟨s!"t/{name}.d.ts"⟩, none, none⟩

/-- Two rows of one source and one of another. -/
def cache : Cache :=
  (((Cache.new ⟨""⟩ ⟨"c"⟩ "1").record ⟨"a"⟩ (key 1) (named "x")).record ⟨"a"⟩ (key 2)
    (named "y")).record ⟨"b"⟩ (key 3) (named "z")

/-- The artifacts of the rows, but there is a directory in the place of `t/y.d.ts`. -/
def tree : Tree :=
  ["x", "y", "z"].foldl (fun t name => t.put ["c", name ++ ".tsx"] (.file "".toUTF8))
    (((((Tree.empty.put ["c"] .directory).put ["t"] .directory).put ["t", "x.d.ts"]
      (.file "".toUTF8)).put ["t", "y.d.ts"] .directory).put ["t", "z.d.ts"] (.file "".toUTF8))

end Sample

/-- Of the rows of `a`, the one is gone and the other has left the memory before the deletion of its
second artifact fails. The row of `b` can be pruned all the same. -/
theorem forgets_or_halts_sample : Sample.cache.Apart Sample.tree ∧
    (∃ e c' t', Outcome (prune ⟨"a"⟩ []) Sample.cache Sample.tree (.error e) c' t' ∧
      Halted (Manifest.sparedBy ⟨"a"⟩ []) Sample.cache Sample.tree c' t' ∧
      c'.manifest.count = 1 ∧ t'.isFile ⟨"c/y.tsx"⟩ = false) ∧
    ∃ c' t', exec (prune ⟨"b"⟩ []) Sample.cache Sample.tree = ((.ok 1, c'), t') ∧
      Forgot (Manifest.sparedBy ⟨"b"⟩ []) (·.same ⟨"b"⟩) Sample.cache Sample.tree c' t' := by
  have hapart : Sample.cache.Apart Sample.tree := apart_of_nodup (by decide +kernel) _
  have hfailed : (exec (prune ⟨"a"⟩ []) Sample.cache Sample.tree).1.1.toOption = none ∧
      (exec (prune ⟨"a"⟩ []) Sample.cache Sample.tree).1.2.manifest.count = 1 ∧
      (exec (prune ⟨"a"⟩ []) Sample.cache Sample.tree).2.isFile ⟨"c/y.tsx"⟩ = false := by
    decide +kernel
  have hpruned : (exec (prune ⟨"b"⟩ []) Sample.cache Sample.tree).1.1.toOption = some 1 := by
    decide +kernel
  refine ⟨hapart, ?_, ?_⟩
  · have houtcome := outcome_exec (prune ⟨"a"⟩ []) Sample.cache Sample.tree
    generalize exec (prune ⟨"a"⟩ []) Sample.cache Sample.tree = x at hfailed houtcome
    obtain ⟨⟨r, c'⟩, t'⟩ := x
    cases r with
    | ok n => cases hfailed.1
    | error e =>
      exact ⟨e, c', t', houtcome,
        (forgets_or_halts hapart ⟨"a"⟩ [] []).2.1 e c' t' houtcome, hfailed.2⟩
  · have hforgot := (forgets_or_halts hapart ⟨"b"⟩ [] []).1
    generalize exec (prune ⟨"b"⟩ []) Sample.cache Sample.tree = x at hpruned hforgot
    obtain ⟨⟨r, c'⟩, t'⟩ := x
    cases r with
    | error e => cases hpruned
    | ok n =>
      obtain rfl : n = 1 := Option.some.inj hpruned
      exact ⟨c', t', rfl, (hforgot 1 c' t' rfl).1⟩

end Cache

end GqlArtifacts
