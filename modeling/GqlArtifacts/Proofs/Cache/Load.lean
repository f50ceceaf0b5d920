import GqlArtifacts.Cache
import GqlArtifacts.Proofs.Files.Atomic
import GqlArtifacts.Proofs.Manifest.Restrict
import GqlArtifacts.Proofs.Manifest.RoundTrip

/-!
# What is loaded

Loading only looks at files, so it is a function of the tree: `Tree.manifest?` is the manifest that a
directory holds, `Cache.persisted` what of it counts, and `Cache.loaded` the memory after a load
(`run_load`). A row is loaded when it was persisted and both of its artifacts are there
(`lookup?_loaded`). What `save` writes is read back as it was (`manifest?_of_wrote`).
-/

namespace GqlArtifacts

open Files

/-- The readable manifest in a directory. -/
def Files.Tree.manifest? (t : Tree) (dir : Path) : Option Manifest :=
  ((Manifest.load dir).run t).1

/-- Whether both artifacts of a row are files of a tree. -/
def Row.isPresent (root : Path) (t : Tree) (row : Row) : Bool :=
  t.isFile (root / row.tsx) && t.isFile (root / row.dts)

variable {c : Cache} {t t' : Tree} {p : Path} {h : ContentHash}

/-! ### Looking at files -/

theorem run_manifestLoad_eq (dir : Path) (t : Tree) : (Manifest.load dir).run t =
    (match t.readText (dir / manifestName) with
      | .ok text => Manifest.parse? text
      | .error _ => none, t) := by
  rw [Manifest.load, Program.run_bind, run_readText]
  cases t.readText (dir / manifestName) <;> rfl

theorem run_manifestLoad (dir : Path) (t : Tree) :
    (Manifest.load dir).run t = (t.manifest? dir, t) := by
  rw [Tree.manifest?, run_manifestLoad_eq]

theorem manifest?_congr {dir : Path}
    (h : t'.read (dir / manifestName) = t.read (dir / manifestName)) :
    t'.manifest? dir = t.manifest? dir := by
  rw [Tree.manifest?, Tree.manifest?, run_manifestLoad_eq, run_manifestLoad_eq, Tree.readText,
    Tree.readText, h]

/-- A manifest is read from a file that is there. -/
theorem exists_read_of_manifest? {dir : Path} {m : Manifest} (h : t.manifest? dir = some m) :
    ∃ content, t.read (dir / manifestName) = .ok content := by
  rw [Tree.manifest?, run_manifestLoad_eq, Tree.readText] at h
  cases hr : t.read (dir / manifestName) with
  | ok content => exact ⟨content, rfl⟩
  | error e => rw [hr] at h; cases h

theorem manifest?_of_file?_eq_none {dir : Path} (h : t.file? (dir / manifestName).place = none) :
    t.manifest? dir = none := by
  rw [Option.eq_none_iff_forall_ne_some]
  intro m hm
  obtain ⟨content, hr⟩ := exists_read_of_manifest? hm
  rw [(Tree.read_eq_ok.1 hr).2] at h
  cases h

theorem run_present (root : Path) (row : Row) (t : Tree) :
    (row.present root).run t = (row.isPresent root t, t) := by
  rw [Row.present, Program.run_bind, run_isFile, Row.isPresent]
  cases t.isFile (root / row.tsx) with
  | true => rw [if_pos rfl, run_isFile, Bool.true_and]
  | false => rfl

theorem run_missingRows (root : Path) (l : List (Path × ContentHash × Row)) (t : Tree) :
    (missingRows root l).run t =
      ((l.filter fun e => !e.2.2.isPresent root t).map fun e => (e.1, e.2.1), t) := by
  induction l with
  | nil => rfl
  | cons e l ih =>
    rw [missingRows, Program.run_bind, run_present, Program.run_bind, ih]
    cases hp : e.2.2.isPresent root t <;> simp [hp]

theorem run_isFresh (c : Cache) (p : Path) (h : ContentHash) (t : Tree) :
    (c.isFresh p h).run t = ((c.manifest.lookup? p h).any (Row.isPresent c.root t), t) := by
  rw [Cache.isFresh]
  cases c.manifest.lookup? p h with
  | none => rfl
  | some row => exact run_present c.root row t

/-! ### Loading -/

namespace Cache

/-- The persisted manifest; one of another version does not count. -/
def persisted (c : Cache) (t : Tree) : Manifest :=
  match t.manifest? c.dir with
  | some m => if m.version = c.version then m else .empty c.version
  | none => .empty c.version

/-- Whether the row of a manifest at a source and a hash is there with its artifacts. -/
def backed (root : Path) (t : Tree) (m : Manifest) (p : Path) (h : ContentHash) : Bool :=
  (m.lookup? p h).any (Row.isPresent root t)

/-- The memory after a load. -/
def loaded (c : Cache) (t : Tree) : Cache :=
  { c with manifest := (c.persisted t).restrict (backed c.root t (c.persisted t)) }

theorem spelled_backed (root : Path) (t : Tree) (m : Manifest) :
    Manifest.Spelled (backed root t m) := fun p q h hs => by
  rw [backed, backed, Manifest.lookup?_congr hs]

/-- Leaving out the missing rows leaves the backed ones. -/
theorem restrict_missing (m : Manifest) (root : Path) (t : Tree) :
    (m.restrict fun source h => !((m.toList.filter fun e => !e.2.2.isPresent root t).map
      fun e => (e.1, e.2.1)).contains (source, h)) = m.restrict (backed root t m) := by
  refine Manifest.restrict_congr fun e he => ?_
  rw [backed, Manifest.lookup?_of_mem he, Option.any_some, Bool.eq_iff_iff, Bool.not_eq_true',
    List.contains_eq_mem, decide_eq_false_iff_not]
  simp only [List.mem_map, List.mem_filter, Prod.exists, Prod.mk.injEq]
  constructor
  · intro hmissing
    by_contra hp
    exact hmissing ⟨e.1, e.2.1, e.2.2, ⟨he, by simpa using hp⟩, rfl, rfl⟩
  · rintro hp ⟨q, k, row, ⟨hq, hrow⟩, rfl, rfl⟩
    have hsame := Manifest.lookup?_of_mem he
    rw [Manifest.lookup?_of_mem hq] at hsame
    rw [Option.some.inj hsame, hp] at hrow
    cases hrow

theorem run_load (c : Cache) (t : Tree) :
    c.load.run t = ((((c.persisted t).toList.filter fun e => !e.2.2.isPresent c.root t).length,
      c.loaded t), t) := by
  have hrest : ∀ m : Manifest, (missingRows c.root m.toList >>= fun missing =>
      Program.done (missing.length, { c with
        manifest := m.restrict (fun source h => !missing.contains (source, h)) })).run t =
      (((m.toList.filter fun e => !e.2.2.isPresent c.root t).length,
        { c with manifest := m.restrict (backed c.root t m) }), t) := by
    intro m
    rw [Program.run_bind, run_missingRows, Program.run_done, List.length_map, restrict_missing]
  rw [load, Program.run_bind, run_manifestLoad, loaded]
  unfold persisted
  cases t.manifest? c.dir with
  | none => exact hrest _
  | some m => exact hrest _

theorem persisted_congr {d : Cache} (hdir : c.dir = d.dir) (hversion : c.version = d.version) :
    c.persisted t = d.persisted t := by
  unfold persisted
  rw [hdir, hversion]

/-- What was in memory before does not matter. -/
theorem loaded_withManifest (c : Cache) (m : Manifest) (t : Tree) :
    loaded { c with manifest := m } t = c.loaded t := by
  have hpersisted : persisted { c with manifest := m } t = c.persisted t := persisted_congr rfl rfl
  rw [loaded, loaded, hpersisted]

theorem root_loaded : (c.loaded t).root = c.root := by rw [loaded]

theorem dir_loaded : (c.loaded t).dir = c.dir := by rw [loaded]

theorem version_persisted (c : Cache) (t : Tree) : (c.persisted t).version = c.version := by
  unfold persisted
  split
  · split
    · assumption
    · rfl
  · rfl

theorem lookup?_loaded : (c.loaded t).manifest.lookup? p h =
    ((c.persisted t).lookup? p h).filter (Row.isPresent c.root t) := by
  rw [loaded, Manifest.lookup?_restrict (spelled_backed c.root t _)]
  cases hl : (c.persisted t).lookup? p h with
  | none => rw [Option.filter_none, Option.filter_none]
  | some row => rw [Option.filter_some, Option.filter_some, backed, hl, Option.any_some]

theorem full_loaded : (c.loaded t).manifest.Full := Manifest.full_restrict

/-- Right after a load the known rows are the fresh ones. -/
theorem run_isFresh_loaded (c : Cache) (p : Path) (h : ContentHash) (t : Tree) :
    ((c.loaded t).isFresh p h).run t = (((c.loaded t).manifest.lookup? p h).isSome, t) := by
  rw [run_isFresh, root_loaded, lookup?_loaded]
  cases (c.persisted t).lookup? p h with
  | none => rfl
  | some row => cases hp : row.isPresent c.root t <;> simp [hp]

/-! ### Saving -/

theorem persisted_of_manifest? {m : Manifest} (hm : t.manifest? c.dir = some m)
    (hv : m.version = c.version) : c.persisted t = m := by
  unfold persisted
  rw [hm]
  exact if_pos hv

theorem persisted_eq_empty (hm : t.manifest? c.dir = none) : c.persisted t = .empty c.version := by
  unfold persisted
  rw [hm]

end Cache

/-- A manifest is read back from its text. -/
theorem manifest?_of_read {dir : Path} {m : Manifest}
    (h : t.read (dir / manifestName) = .ok m.render.toUTF8) : t.manifest? dir = some m := by
  rw [Tree.manifest?, run_manifestLoad_eq, Tree.readText, h]
  simp only [Text.ofBytes?_toUTF8]
  exact Manifest.parse?_render m

/-- What is saved is read back. -/
theorem manifest?_of_wrote {dir : Path} {m : Manifest}
    (hw : t.Wrote t' (dir / manifestName) m.render.toUTF8) : t'.manifest? dir = some m :=
  manifest?_of_read hw.read

end GqlArtifacts
