import GqlArtifacts.Proofs.Cache.Load

/-!
# What is loaded after a save

`Cache.Reloads` says of a memory that it has been got back from a save: it holds exactly the saved
rows whose artifacts are there, in the saved order, and the count is that of the other rows.
`reloads_of_save` is this for every memory without bare sources and for everything that may happen to
other files in between, because a manifest reads back from its text as it was.
-/

namespace GqlArtifacts.Cache

open Files

variable {c d : Cache} {m : Manifest} {t t' : Tree} {dropped : Nat}

/-- The memory `d` after a load that found the manifest `saved`, on a tree `t`. -/
structure Reloads (saved : Manifest) (t : Tree) (dropped : Nat) (d : Cache) : Prop where
  version : d.manifest.version = saved.version
  rows : d.manifest.toList = saved.toList.filter fun e => e.2.2.isPresent d.root t
  lookup? : ∀ p h, d.manifest.lookup? p h = (saved.lookup? p h).filter (Row.isPresent d.root t)
  full : d.manifest.Full
  dropped : dropped + d.manifest.count = saved.count
  whole : (∀ e ∈ saved.toList, e.2.2.isPresent d.root t = true) → d.manifest = saved

theorem reloads_loaded (hm : (d.persisted t).Full) :
    Reloads (d.persisted t) t
      ((d.persisted t).toList.filter fun e => !e.2.2.isPresent d.root t).length (d.loaded t) := by
  have hbacked : ∀ e ∈ (d.persisted t).toList,
      backed d.root t (d.persisted t) e.1 e.2.1 = e.2.2.isPresent d.root t := fun e he => by
    rw [backed, Manifest.lookup?_of_mem he, Option.any_some]
  have hrows : (d.loaded t).manifest.toList =
      (d.persisted t).toList.filter fun e => e.2.2.isPresent d.root t := by
    rw [loaded, Manifest.toList_restrict]
    exact List.filter_congr hbacked
  refine ⟨Manifest.version_restrict, hrows, fun p h => lookup?_loaded, full_loaded, ?_, fun hall => ?_⟩
  · rw [Manifest.count, Manifest.count, hrows, Nat.add_comm]
    exact (List.length_eq_length_filter_add _).symm
  · rw [loaded]
    exact Manifest.restrict_of_forall hm fun e he => (hbacked e he).trans (hall e he)

/-- However other files have changed since a save, a load by any cache of the same version and
directories gives back the saved rows whose artifacts are there. -/
theorem reloads_of_save (hm : c.manifest.Full) (hsave : c.save.run t = (.ok (), t'))
    {t'' : Tree} (hkept : t''.read (c.dir / manifestName) = t'.read (c.dir / manifestName))
    (hroot : d.root = c.root) (hdir : d.dir = c.dir) (hversion : d.version = c.manifest.version) :
    ∃ dropped d', d.load.run t'' = ((dropped, d'), t'') ∧ d'.root = c.root ∧ d'.dir = c.dir ∧
      d'.version = d.version ∧ Reloads c.manifest t'' dropped d' := by
  have hwrote : t.Wrote t' (c.dir / manifestName) c.manifest.render.toUTF8 :=
    wrote_of_writeAtomically hsave
  have hload : t''.manifest? d.dir = some c.manifest := by
    rw [hdir, manifest?_congr hkept, manifest?_of_wrote hwrote]
  have hpersisted : d.persisted t'' = c.manifest := persisted_of_manifest? hload hversion.symm
  have hreloads := reloads_loaded (hpersisted ▸ hm)
  rw [hpersisted] at hreloads
  refine ⟨_, _, run_load d t'', root_loaded.trans hroot, dir_loaded.trans hdir, rfl, ?_⟩
  rw [hpersisted]
  exact hreloads

namespace Sample

def hash (n : Nat) : ContentHash := ⟨Vector.replicate 16 (UInt8.ofNat n)⟩

/-- Two rows of one source, whose texts want quoting. -/
def saved : Cache :=
  ((new ⟨""⟩ ⟨""⟩ "1").record ⟨"a\"b"⟩ (hash 1) ⟨⟨"u"⟩, ⟨"v"⟩, some "\\\n\u0001", none⟩).record
    ⟨"a\"b"⟩ (hash 2) ⟨⟨"w"⟩, ⟨"v"⟩, none, some "é"⟩

def before : Tree := (saved.save.run .empty).2

/-- The tree some time after the save, with the artifacts of the first row. -/
def after : Tree := (before.put ["u"] (.file "".toUTF8)).put ["v"] (.file "".toUTF8)

set_option maxRecDepth 100000 in
theorem save_eq : (saved.save.run .empty).1 = .ok () ∧ before.isDirectory ["u"] = false ∧
    (before.put ["u"] (.file "".toUTF8)).isDirectory ["v"] = false ∧
    (saved.dir / manifestName).place = ["manifest.json"] := by
  decide +kernel

theorem save_run : saved.save.run .empty = (.ok (), before) := Prod.ext save_eq.1 rfl

theorem read_after : after.read (saved.dir / manifestName) = before.read (saved.dir / manifestName) := by
  obtain ⟨-, hu, hv, hplace⟩ := save_eq
  have hwrote := wrote_of_writeAtomically save_run
  obtain ⟨hreaches, hfile⟩ := Tree.read_eq_ok.1 hwrote.read
  rw [hwrote.read]
  refine Tree.read_eq_ok.2
    ⟨(hreaches.grows (Tree.grows_put_file hu)).grows (Tree.grows_put_file hv), ?_⟩
  rw [after, Tree.file?_put_file hv, if_neg (by rw [hplace]; decide), Tree.file?_put_file hu,
    if_neg (by rw [hplace]; decide), hfile]

set_option maxRecDepth 100000 in
theorem rows_saved : saved.manifest.toList.filter (fun e => e.2.2.isPresent ⟨""⟩ after) =
    [(⟨"a\"b"⟩, hash 1, ⟨⟨"u"⟩, ⟨"v"⟩, some "\\\n\u0001", none⟩)] ∧
    saved.manifest.count = 2 := by
  decide +kernel

theorem full_saved : saved.manifest.Full :=
  Manifest.full_record (Manifest.full_record (Manifest.full_empty _))

end Sample

/-- One of the two rows of the sample comes back. -/
theorem reloads_of_save_sample : ∃ t' dropped d', Sample.saved.save.run .empty = (.ok (), t') ∧
    (new ⟨""⟩ ⟨""⟩ "1").load.run Sample.after = ((dropped, d'), Sample.after) ∧ dropped = 1 ∧
    d'.manifest.toList =
      [(⟨"a\"b"⟩, Sample.hash 1, ⟨⟨"u"⟩, ⟨"v"⟩, some "\\\n\u0001", none⟩)] := by
  obtain ⟨dropped, d', hload, hroot, -, -, hreloads⟩ :=
    reloads_of_save (d := new ⟨""⟩ ⟨""⟩ "1") Sample.full_saved Sample.save_run Sample.read_after
      rfl rfl rfl
  have hrows := hreloads.rows
  rw [hroot, show Sample.saved.root = ⟨""⟩ from rfl, Sample.rows_saved.1] at hrows
  have hcount := hreloads.dropped
  rw [Manifest.count, hrows, Sample.rows_saved.2] at hcount
  exact ⟨Sample.before, dropped, d', Sample.save_run, hload, by simpa using hcount, hrows⟩

end GqlArtifacts.Cache
