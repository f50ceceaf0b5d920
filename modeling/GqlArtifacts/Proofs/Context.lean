import GqlArtifacts.Context
import GqlArtifacts.Proofs.Cache.Load

/-!
# The contexts of a batch

Right after a load no file has changed since, so the contexts of a batch are a function of the
manifest in memory (`Context.batch?`, `run_ofUnits?`). `Context.Faithful` is what every later step
needs of a context: its paths are those of the layout, and it is skipped when the manifest has its
row.
-/

namespace GqlArtifacts

open Files

variable {layout : Layout} {m : Manifest} {config schema : ContentHash} {units : List SourceUnit}
  {contexts : List Context} {c : Context}

/-- A program for each element of a list, none of which changes the tree. -/
theorem run_mapM {α β : Type} {t : Tree} {f : α → Program β} {g : α → β}
    (h : ∀ a, (f a).run t = (g a, t)) (l : List α) : (l.mapM f).run t = (l.map g, t) := by
  induction l with
  | nil => rfl
  | cons a l ih =>
    rw [List.mapM_cons, Program.run_bind, h, Program.run_bind, ih]
    rfl

namespace Context

/-- The context of a unit, when every row of the manifest has its artifacts. -/
def fromRows (layout : Layout) (m : Manifest) (config schema : ContentHash) (u : SourceUnit) :
    Context :=
  ⟨u, u.stripped, u.hash config schema, layout.paths u.path (u.hash config schema),
    (m.lookup? u.path (u.hash config schema)).isSome⟩

/-- The contexts of a batch, when every row of the manifest has its artifacts. -/
def batch? (layout : Layout) (m : Manifest) (config : ContentHash) (units : List SourceUnit) :
    Option (List Context) :=
  match schemaIdentity? config units with
  | some schema => some (units.map (fromRows layout m config schema))
  | none => if units.isEmpty then some [] else none

theorem run_ofUnits?_of {cache : Cache} {t : Tree} {f : ContentHash → SourceUnit → Context}
    (h : ∀ schema u, (ofUnit layout cache config schema u).run t = (f schema u, t))
    (units : List SourceUnit) : (ofUnits? layout cache config units).run t =
      (match schemaIdentity? config units with
        | some schema => some (units.map (f schema))
        | none => if units.isEmpty then some [] else none, t) := by
  rw [ofUnits?]
  cases schemaIdentity? config units with
  | none => rfl
  | some schema =>
    simp only [ofUnitsOn, Program.run_bind, run_mapM (h schema)]
    rfl

theorem run_ofUnits? (layout : Layout) (cache : Cache) (config : ContentHash)
    (units : List SourceUnit) (t : Tree) :
    (ofUnits? layout (cache.loaded t) config units).run t =
      (batch? layout (cache.loaded t).manifest config units, t) := by
  refine run_ofUnits?_of (fun schema u => ?_) units
  rw [ofUnit, Program.run_bind, Cache.run_isFresh_loaded, fromRows]
  dsimp only [Program.pure_eq_done, Program.run_done]

/-- A context belongs to a layout and to the rows of a manifest. -/
structure Faithful (layout : Layout) (m : Manifest) (c : Context) : Prop where
  paths : c.paths = layout.paths c.path c.hash
  skip : c.skip = (m.lookup? c.path c.hash).isSome

theorem unit_of_batch? (h : batch? layout m config units = some contexts) :
    contexts.map Context.unit = units := by
  rw [batch?] at h
  split at h
  · obtain rfl := Option.some.inj h
    rw [List.map_map]
    exact List.map_id _
  · split at h
    · next hempty =>
      obtain rfl := Option.some.inj h
      rw [List.isEmpty_iff.1 hempty]
      rfl
    · cases h

theorem faithful_of_batch? (h : batch? layout m config units = some contexts) (hc : c ∈ contexts) :
    c.Faithful layout m := by
  rw [batch?] at h
  split at h
  · obtain rfl := Option.some.inj h
    obtain ⟨u, -, rfl⟩ := List.mem_map.1 hc
    exact ⟨rfl, rfl⟩
  · split at h
    · obtain rfl := Option.some.inj h
      cases hc
    · cases h

/-- Sources and hashes are given by the units alone. -/
theorem keys_of_batch? {identity : ContentHash} (hid : schemaIdentity? config units = some identity) :
    ∃ contexts, batch? layout m config units = some contexts ∧
      contexts.map (fun c => (c.path, c.hash)) =
        units.map fun u => (u.path, u.hash config identity) := by
  rw [batch?, hid]
  exact ⟨_, rfl, List.map_map⟩

/-- The context as it is when the manifest has other rows. -/
def among (m : Manifest) (c : Context) : Context :=
  { c with skip := (m.lookup? c.path c.hash).isSome }

theorem skip_among (m : Manifest) (c : Context) :
    (c.among m).skip = (m.lookup? c.path c.hash).isSome := rfl

theorem Faithful.among_eq (h : c.Faithful layout m) : c.among m = c := by
  rw [among, ← h.skip]

/-- The rows of the manifest matter only to what is skipped. -/
theorem batch?_among (h : batch? layout m config units = some contexts) (n : Manifest) :
    batch? layout n config units = some (contexts.map (among n)) := by
  rw [batch?] at h ⊢
  cases hid : schemaIdentity? config units with
  | some schema =>
    rw [hid] at h
    obtain rfl := Option.some.inj h
    rw [List.map_map]
    rfl
  | none =>
    rw [hid] at h
    dsimp only at h ⊢
    split at h
    · next hempty =>
      obtain rfl := Option.some.inj h
      rw [if_pos hempty]
      rfl
    · cases h

/-- The contexts of some units of a batch, if all its schemas are among them. -/
theorem batch?_filter {own : SourceUnit → Bool}
    (h : batch? layout m config units = some contexts) (hown : ∀ u, u.isSchema = true → own u = true) :
    batch? layout m config (units.filter own) = some (contexts.filter fun c => own c.unit) := by
  have hschemas : (units.filter own).filter SourceUnit.isSchema = units.filter SourceUnit.isSchema := by
    rw [List.filter_filter]
    refine List.filter_congr fun u _ => ?_
    cases hu : u.isSchema with
    | false => rfl
    | true => rw [hown u hu]; rfl
  have hidentity : schemaIdentity? config (units.filter own) = schemaIdentity? config units := by
    rw [schemaIdentity?, schemaIdentity?, hschemas]
  rw [batch?] at h ⊢
  rw [hidentity]
  cases hid : schemaIdentity? config units with
  | some schema =>
    rw [hid] at h
    obtain rfl := Option.some.inj h
    rw [List.filter_map]
    rfl
  | none =>
    rw [hid] at h
    dsimp only at h ⊢
    split at h
    · next hempty =>
      obtain rfl := Option.some.inj h
      obtain rfl := List.isEmpty_iff.1 hempty
      rfl
    · cases h

theorem any_path_eq (h : batch? layout m config units = some contexts) (p : Path) :
    units.any (fun u => u.path.same p) = contexts.any fun c => c.path.same p := by
  rw [← unit_of_batch? h, List.any_map]
  rfl

theorem exists_unit_of_mem (h : batch? layout m config units = some contexts) (hc : c ∈ contexts) :
    ∃ u ∈ units, u.path = c.path := by
  rw [← unit_of_batch? h]
  exact ⟨c.unit, List.mem_map_of_mem hc, rfl⟩

/-- The row of a context points to its paths. -/
theorem row_tsx (c : Context) : c.row.tsx = c.paths.tsx := by
  rw [row]; split <;> rfl

theorem row_dts (c : Context) : c.row.dts = c.paths.dts := by
  rw [row]; split <;> rfl

end Context

end GqlArtifacts
