import GqlArtifacts.Proofs.Layout
import GqlArtifacts.Proofs.Manifest.Restrict

/-!
# Manifests of one layout

A manifest is `LaidOut` when its sources are logical and each row points to where the layout puts
the artifacts of its source at its hash. Logical sources are spelled in one way, so look-ups and rows
are then the same thing (`LaidOut.mem_toList`). Recording such a row and leaving rows out keep it so.
-/

namespace GqlArtifacts

open Files

variable {layout : Layout} {p q : Path} {h : ContentHash} {row : Row} {m : Manifest}

theorem Path.Logical.eq_of_same (hp : p.Logical) (hq : q.Logical) (hs : p.same q = true) : p = q :=
  hp.inner.eq_of_same hq.inner hs

/-- A row points to where the layout puts the artifacts of a source at a hash. -/
structure Row.LiesAt (layout : Layout) (p : Path) (h : ContentHash) (row : Row) : Prop where
  tsx : row.tsx = (layout.paths p h).tsx
  dts : row.dts = (layout.paths p h).dts

theorem Row.LiesAt.full (hr : row.LiesAt layout p h) (k : Artifact) :
    layout.root / row.artifact k = k.full (layout.paths p h) := by
  cases k with
  | tsx => rw [Row.artifact, hr.tsx]; rfl
  | dts => rw [Row.artifact, hr.dts]; rfl

theorem Row.LiesAt.place (hr : row.LiesAt layout p h) (k : Artifact) :
    (layout.root / row.artifact k).place = layout.place k p h := by
  rw [hr.full, Layout.place]

namespace Manifest

structure LaidOut (layout : Layout) (m : Manifest) : Prop where
  keys : ∀ e ∈ m.sources.toList, e.1.Logical
  rows : ∀ e ∈ m.toList, e.2.2.LiesAt layout e.1 e.2.1

theorem laidOut_empty (version : String) : (empty version).LaidOut layout :=
  ⟨by simp [empty, OrderedMap.empty], by simp [empty, OrderedMap.empty, toList]⟩

namespace LaidOut

theorem logical (hm : m.LaidOut layout) (he : (p, h, row) ∈ m.toList) : p.Logical := by
  obtain ⟨rows, hrows, -⟩ := mem_toList_iff.1 he
  exact hm.keys _ hrows

theorem mem_toList (hm : m.LaidOut layout) (hp : p.Logical) (hl : m.lookup? p h = some row) :
    (p, h, row) ∈ m.toList := by
  obtain ⟨q, hs, hq⟩ := lookup?_eq_some_iff.1 hl
  obtain rfl := hp.eq_of_same (hm.logical hq) hs
  exact hq

theorem liesAt (hm : m.LaidOut layout) (hp : p.Logical) (hl : m.lookup? p h = some row) :
    row.LiesAt layout p h := hm.rows _ (hm.mem_toList hp hl)

theorem record (hm : m.LaidOut layout) (hp : p.Logical) (hr : row.LiesAt layout p h) :
    (m.record p h row).LaidOut layout := by
  have hkeys : ∀ e ∈ (m.record p h row).sources.toList, e.1.Logical :=
    OrderedMap.forall_key_insertEntry hp hm.keys
  refine ⟨hkeys, ?_⟩
  rintro ⟨q, k, row'⟩ he
  have hq : q.Logical := by
    obtain ⟨rows, hrows, -⟩ := mem_toList_iff.1 he
    exact hkeys _ hrows
  have hl := lookup?_of_mem he
  rw [lookup?_record] at hl
  split at hl
  · next hkey =>
    obtain rfl := Option.some.inj hl
    obtain rfl := hq.eq_of_same hp hkey.1
    exact hkey.2 ▸ hr
  · exact hm.liesAt hq hl

/-- Manifests of one layout without bare sources are told apart by their rows. -/
theorem ext {n : Manifest} (hm : m.LaidOut layout) (hn : n.LaidOut layout) (hmfull : m.Full)
    (hnfull : n.Full) (hv : m.version = n.version)
    (h : ∀ p k, p.Logical → m.lookup? p k = n.lookup? p k) : m = n := by
  have hsub : ∀ {m n : Manifest}, m.LaidOut layout → n.LaidOut layout → m.Full →
      (∀ p k, p.Logical → m.lookup? p k = n.lookup? p k) →
      ∀ p ∈ m.sources.keys, p ∈ n.sources.keys := by
    intro m n hm hn hfull h p hp
    obtain ⟨⟨_, rows⟩, he, rfl⟩ := List.mem_map.1 hp
    have hlogical := hm.keys _ he
    obtain ⟨r, hr⟩ := List.exists_mem_of_ne_nil rows.toList fun hnil => by
      have hbare := hfull _ he
      rw [OrderedMap.isEmpty, hnil] at hbare
      cases hbare
    have hl := lookup?_of_mem (mem_toList_iff.2 ⟨rows, he, hr⟩)
    rw [h _ _ hlogical] at hl
    obtain ⟨q, hq, hs⟩ := mem_keys_of_lookup? hl
    obtain ⟨e, he', rfl⟩ := List.mem_map.1 hq
    rwa [hlogical.eq_of_same (hn.keys _ he') hs]
  have hkeys : ∀ p, p ∈ m.sources.keys ↔ p ∈ n.sources.keys := fun p =>
    ⟨hsub hm hn hmfull h p, hsub hn hm hnfull (fun p k hp => (h p k hp).symm) p⟩
  refine ext_lookup? hv hkeys fun p k => ?_
  -- a source that is spelled in another way is looked up as the one that is there
  by_cases hp : ∃ q ∈ m.sources.keys, p.same q = true
  · obtain ⟨q, hq, hs⟩ := hp
    obtain ⟨e, he, rfl⟩ := List.mem_map.1 hq
    rw [lookup?_congr hs, lookup?_congr hs, h _ _ (hm.keys _ he)]
  · have hnone : ∀ m' : Manifest, (∀ q, q ∈ m'.sources.keys ↔ q ∈ m.sources.keys) →
        m'.lookup? p k = none := by
      intro m' hm'
      rw [Option.eq_none_iff_forall_ne_some]
      intro row hl
      obtain ⟨q, hq, hs⟩ := mem_keys_of_lookup? hl
      exact hp ⟨q, (hm' q).1 hq, hs⟩
    rw [hnone m fun _ => Iff.rfl, hnone n fun q => (hkeys q).symm]

theorem restrict (hm : m.LaidOut layout) (P : Path → ContentHash → Bool) :
    (m.restrict P).LaidOut layout := by
  refine ⟨fun e he => ?_, fun e he => ?_⟩
  · rw [toList_restrict_sources, List.mem_filterMap] at he
    obtain ⟨x, hx, heq⟩ := he
    obtain ⟨rows, -, rfl⟩ := Option.map_eq_some_iff.1 heq
    exact hm.keys x hx
  · rw [toList_restrict, List.mem_filter] at he
    exact hm.rows e he.1

end LaidOut

end Manifest

end GqlArtifacts
