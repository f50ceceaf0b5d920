import GqlArtifacts.Backend
import GqlArtifacts.Cache
import GqlArtifacts.Layout
import GqlArtifacts.Proofs.Files.Place
import GqlArtifacts.Proofs.Hash

/-!
# No two files in one place

A logical source has two artifacts at each hash, a module and a declaration (`Artifact`). Their
places tell the source, the hash and which of the two it is (`place_inj`), whatever the two
directories are. The last letter of the name keeps artifacts and other files apart: an artifact ends
in `x` or `s`, the manifest in `n` and a temporary file in `p`.
-/

namespace GqlArtifacts

open Files GqlArtifacts.Path

/-- A path inside the root that names something. -/
structure Path.Logical (p : Path) : Prop where
  inner : p.Inner
  nonempty : p.text ≠ ""

/-- The two files of an output. -/
inductive Artifact where
  | tsx
  | dts
deriving DecidableEq

namespace Artifact

def full : Artifact → ArtifactPaths → Path
  | tsx, paths => paths.tsxFull
  | dts, paths => paths.dtsFull

def text : Artifact → Output → String
  | tsx, o => o.tsx
  | dts, o => o.dts

end Artifact

/-- The path of a row to one of its artifacts, relative to the root. -/
def Row.artifact (row : Row) : Artifact → Path
  | .tsx => row.tsx
  | .dts => row.dts

namespace Layout

/-- Both directories lie inside the root. -/
structure Inner (layout : Layout) : Prop where
  cacheDir : layout.cacheDir.Inner
  typesDir : layout.typesDir.Inner

variable {layout : Layout} {p q : Path} {h h' : ContentHash}

/-- Where an artifact lies. -/
def place (layout : Layout) (k : Artifact) (p : Path) (h : ContentHash) : Place :=
  (k.full (layout.paths p h)).place

/-- The name of an artifact, from the last name of its source. -/
def artifactName (n : String) (h : ContentHash) (ext : String) : String :=
  n ++ "-" ++ h.toHex ++ ext

theorem isName_artifactName {n ext : String} (hn : '/' ∉ n.toList) (hext : '/' ∉ ext.toList) :
    IsName (artifactName n h ext) := by
  refine isName_of_two_lt_length ?_ ?_
  · simp [artifactName, hn, hext, h.slash_not_mem_toHex]
  · have hlen : h.toHex.length = 32 := h.length_toHex
    simp only [artifactName, String.length_append, hlen]
    omega

theorem artifactName_inj {n n' ext : String} (heq : artifactName n h ext = artifactName n' h' ext) :
    n = n' ∧ h = h' := by
  have hchars := congrArg String.toList heq
  simp only [artifactName, String.toList_append] at hchars
  obtain ⟨hstem, hhex⟩ := List.append_inj' (List.append_cancel_right hchars)
    (h.length_toHex.trans h'.length_toHex.symm)
  exact ⟨String.toList_inj.1 (List.append_cancel_right hstem),
    ContentHash.toHex_injective (String.toList_inj.1 hhex)⟩

/-- The names of an artifact tell its source and its hash. -/
theorem names_artifact_inj {ext : String} (hp : p.Logical) (hq : q.Logical)
    (heq : p.names.dropLast ++ [artifactName (p.names.getLast?.getD "") h ext] =
      q.names.dropLast ++ [artifactName (q.names.getLast?.getD "") h' ext]) : p = q ∧ h = h' := by
  obtain ⟨hinit, hname⟩ := List.append_singleton_inj.1 heq
  obtain ⟨hlast, rfl⟩ := artifactName_inj hname
  obtain ⟨init, n, hnames, -⟩ := hp.inner.exists_init hp.nonempty
  obtain ⟨init', n', hnames', -⟩ := hq.inner.exists_init hq.nonempty
  refine ⟨hp.inner.ext hq.inner ?_, rfl⟩
  rw [hnames, hnames'] at hlast hinit ⊢
  simp only [List.getLast?_concat, Option.getD_some, List.dropLast_concat] at hlast hinit
  rw [hlast, hinit]

theorem isName_stem (p : Path) (h : ContentHash) {ext : String} (hext : '/' ∉ ext.toList) :
    IsName (stem p h ++ ext) := by
  refine isName_artifactName ?_ hext
  cases hname : p.fileName? with
  | none => simp
  | some n => exact not_mem_of_mem_segments (mem_segments_of_fileName? hname)

/-- An artifact has the last letter of its extension. -/
theorem lastChar?_artifact (p root dir : Path) (h : ContentHash) {ext : String}
    (hext : '/' ∉ ext.toList) {c : Char} (hc : ext.toList.getLast? = some c) :
    Place.lastChar? (root / (dir / p.parent?.getD ⟨""⟩ / ⟨stem p h ++ ext⟩)).place = some c := by
  have hname : IsName (stem p h ++ ext) := isName_stem p h hext
  rw [place_join_join _ _ (isAbsolute_name hname), placeFrom_name hname, Place.lastChar?_concat,
    String.toList_append, List.getLast?_append, hc]
  rfl

section Places
variable (hp : p.Logical) {root dir : Path} {ext : String}
include hp

/-- Where an artifact of a logical source lies. -/
theorem place_artifact (hext : '/' ∉ ext.toList) :
    (root / (dir / p.parent?.getD ⟨""⟩ / ⟨stem p h ++ ext⟩)).place =
      (root / dir).place ++ p.names.dropLast ++
        [artifactName (p.names.getLast?.getD "") h ext] := by
  have hinit : ∀ s ∈ p.names.dropLast, IsName s := fun s hs =>
    hp.inner.isName_of_mem s ((List.dropLast_prefix _).subset hs)
  have hname : IsName (stem p h ++ ext) := isName_stem p h hext
  rw [hp.inner.parent?_eq hp.nonempty, Option.getD_some,
    place_join_join _ _ (isAbsolute_name hname), placeFrom_name hname,
    place_join_join _ _ (isAbsolute_ofSegments hinit), placeFrom_ofSegments hinit, stem,
    hp.inner.fileName?_eq hp.nonempty]
  rfl

/-- The place of an artifact tells its source and its hash. -/
theorem place_artifact_inj (hext : '/' ∉ ext.toList) (hq : q.Logical)
    (heq : (root / (dir / p.parent?.getD ⟨""⟩ / ⟨stem p h ++ ext⟩)).place =
      (root / (dir / q.parent?.getD ⟨""⟩ / ⟨stem q h' ++ ext⟩)).place) : p = q ∧ h = h' := by
  rw [place_artifact hp hext, place_artifact hq hext, List.append_assoc, List.append_assoc] at heq
  exact names_artifact_inj hp hq (List.append_cancel_left heq)

end Places

theorem lastChar?_place (k : Artifact) : (layout.place k p h).lastChar? =
    some (match k with
      | .tsx => 'x'
      | .dts => 's') := by
  cases k with
  | tsx => exact lastChar?_artifact p layout.root layout.cacheDir h (by decide) rfl
  | dts => exact lastChar?_artifact p layout.root layout.typesDir h (by decide) rfl

/-- An artifact is neither a manifest nor a temporary file. -/
theorem lastChar?_place_ne (k : Artifact) : (layout.place k p h).lastChar? ≠ some 'n' ∧
    (layout.place k p h).lastChar? ≠ some 'p' := by
  rw [lastChar?_place]
  cases k <;> decide

theorem place_inj {k k' : Artifact} (hp : p.Logical) (hq : q.Logical)
    (heq : layout.place k p h = layout.place k' q h') : k = k' ∧ p = q ∧ h = h' := by
  have hx := congrArg Place.lastChar? heq
  rw [lastChar?_place, lastChar?_place] at hx
  cases k <;> cases k' <;> try exact absurd hx (by decide)
  · exact ⟨rfl, place_artifact_inj hp (by decide) hq heq⟩
  · exact ⟨rfl, place_artifact_inj hp (by decide) hq heq⟩

end Layout

/-! ### The other files -/

theorem lastChar?_manifest (dir : Path) :
    Place.lastChar? (dir / manifestName).place = some 'n' := by
  have hname : IsName manifestName.text := by decide
  rw [place_join (isAbsolute_name hname), show manifestName = ⟨manifestName.text⟩ from rfl,
    placeFrom_name hname, Place.lastChar?_concat]
  rfl

end GqlArtifacts
