import GqlArtifacts.Proofs.Config.Units

/-!
# Artifact paths that differ

Artifacts of different sources or hashes have different paths, a module never has the path of a
declaration, and no artifact has the path of the manifest or of a temporary file (`paths_apart`).

Nothing is asked of the root and the two directories, and one of them may lie in the other. Behind the
directory stand the subdirectory of the source and one more name (`components_artifact`), and that name
ends in a hash of fixed length and an extension, whatever the source is called. The last letter tells
the kinds of files apart (`Path.lastLetter?`).
-/

namespace GqlArtifacts

open Files

namespace Path

variable {p q : Path} {init ns : List String} {n : String} {c : Char}

/-- What a join puts between a text and the next one. -/
def separator (s : String) : String := if s = "" ∨ s.toList.getLast? = some '/' then "" else "/"

theorem separator_append (s : String) {s' : String} (h : s' ≠ "") :
    separator (s ++ s') = separator s' := by
  rw [separator, separator, String.toList_append,
    List.getLast?_append_of_ne_nil _ (mt String.toList_eq_nil_iff.1 h)]
  simp [h]

theorem separator_separator (s : String) : separator (s ++ separator s) = "" := by
  by_cases h : s = "" ∨ s.toList.getLast? = some '/'
  · rw [show separator s = "" from if_pos h, String.append_empty]
    exact if_pos h
  · rw [show separator s = "/" from if_neg h]
    exact if_pos (.inr (by simp))

theorem join_eq (hq : q.isAbsolute = false) : p / q = ⟨p.text ++ separator p.text ++ q.text⟩ := by
  show join p q = _
  rw [join, if_neg (by simp [hq]), separator]
  simp only [String.isEmpty_iff, chars_eq]
  split
  · rw [String.append_empty]
  · rfl

/-- A relative path is put behind two directories one after the other. -/
theorem join_join (r d : Path) (hq : q.isAbsolute = false) : r / (d / q) = r / d / q := by
  cases hd : d.isAbsolute with
  | true =>
    have habs : ∀ x : Path, x.isAbsolute = true → r / x = x := fun x hx => if_pos hx
    rw [habs d hd, habs _ (isAbsolute_join_left hd)]
  | false =>
    have hsep : separator (r.text ++ separator r.text ++ d.text) = separator d.text := by
      by_cases hempty : d.text = ""
      · rw [hempty, String.append_empty, separator_separator]
        rfl
      · exact separator_append _ hempty
    rw [join_eq (isAbsolute_join hd hq), join_eq hq, join_eq hd, join_eq hq]
    simp only [hsep]
    simp only [String.append_assoc]

/-- The last letter of the file name. -/
def lastLetter? (p : Path) : Option Char := p.fileName?.bind fun n => n.toList.getLast?

theorem not_same_of_lastLetter? (h : p.lastLetter? ≠ q.lastLetter?) : p.same q = false := by
  refine Bool.eq_false_iff.2 fun hsame => h ?_
  rw [lastLetter?, lastLetter?, fileName?, fileName?, eq_of_beq hsame]

theorem lastLetter?_of_segments (h : p.segments = init ++ [n]) (hn : IsName n) :
    p.lastLetter? = n.toList.getLast? := by
  rw [lastLetter?, fileName?_eq h hn, Option.bind_some]

/-- A name behind a directory is the last name. -/
theorem exists_segments_join_name (d : Path) (hn : IsName n) :
    ∃ before, (d / ⟨n⟩).segments = before ++ [n] :=
  exists_segments_join (isAbsolute_name hn) ((segments_eq_singleton hn.1).trans (List.nil_append _).symm)

theorem lastLetter?_join_name (d : Path) (hn : IsName n) :
    (d / ⟨n⟩).lastLetter? = n.toList.getLast? := by
  obtain ⟨before, hsegs⟩ := exists_segments_join_name d hn
  exact lastLetter?_of_segments hsegs hn

/-- A temporary file has a name that ends in `p`. -/
theorem lastLetter?_temporaryPath (d : Path) (hn : IsName n) (hdots : ¬TwoDots n) :
    (temporaryPath (d / ⟨n⟩)).lastLetter? = some 'p' := by
  obtain ⟨before, hsegs⟩ := exists_segments_join_name d hn
  obtain ⟨n', hn', hlast, htemporary⟩ := temporaryPath_eq hsegs hn hdots
  have hbefore : ∀ s ∈ before, '/' ∉ s.toList := fun s hs =>
    not_mem_of_mem_segments (by rw [hsegs]; exact List.mem_append_left _ hs)
  rw [htemporary, lastLetter?_of_segments (segments_ofSegments_concat hbefore hn'.1) hn', hlast]

end Path

open GqlArtifacts.Path

namespace Artifact

/-- The path relative to the root. -/
def relative : Artifact → ArtifactPaths → Path
  | tsx, paths => paths.tsx
  | dts, paths => paths.dts

/-- The directory that artifacts of this kind lie in. -/
def dir : Artifact → Layout → Path
  | tsx, layout => layout.cacheDir
  | dts, layout => layout.typesDir

def extension : Artifact → String
  | tsx => ".tsx"
  | dts => ".d.ts"

theorem slash_not_mem_extension (f : Artifact) : '/' ∉ f.extension.toList := by
  cases f <;> decide

theorem dot_mem_extension (f : Artifact) : '.' ∈ f.extension.toList := by
  cases f <;> decide

end Artifact

namespace Layout

variable {p q : Path} {h k : ContentHash} (layout : Layout) (f g : Artifact)

theorem full_eq : f.full (layout.paths p h) =
    layout.root / (f.dir layout / p.parent?.getD ⟨""⟩ / ⟨stem p h ++ f.extension⟩) := by
  cases f <;> rfl

/-- The path from the root is the full one where the root is empty. -/
theorem relative_eq_full :
    f.relative (layout.paths p h) = f.full ({ layout with root := ⟨""⟩ }.paths p h) := by
  have hjoin : ∀ x : Path, ⟨""⟩ / x = x := by
    intro x
    show join ⟨""⟩ x = x
    unfold join
    split
    · rfl
    · rw [if_pos (.inl (by simp)), String.empty_append]
  cases f <;> exact (hjoin _).symm

theorem full_eq_join : f.full (layout.paths p h) = layout.root /
    (f.dir layout / p.parent?.getD ⟨""⟩) / ⟨stem p h ++ f.extension⟩ := by
  rw [full_eq]
  exact join_join _ _ (isAbsolute_name (isName_stem p h f.slash_not_mem_extension))

theorem lastLetter?_full : (f.full (layout.paths p h)).lastLetter? = f.extension.toList.getLast? := by
  rw [full_eq_join, lastLetter?_join_name _ (isName_stem p h f.slash_not_mem_extension),
    String.toList_append, List.getLast?_append]
  cases f <;> rfl

theorem lastLetter?_temporary_full :
    (temporaryPath (f.full (layout.paths p h))).lastLetter? = some 'p' := by
  rw [full_eq_join]
  exact lastLetter?_temporaryPath _ (isName_stem p h f.slash_not_mem_extension)
    (not_twoDots_artifactName _ h f.dot_mem_extension)

/-- What the components of an artifact tell. -/
theorem components_artifact (hp : p.Logical) : (f.full (layout.paths p h)).components =
    (layout.root / f.dir layout).components ++
      (p.names.dropLast ++ [artifactName (p.names.getLast?.getD "") h f.extension]).map .name := by
  have hinit : ∀ s ∈ p.names.dropLast, IsName s := fun s hs =>
    hp.inner.isName_of_mem s ((List.dropLast_prefix _).subset hs)
  have hname : IsName (stem p h ++ f.extension) := isName_stem p h f.slash_not_mem_extension
  have hfile : (⟨stem p h ++ f.extension⟩ : Path) = ofSegments [stem p h ++ f.extension] := by
    simp [ofSegments]
  rw [full_eq_join, hp.inner.parent?_eq hp.nonempty, Option.getD_some,
    join_join _ _ (isAbsolute_ofSegments hinit), hfile,
    components_join_ofSegments _ (by simpa using hname), components_join_ofSegments _ hinit,
    List.append_assoc, ← List.map_append, stem, hp.inner.fileName?_eq hp.nonempty]
  rfl

/-- The components of an artifact tell its source and its hash. -/
theorem eq_of_same_full (hp : p.Logical) (hq : q.Logical)
    (hsame : (f.full (layout.paths p h)).same (f.full (layout.paths q k)) = true) :
    (p, h) = (q, k) := by
  have heq : (f.full (layout.paths p h)).components = (f.full (layout.paths q k)).components :=
    eq_of_beq hsame
  rw [components_artifact _ _ hp, components_artifact _ _ hq] at heq
  have hnames := List.map_injective_iff.2 (fun _ _ => Component.name.inj)
    (List.append_cancel_left heq)
  obtain ⟨rfl, rfl⟩ := names_artifact_inj hp hq hnames
  rfl

theorem lastLetter?_relative :
    (f.relative (layout.paths p h)).lastLetter? = f.extension.toList.getLast? := by
  rw [relative_eq_full, lastLetter?_full]

theorem lastLetter?_temporary_relative :
    (temporaryPath (f.relative (layout.paths p h))).lastLetter? = some 'p' := by
  rw [relative_eq_full, lastLetter?_temporary_full]

theorem lastLetter?_manifest (d : Path) : (d / manifestName).lastLetter? = some 'n' :=
  lastLetter?_join_name d (n := "manifest.json") (by decide)

theorem lastLetter?_temporary_manifest (d : Path) :
    (temporaryPath (d / manifestName)).lastLetter? = some 'p' :=
  lastLetter?_temporaryPath d (n := "manifest.json") (by decide) (by decide)

/-- An artifact is neither a manifest nor a temporary file. -/
theorem not_same_of_letter {x : Path} (hx : x.lastLetter? = some 'n' ∨ x.lastLetter? = some 'p') :
    (f.relative (layout.paths p h)).same x = false ∧ (f.full (layout.paths p h)).same x = false := by
  have hext : f.extension.toList.getLast? ≠ x.lastLetter? := by
    rcases hx with hx | hx <;> rw [hx] <;> cases f <;> decide
  refine ⟨not_same_of_lastLetter? ?_, not_same_of_lastLetter? ?_⟩
  · rwa [lastLetter?_relative]
  · rwa [lastLetter?_full]

/-- Artifacts of different sources or hashes have different paths, relative to the root and in full; a
module has never the path of a declaration; and no artifact has the path of the manifest or of a file
that an artifact or the manifest is written to first. -/
theorem paths_apart (layout : Layout) (hp : p.Logical) (hq : q.Logical) (h k : ContentHash) :
    ((p, h) ≠ (q, k) → ∀ f : Artifact,
      (f.relative (layout.paths p h)).same (f.relative (layout.paths q k)) = false ∧
      (f.full (layout.paths p h)).same (f.full (layout.paths q k)) = false) ∧
    (layout.paths p h).tsx.same (layout.paths q k).dts = false ∧
    (layout.paths p h).tsxFull.same (layout.paths q k).dtsFull = false ∧
    ∀ f : Artifact,
      ((f.relative (layout.paths p h)).same (layout.cacheDir / manifestName) = false ∧
        (f.full (layout.paths p h)).same (layout.root / layout.cacheDir / manifestName) = false) ∧
      ((f.relative (layout.paths p h)).same (temporaryPath (layout.cacheDir / manifestName)) = false ∧
        (f.full (layout.paths p h)).same
          (temporaryPath (layout.root / layout.cacheDir / manifestName)) = false) ∧
      ∀ g : Artifact,
        (f.relative (layout.paths p h)).same (temporaryPath (g.relative (layout.paths q k))) = false ∧
        (f.full (layout.paths p h)).same (temporaryPath (g.full (layout.paths q k))) = false := by
  refine ⟨fun hne f => ⟨?_, ?_⟩, ?_, ?_, fun f => ⟨⟨?_, ?_⟩, ⟨?_, ?_⟩, fun g => ⟨?_, ?_⟩⟩⟩
  · rw [relative_eq_full, relative_eq_full]
    exact Bool.eq_false_iff.2 fun hsame => hne (eq_of_same_full _ f hp hq hsame)
  · exact Bool.eq_false_iff.2 fun hsame => hne (eq_of_same_full layout f hp hq hsame)
  · refine not_same_of_lastLetter? ?_
    rw [show (layout.paths p h).tsx = Artifact.tsx.relative (layout.paths p h) from rfl,
      show (layout.paths q k).dts = Artifact.dts.relative (layout.paths q k) from rfl,
      lastLetter?_relative, lastLetter?_relative]
    decide
  · refine not_same_of_lastLetter? ?_
    rw [show (layout.paths p h).tsxFull = Artifact.tsx.full (layout.paths p h) from rfl,
      show (layout.paths q k).dtsFull = Artifact.dts.full (layout.paths q k) from rfl,
      lastLetter?_full, lastLetter?_full]
    decide
  · exact (not_same_of_letter layout f (.inl (lastLetter?_manifest _))).1
  · exact (not_same_of_letter layout f (.inl (lastLetter?_manifest _))).2
  · exact (not_same_of_letter layout f (.inr (lastLetter?_temporary_manifest _))).1
  · exact (not_same_of_letter layout f (.inr (lastLetter?_temporary_manifest _))).2
  · exact (not_same_of_letter layout f (.inr (lastLetter?_temporary_relative _ g))).1
  · exact (not_same_of_letter layout f (.inr (lastLetter?_temporary_full _ g))).2

/-- The second source is called like the artifact of the first, and lies where the first has its
artifacts. -/
theorem paths_apart_lookalike :
    let layout : Layout := ⟨⟨"/w"⟩, ⟨"gen"⟩, ⟨"gen/src"⟩⟩
    let source : Path := ⟨"src/a.gql"⟩
    let lookalike : Path := ⟨"gen/src/a.gql-00000000000000000000000000000000.tsx"⟩
    source.Logical ∧ lookalike.Logical ∧
    (layout.paths source default).tsx = lookalike ∧
    (layout.paths source default).tsxFull.same (layout.paths lookalike default).tsxFull = false ∧
    (layout.paths source default).dtsFull.same (layout.paths lookalike default).dtsFull = false ∧
    (layout.paths source default).tsxFull.same (layout.paths lookalike default).dtsFull = false ∧
    (layout.paths source default).dtsFull.same
      (temporaryPath (layout.paths lookalike default).dtsFull) = false := by
  intro layout source lookalike
  have hsource : source.Logical := ⟨⟨by decide +kernel, by decide +kernel, by decide +kernel⟩, by decide⟩
  have hlookalike : lookalike.Logical :=
    ⟨⟨by decide +kernel, by decide +kernel, by decide +kernel⟩, by decide⟩
  have hne : (source, (default : ContentHash)) ≠ (lookalike, default) := by decide +kernel
  obtain ⟨hdiffer, -, hkinds, hothers⟩ := paths_apart layout hsource hlookalike default default
  exact ⟨hsource, hlookalike, by decide +kernel, (hdiffer hne .tsx).2, (hdiffer hne .dts).2, hkinds,
    ((hothers .dts).2.2 .dts).2⟩

end Layout

end GqlArtifacts
