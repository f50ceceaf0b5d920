import GqlArtifacts.Proofs.Files.Same
import GqlArtifacts.Proofs.Glob.Inside
import GqlArtifacts.Proofs.Path.Folding

/-!
# Globs that find the same

A glob goes to each file that it finds through the directories on the way, so a file whose path is the
same in two trees is found in both or in neither (`Hits.same`), whatever else the search comes upon.
The files of a list of patterns are known by paths in one spelling and in path order; hence they are
the same list when each of them is found through the same (`answer_files_eq`).
-/

namespace GqlArtifacts

open Files

namespace Path

variable {p q root : Path} {segs segs' : List String} {cs : List (Component String)} {c : Component String} {k : Nat}

/-! ### One spelling -/

theorem eq_of_same_of_plain (h : Plain segs) (h' : Plain segs')
    (hs : (ofSegments segs).same (ofSegments segs') = true) : segs = segs' := by
  have hkept : ∀ {segs}, Plain segs → (ofSegments segs).components.map Component.text = segs := by
    intro segs h
    rw [components_of_plain h, map_text_inside, List.filter_eq_self.2]
    intro s hs
    rw [(h s hs).2]
    rfl
  rw [← hkept h, ← hkept h', eq_of_beq hs]

/-- Past the first, every component leads somewhere. -/
theorem leading_of_mem_drop (h : c ∈ p.components.drop (k + 1)) : Leading c := by
  obtain ⟨first, rest, hsegs⟩ := List.exists_cons_of_ne_nil p.segments_ne_nil
  have hrest : ∀ c ∈ rest.filterMap Component.ofSegment?, Leading c := by
    intro c hc
    obtain ⟨s, hs, heq⟩ := List.mem_filterMap.1 hc
    exact ⟨s, not_mem_of_mem_segments (p := p) (by rw [hsegs]; exact List.mem_cons_of_mem _ hs), heq⟩
  simp only [components, Component.readAll, hsegs] at h
  split at h
  · exact hrest c (List.mem_of_mem_drop h)
  · split at h
    · exact hrest c (List.mem_of_mem_drop h)
    · cases hfirst : Component.ofSegment? first with
      | none =>
        rw [hfirst] at h
        exact hrest c (List.mem_of_mem_drop h)
      | some c' =>
        rw [hfirst] at h
        exact hrest c (List.mem_of_mem_drop h)

/-- Below a directory a path has one spelling. -/
theorem exists_plain_logical (hroot : root.components ≠ []) (h : q.under? root = some p) :
    ∃ segs, Plain segs ∧ Glob.logical p = ofSegments segs := by
  rw [under?] at h
  split at h
  · obtain rfl := Option.some.inj h
    obtain ⟨k, hk⟩ := Nat.exists_eq_add_one_of_ne_zero (mt List.length_eq_zero_iff.1 hroot)
    rw [hk]
    have hcs : ∀ c ∈ q.components.drop (k + 1), Leading c := fun c => leading_of_mem_drop
    generalize q.components.drop (k + 1) = cs at hcs
    have hnormal : ∀ c ∈ normalizeComponents cs, Leading c := by
      intro c hc
      rcases mem_of_mem_foldl_normalizeStep (List.mem_reverse.1 hc) with hnil | hc
      · cases hnil
      · exact hcs c hc
    refine ⟨_, plain_map_text hnormal, ?_⟩
    rw [Glob.logical, normalize, ofComponents_of_leading hcs, components_of_plain (plain_map_text hcs),
      inside_map_text hcs, ofComponents_of_leading hnormal, toSlash_of_plain (plain_map_text hnormal)]
  · cases h

end Path

namespace Glob

open Path

variable {t t' : Tree} {n : Nat} {parts parts' rest : List Part} {p p' q root : Path}
  {name pattern : String}

/-! ### Ways to files -/

theorem Step.exists_segment (ht : t.Proper) (hparts : Clean parts) (h : Step t parts p parts' p') :
    ∃ s, p' = p / ⟨s⟩ ∧ '/' ∉ s.toList ∧ Clean parts' := by
  cases h with
  | @plain part rest p cs hpart hfinds =>
    refine ⟨_, rfl, ?_, fun part hmem => hparts part (List.mem_cons_of_mem _ hmem)⟩
    rw [String.toList_ofList]
    exact hparts _ (List.mem_cons_self ..) cs hpart
  | enter hpart hp hname henters =>
    exact ⟨_, rfl, (ht.isName_of_mem_names hname).1, hparts.of_enters henters⟩
  | @dots part rest p name hpart hp hname =>
    refine ⟨name, rfl, ?_, fun part hmem => hparts part (List.mem_cons_of_mem _ hmem)⟩
    rcases eq_of_mem_dotNames hname with rfl | rfl <;> decide

theorem Enters.same (hs : t.Same t' p) (h : Enters t parts p name parts') :
    Enters t' parts p name parts' := by
  cases h with
  | name hfits => exact .name hfits
  | down hdir => exact .down (hs.isFolder.trans hdir)
  | leave hrest hfits => exact .leave hrest hfits

/-- A step is one of the other tree, too, if it leads to something through the same. -/
theorem Step.same (ht : t.Proper) (hparts : Clean parts) (hp : p.text ≠ "")
    (h : Step t parts p parts' p') (hholds : t.holds p' = true) (hs : t.Same t' p') :
    Step t' parts p parts' p' := by
  obtain ⟨s, heq, hslash, -⟩ := h.exists_segment ht hparts
  have hhere : t.Same t' p := (heq ▸ hs).of_join hp hslash
  cases h with
  | plain hpart hfinds =>
    refine .plain hpart ?_
    unfold finds at hfinds ⊢
    rw [hhere.isFolder, hs.holds]
    exact hfinds
  | enter hpart hdir hname henters =>
    have hdir' := hhere.isFolder.trans hdir
    refine .enter hpart hdir' ?_ (henters.same hs)
    exact Tree.mem_names hdir' (ht.isName_of_mem_names hname) (hs.holds.trans hholds)
  | dots hpart hdir hname => exact .dots hpart (hhere.isFolder.trans hdir) hname

/-- All that lies on the way to something is there, and the way is one of the other tree. -/
theorem Leads.same (ht : t.Proper) (hparts : Clean parts) (hp : p.text ≠ "")
    (h : Leads t n parts p q) (hq : t.holds q = true) (hs : t.Same t' q) :
    Leads t' n parts p q ∧ t.holds p = true ∧ t.Same t' p := by
  induction h with
  | arrive => exact ⟨.arrive, hq, hs⟩
  | step hstep _ ih =>
    obtain ⟨s, rfl, hslash, hparts'⟩ := hstep.exists_segment ht hparts
    obtain ⟨hrest, hholds, hs'⟩ := ih hparts' (join_nonempty hp (isAbsolute_of_not_mem hslash)) hq hs
    exact ⟨.step (hstep.same ht hparts hp hholds hs') hrest,
      Tree.holds_of_isFolder (Tree.isFolder_of_holds_join hp hslash hholds), hs'.of_join hp hslash⟩

/-- A file is found in both trees when its path is the same in them. -/
theorem Hits.same {g : Glob} (ht : t.Proper) (hparts : Clean g.parts) (hroot : root.text ≠ "")
    (h : Hits t root g q) (hs : t.Same t' q) : Hits t' root g q :=
  ⟨h.directory, h.parts,
    (h.leads.same ht hparts hroot (Tree.holds_of_isFile h.isFile) hs).1, hs.isFile.trans h.isFile⟩

/-! ### Files of patterns -/

/-- Every file that a pattern gives is found through the same in another tree. -/
def Lasts (t t' : Tree) (root : Path) (pattern : String) : Prop :=
  ∀ g q p, ofPattern? pattern = some g → Hits t root g q → q.under? root = some p → t.Same t' q

theorem Matches.same (ht : t.Proper) (hroot : root.text ≠ "") (h : Matches t root pattern p)
    (hs : Lasts t t' root pattern) : Matches t' root pattern p := by
  obtain ⟨g, q, p', hg, hits, hunder, rfl⟩ := h
  exact ⟨g, q, p', hg, hits.same ht (clean_of_parse? hg) hroot (hs g q p' hg hits hunder), hunder, rfl⟩

theorem eq_of_matches {pattern' : String} (hroot : root.components ≠ [])
    (h : Matches t root pattern p) (h' : Matches t' root pattern' p') (hs : p.same p' = true) :
    p = p' := by
  obtain ⟨_, _, _, -, -, hunder, rfl⟩ := h
  obtain ⟨_, _, _, -, -, hunder', rfl⟩ := h'
  obtain ⟨segs, hsegs, heq⟩ := exists_plain_logical hroot hunder
  obtain ⟨segs', hsegs', heq'⟩ := exists_plain_logical hroot hunder'
  rw [heq, heq'] at hs ⊢
  rw [eq_of_same_of_plain hsegs hsegs' hs]

theorem exists_answer_filesOf (h : (ofPattern? pattern).isSome = true) :
    ∃ ps, answer (filesOf root pattern) t = .ok ps := by
  obtain ⟨g, hg⟩ := Option.isSome_iff_exists.1 h
  obtain ⟨qs, hqs, -⟩ := found_expand (t := t) root g
  unfold filesOf
  rw [show parse? _ = some g from hg]
  dsimp only
  rw [answer_bind (reads_expand root g), hqs]
  exact ⟨_, rfl⟩

theorem isSome_of_answer_filesOf {ps : List Path} (h : answer (filesOf root pattern) t = .ok ps) :
    (ofPattern? pattern).isSome = true := by
  unfold filesOf at h
  cases hg : ofPattern? pattern with
  | some g => rfl
  | none =>
    rw [show parse? _ = none from hg] at h
    cases h

theorem eq_of_pairwise {ps qs : List Path} (hps : ps.Pairwise fun p q => p.compare q = .lt)
    (hqs : qs.Pairwise fun p q => p.compare q = .lt) (h : ∀ p, p ∈ ps ↔ p ∈ qs) : ps = qs := by
  let sorted (ps : List Path) (h : ps.Pairwise fun p q => p.compare q = .lt) :
      OrderedMap Path Unit Path.compare := ⟨ps.map fun p => (p, ()), by rwa [List.pairwise_map]⟩
  have hkeys : ∀ ps h, (sorted ps h).keys = ps := fun ps h => by
    rw [OrderedMap.keys, List.map_map]
    exact List.map_id _
  have heq : sorted ps hps = sorted qs hqs := OrderedMap.ext_mem fun e => by
    simp only [sorted, List.mem_map, h]
  calc ps = (sorted ps hps).keys := (hkeys ps hps).symm
    _ = (sorted qs hqs).keys := by rw [heq]
    _ = qs := hkeys qs hqs

/-- The files of a list of patterns are those of each, in path order. -/
theorem answer_files_eq_ok {patterns : List String} {ps : List Path} (hroot : root.components ≠ []) :
    answer (files root patterns) t = .ok ps ↔
      (∀ pattern ∈ patterns, (ofPattern? pattern).isSome = true) ∧
      ps.Pairwise (fun p q => p.compare q = .lt) ∧
      ∀ p, p ∈ ps ↔ ∃ pattern ∈ patterns, Matches t root pattern p := by
  have hforward : ∀ ps, answer (files root patterns) t = .ok ps →
      (∀ pattern ∈ patterns, (ofPattern? pattern).isSome = true) ∧
      ps.Pairwise (fun p q => p.compare q = .lt) ∧
      ∀ p, p ∈ ps ↔ ∃ pattern ∈ patterns, Matches t root pattern p := by
    intro ps h
    have hmem := matches_of_mem_files h
    rw [answer_files] at h
    obtain ⟨found, hfound, hkeys⟩ := bind_eq_ok.1 h
    obtain rfl := Except.ok.inj hkeys
    refine ⟨fun pattern hpattern => ?_, List.pairwise_map.2 (OrderedMap.sorted _), fun p =>
      ⟨hmem p, ?_⟩⟩
    · obtain ⟨l, -, hanswer⟩ := exists_mem_of_mapM hfound hpattern
      exact isSome_of_answer_filesOf hanswer
    · rintro ⟨pattern, hpattern, hmatches⟩
      obtain ⟨l, hl, hanswer⟩ := exists_mem_of_mapM hfound hpattern
      have hp : p ∈ (found.flatten.map fun p => (p, ())).map Prod.fst := by
        rw [List.map_map]
        refine List.mem_map.2 ⟨p, List.mem_flatten.2 ⟨l, hl, ?_⟩, rfl⟩
        exact (answer_filesOf hanswer p).2 hmatches
      obtain ⟨p', hp', hsame⟩ :
          ∃ p' ∈ (OrderedMap.ofList (found.flatten.map fun p => (p, ())) :
            OrderedMap Path Unit Path.compare).keys, Path.compare p p' = .eq :=
        OrderedMap.exists_mem_keys_ofList hp
      obtain ⟨_, -, hmatches'⟩ := hmem p' hp'
      rwa [eq_of_matches hroot hmatches hmatches' (Path.compare_eq_iff.1 hsame)]
  refine ⟨hforward ps, fun ⟨hpatterns, hsorted, hmem⟩ => ?_⟩
  have hfiles : ∀ pattern ∈ patterns, ∃ ps, answer (filesOf root pattern) t = .ok ps :=
    fun pattern hpattern => exists_answer_filesOf (hpatterns pattern hpattern)
  obtain ⟨found, hfound⟩ := exists_mapM_eq_ok hfiles
  have hanswer := answer_files root patterns t
  rw [hfound] at hanswer
  obtain ⟨-, hsorted', hmem'⟩ := hforward _ hanswer
  rw [eq_of_pairwise hsorted hsorted' fun p => (hmem p).trans (hmem' p).symm]
  exact hanswer

/-- Patterns give the same files in two trees when each of these is found through the same. -/
theorem answer_files_same {patterns : List String} {ps : List Path} (ht : t.Proper) (ht' : t'.Proper)
    (hroot : root.text ≠ "") (hcomponents : root.components ≠ [])
    (h : answer (files root patterns) t = .ok ps)
    (hs : ∀ pattern ∈ patterns, Lasts t t' root pattern)
    (hs' : ∀ pattern ∈ patterns, Lasts t' t root pattern) :
    answer (files root patterns) t' = .ok ps := by
  rw [answer_files_eq_ok hcomponents] at h ⊢
  obtain ⟨hpatterns, hsorted, hmem⟩ := h
  refine ⟨hpatterns, hsorted, fun p => (hmem p).trans ?_⟩
  constructor
  · rintro ⟨pattern, hpattern, h⟩
    exact ⟨pattern, hpattern, h.same ht hroot (hs pattern hpattern)⟩
  · rintro ⟨pattern, hpattern, h⟩
    exact ⟨pattern, hpattern, h.same ht' hroot (hs' pattern hpattern)⟩

end Glob

end GqlArtifacts
