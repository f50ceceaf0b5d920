import GqlArtifacts.Proofs.Config.Directories

/-!
# The temporary file of a path

A path that has a file name may go on with slashes and dots behind it
(`exists_segments_of_fileName?`), and still its temporary file has a longer name in the same
directory (`place_temporaryPath_of_fileName?`). The one exception is a path that ends in two dots
and an extension, like `..x`: the extension comes off first, what is left is no file name, and the
temporary path is the directory above (`not_reaches_temporaryPath`).
-/

namespace GqlArtifacts

open Files

namespace Path

variable {p : Path} {n : String}

theorem ofSegment?_of_trivial {s : String} (h : isTrivialSegment s = true) :
    Component.ofSegment? s = none := by
  rw [isTrivialSegment, Bool.or_eq_true, beq_iff_eq, beq_iff_eq] at h
  exact if_pos h

theorem filterMap_ofSegment?_of_trivial {trail : List String}
    (h : ∀ s ∈ trail, isTrivialSegment s = true) : trail.filterMap Component.ofSegment? = [] :=
  List.filterMap_eq_nil_iff.2 fun s hs => ofSegment?_of_trivial (h s hs)

theorem foldl_follow_of_trivial {trail : List String} {dir : Place}
    (h : ∀ s ∈ trail, isTrivialSegment s = true) : trail.foldl Place.follow dir = dir := by
  induction trail with
  | nil => rfl
  | cons s trail ih =>
    have hs := h s (List.mem_cons_self ..)
    rw [isTrivialSegment, Bool.or_eq_true, beq_iff_eq, beq_iff_eq] at hs
    rw [List.foldl_cons, Place.follow, if_pos hs]
    exact ih fun x hx => h x (List.mem_cons_of_mem _ hx)

/-- The segments after the first: up to the last one that means something, and the others. -/
theorem exists_trail (rest : List String) : ∃ kept trail,
    rest = kept ++ trail ∧ (∀ s ∈ trail, isTrivialSegment s = true) ∧
      (∀ first, trimSegments (first :: rest) = first :: kept) ∧
      ∀ init last, kept = init ++ [last] → isTrivialSegment last = false := by
  refine ⟨(rest.reverse.dropWhile isTrivialSegment).reverse,
    (rest.reverse.takeWhile isTrivialSegment).reverse, ?_, fun s hs => ?_, fun _ => rfl,
    fun init last hlast => ?_⟩
  · rw [← List.reverse_append, List.takeWhile_append_dropWhile, List.reverse_reverse]
  · exact List.all_eq_true.1 List.all_takeWhile s (List.mem_reverse.1 hs)
  · have hhead := List.head?_dropWhile_not isTrivialSegment rest.reverse
    rw [List.reverse_eq_append_iff.1 hlast] at hhead
    simpa using hhead

theorem eq_of_ofSegment? {s : String} (h : Component.ofSegment? s = some (.name n)) :
    s = n ∧ n ≠ "" ∧ n ≠ "." ∧ n ≠ ".." := by
  rw [Component.ofSegment?, Component.read?] at h
  split at h
  · cases h
  · next hs =>
    split at h
    · cases h
    · next hp =>
      obtain rfl : s = n := by simpa using h
      exact ⟨rfl, fun h => hs (.inl h), fun h => hs (.inr h), hp⟩

theorem exists_segments_of_fileName? (h : p.fileName? = some n) : ∃ before trail,
    p.segments = before ++ n :: trail ∧ (∀ s ∈ trail, isTrivialSegment s = true) ∧ IsName n ∧
      p.splitLast? = some (before, n) := by
  have hslash : '/' ∉ n.toList := not_mem_of_mem_segments (mem_segments_of_fileName? h)
  have hlast : p.components.getLast? = some (.name n) := by
    rw [fileName?] at h
    split at h
    · next s hs => rw [hs, Option.some.inj h]
    · cases h
  obtain ⟨first, rest, hsegs⟩ := List.exists_cons_of_ne_nil p.segments_ne_nil
  obtain ⟨kept, trail, rfl, htrail, htrim, hkept⟩ := exists_trail rest
  rw [components, hsegs, Component.readAll] at hlast
  simp only [List.filterMap_append, filterMap_ofSegment?_of_trivial htrail, List.append_nil] at hlast
  rcases List.eq_nil_or_concat kept with rfl | ⟨init, last, rfl⟩
  · -- the first segment is the name
    rw [List.filterMap_nil, List.append_nil] at hlast
    have hfirst : Component.ofSegment? first = some (.name n) := by
      split at hlast
      · cases hlast
      · split at hlast
        · cases hlast
        · cases hc : Component.ofSegment? first with
          | none => rw [hc] at hlast; cases hlast
          | some c => rw [hc] at hlast; exact hlast
    obtain ⟨rfl, hn⟩ := eq_of_ofSegment? hfirst
    rw [List.nil_append] at hsegs htrim
    refine ⟨[], trail, hsegs, htrail, ⟨hslash, hn⟩, ?_⟩
    simp [splitLast?, hsegs, htrim, hn.1]
  · rw [List.concat_eq_append] at hsegs htrim hlast hkept
    have htrivial := hkept init last rfl
    have hsome : Component.ofSegment? last = some (.name n) := by
      cases hc : Component.ofSegment? last with
      | some c =>
        rw [List.filterMap_append, List.filterMap_cons, hc, List.filterMap_nil, ← List.append_assoc,
          List.getLast?_concat] at hlast
        exact hlast
      | none =>
        rw [Component.ofSegment?, Component.read?] at hc
        split at hc
        · next hs =>
          rw [isTrivialSegment, Bool.or_eq_false_iff, beq_eq_false_iff_ne,
            beq_eq_false_iff_ne] at htrivial
          exact absurd hs (not_or.2 htrivial)
        · split at hc <;> cases hc
    obtain ⟨rfl, hn⟩ := eq_of_ofSegment? hsome
    refine ⟨first :: init, trail, ?_, htrail, ⟨hslash, hn⟩, ?_⟩
    · rw [hsegs, List.append_assoc, List.singleton_append, List.cons_append]
    · have hlast? : (first :: (init ++ [last])).getLast? = some last := by
        rw [← List.cons_append, List.getLast?_concat]
      have hdrop : (first :: (init ++ [last])).dropLast = first :: init := by
        rw [← List.cons_append, List.dropLast_concat]
      simp only [splitLast?, hsegs, htrim, hlast?, hdrop, if_neg hn.1]

/-! ### The name beside a file -/

/-- The path ends in two dots and an extension. -/
def Dotted (p : Path) : Prop := ∃ n, p.segments.getLast? = some n ∧ TwoDots n

/-- The name of the temporary file for a name. -/
def temporaryName (n : String) : String :=
  n ++ if (splitExtension n).2.isSome then ".tmp" else ".tmp.tmp"

theorem length_temporaryName (n : String) : n.length + 4 ≤ (temporaryName n).length := by
  rw [temporaryName, String.length_append]
  split
  · exact Nat.le_refl _
  · exact Nat.add_le_add_left (by decide) _

theorem temporaryName_ne (n : String) : temporaryName n ≠ n := fun h =>
  absurd (length_temporaryName n) (by rw [h]; omega)

theorem isName_temporaryName (hn : IsName n) : IsName (temporaryName n) := by
  have hlen := length_temporaryName n
  refine isName_of_two_lt_length ?_ (by omega)
  rw [temporaryName, String.toList_append, List.mem_append, not_or]
  refine ⟨hn.1, ?_⟩
  split <;> decide

/-- What comes before the last dot, with the extension and `.tmp` put after it again. -/
theorem append_temporary (n : String) :
    (splitExtension n).1 ++ "." ++ ((splitExtension n).2.getD "tmp" ++ ".tmp") = temporaryName n := by
  rw [temporaryName]
  rcases splitExtension_cases n with h | ⟨stem, ext, hn, -, h⟩
  · rw [h, String.append_assoc]
    rfl
  · rw [h, Option.getD_some, Option.isSome_some, if_pos rfl]
    refine String.toList_inj.1 ?_
    simp [hn]

theorem splitExtension_of_twoDots (h : TwoDots n) :
    ∃ ext, splitExtension n = (".", some ext) := by
  obtain ⟨htake, hdrop⟩ := h
  have hn : n.toList = '.' :: '.' :: n.toList.drop 2 := by
    conv => lhs; rw [← List.take_append_drop 2 n.toList, htake]
    rfl
  generalize n.toList.drop 2 = ext at hn hdrop
  have htakeWhile : (n.toList.reverse.takeWhile (· != '.')).reverse = ext := by
    have hrev : n.toList.reverse = ext.reverse ++ '.' :: ['.'] := by rw [hn]; simp
    rw [hrev, List.takeWhile_append_of_pos (fun c hc => ?_), List.takeWhile_cons_of_neg (by simp),
      List.append_nil, List.reverse_reverse]
    rw [bne_iff_ne]
    rintro rfl
    exact hdrop (List.mem_reverse.1 hc)
  refine ⟨String.ofList ext, ?_⟩
  simp only [splitExtension, Text.chars_eq, htakeWhile]
  have hlen : n.toList.length - ext.length - 1 = 1 := by
    rw [hn, List.length_cons, List.length_cons]
    omega
  rw [hlen, hn]
  rfl

section
variable (h : p.fileName? = some n)
include h

theorem temporaryPath_eq_of_fileName? {before : List String}
    (hsplit : p.splitLast? = some (before, n)) :
    (p.Dotted → temporaryPath p = ofSegments (before ++ [".."])) ∧
      (¬p.Dotted → temporaryPath p = ofSegments (before ++ [temporaryName n])) := by
  have hname : ((p.extension?.getD "tmp") ++ ".tmp" : String) =
      (splitExtension n).2.getD "tmp" ++ ".tmp" := by
    rw [extension?, h, Option.bind_some]
  have hne : ((splitExtension n).2.getD "tmp" ++ ".tmp" : String) ≠ "" := by simp
  simp only [temporaryPath, hname, withExtension, h, hsplit, if_neg hne, append_temporary]
  obtain ⟨_, trail, hsegs, htrail, hn, -⟩ := exists_segments_of_fileName? h
  refine ⟨?_, fun hdots => if_neg fun hcut =>
    hdots ⟨n, hcut.2.2, twoDots_of_splitExtension hcut.1 hcut.2.1⟩⟩
  rintro ⟨last, hlast, hdots⟩
  -- what comes behind the name does not begin with two dots
  obtain rfl : last = n := by
    rcases List.eq_nil_or_concat trail with rfl | ⟨init, s, rfl⟩
    · rw [hsegs, List.getLast?_concat] at hlast
      exact (Option.some.inj hlast).symm
    · rw [hsegs, List.concat_eq_append, ← List.cons_append, ← List.append_assoc,
        List.getLast?_concat] at hlast
      obtain rfl := Option.some.inj hlast
      have hs := htrail s (by simp)
      rw [isTrivialSegment, Bool.or_eq_true, beq_iff_eq, beq_iff_eq] at hs
      rcases hs with rfl | rfl <;> exact absurd hdots (by decide)
  obtain ⟨ext, hext⟩ := splitExtension_of_twoDots hdots
  exact if_pos (by rw [hext]; exact ⟨rfl, rfl, hlast⟩)

/-- The temporary file of a path with a file name has another name in the same directory. -/
theorem place_temporaryPath_of_fileName? (hdots : ¬p.Dotted) : ∃ dir,
    p.place = dir ++ [n] ∧ (temporaryPath p).place = dir ++ [temporaryName n] := by
  obtain ⟨before, trail, hsegs, htrail, hn, hsplit⟩ := exists_segments_of_fileName? h
  have hbefore : ∀ s ∈ before, '/' ∉ s.toList := fun s hs =>
    not_mem_of_mem_segments (p := p) (by rw [hsegs]; exact List.mem_append_left _ hs)
  have hn' := isName_temporaryName hn
  refine ⟨before.foldl Place.follow [], ?_, ?_⟩
  · rw [place, placeFrom, hsegs, List.foldl_append, List.foldl_cons, follow_of_isName hn,
      foldl_follow_of_trivial htrail]
  · rw [(temporaryPath_eq_of_fileName? h hsplit).2 hdots, place, placeFrom,
      segments_ofSegments_concat hbefore hn'.1, List.foldl_concat, follow_of_isName hn']

theorem place_temporaryPath_ne (hdots : ¬p.Dotted) : (temporaryPath p).place ≠ p.place := by
  obtain ⟨dir, hp, htmp⟩ := place_temporaryPath_of_fileName? h hdots
  rw [hp, htmp]
  intro heq
  exact temporaryName_ne n (List.cons.inj (List.append_cancel_left heq)).1

/-- Nothing can be written to the temporary path of `..x`. -/
theorem not_reaches_temporaryPath (hdots : p.Dotted) (t : Tree) : ¬t.Reaches (temporaryPath p) := by
  obtain ⟨before, trail, hsegs, -, -, hsplit⟩ := exists_segments_of_fileName? h
  have hbefore : ∀ s ∈ before, '/' ∉ s.toList := fun s hs =>
    not_mem_of_mem_segments (p := p) (by rw [hsegs]; exact List.mem_append_left _ hs)
  intro hreaches
  obtain ⟨init, last, hlast, hname⟩ := hreaches.exists_segments
  rw [(temporaryPath_eq_of_fileName? h hsplit).1 hdots,
    segments_ofSegments_concat hbefore (by decide)] at hlast
  obtain ⟨-, heq⟩ := List.append_inj' hlast rfl
  exact hname.2.2.2 (List.cons.inj heq).1.symm

end

end Path

end GqlArtifacts
