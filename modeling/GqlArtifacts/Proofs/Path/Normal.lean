import GqlArtifacts.Proofs.Files.Place

/-!
# Normal forms of paths

The normal form of a path names the place that the path leads to: that of a path that does not
escape consists of the names on the way (`normalize_of_not_escapesRoot`), and that of an absolute path
of a root and these names (`normalize_of_isAbsolute`). So the first is inner and the second is
`Rooted`.

A joined path has the components of its first part and then those of the segments of the second
(`components_join`); what an inner path adds to a directory lies `Below` it.
-/

namespace GqlArtifacts

open Files

namespace Path

variable {p q : Path} {segs ns : List String}

/-! ### Joined paths -/

theorem isAbsolute_of_not_mem {s : String} (h : '/' ∉ s.toList) : isAbsolute ⟨s⟩ = false := by
  rw [isAbsolute, chars_eq, beq_eq_false_iff_ne]
  intro heq
  exact h (List.mem_of_head? heq)

theorem join_nonempty (hp : p.text ≠ "") (hq : q.isAbsolute = false) : (p / q).text ≠ "" := by
  show (join p q).text ≠ ""
  rw [join, if_neg (by simp [hq])]
  split <;> simp [hp]

/-! ### Components -/

/-- The components that segments stand for, none of them the first of a path. -/
def inside (segs : List String) : List (Component String) := segs.filterMap Component.ofSegment?

theorem components_append {s s' : String} (hs : s ≠ "") :
    components ⟨s ++ "/" ++ s'⟩ = components ⟨s⟩ ++ inside (segments ⟨s'⟩) := by
  obtain ⟨first, rest, hsegs⟩ := List.exists_cons_of_ne_nil (segments_ne_nil ⟨s⟩)
  have habs : isAbsolute ⟨s ++ "/" ++ s'⟩ = isAbsolute ⟨s⟩ := by
    rw [String.append_assoc, isAbsolute_append hs]
  have hjoined : segments ⟨s ++ "/" ++ s'⟩ = first :: (rest ++ segments ⟨s'⟩) := by
    rw [segments_append, hsegs, List.cons_append]
  simp only [components, Component.readAll, hjoined, hsegs, habs, List.filterMap_append, inside, List.append_assoc]

theorem segments_slash (s : String) : segments ⟨"/" ++ s⟩ = "" :: segments ⟨s⟩ := by
  have h := segments_append "" s
  rwa [String.empty_append, segments_eq_singleton (s := "") (by simp)] at h

theorem components_slash (s : String) : components ⟨"/" ++ s⟩ = .root :: inside (segments ⟨s⟩) := by
  have habs : isAbsolute ⟨"/" ++ s⟩ = true := by simp [isAbsolute]
  simp only [components, Component.readAll, segments_slash, habs, inside]
  rfl

/-- What a relative path adds to a path that is not empty. -/
theorem components_join (hp : p.text ≠ "") (hq : q.isAbsolute = false) :
    (p / q).components = p.components ++ inside q.segments := by
  show (join p q).components = _
  obtain ⟨text⟩ := p
  rw [join, if_neg (by simp [hq])]
  split
  · next h =>
    have hlast := h.resolve_left (by simpa using hp)
    obtain ⟨front, rfl⟩ := exists_append_slash hlast
    by_cases hempty : front = ""
    · rw [hempty, String.empty_append]
      exact components_slash q.text
    · have htrail : components ⟨front ++ "/"⟩ = components ⟨front⟩ := by
        have h : components ⟨front ++ "/" ++ ""⟩ = _ := components_append hempty
        rw [String.append_empty] at h
        rw [h, segments_eq_singleton (s := "") (by simp)]
        exact List.append_nil _
      rw [components_append hempty, htrail]
  · exact components_append hp

/-- A joined path ends in the segments of its second part. -/
theorem exists_segments_join (hq : q.isAbsolute = false) {init : List String} {n : String}
    (h : q.segments = init ++ [n]) : ∃ before, (p / q).segments = before ++ [n] := by
  show ∃ before, (join p q).segments = before ++ [n]
  obtain ⟨text⟩ := p
  rw [join, if_neg (by simp [hq])]
  split
  · next hcase =>
    rcases hcase with hcase | hcase
    · obtain rfl : text = "" := String.isEmpty_iff.1 hcase
      rw [String.empty_append]
      exact ⟨init, h⟩
    · obtain ⟨front, rfl⟩ := exists_append_slash hcase
      rw [segments_append, h]
      exact ⟨_, (List.append_assoc ..).symm⟩
  · rw [segments_append, h]
    exact ⟨_, (List.append_assoc ..).symm⟩

theorem inside_of_isName (h : ∀ s ∈ ns, IsName s) : inside ns = ns.map .name := by
  rw [inside, ← List.filterMap_eq_map]
  refine List.filterMap_congr fun s hs => ?_
  obtain ⟨-, hempty, hcurrent, hparent⟩ := h s hs
  exact ofSegment?_of_proper hempty hcurrent hparent

/-- A relative path has the components of its segments, apart from a dot in front. -/
theorem components_of_relative (h : p.isAbsolute = false) :
    p.components = inside p.segments ∨ p.components = .current :: inside p.segments := by
  obtain ⟨first, rest, hsegs⟩ := List.exists_cons_of_ne_nil p.segments_ne_nil
  have hcomps : p.components = (if first = "." then [.current] else
      (Component.ofSegment? first).toList) ++ inside rest := by
    simp only [components, Component.readAll, hsegs, h, inside, Bool.false_eq_true, if_false]
  rw [hcomps, hsegs]
  by_cases hdot : first = "."
  · subst hdot
    exact .inr rfl
  · rw [if_neg hdot]
    refine .inl ?_
    simp only [inside, List.filterMap_cons]
    cases Component.ofSegment? first <;> rfl

/-- An absolute path is a root and the segments after it. -/
theorem components_of_isAbsolute (h : p.isAbsolute = true) :
    p.components = .root :: inside p.segments := by
  obtain ⟨first, rest, hsegs⟩ := List.exists_cons_of_ne_nil p.segments_ne_nil
  have hfirst : first = "" := by
    have hhead := head?_segments_of_isAbsolute h
    rw [hsegs] at hhead
    exact Option.some.inj hhead
  subst hfirst
  simp only [components, Component.readAll, hsegs, h, inside, if_true]
  rfl

theorem segment_cases (s : String) : Component.ofSegment? s = none ∧ (s = "" ∨ s = ".") ∨
    Component.ofSegment? s = some .parent ∧ s = ".." ∨
    Component.ofSegment? s = some (.name s) ∧ s ≠ "" ∧ s ≠ "." ∧ s ≠ ".." := by
  unfold Component.ofSegment? Component.read?
  by_cases hnone : s = "" ∨ s = "."
  · exact .inl ⟨if_pos hnone, hnone⟩
  · by_cases hparent : s = ".."
    · exact .inr (.inl ⟨by rw [if_neg hnone, if_pos hparent], hparent⟩)
    · rw [if_neg hnone, if_neg hparent]
      exact .inr (.inr ⟨rfl, (not_or.1 hnone).1, (not_or.1 hnone).2, hparent⟩)

/-! ### Segments that mean something -/

theorem map_text_inside (segs : List String) :
    (inside segs).map Component.text = segs.filter fun s => !isTrivialSegment s := by
  induction segs with
  | nil => rfl
  | cons s segs ih =>
    rcases segment_cases s with ⟨hs, hnone⟩ | ⟨hs, rfl⟩ | ⟨hs, hempty, hcurrent, -⟩
    · rw [inside, List.filterMap_cons_none hs, List.filter_cons_of_neg]
      · exact ih
      · rcases hnone with rfl | rfl <;> decide
    · rw [inside, List.filterMap_cons_some hs, List.map_cons, List.filter_cons_of_pos (by decide)]
      exact congrArg _ ih
    · rw [inside, List.filterMap_cons_some hs, List.map_cons, List.filter_cons_of_pos]
      · exact congrArg _ ih
      · simp [isTrivialSegment, hempty, hcurrent]

theorem root_not_mem_inside : .root ∉ inside segs := by
  intro hmem
  obtain ⟨s, -, hs⟩ := List.mem_filterMap.1 hmem
  rcases segment_cases s with ⟨hs', -⟩ | ⟨hs', -⟩ | ⟨hs', -⟩ <;> cases hs.symm.trans hs'

/-- The joined components of segments are the segments that mean something. -/
theorem ofComponents_inside (segs : List String) :
    ofComponents (inside segs) = ofSegments (segs.filter fun s => !isTrivialSegment s) := by
  rw [ofComponents_of_root_not_mem root_not_mem_inside, map_text_inside]

/-- Each of these segments counts. -/
def Plain (segs : List String) : Prop := ∀ s ∈ segs, '/' ∉ s.toList ∧ isTrivialSegment s = false

section Plain
variable (h : Plain segs)
include h

theorem isAbsolute_of_plain : (ofSegments segs).isAbsolute = false := by
  by_cases hnil : segs = []
  · rw [hnil]
    rfl
  · rw [Bool.eq_false_iff]
    intro habs
    have hhead := head?_segments_of_isAbsolute habs
    rw [segments_ofSegments (fun s hs => (h s hs).1) hnil] at hhead
    exact absurd (h "" (List.mem_of_mem_head? hhead)).2 (by decide)

theorem components_of_plain : (ofSegments segs).components = inside segs := by
  by_cases hnil : segs = []
  · rw [hnil]
    rfl
  · obtain ⟨first, rest, rfl⟩ := List.exists_cons_of_ne_nil hnil
    have hsegs := segments_ofSegments (fun s hs => (h s hs).1) hnil
    have hdot : first ≠ "." := by
      rintro rfl
      exact absurd (h "." (List.mem_cons_self ..)).2 (by decide)
    simp only [components, Component.readAll, hsegs, isAbsolute_of_plain h, if_neg hdot, Bool.false_eq_true, if_false]
    rw [inside, List.filterMap_cons]
    cases Component.ofSegment? first <;> rfl

theorem toSlash_of_plain : (ofSegments segs).toSlash = (ofSegments segs).text := by
  rw [toSlash, components_of_plain h, ofComponents_inside, List.filter_eq_self.2]
  intro s hs
  rw [(h s hs).2]
  rfl

end Plain

/-! ### Folding and following -/

/-- Folding the components goes the way that the segments lead: down below the names that are there
already, if it does not climb above these or if a root is above them. -/
theorem foldl_normalizeStep_inside (ns : List String) {acc : List (Component String)}
    (h : climbsAbove ns.length (inside segs) = false ∨ acc = [.root]) :
    (inside segs).foldl normalizeStep ((ns.map .name).reverse ++ acc) =
      ((segs.foldl Place.follow ns).map .name).reverse ++ acc := by
  induction segs generalizing ns with
  | nil => rfl
  | cons s segs ih =>
    have hfollow := fun ns => show (s :: segs).foldl Place.follow ns =
      segs.foldl Place.follow (Place.follow ns s) from rfl
    rw [hfollow]
    rcases segment_cases s with ⟨hs, hnone⟩ | ⟨hs, rfl⟩ | ⟨hs, hempty, hcurrent, hparent⟩
    · rw [inside, List.filterMap_cons_none hs] at h ⊢
      rw [Place.follow, if_pos hnone]
      exact ih _ h
    · rw [inside, List.filterMap_cons_some hs] at h ⊢
      rw [Place.follow, if_neg (by decide), if_pos rfl, List.foldl_cons]
      rcases List.eq_nil_or_concat ns with rfl | ⟨init, n, rfl⟩
      · obtain rfl := h.resolve_left (by simp [climbsAbove])
        exact ih [] (.inr rfl)
      · rw [List.concat_eq_append] at h ⊢
        rw [List.length_append, List.length_singleton] at h
        rw [List.dropLast_concat, List.map_append, List.reverse_append]
        exact ih _ h
    · rw [inside, List.filterMap_cons_some hs] at h ⊢
      rw [Place.follow, if_neg (not_or.2 ⟨hempty, hcurrent⟩), if_neg hparent, List.foldl_cons]
      have hstep : normalizeStep ((ns.map .name).reverse ++ acc) (.name s) =
          ((ns ++ [s]).map .name).reverse ++ acc := by
        rw [List.map_append, List.reverse_append]
        rfl
      rw [hstep]
      refine ih _ (h.imp_left fun hc => ?_)
      rwa [List.length_append, List.length_singleton]

theorem isName_of_mem_foldl_follow (hsegs : ∀ s ∈ segs, '/' ∉ s.toList) (hns : ∀ s ∈ ns, IsName s) :
    ∀ s ∈ segs.foldl Place.follow ns, IsName s := by
  induction segs generalizing ns with
  | nil => exact hns
  | cons seg segs ih =>
    refine ih (fun s hs => hsegs s (List.mem_cons_of_mem _ hs)) fun s hs => ?_
    unfold Place.follow at hs
    split at hs
    · exact hns s hs
    · next hproper =>
      split at hs
      · exact hns s ((List.dropLast_prefix _).subset hs)
      · next hparent =>
        rcases List.mem_append.1 hs with hs | hs
        · exact hns s hs
        · rw [List.mem_singleton.1 hs]
          exact ⟨hsegs seg (List.mem_cons_self ..), (not_or.1 hproper).1, (not_or.1 hproper).2,
            hparent⟩

theorem isName_of_mem_place : ∀ s ∈ p.place, IsName s :=
  isName_of_mem_foldl_follow (fun _ => not_mem_of_mem_segments) (by simp)

/-- What remains of a path that does not escape are the names that it leads along. -/
theorem normalizeComponents_of_not_escapesRoot (h : p.escapesRoot = false) :
    normalizeComponents p.components = p.place.map .name := by
  obtain ⟨hrel, hclimbs⟩ := Bool.or_eq_false_iff.1 h
  have hfold : p.components.foldl normalizeStep [] = (inside p.segments).foldl normalizeStep [] ∧
      climbsAbove 0 (inside p.segments) = false := by
    rcases components_of_relative hrel with heq | heq
    · rw [heq] at hclimbs ⊢
      exact ⟨rfl, hclimbs⟩
    · rw [heq] at hclimbs ⊢
      exact ⟨rfl, hclimbs⟩
  have hplace : (inside p.segments).foldl normalizeStep [] = (p.place.map .name).reverse ++ [] :=
    foldl_normalizeStep_inside [] (.inl hfold.2)
  rw [normalizeComponents, hfold.1, hplace, List.append_nil, List.reverse_reverse]

theorem normalize_of_not_escapesRoot (h : p.escapesRoot = false) :
    p.normalize = ofSegments p.place := by
  rw [normalize, normalizeComponents_of_not_escapesRoot h, ofComponents_map_name]

/-- The path of a place, from the root. -/
def ofRoot (ns : List String) : Path := ⟨"/" ++ "/".intercalate ns⟩

theorem ofComponents_root (ns : List String) :
    ofComponents (.root :: ns.map .name) = ofRoot ns := by
  have hnames : Component.sinceRoot Component.text (.root :: ns.map .name) =
      (true, ((ns.map .name).map Component.text).reverse ++ []) :=
    foldl_sinceRoot (by simp) true []
  simp only [ofComponents]
  rw [hnames]
  simp [ofRoot, Function.comp_def, Component.text]

theorem normalize_of_isAbsolute (h : p.isAbsolute = true) : p.normalize = ofRoot p.place := by
  have hplace : (inside p.segments).foldl normalizeStep [.root] =
      (p.place.map .name).reverse ++ [.root] := foldl_normalizeStep_inside [] (.inr rfl)
  have hfold : p.components.foldl normalizeStep [] = (p.place.map .name).reverse ++ [.root] := by
    rw [components_of_isAbsolute h]
    exact hplace
  rw [normalize, normalizeComponents, hfold, List.reverse_append, List.reverse_reverse]
  exact ofComponents_root p.place

/-! ### Inner and rooted paths -/

theorem place_ofSegments (h : ∀ s ∈ ns, IsName s) : (ofSegments ns).place = ns :=
  placeFrom_ofSegments h

theorem climbsAbove_map_name (n : Nat) (ns : List String) :
    climbsAbove n (ns.map .name) = false := by
  induction ns generalizing n with
  | nil => rfl
  | cons s ns ih => exact ih (n + 1)

theorem not_escapesRoot_ofSegments (h : ∀ s ∈ ns, IsName s) :
    (ofSegments ns).escapesRoot = false := by
  rw [escapesRoot, isAbsolute_ofSegments h, components_ofSegments h, climbsAbove_map_name]
  rfl

theorem inner_ofSegments (h : ∀ s ∈ ns, IsName s) : (ofSegments ns).Inner := by
  refine ⟨isAbsolute_ofSegments h, ?_, by rw [components_ofSegments h]; simp⟩
  rw [normalize_of_not_escapesRoot (not_escapesRoot_ofSegments h), place_ofSegments h]

/-- A path that does not escape has an inner normal form. -/
theorem inner_normalize (h : p.escapesRoot = false) : p.normalize.Inner := by
  rw [normalize_of_not_escapesRoot h]
  exact inner_ofSegments isName_of_mem_place

/-- Absolute and normalized. -/
structure Rooted (p : Path) : Prop where
  absolute : p.isAbsolute = true
  normal : p.normalize = p

theorem isAbsolute_ofRoot (ns : List String) : (ofRoot ns).isAbsolute = true := by
  simp [ofRoot, isAbsolute]

theorem place_ofRoot (h : ∀ s ∈ ns, IsName s) : (ofRoot ns).place = ns := by
  have hsegs : (ofRoot ns).segments = "" :: (ofSegments ns).segments := segments_slash _
  rw [place, placeFrom, hsegs]
  exact place_ofSegments h

theorem rooted_normalize (h : p.isAbsolute = true) : p.normalize.Rooted := by
  rw [normalize_of_isAbsolute h]
  refine ⟨isAbsolute_ofRoot _, ?_⟩
  rw [normalize_of_isAbsolute (isAbsolute_ofRoot _), place_ofRoot isName_of_mem_place]

namespace Rooted

variable (h : p.Rooted)
include h

theorem eq_ofRoot : p = ofRoot p.place := by
  conv => lhs; rw [← h.normal, normalize_of_isAbsolute h.absolute]

theorem components_eq : p.components = .root :: p.place.map .name := by
  have hsegs : (ofRoot p.place).segments = "" :: (ofSegments p.place).segments := segments_slash _
  have hinside : inside (ofSegments p.place).segments = p.place.map .name := by
    by_cases hnil : p.place = []
    · rw [hnil]
      rfl
    · rw [segments_ofSegments (fun s hs => (isName_of_mem_place s hs).1) hnil,
        inside_of_isName isName_of_mem_place]
  conv => lhs; rw [h.eq_ofRoot]
  rw [components_of_isAbsolute (isAbsolute_ofRoot _), hsegs, inside,
    List.filterMap_cons_none (show Component.ofSegment? "" = none from rfl)]
  exact congrArg _ hinside

theorem nonempty : p.text ≠ "" := by
  intro heq
  have habs := h.absolute
  rw [isAbsolute, chars_eq, heq] at habs
  cases habs

end Rooted

/-! ### Below a directory -/

/-- A path lies below another when names lead there from it, at least one. -/
def Below (p base : Path) : Prop :=
  ∃ ns, ns ≠ [] ∧ (∀ s ∈ ns, IsName s) ∧ p.components = base.components ++ ns.map .name

theorem Inner.components_eq (h : p.Inner) : p.components = p.names.map .name := by
  conv => lhs; rw [h.eq_ofSegments]
  exact components_ofSegments h.isName_of_mem

/-- What is in an inner directory of a directory. -/
theorem below_join (hp : p.text ≠ "") (hq : q.Inner) (hne : q.text ≠ "") : (p / q).Below p := by
  refine ⟨q.names, hq.names_ne_nil hne, hq.isName_of_mem, ?_⟩
  rw [components_join hp hq.relative, hq.segments_eq (hq.names_ne_nil hne),
    inside_of_isName hq.isName_of_mem]

theorem inside_name {n : String} (h : IsName n) : inside (segments ⟨n⟩) = [.name n] := by
  rw [segments_eq_singleton h.1, inside_of_isName (by simpa using h)]
  rfl

theorem ofSegments_concat {init : List String} (h : init ≠ []) (n : String) :
    ofSegments (init ++ [n]) = ⟨(ofSegments init).text ++ "/" ++ n⟩ := by
  rw [ofSegments, String.intercalate_append_of_ne_nil h (List.cons_ne_nil n []),
    String.intercalate_singleton]
  rfl

/-- A name in the place of the last one changes no other component. -/
theorem exists_components_concat (init : List String) :
    ∃ cs, ∀ n, IsName n → (ofSegments (init ++ [n])).components = cs ++ [.name n] := by
  by_cases hnil : init = []
  · refine ⟨[], fun n hn => ?_⟩
    rw [hnil, List.nil_append, components_ofSegments (by simpa using hn)]
    rfl
  · by_cases htext : (ofSegments init).text = ""
    · refine ⟨[.root], fun n hn => ?_⟩
      rw [ofSegments_concat hnil, htext, String.empty_append, components_slash, inside_name hn]
      rfl
    · refine ⟨(ofSegments init).components, fun n hn => ?_⟩
      rw [ofSegments_concat hnil, components_append htext, inside_name hn]

/-- The path that ends in another name lies below a directory, too. -/
theorem Below.of_segments {base : Path} {init : List String} {n n' : String}
    (h : (ofSegments (init ++ [n])).Below base) (hn : IsName n) (hn' : IsName n') :
    (ofSegments (init ++ [n'])).Below base := by
  obtain ⟨cs, hcs⟩ := exists_components_concat init
  obtain ⟨ns, hne, hns, heq⟩ := h
  have hlast := List.dropLast_append_getLast hne
  rw [hcs n hn, ← hlast, List.map_append, ← List.append_assoc] at heq
  obtain ⟨rfl, -⟩ := List.append_inj' heq rfl
  refine ⟨ns.dropLast ++ [n'], by simp, fun s hs => ?_, ?_⟩
  · rcases List.mem_append.1 hs with hs | hs
    · exact hns s ((List.dropLast_prefix _).subset hs)
    · rw [List.mem_singleton.1 hs]
      exact hn'
  · rw [hcs n' hn', List.map_append, List.append_assoc]
    rfl

end Path

end GqlArtifacts
