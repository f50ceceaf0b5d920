import GqlArtifacts.Path
import GqlArtifacts.Proofs.Text.Bytes
import Mathlib.Data.List.Basic

/-!
# Segments and names of paths

`Path.segments` cuts a text at its slashes: no segment holds one (`not_mem_of_mem_segments`), joined
segments are cut as before (`segments_ofSegments`), and a slash between two texts is a cut
(`segments_append`).

A path is `Inner` when it is relative, normalized and without `..`. It is then the same as its
`names`: `Inner.ext` says that the names tell such paths apart, and `Inner.parent?_eq`,
`Inner.fileName?_eq` give the parts of a path that has a name.
-/

namespace GqlArtifacts.Path

variable {p q : Path}

/-! ### Segments -/

@[simp] theorem chars_eq (p : Path) : p.chars = p.text.toList := Text.chars_eq p.text

theorem segments_ne_nil (p : Path) : p.segments ≠ [] := by
  simp [segments]

theorem segments_eq_singleton {s : String} (h : '/' ∉ s.toList) : segments ⟨s⟩ = [s] := by
  simp [segments, List.splitOn_eq_singleton h]

theorem segments_append (s s' : String) :
    segments ⟨s ++ "/" ++ s'⟩ = segments ⟨s⟩ ++ segments ⟨s'⟩ := by
  simp [segments, List.splitOn_append_cons_self]

theorem not_mem_of_mem_splitOn {α : Type} [DecidableEq α] {a : α} {cs part : List α}
    (h : part ∈ cs.splitOn a) : a ∉ part := by
  induction cs generalizing part with
  | nil => simp at h; simp [h]
  | cons c cs ih =>
    rw [List.splitOn_cons_eq_if_modifyHead] at h
    split at h
    · rcases List.mem_cons.1 h with rfl | h
      · simp
      · exact ih h
    · next hc =>
      obtain ⟨hd, tl, hs⟩ := List.exists_cons_of_ne_nil (List.splitOn_ne_nil a cs)
      rw [hs, List.modifyHead_cons] at h
      rcases List.mem_cons.1 h with rfl | h
      · have hhd := ih (hs ▸ List.mem_cons_self ..)
        simp only [List.mem_cons, not_or]
        exact ⟨fun heq => by simp [← heq] at hc, hhd⟩
      · exact ih (hs ▸ List.mem_cons_of_mem _ h)

theorem not_mem_of_mem_segments {s : String} (h : s ∈ p.segments) : '/' ∉ s.toList := by
  obtain ⟨part, hp, rfl⟩ := List.mem_map.1 h
  simpa using not_mem_of_mem_splitOn hp

theorem segments_ofSegments {segs : List String} (h : ∀ s ∈ segs, '/' ∉ s.toList) (hn : segs ≠ []) :
    (ofSegments segs).segments = segs := by
  have hsplit : (['/'].intercalate (segs.map String.toList)).splitOn '/' = segs.map String.toList :=
    List.splitOn_intercalate '/' (by simpa using h) (by simpa using hn)
  simp only [segments, chars_eq, ofSegments, String.toList_intercalate]
  rw [show "/".toList = ['/'] from rfl, hsplit, List.map_map]
  simp [Function.comp_def]

theorem ofSegments_segments (p : Path) : ofSegments p.segments = p := by
  have h : (ofSegments p.segments).text.toList = p.text.toList := by
    simp only [segments, ofSegments, String.toList_intercalate, List.map_map]
    rw [show "/".toList = ['/'] from rfl]
    simp [Function.comp_def, List.intercalate_splitOn]
  cases p
  exact congrArg Path.mk (String.toList_inj.1 h)

/-- An absolute text starts with a cut. -/
theorem head?_segments_of_isAbsolute (h : p.isAbsolute = true) : p.segments.head? = some "" := by
  simp only [isAbsolute, chars_eq, beq_iff_eq] at h
  obtain ⟨cs, hcs⟩ := List.head?_eq_some_iff.1 h
  simp [segments, hcs, List.splitOn_cons_eq_if_modifyHead]

theorem exists_append_slash {text : String} (h : (Path.mk text).chars.getLast? = some '/') :
    ∃ s, text = s ++ "/" := by
  rw [chars_eq] at h
  obtain ⟨cs, hcs⟩ := List.getLast?_eq_some_iff.1 h
  exact ⟨String.ofList cs, String.toList_inj.1 (by simp [hcs])⟩

theorem isAbsolute_append {s s' : String} (h : s ≠ "") :
    isAbsolute ⟨s ++ s'⟩ = isAbsolute ⟨s⟩ := by
  obtain ⟨c, cs, hcs⟩ := List.exists_cons_of_ne_nil (mt String.toList_eq_nil_iff.1 h)
  simp [isAbsolute, hcs]

/-! ### Order -/

instance : Std.LawfulEqOrd (Component String) where
  eq_of_compare {a b} h := by
    obtain ⟨hrank, htext⟩ : compareOn Component.rank a b = .eq ∧ compareOn Component.text a b = .eq :=
      Ordering.then_eq_eq.1 h
    have hr : a.rank = b.rank := Std.LawfulEqOrd.eq_of_compare hrank
    have ht : a.text = b.text := Std.LawfulEqOrd.eq_of_compare htext
    cases a <;> cases b <;> first | rfl | exact congrArg Component.name ht | cases hr

/-- Paths compare equal when they are the same component by component. -/
theorem compare_eq_iff : Path.compare p q = .eq ↔ p.same q = true := by
  have h : Path.compare p q = compare p.components q.components := rfl
  rw [h, Std.LawfulEqOrd.compare_eq_iff_eq, same, beq_iff_eq]

@[simp] theorem same_self (p : Path) : p.same p = true := beq_self_eq_true _

theorem same_comm : p.same q = q.same p := Bool.beq_comm

/-! ### Components -/

theorem ofSegment?_eq_name {s s' : String} (h : Component.ofSegment? s = some (.name s')) :
    s' = s ∧ s ≠ "" ∧ s ≠ "." ∧ s ≠ ".." := by
  unfold Component.ofSegment? Component.read? at h
  split at h
  · cases h
  · next h1 =>
    split at h
    · cases h
    · next h2 =>
      cases h
      exact ⟨rfl, (not_or.1 h1).1, (not_or.1 h1).2, h2⟩

theorem ofSegment?_of_proper {s : String} (h1 : s ≠ "") (h2 : s ≠ ".") (h3 : s ≠ "..") :
    Component.ofSegment? s = some (.name s) := by
  simp [Component.ofSegment?, Component.read?, h1, h2, h3]

/-- A name among the components is a segment of its own. -/
theorem mem_segments_of_mem_components {s : String} (h : .name s ∈ p.components) :
    s ∈ p.segments ∧ s ≠ "" ∧ s ≠ "." ∧ s ≠ ".." := by
  unfold components Component.readAll at h
  split at h
  · cases h
  · next first rest hs =>
    rcases List.mem_append.1 h with h | h
    · split at h
      · simp at h
      · split at h
        · simp at h
        · obtain ⟨rfl, hp⟩ := ofSegment?_eq_name (Option.mem_toList.1 h)
          exact ⟨by rw [hs]; exact List.mem_cons_self .., hp⟩
    · obtain ⟨seg, hseg, hname⟩ := List.mem_filterMap.1 h
      obtain ⟨rfl, hp⟩ := ofSegment?_eq_name hname
      exact ⟨by rw [hs]; exact List.mem_cons_of_mem _ hseg, hp⟩

/-- Segments that are all names are the components. -/
theorem components_of_segments (h : ∀ s ∈ p.segments, s ≠ "" ∧ s ≠ "." ∧ s ≠ "..") :
    p.components = p.segments.map .name := by
  obtain ⟨first, rest, hs⟩ := List.exists_cons_of_ne_nil p.segments_ne_nil
  have hfirst := h first (by rw [hs]; exact List.mem_cons_self ..)
  have habs : p.isAbsolute = false := by
    rw [Bool.eq_false_iff]
    intro ha
    have := head?_segments_of_isAbsolute ha
    rw [hs, List.head?_cons] at this
    exact hfirst.1 (Option.some.inj this)
  have hrest : rest.filterMap Component.ofSegment? = rest.map .name := by
    rw [← List.filterMap_eq_map]
    refine List.filterMap_congr fun s hs' => ?_
    obtain ⟨h1, h2, h3⟩ := h s (by rw [hs]; exact List.mem_cons_of_mem _ hs')
    exact ofSegment?_of_proper h1 h2 h3
  simp [components, Component.readAll, hs, habs, hfirst.2.1, ofSegment?_of_proper hfirst.1 hfirst.2.1 hfirst.2.2,
    hrest]

/-! ### The last name -/

/-- A text that can be the name of a file. -/
def IsName (s : String) : Prop := '/' ∉ s.toList ∧ s ≠ "" ∧ s ≠ "." ∧ s ≠ ".."

instance (s : String) : Decidable (IsName s) :=
  inferInstanceAs (Decidable ('/' ∉ s.toList ∧ s ≠ "" ∧ s ≠ "." ∧ s ≠ ".."))

theorem isName_of_two_lt_length {s : String} (h : '/' ∉ s.toList) (hlen : 2 < s.length) :
    IsName s := by
  refine ⟨h, ?_, ?_, ?_⟩ <;> rintro rfl <;> exact absurd hlen (by decide)

theorem segments_ofSegments_concat {init : List String} {s : String}
    (h : ∀ x ∈ init, '/' ∉ x.toList) (hs : '/' ∉ s.toList) :
    (ofSegments (init ++ [s])).segments = init ++ [s] :=
  segments_ofSegments (fun x hx => (List.mem_append.1 hx).elim (h x) fun hx =>
    List.mem_singleton.1 hx ▸ hs) (by simp)

theorem trimSegments_append {init : List String} {n : String} (h : isTrivialSegment n = false) :
    trimSegments (init ++ [n]) = init ++ [n] := by
  cases init with
  | nil => rfl
  | cons first rest => simp [trimSegments, h]

theorem mem_segments_of_splitLast? {before : List String} {last s : String}
    (h : p.splitLast? = some (before, last)) (hs : s ∈ before) : s ∈ p.segments := by
  have htrim : trimSegments p.segments ⊆ p.segments := by
    intro x hx
    unfold trimSegments at hx
    split at hx
    · cases hx
    · next first rest hsegs =>
      rw [hsegs]
      rcases List.mem_cons.1 hx with rfl | hx
      · exact List.mem_cons_self ..
      · have hmem := (List.dropWhile_suffix _).subset (List.mem_reverse.1 hx)
        exact List.mem_cons_of_mem _ (List.mem_reverse.1 hmem)
  simp only [splitLast?] at h
  split at h
  · cases h
  · split at h
    · cases h
    · obtain ⟨rfl, -⟩ := Prod.mk.inj (Option.some.inj h)
      exact htrim ((List.dropLast_prefix _).subset hs)

theorem mem_segments_of_fileName? {n : String} (h : p.fileName? = some n) : n ∈ p.segments := by
  unfold fileName? at h
  split at h
  · next name hlast =>
    obtain rfl := Option.some.inj h
    exact (mem_segments_of_mem_components (List.mem_of_getLast? hlast)).1
  · cases h

section LastName
variable {init : List String} {n : String} (h : p.segments = init ++ [n]) (hn : IsName n)
include h hn

theorem splitLast?_eq : p.splitLast? = some (init, n) := by
  have ht : isTrivialSegment n = false := by simp [isTrivialSegment, hn.2.1, hn.2.2.1]
  simp [splitLast?, h, trimSegments_append ht, hn.2.1]

theorem fileName?_eq : p.fileName? = some n := by
  have hc := ofSegment?_of_proper hn.2.1 hn.2.2.1 hn.2.2.2
  have hlast : p.components.getLast? = some (.name n) := by
    unfold components Component.readAll
    cases init with
    | nil =>
      have habs : p.isAbsolute = false := by
        rw [Bool.eq_false_iff]
        intro ha
        have := head?_segments_of_isAbsolute ha
        rw [h] at this
        exact hn.2.1 (Option.some.inj this)
      simp [h, habs, hn.2.2.1, hc]
    | cons first rest => simp [h, List.filterMap_append, hc]
  simp [fileName?, hlast]

end LastName

/-- Another extension: the last name gets it, or no name is left, or there was none. -/
theorem withExtension_cases (p : Path) {e : String} (he : e ≠ "") :
    p.withExtension e = p ∧ (p.fileName? = none ∨ p.splitLast? = none) ∨
    ∃ before name, (∀ s ∈ before, '/' ∉ s.toList) ∧ p.fileName? = some name ∧
      (p.withExtension e = ofSegments (before ++ [".."]) ∨
        p.withExtension e = ofSegments (before ++ [(splitExtension name).1 ++ "." ++ e])) := by
  cases hn : p.fileName? with
  | none => exact .inl ⟨by simp [withExtension, hn], .inl rfl⟩
  | some name =>
    cases hs : p.splitLast? with
    | none => exact .inl ⟨by simp [withExtension, hn, hs], .inr rfl⟩
    | some split =>
      obtain ⟨before, last⟩ := split
      refine .inr ⟨before, name, fun s hmem => ?_, rfl, ?_⟩
      · exact not_mem_of_mem_segments (p := p) (mem_segments_of_splitLast? hs hmem)
      · simp only [withExtension, hn, hs, if_neg he]
        split
        · exact .inl rfl
        · exact .inr rfl

theorem not_mem_splitExtension {n : String} {c : Char} (h : c ∉ n.toList) :
    c ∉ (splitExtension n).1.toList ∧ ∀ e ∈ (splitExtension n).2, c ∉ e.toList := by
  simp only [splitExtension, Text.chars_eq]
  split
  · simp [h]
  · simp only [String.toList_ofList, Option.mem_some_iff, forall_eq']
    exact ⟨fun hc => h (List.mem_of_mem_take hc),
      fun hc => h (List.mem_reverse.1 ((List.takeWhile_prefix _).subset (List.mem_reverse.1 hc)))⟩

/-! ### Slash forms -/

theorem mem_intercalate {sep : String} {ss : List String} {c : Char}
    (h : c ∈ (sep.intercalate ss).toList) : c ∈ sep.toList ∨ ∃ s ∈ ss, c ∈ s.toList := by
  induction ss with
  | nil => simp at h
  | cons s ss ih =>
    cases ss with
    | nil => exact .inr ⟨s, List.mem_cons_self .., by simpa using h⟩
    | cons s' ss =>
      rw [String.intercalate_cons_cons, String.toList_append, String.toList_append,
        List.mem_append, List.mem_append] at h
      rcases h with (h | h) | h
      · exact .inr ⟨s, List.mem_cons_self .., h⟩
      · exact .inl h
      · exact (ih h).imp_right fun ⟨s', hs', hc⟩ => ⟨s', List.mem_cons_of_mem _ hs', hc⟩

theorem mem_intercalate_of_mem {sep s : String} {ss : List String} {c : Char} (hs : s ∈ ss)
    (hc : c ∈ s.toList) : c ∈ (sep.intercalate ss).toList := by
  induction ss with
  | nil => cases hs
  | cons s' ss ih =>
    cases ss with
    | nil =>
      obtain rfl := List.mem_singleton.1 hs
      simpa using hc
    | cons s'' ss =>
      rw [String.intercalate_cons_cons, String.toList_append, String.toList_append,
        List.mem_append, List.mem_append]
      rcases List.mem_cons.1 hs with rfl | hs
      · exact .inl (.inl hc)
      · exact .inr (ih hs)

theorem mem_of_mem_segments {s : String} {c : Char} (hs : s ∈ p.segments) (hc : c ∈ s.toList) :
    c ∈ p.text.toList := by
  rw [← ofSegments_segments p]
  exact mem_intercalate_of_mem hs hc

theorem mem_ofComponents {cs : List (Component String)} {c : Char} (h : c ∈ (ofComponents cs).text.toList) :
    c = '/' ∨ ∃ part ∈ cs, c ∈ part.text.toList := by
  have hnames : ∀ (cs : List (Component String)) (acc : Bool × List String),
      ∀ n ∈ (cs.foldl (fun (x : Bool × List String) part =>
        if part = .root then (true, []) else (x.1, part.text :: x.2)) acc).2,
      n ∈ acc.2 ∨ ∃ part ∈ cs, n = part.text := by
    intro cs
    induction cs with
    | nil => exact fun acc n hn => .inl hn
    | cons part cs ih =>
      intro acc n hn
      rcases ih _ n hn with hn | ⟨part', hpart', rfl⟩
      · beta_reduce at hn
        by_cases hroot : part = .root
        · rw [if_pos hroot] at hn
          cases hn
        · rw [if_neg hroot] at hn
          rcases List.mem_cons.1 hn with rfl | hn
          · exact .inr ⟨part, List.mem_cons_self .., rfl⟩
          · exact .inl hn
      · exact .inr ⟨part', List.mem_cons_of_mem _ hpart', rfl⟩
  simp only [ofComponents, String.toList_append, List.mem_append] at h
  rcases h with h | h
  · split at h
    · exact .inl (by simpa using h)
    · simp at h
  · rcases mem_intercalate h with h | ⟨n, hn, hc⟩
    · exact .inl (by simpa using h)
    · rcases hnames cs _ n (List.mem_reverse.1 hn) with hn | ⟨part, hpart, rfl⟩
      · cases hn
      · exact .inr ⟨part, hpart, hc⟩

/-- Apart from slashes and dots, the slash form has only characters of the path. -/
theorem mem_of_mem_toSlash {c : Char} (h : c ∈ p.toSlash.toList) :
    c ∈ p.text.toList ∨ c = '/' ∨ c = '.' := by
  rcases mem_ofComponents h with rfl | ⟨part, hpart, hc⟩
  · exact .inr (.inl rfl)
  · cases part with
    | root => exact .inr (.inl (by simpa [Component.text] using hc))
    | current => exact .inr (.inr (by simpa [Component.text] using hc))
    | parent => exact .inr (.inr (by simpa [Component.text] using hc))
    | name s => exact .inl (mem_of_mem_segments (mem_segments_of_mem_components hpart).1 hc)

/-! ### Inner paths -/

/-- Relative, normalized and without `..`. -/
structure Inner (p : Path) : Prop where
  relative : p.isAbsolute = false
  normal : p.normalize = p
  noParent : .parent ∉ p.components

/-- The texts of the components. -/
def names (p : Path) : List String := p.components.map Component.text

theorem root_not_mem_components (h : p.isAbsolute = false) : .root ∉ p.components := by
  have hseg : ∀ s, Component.ofSegment? s ≠ some .root := by
    intro s
    unfold Component.ofSegment? Component.read?
    split
    · simp
    · split <;> simp
  unfold components Component.readAll
  split
  · simp
  · next first rest hs =>
    rw [h, List.mem_append]
    rintro (hm | hm)
    · split at hm
      · next hf => cases hf
      · split at hm
        · simp at hm
        · exact hseg _ (Option.mem_toList.1 hm)
    · obtain ⟨s, -, hs'⟩ := List.mem_filterMap.1 hm
      exact hseg s hs'

/-- Without a root and a `..` only the names are left. -/
theorem foldl_normalizeStep {cs : List (Component String)} (hr : .root ∉ cs) (hp : .parent ∉ cs) :
    ∃ ns : List String, (∀ s ∈ ns, .name s ∈ cs) ∧
      ∀ acc, cs.foldl normalizeStep acc = (ns.map .name).reverse ++ acc := by
  induction cs with
  | nil => exact ⟨[], by simp, fun _ => rfl⟩
  | cons c cs ih =>
    obtain ⟨ns, hns, hfold⟩ := ih (List.not_mem_of_not_mem_cons hr) (List.not_mem_of_not_mem_cons hp)
    cases c with
    | root => simp at hr
    | parent => simp at hp
    | current =>
      exact ⟨ns, fun s hs => List.mem_cons_of_mem _ (hns s hs), fun acc => hfold acc⟩
    | name s =>
      refine ⟨s :: ns, fun s' hs' => ?_, fun acc => ?_⟩
      · rcases List.mem_cons.1 hs' with rfl | hs'
        · exact List.mem_cons_self ..
        · exact List.mem_cons_of_mem _ (hns s' hs')
      · show cs.foldl normalizeStep (.name s :: acc) = _
        rw [hfold]
        simp

/-- Without a root the parts are collected one after the other. -/
theorem foldl_sinceRoot {cs : List (Component String)} (h : .root ∉ cs) (absolute : Bool)
    (names : List String) : cs.foldl (fun (x : Bool × List String) c =>
      if c = .root then (true, []) else (x.1, c.text :: x.2)) (absolute, names) =
      (absolute, (cs.map Component.text).reverse ++ names) := by
  induction cs generalizing names with
  | nil => rfl
  | cons c cs ih =>
    rw [List.foldl_cons, if_neg (Ne.symm (List.ne_of_not_mem_cons h)),
      ih (List.not_mem_of_not_mem_cons h)]
    simp

theorem ofComponents_of_root_not_mem {cs : List (Component String)} (h : .root ∉ cs) :
    ofComponents cs = ofSegments (cs.map Component.text) := by
  have hnames : Component.sinceRoot Component.text cs =
      (false, (cs.map Component.text).reverse ++ []) := foldl_sinceRoot h false []
  simp only [ofComponents]
  rw [hnames]
  simp [ofSegments]

theorem ofComponents_map_name (ns : List String) : ofComponents (ns.map .name) = ofSegments ns := by
  rw [ofComponents_of_root_not_mem (by simp), List.map_map]
  exact congrArg ofSegments (List.map_id _)

theorem ofSegments_nil : ofSegments [] = ⟨""⟩ := rfl

theorem components_ofSegments {ns : List String} (h : ∀ s ∈ ns, IsName s) :
    (ofSegments ns).components = ns.map .name := by
  cases ns with
  | nil => rfl
  | cons n ns =>
    have hsegs := segments_ofSegments (fun s hs => (h s hs).1) (List.cons_ne_nil n ns)
    rw [components_of_segments (by rw [hsegs]; exact fun s hs => (h s hs).2), hsegs]

theorem names_ofSegments {ns : List String} (h : ∀ s ∈ ns, IsName s) :
    (ofSegments ns).names = ns := by
  rw [names, components_ofSegments h, List.map_map]
  exact List.map_id _

namespace Inner

variable (h : p.Inner)
include h

/-- Such a path is made of its names. -/
theorem exists_names : ∃ ns, p = ofSegments ns ∧ ∀ s ∈ ns, IsName s := by
  obtain ⟨ns, hmem, hfold⟩ := foldl_normalizeStep (root_not_mem_components h.relative) h.noParent
  refine ⟨ns, ?_, fun s hs => ?_⟩
  · have hn := h.normal
    rw [normalize, normalizeComponents, hfold, List.append_nil, List.reverse_reverse,
      ofComponents_map_name] at hn
    exact hn.symm
  · obtain ⟨hseg, hproper⟩ := mem_segments_of_mem_components (hmem s hs)
    exact ⟨not_mem_of_mem_segments hseg, hproper⟩

theorem isName_of_mem : ∀ s ∈ p.names, IsName s := by
  obtain ⟨ns, rfl, hns⟩ := h.exists_names
  rwa [names_ofSegments hns]

theorem eq_ofSegments : p = ofSegments p.names := by
  obtain ⟨ns, rfl, hns⟩ := h.exists_names
  rw [names_ofSegments hns]

theorem segments_eq (hn : p.names ≠ []) : p.segments = p.names := by
  conv => lhs; rw [h.eq_ofSegments]
  exact segments_ofSegments (fun s hs => (h.isName_of_mem s hs).1) hn

theorem names_ne_nil (hp : p.text ≠ "") : p.names ≠ [] := by
  intro hn
  have heq := h.eq_ofSegments
  rw [hn] at heq
  rw [heq] at hp
  exact hp rfl

end Inner

/-- The names before the last one, and the last one. -/
theorem Inner.exists_init {p : Path} (h : p.Inner) (hp : p.text ≠ "") :
    ∃ init n, p.names = init ++ [n] ∧ p.segments = init ++ [n] ∧ IsName n ∧
      ∀ s ∈ init, IsName s := by
  have hn := h.names_ne_nil hp
  have hsplit := List.dropLast_append_getLast hn
  refine ⟨_, _, hsplit.symm, by rw [h.segments_eq hn, hsplit],
    h.isName_of_mem _ (List.getLast_mem hn),
    fun s hs => h.isName_of_mem s ((List.dropLast_prefix _).subset hs)⟩

theorem Inner.parent?_eq {p : Path} (h : p.Inner) (hp : p.text ≠ "") :
    p.parent? = some (ofSegments p.names.dropLast) := by
  obtain ⟨init, n, hnames, hsegs, hn, hinit⟩ := h.exists_init hp
  have htrim : trimSegments init = init := by
    rcases List.eq_nil_or_concat init with rfl | ⟨init', s, rfl⟩
    · rfl
    · rw [List.concat_eq_append] at hinit ⊢
      have hs := hinit s (by simp)
      exact trimSegments_append (by simp [isTrivialSegment, hs.2.1, hs.2.2.1])
  have hroot : init ≠ [""] := by
    rintro rfl
    exact (hinit "" (by simp)).2.1 rfl
  rw [parent?, splitLast?_eq hsegs hn, hnames, List.dropLast_concat]
  simp only [Option.map_some, htrim]

theorem Inner.fileName?_eq {p : Path} (h : p.Inner) (hp : p.text ≠ "") :
    p.fileName? = p.names.getLast? := by
  obtain ⟨init, n, hnames, hsegs, hn, -⟩ := h.exists_init hp
  rw [Path.fileName?_eq hsegs hn, hnames, List.getLast?_concat]

/-- Inner paths with the same names are one path. -/
theorem Inner.ext (hp : p.Inner) (hq : q.Inner) (h : p.names = q.names) : p = q := by
  rw [hp.eq_ofSegments, hq.eq_ofSegments, h]

theorem Inner.eq_of_same (hp : p.Inner) (hq : q.Inner) (h : p.same q = true) : p = q :=
  hp.ext hq (congrArg (List.map Component.text) (eq_of_beq h))

end GqlArtifacts.Path
