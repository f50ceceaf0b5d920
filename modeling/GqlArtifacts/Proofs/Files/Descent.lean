import GqlArtifacts.Proofs.Files.Reading
import GqlArtifacts.Proofs.Path.Normal

/-!
# Directories on the way

A path is followed segment by segment, so whatever it leads to, all that it passes through are
directories (`exists_walk_of_append`). Hence what holds a name inside a path is a directory
(`isFolder_of_holds_join`), and so is all that is above a path that leads somewhere
(`Reaches.open_dropLast`, `Reaches.isFolder_parent?`).
-/

namespace GqlArtifacts

open Files

/-! ### Texts that can be followed -/

/-- No file system refuses the text of the path as such. -/
structure Path.Valid (p : Path) : Prop where
  nonempty : p.text ≠ ""
  noNul : '\x00' ∉ p.text.toList
  short : p.text.utf8ByteSize ≤ Tree.pathLimit

/-- The front of a text. -/
theorem Path.Valid.of_append {s s' : String} (h : Path.Valid ⟨s ++ s'⟩) (hs : s ≠ "") :
    Path.Valid ⟨s⟩ := by
  refine ⟨hs, fun hmem => h.noNul ?_, ?_⟩
  · rw [String.toList_append]
    exact List.mem_append_left _ hmem
  · have hshort := h.short
    rw [String.utf8ByteSize_append] at hshort
    exact (Nat.le_add_right _ _).trans hshort

namespace Files.Tree

variable {t : Tree} {p d : Path} {a b : Place} {slash slash' : Bool} {segs more : List String}
  {target : Target} {name s : String}

theorem target?_eq_ok : t.target? p = .ok target ↔ p.Valid ∧
    t.walk (splitSlashes p.segments).2 [] (splitSlashes p.segments).1 = .ok target := by
  constructor
  · intro h
    unfold target? at h
    split at h
    · cases h
    · next hempty =>
      split at h
      · cases h
      · next hnul =>
        split at h
        · cases h
        · next hlong => exact ⟨⟨by simpa using hempty, by simpa using hnul, by omega⟩, h⟩
  · rintro ⟨hvalid, h⟩
    rw [target?, if_neg (by simpa using hvalid.nonempty), if_neg (by simpa using hvalid.noNul),
      if_neg (Nat.not_lt.2 hvalid.short)]
    exact h

/-! ### Passing through -/

theorem enter_eq_ok : t.enter a name = .ok b ↔
    ¬nameLimit < name.utf8ByteSize ∧ t.isDirectory (a ++ [name]) = true ∧ b = a ++ [name] := by
  rw [isDirectory_iff]
  unfold enter
  by_cases hlong : nameLimit < name.utf8ByteSize
  · simp [hlong]
  · rw [if_neg hlong]
    cases hnode : t.node? (a ++ [name]) with
    | none => simp
    | some n =>
      cases n with
      | file c => simp
      | directory => simp [hlong, eq_comm]

/-- A place all of whose surroundings are directories. -/
def Open (t : Tree) (a : Place) : Prop := ∀ b, b <+: a → t.isDirectory b = true

theorem open_nil : t.Open [] := by
  intro b hb
  rw [List.prefix_nil.1 hb]
  rfl

theorem Open.dropLast (h : t.Open a) : t.Open a.dropLast :=
  fun b hb => h b (hb.trans (List.dropLast_prefix a))

theorem Open.concat (h : t.Open a) (hname : t.isDirectory (a ++ [name]) = true) :
    t.Open (a ++ [name]) := by
  intro b hb
  rcases List.prefix_concat_iff.1 hb with rfl | hb
  · exact hname
  · exact h b hb

/-- The segments that others follow lead to a directory. -/
theorem exists_walk_of_append (ha : t.Open a) (hmore : more ≠ [])
    (h : t.walk slash a (segs ++ more) = .ok target) :
    ∃ found, t.walk slash' a segs = .ok found ∧ found.checked = .ok found ∧
      t.isDirectory found.place = true := by
  induction segs generalizing a with
  | nil => exact ⟨.directory a, rfl, rfl, ha a (List.prefix_refl a)⟩
  | cons seg segs ih =>
    rw [List.cons_append] at h
    unfold walk at h ⊢
    by_cases htrivial : seg = "" ∨ seg = "."
    · rw [if_pos htrivial] at h ⊢
      exact ih ha h
    · rw [if_neg htrivial] at h ⊢
      by_cases hparent : seg = ".."
      · rw [if_pos hparent] at h ⊢
        exact ih ha.dropLast h
      · have hrest : (segs ++ more).isEmpty = false := by simp [hmore]
        rw [if_neg hparent, hrest, if_neg (by decide)] at h
        rw [if_neg hparent]
        cases henter : t.enter a seg with
        | error e =>
          rw [henter] at h
          cases h
        | ok b =>
          rw [henter] at h
          obtain ⟨hlong, hdir, rfl⟩ := enter_eq_ok.1 henter
          split
          · refine ⟨.entry a seg slash', rfl, ?_, hdir⟩
            rw [Target.checked, if_neg hlong]
          · exact ih (ha.concat hdir) h

/-- What a path passes through stays open. -/
theorem open_of_walk (ha : t.Open a) (h : t.walk slash a segs = .ok (.entry b name slash')) :
    t.Open b := by
  induction segs generalizing a with
  | nil => cases h
  | cons seg segs ih =>
    unfold walk at h
    split at h
    · exact ih ha h
    · split at h
      · exact ih ha.dropLast h
      · split at h
        · cases h
          exact ha
        · cases henter : t.enter a seg with
          | error e => rw [henter] at h; cases h
          | ok d =>
            rw [henter] at h
            obtain ⟨-, hdir, rfl⟩ := enter_eq_ok.1 henter
            exact ih (ha.concat hdir) h

/-- A slash at the end changes nothing on the way. -/
theorem exists_walk_slash (slash' : Bool) (h : t.walk slash a segs = .ok target)
    (hchecked : target.checked = .ok target) : ∃ found, t.walk slash' a segs = .ok found ∧
      found.checked = .ok found ∧ found.place = target.place := by
  induction segs generalizing a with
  | nil =>
    obtain rfl := Except.ok.inj h
    exact ⟨_, rfl, rfl, rfl⟩
  | cons seg segs ih =>
    unfold walk at h ⊢
    by_cases htrivial : seg = "" ∨ seg = "."
    · rw [if_pos htrivial] at h ⊢
      exact ih h
    · rw [if_neg htrivial] at h ⊢
      by_cases hparent : seg = ".."
      · rw [if_pos hparent] at h ⊢
        exact ih h
      · rw [if_neg hparent] at h ⊢
        by_cases hrest : segs.isEmpty = true
        · rw [if_pos hrest] at h ⊢
          obtain rfl := Except.ok.inj h
          have hlong : ¬nameLimit < seg.utf8ByteSize := by
            intro hlong
            rw [Target.checked, if_pos hlong] at hchecked
            cases hchecked
          exact ⟨.entry a seg slash', rfl, by rw [Target.checked, if_neg hlong], rfl⟩
        · rw [if_neg hrest] at h ⊢
          cases henter : t.enter a seg with
          | error e =>
            rw [henter] at h
            cases h
          | ok b =>
            rw [henter] at h
            exact ih h

theorem slash_of_walk (h : t.walk true a segs = .ok target) : target.slash = true := by
  cases target with
  | directory place => rfl
  | entry dir name slash => exact (exists_append_of_walk h).1

/-! ### What paths stand for -/

theorem isFolder_iff : t.isFolder p = true ↔
    ∃ target, t.resolve? p = .ok target ∧ t.isDirectory target.place = true := by
  simp only [isDirectory_iff]
  unfold isFolder kind lookup?
  cases hr : t.resolve? p with
  | error e => simp [Except.map]
  | ok target =>
    dsimp only
    cases hn : t.node? target.place with
    | none => simp [hn, Except.map]
    | some n =>
      cases n with
      | directory => simp [hn, Except.map, Node.kind]
      | file c => cases hs : target.slash <;> simp [hn, Except.map, Node.kind]

theorem exists_target_of_holds (h : t.holds p = true) :
    ∃ target, t.resolve? p = .ok target ∧ (t.node? target.place).isSome = true ∧
      (target.slash = true → t.isDirectory target.place = true) := by
  simp only [isDirectory_iff]
  unfold holds kind lookup? at h
  cases hr : t.resolve? p with
  | error e =>
    rw [hr] at h
    cases h
  | ok target =>
    rw [hr] at h
    refine ⟨target, rfl, ?_⟩
    dsimp only at h
    cases hn : t.node? target.place with
    | none =>
      rw [hn] at h
      cases h
    | some n =>
      cases n with
      | directory => exact ⟨rfl, fun _ => rfl⟩
      | file c => cases hs : target.slash <;> simp [hn, hs, Except.map] at h ⊢

theorem holds_of_isFolder (h : t.isFolder p = true) : t.holds p = true := by
  unfold isFolder at h
  unfold holds
  split at h
  · next heq => rw [heq]
  · cases h

theorem holds_of_isFile (h : t.isFile p = true) : t.holds p = true := by
  unfold isFile at h
  unfold holds
  split at h
  · next heq => rw [heq]
  · cases h

/-- A path whose segments are followed by others on the way of a path that leads somewhere. -/
theorem isFolder_of_segments (more : List String) (hd : d.Valid) (h : t.resolve? p = .ok target)
    (hmore : more ≠ []) (hsegs : (splitSlashes p.segments).1 = (splitSlashes d.segments).1 ++ more) :
    t.isFolder d = true := by
  obtain ⟨-, hwalk⟩ := target?_eq_ok.1 (resolve?_eq_ok.1 h).1
  rw [hsegs] at hwalk
  obtain ⟨found, hfound, hchecked, hdir⟩ := exists_walk_of_append open_nil hmore hwalk
  exact isFolder_iff.2 ⟨found, resolve?_eq_ok.2 ⟨target?_eq_ok.2 ⟨hd, hfound⟩, hchecked⟩, hdir⟩

theorem splitSlashes_concat (hs : s ≠ "") (segs : List String) :
    splitSlashes (segs ++ [s]) = (segs ++ [s], false) := by
  simp [splitSlashes, hs]

theorem splitSlashes_concat_empty (segs : List String) :
    splitSlashes (segs ++ [""]) = ((splitSlashes segs).1, true) := by
  have hle : (segs.reverse.dropWhile (· == "")).length ≤ segs.length := by
    have hreverse := (List.dropWhile_sublist (· == "") (l := segs.reverse)).length_le
    rwa [List.length_reverse] at hreverse
  simp [splitSlashes]
  omega

/-- The kept segments, and empty ones after them. -/
theorem exists_append_splitSlashes (segs : List String) :
    ∃ blanks, segs = (splitSlashes segs).1 ++ blanks := by
  refine ⟨(segs.reverse.takeWhile (· == "")).reverse, ?_⟩
  rw [splitSlashes, ← List.reverse_append, List.takeWhile_append_dropWhile, List.reverse_reverse]

/-- A segment that is joined to a path comes after the segments of the path that are kept. -/
theorem exists_segments_join (p : Path) (hs : '/' ∉ s.toList) :
    ∃ segs rest, (p / ⟨s⟩).segments = segs ++ [s] ∧ (p / ⟨s⟩).text = p.text ++ rest ∧
      (p.text ≠ "" → (splitSlashes segs).1 = (splitSlashes p.segments).1) := by
  show ∃ segs rest, (Path.join p ⟨s⟩).segments = segs ++ [s] ∧ (Path.join p ⟨s⟩).text = _ ∧ _
  obtain ⟨text⟩ := p
  rw [Path.join, if_neg (by simp [Path.isAbsolute_of_not_mem hs])]
  split
  · next hcase =>
    rcases hcase with hcase | hcase
    · obtain rfl : text = "" := String.isEmpty_iff.1 hcase
      refine ⟨[], s, ?_, rfl, fun h => absurd rfl h⟩
      rw [String.empty_append, Path.segments_eq_singleton hs, List.nil_append]
    · obtain ⟨front, rfl⟩ := Path.exists_append_slash hcase
      refine ⟨Path.segments ⟨front⟩, s, ?_, rfl, fun _ => ?_⟩
      · rw [Path.segments_append, Path.segments_eq_singleton hs]
      · have hsplit := Path.segments_append front ""
        rw [String.append_empty, Path.segments_eq_singleton (s := "") (by simp)] at hsplit
        rw [hsplit, splitSlashes_concat_empty]
  · refine ⟨Path.segments ⟨text⟩, "/" ++ s, ?_, ?_, fun _ => rfl⟩
    · rw [Path.segments_append, Path.segments_eq_singleton hs]
    · rw [← String.append_assoc]

/-- What holds something is a directory. -/
theorem isFolder_of_holds_join (hp : p.text ≠ "") (hs : '/' ∉ s.toList)
    (h : t.holds (p / ⟨s⟩) = true) : t.isFolder p = true := by
  obtain ⟨target, hresolve, -, hslash⟩ := exists_target_of_holds h
  obtain ⟨segs, rest, hsegs, htext, hkept⟩ := exists_segments_join p hs
  obtain ⟨htarget, hchecked⟩ := resolve?_eq_ok.1 hresolve
  obtain ⟨hvalid, hwalk⟩ := target?_eq_ok.1 htarget
  have hp' : p.Valid := by
    have hjoined : Path.Valid ⟨p.text ++ rest⟩ := htext ▸ hvalid
    exact hjoined.of_append hp
  by_cases hs' : s = ""
  · -- then the two paths differ in a slash at the end
    subst hs'
    rw [hsegs, splitSlashes_concat_empty, hkept hp] at hwalk
    obtain ⟨found, hfound, hfound', hplace⟩ :=
      exists_walk_slash (splitSlashes p.segments).2 hwalk hchecked
    refine isFolder_iff.2 ⟨found, resolve?_eq_ok.2 ⟨target?_eq_ok.2 ⟨hp', hfound⟩, hfound'⟩, ?_⟩
    rw [hplace]
    exact hslash (slash_of_walk hwalk)
  · obtain ⟨blanks, hblanks⟩ := exists_append_splitSlashes segs
    refine isFolder_of_segments (blanks ++ [s]) hp' hresolve (by simp) ?_
    rw [hsegs, splitSlashes_concat hs', ← hkept hp, ← List.append_assoc, ← hblanks]

/-- What a directory holds is among its names. -/
theorem mem_names (hp : t.isFolder p = true) (hname : Path.IsName name)
    (h : t.holds (p / ⟨name⟩) = true) : name ∈ t.names p := by
  obtain ⟨target, hresolve, hdir⟩ := isFolder_iff.1 hp
  obtain ⟨found, hfound, hsome, -⟩ := exists_target_of_holds h
  rw [place_of_resolve? hfound, Path.place_join (Path.isAbsolute_name hname),
    Path.placeFrom_name hname, node?, if_neg (by simp)] at hsome
  obtain ⟨n, hn⟩ := Option.isSome_iff_exists.1 hsome
  obtain ⟨b, hb, hmem⟩ := OrderedMap.exists_mem_of_get? hn
  obtain rfl := Std.LawfulEqCmp.eq_of_compare hb
  rw [names, list, hresolve]
  dsimp only
  rw [isDirectory_iff.1 hdir]
  dsimp only
  refine List.mem_filterMap.2 ⟨_, List.mem_map_of_mem hmem, ?_⟩
  rw [List.getLast?_concat, List.dropLast_concat, place_of_resolve? hresolve]
  exact if_pos rfl

/-! ### Above a path -/

theorem Reaches.open_dropLast (h : t.Reaches p) : t.Open p.place.dropLast := by
  obtain ⟨dir, name, hresolve⟩ := h
  have hplace := place_of_resolve? hresolve
  obtain ⟨-, hwalk⟩ := target?_eq_ok.1 (resolve?_eq_ok.1 hresolve).1
  rw [← hplace, Target.place, List.dropLast_concat]
  exact open_of_walk open_nil hwalk

theorem exists_append_trimSegments (segs : List String) :
    ∃ rest, segs = Path.trimSegments segs ++ rest := by
  cases segs with
  | nil => exact ⟨[], rfl⟩
  | cons first rest =>
    refine ⟨(rest.reverse.takeWhile Path.isTrivialSegment).reverse, ?_⟩
    rw [Path.trimSegments, List.cons_append, ← List.reverse_append, List.takeWhile_append_dropWhile,
      List.reverse_reverse]

theorem isFolder_root (t : Tree) : t.isFolder ⟨"/"⟩ = true := by
  refine isFolder_iff.2 ⟨.directory [], ?_, rfl⟩
  have hsegs : Path.segments ⟨"/"⟩ = ["", ""] := by decide
  refine resolve?_eq_ok.2 ⟨target?_eq_ok.2 ⟨⟨by decide, by decide, by decide⟩, ?_⟩, rfl⟩
  rw [hsegs]
  rfl

/-- Above a path that leads somewhere there is a directory, unless it is a bare name. -/
theorem Reaches.isFolder_parent? (h : t.Reaches p) (hd : p.parent? = some d) :
    d.text = "" ∨ t.isFolder d = true := by
  obtain ⟨init, n, hsegs, hn⟩ := h.exists_segments
  obtain ⟨dir, name, hresolve⟩ := h
  obtain ⟨hvalid, -⟩ := target?_eq_ok.1 (resolve?_eq_ok.1 hresolve).1
  obtain ⟨rest, hrest⟩ := exists_append_trimSegments init
  rw [Path.parent?, Path.splitLast?_eq hsegs hn, Option.map_some] at hd
  obtain rfl := Option.some.inj hd
  dsimp only
  split
  · exact .inr (isFolder_root t)
  · by_cases hnil : Path.trimSegments init = []
    · rw [hnil]
      exact .inl rfl
    · refine or_iff_not_imp_left.2 fun htext => ?_
      have hslash : ∀ s ∈ Path.trimSegments init, '/' ∉ s.toList := fun s hs =>
        Path.not_mem_of_mem_segments (p := p) (by rw [hsegs, hrest]; simp [hs])
      obtain ⟨blanks, hblanks⟩ := exists_append_splitSlashes (Path.trimSegments init)
      refine isFolder_of_segments (blanks ++ (rest ++ [n])) ?_ hresolve (by simp) ?_
      · have hp : p = ⟨(Path.ofSegments (Path.trimSegments init)).text ++
            ("/" ++ "/".intercalate (rest ++ [n]))⟩ := by
          rw [← Path.ofSegments_segments p, hsegs, hrest, List.append_assoc, Path.ofSegments,
            String.intercalate_append_of_ne_nil hnil (by simp), String.append_assoc, ← hrest]
          rfl
        exact (hp ▸ hvalid).of_append htext
      · rw [hsegs, splitSlashes_concat hn.2.1, Path.segments_ofSegments hslash hnil,
          ← List.append_assoc, ← hblanks, ← List.append_assoc, ← hrest]

end Files.Tree

end GqlArtifacts
