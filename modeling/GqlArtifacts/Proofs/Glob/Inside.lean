import GqlArtifacts.Proofs.Glob
import GqlArtifacts.Proofs.Layout
import GqlArtifacts.Proofs.Path.Folding

/-!
# Globs that stay inside

A wildcard can stand for the parent of a directory: `.*` does, with its leading dot. `Part.lowest` is
the segment that takes a part down least, and `StaysInside` says of a pattern that these segments never
climb above its directory. Then no way along the parts does (`exists_segments_of_leads`), so that every
file which the pattern gives is known by a logical path (`logical_of_matches`).
-/

namespace GqlArtifacts

open Files

namespace Path

variable {d d' e : Nat} {s l : String} {segs : List String} {cs : List (Component String)} {p q : Path}

/-! ### Depths -/

/-- A segment leads from a depth to another. -/
def Lands (d : Nat) (s : String) (d' : Nat) : Prop :=
  if s = "" ∨ s = "." then d' = d else if s = ".." then d = d' + 1 else d' = d + 1

theorem climbsAbove_inside_cons : climbsAbove d (inside (s :: segs)) = false ↔
    ∃ d', Lands d s d' ∧ climbsAbove d' (inside segs) = false := by
  unfold Lands
  rcases segment_cases s with ⟨hs, hnone⟩ | ⟨hs, rfl⟩ | ⟨hs, hempty, hcurrent, hparent⟩
  · rw [inside, List.filterMap_cons_none hs]
    simp only [if_pos hnone, exists_eq_left]
    rfl
  · rw [inside, List.filterMap_cons_some hs]
    simp only [if_neg (show ¬(".." = "" ∨ ".." = ".") by decide), if_true]
    cases d with
    | zero => simp [climbsAbove]
    | succ d => simp only [Nat.add_right_cancel_iff, exists_eq_left']; rfl
  · rw [inside, List.filterMap_cons_some hs]
    simp only [if_neg (not_or.2 ⟨hempty, hcurrent⟩), if_neg hparent, exists_eq_left]
    rfl

theorem climbsAbove_mono (hd : d ≤ d') (h : climbsAbove d cs = false) :
    climbsAbove d' cs = false := by
  induction cs generalizing d d' with
  | nil => rfl
  | cons c cs ih =>
    cases c with
    | root => simp [climbsAbove] at h
    | current => exact ih hd (by simpa [climbsAbove] using h)
    | name s => exact ih (Nat.succ_le_succ hd) (by simpa [climbsAbove] using h)
    | parent =>
      cases d with
      | zero => simp [climbsAbove] at h
      | succ d =>
        obtain ⟨d', rfl⟩ : ∃ k, d' = k + 1 := ⟨d' - 1, by omega⟩
        exact ih (Nat.le_of_succ_le_succ hd) (by simpa [climbsAbove] using h)

theorem lands_of_isName (h : IsName s) : Lands d s (d + 1) := by
  rw [Lands, if_neg (not_or.2 ⟨h.2.1, h.2.2.1⟩), if_neg h.2.2.2]

theorem le_succ_of_lands (h : Lands d s d') : d' ≤ d + 1 := by
  unfold Lands at h
  split at h
  · omega
  · split at h <;> omega

/-- The path that segments lead along from another, one after the other. -/
def along (p : Path) (segs : List String) : Path := segs.foldl (fun p s => p / ⟨s⟩) p

theorem components_along (hp : p.text ≠ "") (hsegs : ∀ s ∈ segs, '/' ∉ s.toList) :
    (p.along segs).components = p.components ++ inside segs := by
  induction segs generalizing p with
  | nil => exact (List.append_nil _).symm
  | cons s segs ih =>
    have hs := hsegs s (List.mem_cons_self ..)
    have htail := ih (join_nonempty hp (isAbsolute_of_not_mem hs)) fun s' hs' =>
      hsegs s' (List.mem_cons_of_mem _ hs')
    rw [components_join hp (isAbsolute_of_not_mem hs), segments_eq_singleton hs,
      List.append_assoc] at htail
    refine htail.trans (congrArg _ ?_)
    rw [inside, inside, inside, ← List.filterMap_append]
    rfl

/-! ### Joined components -/

theorem inside_filter (segs : List String) :
    inside (segs.filter fun s => !isTrivialSegment s) = inside segs := by
  rw [inside, List.filterMap_filter]
  refine List.filterMap_congr fun s _ => ?_
  rcases segment_cases s with ⟨hs, -⟩ | ⟨-, rfl⟩ | ⟨-, hempty, hcurrent, -⟩
  · simp [hs]
  · rfl
  · rw [if_pos]
    simp [isTrivialSegment, hempty, hcurrent]

/-- The joined components of a way down to a name are known by a path inside the directory. -/
theorem logical_ofComponents {init : List String} {n : String} (hinit : ∀ s ∈ init, '/' ∉ s.toList)
    (hn : IsName n) (hinside : climbsAbove 0 (inside (init ++ [n])) = false) :
    (Glob.logical (ofComponents (inside (init ++ [n])))).Logical := by
  have htrivial : isTrivialSegment n = false := by simp [isTrivialSegment, hn.2.1, hn.2.2.1]
  let kept := init.filter fun s => !isTrivialSegment s
  have hfilter : ((init ++ [n]).filter fun s => !isTrivialSegment s) = kept ++ [n] := by
    rw [List.filter_append, List.filter_cons_of_pos (by rw [htrivial]; rfl), List.filter_nil]
  have hslash : ∀ s ∈ kept, '/' ∉ s.toList := fun s hs => hinit s (List.mem_of_mem_filter hs)
  have hplain : Plain (kept ++ [n]) := by
    intro s hs
    rcases List.mem_append.1 hs with hs | hs
    · exact ⟨hslash s hs, by simpa using (List.mem_filter.1 hs).2⟩
    · rw [List.mem_singleton.1 hs]
      exact ⟨hn.1, htrivial⟩
  have hescapes : (ofSegments (kept ++ [n])).escapesRoot = false := by
    rw [escapesRoot, isAbsolute_of_plain hplain, Bool.false_or, components_of_plain hplain, ← hfilter,
      inside_filter]
    exact hinside
  have hinner := inner_normalize hescapes
  rw [ofComponents_inside, hfilter, logical_eq]
  refine ⟨hinner, fun hempty => ?_⟩
  -- the place that the path names ends in the name
  have hnil : (ofSegments (kept ++ [n])).place = [] := by
    rw [← names_ofSegments (isName_of_mem_place (p := ofSegments (kept ++ [n]))),
      ← normalize_of_not_escapesRoot hescapes,
      show (ofSegments (kept ++ [n])).normalize = ⟨""⟩ from congrArg Path.mk hempty]
    rfl
  rw [place_of_segments (segments_ofSegments_concat hslash hn.1) hn] at hnil
  exact absurd hnil (by simp)

end Path

namespace Glob

open Path

/-! ### How low a pattern leads -/

/-- The segment that takes a part down least: a plain text, or what a wildcard stands for besides the
entries of a directory, the parent first. An asterisk stands for an entry. -/
def Part.lowest (part : Part) : String :=
  match part.literal? with
  | some cs => String.ofList cs
  | none =>
    if part = .tree then ""
    else if ".." ∈ dotNames part then ".."
    else if "." ∈ dotNames part then "."
    else "*"

/-- Whether no way that a pattern leads climbs above the directory that it starts from. -/
def staysInside (pattern : String) : Bool :=
  (ofPattern? pattern).all fun g => !climbsAbove 0 (inside (g.parts.map Part.lowest))

/-- No segment of the pattern holds a slash. -/
def Clean (parts : List Part) : Prop :=
  ∀ part ∈ parts, ∀ cs, part.literal? = some cs → '/' ∉ cs

variable {t : Tree} {n d d₁ : Nat} {part : Part} {parts parts' rest : List Part} {p p' q root : Path}
  {name pattern : String}

theorem mem_of_closeSet? {negated : Bool} {c : Char} {cs r : List Char} {tok : Token}
    (h : closeSet? negated c cs = some (tok, r)) : r ⊆ cs ∧ ∀ c, tok ≠ .char c := by
  unfold closeSet? at h
  split at h
  · cases h
  · next heq =>
    cases h
    refine ⟨fun x hx => (List.dropWhile_suffix (· != ']')).subset ?_, nofun⟩
    rw [heq]
    exact List.mem_cons_of_mem _ hx

theorem mem_of_readSet? {cs r : List Char} {tok : Token} (h : readSet? cs = some (tok, r)) :
    r ⊆ cs ∧ ∀ c, tok ≠ .char c := by
  unfold readSet? at h
  split at h
  · obtain ⟨hsub, hne⟩ := mem_of_closeSet? h
    exact ⟨fun x hx => List.mem_cons_of_mem _ (List.mem_cons_of_mem _ (hsub hx)), hne⟩
  · obtain ⟨hsub, hne⟩ := mem_of_closeSet? h
    exact ⟨fun x hx => List.mem_cons_of_mem _ (hsub hx), hne⟩
  · cases h

/-- A token that stands for itself is a character of the text. -/
theorem mem_of_tokens? {cs : List Char} {ts : List Token} (h : tokens? cs = some ts) {c : Char}
    (hc : .char c ∈ ts) : c ∈ cs := by
  fun_induction tokens? cs generalizing ts with
  | case1 =>
    cases h
    cases hc
  | case2 => cases h
  | case3 rest _ ih | case4 rest ih =>
    obtain ⟨ts', hts, rfl⟩ := Option.map_eq_some_iff.1 h
    exact List.mem_cons_of_mem _ (ih hts ((List.mem_cons.1 hc).resolve_left nofun))
  | case5 => cases h
  | case6 rest tok r hread ih =>
    obtain ⟨ts', hts, rfl⟩ := Option.map_eq_some_iff.1 h
    obtain ⟨hsub, hne⟩ := mem_of_readSet? hread
    rcases List.mem_cons.1 hc with heq | hc
    · exact absurd heq.symm (hne c)
    · exact List.mem_cons_of_mem _ (hsub (ih hts hc))
  | case7 c' rest _ _ _ ih =>
    obtain ⟨ts', hts, rfl⟩ := Option.map_eq_some_iff.1 h
    rcases List.mem_cons.1 hc with heq | hc
    · obtain rfl := Token.char.inj heq
      exact List.mem_cons_self ..
    · exact List.mem_cons_of_mem _ (ih hts hc)

theorem exists_of_mem_mapM? {α β : Type} {f : α → Option β} {l : List α} {bs : List β} {b : β}
    (h : l.mapM f = some bs) (hb : b ∈ bs) : ∃ a ∈ l, f a = some b := by
  induction l generalizing bs with
  | nil => cases h; cases hb
  | cons a l ih =>
    rw [List.mapM_cons] at h
    obtain ⟨b', hb', h⟩ := Option.bind_eq_some_iff.1 h
    obtain ⟨bs', hbs', h⟩ := Option.bind_eq_some_iff.1 h
    cases h
    rcases List.mem_cons.1 hb with rfl | hb
    · exact ⟨a, List.mem_cons_self .., hb'⟩
    · obtain ⟨x, hx, heq⟩ := ih hbs' hb
      exact ⟨x, List.mem_cons_of_mem _ hx, heq⟩

theorem mem_of_literal? {cs : List Char} {ts : List Token} {c : Char}
    (h : Part.literal? (.name ts) = some cs) (hc : c ∈ cs) : .char c ∈ ts := by
  obtain ⟨tok, htok, heq⟩ := exists_of_mem_mapM? h hc
  cases tok with
  | char c' =>
    obtain rfl := Option.some.inj heq
    exact htok
  | _ => cases heq

theorem clean_of_parse? {s : String} {g : Glob} (h : parse? s = some g) : Clean g.parts := by
  obtain ⟨parts, hparts, h⟩ := Option.bind_eq_some_iff.1 h
  cases h
  intro part hpart cs hliteral hslash
  obtain ⟨seg, hseg, hread⟩ := exists_of_mem_mapM? hparts hpart
  have hmem : seg ∈ s.toList.splitOn '/' := by
    split at hseg
    · exact (List.dropLast_prefix _).subset hseg
    · exact hseg
  rw [part?] at hread
  split at hread
  · cases hread
    cases hliteral
  · obtain ⟨ts, hts, rfl⟩ := Option.map_eq_some_iff.1 hread
    exact not_mem_of_mem_splitOn hmem (mem_of_tokens? hts (mem_of_literal? hliteral hslash))

theorem lowest_of_literal {cs : List Char} (h : part.literal? = some cs) :
    part.lowest = String.ofList cs := by
  unfold Part.lowest
  rw [h]

theorem inside_dropWhile (parts : List Part) :
    inside ((parts.dropWhile (· == .tree)).map Part.lowest) = inside (parts.map Part.lowest) := by
  induction parts with
  | nil => rfl
  | cons part parts ih =>
    cases part with
    | tree => exact ih
    | name ts => rfl

theorem eq_of_mem_dotNames (h : name ∈ dotNames part) : name = "." ∨ name = ".." := by
  unfold dotNames at h
  split at h
  · simpa using (List.mem_filter.1 h).1
  · cases h

/-- A special name of a part leads no lower than the part can. -/
theorem exists_lands_of_dotNames (hpart : part.literal? = none) (hname : name ∈ dotNames part)
    (h : Lands d part.lowest d₁) : ∃ d', Lands d name d' ∧ d₁ ≤ d' := by
  have htree : part ≠ .tree := by
    rintro rfl
    cases hname
  unfold Part.lowest at h
  rw [hpart] at h
  simp only [if_neg htree] at h
  split at h
  · rcases eq_of_mem_dotNames hname with rfl | rfl
    · exact ⟨d, rfl, by rw [show d = d₁ + 1 from h]; exact Nat.le_succ _⟩
    · exact ⟨d₁, h, le_rfl⟩
  · next hparent =>
    rcases eq_of_mem_dotNames hname with rfl | rfl
    · rw [if_pos hname] at h
      exact ⟨d₁, h, le_rfl⟩
    · exact absurd hname hparent

/-- An entry leads down, whatever the first part could do. -/
theorem climbsAbove_of_enters (hlow : climbsAbove d (inside (parts.map Part.lowest)) = false)
    (h : Enters t parts p name parts') :
    climbsAbove (d + 1) (inside (parts'.map Part.lowest)) = false := by
  have hnext : ∀ {ts rest}, climbsAbove d (inside ((Part.name ts :: rest).map Part.lowest)) = false →
      climbsAbove (d + 1) (inside (rest.map Part.lowest)) = false := by
    intro ts rest hlow
    rw [List.map_cons, climbsAbove_inside_cons] at hlow
    obtain ⟨d₁, hlands, hlow⟩ := hlow
    exact climbsAbove_mono (le_succ_of_lands hlands) hlow
  cases h with
  | name hfits => exact hnext hlow
  | @down rest p name hdir =>
    refine climbsAbove_mono (Nat.le_succ d) ?_
    rw [← inside_dropWhile] at hlow
    exact hlow
  | leave hrest hfits =>
    rw [← inside_dropWhile, List.dropWhile_cons_of_pos (by rfl), hrest] at hlow
    exact hnext hlow

theorem Clean.of_enters (hparts : Clean parts) (h : Enters t parts p name parts') :
    Clean parts' := by
  cases h with
  | name hfits => exact fun part hmem => hparts part (List.mem_cons_of_mem _ hmem)
  | @down rest p name hdir =>
    intro part hmem
    rcases List.mem_cons.1 hmem with rfl | hmem
    · exact nofun
    · exact hparts part (List.mem_cons_of_mem _ ((List.dropWhile_suffix _).subset hmem))
  | @leave ts rest rest' p name hrest hfits =>
    intro part hmem
    have hmem' : part ∈ rest.dropWhile (· == .tree) := hrest ▸ List.mem_cons_of_mem _ hmem
    exact hparts part (List.mem_cons_of_mem _ ((List.dropWhile_suffix _).subset hmem'))

/-- The first part leads along one segment, to a depth from which the other parts do not climb
higher than they could. -/
theorem exists_segment_of_step (ht : t.Proper) (hparts : Clean parts)
    (hlow : climbsAbove d (inside (parts.map Part.lowest)) = false) (h : Step t parts p parts' p') :
    ∃ s d', p' = p / ⟨s⟩ ∧ '/' ∉ s.toList ∧ Lands d s d' ∧
      climbsAbove d' (inside (parts'.map Part.lowest)) = false ∧ Clean parts' := by
  cases h with
  | @plain part rest p cs hpart hfinds =>
    rw [List.map_cons, climbsAbove_inside_cons, lowest_of_literal hpart] at hlow
    obtain ⟨d', hlands, hlow⟩ := hlow
    refine ⟨_, d', rfl, ?_, hlands, hlow, fun part hmem => hparts part (List.mem_cons_of_mem _ hmem)⟩
    rw [String.toList_ofList]
    exact hparts _ (List.mem_cons_self ..) cs hpart
  | @enter part rest parts' p name hpart hp hname henters =>
    have hisName := ht.isName_of_mem_names hname
    exact ⟨name, d + 1, rfl, hisName.1, lands_of_isName hisName, climbsAbove_of_enters hlow henters,
      hparts.of_enters henters⟩
  | @dots part rest p name hpart hp hname =>
    rw [List.map_cons, climbsAbove_inside_cons] at hlow
    obtain ⟨d₁, hlands, hlow⟩ := hlow
    obtain ⟨d', hlands', hle⟩ := exists_lands_of_dotNames hpart hname hlands
    refine ⟨name, d', rfl, ?_, hlands', climbsAbove_mono hle hlow,
      fun part hmem => hparts part (List.mem_cons_of_mem _ hmem)⟩
    rcases eq_of_mem_dotNames hname with rfl | rfl <;> decide

/-- All parts lead along segments that do not climb above the directory. -/
theorem exists_segments_of_leads (ht : t.Proper) (hparts : Clean parts)
    (hlow : climbsAbove d (inside (parts.map Part.lowest)) = false) (h : Leads t n parts p q) :
    ∃ segs, q = p.along segs ∧ (∀ s ∈ segs, '/' ∉ s.toList) ∧
      climbsAbove d (inside segs) = false ∧ (parts ≠ [] → segs ≠ []) := by
  induction h generalizing d with
  | arrive => exact ⟨[], rfl, by simp, rfl, absurd rfl⟩
  | step hstep _ ih =>
    obtain ⟨s, d', rfl, hs, hlands, hlow', hparts'⟩ := exists_segment_of_step ht hparts hlow hstep
    obtain ⟨segs, rfl, hsegs, hinside, -⟩ := ih hparts' hlow'
    exact ⟨s :: segs, rfl, List.forall_mem_cons.2 ⟨hs, hsegs⟩,
      climbsAbove_inside_cons.2 ⟨d', hlands, hinside⟩, fun _ => List.cons_ne_nil _ _⟩

/-! ### Files -/

/-- A file that a pattern gives is known by a path inside the project. -/
theorem logical_of_matches (hroot : root.text ≠ "") (ht : t.Proper)
    (hpattern : staysInside pattern = true) (h : Matches t root pattern p) : p.Logical := by
  obtain ⟨g, q, p', hg, hits, hunder, rfl⟩ := h
  have hlow : climbsAbove 0 (inside (g.parts.map Part.lowest)) = false := by
    rw [staysInside, hg] at hpattern
    simpa using hpattern
  obtain ⟨segs, rfl, hsegs, hinside, hne⟩ :=
    exists_segments_of_leads ht (clean_of_parse? hg) hlow hits.leads
  obtain ⟨init, n, rfl⟩ := (List.eq_nil_or_concat segs).resolve_left (hne hits.parts)
  rw [List.concat_eq_append] at *
  -- a file is reached by a name at the end
  have hn : IsName n := by
    obtain ⟨init', n', hends, hn'⟩ := (Tree.isFile_iff.1 hits.isFile).1.exists_segments
    have hslash := hsegs n (by simp)
    obtain ⟨before, hjoined⟩ : ∃ before, (root.along init / ⟨n⟩).segments = before ++ [n] :=
      exists_segments_join (isAbsolute_of_not_mem hslash)
        ((segments_eq_singleton hslash).trans (List.nil_append _).symm)
    have halong : root.along (init ++ [n]) = root.along init / ⟨n⟩ := by
      rw [along, List.foldl_append]
      rfl
    rw [halong, hjoined] at hends
    obtain ⟨-, hlast⟩ := List.append_inj' hends rfl
    rw [(List.cons.inj hlast).1]
    exact hn'
  have hcomponents := components_along hroot hsegs
  rw [under?, hcomponents] at hunder
  split at hunder
  · obtain rfl := Option.some.inj hunder
    rw [List.drop_left]
    exact logical_ofComponents (fun s hs => hsegs s (List.mem_append_left _ hs)) hn hinside
  · cases hunder

theorem logical_of_mem_files {patterns : List String} {ps : List Path} (hroot : root.text ≠ "")
    (ht : t.Proper) (hpatterns : ∀ pattern ∈ patterns, staysInside pattern = true)
    (h : answer (files root patterns) t = .ok ps) : ∀ p ∈ ps, p.Logical := by
  intro p hp
  obtain ⟨pattern, hpattern, hmatches⟩ := matches_of_mem_files h p hp
  exact logical_of_matches hroot ht (hpatterns pattern hpattern) hmatches

end Glob

end GqlArtifacts
