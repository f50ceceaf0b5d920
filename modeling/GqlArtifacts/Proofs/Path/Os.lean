import GqlArtifacts.Path.Os
import GqlArtifacts.Proofs.Path.Folding
import GqlArtifacts.Proofs.Text.Lossy

/-!
# Paths of bytes

The functions on paths look at slashes and at the two names made of dots, and otherwise names are only
carried along (`Component.readAll_map`, `normalizeComponents_map`). So a path of bytes is taken apart
like the text with one character for each byte, its `spelled` form, and what holds of the normal forms
of texts holds of those of bytes. In the same way a text is taken apart like its bytes
(`ofText_agrees`).

A name that is no text is not found again in the path that units are known by: `normalize_agrees` says
that the parts of a normal form come back exactly where all its names are texts.
-/

namespace GqlArtifacts

namespace Component
variable {α β : Type} {f : α → β} {c : Component α}

@[simp] theorem map_eq_root : c.map f = .root ↔ c = .root := by cases c <;> simp [map]

@[simp] theorem map_eq_parent : c.map f = .parent ↔ c = .parent := by cases c <;> simp [map]

theorem map_injective (hf : Function.Injective f) : Function.Injective (map f) := by
  intro c d h
  cases c <;> cases d <;> first | rfl | cases h | exact congrArg name (hf (name.inj h))

section
variable [DecidableEq α] [DecidableEq β]

theorem read?_map (hf : Function.Injective f) (empty current parent s : α) :
    read? (f empty) (f current) (f parent) (f s) = (read? empty current parent s).map (map f) := by
  simp only [read?, hf.eq_iff]
  split
  · rfl
  · split <;> rfl

theorem readAll_map (hf : Function.Injective f) {part? : α → Option (Component α)}
    {part'? : β → Option (Component β)} (hpart : ∀ s, part'? (f s) = (part? s).map (map f))
    (current : α) (absolute : Bool) (segs : List α) :
    readAll (f current) part'? absolute (segs.map f) =
      (readAll current part? absolute segs).map (map f) := by
  cases segs with
  | nil => rfl
  | cons first rest =>
    have hrest : (rest.map f).filterMap part'? = (rest.filterMap part?).map (map f) := by
      rw [List.filterMap_map, List.map_filterMap]
      exact List.filterMap_congr fun s _ => hpart s
    simp only [readAll, List.map_cons, List.map_append, hrest, hpart, hf.eq_iff]
    congr 1
    split
    · rfl
    · split
      · rfl
      · cases part? first <;> rfl

theorem sinceRoot_map {spelling : Component α → α} {spelling' : Component β → β}
    (hspelling : ∀ c, spelling' (map f c) = f (spelling c)) (cs : List (Component α)) :
    sinceRoot spelling' (cs.map (map f)) = (sinceRoot spelling cs).map id (List.map f) := by
  have hfold : ∀ (absolute : Bool) (names : List α), (cs.map (map f)).foldl (fun x c =>
      if c = .root then (true, []) else (x.1, spelling' c :: x.2)) (absolute, names.map f) =
      (cs.foldl (fun x c => if c = .root then (true, []) else (x.1, spelling c :: x.2))
        (absolute, names)).map id (List.map f) := by
    induction cs with
    | nil => exact fun _ _ => rfl
    | cons c cs ih =>
      intro absolute names
      rw [List.map_cons, List.foldl_cons, List.foldl_cons]
      by_cases hroot : c = .root
      · subst hroot
        exact ih true []
      · rw [if_neg (by simpa using hroot), if_neg hroot, hspelling]
        exact ih absolute (spelling c :: names)
  exact hfold false []

end

end Component

namespace Path
variable {α β : Type} (f : α → β)

theorem normalizeStep_map (acc : List (Component α)) (c : Component α) :
    normalizeStep (acc.map (Component.map f)) (c.map f) =
      (normalizeStep acc c).map (Component.map f) := by
  cases c with
  | root => rfl
  | current => rfl
  | name s => rfl
  | parent =>
    cases acc with
    | nil => rfl
    | cons d acc => cases d <;> rfl

theorem normalizeComponents_map (cs : List (Component α)) :
    normalizeComponents (cs.map (Component.map f)) =
      (normalizeComponents cs).map (Component.map f) := by
  have hfold : ∀ acc : List (Component α), (cs.map (Component.map f)).foldl normalizeStep
      (acc.map (Component.map f)) = (cs.foldl normalizeStep acc).map (Component.map f) := by
    induction cs with
    | nil => exact fun acc => rfl
    | cons c cs ih =>
      intro acc
      rw [List.map_cons, List.foldl_cons, normalizeStep_map, ih, List.foldl_cons]
  rw [normalizeComponents, normalizeComponents, List.map_reverse]
  exact congrArg List.reverse (hfold [])

theorem climbsAbove_map (depth : Nat) (cs : List (Component α)) :
    climbsAbove depth (cs.map (Component.map f)) = climbsAbove depth cs := by
  induction cs generalizing depth with
  | nil => rfl
  | cons c cs ih =>
    cases c with
    | root => rfl
    | current => exact ih depth
    | name s => exact ih (depth + 1)
    | parent =>
      cases depth with
      | zero => rfl
      | succ depth => exact ih depth

/-- Other names make a folded path of a folded path. -/
theorem Folded.map_of {α : Type} {f g : α → String} (hfg : ∀ n, IsName (f n) → IsName (g n))
    {cs : List (Component α)} (h : Folded (cs.map (Component.map f))) :
    Folded (cs.map (Component.map g)) := by
  obtain ⟨front, ns, heq, hfront, hns⟩ := h
  obtain ⟨before, after, rfl, rfl, hafter⟩ := List.map_eq_append_iff.1 heq
  obtain ⟨ms, rfl, hms⟩ : ∃ ms : List α, after = ms.map .name ∧ ∀ m ∈ ms, IsName (f m) := by
    clear heq
    induction after generalizing ns with
    | nil => exact ⟨[], rfl, nofun⟩
    | cons c after ih =>
      cases ns with
      | nil => cases hafter
      | cons n ns =>
        obtain ⟨hc, hrest⟩ := List.cons.inj hafter
        obtain ⟨hn, hns⟩ := List.forall_mem_cons.1 hns
        obtain ⟨ms, rfl, hms⟩ := ih ns hns hrest
        cases c with
        | name m =>
          obtain rfl := Component.name.inj hc
          exact ⟨m :: ms, rfl, List.forall_mem_cons.2 ⟨hn, hms⟩⟩
        | _ => cases hc
  refine ⟨before.map (Component.map g), ms.map g, by simp [Component.map], ?_, ?_⟩
  · rcases hfront with hroot | hparents
    · obtain ⟨c, rfl, hc⟩ := List.map_eq_singleton_iff.1 hroot
      obtain rfl := Component.map_eq_root.1 hc
      exact .inl rfl
    · refine .inr fun c hc => ?_
      obtain ⟨d, hd, rfl⟩ := List.mem_map.1 hc
      exact Component.map_eq_parent.2 (Component.map_eq_parent.1 (hparents _ (List.mem_map_of_mem hd)))
  · intro s hs
    obtain ⟨m, hm, rfl⟩ := List.mem_map.1 hs
    exact hfg m (hms m hm)

end Path

namespace OsPath
variable {p q : OsPath} {n : Name} {cs : List (Component Name)}

/-! ### One character for each byte -/

def letter (b : UInt8) : Char := Char.ofNat b.toNat

theorem toNat_letter (b : UInt8) : (letter b).toNat = b.toNat := by
  have hlt := b.toNat_lt
  rw [letter, Char.ofNat, dif_pos (.inl (by omega))]
  rfl

theorem letter_injective : Function.Injective letter := fun b c h => by
  rw [← UInt8.toNat_inj, ← toNat_letter, ← toNat_letter, h]

def letters (n : Name) : String := String.ofList (n.map letter)

theorem letters_append (n n' : Name) : letters (n ++ n') = letters n ++ letters n' := by
  rw [letters, List.map_append, String.ofList_append]
  rfl

theorem letters_injective : Function.Injective letters := fun _ _ h =>
  letter_injective.list_map (String.ofList_injective h)

theorem slash_mem_letters : '/' ∈ (letters n).toList ↔ slash ∈ n := by
  rw [letters, String.toList_ofList, show '/' = letter slash from rfl]
  exact List.mem_map_of_injective letter_injective

/-- The text that is spelled with the bytes of a path. -/
def spelled (p : OsPath) : Path := ⟨letters p.bytes⟩

theorem spelled_injective : Function.Injective spelled := fun p q h => by
  cases p; cases q
  exact congrArg mk (letters_injective (Path.mk.inj h))

theorem intercalate_letters (segs : List Name) :
    letters ([slash].intercalate segs) = "/".intercalate (segs.map letters) := by
  induction segs with
  | nil => rfl
  | cons s segs ih =>
    cases segs with
    | nil => simp
    | cons s' segs =>
      rw [List.intercalate_cons_cons, letters_append, letters_append, ih]
      simp only [List.map_cons, String.intercalate_cons_cons]
      rfl

theorem segments_spelled (p : OsPath) : p.spelled.segments = p.segments.map letters := by
  have hspelled : p.spelled = Path.ofSegments (p.segments.map letters) := by
    rw [spelled, Path.ofSegments, ← intercalate_letters, segments, List.intercalate_splitOn]
  rw [hspelled]
  refine Path.segments_ofSegments (fun s hs => ?_) (by simp [segments])
  obtain ⟨s, hseg, rfl⟩ := List.mem_map.1 hs
  exact mt slash_mem_letters.1 (Path.not_mem_of_mem_splitOn hseg)

theorem isAbsolute_spelled (p : OsPath) : p.spelled.isAbsolute = p.isAbsolute := by
  rw [spelled, Path.isAbsolute, Path.chars_eq, isAbsolute, letters, String.toList_ofList, List.head?_map]
  cases p.bytes with
  | nil => rfl
  | cons b bs =>
    have hfirst : letter b = '/' ↔ b = slash := letter_injective.eq_iff (b := slash)
    rw [Bool.eq_iff_iff]
    simp only [List.head?_cons, Option.map_some, beq_iff_eq, Option.some.injEq, hfirst]

theorem components_spelled (p : OsPath) :
    p.spelled.components = p.components.map (Component.map letters) := by
  rw [Path.components, segments_spelled, isAbsolute_spelled]
  exact Component.readAll_map letters_injective
    (fun s => Component.read?_map letters_injective [] [dot] [dot, dot] s) [dot] _ _

theorem spelled_ofComponents (cs : List (Component Name)) :
    (ofComponents cs).spelled = Path.ofComponents (cs.map (Component.map letters)) := by
  have hspelling : ∀ c : Component Name, (c.map letters).text = letters (spelling c) := by
    intro c
    cases c <;> rfl
  simp only [ofComponents, Path.ofComponents]
  rw [Component.sinceRoot_map hspelling]
  obtain ⟨absolute, names⟩ := Component.sinceRoot spelling cs
  rw [spelled, letters_append, intercalate_letters, List.map_reverse]
  cases absolute <;> rfl

theorem spelled_normalize (p : OsPath) : p.normalize.spelled = p.spelled.normalize := by
  rw [normalize, spelled_ofComponents, Path.normalize, components_spelled,
    Path.normalizeComponents_map]

theorem components_normalize_spelled (p : OsPath) :
    p.spelled.normalize.components = p.normalize.components.map (Component.map letters) := by
  rw [← spelled_normalize, components_spelled]

theorem escapesRoot_spelled (p : OsPath) : p.spelled.escapesRoot = p.escapesRoot := by
  rw [Path.escapesRoot, isAbsolute_spelled, components_spelled, Path.climbsAbove_map]
  rfl

theorem spelled_join (p q : OsPath) : (p / q).spelled = p.spelled / q.spelled := by
  have hempty : p.spelled.text.isEmpty = true ↔ p.bytes.isEmpty = true := by
    rw [String.isEmpty_iff, List.isEmpty_iff]
    exact letters_injective.eq_iff (b := [])
  have hlast : p.spelled.text.toList.getLast? = some '/' ↔ p.bytes.getLast? = some slash := by
    rw [spelled, letters, String.toList_ofList, List.getLast?_map]
    exact (Option.map_injective letter_injective).eq_iff (b := some slash)
  show (join p q).spelled = Path.join _ _
  simp only [join, Path.join, isAbsolute_spelled, Path.chars_eq, hempty, hlast]
  split
  · rfl
  · split
    · exact congrArg Path.mk (letters_append ..)
    · refine congrArg Path.mk ?_
      rw [letters_append, letters_append]
      rfl

/-! ### Texts -/

theorem encode_eq (s : String) : encode s = Text.bytes s.toList := (Text.bytes_toList s).symm

theorem encode_append (s s' : String) : encode (s ++ s') = encode s ++ encode s' := by
  rw [encode_eq, String.toList_append, Text.bytes_append, ← encode_eq, ← encode_eq]

/-- The text of a name that is one. -/
theorem shown_encode (s : String) : shown (encode s) = s := by
  rw [shown, encode_eq, Text.lossyChars_bytes, String.ofList_toList]

theorem encode_injective : Function.Injective encode := fun s s' h => by
  rw [← shown_encode s, h, shown_encode]

theorem slash_mem_encode {s : String} : slash ∈ encode s ↔ '/' ∈ s.toList := by
  rw [encode_eq, Text.bytes, List.mem_flatMap]
  constructor
  · rintro ⟨c, hc, hslash⟩
    rcases utf8EncodeChar_cases c with ⟨hascii, hone⟩ | ⟨-, hlarge⟩
    · rw [hone, List.mem_singleton] at hslash
      exact Text.byte_inj (d := '/') hascii (by decide) hslash.symm ▸ hc
    · exact absurd (hlarge _ hslash) (by decide)
  · exact fun hc => ⟨'/', hc, by decide⟩

theorem intercalate_encode (segs : List String) :
    encode ("/".intercalate segs) = [slash].intercalate (segs.map encode) := by
  induction segs with
  | nil => rfl
  | cons s segs ih =>
    cases segs with
    | nil => simp
    | cons s' segs =>
      rw [String.intercalate_cons_cons, encode_append, encode_append, ih]
      simp only [List.map_cons, List.intercalate_cons_cons]
      rfl

theorem segments_ofText (p : Path) : (ofText p.text).segments = p.segments.map encode := by
  have hbytes : encode p.text = [slash].intercalate (p.segments.map encode) := by
    rw [← intercalate_encode]
    exact congrArg (encode ∘ Path.text) (Path.ofSegments_segments p).symm
  rw [segments, ofText, hbytes]
  refine List.splitOn_intercalate slash (fun s hs => ?_) (by simp [Path.segments_ne_nil])
  obtain ⟨s, hseg, rfl⟩ := List.mem_map.1 hs
  exact mt slash_mem_encode.1 (Path.not_mem_of_mem_segments hseg)

theorem isAbsolute_ofText (p : Path) : (ofText p.text).isAbsolute = p.isAbsolute := by
  have hfirst : ∀ s : String, (encode s).head? = some slash ↔ s.toList.head? = some '/' := by
    intro s
    rw [encode_eq, List.head?_eq_getElem?]
    exact Text.getElem?_bytes_zero (d := '/') (by decide)
  rw [isAbsolute, Path.isAbsolute, Path.chars_eq, Bool.eq_iff_iff, beq_iff_eq, beq_iff_eq]
  exact hfirst p.text

theorem components_ofText (p : Path) :
    (ofText p.text).components = p.components.map (Component.map encode) := by
  rw [components, segments_ofText, isAbsolute_ofText]
  exact Component.readAll_map encode_injective
    (fun s => Component.read?_map encode_injective "" "." ".." s) "." _ _

theorem ofText_ofComponents (cs : List (Component String)) :
    ofText (Path.ofComponents cs).text = ofComponents (cs.map (Component.map encode)) := by
  have hspelling : ∀ c : Component String, spelling (c.map encode) = encode c.text := by
    intro c
    cases c <;> rfl
  simp only [ofComponents, Path.ofComponents]
  rw [Component.sinceRoot_map hspelling]
  obtain ⟨absolute, names⟩ := Component.sinceRoot Component.text cs
  rw [ofText, encode_append, intercalate_encode, List.map_reverse]
  cases absolute <;> rfl

theorem getLast?_encode {s : String} :
    (encode s).getLast? = some slash ↔ s.toList.getLast? = some '/' := by
  rw [encode_eq]
  rcases List.eq_nil_or_concat s.toList with hnil | ⟨init, c, hlast⟩
  · simp [hnil, Text.bytes]
  · rw [hlast, List.concat_eq_append, Text.bytes_append, List.getLast?_concat, Option.some.injEq,
      List.getLast?_append_of_ne_nil _ (by simp [Text.bytes, String.utf8EncodeChar_ne_nil])]
    rw [Text.bytes_cons, Text.bytes, List.flatMap_nil, List.append_nil]
    rcases utf8EncodeChar_cases c with ⟨hascii, hone⟩ | ⟨hbig, hlarge⟩
    · rw [hone, List.getLast?_singleton, Option.some.injEq]
      exact ⟨fun h => Text.byte_inj (d := '/') hascii (by decide) h, fun h => h ▸ rfl⟩
    · constructor
      · exact fun h => absurd (hlarge _ (List.mem_of_getLast? h)) (by decide)
      · rintro rfl
        exact absurd hbig (by decide)

theorem ofText_join (p q : Path) : ofText p.text / ofText q.text = ofText (p / q).text := by
  have hempty : (ofText p.text).bytes.isEmpty = true ↔ p.text.isEmpty = true := by
    rw [String.isEmpty_iff, List.isEmpty_iff]
    exact encode_injective.eq_iff (b := "")
  have hlast : (ofText p.text).bytes.getLast? = some slash ↔ p.text.toList.getLast? = some '/' :=
    getLast?_encode
  show join _ _ = ofText (Path.join p q).text
  simp only [join, Path.join, isAbsolute_ofText, Path.chars_eq, hempty, hlast]
  split
  · rfl
  · split
    · exact congrArg mk (encode_append ..).symm
    · refine congrArg mk ?_
      rw [encode_append, encode_append]
      rfl

/-- To the bytes of a text the same is done as to the text. -/
theorem ofText_agrees (p q : Path) :
    ofText p.text / ofText q.text = ofText (p / q).text ∧
    (ofText p.text).normalize = ofText p.normalize.text ∧
    (ofText p.text).escapesRoot = p.escapesRoot ∧
    (ofText p.text).toSlash = p.toSlash ∧
    (ofText p.text).logical = ofText (Glob.logical p).text := by
  have hnormalize : (ofText p.text).normalize = ofText p.normalize.text := by
    rw [normalize, components_ofText, Path.normalizeComponents_map, Path.normalize,
      ofText_ofComponents]
  have hslash : ∀ p : Path, (ofText p.text).toSlash = p.toSlash := by
    intro p
    have hshown : ∀ c : Component String, (c.map encode).map shown = c := by
      intro c
      cases c with
      | name s => exact congrArg Component.name (shown_encode s)
      | _ => rfl
    rw [toSlash, components_ofText, List.map_map, Path.toSlash]
    exact congrArg (fun cs => (Path.ofComponents cs).text)
      ((List.map_congr_left fun c _ => hshown c).trans (List.map_id _))
  refine ⟨ofText_join p q, hnormalize, ?_, hslash p, ?_⟩
  · rw [escapesRoot, isAbsolute_ofText, components_ofText, Path.climbsAbove_map, Path.escapesRoot]
  · rw [logical, hnormalize, hslash, Glob.logical]

/-! ### Normal forms -/

/-- A name that is a text. -/
def IsText (n : Name) : Prop := ∃ s : String, encode s = n

theorem letters_map_byte {cs : List Char} (h : ∀ c ∈ cs, c.toNat < 0x80) :
    letters (cs.map Text.byte) = String.ofList cs := by
  have hletter : ∀ c ∈ cs, letter (Text.byte c) = c := fun c hc => by
    rw [← Char.toNat_inj, toNat_letter, Text.toNat_byte (h c hc)]
  rw [letters, List.map_map]
  exact congrArg String.ofList ((List.map_congr_left hletter).trans (List.map_id _))

/-- What is shown of a name is a name. -/
theorem isName_shown (h : Path.IsName (letters n)) : Path.IsName (shown n) := by
  obtain ⟨hslash, hempty, hdot, hdots⟩ := h
  have hplain : ∀ cs : List Char, (∀ c ∈ cs, 0 < c.toNat ∧ c.toNat < 0x80) →
      letters n ≠ String.ofList cs → shown n ≠ String.ofList cs := by
    intro cs hcs hne heq
    refine hne ?_
    rw [Text.eq_map_byte_of_lossyChars hcs (String.ofList_injective heq)]
    exact letters_map_byte fun c hc => (hcs c hc).2
  refine ⟨?_, hplain [] (by simp) hempty, hplain ['.'] (by simp) hdot,
    hplain ['.', '.'] (by simp) hdots⟩
  rw [shown, String.toList_ofList]
  exact fun hmem => mt slash_mem_letters.2 hslash
    (Text.mem_of_mem_lossyChars (by decide) (by decide) hmem)

theorem folded_normalize (p : OsPath) :
    Path.Folded (p.normalize.components.map (Component.map letters)) := by
  rw [← components_normalize_spelled]
  exact Path.folded_components_normalize p.spelled

theorem folded_shown (p : OsPath) :
    Path.Folded (p.normalize.components.map (Component.map shown)) :=
  (folded_normalize p).map_of fun _ => isName_shown

theorem components_logical (p : OsPath) : p.logical.components =
    p.normalize.components.map (Component.map fun n => encode (shown n)) := by
  have hslash : Path.mk p.normalize.toSlash =
      Path.ofComponents (p.normalize.components.map (Component.map shown)) := rfl
  have hmap : ∀ c : Component Name, (c.map shown).map encode = c.map fun n => encode (shown n) := by
    intro c
    cases c <;> rfl
  have hcomponents := components_ofText (Path.mk p.normalize.toSlash)
  rw [hslash, Path.components_ofComponents (folded_shown p), List.map_map] at hcomponents
  exact hcomponents.trans (List.map_congr_left fun c _ => hmap c)

theorem map_component_injective : Function.Injective (List.map (Component.map letters)) :=
  (Component.map_injective letters_injective).list_map

/-- A normal form is folded and stays as it is, it tells whether the path escapes, and following a path
that does not escape adds its parts. Units are known by normal forms in which all that is no character
is replaced, so they keep the parts just if all names are texts. -/
theorem normalize_agrees (p : OsPath) :
    .current ∉ p.normalize.components ∧ [dot] ∉ p.normalize.segments ∧
    (∀ before after, p.normalize.components = before ++ .parent :: after →
      ∀ c ∈ before, c = .parent) ∧
    p.normalize.isAbsolute = p.isAbsolute ∧
    p.normalize.normalize = p.normalize ∧
    (p.escapesRoot = false ↔
      p.normalize.isAbsolute = false ∧ .parent ∉ p.normalize.components) ∧
    (p.escapesRoot = false → ∀ base : OsPath,
      (base / p).normalize.components = base.normalize.components ++ p.normalize.components) ∧
    p.logical.components =
      p.normalize.components.map (Component.map fun n => encode (shown n)) ∧
    (p.logical.components = p.normalize.components ↔
      ∀ n, .name n ∈ p.normalize.components → IsText n) := by
  have hfolded := folded_normalize p
  refine ⟨fun hmem => ?_, fun hmem => ?_, fun before after heq c hc => ?_, ?_, ?_, ?_,
    fun h base => ?_, components_logical p, ?_⟩
  · exact hfolded.current_not_mem (List.mem_map.2 ⟨_, hmem, rfl⟩)
  · refine Path.dot_not_mem_segments (Path.folded_normalizeComponents p.spelled) ?_
    show "." ∈ p.spelled.normalize.segments
    rw [← spelled_normalize, segments_spelled]
    exact List.mem_map.2 ⟨[dot], hmem, rfl⟩
  · rw [heq, List.map_append, List.map_cons] at hfolded
    exact Component.map_eq_parent.1 (hfolded.eq_parent _ (List.mem_map_of_mem hc))
  · rw [← isAbsolute_spelled, spelled_normalize, Path.isAbsolute_normalize, isAbsolute_spelled]
  · refine spelled_injective ?_
    rw [spelled_normalize, spelled_normalize, Path.normalize_normalize]
  · have hparent : .parent ∈ p.spelled.normalize.components ↔ .parent ∈ p.normalize.components := by
      rw [components_normalize_spelled, List.mem_map]
      constructor
      · rintro ⟨c, hc, hparent⟩
        exact Component.map_eq_parent.1 hparent ▸ hc
      · exact fun hmem => ⟨_, hmem, rfl⟩
    rw [← escapesRoot_spelled, Path.escapesRoot_eq_false_iff, hparent, ← spelled_normalize,
      isAbsolute_spelled]
  · refine map_component_injective ?_
    rw [List.map_append, ← components_normalize_spelled, ← components_normalize_spelled,
      ← components_normalize_spelled, spelled_join]
    exact Path.components_normalize_join (escapesRoot_spelled p ▸ h) base.spelled
  · rw [components_logical]
    conv => lhs; rhs; rw [← List.map_id p.normalize.components]
    rw [List.map_inj_left]
    constructor
    · exact fun heq n hn => ⟨shown n, Component.name.inj (heq _ hn)⟩
    · intro htext c hc
      cases c with
      | name n =>
        obtain ⟨s, rfl⟩ := htext n hc
        exact congrArg Component.name (congrArg encode (shown_encode s))
      | _ => rfl

/-- A directory whose name is no text: its file is known by a path that leads elsewhere. -/
def stray : OsPath := ⟨encode "d" ++ [0xFF] ++ encode "/x.graphql"⟩

theorem logical_stray : stray.logical.components ≠ stray.normalize.components := by
  decide +kernel

end OsPath

end GqlArtifacts
