import GqlArtifacts.Proofs.Entrypoint.Argument
import GqlArtifacts.Proofs.Path.Descends

/-!
# An entrypoint read back

`Entrypoint.read?` is a reader for entrypoints. It knows nothing of what was rendered: a backslash in
a literal takes the next character as it is, and the literal ends at its delimiter. What is rendered
for a manifest is read back as the arguments and modules of its rows, one by one
(`read?_render`), so no argument breaks out of its quotes.

A module is named from the directory of the entrypoint, and followed from there it is the
declaration file of its row (`normalize_moduleName`), unless this file is itself the directory of the
entrypoint or one above it.
-/

namespace GqlArtifacts

open Files

namespace Entrypoint

open GqlArtifacts.Path

variable {c quote : Char} {cs rest : List Char} {m : Manifest} {x dir dts : Path} {n : Nat}
  {o : Overload} {os : List Overload}

/-! ### The reader -/

/-- Reads a literal after its opening quote: the text, and the rest. A backslash takes the next
character as it is. A placeholder in a template and a line end in quotes break the literal. -/
def readText? (quote : Char) : List Char → Option (List Char × List Char)
  | [] => none
  | '\\' :: c :: cs => (readText? quote cs).map fun (text, rest) => (c :: text, rest)
  | c :: cs =>
    if c = quote then some ([], cs)
    else if quote = '`' ∧ c = '$' ∧ cs.head? = some '{' ∨ quote ≠ '`' ∧ Literal.isLineEnd c then none
    else (readText? quote cs).map fun (text, rest) => (c :: text, rest)

/-- What comes after a text. -/
def after? (front cs : List Char) : Option (List Char) :=
  if front.isPrefixOf cs then some (cs.drop front.length) else none

/-- Reads the name of a function and the literal that is the type of its argument. -/
def readArgument? (cs : List Char) : Option (Argument × List Char) :=
  match after? "gql(gql: `".toList cs with
  | some cs => (readText? '`' cs).map fun (text, rest) => (.gql (String.ofList text), rest)
  | none => (after? "load(path: '".toList cs).bind fun cs =>
    (readText? '\'' cs).map fun (text, rest) => (.load (String.ofList text), rest)

/-- Reads the import and the declaration of the overload number `n`. -/
def readOverload? (n : Nat) (cs : List Char) : Option (Overload × List Char) := do
  let cs ← after? s!"import * as T{n} from '".toList cs
  let (module, cs) ← readText? '\'' cs
  let cs ← after? ";\nexport declare function ".toList cs
  let (argument, cs) ← readArgument? cs
  let cs ← after? (s!"): T{n}." ++ injectedType ++ ";\n").toList cs
  return (⟨argument, String.ofList module⟩, cs)

/-- Reads overloads that are numbered from `n` on, up to the end; at most `limit` of them. -/
def readOverloads? : (limit n : Nat) → List Char → Option (List Overload)
  | _, _, [] => some []
  | 0, _, _ => none
  | limit + 1, n, cs => do
    let (o, cs) ← readOverload? n cs
    let os ← readOverloads? limit (n + 1) cs
    return o :: os

/-- The overloads that an entrypoint declares. -/
def read? (text : String) : Option (List Overload) :=
  (after? header.toList text.toList).bind fun cs =>
    if cs = "export {};\n".toList then some []
    else if cs = [] then none
    else readOverloads? cs.length 0 cs

/-! ### Literals -/

theorem after?_append (front cs : List Char) : after? front (front ++ cs) = some cs := by
  rw [after?, if_pos (List.isPrefixOf_iff_prefix.2 (List.prefix_append ..)), List.drop_left]

theorem readText?_escape (c : Char) (cs : List Char) : readText? quote ('\\' :: c :: cs) =
    (readText? quote cs).map fun (text, rest) => (c :: text, rest) := by
  rw [readText?]

theorem readText?_quote (hquote : quote ≠ '\\') (cs : List Char) :
    readText? quote (quote :: cs) = some ([], cs) := by
  rw [readText?, if_pos rfl]
  rintro c cs rfl
  exact absurd rfl hquote

theorem readText?_cons (hslash : c ≠ '\\') (hquote : c ≠ quote)
    (hbreak : ¬(quote = '`' ∧ c = '$' ∧ cs.head? = some '{' ∨ quote ≠ '`' ∧ Literal.isLineEnd c)) :
    readText? quote (c :: cs) = (readText? quote cs).map fun (text, rest) => (c :: text, rest) := by
  rw [readText?, if_neg hquote, if_neg hbreak]
  rintro d ds rfl
  exact absurd rfl hslash

/-- An escaped text is read back from a template. -/
theorem readText?_escapeTemplate (cs rest : List Char) :
    readText? '`' (escapeTemplate cs ++ '`' :: rest) = some (cs, rest) := by
  fun_induction escapeTemplate cs with
  | case1 cs ih =>
    rw [List.cons_append, List.cons_append, List.cons_append, readText?_escape,
      readText?_cons (by decide) (by decide) (by simp), ih]
    rfl
  | case2 c cs _ hspecial ih =>
    rw [List.cons_append, List.cons_append, readText?_escape, ih]
    rfl
  | case3 c cs hdollar hspecial ih =>
    obtain ⟨hslash, hquote⟩ := not_or.1 hspecial
    rw [List.cons_append, readText?_cons hslash hquote, ih]
    · rfl
    · -- a brace in front of the rest is one of the text
      rintro (⟨-, rfl, hhead⟩ | ⟨hne, -⟩)
      · have hbrace : (escapeTemplate cs).head? = some '{' := by
          cases hescaped : escapeTemplate cs with
          | nil => rw [hescaped] at hhead; cases hhead
          | cons d ds => rw [hescaped] at hhead; exact hhead
        obtain ⟨cs', rfl⟩ := List.head?_eq_some_iff.1 (head?_escapeTemplate (by decide) hbrace)
        exact hdollar cs' rfl rfl
      · exact hne rfl
  | case4 => exact readText?_quote (by decide) rest

/-- An escaped line is read back from quotes. -/
theorem readText?_escapeQuoted (hline : ∀ c ∈ cs, Literal.isLineEnd c = false) (rest : List Char) :
    readText? '\'' (escapeQuoted cs ++ '\'' :: rest) = some (cs, rest) := by
  induction cs with
  | nil => exact readText?_quote (by decide) rest
  | cons c cs ih =>
    have hread := ih fun d hd => hline d (List.mem_cons_of_mem _ hd)
    rw [escapeQuoted_cons]
    split
    · rw [List.cons_append, List.cons_append, readText?_escape, hread]
      rfl
    · next hspecial =>
      obtain ⟨hslash, hquote⟩ := not_or.1 hspecial
      rw [List.cons_append, readText?_cons hslash hquote, hread]
      · rfl
      · have hc := hline c (List.mem_cons_self ..)
        rintro (⟨heq, -⟩ | ⟨-, hend⟩)
        · exact absurd heq (by decide)
        · rw [hc] at hend
          cases hend

/-! ### Overloads -/

def OneLine (s : String) : Prop := ∀ c ∈ s.toList, Literal.isLineEnd c = false

instance (s : String) : Decidable (OneLine s) := List.decidableBAll _ s.toList

/-- What is written in quotes for an argument is on one line. -/
def Argument.OneLine : Argument → Prop
  | gql _ => True
  | load path => Entrypoint.OneLine path

theorem readArgument?_signature {a : Argument} (h : a.OneLine) (rest : List Char) :
    readArgument? (a.opening ++ a.quote :: (a.inside ++ a.quote :: rest)) = some (a, rest) := by
  cases a with
  | gql text =>
    have hopening : (Argument.gql text).opening ++ (Argument.gql text).quote ::
        ((Argument.gql text).inside ++ (Argument.gql text).quote :: rest) =
        "gql(gql: `".toList ++ (escapeTemplate text.toList ++ '`' :: rest) := rfl
    rw [hopening, readArgument?, after?_append]
    dsimp only
    rw [readText?_escapeTemplate, Option.map_some, String.ofList_toList]
  | load path =>
    have hopening : (Argument.load path).opening ++ (Argument.load path).quote ::
        ((Argument.load path).inside ++ (Argument.load path).quote :: rest) =
        "load(path: '".toList ++ (escapeQuoted path.toList ++ '\'' :: rest) := rfl
    rw [hopening, readArgument?, show after? "gql(gql: `".toList ("load(path: '".toList ++
      (escapeQuoted path.toList ++ '\'' :: rest)) = none from rfl]
    dsimp only
    rw [after?_append, Option.bind_some, readText?_escapeQuoted h, Option.map_some,
      String.ofList_toList]

theorem toList_renderOverload (n : Nat) (o : Overload) (rest : List Char) :
    (renderOverload n o).toList ++ rest = s!"import * as T{n} from '".toList ++
      (escapeQuoted o.module.toList ++ '\'' :: (";\nexport declare function ".toList ++
        (o.argument.opening ++ o.argument.quote :: (o.argument.inside ++ o.argument.quote ::
          ((s!"): T{n}." ++ injectedType ++ ";\n").toList ++ rest))))) := by
  have hend : "';\n".toList = '\'' :: ";\n".toList := by decide
  have hfunction : ";\nexport declare function ".toList =
      ";\n".toList ++ "export declare function ".toList := by decide
  have hclose : (toString "): T").toList = ')' :: (toString ": T").toList :=
    (by decide : "): T".toList = ')' :: ": T".toList)
  -- its equation is too much for the simplifier
  unfold renderOverload
  simp only [String.toList_append, String.toList_ofList, List.append_assoc, List.cons_append,
    List.nil_append, Argument.toList_signature, hend, hfunction, hclose]

theorem readOverload?_renderOverload (h : OneLine o.module ∧ o.argument.OneLine) (n : Nat)
    (rest : List Char) :
    readOverload? n ((renderOverload n o).toList ++ rest) = some (o, rest) := by
  simp only [toList_renderOverload, readOverload?, after?_append, readText?_escapeQuoted h.1,
    readArgument?_signature h.2, Option.bind_eq_bind, Option.bind_some, String.ofList_toList]
  rfl

theorem exists_renderOverload_append (n : Nat) (o : Overload) (rest : List Char) :
    ∃ cs, (renderOverload n o).toList ++ rest = 'i' :: cs := by
  have hopening : (toString "import * as T").toList = 'i' :: "mport * as T".toList :=
    (by decide : "import * as T".toList = 'i' :: "mport * as T".toList)
  rw [toList_renderOverload, String.toList_append, String.toList_append, hopening]
  exact ⟨_, rfl⟩

theorem length_le_renderFrom (n : Nat) (os : List Overload) :
    os.length ≤ (renderFrom n os).toList.length := by
  induction os generalizing n with
  | nil => exact Nat.zero_le _
  | cons o os ih =>
    obtain ⟨cs, hcs⟩ := exists_renderOverload_append n o []
    rw [List.append_nil] at hcs
    have hrest := ih (n + 1)
    rw [renderFrom, String.toList_append, hcs, List.length_append, List.length_cons, List.length_cons]
    omega

theorem readOverloads?_succ (hcs : cs ≠ []) (limit n : Nat) : readOverloads? (limit + 1) n cs =
    (readOverload? n cs).bind fun (o, rest) =>
      (readOverloads? limit (n + 1) rest).bind fun os => some (o :: os) := by
  cases cs with
  | nil => exact absurd rfl hcs
  | cons c cs => rfl

/-- What is rendered one after another is read so. -/
theorem readOverloads?_renderFrom (h : ∀ o ∈ os, OneLine o.module ∧ o.argument.OneLine)
    {limit : Nat} (hlimit : os.length ≤ limit) (n : Nat) :
    readOverloads? limit n (renderFrom n os).toList = some os := by
  induction os generalizing limit n with
  | nil => cases limit <;> rfl
  | cons o os ih =>
    obtain ⟨limit, rfl⟩ : ∃ k, limit = k + 1 := ⟨limit - 1, by
      rw [List.length_cons] at hlimit
      omega⟩
    have hread := readOverload?_renderOverload (h o (List.mem_cons_self ..)) n
      (renderFrom (n + 1) os).toList
    have hrest := ih (fun o' ho' => h o' (List.mem_cons_of_mem _ ho'))
      (Nat.le_of_succ_le_succ hlimit) (n + 1)
    obtain ⟨cs, hcs⟩ := exists_renderOverload_append n o (renderFrom (n + 1) os).toList
    rw [renderFrom, String.toList_append, readOverloads?_succ (hcs ▸ List.cons_ne_nil _ _), hread,
      Option.bind_some]
    dsimp only
    rw [hrest, Option.bind_some]

theorem read?_of_oneLine (h : ∀ o ∈ overloads m x, OneLine o.module ∧ o.argument.OneLine) :
    read? (render m x) = some (overloads m x) := by
  rw [render]
  split
  · next hnil =>
    rw [read?, String.toList_append, after?_append, Option.bind_some, if_pos rfl, hnil]
  · next os hne =>
    cases hos : overloads m x with
    | nil => exact absurd hos hne
    | cons o os =>
      obtain ⟨cs, hcs⟩ := exists_renderOverload_append 0 o (renderFrom 1 os).toList
      have hhead : (renderFrom 0 (o :: os)).toList = 'i' :: cs := by
        rw [renderFrom, String.toList_append, hcs]
      have hexport : (renderFrom 0 (o :: os)).toList ≠ "export {};\n".toList := by
        rw [hhead]
        exact fun heq => absurd (List.cons.inj heq).1 (by decide)
      have hnil : (renderFrom 0 (o :: os)).toList ≠ [] := by
        rw [hhead]
        exact List.cons_ne_nil _ _
      rw [hos] at h
      rw [read?, String.toList_append, after?_append, Option.bind_some, if_neg hexport,
        if_neg hnil, readOverloads?_renderFrom h (length_le_renderFrom 0 _)]

/-! ### Modules -/

theorem exists_name_of_suffix (h : declarationSuffix <:+ dts.text.toList) :
    ∃ (init : List String) (n : String), dts.place = init ++ [n] ∧ declarationSuffix <:+ n.toList := by
  have hslash : '/' ∉ declarationSuffix := by decide
  obtain ⟨init, last, hsegs⟩ := (List.eq_nil_or_concat dts.segments).resolve_left dts.segments_ne_nil
  rw [List.concat_eq_append] at hsegs
  have hlast : declarationSuffix <:+ last.toList := by
    rw [← ofSegments_segments dts, hsegs] at h
    by_cases hnil : init = []
    · rwa [hnil, List.nil_append, ofSegments, String.intercalate_singleton] at h
    · rw [ofSegments_concat hnil, String.append_assoc, String.toList_append] at h
      have hwhole : '/' :: last.toList <:+ (ofSegments init).text.toList ++ ("/" ++ last).toList := by
        rw [String.toList_append]
        exact List.suffix_append _ _
      rcases List.suffix_or_suffix_of_suffix h hwhole with hshort | hlong
      · rcases List.suffix_cons_iff.1 hshort with heq | hshort
        · exact absurd (heq ▸ List.mem_cons_self ..) hslash
        · exact hshort
      · exact absurd (hlong.mem (List.mem_cons_self ..)) hslash
  have hname : IsName last := by
    refine isName_of_two_lt_length (not_mem_of_mem_segments (p := dts) (by simp [hsegs])) ?_
    have hlength : declarationSuffix.length ≤ last.length := hlast.length_le
    exact Nat.lt_of_lt_of_le (by decide) hlength
  refine ⟨init.foldl Place.follow [], last, ?_, hlast⟩
  rw [place, placeFrom, hsegs, List.foldl_concat, follow_of_isName hname]

section Module
variable (hdir : dir.Descends) (hdts : dts.Descends)
include hdir hdts

theorem escapesRoot_moduleName {segs : List String} {n : String}
    (hsegs : between dir.place dts.place = segs ++ [n]) (hn : declarationSuffix <:+ n.toList) :
    (dir / ⟨moduleName dir dts ++ ".d.ts"⟩).escapesRoot = false := by
  have hnames := isName_of_mem_place (p := dts)
  have hplain := plain_between dir.place hnames
  have hne : between dir.place dts.place ≠ [] := by simp [hsegs]
  have hrelative := relative_eq hdir.not_escapesRoot hdts.not_escapesRoot
  have hsegments := segments_ofSegments (fun s hs => (hplain s hs).1) hne
  have hclimbs := climbsAbove_between dir.place hnames
  rcases moduleName_append hdir.not_escapesRoot hdts.not_escapesRoot hsegs hn with heq | heq
  · cases hr : relative dir dts with | mk text =>
    rw [hr] at heq hrelative
    rw [heq, hrelative]
    refine escapesRoot_join hdir (isAbsolute_of_plain hplain) ?_
    rw [hsegments]
    exact hclimbs
  · rw [heq]
    refine escapesRoot_join hdir (isAbsolute_current _) ?_
    rw [inside_current, hrelative, hsegments]
    exact hclimbs

/-- Followed from the directory, the module is the declaration file. -/
theorem normalize_moduleName (hsuffix : declarationSuffix <:+ dts.text.toList)
    (hapart : ¬dts.place <+: dir.place) :
    (dir / ⟨moduleName dir dts ++ ".d.ts"⟩).normalize = dts.normalize := by
  obtain ⟨init, n, hplace, hn⟩ := exists_name_of_suffix hsuffix
  have hplaces := place_moduleName ⟨"/"⟩ hdir.not_escapesRoot hdts.not_escapesRoot hplace hn hapart
  rw [hplace] at hapart
  obtain ⟨segs, hsegs⟩ := exists_between_concat hapart
  rw [← hplace] at hsegs
  have hescapes := escapesRoot_moduleName hdir hdts hsegs hn
  have hroot : Path.place ⟨"/"⟩ = [] := by decide +kernel
  rw [place_join (Bool.or_eq_false_iff.1 hescapes).1, place_join hdts.relative, hroot] at hplaces
  rw [normalize_of_not_escapesRoot hescapes, normalize_of_not_escapesRoot hdts.not_escapesRoot]
  exact congrArg ofSegments hplaces

/-- A relative path has only characters of its target, dots and slashes. -/
theorem mem_relative (h : c ∈ (relative dir dts).text.toList) :
    c ∈ dts.text.toList ∨ c = '/' ∨ c = '.' := by
  have hnormal : ∀ p : Path, p.Descends → p.normalize.components = p.place.map .name := fun p hp => by
    rw [normalize_of_not_escapesRoot hp.not_escapesRoot, components_ofSegments isName_of_mem_place]
  rw [relative, hnormal dir hdir, hnormal dts hdts] at h
  rcases mem_ofComponents h with rfl | ⟨part, hpart, hc⟩
  · exact .inr (.inl rfl)
  · rcases List.mem_append.1 hpart with hpart | hpart
    · rw [List.eq_of_mem_replicate hpart] at hc
      exact .inr (.inr (by simpa [Component.text] using hc))
    · obtain ⟨s, hs, rfl⟩ := List.mem_map.1 (List.mem_of_mem_drop hpart)
      have hname : .name s ∈ dts.components := by
        rcases hdts.components_cases with heq | heq <;> rw [heq] <;> simp [hs]
      exact .inl (mem_of_mem_segments (mem_segments_of_mem_components hname).1 hc)

theorem mem_moduleName (h : c ∈ (moduleName dir dts).toList) :
    c ∈ dts.text.toList ∨ c = '/' ∨ c = '.' := by
  have hslash : ∀ d ∈ (relative dir dts).toSlash.toList, d ∈ dts.text.toList ∨ d = '/' ∨ d = '.' :=
    fun d hd => (mem_of_mem_toSlash hd).elim (mem_relative hdir hdts) .inr
  have hdrop : ∀ (k : Nat) (cs : List Char), (∀ d ∈ cs, d ∈ dts.text.toList ∨ d = '/' ∨ d = '.') →
      ∀ d ∈ (if declarationSuffix.isSuffixOf cs then cs.take k else cs),
        d ∈ dts.text.toList ∨ d = '/' ∨ d = '.' := by
    intro k cs hcs d hd
    split at hd
    · exact hcs d (List.mem_of_mem_take hd)
    · exact hcs d hd
  have hdots : ∀ cs : List Char, (∀ d ∈ cs, d ∈ dts.text.toList ∨ d = '/' ∨ d = '.') →
      ∀ d ∈ (if ['.', '.', '/'].isPrefixOf cs then cs else '.' :: '/' :: cs),
        d ∈ dts.text.toList ∨ d = '/' ∨ d = '.' := by
    intro cs hcs d hd
    split at hd
    · exact hcs d hd
    · rcases List.mem_cons.1 hd with rfl | hd
      · exact .inr (.inr rfl)
      · rcases List.mem_cons.1 hd with rfl | hd
        · exact .inr (.inl rfl)
        · exact hcs d hd
  rw [moduleName, String.toList_ofList] at h
  exact hdots _ (hdrop _ _ hslash) c h

end Module

theorem prefix_moduleName (dir dts : Path) : ['.', '/'] <+: (moduleName dir dts).toList ∨
    ['.', '.', '/'] <+: (moduleName dir dts).toList := by
  have hdots : ∀ cs : List Char,
      ['.', '/'] <+: (if ['.', '.', '/'].isPrefixOf cs then cs else '.' :: '/' :: cs) ∨
        ['.', '.', '/'] <+: (if ['.', '.', '/'].isPrefixOf cs then cs else '.' :: '/' :: cs) := by
    intro cs
    split
    · next h => exact .inr (List.isPrefixOf_iff_prefix.1 h)
    · exact .inl ⟨cs, rfl⟩
  rw [moduleName, String.toList_ofList]
  exact hdots _

/-! ### Entrypoints -/

/-- The rows of a manifest in their order: by path, and those of one path by hash. -/
theorem pairwise_toList (m : Manifest) : m.toList.Pairwise fun e f =>
    e.1.compare f.1 = .lt ∨ e.1 = f.1 ∧ e.2.1.compare f.2.1 = .lt := by
  rw [Manifest.toList, List.pairwise_flatMap]
  refine ⟨fun e _ => ?_, m.sources.sorted.imp fun hlt e he f hf => ?_⟩
  · obtain ⟨source, rows⟩ := e
    exact List.pairwise_map.2 (rows.sorted.imp fun hlt => .inr ⟨rfl, hlt⟩)
  · obtain ⟨_, -, rfl⟩ := List.mem_map.1 he
    obtain ⟨_, -, rfl⟩ := List.mem_map.1 hf
    exact .inl hlt

/-- What is asked of a row, so that an entrypoint with it can be read. -/
structure Readable (row : Row) : Prop where
  descends : row.dts.Descends
  suffix : declarationSuffix <:+ row.dts.text.toList
  line : OneLine row.dts.text
  argument : ∀ a ∈ argument? row, a.OneLine

/-- An entrypoint is read back as one overload for each row that has an argument, in the order of the
rows, with this very argument. Its module is named from the directory of the entrypoint, and it leads
to the declaration file of the row, unless that is this directory or one above it. -/
theorem read?_render (hx : x.Descends) {n : String} (hname : x.fileName? = some n)
    (hrows : ∀ e ∈ m.toList, Readable e.2.2) :
    let dir := x.parent?.getD ⟨""⟩
    (m.toList.Pairwise fun e f =>
      e.1.compare f.1 = .lt ∨ e.1 = f.1 ∧ e.2.1.compare f.2.1 = .lt) ∧
    read? (render m x) = some (m.toList.filterMap fun e =>
      (argument? e.2.2).map fun a => ⟨a, moduleName dir e.2.2.dts⟩) ∧
    ∀ e ∈ m.toList, (['.', '/'] <+: (moduleName dir e.2.2.dts).toList ∨
        ['.', '.', '/'] <+: (moduleName dir e.2.2.dts).toList) ∧
      (¬e.2.2.dts.place <+: dir.place →
        (dir / ⟨moduleName dir e.2.2.dts ++ ".d.ts"⟩).normalize = e.2.2.dts.normalize) := by
  have hdir := hx.parent? hname
  refine ⟨pairwise_toList m, read?_of_oneLine fun o ho => ?_, fun e he =>
    ⟨prefix_moduleName _ _, fun hapart =>
      normalize_moduleName hdir (hrows e he).descends (hrows e he).suffix hapart⟩⟩
  obtain ⟨p, h, row, hmem, hrow⟩ := mem_overloads.1 ho
  obtain ⟨a, ha, rfl⟩ := Option.map_eq_some_iff.1 hrow
  have hreadable := hrows _ hmem
  refine ⟨fun c hc => ?_, hreadable.argument a ha⟩
  rcases mem_moduleName hdir hreadable.descends hc with hc | rfl | rfl
  · exact hreadable.line c hc
  · rfl
  · rfl

namespace Sample

/-- A literal of nothing but special characters, and a file with a quote in its name. -/
def special : Manifest :=
  ((Manifest.empty "1").record ⟨"a"⟩ default ⟨⟨"a.tsx"⟩, ⟨"d/a.d.ts"⟩, some "`$\x7b\\", none⟩).record
    ⟨"b"⟩ default ⟨⟨"b.tsx"⟩, ⟨"./it's.d.ts"⟩, none, some "it's.gql"⟩

theorem readable_special : ∀ e ∈ special.toList, Readable e.2.2 := by
  have hrows : special.toList.map (fun e => e.2.2) =
      [⟨⟨"a.tsx"⟩, ⟨"d/a.d.ts"⟩, some "`$\x7b\\", none⟩,
        ⟨⟨"b.tsx"⟩, ⟨"./it's.d.ts"⟩, none, some "it's.gql"⟩] := by decide +kernel
  intro e he
  have hrow := List.mem_map_of_mem (f := fun e : Path × ContentHash × Row => e.2.2) he
  rw [hrows] at hrow
  rcases List.mem_cons.1 hrow with heq | hrow
  · rw [heq]
    refine ⟨⟨by decide +kernel, by decide +kernel⟩, by decide +kernel, by decide +kernel, ?_⟩
    rintro a ⟨⟩
    trivial
  · rw [List.mem_singleton.1 hrow]
    refine ⟨⟨by decide +kernel, by decide +kernel⟩, by decide +kernel, by decide +kernel, ?_⟩
    rintro a ⟨⟩
    show OneLine _
    decide +kernel

/-- A row whose declaration file has the name of the directory of the entrypoint. -/
def above : Row := ⟨⟨"a.tsx"⟩, ⟨"a.d.ts"⟩, none, some "${a}.graphql"⟩

end Sample

theorem read?_render_sample : Path.Descends ⟨"d/g.d.ts"⟩ ∧
    Path.fileName? ⟨"d/g.d.ts"⟩ = some "g.d.ts" ∧ (∀ e ∈ Sample.special.toList, Readable e.2.2) ∧
    read? (render Sample.special ⟨"d/g.d.ts"⟩) =
      some [⟨.gql "`$\x7b\\", "./a"⟩, ⟨.load "it's.gql", "../it's"⟩] := by
  have hx : Path.Descends ⟨"d/g.d.ts"⟩ := ⟨by decide +kernel, by decide +kernel⟩
  have hname : Path.fileName? ⟨"d/g.d.ts"⟩ = some "g.d.ts" := by decide +kernel
  obtain ⟨-, hread, -⟩ := read?_render hx hname Sample.readable_special
  refine ⟨hx, hname, Sample.readable_special, hread.trans ?_⟩
  decide +kernel

/-- An entrypoint that lies below a declaration file does not lead to it, and a placeholder in quotes,
where it means nothing, is not escaped. -/
theorem below_declaration : Path.Descends ⟨"a.d.ts/g.d.ts"⟩ ∧
    Path.fileName? ⟨"a.d.ts/g.d.ts"⟩ = some "g.d.ts" ∧ Readable Sample.above ∧
    render ((Manifest.empty "1").record ⟨"a"⟩ default Sample.above) ⟨"a.d.ts/g.d.ts"⟩ =
      header ++ renderOverload 0 ⟨.load "${a}.graphql", "./"⟩ ∧
    signature (.load "${a}.graphql") = "load(path: '${a}.graphql')" ∧
    (⟨"a.d.ts"⟩ / ⟨"./.d.ts"⟩ : Path).normalize = ⟨"a.d.ts/.d.ts"⟩ ∧
    Sample.above.dts.normalize = ⟨"a.d.ts"⟩ := by
  refine ⟨⟨by decide +kernel, by decide +kernel⟩, by decide +kernel,
    ⟨⟨by decide +kernel, by decide +kernel⟩, by decide +kernel, by decide +kernel, ?_⟩,
    by decide +kernel⟩
  rintro a ⟨⟩
  show OneLine _
  decide +kernel

end Entrypoint

end GqlArtifacts
