import GqlArtifacts.Config.Resolved
import GqlArtifacts.Proofs.Files.Reading
import GqlArtifacts.Proofs.Path.Normal

/-!
# The directories of a configuration

A configuration that loads has passed its checks (`check_of_load`), and a checked path has an inner
normal form. So the project root of a resolved configuration is rooted, and its directories and its
entrypoint are inner paths (`Resolved.Inside`).

The checks look at no file names. An entrypoint that leads back to the root, like `.`, passes, and a
write to it would go to a temporary file beside the root (`entrypoint_nameless`). A name of two dots
and an extension leaves no name for a temporary file (`Path.TwoDots`). Apart from these two, the
entrypoint and its temporary file lie below the root (`directories_inside`).
-/

namespace GqlArtifacts

open Files

/-! ### Temporary files -/

namespace Path

/-- A name without an extension, or the parts before and after its last dot. -/
theorem splitExtension_cases (n : String) : splitExtension n = (n, none) ∨
    ∃ stem ext, n.toList = stem ++ '.' :: ext ∧ '.' ∉ ext ∧
      splitExtension n = (String.ofList stem, some (String.ofList ext)) := by
  have hsplit := congrArg List.reverse
    (List.takeWhile_append_dropWhile (p := (· != '.')) (l := n.toList.reverse))
  have hhead := List.head?_dropWhile_not (· != '.') n.toList.reverse
  have hdots : '.' ∉ (n.toList.reverse.takeWhile (· != '.')).reverse := fun hmem =>
    absurd (List.all_eq_true.1 List.all_takeWhile _ (List.mem_reverse.1 hmem)) (by simp)
  rw [List.reverse_append, List.reverse_reverse] at hsplit
  simp only [splitExtension, Text.chars_eq]
  generalize (n.toList.reverse.takeWhile (· != '.')).reverse = ext at *
  cases hrest : n.toList.reverse.dropWhile (· != '.') with
  | nil =>
    rw [hrest, List.reverse_nil, List.nil_append] at hsplit
    refine .inl (if_pos ?_)
    rw [hsplit, Nat.sub_self, Nat.zero_sub, List.take_zero]
    rfl
  | cons c stem =>
    rw [hrest] at hsplit hhead
    obtain rfl : c = '.' := by simpa using hhead
    rw [List.reverse_cons, List.append_assoc, List.singleton_append] at hsplit
    have htake : n.toList.take (n.toList.length - ext.length - 1) = stem.reverse := by
      rw [← hsplit, List.length_append, List.length_cons]
      exact List.take_left' (by omega)
    rw [htake]
    split
    · exact .inl rfl
    · exact .inr ⟨stem.reverse, ext, hsplit.symm, hdots, rfl⟩

/-- Two dots and an extension, which may be empty. -/
def TwoDots (n : String) : Prop := n.toList.take 2 = ['.', '.'] ∧ '.' ∉ n.toList.drop 2

instance (n : String) : Decidable (TwoDots n) :=
  inferInstanceAs (Decidable (n.toList.take 2 = ['.', '.'] ∧ '.' ∉ n.toList.drop 2))

/-- Only a name of two dots and an extension has a single dot before its extension. -/
theorem twoDots_of_splitExtension {n : String} (hstem : (splitExtension n).1 = ".")
    (hext : (splitExtension n).2.isSome = true) : TwoDots n := by
  rcases splitExtension_cases n with h | ⟨stem, ext, hn, hdots, h⟩
  · rw [h] at hext
    cases hext
  · rw [h] at hstem
    obtain rfl : stem = ['.'] := by simpa using congrArg String.toList hstem
    rw [TwoDots, hn]
    exact ⟨rfl, hdots⟩

/-- The temporary file of a path has another name in the same place. -/
theorem temporaryPath_eq {p : Path} {init : List String} {n : String} (h : p.segments = init ++ [n])
    (hn : IsName n) (hdots : ¬TwoDots n) :
    ∃ n', IsName n' ∧ n'.toList.getLast? = some 'p' ∧ temporaryPath p = ofSegments (init ++ [n']) := by
  have hslash := not_mem_splitExtension hn.1
  have hext : '/' ∉ ((p.extension?.getD "tmp") ++ ".tmp").toList := by
    rw [extension?, fileName?_eq h hn, Option.bind_some]
    cases hx : (splitExtension n).2 with
    | none => decide
    | some ext =>
      rw [Option.getD_some, String.toList_append, List.mem_append, not_or]
      exact ⟨hslash.2 ext hx, by decide⟩
  rw [temporaryPath]
  generalize he : (p.extension?.getD "tmp") ++ ".tmp" = e at hext
  have hlen : 4 ≤ e.length := by
    rw [← he, String.length_append]
    exact Nat.le_add_left ..
  have hne : e ≠ "" := by
    rintro rfl
    exact absurd hlen (by decide)
  have hlast : e.toList.getLast? = some 'p' := by
    rw [← he, String.toList_append, List.getLast?_append]
    rfl
  refine ⟨(splitExtension n).1 ++ "." ++ e, isName_of_two_lt_length ?_ ?_, ?_, ?_⟩
  · rw [String.toList_append, String.toList_append, List.mem_append, List.mem_append, not_or, not_or]
    exact ⟨⟨hslash.1, by decide⟩, hext⟩
  · rw [String.length_append]
    omega
  · rw [String.toList_append, List.getLast?_append, hlast, Option.some_or]
  · simp only [withExtension, fileName?_eq h hn, splitLast?_eq h hn, if_neg hne]
    exact if_neg fun hcase => hdots (twoDots_of_splitExtension hcase.1 hcase.2.1)

end Path

/-! ### Checks -/

namespace Config

variable {lookup : String → Option String} {text : String} {l : Loaded} {c : Config} {dir : Path}

theorem check_of_load (h : Config.load lookup text = .ok l) : l.config.check = .ok () := by
  rw [load] at h
  obtain ⟨text', -, h⟩ := bind_eq_ok.1 h
  cases hfields : Toml.parse? text' with
  | none => rw [hfields] at h; cases h
  | some fields =>
    rw [hfields] at h
    obtain ⟨c, -, h⟩ := bind_eq_ok.1 h
    obtain ⟨_, hcheck, h⟩ := bind_eq_ok.1 h
    cases h
    exact hcheck

theorem not_escapesRoot_of_checkPath {field value : String} (h : checkPath field value = .ok ()) :
    (Path.mk value).escapesRoot = false := by
  unfold checkPath at h
  split at h
  · cases h
  · split at h
    · cases h
    · next hescapes => exact Bool.not_eq_true _ ▸ hescapes

theorem checkDocument_of_forM {globs : List String} (h : globs.forM checkDocument = .ok ()) :
    ∀ glob ∈ globs, checkDocument glob = .ok () := by
  induction globs with
  | nil => simp
  | cons glob globs ih =>
    change (checkDocument glob >>= fun _ => globs.forM checkDocument) = .ok () at h
    obtain ⟨_, hfirst, hrest⟩ := bind_eq_ok.1 h
    exact List.forall_mem_cons.2 ⟨hfirst, ih hrest⟩

/-- What a checked configuration keeps inside the project. -/
structure Checked (c : Config) : Prop where
  documents : ∀ glob ∈ c.documents, (Path.mk glob).escapesRoot = false
  cacheDir : (Path.mk c.cacheDir).escapesRoot = false
  typesDir : (Path.mk c.typesDir).escapesRoot = false
  entrypoint : (Path.mk c.entrypoint).escapesRoot = false

theorem checked_of_check (h : c.check = .ok ()) : c.Checked := by
  have hrest : (do
      c.documents.forM checkDocument
      checkPath "cache_dir" c.cacheDir
      checkPath "gen_dts_dir" c.typesDir
      checkPath "type_inject_entrypoint" c.entrypoint
      if Text.isBlank c.backend.command then throw (.missing "backend.command")) =
      (.ok () : Except Error Unit) := by
    simp only [check] at h
    split at h
    · cases h
    · split at h
      · cases h
      · split at h
        · cases h
        · exact h
  obtain ⟨_, hdocs, h⟩ := bind_eq_ok.1 hrest
  obtain ⟨_, hcache, h⟩ := bind_eq_ok.1 h
  obtain ⟨_, htypes, h⟩ := bind_eq_ok.1 h
  obtain ⟨_, hentry, -⟩ := bind_eq_ok.1 h
  refine ⟨fun glob hglob => ?_, not_escapesRoot_of_checkPath hcache,
    not_escapesRoot_of_checkPath htypes, not_escapesRoot_of_checkPath hentry⟩
  have hglob := checkDocument_of_forM hdocs glob hglob
  rw [checkDocument] at hglob
  split at hglob
  · cases hglob
  · next hescapes => exact Bool.not_eq_true _ ▸ hescapes

end Config

/-! ### Resolved directories -/

namespace Config

/-- Everything that a project writes to is inside its root. -/
structure Resolved.Inside (r : Resolved) : Prop where
  root : r.root.Rooted
  cacheDir : r.cacheDir.Inner
  typesDir : r.typesDir.Inner
  entrypoint : r.entrypoint.Inner

theorem resolve_inside (hload : Config.load lookup text = .ok l) (hdir : dir.isAbsolute = true) :
    (l.resolve dir).Inside := by
  have hchecked := checked_of_check (check_of_load hload)
  refine ⟨?_, Path.inner_normalize hchecked.cacheDir, Path.inner_normalize hchecked.typesDir,
    Path.inner_normalize hchecked.entrypoint⟩
  simp only [Loaded.resolve]
  split
  · exact Path.rooted_normalize (Path.isAbsolute_join_left hdir)
  · exact Path.rooted_normalize hdir

/-- The root and the directories of an accepted configuration are where they should be. An entrypoint
that is not the root has a name and lies below the root, and so does its temporary file, if the name
is not two dots and an extension. -/
theorem directories_inside (hload : Config.load lookup text = .ok l) (hdir : dir.isAbsolute = true) :
    (l.resolve dir).Inside ∧ ((l.resolve dir).entrypoint.text ≠ "" →
      ∃ n, (l.resolve dir).entrypoint.fileName? = some n ∧
        ((l.resolve dir).root / (l.resolve dir).entrypoint).Below (l.resolve dir).root ∧
        (¬Path.TwoDots n → (temporaryPath ((l.resolve dir).root / (l.resolve dir).entrypoint)).Below
          (l.resolve dir).root)) := by
  have hinside := resolve_inside hload hdir
  refine ⟨hinside, fun hne => ?_⟩
  generalize l.resolve dir = r at *
  obtain ⟨init, n, hnames, hsegs, hn, -⟩ := hinside.entrypoint.exists_init hne
  have hbelow := Path.below_join hinside.root.nonempty hinside.entrypoint hne
  refine ⟨n, Path.fileName?_eq hsegs hn, hbelow, fun hdots => ?_⟩
  obtain ⟨before, hjoined⟩ := Path.exists_segments_join (p := r.root) hinside.entrypoint.relative hsegs
  obtain ⟨n', hn', -, htemporary⟩ := Path.temporaryPath_eq hjoined hn hdots
  rw [htemporary]
  rw [← Path.ofSegments_segments (r.root / r.entrypoint), hjoined] at hbelow
  exact hbelow.of_segments hn hn'

/-! ### Two configurations -/

theorem exists_of_toOption_map {ε α β : Type} {x : Except ε α} {f : α → β} {b : β}
    (h : x.toOption.map f = some b) : ∃ a, x = .ok a ∧ f a = b := by
  cases x with
  | error e => cases h
  | ok a => exact ⟨a, rfl, Option.some.inj h⟩

/-- A configuration with an entrypoint of choice. -/
def sampleText (entrypoint : String) : String :=
  "schema = \"s\"\ndocuments = \"d\"\nplugins = [\"p\"]\ntype_inject_entrypoint = \"" ++ entrypoint ++
    "\"\n"

/-- What a configuration that loads in a directory makes of its root and its entrypoint. -/
def sampleRoot? (entrypoint : String) : Option (Path × Path) :=
  (Config.load (fun _ => none) (sampleText entrypoint)).toOption.map fun l =>
    ((l.resolve ⟨"/w/../p"⟩).root, (l.resolve ⟨"/w/../p"⟩).entrypoint)

/-- The checks let through parts that cancel out, and these are gone when the paths are resolved. -/
theorem directories_inside_sample : ∃ l, Config.load (fun _ => none) (sampleText "t/.././g.d.ts") = .ok l ∧
    (Path.mk "/w/../p").isAbsolute = true ∧ (l.resolve ⟨"/w/../p"⟩).Inside ∧
    (l.resolve ⟨"/w/../p"⟩).root = ⟨"/p"⟩ ∧ (l.resolve ⟨"/w/../p"⟩).entrypoint = ⟨"g.d.ts"⟩ ∧
    (temporaryPath ((l.resolve ⟨"/w/../p"⟩).root / (l.resolve ⟨"/w/../p"⟩).entrypoint)).Below
      (l.resolve ⟨"/w/../p"⟩).root := by
  have hroot : sampleRoot? "t/.././g.d.ts" = some (⟨"/p"⟩, ⟨"g.d.ts"⟩) := by decide +kernel
  obtain ⟨l, hload, heq⟩ := exists_of_toOption_map hroot
  obtain ⟨hr, he⟩ := Prod.mk.inj heq
  have habs : (Path.mk "/w/../p").isAbsolute = true := by decide +kernel
  obtain ⟨hinside, hentry⟩ := directories_inside hload habs
  obtain ⟨n, hn, -, htemporary⟩ := hentry (by rw [he]; decide)
  refine ⟨l, hload, habs, hinside, hr, he, htemporary ?_⟩
  rw [he, show Path.fileName? ⟨"g.d.ts"⟩ = some "g.d.ts" by decide +kernel] at hn
  rw [← Option.some.inj hn]
  decide +kernel

/-- An entrypoint that is the root itself is accepted, has no name, and its temporary file would lie
outside. -/
theorem entrypoint_nameless : ∃ l, Config.load (fun _ => none) (sampleText ".") = .ok l ∧
    (Path.mk "/w/../p").isAbsolute = true ∧ (l.resolve ⟨"/w/../p"⟩).entrypoint.fileName? = none ∧
    temporaryPath ((l.resolve ⟨"/w/../p"⟩).root / (l.resolve ⟨"/w/../p"⟩).entrypoint) =
      ⟨"/p.tmp.tmp"⟩ ∧
    ¬(temporaryPath ((l.resolve ⟨"/w/../p"⟩).root / (l.resolve ⟨"/w/../p"⟩).entrypoint)).Below
      (l.resolve ⟨"/w/../p"⟩).root := by
  have hroot : sampleRoot? "." = some (⟨"/p"⟩, ⟨""⟩) := by decide +kernel
  obtain ⟨l, hload, heq⟩ := exists_of_toOption_map hroot
  obtain ⟨hr, he⟩ := Prod.mk.inj heq
  have htemporary : temporaryPath (Path.mk "/p" / Path.mk "") = ⟨"/p.tmp.tmp"⟩ := by
    decide +kernel
  rw [← hr, ← he] at htemporary
  refine ⟨l, hload, by decide +kernel, by rw [he]; decide +kernel, htemporary, ?_⟩
  rintro ⟨ns, -, -, hcomps⟩
  have hprefix : (Path.mk "/p").components <+: (Path.mk "/p.tmp.tmp").components :=
    ⟨ns.map .name, by rw [← htemporary, ← hr, hcomps, hr]⟩
  exact absurd hprefix (by decide +kernel)

/-- Nor does a name of two dots and an extension have a temporary file beside it. -/
example : temporaryPath ⟨"/w/app/..x"⟩ = ⟨"/w/app/.."⟩ := by decide +kernel

end Config

end GqlArtifacts
