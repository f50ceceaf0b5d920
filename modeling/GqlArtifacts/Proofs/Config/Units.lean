import GqlArtifacts.Proofs.Config.Directories
import GqlArtifacts.Proofs.Discovery
import GqlArtifacts.Proofs.Glob.Inside
import GqlArtifacts.Proofs.Session.Confined

/-!
# The units of a project lie inside it

When no pattern of an accepted configuration can climb above the project root, every unit that
discovery finds has a logical path. So its artifacts lie below the two directories, and whatever a run
for these units comes to, it puts no file anywhere else, apart from the entrypoint
(`units_inside`). The checks of a configuration do not ask for this: schema patterns are not checked
at all, and a document pattern is checked as if it were a path, whose wildcards are names.
-/

namespace GqlArtifacts

open Files

/-! ### Artifacts below their directory -/

namespace Path

variable {p q : Path} {ns : List String} {init : List String} {n : String}

theorem empty_join (hq : q.isAbsolute = false) : (⟨""⟩ / q : Path) = q := by
  show join ⟨""⟩ q = q
  rw [join, if_neg (by simp [hq]), if_pos (.inl (by simp)), String.empty_append]

theorem components_join_ofSegments (p : Path) (h : ∀ s ∈ ns, IsName s) :
    (p / ofSegments ns).components = p.components ++ ns.map .name := by
  have hrel := isAbsolute_ofSegments h
  by_cases hp : p.text = ""
  · rw [show p = ⟨""⟩ from congrArg Path.mk hp, empty_join hrel, components_ofSegments h]
    rfl
  · rw [components_join hp hrel]
    by_cases hns : ns = []
    · rw [hns]
      rfl
    · rw [segments_ofSegments (fun s hs => (h s hs).1) hns, inside_of_isName h]

theorem Inner.not_escapesRoot (h : p.Inner) : p.escapesRoot = false := by
  rw [escapesRoot, h.relative, h.components_eq, climbsAbove_map_name]
  rfl

/-- The temporary file of a path lies beside it. -/
theorem place_temporaryPath (h : p.segments = init ++ [n]) (hn : IsName n) (hdots : ¬TwoDots n) :
    ∃ n', (temporaryPath p).place = p.place.dropLast ++ [n'] := by
  obtain ⟨n', hn', -, htemporary⟩ := temporaryPath_eq h hn hdots
  have hinit : ∀ s ∈ init, '/' ∉ s.toList := fun s hs =>
    not_mem_of_mem_segments (p := p) (by rw [h]; exact List.mem_append_left _ hs)
  refine ⟨n', ?_⟩
  rw [htemporary, place_of_segments (segments_ofSegments_concat hinit hn'.1) hn',
    place_of_segments h hn, List.dropLast_concat]

end Path

/-- A place lies somewhere below another. -/
def Files.Place.Below (a dir : Place) : Prop := ∃ ns, ns ≠ [] ∧ a = dir ++ ns

namespace Layout

open Path

variable {p dir root : Path} {h : ContentHash} {ext : String} (hp : p.Logical)

theorem not_twoDots_artifactName (n : String) (h : ContentHash) (hext : '.' ∈ ext.toList) :
    ¬TwoDots (artifactName n h ext) := by
  rintro ⟨-, hdrop⟩
  have hlen : h.toHex.toList.length = 32 := h.length_toHex
  refine hdrop ?_
  rw [artifactName, String.toList_append, String.toList_append,
    List.drop_append_of_le_length (by rw [List.length_append, hlen]; omega)]
  exact List.mem_append_right _ hext

include hp

/-- The subdirectory and the name of an artifact. -/
theorem artifact_eq (hext : '/' ∉ ext.toList) : ∃ n, IsName (artifactName n h ext) ∧
    (∀ s ∈ p.names.dropLast, IsName s) ∧ p.parent?.getD ⟨""⟩ = ofSegments p.names.dropLast ∧
      stem p h ++ ext = artifactName n h ext := by
  obtain ⟨init, n, hnames, -, hn, hinit⟩ := hp.inner.exists_init hp.nonempty
  refine ⟨n, isName_artifactName hn.1 hext, ?_, ?_, ?_⟩
  · rwa [hnames, List.dropLast_concat]
  · rw [hp.inner.parent?_eq hp.nonempty, Option.getD_some]
  · rw [stem, hp.inner.fileName?_eq hp.nonempty, hnames, List.getLast?_concat]
    rfl

theorem below_artifact (dir : Path) (hext : '/' ∉ ext.toList) :
    (dir / p.parent?.getD ⟨""⟩ / ⟨stem p h ++ ext⟩).Below dir := by
  obtain ⟨n, hname, hinit, hparent, hstem⟩ := artifact_eq (h := h) hp hext
  have hfile : (⟨artifactName n h ext⟩ : Path) = ofSegments [artifactName n h ext] := by
    simp [ofSegments]
  refine ⟨p.names.dropLast ++ [artifactName n h ext], by simp, fun s hs => ?_, ?_⟩
  · rcases List.mem_append.1 hs with hs | hs
    · exact hinit s hs
    · rw [List.mem_singleton.1 hs]
      exact hname
  · rw [hparent, hstem, hfile, components_join_ofSegments _ (by simpa using hname),
      components_join_ofSegments _ hinit, List.map_append, List.append_assoc]

theorem isAbsolute_artifact (hdir : dir.isAbsolute = false) (hext : '/' ∉ ext.toList) :
    (dir / p.parent?.getD ⟨""⟩ / ⟨stem p h ++ ext⟩).isAbsolute = false := by
  obtain ⟨n, hname, hinit, hparent, hstem⟩ := artifact_eq (h := h) hp hext
  rw [hparent, hstem]
  exact isAbsolute_join (isAbsolute_join hdir (isAbsolute_ofSegments hinit)) (isAbsolute_name hname)

/-- An artifact and its temporary file lie below the directory. -/
theorem place_below_artifact {root : Path} (hdir : dir.isAbsolute = false) (hext : '/' ∉ ext.toList)
    (hdot : '.' ∈ ext.toList) :
    (root / (dir / p.parent?.getD ⟨""⟩ / ⟨stem p h ++ ext⟩)).place.Below (root / dir).place ∧
    (temporaryPath (root / (dir / p.parent?.getD ⟨""⟩ / ⟨stem p h ++ ext⟩))).place.Below
      (root / dir).place := by
  have hplace : (root / (dir / p.parent?.getD ⟨""⟩ / ⟨stem p h ++ ext⟩)).place = _ :=
    place_artifact hp hext
  have hrel := isAbsolute_artifact (h := h) hp hdir hext
  obtain ⟨n, hname, hinit, hparent, hstem⟩ := artifact_eq (h := h) hp hext
  obtain ⟨before, hsegs⟩ : ∃ before, (root / (dir / p.parent?.getD ⟨""⟩ / ⟨stem p h ++ ext⟩)).segments =
      before ++ [artifactName n h ext] := by
    rw [hstem] at hrel ⊢
    obtain ⟨before, hsegs⟩ : ∃ before,
        (dir / p.parent?.getD ⟨""⟩ / ⟨artifactName n h ext⟩).segments =
          before ++ [artifactName n h ext] :=
      exists_segments_join (isAbsolute_name hname)
        ((segments_eq_singleton hname.1).trans (List.nil_append _).symm)
    exact exists_segments_join hrel hsegs
  obtain ⟨n', htemporary⟩ := place_temporaryPath hsegs hname (not_twoDots_artifactName n h hdot)
  rw [hplace, List.dropLast_concat, List.append_assoc] at htemporary
  rw [List.append_assoc] at hplace
  exact ⟨⟨_, List.append_ne_nil_of_right_ne_nil _ (List.cons_ne_nil _ _), hplace⟩,
    ⟨_, List.append_ne_nil_of_right_ne_nil _ (List.cons_ne_nil _ _), htemporary⟩⟩

end Layout

namespace Config

open Path

/-- The places that a run in a project may write to. -/
def Resolved.Writable (r : Resolved) (a : Place) : Prop :=
  a.Below (r.root / r.cacheDir).place ∨ a.Below (r.root / r.typesDir).place ∨
    a = (r.root / r.entrypoint).place ∨ a = (temporaryPath (r.root / r.entrypoint)).place

variable {lookup : String → Option String} {text : String} {l : Loaded} {dir : Path} {r : Resolved}
  {t t' : Tree} {units : List SourceUnit}

theorem Resolved.Inside.logical_of_mem_units (hr : r.Inside) (ht : t.Proper)
    (hglobs : ∀ pattern ∈ r.schema ++ r.documents, Glob.staysInside pattern = true)
    (hunits : answer r.units t = .ok units) : ∀ u ∈ units, u.path.Logical := by
  obtain ⟨schemaFiles, documentFiles, hschema, hdocuments, hmem⟩ := Resolved.mem_files_of_mem_units hunits
  have hroot := hr.root.nonempty
  intro u hu
  rcases hmem u hu with hu | hu
  · exact Glob.logical_of_mem_files hroot ht
      (fun pattern hp => hglobs pattern (List.mem_append_left _ hp)) hschema _ hu
  · exact Glob.logical_of_mem_files hroot ht
      (fun pattern hp => hglobs pattern (List.mem_append_right _ hp)) hdocuments _ hu

theorem Resolved.Inside.holds_artifact (hr : r.Inside) {p : Path} (hp : p.Logical) (h : ContentHash)
    (f : Artifact) : Session.Holds r.Writable (f.full (r.layout.paths p h)) := by
  cases f with
  | tsx =>
    obtain ⟨hplace, htemporary⟩ :
        (r.layout.paths p h).tsxFull.place.Below (r.root / r.cacheDir).place ∧
        (temporaryPath (r.layout.paths p h).tsxFull).place.Below (r.root / r.cacheDir).place :=
      Layout.place_below_artifact hp hr.cacheDir.relative (by decide) (by decide)
    exact ⟨.inl hplace, .inl htemporary⟩
  | dts =>
    obtain ⟨hplace, htemporary⟩ :
        (r.layout.paths p h).dtsFull.place.Below (r.root / r.typesDir).place ∧
        (temporaryPath (r.layout.paths p h).dtsFull).place.Below (r.root / r.typesDir).place :=
      Layout.place_below_artifact hp hr.typesDir.relative (by decide) (by decide)
    exact ⟨.inr (.inl hplace), .inr (.inl htemporary)⟩

theorem Resolved.holdsOthers (r : Resolved) {base : Cache} (hbase : r.session.cache.Sibling base) :
    Session.HoldsOthers r.Writable r.settings base := by
  obtain ⟨m, rfl⟩ := hbase
  refine ⟨?_, ?_⟩
  · have hname : IsName manifestName.text := by decide
    have hrel : manifestName.isAbsolute = false := by decide
    obtain ⟨before, hsegs⟩ : ∃ before, (r.root / r.cacheDir / manifestName).segments =
        before ++ [manifestName.text] :=
      exists_segments_join hrel (show _ = [] ++ [_] by decide)
    have hplace : (r.root / r.cacheDir / manifestName).place =
        (r.root / r.cacheDir).place ++ [manifestName.text] := by
      rw [place_join hrel]
      exact placeFrom_name hname
    obtain ⟨n', htemporary⟩ := place_temporaryPath hsegs hname (by decide)
    rw [hplace, List.dropLast_concat] at htemporary
    exact ⟨.inl ⟨_, by simp, hplace⟩, .inl ⟨_, by simp, htemporary⟩⟩
  · rintro e he
    obtain rfl := Option.some.inj he
    exact ⟨.inr (.inr (.inl rfl)), .inr (.inr (.inr rfl))⟩

/-- Where no pattern can climb above the root, the units that discovery finds have logical paths, their
artifacts lie below the two directories, and no outcome of any run for them leaves a new file anywhere
else. -/
theorem units_inside (hload : Config.load lookup text = .ok l) (hdir : dir.isAbsolute = true)
    (hglobs : ∀ pattern ∈ l.config.schema ++ l.config.documents, Glob.staysInside pattern = true)
    (ht : t.Proper) (hunits : (ExceptT.run (l.resolve dir).units).run t = (.ok units, t')) :
    (∀ u ∈ units, u.path.Logical ∧ u.path.escapesRoot = false ∧
      ∀ h, ((l.resolve dir).layout.paths u.path h).tsx.Below (l.resolve dir).cacheDir ∧
        ((l.resolve dir).layout.paths u.path h).dts.Below (l.resolve dir).typesDir) ∧
    ∀ (backend : Backend) (scope : Scope) (s : Session), backend.LeavesFiles →
      s.settings = (l.resolve dir).settings → (l.resolve dir).session.cache.Sibling s.cache →
      (Session.run backend scope units s).Confined (l.resolve dir).Writable := by
  have hinside := resolve_inside hload hdir
  have hanswer : answer (l.resolve dir).units t = .ok units := congrArg Prod.fst hunits
  have hlogical := hinside.logical_of_mem_units ht hglobs hanswer
  generalize l.resolve dir = r at *
  refine ⟨fun u hu => ⟨hlogical u hu, (hlogical u hu).inner.not_escapesRoot, fun h => ?_⟩, ?_⟩
  · exact ⟨Layout.below_artifact (hlogical u hu) r.cacheDir (by decide),
      Layout.below_artifact (hlogical u hu) r.typesDir (by decide)⟩
  · intro backend scope s hb hs hcache
    refine Session.confined_run hb ?_ fun u hu h f => ?_
    · rw [hs]
      exact r.holdsOthers hcache
    · rw [hs]
      exact hinside.holds_artifact (hlogical u hu) h f

/-! ### Two configurations -/

/-- A configuration with patterns of choice. -/
def globText (schema documents : String) : String :=
  "schema = \"" ++ schema ++ "\"\ndocuments = \"" ++ documents ++ "\"\nplugins = [\"p\"]\n"

/-- A project with a schema and a document, and another document and schema beside it. -/
def globTree : Tree :=
  ((((((Tree.empty.put ["p"] .directory).put ["p", "src"] .directory).put ["p", "s.graphqls"]
    (.file "type Query { a: Int }".toUTF8)).put ["p", "src", "a.gql"] (.file "{ a }".toUTF8)).put
      ["b.gql"] (.file "{ b }".toUTF8)).put ["s.graphqls"] (.file "type Query { b: Int }".toUTF8))

/-- The paths of the units that the project has with these patterns, the patterns as they were read and
the text of the cache directory. -/
def globUnits? (schema documents : String) : Option (List Path × List String × String) :=
  (Config.load (fun _ => none) (globText schema documents)).toOption.bind fun l =>
    (answer (l.resolve ⟨"/p"⟩).units globTree).toOption.map fun units =>
      (units.map SourceUnit.path, l.config.schema ++ l.config.documents,
        (l.resolve ⟨"/p"⟩).cacheDir.text)

theorem exists_of_globUnits? {schema documents : String} {ps : List Path} {patterns : List String}
    {cacheDir : String} (h : globUnits? schema documents = some (ps, patterns, cacheDir)) :
    ∃ l units, Config.load (fun _ => none) (globText schema documents) = .ok l ∧
      (ExceptT.run (l.resolve ⟨"/p"⟩).units).run globTree = (.ok units, globTree) ∧
      units.map SourceUnit.path = ps ∧ l.config.schema ++ l.config.documents = patterns ∧
      (l.resolve ⟨"/p"⟩).cacheDir.text = cacheDir := by
  obtain ⟨l, hl, h⟩ := Option.bind_eq_some_iff.1 h
  obtain ⟨units, hanswer, h⟩ := exists_of_toOption_map h
  obtain ⟨hpaths, h⟩ := Prod.mk.inj h
  obtain ⟨hpatterns, hdir⟩ := Prod.mk.inj h
  refine ⟨l, units, eq_ok_of_toOption hl, ?_, hpaths, hpatterns, hdir⟩
  rw [(Resolved.reads_units _).run_eq, hanswer]

/-- A pattern may climb as long as it has gone down before. -/
theorem units_inside_sample : ∃ l units,
    Config.load (fun _ => none) (globText "*.graphqls" "src/../**/*.gql") = .ok l ∧
    (Path.mk "/p").isAbsolute = true ∧
    (∀ pattern ∈ l.config.schema ++ l.config.documents, Glob.staysInside pattern = true) ∧
    globTree.Proper ∧
    (ExceptT.run (l.resolve ⟨"/p"⟩).units).run globTree = (.ok units, globTree) ∧
    units.map SourceUnit.path = [⟨"s.graphqls"⟩, ⟨"src/a.gql"⟩] ∧
    (∀ u ∈ units, u.path.Logical) ∧
    (Session.run (.ofFunction fun _ => .ok []) .project units (l.resolve ⟨"/p"⟩).session).Confined
      (l.resolve ⟨"/p"⟩).Writable := by
  have hunits : globUnits? "*.graphqls" "src/../**/*.gql" = some ([⟨"s.graphqls"⟩, ⟨"src/a.gql"⟩],
      ["*.graphqls", "src/../**/*.gql"], "node_modules/.cache/graft") := by
    decide +kernel
  obtain ⟨l, units, hload, hrun, hpaths, hpatterns, -⟩ := exists_of_globUnits? hunits
  have hglobs : ∀ pattern ∈ l.config.schema ++ l.config.documents,
      Glob.staysInside pattern = true := by
    rw [hpatterns]
    decide +kernel
  have habs : (Path.mk "/p").isAbsolute = true := by decide +kernel
  have hproper : globTree.Proper := by decide +kernel
  obtain ⟨hinside, hruns⟩ := units_inside hload habs hglobs hproper hrun
  exact ⟨l, units, hload, habs, hglobs, hproper, hrun, hpaths, fun u hu => (hinside u hu).1,
    hruns _ _ _ (Backend.leavesFiles_ofFunction _) rfl ⟨_, rfl⟩⟩

/-- What lies beside a directory does not lie below it. -/
theorem not_below_parent {dir q : Path} (hdir : dir.text ≠ "") (hq : q.isAbsolute = false) :
    ¬(dir / ⟨".."⟩ / q).Below dir := by
  have hparent : isAbsolute ⟨".."⟩ = false := by decide
  rintro ⟨ns, -, -, heq⟩
  rw [components_join (join_nonempty hdir hparent) hq, components_join hdir hparent,
    List.append_assoc] at heq
  cases ns with
  | nil => cases List.append_cancel_left heq
  | cons n ns => cases List.append_cancel_left heq

/-- A schema pattern that leads beside the root is accepted, and so is a document pattern whose wildcard
stands for the parent. The artifacts of what they find are not below the cache directory. -/
theorem units_outside : ∃ l units,
    Config.load (fun _ => none) (globText "../*.graphqls" ".*/*.gql") = .ok l ∧
    (ExceptT.run (l.resolve ⟨"/p"⟩).units).run globTree = (.ok units, globTree) ∧
    units.map SourceUnit.path = [⟨"../s.graphqls"⟩, ⟨"../b.gql"⟩] ∧
    ∀ u ∈ units, u.path.escapesRoot = true ∧ ∀ h,
      ¬((l.resolve ⟨"/p"⟩).layout.paths u.path h).tsx.Below (l.resolve ⟨"/p"⟩).cacheDir := by
  have hunits : globUnits? "../*.graphqls" ".*/*.gql" = some ([⟨"../s.graphqls"⟩, ⟨"../b.gql"⟩],
      ["../*.graphqls", ".*/*.gql"], "node_modules/.cache/graft") := by
    decide +kernel
  have hfound : ∀ p ∈ [Path.mk "../s.graphqls", ⟨"../b.gql"⟩], p.escapesRoot = true ∧
      p.parent? = some ⟨".."⟩ ∧ '/' ∉ (p.fileName?.getD "").toList := by
    decide +kernel
  obtain ⟨l, units, hload, hrun, hpaths, -, hdir⟩ := exists_of_globUnits? hunits
  refine ⟨l, units, hload, hrun, hpaths, fun u hu => ?_⟩
  obtain ⟨hescapes, hparent, hslash⟩ := hfound u.path (hpaths ▸ List.mem_map_of_mem hu)
  refine ⟨hescapes, fun h => ?_⟩
  have hname : isAbsolute ⟨Layout.stem u.path h ++ ".tsx"⟩ = false := by
    refine isAbsolute_of_not_mem ?_
    rw [Layout.stem]
    simp [hslash, h.slash_not_mem_toHex]
  show ¬Below ((l.resolve ⟨"/p"⟩).cacheDir / u.path.parent?.getD ⟨""⟩ / _) _
  rw [hparent]
  exact not_below_parent (by rw [hdir]; decide) hname

end Config

end GqlArtifacts
