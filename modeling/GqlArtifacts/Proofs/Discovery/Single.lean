import GqlArtifacts.Proofs.Discovery.Stable

/-!
# The units of one file

Discovering one file gives the schema units of the project and those of the file, as the project has
them (`answer_unitsOf_eq`): each file stands in the list of its glob once, and all units of a file carry
its path.
-/

namespace GqlArtifacts

open Files Program

namespace Discovery

variable {t : Tree} {root p f : Path} {files : List Path} {units : List SourceUnit}
  {found : List (List SourceUnit)} {call : ScriptCall}

theorem isSchema_of_mem_schemaUnits (h : answer (schemaUnits root files) t = .ok units) :
    ∀ u ∈ units, u.isSchema = true := by
  rw [schemaUnits, answer_mapM fun _ => (reads_read _ _).bind fun _ => .pure _] at h
  intro u hu
  obtain ⟨p, -, hanswer⟩ := exists_of_mem_mapM h hu
  rw [answer_bind (reads_read _ _)] at hanswer
  obtain ⟨content, -, hanswer⟩ := bind_eq_ok.1 hanswer
  obtain rfl := Except.ok.inj hanswer
  rfl

theorem not_isSchema_of_mem_unitsOfCall (h : answer (unitsOfCall root p call) t = .ok units) :
    ∀ u ∈ units, u.isSchema = false := by
  cases call with
  | gql text =>
    obtain rfl := Except.ok.inj h
    split
    · simp
    · simp [SourceUnit.isSchema]
  | load argument =>
    obtain ⟨content, rfl⟩ := exists_unit_of_load h
    simp [SourceUnit.isSchema]

theorem not_isSchema_of_mem_unitsOfFile (h : answer (unitsOfFile root p) t = .ok units) :
    ∀ u ∈ units, u.isSchema = false := by
  rw [unitsOfFile] at h
  split at h
  · rw [answer_bind (reads_read _ _)] at h
    obtain ⟨content, -, h⟩ := bind_eq_ok.1 h
    obtain rfl := Except.ok.inj h
    simp [SourceUnit.isSchema]
  · rw [answer_bind (reads_read _ _)] at h
    obtain ⟨content, -, h⟩ := bind_eq_ok.1 h
    rw [answer_bind (.mapM (reads_unitsOfCall _ _) _), answer_mapM (reads_unitsOfCall _ _)] at h
    obtain ⟨found, hfound, h⟩ := bind_eq_ok.1 h
    obtain rfl := Except.ok.inj h
    intro u hu
    obtain ⟨us, hus, huus⟩ := List.mem_flatten.1 hu
    obtain ⟨call, -, hanswer⟩ := exists_of_mem_mapM hfound hus
    exact not_isSchema_of_mem_unitsOfCall hanswer u huus
  · obtain rfl := Except.ok.inj h
    simp

/-- Of the units of several files, those with the path of one are its own. -/
theorem filter_path_flatten (hfiles : files.Nodup)
    (h : files.mapM (fun p => answer (unitsOfFile root p) t) = .ok found) :
    (f ∉ files → found.flatten.filter (fun u => u.path = f) = []) ∧
      (f ∈ files → answer (unitsOfFile root f) t =
        .ok (found.flatten.filter fun u => u.path = f)) := by
  have hall := mapM_eq_ok.1 h
  clear h
  induction hall with
  | nil => exact ⟨fun _ => rfl, nofun⟩
  | @cons p us files found hp hall ih =>
    obtain ⟨hnew, hfiles⟩ := List.nodup_cons.1 hfiles
    obtain ⟨hout, hin⟩ := ih hfiles
    have hpaths := path_of_mem_unitsOfFile hp
    rw [List.flatten_cons, List.filter_append]
    by_cases hf : p = f
    · subst hf
      have hown : us.filter (fun u => u.path = p) = us :=
        List.filter_eq_self.2 fun u hu => by simpa using hpaths u hu
      rw [hown, hout hnew, List.append_nil]
      exact ⟨fun hnot => absurd (List.mem_cons_self ..) hnot, fun _ => hp⟩
    · have hother : us.filter (fun u => u.path = f) = [] :=
        List.filter_eq_nil_iff.2 fun u hu => by simpa [hpaths u hu] using hf
      rw [hother, List.nil_append]
      refine ⟨fun hnot => hout (List.not_mem_of_not_mem_cons hnot), fun hmem => hin ?_⟩
      exact (List.mem_cons.1 hmem).resolve_left (Ne.symm hf)

end Discovery

namespace Config.Resolved

open Discovery

variable {r : Resolved} {t t' : Tree} {units : List SourceUnit} {f : Path}
  {schemaFiles documentFiles : List Path}

/-- The units of a project that count when one of its files is brought up to date. -/
def ownUnits (f : Path) (units : List SourceUnit) : List SourceUnit :=
  units.filter SourceUnit.isSchema ++ units.filter fun u => !u.isSchema && u.path = f

/-- Whether a unit is one of a schema or of the file. -/
def isOwn (f : Path) (u : SourceUnit) : Bool := u.isSchema || u.path = f

theorem nodup_of_globFiles {patterns : List String} {files : List Path}
    (h : answer (globFiles r.root patterns) t = .ok files) : files.Nodup := by
  have h := answer_globFiles h
  rw [Glob.answer_files] at h
  obtain ⟨found, -, hkeys⟩ := bind_eq_ok.1 h
  obtain rfl := Except.ok.inj hkeys
  refine List.pairwise_map.2 ((OrderedMap.sorted _).imp fun {a b} hlt heq => ?_)
  rw [heq, Path.compare_eq_iff.2 (Path.same_self b.1)] at hlt
  cases hlt

/-- A file without `..` that a glob gives is known by one path only. -/
theorem logical_of_mem_files (hroot : r.root.Rooted) {patterns : List String} {files : List Path}
    (h : answer (globFiles r.root patterns) t = .ok files) (hf : f ∈ files)
    (hparent : .parent ∉ f.components) : Glob.logical f = f := by
  obtain ⟨pattern, -, -, q, p, -, -, hunder, rfl⟩ :=
    Glob.matches_of_mem_files (answer_globFiles h) f hf
  have hcomponents : r.root.components ≠ [] := by
    rw [hroot.components_eq]
    exact List.cons_ne_nil _ _
  obtain ⟨segs, hsegs, heq⟩ := Path.exists_plain_logical hcomponents hunder
  rw [heq] at hparent ⊢
  have hnames : ∀ s ∈ segs, Path.IsName s := by
    intro s hs
    obtain ⟨hslash, htrivial⟩ := hsegs s hs
    rw [Path.components_of_plain hsegs] at hparent
    rcases Path.segment_cases s with ⟨-, rfl | rfl⟩ | ⟨hsegment, rfl⟩ | ⟨-, hproper⟩
    · cases htrivial
    · cases htrivial
    · exact absurd (List.mem_filterMap.2 ⟨_, hs, hsegment⟩) hparent
    · exact ⟨hslash, hproper⟩
  have hinner := Path.inner_ofSegments hnames
  rw [Path.logical_eq, hinner.normal]

section Files
variable (h : answer r.units t = .ok units)
  (hschema : answer (globFiles r.root r.schema) t = .ok schemaFiles)
  (hdocuments : answer (globFiles r.root r.documents) t = .ok documentFiles)
include h hschema hdocuments

/-- The units of a project are those of the schema files and those of the other files. -/
theorem exists_split : ∃ schema found, units = schema ++ found.flatten ∧
    answer (schemaUnits r.root schemaFiles) t = .ok schema ∧
    (documentFiles.filter fun p => !schemaFiles.any p.same).mapM
      (fun p => answer (unitsOfFile r.root p) t) = .ok found ∧
    (∀ u ∈ schema, u.isSchema = true ∧ u.path ∈ schemaFiles) ∧
    ∀ u ∈ found.flatten, u.isSchema = false ∧ u.path ∈ documentFiles ∧
      schemaFiles.any u.path.same = false := by
  rw [answer_units, hschema, hdocuments] at h
  obtain ⟨_, ⟨⟩, h⟩ := bind_eq_ok.1 h
  obtain ⟨_, ⟨⟩, h⟩ := bind_eq_ok.1 h
  obtain ⟨schema, hschemaUnits, h⟩ := bind_eq_ok.1 h
  obtain ⟨found, hfound, h⟩ := bind_eq_ok.1 h
  refine ⟨schema, found, (Except.ok.inj h).symm, hschemaUnits, hfound, fun u hu =>
    ⟨isSchema_of_mem_schemaUnits hschemaUnits u hu, path_of_mem_schemaUnits hschemaUnits u hu⟩,
    fun u hu => ?_⟩
  obtain ⟨us, hus, huus⟩ := List.mem_flatten.1 hu
  obtain ⟨p, hp, hanswer⟩ := exists_of_mem_mapM hfound hus
  obtain ⟨hp, hany⟩ := List.mem_filter.1 hp
  rw [path_of_mem_unitsOfFile hanswer u huus]
  exact ⟨not_isSchema_of_mem_unitsOfFile hanswer u huus, hp, by simpa using hany⟩

theorem ownUnits_eq_filter (f : Path) :
    ownUnits f units = units.filter (isOwn f) := by
  obtain ⟨schema, found, rfl, -, -, hisSchema, hothers⟩ := exists_split h hschema hdocuments
  have hfirst : found.flatten.filter SourceUnit.isSchema = [] :=
    List.filter_eq_nil_iff.2 fun u hu => by simp [(hothers u hu).1]
  have hsecond : (schema.filter fun u => !u.isSchema && u.path = f) = [] :=
    List.filter_eq_nil_iff.2 fun u hu => by simp [(hisSchema u hu).1]
  rw [ownUnits, List.filter_append, List.filter_append, List.filter_append, hfirst, hsecond,
    List.append_nil, List.nil_append]
  congr 1
  · exact List.filter_congr fun u hu => by simp [isOwn, (hisSchema u hu).1]
  · exact List.filter_congr fun u hu => by simp [isOwn, (hothers u hu).1]

/-- Units of the same source are all among those of a file, or none of them is. -/
theorem own_of_same (hroot : r.root.Rooted) (hf : f ∈ schemaFiles ∨ f ∈ documentFiles)
    {u v : SourceUnit} (hu : u ∈ units) {p : Path} (hsame : u.path.same p = true)
    (hp : f.same p = true ∨ v ∈ units ∧ isOwn f v = true ∧ v.path.same p = true) :
    isOwn f u = true := by
  rw [isOwn, Bool.or_eq_true, decide_eq_true_iff]
  obtain ⟨schema, found, rfl, -, -, hisSchema, hothers⟩ := exists_split h hschema hdocuments
  have hmerge : ∀ {q}, q.same p = true → u.path.same q = true := fun hq => by
    rw [Path.same, eq_of_beq hsame]
    rwa [Path.same_comm] at hq
  rcases List.mem_append.1 hu with hu | hu
  · exact .inl (hisSchema u hu).1
  obtain ⟨-, hdocument, hany⟩ := hothers u hu
  have hp : f.same p = true ∨ v ∈ schema ++ found.flatten ∧ v.isSchema = true ∧ v.path.same p = true := by
    rcases hp with hp | ⟨hv, hown, hp⟩
    · exact .inl hp
    · rw [isOwn, Bool.or_eq_true, decide_eq_true_iff] at hown
      rcases hown with hown | rfl
      · exact .inr ⟨hv, hown, hp⟩
      · exact .inl hp
  rcases hp with hp | ⟨hv, hvSchema, hp⟩
  · rcases hf with hf | hf
    · rw [List.any_eq_true.2 ⟨f, hf, hmerge hp⟩] at hany
      cases hany
    · obtain ⟨_, -, hmatches⟩ := Glob.matches_of_mem_files (answer_globFiles hdocuments) _ hdocument
      obtain ⟨_, -, hmatches'⟩ := Glob.matches_of_mem_files (answer_globFiles hdocuments) _ hf
      have hcomponents : r.root.components ≠ [] := by
        rw [hroot.components_eq]
        exact List.cons_ne_nil _ _
      exact .inr (Glob.eq_of_matches hcomponents hmatches hmatches' (hmerge hp))
  · rcases List.mem_append.1 hv with hv | hv
    · rw [List.any_eq_true.2 ⟨v.path, (hisSchema v hv).2, hmerge hp⟩] at hany
      cases hany
    · rw [(hothers v hv).1] at hvSchema
      cases hvSchema

/-- One file of a project has the schema units of the project and its own units. -/
theorem answer_unitsOf_eq (hroot : r.root.Rooted) (hf : f ∈ schemaFiles ∨ f ∈ documentFiles)
    (hparent : .parent ∉ f.components) : answer (r.unitsOf f) t = .ok (ownUnits f units) := by
  have hlogical : Glob.logical f = f := hf.elim
    (fun hf => logical_of_mem_files hroot hschema hf hparent)
    (fun hf => logical_of_mem_files hroot hdocuments hf hparent)
  have hown := ownUnits_eq_filter h hschema hdocuments f
  obtain ⟨schema, found, rfl, hschemaUnits, hfound, hisSchema, hothers⟩ :=
    exists_split h hschema hdocuments
  obtain ⟨hout, hin⟩ := filter_path_flatten (f := f)
    ((nodup_of_globFiles hdocuments).filter fun p => !schemaFiles.any p.same) hfound
  have hschemaOnly : schema.filter (isOwn f) = schema :=
    List.filter_eq_self.2 fun u hu => by simp [isOwn, (hisSchema u hu).1]
  have hothersOnly : found.flatten.filter (isOwn f) = found.flatten.filter fun u => u.path = f :=
    List.filter_congr fun u hu => by simp [isOwn, (hothers u hu).1]
  rw [answer_unitsOf, hschema, hlogical, hown, List.filter_append, hschemaOnly, hothersOnly]
  show (answer (schemaUnits r.root schemaFiles) t >>= fun schema =>
    (if schemaFiles.any f.same then .ok [] else answer (unitsOfFile r.root f) t) >>= fun found =>
      pure (schema ++ found)) = _
  rw [hschemaUnits]
  by_cases hany : schemaFiles.any f.same = true
  · rw [if_pos hany, hout fun hmem => by simp [hany] at hmem]
    rfl
  · have hmem : f ∈ documentFiles := hf.resolve_left fun hf =>
      hany (List.any_eq_true.2 ⟨f, hf, Path.same_self f⟩)
    rw [if_neg hany, hin (List.mem_filter.2 ⟨hmem, by simpa using hany⟩)]
    rfl

end Files

end Config.Resolved

end GqlArtifacts
