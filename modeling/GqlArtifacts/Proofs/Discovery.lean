import GqlArtifacts.Discovery
import GqlArtifacts.Proofs.Glob

/-!
# What discovery finds

Discovery only looks (`reads_units`, `reads_unitsOf`), so its result is read off the tree step by step:
`answer_units` and `answer_unitsOf` say how it is put together. Every unit belongs to a file that one
of the globs gives (`mem_files_of_mem_units`).
-/

namespace GqlArtifacts

open Files Program

namespace Discovery

variable {t : Tree} {root script p : Path} {call : ScriptCall} {argument : String}
  {files : List Path} {units : List SourceUnit}

/-! ### Looking -/

theorem reads_readWith (f : FileError → Error) (root p : Path) : Reads (readWith f root p) := by
  refine .bind (.lift (looks_readText _)) fun r => ?_
  split
  · exact .pure _
  · exact .throw _

theorem reads_read (root p : Path) : Reads (read root p) := reads_readWith _ root p

/-- The path of a document that a script loads. -/
def loadTarget (script : Path) (argument : String) : Path :=
  Glob.logical ((script.parent?.getD ⟨""⟩) / ⟨argument⟩)

theorem unitsOfCall_load (root script : Path) (argument : String) :
    unitsOfCall root script (.load argument) =
      if (loadTarget script argument).escapesRoot then throw (.loadOutside script argument)
      else do
        let content ← readWith (.loadUnreadable script argument (loadTarget script argument)) root
          (loadTarget script argument)
        return [⟨script, content, .load argument (loadTarget script argument)⟩] := by
  rw [unitsOfCall, loadTarget]
  generalize Glob.logical _ = target
  by_cases h : target.escapesRoot = true
  · rw [if_pos h]
    simp only [if_pos h]
    rfl
  · rw [if_neg h]
    simp only [if_neg h]

theorem reads_unitsOfCall (root script : Path) (call : ScriptCall) :
    Reads (unitsOfCall root script call) := by
  cases call with
  | gql text => exact .pure _
  | load argument =>
    rw [unitsOfCall_load]
    generalize loadTarget script argument = target
    by_cases h : target.escapesRoot = true
    · rw [if_pos h]
      exact .throw _
    · rw [if_neg h]
      exact (reads_readWith _ _ _).bind fun _ => .pure _

theorem reads_unitsOfFile (root p : Path) : Reads (unitsOfFile root p) := by
  rw [unitsOfFile]
  split
  · exact (reads_read _ _).bind fun _ => .pure _
  · exact (reads_read _ _).bind fun _ =>
      (Reads.mapM (reads_unitsOfCall _ _) _).bind fun _ => .pure _
  · exact .pure _

theorem reads_globFiles (root : Path) (patterns : List String) : Reads (globFiles root patterns) :=
  (Glob.reads_files root patterns).adapt

theorem reads_schemaUnits (root : Path) (files : List Path) : Reads (schemaUnits root files) :=
  .mapM (fun _ => (reads_read _ _).bind fun _ => .pure _) _

/-! ### Paths of units -/

theorem answer_globFiles {patterns : List String} (h : answer (globFiles root patterns) t = .ok files) :
    answer (Glob.files root patterns) t = .ok files := by
  rw [globFiles, answer_adapt] at h
  cases hfiles : answer (Glob.files root patterns) t with
  | error e => rw [hfiles] at h; cases h
  | ok fs =>
    rw [hfiles] at h
    cases h
    rfl

theorem exists_unit_of_load
    (h : answer (unitsOfCall root script (.load argument)) t = .ok units) :
    ∃ content, units = [⟨script, content, .load argument (loadTarget script argument)⟩] := by
  rw [unitsOfCall_load] at h
  generalize loadTarget script argument = target at h ⊢
  by_cases hescapes : target.escapesRoot = true
  · rw [if_pos hescapes] at h
    cases h
  · rw [if_neg hescapes, answer_bind (reads_readWith _ _ _)] at h
    obtain ⟨content, -, h⟩ := bind_eq_ok.1 h
    exact ⟨content, (Except.ok.inj h).symm⟩

theorem path_of_mem_unitsOfCall (h : answer (unitsOfCall root script call) t = .ok units) :
    ∀ u ∈ units, u.path = script := by
  cases call with
  | gql text =>
    obtain rfl := Except.ok.inj h
    split
    · simp
    · simp
  | load argument =>
    obtain ⟨content, rfl⟩ := exists_unit_of_load h
    simp

theorem path_of_mem_unitsOfFile (h : answer (unitsOfFile root p) t = .ok units) :
    ∀ u ∈ units, u.path = p := by
  rw [unitsOfFile] at h
  split at h
  · rw [answer_bind (reads_read _ _)] at h
    obtain ⟨content, -, h⟩ := bind_eq_ok.1 h
    obtain rfl := Except.ok.inj h
    simp
  · rw [answer_bind (reads_read _ _)] at h
    obtain ⟨content, -, h⟩ := bind_eq_ok.1 h
    rw [answer_bind (.mapM (reads_unitsOfCall _ _) _), answer_mapM (reads_unitsOfCall _ _)] at h
    obtain ⟨found, hfound, h⟩ := bind_eq_ok.1 h
    obtain rfl := Except.ok.inj h
    intro u hu
    obtain ⟨us, hus, huus⟩ := List.mem_flatten.1 hu
    obtain ⟨call, -, hanswer⟩ := exists_of_mem_mapM hfound hus
    exact path_of_mem_unitsOfCall hanswer u huus
  · obtain rfl := Except.ok.inj h
    simp

theorem path_of_mem_schemaUnits (h : answer (schemaUnits root files) t = .ok units) :
    ∀ u ∈ units, u.path ∈ files := by
  rw [schemaUnits, answer_mapM fun _ => (reads_read _ _).bind fun _ => .pure _] at h
  intro u hu
  obtain ⟨p, hp, hanswer⟩ := exists_of_mem_mapM h hu
  rw [answer_bind (reads_read _ _)] at hanswer
  obtain ⟨content, -, hanswer⟩ := bind_eq_ok.1 hanswer
  obtain rfl := Except.ok.inj hanswer
  exact hp

end Discovery

namespace Config.Resolved

open Discovery

variable {r : Resolved} {t : Tree} {units : List SourceUnit}

theorem reads_units (r : Resolved) : Reads r.units :=
  (reads_globFiles _ _).bind fun _ => (reads_globFiles _ _).bind fun _ =>
    (reads_schemaUnits _ _).bind fun _ => (Reads.mapM (reads_unitsOfFile _) _).bind fun _ => .pure _

theorem reads_unitsOf (r : Resolved) (f : Path) : Reads (r.unitsOf f) := by
  rw [unitsOf]
  refine (reads_globFiles _ _).bind fun schemaFiles => (reads_schemaUnits _ _).bind fun schema => ?_
  dsimp only
  generalize Glob.logical f = p
  split
  · exact .bind (.pure _) fun _ => .pure _
  · exact (reads_unitsOfFile r.root p).bind fun _ => .pure _

/-- The units of a project, step by step. -/
theorem answer_units (r : Resolved) (t : Tree) : answer r.units t = do
    let schemaFiles ← answer (globFiles r.root r.schema) t
    let documentFiles ← answer (globFiles r.root r.documents) t
    let schema ← answer (schemaUnits r.root schemaFiles) t
    let found ← (documentFiles.filter fun p => !schemaFiles.any p.same).mapM fun p =>
      answer (unitsOfFile r.root p) t
    return schema ++ found.flatten := by
  rw [units, answer_bind (reads_globFiles _ _)]
  congr 1
  funext schemaFiles
  rw [answer_bind (reads_globFiles _ _)]
  congr 1
  funext documentFiles
  rw [answer_bind (reads_schemaUnits _ _)]
  congr 1
  funext schema
  rw [answer_bind (.mapM (reads_unitsOfFile _) _), answer_mapM (reads_unitsOfFile _)]
  rfl

/-- The units of one file, step by step. -/
theorem answer_unitsOf (r : Resolved) (f : Path) (t : Tree) : answer (r.unitsOf f) t = do
    let schemaFiles ← answer (globFiles r.root r.schema) t
    let schema ← answer (schemaUnits r.root schemaFiles) t
    let found ← (if schemaFiles.any (Glob.logical f).same then .ok [] else
      answer (unitsOfFile r.root (Glob.logical f)) t)
    return schema ++ found := by
  rw [unitsOf, answer_bind (reads_globFiles _ _)]
  congr 1
  funext schemaFiles
  rw [answer_bind (reads_schemaUnits _ _)]
  congr 1
  funext schema
  split
  · rfl
  · rw [answer_bind (reads_unitsOfFile _ _)]
    rfl

/-- Every unit belongs to a file that a glob gives. -/
theorem mem_files_of_mem_units (h : answer r.units t = .ok units) :
    ∃ schemaFiles documentFiles, answer (Glob.files r.root r.schema) t = .ok schemaFiles ∧
      answer (Glob.files r.root r.documents) t = .ok documentFiles ∧
      ∀ u ∈ units, u.path ∈ schemaFiles ∨ u.path ∈ documentFiles := by
  rw [answer_units] at h
  obtain ⟨schemaFiles, hschemaFiles, h⟩ := bind_eq_ok.1 h
  obtain ⟨documentFiles, hdocumentFiles, h⟩ := bind_eq_ok.1 h
  obtain ⟨schema, hschema, h⟩ := bind_eq_ok.1 h
  obtain ⟨found, hfound, h⟩ := bind_eq_ok.1 h
  obtain rfl := Except.ok.inj h
  refine ⟨schemaFiles, documentFiles, answer_globFiles hschemaFiles, answer_globFiles hdocumentFiles,
    fun u hu => ?_⟩
  rcases List.mem_append.1 hu with hu | hu
  · exact .inl (path_of_mem_schemaUnits hschema u hu)
  · obtain ⟨us, hus, huus⟩ := List.mem_flatten.1 hu
    obtain ⟨p, hp, hanswer⟩ := exists_of_mem_mapM hfound hus
    rw [path_of_mem_unitsOfFile hanswer u huus]
    exact .inr (List.mem_of_mem_filter hp)

end Config.Resolved

end GqlArtifacts
