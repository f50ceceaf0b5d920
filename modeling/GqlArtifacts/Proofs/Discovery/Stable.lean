import GqlArtifacts.Proofs.Discovery
import GqlArtifacts.Proofs.Glob.Stable

/-!
# Discovery on two trees

Discovery reaches the files that the globs find and the documents that the scripts among them load
(`Reached`). When both trees are the same on the way to everything that is reached in either
(`Undisturbed`), a project has the same units in both (`answer_units_same`), and so has each of its
files (`answer_unitsOf_same`).
-/

namespace GqlArtifacts

open Files Program

namespace Discovery

variable {t t' : Tree} {root script p q : Path} {call : ScriptCall} {files : List Path}

/-! ### Files -/

theorem answer_readWith (f : FileError → Error) (root p : Path) :
    answer (readWith f root p) t = (t.readText (root / p)).mapError f := by
  rw [readWith, answer_bind_lift (looks_readText _), run_readText]
  cases t.readText (root / p) <;> rfl

theorem answer_read_same (hs : t.Same t' (root / p)) : answer (read root p) t' = answer (read root p) t := by
  rw [read, answer_readWith, answer_readWith, hs.readText]

theorem answer_schemaUnits_same (hs : ∀ p ∈ files, t.Same t' (root / p)) :
    answer (schemaUnits root files) t' = answer (schemaUnits root files) t := by
  have hreads : ∀ p, Reads (do return ⟨p, ← read root p, .schema⟩ : DiscoveryM SourceUnit) :=
    fun p => (reads_read _ _).bind fun _ => .pure _
  rw [schemaUnits, answer_mapM hreads, answer_mapM hreads]
  refine mapM_congr fun p hp => ?_
  rw [answer_bind (reads_read _ _), answer_bind (reads_read _ _), answer_read_same (hs p hp)]
  rfl

theorem answer_unitsOfCall_same
    (hs : ∀ argument, call = .load argument → t.Same t' (root / loadTarget script argument)) :
    answer (unitsOfCall root script call) t' = answer (unitsOfCall root script call) t := by
  cases call with
  | gql text => rfl
  | load argument =>
    have hsame := hs argument rfl
    rw [unitsOfCall_load]
    generalize loadTarget script argument = target at hsame ⊢
    by_cases hescapes : target.escapesRoot = true
    · rw [if_pos hescapes]
      rfl
    · rw [if_neg hescapes, answer_bind (reads_readWith _ _ _), answer_bind (reads_readWith _ _ _),
        answer_readWith, answer_readWith, hsame.readText]
      rfl

/-- The units of a file depend on the file and on what it loads, if it is a script. -/
theorem answer_unitsOfFile_same (hs : t.Same t' (root / p))
    (hload : ∀ text argument, FileKind.ofPath? p = some .script →
      t.readText (root / p) = .ok text → .load argument ∈ ScriptCall.scan text →
      t.Same t' (root / loadTarget p argument)) :
    answer (unitsOfFile root p) t' = answer (unitsOfFile root p) t := by
  rw [unitsOfFile]
  cases hkind : FileKind.ofPath? p with
  | none => rfl
  | some kind =>
    cases kind with
    | document =>
      dsimp only
      rw [answer_bind (reads_read _ _), answer_bind (reads_read _ _), answer_read_same hs]
      rfl
    | script =>
      dsimp only
      rw [answer_bind (reads_read _ _), answer_bind (reads_read _ _), answer_read_same hs, read,
        answer_readWith]
      cases htext : t.readText (root / p) with
      | error e => rfl
      | ok text =>
        have hcalls : answer ((ScriptCall.scan text).mapM (unitsOfCall root p)) t' =
            answer ((ScriptCall.scan text).mapM (unitsOfCall root p)) t := by
          rw [answer_mapM (reads_unitsOfCall _ _), answer_mapM (reads_unitsOfCall _ _)]
          refine mapM_congr fun call hcall => answer_unitsOfCall_same ?_
          rintro argument rfl
          exact hload text argument hkind htext hcall
        show answer _ t' = answer _ t
        rw [answer_bind (.mapM (reads_unitsOfCall _ _) _), answer_bind (.mapM (reads_unitsOfCall _ _) _),
          hcalls]
        rfl

end Discovery

namespace Config.Resolved

open Discovery

variable {r : Resolved} {t t' : Tree} {units : List SourceUnit} {patterns : List String}
  {files : List Path}

/-- What discovery comes to: a file that a glob finds, as it is found and as it is known in the
project, and what such a file loads if it is a script. -/
inductive Reached (r : Resolved) (t : Tree) : Path → Prop
  | found {pattern : String} {g : Glob} {q p : Path} (hpattern : pattern ∈ r.schema ++ r.documents)
      (hg : Glob.ofPattern? pattern = some g) (h : Glob.Hits t r.root g q)
      (hunder : q.under? r.root = some p) : Reached r t q
  | file {pattern : String} {p : Path} (hpattern : pattern ∈ r.schema ++ r.documents)
      (h : Glob.Matches t r.root pattern p) : Reached r t (r.root / p)
  | loaded {pattern text argument : String} {p : Path} (hpattern : pattern ∈ r.documents)
      (h : Glob.Matches t r.root pattern p) (hkind : FileKind.ofPath? p = some .script)
      (htext : t.readText (r.root / p) = .ok text)
      (hcall : .load argument ∈ ScriptCall.scan text) : Reached r t (r.root / loadTarget p argument)

/-- Both trees are the same on the way to all that discovery comes to in either. -/
def Undisturbed (r : Resolved) (t t' : Tree) : Prop :=
  ∀ q, r.Reached t q ∨ r.Reached t' q → t.Same t' q

theorem answer_globFiles_eq_ok : answer (globFiles r.root patterns) t = .ok files ↔
    answer (Glob.files r.root patterns) t = .ok files := by
  refine ⟨answer_globFiles, fun h => ?_⟩
  rw [globFiles, answer_adapt, h]
  rfl

section Undisturbed
variable (hroot : r.root.Rooted) (ht : t.Proper) (ht' : t'.Proper) (hu : r.Undisturbed t t')
include hroot ht ht' hu

theorem answer_globFiles_same (hpatterns : ∀ pattern ∈ patterns, pattern ∈ r.schema ++ r.documents)
    (h : answer (globFiles r.root patterns) t = .ok files) :
    answer (globFiles r.root patterns) t' = .ok files := by
  have hcomponents : r.root.components ≠ [] := by
    rw [hroot.components_eq]
    exact List.cons_ne_nil _ _
  rw [answer_globFiles_eq_ok] at h ⊢
  refine Glob.answer_files_same ht ht' hroot.nonempty hcomponents h (fun pattern hp => ?_)
    fun pattern hp => ?_
  · exact fun g q p hg hits hunder => hu q (.inl (.found (hpatterns pattern hp) hg hits hunder))
  · exact fun g q p hg hits hunder =>
      (hu q (.inr (.found (hpatterns pattern hp) hg hits hunder))).symm

omit hroot ht ht' in
theorem same_of_mem_files (hpatterns : ∀ pattern ∈ patterns, pattern ∈ r.schema ++ r.documents)
    (h : answer (globFiles r.root patterns) t = .ok files) : ∀ p ∈ files, t.Same t' (r.root / p) := by
  intro p hp
  obtain ⟨pattern, hpattern, hmatches⟩ := Glob.matches_of_mem_files (answer_globFiles h) p hp
  exact hu _ (.inl (.file (hpatterns pattern hpattern) hmatches))

omit hroot ht ht' in
theorem answer_unitsOfFile_same (h : answer (globFiles r.root r.documents) t = .ok files) {p : Path}
    (hp : p ∈ files) : answer (unitsOfFile r.root p) t' = answer (unitsOfFile r.root p) t := by
  obtain ⟨pattern, hpattern, hmatches⟩ := Glob.matches_of_mem_files (answer_globFiles h) p hp
  refine Discovery.answer_unitsOfFile_same (same_of_mem_files hu
    (fun _ => List.mem_append_right _) h p hp) fun text argument hkind htext hcall => ?_
  exact hu _ (.inl (.loaded hpattern hmatches hkind htext hcall))

/-- A project keeps its units as long as nothing that discovery comes to changes. -/
theorem answer_units_same (h : answer r.units t = .ok units) : answer r.units t' = .ok units := by
  rw [answer_units] at h ⊢
  obtain ⟨schemaFiles, hschema, h⟩ := bind_eq_ok.1 h
  obtain ⟨documentFiles, hdocuments, h⟩ := bind_eq_ok.1 h
  rw [answer_globFiles_same hroot ht ht' hu (fun _ => List.mem_append_left _) hschema,
    answer_globFiles_same hroot ht ht' hu (fun _ => List.mem_append_right _) hdocuments]
  show (answer (schemaUnits r.root schemaFiles) t' >>= fun schema =>
    ((documentFiles.filter fun p => !schemaFiles.any p.same).mapM fun p =>
      answer (unitsOfFile r.root p) t') >>= fun found => pure (schema ++ found.flatten)) = .ok units
  rw [answer_schemaUnits_same (same_of_mem_files hu (fun _ => List.mem_append_left _) hschema),
    mapM_congr fun p hp => answer_unitsOfFile_same hu hdocuments (List.mem_of_mem_filter hp)]
  exact h

end Undisturbed

end Config.Resolved

end GqlArtifacts
