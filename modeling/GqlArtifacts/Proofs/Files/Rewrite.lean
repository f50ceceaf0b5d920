import GqlArtifacts.Proofs.Files.Atomic
import GqlArtifacts.Proofs.Files.Descent

/-!
# Writing again

Whatever a program does, directories stay and all names stay names (`grows_run`, `Tree.Proper.run`).
So a write as a whole that has succeeded succeeds again, and the second time it changes nothing
(`Tree.Wrote.rewrite`).
-/

namespace GqlArtifacts.Files

open Program

variable {α : Type} {t t' : Tree} {p q d : Path} {a : Place} {c : ByteArray} {n : Node}

/-! ### What no program undoes -/

/-- An operation relates the trees before and after it, if a success of each kind does. -/
theorem Op.run_of_changes {R : Tree → Tree → Prop} (hrefl : ∀ t, R t t)
    (hput : ∀ (t : Tree) (p : Path) (c : ByteArray), t.isDirectory p.place = false →
      R t (t.put p.place (.file c)))
    (hmake : ∀ (t : Tree) (p : Path), t.node? p.place = none → R t (t.put p.place .directory))
    (hdrop : ∀ (t : Tree) (a : Place) (c : ByteArray), t.file? a = some c → R t (t.drop a))
    (htrans : ∀ {t t' t'' : Tree}, R t t' → R t' t'' → R t t'') (op : Op) (t : Tree) :
    R t (op.run t).2 := by
  have hcommit : ∀ r : Except FileError Tree, (∀ t', r = .ok t' → R t t') → R t (Op.commit t r).2 := by
    intro r hr
    cases r with
    | ok t' => exact hr t' rfl
    | error e => exact hrefl t
  cases op with
  | kind p => exact hrefl t
  | read p => exact hrefl t
  | list p => exact hrefl t
  | write p c =>
    refine hcommit _ fun t' h => ?_
    obtain ⟨-, hdir, rfl⟩ := Tree.write_eq_ok h
    exact hput t p c hdir
  | makeDirectory p =>
    refine hcommit _ fun t' h => ?_
    obtain ⟨hnone, rfl⟩ := Tree.makeDirectory_eq_ok h
    exact hmake t p hnone
  | rename p q =>
    refine hcommit _ fun t' h => ?_
    obtain ⟨c, hc, -, hdir, rfl⟩ := Tree.rename_eq_ok h
    exact htrans (hdrop t _ c hc) (hput _ q c (Tree.not_isDirectory_drop hc hdir))
  | remove p =>
    refine hcommit _ fun t' h => ?_
    obtain ⟨hfile, rfl⟩ := Tree.remove_eq_ok h
    obtain ⟨c, hc⟩ := Option.isSome_iff_exists.1 (Tree.isFile_iff.1 hfile).2
    exact hdrop t _ c hc

/-- No program takes a directory away. -/
theorem grows_run (x : Program α) (t : Tree) : t.Grows (x.run t).2 := by
  induction x generalizing t with
  | done a => exact .rfl
  | step op next ih =>
    have hop : t.Grows (op.run t).2 := Op.run_of_changes (fun _ => .rfl)
      (fun _ _ _ => Tree.grows_put_file) (fun _ _ => Tree.grows_put_directory)
      (fun _ _ _ => Tree.grows_drop) Tree.Grows.trans op t
    exact hop.trans (ih _ _)

namespace Tree

theorem Proper.put (ht : t.Proper) (ha : ∀ s ∈ a, Path.IsName s) (n : Node) :
    (t.put a n).Proper := by
  intro b hb
  obtain ⟨e, he, rfl⟩ := List.mem_map.1 hb
  exact OrderedMap.forall_key_insertEntry (P := fun b => ∀ s ∈ b, Path.IsName s) ha
    (fun e he => ht e.1 (List.mem_map_of_mem he)) e he

theorem Proper.drop (ht : t.Proper) (a : Place) : (t.drop a).Proper := by
  intro b hb
  obtain ⟨e, he, rfl⟩ := List.mem_map.1 hb
  exact ht e.1 (List.mem_map_of_mem (List.mem_of_mem_filter he))

/-- All names stay names. -/
theorem Proper.run (ht : t.Proper) (x : Program α) : (x.run t).2.Proper := by
  induction x generalizing t with
  | done a => exact ht
  | step op next ih =>
    have hop : t.Proper → (op.run t).2.Proper :=
      Op.run_of_changes (R := fun t t' => t.Proper → t'.Proper) (fun _ => id)
        (fun _ _ _ _ ht => ht.put (fun _ => Path.isName_of_mem_place _) _)
        (fun _ _ _ ht => ht.put (fun _ => Path.isName_of_mem_place _) _)
        (fun _ _ _ _ ht => ht.drop _) (fun h h' ht => h' (h ht)) op t
    exact ih _ (hop ht)

/-! ### What nothing is in the way of -/

theorem write_of_reaches (h : t.Reaches p) (hdir : t.isDirectory p.place = false) (c : ByteArray) :
    t.write p c = .ok (t.put p.place (.file c)) := by
  obtain ⟨dir, name, hresolve⟩ := h
  obtain ⟨htarget, hchecked⟩ := resolve?_eq_ok.1 hresolve
  rw [← place_of_resolve? hresolve] at hdir ⊢
  simp [write, htarget, Target.slash, hchecked, hdir]

theorem rename_of_reaches (hp : t.Reaches p) (hc : t.file? p.place = some c) (hq : t.Reaches q)
    (hdir : t.isDirectory q.place = false) :
    t.rename p q = .ok ((t.drop p.place).put q.place (.file c)) := by
  obtain ⟨pdir, pname, hp⟩ := hp
  obtain ⟨qdir, qname, hq⟩ := hq
  obtain ⟨hptarget, hpchecked⟩ := resolve?_eq_ok.1 hp
  obtain ⟨hqtarget, hqchecked⟩ := resolve?_eq_ok.1 hq
  rw [← place_of_resolve? hp] at hc ⊢
  rw [← place_of_resolve? hq] at hdir ⊢
  simp [rename, hptarget, hqtarget, Target.named, hpchecked, file?_eq_some.1 hc, hqchecked,
    Target.slash, hdir, bind, Except.bind]

theorem makeDirectory_of_isFolder (h : t.isFolder p = true) :
    t.makeDirectory p = .error .alreadyExists := by
  obtain ⟨target, hresolve, hdir⟩ := isFolder_iff.1 h
  rw [makeDirectory, hresolve]
  dsimp only
  rw [isDirectory_iff.1 hdir]
  rfl

end Tree

theorem run_makeDirectories_of_isFolder (h : t.isFolder d = true) :
    (makeDirectories d).run t = (.ok (), t) := by
  have hmake : (makeDirectory d).run t = (.error .alreadyExists, t) := by
    show Op.commit t (t.makeDirectory d) = _
    rw [Tree.makeDirectory_of_isFolder h]
    rfl
  have hlook : (isDirectory d).run t = (true, t) := by
    have htree := ((looks_isDirectory d).outcome (outcome_run _ t)).2
    rw [← h, ← run_isDirectory]
    exact Prod.ext rfl htree
  rw [makeDirectories, makeDirectoriesWithin]
  split
  · rfl
  · rw [run_bind, hmake]
    dsimp only
    rw [run_bind, hlook]
    rfl

/-- The directories above a path that leads somewhere are there. -/
theorem run_ensureParents_of_reaches (h : t.Reaches p) : (ensureParents p).run t = (.ok (), t) := by
  rw [ensureParents]
  split
  · rfl
  · next d hd =>
    have hmade : (makeDirectories d).run t = (.ok (), t) := by
      rcases h.isFolder_parent? hd with hempty | hdir
      · rw [makeDirectories, makeDirectoriesWithin, if_pos (by rw [hempty]; rfl)]
        rfl
      · exact run_makeDirectories_of_isFolder hdir
    rw [run_bind, hmade]
    rfl

/-- What has been written as a whole can be written again, and that changes nothing. -/
theorem Tree.Wrote.rewrite (h : t.Wrote t' p c) :
    ∃ t'', (writeAtomically p c).run t' = (.ok (), t'') ∧ t'.Alike t'' := by
  have hfile : t'.file? p.place = some c := by rw [h.file?, if_pos rfl]
  have hp : t'.isDirectory p.place = false := by
    rw [Bool.eq_false_iff, Ne, isDirectory_iff, file?_eq_some.1 hfile]
    simp
  have hwrite := write_of_reaches h.again h.free c
  have hgrows := grows_put_file (c := c) h.free
  have hput : ∀ a, (t'.put (temporaryPath p).place (.file c)).file? a =
      if a = (temporaryPath p).place then some c else t'.file? a := fun a => file?_put_file h.free
  have hnode : ∀ a, a ≠ (temporaryPath p).place →
      (t'.put (temporaryPath p).place (.file c)).node? a = t'.node? a := fun a ha => by
    rw [node?_put (ne_nil_of_not_isDirectory h.free), if_neg ha]
  generalize t'.put (temporaryPath p).place (.file c) = t₁ at hwrite hgrows hput hnode
  have htmp : t₁.file? (temporaryPath p).place = some c := by rw [hput, if_pos rfl]
  have hp₁ : t₁.isDirectory p.place = false := by
    have hsome : (t₁.file? p.place).isSome = true := by
      rw [hput, hfile]
      split <;> rfl
    obtain ⟨d, hd⟩ := Option.isSome_iff_exists.1 hsome
    rw [Bool.eq_false_iff, Ne, isDirectory_iff, file?_eq_some.1 hd]
    simp
  have hrename := rename_of_reaches (h.again.grows hgrows) htmp (h.reaches.grows hgrows) hp₁
  have hdrop := not_isDirectory_drop htmp hp₁
  refine ⟨_, ?_, hgrows.trans ((grows_drop htmp).trans (grows_put_file (c := c) hdrop)), fun a ha => ?_,
    fun a => ?_⟩
  · rw [writeAtomically, run_bind, run_ensureParents_of_reaches h.reaches]
    simp only [run_bind, run_write, hwrite, Op.commit, run_rename, hrename]
    rfl
  · rw [isDirectory_iff, node?_put (ne_nil_of_not_isDirectory hdrop),
      node?_drop (ne_nil_of_file? htmp)] at ha
    split at ha
    · cases ha
    · split at ha
      · cases ha
      · next hne =>
        rw [hnode a hne] at ha
        exact isDirectory_iff.2 ha
  · rw [file?_put_file hdrop, file?_drop htmp, hput, h.file?]
    split
    · rfl
    · split <;> rfl

end GqlArtifacts.Files
