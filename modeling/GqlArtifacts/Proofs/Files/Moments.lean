import GqlArtifacts.Proofs.Files.Stop
import GqlArtifacts.Proofs.Files.Temporary

/-!
# Every moment of a whole write

`Program.Moment` are the trees that there can be while a program is carried out, whatever fails: a
program may be interrupted at any of them. Such a tree is no other than one that a failure of all
the rest would leave (`exists_outcome_of_moment`), so it is enough to look at the outcomes.

A whole write makes directories above its target, writes the temporary file and renames it
(`outcome_writeAtomically`). At every moment the target has its old content or all of the new one,
and nothing but the temporary file and new directories above has changed (`Tree.Midway`).
-/

namespace GqlArtifacts

namespace Files

variable {α : Type} {t t' t₁ t₂ : Tree} {p : Path} {c part : ByteArray}

/-! ### Moments -/

namespace Program

/-- The tree may be like this at some moment of the program: before or after an operation, which
may have failed, or when a part of a content has been written. -/
def Moment : Program α → Tree → Tree → Prop
  | done _, t, t' => t' = t
  | step op next, t, t' => t' = t ∨ ∃ answer t₁, op.Outcome t answer t₁ ∧ (next answer).Moment t₁ t'

theorem exists_outcome_of_moment {x : Program α} (h : x.Moment t t') : ∃ a, x.Outcome t a t' := by
  induction x generalizing t with
  | done a => exact ⟨a, rfl, h⟩
  | step op next ih =>
    rcases h with rfl | ⟨answer, t₁, hop, hnext⟩
    · exact exists_refused _ _
    · obtain ⟨a, hnext⟩ := ih answer hnext
      exact ⟨a, answer, t₁, hop, hnext⟩

end Program

open Program

/-! ### Whole writes -/

/-- The target has its old content or all of the new one, and apart from it only its temporary file
and new directories above it differ. -/
structure Tree.Midway (p : Path) (c : ByteArray) (t t' : Tree) : Prop where
  file? : t'.file? p.place = t.file? p.place ∨ t'.file? p.place = some c
  node? : ∀ a, t'.node? a = t.node? a ∨
    t.node? a = none ∧ t'.node? a = some .directory ∧ p.AbovePlace a ∨
    a = p.place ∧ t'.node? a = some (.file c) ∨ ¬p.Dotted ∧ a = (temporaryPath p).place

section
variable {n : String} (h : p.fileName? = some n)
include h

/-- A write to the temporary path leaves everything else as it is. -/
theorem node?_of_write (hw : t₁.write (temporaryPath p) part = .ok t₂) :
    ¬p.Dotted ∧ (temporaryPath p).place ≠ p.place ∧
      ∀ a, t₂.node? a = if a = (temporaryPath p).place then some (.file part) else t₁.node? a := by
  obtain ⟨hreaches, hdir, rfl⟩ := Tree.write_eq_ok hw
  have hdots : ¬p.Dotted := fun hdots => Path.not_reaches_temporaryPath h hdots t₁ hreaches
  exact ⟨hdots, Path.place_temporaryPath_ne h hdots, fun a =>
    Tree.node?_put (Tree.ne_nil_of_not_isDirectory hdir)⟩

/-- A whole write that succeeds has replaced the target and left no temporary file. -/
theorem node?_of_renamed (hw : t₁.write (temporaryPath p) c = .ok t₂)
    (hr : t₂.rename (temporaryPath p) p = .ok t') :
    t'.Reaches p ∧ ∀ a, t'.node? a = if a = p.place then some (.file c)
      else if a = (temporaryPath p).place then none else t₁.node? a := by
  obtain ⟨-, hne, hnode⟩ := node?_of_write h hw
  obtain ⟨c', hc', hreaches, hdir, rfl⟩ := Tree.rename_eq_ok hr
  have hdrop := Tree.not_isDirectory_drop hc' hdir
  obtain rfl : c' = c := by
    rw [Tree.file?_eq_some, hnode, if_pos rfl] at hc'
    injection hc' with hc'
    injection hc' with hc'
    exact hc'.symm
  refine ⟨hreaches.grows ((Tree.grows_drop hc').trans (Tree.grows_put_file hdrop)), fun a => ?_⟩
  rw [Tree.node?_put (Tree.ne_nil_of_not_isDirectory hdrop),
    Tree.node?_drop (Tree.ne_nil_of_file? hc'), hnode]
  split
  · rfl
  · split <;> rfl

theorem midway_of_outcome {r : Except FileFailure Unit}
    (ho : (writeAtomically p c).Outcome t r t') : t.Midway p c t' := by
  obtain ⟨t₁, hmade, ⟨-, rfl | ⟨part, hwrite⟩⟩ | ⟨-, t₂, hwrite, hrename⟩⟩ := outcome_writeAtomically ho
  · exact ⟨.inl (hmade.file?_eq _), fun a => (hmade a).imp_right .inl⟩
  · obtain ⟨hdots, hne, hnode⟩ := node?_of_write h hwrite
    refine ⟨.inl ?_, fun a => ?_⟩
    · rw [Tree.file?, hnode, if_neg (Ne.symm hne)]
      exact hmade.file?_eq _
    · rw [hnode]
      split
      · next ha => exact .inr (.inr (.inr ⟨hdots, ha⟩))
      · exact (hmade a).imp_right .inl
  · obtain ⟨-, hnode⟩ := node?_of_renamed h hwrite hrename
    obtain ⟨hdots, -, -⟩ := node?_of_write h hwrite
    refine ⟨.inr ?_, fun a => ?_⟩
    · rw [Tree.file?, hnode, if_pos rfl]
      rfl
    · rw [hnode]
      split
      · next ha => exact .inr (.inr (.inl ⟨ha, rfl⟩))
      · split
        · next ha => exact .inr (.inr (.inr ⟨hdots, ha⟩))
        · exact (hmade a).imp_right .inl

/-- At every moment of a whole write and after it, whatever fails: the target is as before or has
all of the new content, which of the two the result tells, and the temporary file lies beside it.
Only for a name like `..x` there is no temporary file, and the write fails. -/
theorem whole_at_every_moment (c : ByteArray) :
    (¬p.Dotted → ∃ dir n', n' ≠ n ∧ p.place = dir ++ [n] ∧
      (temporaryPath p).place = dir ++ [n']) ∧
    ∀ t t', ((writeAtomically p c).Moment t t' → t.Midway p c t') ∧
      ∀ r, (writeAtomically p c).Outcome t r t' →
        t.Midway p c t' ∧
        (r = .ok () → ¬p.Dotted ∧ t'.read p = .ok c ∧ t'.node? (temporaryPath p).place = none) ∧
        ∀ e, r = .error e → t'.file? p.place = t.file? p.place := by
  refine ⟨fun hdots => ?_, fun t t' => ⟨fun hm => ?_, fun r ho => ⟨midway_of_outcome h ho, ?_, ?_⟩⟩⟩
  · obtain ⟨dir, hp, htmp⟩ := Path.place_temporaryPath_of_fileName? h hdots
    exact ⟨dir, Path.temporaryName n, Path.temporaryName_ne n, hp, htmp⟩
  · obtain ⟨r, ho⟩ := exists_outcome_of_moment hm
    exact midway_of_outcome h ho
  · rintro rfl
    obtain ⟨t₁, -, ⟨⟨e, he⟩, -⟩ | ⟨-, t₂, hwrite, hrename⟩⟩ := outcome_writeAtomically ho
    · cases he
    · obtain ⟨hdots, hne, -⟩ := node?_of_write h hwrite
      obtain ⟨hreaches, hnode⟩ := node?_of_renamed h hwrite hrename
      refine ⟨hdots, Tree.read_eq_ok.2 ⟨hreaches, ?_⟩, ?_⟩
      · rw [Tree.file?, hnode, if_pos rfl]
        rfl
      · rw [hnode, if_neg hne, if_pos rfl]
  · rintro e rfl
    obtain ⟨t₁, hmade, ⟨-, rfl | ⟨part, hwrite⟩⟩ | ⟨hok, -⟩⟩ := outcome_writeAtomically ho
    · exact hmade.file?_eq _
    · obtain ⟨-, hne, hnode⟩ := node?_of_write h hwrite
      rw [Tree.file?, hnode, if_neg (Ne.symm hne)]
      exact hmade.file?_eq _
    · cases hok

end

/-- A hidden file with the extension of a temporary file is written, with a directory for it. -/
theorem whole_at_every_moment_sample : Path.fileName? ⟨"a/.b.tmp"⟩ = some ".b.tmp" ∧
    ∃ t', (writeAtomically ⟨"a/.b.tmp"⟩ "c".toUTF8).Outcome .empty (.ok ()) t' ∧
      (temporaryPath ⟨"a/.b.tmp"⟩).place = ["a", ".b.tmp.tmp"] ∧
      t'.read ⟨"a/.b.tmp"⟩ = .ok "c".toUTF8 ∧ t'.node? ["a", ".b.tmp.tmp"] = none := by
  have hname : Path.fileName? ⟨"a/.b.tmp"⟩ = some ".b.tmp" := by decide +kernel
  have hok : ((writeAtomically ⟨"a/.b.tmp"⟩ "c".toUTF8).run .empty).1.toOption = some () := by
    decide +kernel
  have htmp : (temporaryPath ⟨"a/.b.tmp"⟩).place = ["a", ".b.tmp.tmp"] := by decide +kernel
  have ho := outcome_run (writeAtomically ⟨"a/.b.tmp"⟩ "c".toUTF8) .empty
  cases hr : ((writeAtomically ⟨"a/.b.tmp"⟩ "c".toUTF8).run .empty).1 with
  | error e =>
    rw [hr] at hok
    cases hok
  | ok u =>
    rw [hr] at ho
    obtain ⟨-, hread, hgone⟩ :=
      (((whole_at_every_moment hname "c".toUTF8).2 .empty _).2 _ ho).2.1 rfl
    rw [htmp] at hgone
    exact ⟨hname, _, ho, htmp, hread, hgone⟩

/-- The temporary path of `..x` is no sibling of it but the directory above. -/
theorem dotted_never_written : Path.fileName? ⟨"..x"⟩ = some "..x" ∧ Path.place ⟨"..x"⟩ = ["..x"] ∧
    temporaryPath ⟨"..x"⟩ = ⟨".."⟩ ∧ (temporaryPath ⟨"..x"⟩).place = [] ∧
    ((writeAtomically ⟨"..x"⟩ "a".toUTF8).run .empty).1 = .error ⟨⟨".."⟩, .isADirectory⟩ := by
  decide +kernel

end Files

end GqlArtifacts
