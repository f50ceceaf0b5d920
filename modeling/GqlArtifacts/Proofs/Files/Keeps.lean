import GqlArtifacts.Backend.Process
import GqlArtifacts.Proofs.Files.Outcome

/-!
# Programs that take nothing away

`Program.Adds` says of a program that it renames and deletes nothing. It may write over files, and it may
fail at any time, but all files and directories that were there are there when it ends (`Adds.keeps`).
`Backend.KeepsFiles` and `Launcher.KeepsFiles` ask the same of what a run calls.
-/

namespace GqlArtifacts

namespace Files

open Program

variable {α β : Type} {t t' t'' : Tree} {p : Path} {c : ByteArray} {D : Place → Prop}

/-- All files and directories are still there. -/
structure Tree.Keeps (t t' : Tree) : Prop where
  grows : t.Grows t'
  isSome_file? : ∀ a, (t.file? a).isSome = true → (t'.file? a).isSome = true

namespace Tree.Keeps

theorem rfl : t.Keeps t := ⟨.rfl, fun _ h => h⟩

theorem trans (h : t.Keeps t') (h' : t'.Keeps t'') : t.Keeps t'' :=
  ⟨h.grows.trans h'.grows, fun a ha => h'.isSome_file? a (h.isSome_file? a ha)⟩

theorem isFile (h : t.Keeps t') (hp : t.isFile p = true) : t'.isFile p = true := by
  obtain ⟨hreaches, hsome⟩ := Tree.isFile_iff.1 hp
  exact Tree.isFile_iff.2 ⟨hreaches.grows h.grows, h.isSome_file? _ hsome⟩

end Tree.Keeps

theorem Tree.Made.keeps (h : t.Made D t') : t.Keeps t' :=
  ⟨h.grows, fun a ha => by rwa [h.file?_eq a]⟩

theorem keeps_write (h : t.write p c = .ok t') : t.Keeps t' := by
  obtain ⟨-, hdir, rfl⟩ := Tree.write_eq_ok h
  refine ⟨Tree.grows_put_file hdir, fun a ha => ?_⟩
  rw [Tree.file?_put_file hdir]
  split
  · rfl
  · exact ha

/-- Neither a renaming nor a deletion. -/
def Op.adds : Op → Bool
  | rename _ _ => false
  | remove _ => false
  | _ => true

theorem Op.Outcome.keeps {op : Op} {answer : op.Answer} (h : op.Outcome t answer t')
    (hadds : op.adds = true) : t.Keeps t' := by
  have hperform := outcome_perform.2 h
  cases op with
  | kind p | read p | list p =>
    obtain ⟨-, rfl⟩ := Looks.outcome (.perform rfl) hperform
    exact .rfl
  | write p c =>
    rcases outcome_write hperform with ⟨-, hwrite⟩ | ⟨-, rfl | ⟨part, hwrite⟩⟩
    · exact keeps_write hwrite
    · exact .rfl
    · exact keeps_write hwrite
  | makeDirectory p => exact (made_makeDirectory (D := fun _ => True) trivial hperform).keeps
  | rename | remove => cases hadds

namespace Program

/-- A program that takes nothing away. -/
def Adds (x : Program α) : Prop := x.Uses Op.adds

/-- Whatever becomes of the program, all that was there is there. -/
theorem Adds.keeps {x : Program α} {a : α} (hx : x.Adds) (h : x.Outcome t a t') : t.Keeps t' := by
  induction x generalizing t with
  | done a =>
    obtain ⟨-, rfl⟩ := h
    exact .rfl
  | step op next ih =>
    obtain ⟨answer, t₁, hop, hnext⟩ := h
    exact (hop.keeps hx.1).trans (ih answer (hx.2 answer) hnext)

theorem Looks.adds {x : Program α} (hx : x.Looks) : x.Adds :=
  hx.mono fun op h => by cases op <;> first | rfl | cases h

theorem adds_makeDirectoriesWithin (depth : Nat) (p : Path) : (makeDirectoriesWithin depth p).Adds := by
  have hmake : ∀ p, (makeDirectory p).Adds := fun _ => .perform rfl
  have hlook : ∀ p e, (do if ← isDirectory p then return .ok () else return .error e :
      Program (Except FileError Unit)).Adds := fun p e =>
    .bind (looks_isDirectory p).adds fun b => by split <;> exact .pure _
  induction depth generalizing p with
  | zero => exact .pure _
  | succ depth ih =>
    rw [makeDirectoriesWithin]
    split
    · exact .pure _
    · refine .bind (hmake p) fun made => ?_
      split
      · exact .pure _
      · split
        · exact .pure _
        · refine .bind (ih _) fun above => ?_
          split
          · exact .pure _
          · refine .bind (hmake p) fun again => ?_
            split
            · exact .pure _
            · exact hlook p _
      · exact hlook p _

end Program

end Files

open Files

/-- A backend that takes no file and no directory away. -/
def Backend.KeepsFiles (backend : Backend) : Prop :=
  ∀ r t a t', (backend r).Outcome t a t' → t.Keeps t'

/-- A launcher whose processes take no file and no directory away. -/
def Launcher.KeepsFiles (launch : Launcher) : Prop :=
  ∀ i input t a t', (launch i input).Outcome t a t' → t.Keeps t'

theorem Launcher.KeepsFiles.backend {launch : Launcher} (h : launch.KeepsFiles)
    (explain : ByteArray → String) (i : Invocation) :
    (Backend.ofProcess launch explain i).KeepsFiles := by
  intro request t answer t' houtcome
  obtain ⟨result, t₁, hlaunch, hanswer⟩ := Program.outcome_bind.1 houtcome
  have hkeeps := h _ _ _ _ _ hlaunch
  cases result <;> exact hanswer.2 ▸ hkeeps

end GqlArtifacts
