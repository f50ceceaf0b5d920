import GqlArtifacts.Files.Atomic
import GqlArtifacts.Proofs.Files.Tree

/-!
# Programs whose operations may fail

`Program.run` lets an operation fail only where the tree is in its way. `Program.Outcome` allows for a
failure of any change at any time, as with a full disk: the tree is then as it was, and a write may
leave a part of the content. Looking goes as it would.

`Program.Uses` says what kinds of operations a program has, with a rule for each way to build one; a
program that only looks (`Program.Looks`) changes nothing.

A write as a whole makes directories above its target, writes the temporary file and renames it
(`outcome_writeAtomically`). `Program.Spares` says of a program that in no outcome it touches the
files at certain places. Making directories spares every file, and a write those that are neither its
target nor end in `p`, like the name of every temporary file that can be written
(`lastChar?_temporaryPath`).
-/

namespace GqlArtifacts

/-- A path that some number of steps to the parent leads to. -/
inductive Path.Above : Path → Path → Prop where
  | parent {p q : Path} (h : p.parent? = some q) : Above q p
  | step {p q r : Path} (h : p.parent? = some q) (hr : Above r q) : Above r p

/-- The places of the directories that lead to a path. -/
def Path.AbovePlace (p : Path) (a : Files.Place) : Prop := ∃ q : Path, q.Above p ∧ q.place = a

namespace Files

variable {α β : Type} {t t' t'' : Tree} {a : α} {b : β} {p q : Path} {c : ByteArray}
  {K D : Place → Prop}

/-! ### Outcomes -/

/-- How a change fails that nothing stands in the way of. -/
def Op.Breaks (t : Tree) : (op : Op) → op.Answer → Tree → Prop
  | write p _, answer, t' => (∃ e, answer = .error e) ∧ (t' = t ∨ ∃ part, t.write p part = .ok t')
  | makeDirectory _, answer, t' => (∃ e, answer = .error e) ∧ t' = t
  | rename _ _, answer, t' => (∃ e, answer = .error e) ∧ t' = t
  | remove _, answer, t' => (∃ e, answer = .error e) ∧ t' = t
  | _, _, _ => False

def Op.Outcome (t : Tree) (op : Op) (answer : op.Answer) (t' : Tree) : Prop :=
  op.run t = (answer, t') ∨ op.Breaks t answer t'

def Op.isLook : Op → Bool
  | kind _ => true
  | read _ => true
  | list _ => true
  | _ => false

namespace Program

/-- A program may come to a result and a tree, if each of its changes may fail. -/
def Outcome : Program α → Tree → α → Tree → Prop
  | done a, t, b, t' => b = a ∧ t' = t
  | step op next, t, b, t' => ∃ answer t₁, op.Outcome t answer t₁ ∧ (next answer).Outcome t₁ b t'

/-- All operations of a program are of one kind. -/
def Uses (kind : Op → Bool) : Program α → Prop
  | done _ => True
  | step op next => kind op = true ∧ ∀ answer, (next answer).Uses kind

/-- A program that only looks. -/
def Looks (x : Program α) : Prop := x.Uses Op.isLook

theorem outcome_run (x : Program α) (t : Tree) : x.Outcome t (x.run t).1 (x.run t).2 := by
  induction x generalizing t with
  | done a => exact ⟨rfl, rfl⟩
  | step op next ih => exact ⟨_, _, .inl rfl, ih _ _⟩

theorem outcome_bind {x : Program α} {f : α → Program β} : (x >>= f).Outcome t b t'' ↔
    ∃ a t', x.Outcome t a t' ∧ (f a).Outcome t' b t'' := by
  induction x generalizing t with
  | done a =>
    constructor
    · exact fun h => ⟨a, t, ⟨rfl, rfl⟩, h⟩
    · rintro ⟨_, _, ⟨rfl, rfl⟩, h⟩
      exact h
  | step op next ih =>
    constructor
    · rintro ⟨answer, t₁, hop, h⟩
      obtain ⟨a, t₂, hnext, hf⟩ := (ih answer).1 h
      exact ⟨a, t₂, ⟨answer, t₁, hop, hnext⟩, hf⟩
    · rintro ⟨a, t₂, ⟨answer, t₁, hop, hnext⟩, hf⟩
      exact ⟨answer, t₁, hop, (ih answer).2 ⟨a, t₂, hnext, hf⟩⟩

theorem outcome_perform {op : Op} {answer : op.Answer} :
    (perform op).Outcome t answer t' ↔ op.Outcome t answer t' := by
  constructor
  · rintro ⟨_, _, hop, rfl, rfl⟩
    exact hop
  · exact fun h => ⟨answer, t', h, rfl, rfl⟩

theorem outcome_map {x : Program α} {f : α → β} :
    (x >>= fun a => pure (f a)).Outcome t b t' ↔ ∃ a, x.Outcome t a t' ∧ b = f a := by
  rw [outcome_bind]
  constructor
  · rintro ⟨a, _, hx, rfl, rfl⟩
    exact ⟨a, hx, rfl⟩
  · rintro ⟨a, hx, rfl⟩
    exact ⟨a, t', hx, rfl, rfl⟩

/-! ### Kinds of operations -/

namespace Uses
variable {kind kind' : Op → Bool}

theorem pure (a : α) : (Pure.pure a : Program α).Uses kind := trivial

theorem perform {op : Op} (h : kind op = true) : (Program.perform op).Uses kind :=
  ⟨h, fun _ => trivial⟩

theorem bind {x : Program α} {f : α → Program β} (hx : x.Uses kind) (hf : ∀ a, (f a).Uses kind) :
    (x >>= f).Uses kind := by
  induction x with
  | done a => exact hf a
  | step op next ih => exact ⟨hx.1, fun answer => ih answer (hx.2 answer)⟩

theorem ite {c : Prop} [Decidable c] {x y : Program α} (hx : x.Uses kind) (hy : y.Uses kind) :
    (if c then x else y).Uses kind := by
  split
  · exact hx
  · exact hy

theorem mapM {f : α → Program β} (hf : ∀ a, (f a).Uses kind) (l : List α) :
    (l.mapM f).Uses kind := by
  induction l with
  | nil => exact pure _
  | cons a l ih =>
    rw [List.mapM_cons]
    exact (hf a).bind fun _ => ih.bind fun _ => pure _

theorem mono {x : Program α} (hx : x.Uses kind) (h : ∀ op, kind op = true → kind' op = true) :
    x.Uses kind' := by
  induction x with
  | done a => trivial
  | step op next ih => exact ⟨h op hx.1, fun answer => ih answer (hx.2 answer)⟩

end Uses

/-! ### Looking -/

/-- Looking does not fail in other ways, and changes nothing. -/
theorem Looks.outcome {x : Program α} (hx : x.Looks) (h : x.Outcome t a t') :
    x.run t = (a, t') ∧ t' = t := by
  induction x generalizing t with
  | done a => obtain ⟨rfl, rfl⟩ := h; exact ⟨rfl, rfl⟩
  | step op next ih =>
    obtain ⟨answer, t₁, hop, hnext⟩ := h
    obtain ⟨hlook, hrest⟩ := hx
    have hrun : op.run t = (answer, t₁) ∧ t₁ = t := by
      cases op with
      | kind p | read p | list p =>
        refine ⟨hop.resolve_right id, ?_⟩
        exact (congrArg Prod.snd (hop.resolve_right id)).symm
      | _ => cases hlook
    obtain ⟨hrun, rfl⟩ := hrun
    obtain ⟨hnext, rfl⟩ := ih answer (hrest answer) hnext
    exact ⟨by rw [run, hrun]; exact hnext, rfl⟩

theorem looks_isFile (p : Path) : (isFile p).Looks :=
  .bind ⟨rfl, fun _ => trivial⟩ fun k => by split <;> exact .pure _

theorem looks_isDirectory (p : Path) : (isDirectory p).Looks :=
  .bind ⟨rfl, fun _ => trivial⟩ fun k => by split <;> exact .pure _

theorem looks_exists (p : Path) : (exists? p).Looks :=
  .bind ⟨rfl, fun _ => trivial⟩ fun k => by split <;> exact .pure _

theorem looks_readText (p : Path) : (readText p).Looks := by
  refine .bind ⟨rfl, fun _ => trivial⟩ fun r => ?_
  split
  · exact .pure _
  · split <;> exact .pure _

/-! ### Single changes -/

end Program

theorem Op.commit_cases {r : Except FileError Tree} {answer : Except FileError Unit}
    (h : Op.commit t r = (answer, t')) :
    answer = .ok () ∧ r = .ok t' ∨ (∃ e, answer = .error e) ∧ t' = t := by
  cases r with
  | ok t₁ =>
    obtain ⟨rfl, rfl⟩ := Prod.mk.inj h
    exact .inl ⟨rfl, rfl⟩
  | error e =>
    obtain ⟨rfl, rfl⟩ := Prod.mk.inj h
    exact .inr ⟨⟨e, rfl⟩, rfl⟩

namespace Program
variable {r : Except FileError Unit}

/-- A write that is said to have succeeded has done so; one that has failed may have left a part. -/
theorem outcome_write (h : (write p c).Outcome t r t') :
    r = .ok () ∧ t.write p c = .ok t' ∨
      (∃ e, r = .error e) ∧ (t' = t ∨ ∃ part, t.write p part = .ok t') := by
  rcases outcome_perform.1 h with h | h
  · exact (Op.commit_cases h).imp_right fun ⟨he, ht⟩ => ⟨he, .inl ht⟩
  · exact .inr h

theorem outcome_makeDirectory (h : (makeDirectory p).Outcome t r t') :
    r = .ok () ∧ t.makeDirectory p = .ok t' ∨ (∃ e, r = .error e) ∧ t' = t :=
  (outcome_perform.1 h).elim Op.commit_cases .inr

theorem outcome_rename (h : (rename p q).Outcome t r t') :
    r = .ok () ∧ t.rename p q = .ok t' ∨ (∃ e, r = .error e) ∧ t' = t :=
  (outcome_perform.1 h).elim Op.commit_cases .inr

theorem outcome_remove (h : (remove p).Outcome t r t') :
    r = .ok () ∧ t.remove p = .ok t' ∨ (∃ e, r = .error e) ∧ t' = t :=
  (outcome_perform.1 h).elim Op.commit_cases .inr

end Program

open Program

/-! ### New directories -/

/-- Directories are new in some of these places, and nothing else has changed. -/
def Tree.Made (D : Place → Prop) (t t' : Tree) : Prop :=
  ∀ a, t'.node? a = t.node? a ∨ t.node? a = none ∧ t'.node? a = some .directory ∧ D a

namespace Tree.Made

theorem rfl : t.Made D t := fun _ => .inl (by rfl)

theorem trans (h : t.Made D t') (h' : t'.Made D t'') : t.Made D t'' := by
  intro a
  rcases h' a with heq' | ⟨hnone, hdir, hD⟩
  · rcases h a with heq | ⟨hnone, hdir, hD⟩
    · exact .inl (heq'.trans heq)
    · exact .inr ⟨hnone, heq'.trans hdir, hD⟩
  · rcases h a with heq | ⟨-, hdir', -⟩
    · exact .inr ⟨heq.symm.trans hnone, hdir, hD⟩
    · rw [hdir'] at hnone
      cases hnone

theorem file?_eq (h : t.Made D t') (a : Place) : t'.file? a = t.file? a := by
  rw [Tree.file?, Tree.file?]
  rcases h a with heq | ⟨hnone, hdir, -⟩
  · rw [heq]
  · rw [hnone, hdir]
    rfl

theorem grows (h : t.Made D t') : t.Grows t' := by
  intro a ha
  rw [Tree.isDirectory_iff] at ha ⊢
  rcases h a with heq | ⟨hnone, -, -⟩
  · exact heq.trans ha
  · rw [hnone] at ha
    cases ha

end Tree.Made

theorem made_makeDirectory {r : Except FileError Unit} (hp : D p.place)
    (h : (makeDirectory p).Outcome t r t') : t.Made D t' := by
  rcases outcome_makeDirectory h with ⟨-, hmade⟩ | ⟨-, rfl⟩
  · obtain ⟨hnone, rfl⟩ := Tree.makeDirectory_eq_ok hmade
    have hne : p.place ≠ [] := by
      intro hroot
      rw [hroot] at hnone
      cases hnone
    intro a
    rw [Tree.node?_put hne]
    split
    · next ha =>
      subst ha
      exact .inr ⟨hnone, rfl, hp⟩
    · exact .inl rfl
  · exact .rfl

theorem made_makeDirectoriesWithin {depth : Nat} {r : Except FileError Unit} (hp : D p.place)
    (hD : ∀ q : Path, q.Above p → D q.place) (h : (makeDirectoriesWithin depth p).Outcome t r t') :
    t.Made D t' := by
  have hlook : ∀ {t t' : Tree} {p : Path} {e : FileError} {r : Except FileError Unit},
      (do if ← isDirectory p then return .ok () else return .error e :
        Program (Except FileError Unit)).Outcome t r t' → t.Made D t' := by
    intro t t' p e r h
    have hlooks : (do if ← isDirectory p then return .ok () else return .error e :
        Program (Except FileError Unit)).Looks :=
      (looks_isDirectory p).bind fun b => by split <;> exact .pure _
    obtain ⟨-, rfl⟩ := hlooks.outcome h
    exact .rfl
  induction depth generalizing p t r t' with
  | zero =>
    obtain ⟨-, rfl⟩ := h
    exact .rfl
  | succ depth ih =>
    rw [makeDirectoriesWithin] at h
    split at h
    · obtain ⟨-, rfl⟩ := h
      exact .rfl
    · obtain ⟨made, t₁, hmade, h⟩ := outcome_bind.1 h
      have hfirst := made_makeDirectory hp hmade
      split at h
      · obtain ⟨-, rfl⟩ := h
        exact hfirst
      · split at h
        · obtain ⟨-, rfl⟩ := h
          exact hfirst
        · next parent hparent =>
          obtain ⟨above, t₂, habove, h⟩ := outcome_bind.1 h
          have hsecond := hfirst.trans (ih (hD parent (.parent hparent))
            (fun q hq => hD q (.step hparent hq)) habove)
          split at h
          · obtain ⟨-, rfl⟩ := h
            exact hsecond
          · obtain ⟨again, t₃, hagain, h⟩ := outcome_bind.1 h
            have hthird := hsecond.trans (made_makeDirectory hp hagain)
            split at h
            · obtain ⟨-, rfl⟩ := h
              exact hthird
            · exact hthird.trans (hlook h)
      · exact hfirst.trans (hlook h)

theorem made_ensureParents {r : Except FileFailure Unit} (h : (ensureParents p).Outcome t r t') :
    t.Made (Path.AbovePlace p) t' := by
  rw [ensureParents] at h
  split at h
  · obtain ⟨-, rfl⟩ := h
    exact .rfl
  · next parent hparent =>
    obtain ⟨made, hmade, -⟩ := outcome_map.1 h
    exact made_makeDirectoriesWithin ⟨parent, .parent hparent, rfl⟩
      (fun q hq => ⟨q, .step hparent hq, rfl⟩) hmade

/-! ### Whole writes -/

/-- All that a whole write can do. -/
theorem outcome_writeAtomically {r : Except FileFailure Unit}
    (h : (writeAtomically p c).Outcome t r t') : ∃ t₁, t.Made (Path.AbovePlace p) t₁ ∧
      ((∃ e, r = .error e) ∧ (t' = t₁ ∨ ∃ part, t₁.write (temporaryPath p) part = .ok t') ∨
        r = .ok () ∧ ∃ t₂, t₁.write (temporaryPath p) c = .ok t₂ ∧
          t₂.rename (temporaryPath p) p = .ok t') := by
  rw [writeAtomically] at h
  obtain ⟨made, t₁, hmade, h⟩ := outcome_bind.1 h
  refine ⟨t₁, made_ensureParents hmade, ?_⟩
  cases made with
  | error e =>
    obtain ⟨rfl, rfl⟩ := h
    exact .inl ⟨⟨e, rfl⟩, .inl rfl⟩
  | ok u =>
    obtain ⟨written, t₂, hwritten, h⟩ := outcome_bind.1 h
    rcases outcome_write hwritten with ⟨rfl, hwrite⟩ | ⟨⟨e, rfl⟩, hleft⟩
    · obtain ⟨renamed, hrenamed, rfl⟩ := outcome_map.1 h
      rcases outcome_rename hrenamed with ⟨rfl, hrename⟩ | ⟨⟨e, rfl⟩, rfl⟩
      · exact .inr ⟨rfl, t₂, hwrite, hrename⟩
      · exact .inl ⟨⟨_, rfl⟩, .inr ⟨c, hwrite⟩⟩
    · obtain ⟨rfl, rfl⟩ := h
      exact .inl ⟨⟨_, rfl⟩, hleft⟩

/-! ### Files that are left alone -/

/-- The files at these places are the same, with at least the directories there were. -/
structure Tree.Spared (K : Place → Prop) (t t' : Tree) : Prop where
  grows : t.Grows t'
  file? : ∀ a, K a → t'.file? a = t.file? a

/-- No outcome of the program touches a file at these places. -/
def Program.Spares (K : Place → Prop) (x : Program α) : Prop :=
  ∀ t a t', x.Outcome t a t' → t.Spared K t'

theorem Tree.Spared.rfl : t.Spared K t := ⟨.rfl, fun _ _ => by rfl⟩

theorem Tree.Spared.trans (h : t.Spared K t') (h' : t'.Spared K t'') : t.Spared K t'' :=
  ⟨h.grows.trans h'.grows, fun a ha => (h'.file? a ha).trans (h.file? a ha)⟩

theorem Tree.Spared.mono {K' : Place → Prop} (h : t.Spared K t') (hK : ∀ a, K' a → K a) :
    t.Spared K' t' := ⟨h.grows, fun a ha => h.file? a (hK a ha)⟩

theorem Tree.Made.spared (h : t.Made D t') : t.Spared K t' := ⟨h.grows, fun a _ => h.file?_eq a⟩

theorem spared_write (h : t.write p c = .ok t') (hp : ¬K p.place) : t.Spared K t' := by
  obtain ⟨-, hdir, rfl⟩ := Tree.write_eq_ok h
  refine ⟨Tree.grows_put_file hdir, fun a ha => ?_⟩
  rw [Tree.file?_put_file hdir, if_neg]
  rintro rfl
  exact hp ha

theorem spared_rename (h : t.rename p q = .ok t') (hp : ¬K p.place) (hq : ¬K q.place) :
    t.Spared K t' := by
  obtain ⟨d, hd, -, hdir, rfl⟩ := Tree.rename_eq_ok h
  have hdrop := Tree.not_isDirectory_drop hd hdir
  refine ⟨(Tree.grows_drop hd).trans (Tree.grows_put_file hdrop), fun a ha => ?_⟩
  rw [Tree.file?_put_file hdrop, if_neg, Tree.file?_drop hd, if_neg]
  · rintro rfl; exact hp ha
  · rintro rfl; exact hq ha

namespace Program

theorem Looks.spares {x : Program α} (hx : x.Looks) : x.Spares K := by
  intro t a t' h
  obtain ⟨-, rfl⟩ := hx.outcome h
  exact .rfl

theorem spares_pure (a : α) : (pure a : Program α).Spares K := Looks.spares (.pure a)

theorem Spares.bind {x : Program α} {f : α → Program β} (hx : x.Spares K)
    (hf : ∀ a, (f a).Spares K) : (x >>= f).Spares K := by
  intro t b t'' h
  obtain ⟨a, t', hx', hf'⟩ := outcome_bind.1 h
  exact (hx _ _ _ hx').trans (hf a _ _ _ hf')

theorem spares_remove (hp : ¬K p.place) : (remove p).Spares K := by
  intro t answer t' h
  rcases outcome_remove h with ⟨-, hremove⟩ | ⟨-, rfl⟩
  · obtain ⟨hf, rfl⟩ := Tree.remove_eq_ok hremove
    obtain ⟨d, hd⟩ := Option.isSome_iff_exists.1 (Tree.isFile_iff.1 hf).2
    refine ⟨Tree.grows_drop hd, fun a ha => ?_⟩
    rw [Tree.file?_drop hd, if_neg]
    rintro rfl
    exact hp ha
  · exact .rfl

end Program

theorem spares_removeIfPresent (hp : ¬K p.place) : (removeIfPresent p).Spares K := by
  refine (spares_remove hp).bind fun r => ?_
  split <;> exact spares_pure _

/-- A whole write touches no file but its temporary one, and its target if it succeeds. -/
theorem spared_of_outcome {r : Except FileFailure Unit} (h : (writeAtomically p c).Outcome t r t')
    (htmp : ∀ t : Tree, t.Reaches (temporaryPath p) → ¬K (temporaryPath p).place)
    (hr : r.isOk = true → ¬K p.place) : t.Spared K t' := by
  have hwrite : ∀ {t₁ t₂ : Tree} {part : ByteArray}, t₁.write (temporaryPath p) part = .ok t₂ →
      ¬K (temporaryPath p).place := fun hw => htmp _ (Tree.write_eq_ok hw).1
  obtain ⟨t₁, hmade, ⟨-, rfl | ⟨part, hw⟩⟩ | ⟨rfl, t₂, hw, hrename⟩⟩ := outcome_writeAtomically h
  · exact hmade.spared
  · exact hmade.spared.trans (spared_write hw (hwrite hw))
  · exact (hmade.spared.trans (spared_write hw (hwrite hw))).trans
      (spared_rename hrename (hwrite hw) (hr rfl))

/-! ### The names of temporary files -/

/-- The name of a temporary file that can be written tells it. -/
theorem lastChar?_temporaryPath (h : t.Reaches (temporaryPath p)) :
    (temporaryPath p).place.lastChar? = some 'p' := by
  obtain ⟨init, n, hsegs, hn⟩ := h.exists_segments
  have hne : p.extension?.getD "tmp" ++ ".tmp" ≠ "" := by simp
  rcases p.withExtension_cases hne with ⟨heq, hnone⟩ | ⟨before, name, hbefore, hname, heq | heq⟩
  · -- then the path ends in no name, and nothing is written there
    rw [temporaryPath, heq] at hsegs
    rw [Path.fileName?_eq hsegs hn, Path.splitLast?_eq hsegs hn] at hnone
    rcases hnone with h | h <;> cases h
  · rw [temporaryPath, heq, Path.segments_ofSegments_concat hbefore (by decide)] at hsegs
    obtain ⟨-, hlast⟩ := List.append_inj' hsegs rfl
    exact absurd (List.cons.inj hlast).1.symm hn.2.2.2
  · have hslash : '/' ∉ name.toList :=
      Path.not_mem_of_mem_segments (Path.mem_segments_of_fileName? hname)
    have hext : '/' ∉ (p.extension?.getD "tmp").toList := by
      rw [Path.extension?, hname, Option.bind_some]
      cases he : (Path.splitExtension name).2 with
      | none => decide
      | some e => exact (Path.not_mem_splitExtension hslash).2 e he
    have hlast : '/' ∉ ((Path.splitExtension name).1 ++ "." ++ p.extension?.getD "tmp" ++
        ".tmp").toList := by
      simpa [(Path.not_mem_splitExtension hslash).1] using hext
    rw [← String.append_assoc] at heq
    have hsegs' := Path.segments_ofSegments_concat hbefore hlast
    rw [← heq, ← temporaryPath, hsegs] at hsegs'
    obtain ⟨-, hlast'⟩ := List.append_inj' hsegs' (by rw [List.length_singleton, List.length_singleton])
    rw [Path.place_of_segments hsegs hn, Place.lastChar?_concat, (List.cons.inj hlast').1,
      String.toList_append, List.getLast?_append]
    rfl

section WriteAtomically
variable (hK : ∀ a, K a → Place.lastChar? a ≠ some 'p')
include hK

theorem not_kept_temporaryPath (h : t.Reaches (temporaryPath p)) : ¬K (temporaryPath p).place :=
  fun hk => hK _ hk (lastChar?_temporaryPath h)

/-- A whole write that fails touches no file but a temporary one; one that succeeds, its target. -/
theorem spared_of_writeAtomically {r : Except FileFailure Unit}
    (h : (writeAtomically p c).Outcome t r t') (hr : r.isOk = true → ¬K p.place) :
    t.Spared K t' :=
  spared_of_outcome h (fun _ => not_kept_temporaryPath hK) hr

theorem spares_writeAtomically (hp : ¬K p.place) (c : ByteArray) :
    (writeAtomically p c).Spares K := fun _ _ _ h => spared_of_writeAtomically hK h fun _ => hp

end WriteAtomically

end Files

end GqlArtifacts
