import GqlArtifacts.Proofs.Files.Outcome

/-!
# What the programs over files do

Each program of `Files.Atomic` and its effect on the files of the tree when no operation fails without
a reason: looking changes nothing (`run_isFile`, `run_readText`), a write as a whole changes the file
at its place and leaves no temporary file (`Wrote`), and a deletion takes away at most the file at its
place. `Cleared` says the last of a whole batch of deletions.

That the name of a temporary file ends in `.tmp` is all that is known of it when paths are told apart.
So writes to targets that end in another letter do not get in each other's way (`WroteAll`).
-/

namespace GqlArtifacts.Files

open Program

variable {t t' t'' : Tree} {p : Path} {c : ByteArray} {a : Place}

/-! ### Looking -/

theorem run_isFile (p : Path) (t : Tree) : (isFile p).run t = (t.isFile p, t) := by
  have hkind : (kind p).run t = (t.kind p, t) := rfl
  rw [isFile, run_bind, hkind, Tree.isFile]
  dsimp only
  cases t.kind p with
  | error e => rfl
  | ok k => cases k <;> rfl

/-- The content of a file as text. -/
def Tree.readText (t : Tree) (p : Path) : Except FileError String :=
  match t.read p with
  | .error e => .error e
  | .ok content =>
    match Text.ofBytes? content with
    | some s => .ok s
    | none => .error .invalidText

theorem run_readText (p : Path) (t : Tree) : (readText p).run t = (t.readText p, t) := by
  rw [Program.readText, run_bind, Tree.readText]
  show (match t.read p with
    | .error e => pure (.error e)
    | .ok content =>
      match Text.ofBytes? content with
      | some s => pure (.ok s)
      | none => pure (.error .invalidText) : Program (Except FileError String)).run t = _
  cases t.read p with
  | error e => rfl
  | ok content => dsimp only; cases Text.ofBytes? content <;> rfl

/-! ### Writing -/

/-- What a write as a whole has done when it succeeds. -/
structure Tree.Wrote (t t' : Tree) (p : Path) (c : ByteArray) : Prop where
  grows : t.Grows t'
  reaches : t'.Reaches p
  /-- The temporary file can be written again. -/
  again : t'.Reaches (temporaryPath p)
  free : t'.isDirectory (temporaryPath p).place = false
  file? : ∀ a, t'.file? a =
    if a = p.place then some c else if a = (temporaryPath p).place then none else t.file? a

theorem run_write (p : Path) (c : ByteArray) (t : Tree) :
    (write p c).run t = Op.commit t (t.write p c) := rfl

theorem run_rename (p q : Path) (t : Tree) :
    (rename p q).run t = Op.commit t (t.rename p q) := rfl

theorem wrote_of_writeAtomically (h : (writeAtomically p c).run t = (.ok (), t')) :
    t.Wrote t' p c := by
  have ho := outcome_run (writeAtomically p c) t
  rw [h] at ho
  obtain ⟨t₁, hmade, hfailed | ⟨-, t₂, hw, hr⟩⟩ := outcome_writeAtomically ho
  · obtain ⟨e, he⟩ := hfailed.1
    cases he
  obtain ⟨hreach, hdir, ht₂⟩ := Tree.write_eq_ok hw
  obtain ⟨c', hc', hp, hpdir, rfl⟩ := Tree.rename_eq_ok hr
  have hdrop := Tree.not_isDirectory_drop hc' hpdir
  have hgrows : t₂.Grows ((t₂.drop (temporaryPath p).place).put p.place (.file c')) :=
    (Tree.grows_drop hc').trans (Tree.grows_put_file hdrop)
  have hgrows₂ : t₁.Grows t₂ := ht₂ ▸ Tree.grows_put_file hdir
  have hfile₂ : ∀ a, t₂.file? a = if a = (temporaryPath p).place then some c else t.file? a := by
    intro a
    rw [ht₂, Tree.file?_put_file hdir, hmade.file?_eq]
  rw [hfile₂, if_pos rfl] at hc'
  obtain rfl := Option.some.inj hc'
  have hfree : ((t₂.drop (temporaryPath p).place).put p.place (.file c)).isDirectory
      (temporaryPath p).place = false := by
    rw [Bool.eq_false_iff, Ne, Tree.isDirectory_iff,
      Tree.node?_put (Tree.ne_nil_of_not_isDirectory hdrop), Tree.node?_drop (Tree.ne_nil_of_not_isDirectory hdir)]
    split
    · simp
    · simp
  refine ⟨(hmade.grows.trans hgrows₂).trans hgrows, hp.grows hgrows,
    hreach.grows (hgrows₂.trans hgrows), hfree, fun a => ?_⟩
  rw [Tree.file?_put_file hdrop, Tree.file?_drop (hfile₂ _ ▸ if_pos rfl), hfile₂]
  split
  · rfl
  · split <;> rfl

namespace Tree.Wrote
variable (h : t.Wrote t' p c)
include h

theorem temporary : (temporaryPath p).place.lastChar? = some 'p' := lastChar?_temporaryPath h.again

theorem isSome_file? : (t'.file? p.place).isSome = true := by
  rw [h.file?, if_pos rfl]
  rfl

theorem read : t'.read p = .ok c := Tree.read_eq_ok.2 ⟨h.reaches, by rw [h.file?, if_pos rfl]⟩

theorem file?_of_ne (ha : a ≠ p.place) :
    t'.file? a = t.file? a ∨ t'.file? a = none ∧ a = (temporaryPath p).place := by
  rw [h.file?, if_neg ha]
  split
  · next htmp => exact .inr ⟨rfl, htmp⟩
  · exact .inl rfl

theorem file?_of_lastChar? (ha : a ≠ p.place) (hc : a.lastChar? ≠ some 'p') :
    t'.file? a = t.file? a := by
  rcases h.file?_of_ne ha with heq | ⟨-, htmp⟩
  · exact heq
  · rw [htmp] at hc
    exact absurd h.temporary hc

/-- What can be read elsewhere can be read as before. -/
theorem read_of_ne {q : Path} {d : ByteArray} (hq : q.place ≠ p.place)
    (htmp : q.place ≠ (temporaryPath p).place) (hd : t.read q = .ok d) : t'.read q = .ok d := by
  obtain ⟨hreaches, hfile⟩ := Tree.read_eq_ok.1 hd
  refine Tree.read_eq_ok.2 ⟨hreaches.grows h.grows, ?_⟩
  rw [h.file?, if_neg hq, if_neg htmp, hfile]

end Tree.Wrote

/-- The last of several writes to a place. -/
def lastWrite? (writes : List (Path × ByteArray)) (a : Place) : Option ByteArray :=
  (writes.reverse.find? fun w => w.1.place = a).map Prod.snd

theorem lastWrite?_cons (p : Path) (c : ByteArray) (writes : List (Path × ByteArray)) (a : Place) :
    lastWrite? ((p, c) :: writes) a =
      (lastWrite? writes a).or (if p.place = a then some c else none) := by
  rw [lastWrite?, lastWrite?, List.reverse_cons, List.find?_append, Option.map_or,
    List.find?_singleton]
  congr 1
  by_cases hp : p.place = a <;> simp [hp]

theorem lastWrite?_eq_none {writes : List (Path × ByteArray)} :
    lastWrite? writes a = none ↔ ∀ w ∈ writes, w.1.place ≠ a := by
  simp [lastWrite?]

/-- What several writes have done, one after the other. -/
structure Tree.WroteAll (t t' : Tree) (writes : List (Path × ByteArray)) : Prop where
  grows : t.Grows t'
  reaches : ∀ w ∈ writes, t'.Reaches w.1
  /-- A temporary file is told by its name, and is gone. -/
  temporary : ∀ w ∈ writes, (temporaryPath w.1).place.lastChar? = some 'p' ∧
    t'.file? (temporaryPath w.1).place = none
  written : ∀ a c, lastWrite? writes a = some c → t'.file? a = some c
  others : ∀ a, (∀ w ∈ writes, w.1.place ≠ a ∧ (temporaryPath w.1).place ≠ a) →
    t'.file? a = t.file? a

theorem Tree.WroteAll.nil : t.WroteAll t [] :=
  ⟨.rfl, by simp, by simp, by simp [lastWrite?], fun _ _ => rfl⟩

theorem Tree.WroteAll.cons {writes : List (Path × ByteArray)} (hw : t.Wrote t' p c)
    (h : t'.WroteAll t'' writes)
    (hp : ∀ w ∈ (p, c) :: writes, w.1.place.lastChar? ≠ some 'p') :
    t.WroteAll t'' ((p, c) :: writes) := by
  have hletter : p.place.lastChar? ≠ some 'p' := hp (p, c) (List.mem_cons_self ..)
  have htmp : ∀ w ∈ writes, (temporaryPath w.1).place ≠ p.place := fun w hwr heq =>
    hletter (by rw [← heq]; exact (h.temporary w hwr).1)
  have hself : (temporaryPath p).place ≠ p.place := fun heq =>
    hletter (by rw [← heq]; exact hw.temporary)
  refine ⟨hw.grows.trans h.grows, fun w hmem => ?_, fun w hmem => ?_, fun a d ha => ?_, fun a ha => ?_⟩
  · rcases List.mem_cons.1 hmem with rfl | hmem
    · exact hw.reaches.grows h.grows
    · exact h.reaches w hmem
  · rcases List.mem_cons.1 hmem with rfl | hmem
    · refine ⟨hw.temporary, ?_⟩
      -- later writes have other targets; if one has the same temporary file, it has taken it away
      by_cases hex : ∃ w ∈ writes, (temporaryPath w.1).place = (temporaryPath p).place
      · obtain ⟨w, hmem, heq⟩ := hex
        rw [← heq]
        exact (h.temporary w hmem).2
      · rw [h.others, hw.file?, if_neg hself, if_pos rfl]
        refine fun w hmem => ⟨fun heq => ?_, fun heq => hex ⟨w, hmem, heq⟩⟩
        refine hp w (List.mem_cons_of_mem _ hmem) ?_
        rw [heq]
        exact hw.temporary
    · exact h.temporary w hmem
  · rw [lastWrite?_cons] at ha
    cases hl : lastWrite? writes a with
    | some d' =>
      rw [hl] at ha
      obtain rfl : d' = d := Option.some.inj ha
      exact h.written a d' hl
    | none =>
      rw [hl, Option.none_or] at ha
      split at ha
      · next hpa =>
        obtain rfl := Option.some.inj ha
        subst hpa
        rw [h.others _ fun w hmem => ⟨lastWrite?_eq_none.1 hl w hmem, htmp w hmem⟩, hw.file?,
          if_pos rfl]
      · cases ha
  · have hfirst := ha (p, c) (List.mem_cons_self ..)
    rw [h.others a fun w hmem => ha w (List.mem_cons_of_mem _ hmem), hw.file?,
      if_neg (Ne.symm hfirst.1), if_neg (Ne.symm hfirst.2)]

theorem Tree.WroteAll.file?_of_lastChar? {writes : List (Path × ByteArray)}
    (h : t.WroteAll t' writes) (ha : a.lastChar? ≠ some 'p') :
    t'.file? a = (lastWrite? writes a).or (t.file? a) := by
  cases hl : lastWrite? writes a with
  | some d => exact h.written a d hl
  | none =>
    refine h.others a fun w hw => ⟨lastWrite?_eq_none.1 hl w hw, ?_⟩
    rintro rfl
    exact ha (h.temporary w hw).1

/-! ### Deleting -/

theorem run_remove (p : Path) (t : Tree) : (remove p).run t = Op.commit t (t.remove p) := rfl

/-- Deletions have taken away these files, and no others. -/
structure Tree.Cleared (t t' : Tree) (gone : Path → Prop) : Prop where
  grows : t.Grows t'
  shrinks : t'.Grows t
  file? : ∀ a, t'.file? a = t.file? a ∨ t'.file? a = none ∧ ∃ p, gone p ∧ p.place = a
  cleared : ∀ p, gone p → t.Reaches p → t'.file? p.place = none

namespace Tree.Cleared
variable {gone gone' : Path → Prop}

theorem rfl (h : ∀ p, ¬ gone p) : t.Cleared t gone :=
  ⟨.rfl, .rfl, fun _ => .inl (by rfl), fun p hp => absurd hp (h p)⟩

theorem trans (h : t.Cleared t' gone) (h' : t'.Cleared t'' gone') :
    t.Cleared t'' fun p => gone p ∨ gone' p := by
  refine ⟨h.grows.trans h'.grows, h'.shrinks.trans h.shrinks, fun a => ?_, fun p hp hr => ?_⟩
  · rcases h'.file? a with ha' | ⟨ha', p, hp, hpa⟩
    · rcases h.file? a with ha | ⟨ha, p, hp, hpa⟩
      · exact .inl (ha'.trans ha)
      · exact .inr ⟨ha'.trans ha, p, .inl hp, hpa⟩
    · exact .inr ⟨ha', p, .inr hp, hpa⟩
  · rcases hp with hp | hp
    · rcases h'.file? p.place with ha' | ⟨ha', -⟩
      · exact ha'.trans (h.cleared p hp hr)
      · exact ha'
    · exact h'.cleared p hp (hr.grows h.grows)

theorem congr (h : t.Cleared t' gone) (hg : ∀ p, gone p ↔ gone' p) : t.Cleared t' gone' := by
  obtain rfl : gone = gone' := funext fun p => propext (hg p)
  exact h

/-- A file that is not among the cleared ones is as before. -/
theorem file?_of_not (h : t.Cleared t' gone) (ha : ∀ p, gone p → p.place ≠ a) :
    t'.file? a = t.file? a := by
  rcases h.file? a with h | ⟨-, p, hp, hpa⟩
  · exact h
  · exact absurd hpa (ha p hp)

end Tree.Cleared

theorem cleared_of_removeIfPresent {b : Bool} (h : (removeIfPresent p).run t = (.ok b, t')) :
    t.Cleared t' (· = p) := by
  rw [removeIfPresent, run_bind, run_remove] at h
  cases hr : t.remove p with
  | ok t₁ =>
    rw [hr] at h
    obtain rfl : t₁ = t' := congrArg Prod.snd h
    obtain ⟨hf, rfl⟩ := Tree.remove_eq_ok hr
    obtain ⟨c, hc⟩ := Option.isSome_iff_exists.1 (Tree.isFile_iff.1 hf).2
    refine ⟨Tree.grows_drop hc, Tree.drop_grows hc, fun a => ?_, ?_⟩
    · rw [Tree.file?_drop hc]
      split
      · next ha => exact .inr ⟨rfl, p, rfl, ha.symm⟩
      · exact .inl rfl
    · rintro q rfl -
      rw [Tree.file?_drop hc, if_pos rfl]
  | error e =>
    rw [hr] at h
    cases e with
    | notFound =>
      obtain rfl : t = t' := congrArg Prod.snd h
      refine ⟨.rfl, .rfl, fun _ => .inl rfl, ?_⟩
      rintro q rfl hq
      have hf := Tree.remove_eq_notFound hr
      rw [Bool.eq_false_iff, Ne, Tree.isFile_iff, not_and] at hf
      simpa using hf hq
    | _ => cases h

end GqlArtifacts.Files
