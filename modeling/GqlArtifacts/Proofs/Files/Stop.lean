import GqlArtifacts.Proofs.Files.Outcome

/-!
# Programs that are stopped

A program that is stopped between two operations leaves the tree at that moment, and one that is
stopped while it writes leaves a part of the content. This is no other tree than if the rest had failed
for good: every operation can be refused, and then a program comes to an end without changing anything
(`exists_refused`). So what holds of all failures of a program holds when it is stopped, provided that
refusing its rest makes it fail (`Program.Fragile`). A whole write is such a program, and whatever ends
with one.
-/

namespace GqlArtifacts.Files

variable {α β : Type} {t t' : Tree} {E : α → Prop} {F : β → Prop}

namespace Program

/-- The tree that a program leaves when it is stopped before an operation, or while it writes. -/
def Stopped : Program α → Tree → Tree → Prop
  | done _, _, _ => False
  | step op next, t, t' => t' = t ∨
      (∃ p content n, op = .write p content ∧ t.write p (content.extract 0 n) = .ok t') ∨
      (next (op.run t).1).Stopped (op.run t).2 t'

/-- The tree before the operation with a number, counted from zero, if the program comes that far. -/
def at? : Program α → Nat → Tree → Option Tree
  | done _, _, _ => none
  | step _ _, 0, t => some t
  | step op next, n + 1, t => (next (op.run t).1).at? n (op.run t).2

theorem stopped_of_at? {x : Program α} {n : Nat} (h : x.at? n t = some t') : x.Stopped t t' := by
  induction x generalizing t n with
  | done a => cases h
  | step op next ih =>
    cases n with
    | zero => exact .inl (Option.some.inj h).symm
    | succ n => exact .inr (.inr (ih _ h))

/-- The program may come to one of these results without having changed anything, and wherever it is
stopped, it may leave the same tree with one of them. -/
structure Fragile (E : α → Prop) (x : Program α) : Prop where
  refused : ∀ t, ∃ a, E a ∧ x.Outcome t a t
  stopped : ∀ t t', x.Stopped t t' → ∃ a, E a ∧ x.Outcome t a t'

theorem exists_refused_op (op : Op) (t : Tree) : ∃ answer, op.Outcome t answer t := by
  cases op with
  | kind p => exact ⟨_, .inl rfl⟩
  | read p => exact ⟨_, .inl rfl⟩
  | list p => exact ⟨_, .inl rfl⟩
  | write p content => exact ⟨.error .notFound, .inr ⟨⟨_, rfl⟩, .inl rfl⟩⟩
  | makeDirectory p => exact ⟨.error .notFound, .inr ⟨⟨_, rfl⟩, rfl⟩⟩
  | rename p q => exact ⟨.error .notFound, .inr ⟨⟨_, rfl⟩, rfl⟩⟩
  | remove p => exact ⟨.error .notFound, .inr ⟨⟨_, rfl⟩, rfl⟩⟩

theorem exists_refused (x : Program α) (t : Tree) : ∃ a, x.Outcome t a t := by
  induction x with
  | done a => exact ⟨a, rfl, rfl⟩
  | step op next ih =>
    obtain ⟨answer, hop⟩ := exists_refused_op op t
    obtain ⟨a, hnext⟩ := ih answer
    exact ⟨a, answer, t, hop, hnext⟩

theorem exists_outcome_of_stopped {x : Program α} (h : x.Stopped t t') : ∃ a, x.Outcome t a t' := by
  induction x generalizing t with
  | done a => exact h.elim
  | step op next ih =>
    rcases h with rfl | ⟨p, content, n, rfl, hwrite⟩ | h
    · exact exists_refused _ _
    · obtain ⟨a, hnext⟩ := exists_refused (next (.error .notFound)) t'
      exact ⟨a, .error .notFound, t', .inr ⟨⟨_, rfl⟩, .inr ⟨_, hwrite⟩⟩, hnext⟩
    · obtain ⟨a, hnext⟩ := ih _ h
      exact ⟨a, _, _, .inl rfl, hnext⟩

theorem stopped_bind {x : Program α} {f : α → Program β} (h : (x >>= f).Stopped t t') :
    x.Stopped t t' ∨ (f (x.run t).1).Stopped (x.run t).2 t' := by
  induction x generalizing t with
  | done a => exact .inr h
  | step op next ih =>
    rcases h with rfl | hwrite | h
    · exact .inl (.inl rfl)
    · exact .inl (.inr (.inl hwrite))
    · exact (ih _ h).imp_left fun h => .inr (.inr h)

theorem fragile_pure {a : α} (ha : E a) : (pure a : Program α).Fragile E :=
  ⟨fun _ => ⟨a, ha, rfl, rfl⟩, fun _ _ h => h.elim⟩

/-- If what follows can be refused, then it does not matter how the first part ends. -/
theorem fragile_bind {x : Program α} {f : α → Program β} (hf : ∀ a, (f a).Fragile F) :
    (x >>= f).Fragile F := by
  refine ⟨fun t => ?_, fun t t' h => ?_⟩
  · obtain ⟨a, hx⟩ := exists_refused x t
    obtain ⟨b, hb, hfa⟩ := (hf a).refused t
    exact ⟨b, hb, outcome_bind.2 ⟨a, t, hx, hfa⟩⟩
  · rcases stopped_bind h with h | h
    · obtain ⟨a, hx⟩ := exists_outcome_of_stopped h
      obtain ⟨b, hb, hfa⟩ := (hf a).refused t'
      exact ⟨b, hb, outcome_bind.2 ⟨a, t', hx, hfa⟩⟩
    · obtain ⟨b, hb, hfa⟩ := (hf _).stopped _ _ h
      exact ⟨b, hb, outcome_bind.2 ⟨_, _, outcome_run x t, hfa⟩⟩

/-- What comes of a program may be told in another way. -/
theorem Fragile.bind_pure {x : Program α} {f : α → β} (hx : x.Fragile E)
    (hE : ∀ a, E a → F (f a)) : (x >>= fun a => pure (f a)).Fragile F := by
  refine ⟨fun t => ?_, fun t t' h => ?_⟩
  · obtain ⟨a, ha, hx⟩ := hx.refused t
    exact ⟨f a, hE a ha, outcome_map.2 ⟨a, hx, rfl⟩⟩
  · obtain ⟨a, ha, hx⟩ := hx.stopped t t' ((stopped_bind h).resolve_right id)
    exact ⟨f a, hE a ha, outcome_map.2 ⟨a, hx, rfl⟩⟩

end Program

open Program

/-! ### Whole writes -/

/-- The result of a program that has failed. -/
def Failed {ε : Type} (r : Except ε α) : Prop := ∃ e, r = .error e

theorem fragile_rename (p q : Path) : (rename p q).Fragile Failed := by
  have hrefused : ∀ t, ∃ r, Failed r ∧ (rename p q).Outcome t r t := fun _ =>
    ⟨.error .notFound, ⟨_, rfl⟩, outcome_perform.2 (.inr ⟨⟨_, rfl⟩, rfl⟩)⟩
  refine ⟨hrefused, fun t t' h => ?_⟩
  rcases h with rfl | ⟨_, _, _, hop, -⟩ | h
  · exact hrefused _
  · cases hop
  · exact h.elim

theorem fragile_writeAtomically (p : Path) (c : ByteArray) :
    (writeAtomically p c).Fragile Failed := by
  rw [writeAtomically]
  refine fragile_bind fun made => ?_
  cases made with
  | error e => exact fragile_pure ⟨e, rfl⟩
  | ok u =>
    refine fragile_bind fun written => ?_
    cases written with
    | error e => exact fragile_pure ⟨_, rfl⟩
    | ok u =>
      refine (fragile_rename _ _).bind_pure fun r hr => ?_
      obtain ⟨e, rfl⟩ := hr
      exact ⟨_, rfl⟩

end GqlArtifacts.Files
