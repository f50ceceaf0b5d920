import GqlArtifacts.Proofs.History.Invariant

/-!
# No file too many and none too few

A history that starts where none of its own files lie yet leaves exactly the files that were there,
the artifacts of the rows of the manifest and, once a run has succeeded, the manifest and the
entrypoint (`files_after`). `Exact` is this in terms of what the history keeps; a run preserves it
because of what `Session.Published` says of each place.
-/

namespace GqlArtifacts

open Files

variable {P : Project} {t t₀ : Tree} {js : List Job} {es earlier later : List Event} {e : Event}
  {p : Path} {h : ContentHash} {a : Place}

/-- The artifacts that the history keeps, and the other files of a project that has had a run. -/
def Project.Owns (P : Project) (es : List Event) (a : Place) : Prop :=
  (∃ f p h, p.Logical ∧ Kept es p h ∧ a = P.layout.place f p h) ∨
    (∃ e ∈ es, e.Succeeded) ∧
      (a = P.manifestPath.place ∨ ∃ x ∈ P.entrypoint?, a = (P.layout.root / x).place)

/-- The files of the project are there, and nothing else is other than in the first tree. -/
structure Exact (P : Project) (t₀ : Tree) (es : List Event) (t : Tree) : Prop where
  owned : ∀ a, P.Owns es a → (t.file? a).isSome = true
  others : ∀ a, ¬P.Owns es a → t.file? a = t₀.file? a

theorem exact_start : Exact P t [] t := by
  refine ⟨fun a ha => ?_, fun _ _ => rfl⟩
  rcases ha with ⟨f, p, h, -, hk, -⟩ | ⟨⟨e, he, -⟩, -⟩
  · exact absurd hk kept_nil
  · cases he

theorem Exact.failed (hx : Exact P t₀ es t) (hfailed : ¬e.Succeeded) : Exact P t₀ (es ++ [e]) t := by
  have howns : ∀ a, P.Owns (es ++ [e]) a ↔ P.Owns es a := fun a => by
    simp only [Project.Owns, kept_concat_failed hfailed, List.mem_append, List.mem_singleton,
      or_and_right, exists_or, exists_eq_left, hfailed, or_false]
  refine ⟨fun a ha => hx.owned a ((howns a).1 ha), fun a ha => hx.others a (mt (howns a).2 ha)⟩

/-- After a successful run the manifest and the entrypoint belong to the project. -/
theorem Project.owns_concat (hsucceeded : e.Succeeded) : P.Owns (es ++ [e]) a ↔
    (∃ f p h, p.Logical ∧ Kept (es ++ [e]) p h ∧ a = P.layout.place f p h) ∨
      a = P.manifestPath.place ∨ ∃ x ∈ P.entrypoint?, a = (P.layout.root / x).place := by
  have hex : ∃ e' ∈ es ++ [e], e'.Succeeded := ⟨e, by simp, hsucceeded⟩
  simp only [Owns, hex, true_and]

theorem Layout.place_mem_places {layout : Layout} (f : Artifact) (p : Path) (h : ContentHash) :
    layout.place f p h ∈ layout.places p h := by
  cases f <;> simp [Layout.places]

section Step
variable (hadm : P.Admissible t₀ js) (hs : P.history t₀ js = earlier ++ e :: later)
include hadm hs

theorem mem_of_owns (ha : P.Owns (earlier ++ [e]) a) :
    a ∈ P.places (P.history t₀ js) ++ P.entrypointPlaces := by
  have hs' : P.history t₀ js = (earlier ++ [e]) ++ later := by rw [hs, List.append_assoc]; rfl
  rw [List.mem_append]
  rcases ha with ⟨f, p, h, hp, hk, heq⟩ | ⟨-, heq | ⟨x, hx, heq⟩⟩ <;> rw [heq]
  · exact .inl (hadm.mem_places_of_kept hs' hp hk (Layout.place_mem_places f p h))
  · exact .inl (List.mem_cons_self ..)
  · refine .inr ?_
    rw [Project.entrypointPlaces, Option.mem_def.1 hx]
    exact List.mem_cons_self ..

theorem mem_of_temporary (hsucceeded : e.Succeeded)
    (ha : Session.Temporary (P.session e.job) e.contexts a) :
    a ∈ P.places (P.history t₀ js) ++ P.entrypointPlaces := by
  rw [List.mem_append]
  rcases ha with heq | ⟨x, hx, heq⟩ | ⟨c, hc, f, heq⟩
  · refine .inl (List.mem_cons_of_mem _ ?_)
    rw [heq]
    exact List.mem_cons_self ..
  · have hentry : P.entrypoint? = some x := hx
    refine .inr ?_
    rw [heq, Project.entrypointPlaces, hentry]
    exact List.mem_cons_of_mem _ (List.mem_cons_self ..)
  · have hmem : a ∈ P.layout.places c.path c.hash := by
      rw [heq, Layout.places]
      cases f with
      | tsx => exact List.mem_cons_of_mem _ (List.mem_cons_self ..)
      | dts => exact List.mem_of_mem_getLast? rfl
    exact .inl (hadm.mem_places hs (hadm.logical hs hc) ⟨hsucceeded, c, hc, Path.same_self _, rfl⟩ hmem)

variable (hfree : ∀ a ∈ P.places (P.history t₀ js) ++ P.entrypointPlaces, t₀.file? a = none)
include hfree

theorem Exact.succeeded (hx : Exact P t₀ earlier e.before) (hm : Matches P earlier e.before)
    (hsucceeded : e.Succeeded) : Exact P t₀ (earlier ++ [e]) e.after := by
  obtain ⟨-, outputs, t₁, t₂, t₃, t₄, hdone⟩ := Project.completed_of_history hs hsucceeded
  have hpublished := hdone.published (hadm.orderly hs hm hsucceeded)
  refine ⟨fun a ha => ?_, fun a ha => ?_⟩
  · rcases (Project.owns_concat hsucceeded).1 ha with ⟨f, p, h, hp, hk, heq⟩ | heq | ⟨x, hx, heq⟩ <;>
      rw [heq]
    · obtain ⟨-, -, -, o, -, hfile⟩ := ((hm.succeeded hadm hs hsucceeded).generated p h hp hk).file?
      rw [(hfile f).2]
      rfl
    · exact hpublished.manifest
    · exact hpublished.entrypoint x hx
  · have hnot := mt (Project.owns_concat hsucceeded).2 ha
    rw [not_or, not_or] at hnot
    obtain ⟨hrow, hman, hentry⟩ := hnot
    by_cases hknown : ∃ f p h, p.Logical ∧ ((Session.known (P.session e.job) e.before
      e.contexts).lookup? p h).isSome = true ∧ a = P.layout.place f p h
    · -- an artifact that the run has deleted
      obtain ⟨f, p, h, hp, hk, heq⟩ := hknown
      have hgone : e.session.cache.manifest.lookup? p h = none := by
        rw [← Option.not_isSome_iff_eq_none, hm.isSome_session_iff hs hsucceeded hp]
        exact fun hkept => hrow ⟨f, p, h, hp, hkept, heq⟩
      have hplace : a ∈ P.places (P.history t₀ js) := by
        rw [heq]
        rcases (hm.isSome_known_iff hp).1 hk with hb | hkept
        · exact hadm.mem_places hs hp ⟨hsucceeded, Session.built_iff.1 hb⟩
            (Layout.place_mem_places f p h)
        · exact hadm.mem_places_of_kept hs hp hkept (Layout.place_mem_places f p h)
      rw [hfree a (List.mem_append_left _ hplace), heq]
      exact hpublished.stale f p h hp hk hgone
    · have hbefore : ¬P.Owns earlier a := by
        rintro (⟨f, p, h, hp, hk, heq⟩ | ⟨-, hother⟩)
        · exact hknown ⟨f, p, h, hp, (hm.isSome_known_iff hp).2 (.inr hk), heq⟩
        · exact hother.elim hman hentry
      rw [← hx.others a hbefore]
      rcases hpublished.others a hman (fun x hx heq => hentry ⟨x, hx, heq⟩)
        fun f p h hp hk heq => hknown ⟨f, p, h, hp, hk, heq⟩ with heq | ⟨hnone, htmp⟩
      · exact heq
      · rw [hnone, hx.others a hbefore, hfree a (mem_of_temporary hadm hs hsucceeded htmp)]

theorem exact_after : Exact P t₀ (earlier ++ [e]) e.after := by
  have hnone : P.manifest? t₀ = none :=
    manifest?_of_file?_eq_none (hfree _ (List.mem_append_left _ (List.mem_cons_self ..)))
  have hstep : ∀ earlier e later, P.history t₀ js = earlier ++ e :: later →
      Exact P t₀ earlier e.before → Exact P t₀ (earlier ++ [e]) e.after := by
    intro earlier e later hs hx
    by_cases hsucceeded : e.Succeeded
    · exact hx.succeeded hadm hs hfree (hadm.matches_before hnone hs) hsucceeded
    · rw [hadm.after_of_failed hs hsucceeded]
      exact hx.failed hsucceeded
  exact hstep earlier e later hs (Project.history_induction exact_start hstep hs)

end Step

/-- The artifacts that the history keeps are those of the rows of the manifest. -/
theorem Matches.exists_row_iff (hm : Matches P es t) :
    (∃ m, P.manifest? t = some m ∧ ∃ p h row, (p, h, row) ∈ m.toList ∧
      (a = (P.layout.root / row.tsx).place ∨ a = (P.layout.root / row.dts).place)) ↔
    ∃ f p h, p.Logical ∧ Kept es p h ∧ a = P.layout.place f p h := by
  have hpersisted : ∀ m, P.manifest? t = some m → P.cache.persisted t = m := fun m hload =>
    Cache.persisted_of_manifest? hload (hm.version m hload)
  have hlaid := hm.laidOut
  have hrows := hm.rows
  constructor
  · rintro ⟨m, hload, p, h, row, hrow, ha⟩
    rw [hpersisted m hload] at hlaid hrows
    have hp := hlaid.logical hrow
    have hat := hlaid.rows _ hrow
    have hk : Kept es p h := by
      rw [← hrows p h hp, Manifest.lookup?_of_mem hrow]
      rfl
    rcases ha with heq | heq
    · exact ⟨.tsx, p, h, hp, hk, heq.trans (hat.place .tsx)⟩
    · exact ⟨.dts, p, h, hp, hk, heq.trans (hat.place .dts)⟩
  · rintro ⟨f, p, h, hp, hk, heq⟩
    obtain ⟨row, hrow⟩ := Option.isSome_iff_exists.1 ((hrows p h hp).2 hk)
    cases hload : P.manifest? t with
    | none =>
      rw [Cache.persisted_eq_empty hload] at hrow
      cases hrow
    | some m =>
      rw [hpersisted m hload] at hlaid hrow
      have hat := hlaid.liesAt hp hrow
      refine ⟨m, rfl, p, h, row, hlaid.mem_toList hp hrow, ?_⟩
      rw [heq, ← hat.place]
      cases f with
      | tsx => exact .inl rfl
      | dts => exact .inr rfl

/-- When none of the files of the project is there at first, the files after a run are exactly those
that were there, byte for byte, the two artifacts of each row of the manifest and, after the first run
that succeeds, the manifest and the entrypoint. -/
theorem Project.Admissible.files_after (hadm : P.Admissible t₀ js)
    (hfree : ∀ a ∈ P.places (P.history t₀ js) ++ P.entrypointPlaces, t₀.file? a = none)
    (hs : P.history t₀ js = earlier ++ e :: later) (a : Place) :
    (∀ c, t₀.file? a = some c → e.after.file? a = some c) ∧
    ((e.after.file? a).isSome = true ↔ (t₀.file? a).isSome = true ∨
      (∃ m, P.manifest? e.after = some m ∧ ∃ p h row, (p, h, row) ∈ m.toList ∧
        (a = (P.layout.root / row.tsx).place ∨ a = (P.layout.root / row.dts).place)) ∨
      (∃ e' ∈ earlier ++ [e], e'.Succeeded) ∧
        (a = P.manifestPath.place ∨ ∃ x ∈ P.entrypoint?, a = (P.layout.root / x).place)) := by
  have hnone : P.manifest? t₀ = none :=
    manifest?_of_file?_eq_none (hfree _ (List.mem_append_left _ (List.mem_cons_self ..)))
  have hx := exact_after hadm hs hfree
  rw [(hadm.matches_after hnone hs).exists_row_iff]
  refine ⟨fun c hc => ?_, ?_⟩
  · rw [hx.others a, hc]
    intro howns
    rw [hfree a (mem_of_owns hadm hs howns)] at hc
    cases hc
  · by_cases howns : P.Owns (earlier ++ [e]) a
    · exact ⟨fun _ => .inr howns, fun _ => hx.owned a howns⟩
    · rw [hx.others a howns]
      exact ⟨.inl, fun hor => hor.resolve_right howns⟩

/-- The file of the sample that is not the project's stays, and the manifest is there. -/
theorem files_after_sample : Sample.project.Admissible Sample.tree [Sample.first] ∧
    (∀ a ∈ Sample.project.places [Sample.firstEvent] ++ Sample.project.entrypointPlaces,
      Sample.tree.file? a = none) ∧
    Sample.firstEvent.after.file? ["n"] = some "".toUTF8 ∧
    (Sample.firstEvent.after.file? Sample.project.manifestPath.place).isSome = true := by
  have hs : Sample.project.history Sample.tree [Sample.first] = [] ++ Sample.firstEvent :: [] := rfl
  have hfree : ∀ a ∈ Sample.project.places [Sample.firstEvent] ++ Sample.project.entrypointPlaces,
      Sample.tree.file? a = none := by
    intro a ha
    refine Sample.file?_tree fun heq => ?_
    subst heq
    rcases List.mem_append.1 ha with ha | ha
    · rw [Project.places, List.flatMap_singleton, Sample.places_firstEvent] at ha
      exact Sample.not_mem_used.1 ha
    · exact Sample.not_mem_entrypointPlaces ha
  have hafter := Project.Admissible.files_after Sample.admissible_first hfree hs
  refine ⟨Sample.admissible_first, hfree, (hafter _).1 _ ?_, ((hafter _).2).2 (.inr (.inr ⟨?_, .inl rfl⟩))⟩
  · rw [Sample.tree, Tree.file?_put_file rfl, if_pos rfl]
  · exact ⟨Sample.firstEvent, by simp, Sample.succeeded_firstEvent⟩

end GqlArtifacts
