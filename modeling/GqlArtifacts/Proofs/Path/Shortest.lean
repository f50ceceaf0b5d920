import GqlArtifacts.Proofs.Path.Folding
import GqlArtifacts.Proofs.Path.Relative

/-!
# The shortest way

A relative path leads from its start to its end, and no other relative path that does so has fewer
parts (`relative_leads_shortest`). Every part of a path changes what has been folded so far at its end
only and by one part at most, so it comes nearer to the end by one at most
(`length_relativeComponents_step`), where the distance is the length of the relative path.
-/

namespace GqlArtifacts.Path

variable {p src dst : Path} {c : Component String} {as bs cs acc : List (Component String)} {ns : List String} {k : Nat}

/-! ### Distance -/

theorem commonLength_le_right (as bs : List (Component String)) : commonLength as bs ≤ bs.length := by
  induction as generalizing bs with
  | nil => cases bs <;> exact Nat.zero_le _
  | cons a as ih =>
    cases bs with
    | nil => exact Nat.zero_le _
    | cons b bs =>
      rw [commonLength]
      split
      · exact Nat.succ_le_succ (ih bs)
      · exact Nat.zero_le _

theorem commonLength_self (bs : List (Component String)) : commonLength bs bs = bs.length := by
  induction bs with
  | nil => rfl
  | cons b bs ih => rw [commonLength, if_pos rfl, ih, List.length_cons]

theorem commonLength_concat (as bs : List (Component String)) (c : Component String) :
    commonLength (as ++ [c]) bs = commonLength as bs ∨
      commonLength (as ++ [c]) bs = commonLength as bs + 1 := by
  induction as generalizing bs with
  | nil =>
    cases bs with
    | nil => exact .inl rfl
    | cons b bs =>
      rw [List.nil_append, commonLength]
      split
      · exact .inr (by cases bs <;> rfl)
      · exact .inl rfl
  | cons a as ih =>
    cases bs with
    | nil => exact .inl rfl
    | cons b bs =>
      rw [List.cons_append, commonLength, commonLength]
      split
      · exact (ih bs).imp (congrArg (· + 1)) (congrArg (· + 1))
      · exact .inl rfl

theorem length_relativeComponents (as bs : List (Component String)) : (relativeComponents as bs).length =
    (as.length - commonLength as bs) + (bs.length - commonLength as bs) := by
  rw [relativeComponents, List.length_append, List.length_replicate, List.length_drop]

/-- One more part brings nearer by one or takes away by one. -/
theorem length_relativeComponents_concat (as bs : List (Component String)) (c : Component String) :
    (relativeComponents as bs).length ≤ (relativeComponents (as ++ [c]) bs).length + 1 ∧
      (relativeComponents (as ++ [c]) bs).length ≤ (relativeComponents as bs).length + 1 := by
  have hleft := commonLength_le as bs
  have hright := commonLength_le_right as bs
  have hright' := commonLength_le_right (as ++ [c]) bs
  rw [length_relativeComponents, length_relativeComponents, List.length_append,
    List.length_singleton]
  rcases commonLength_concat as bs c with heq | heq <;> rw [heq] at hright' ⊢ <;> omega

theorem length_relativeComponents_step (acc bs : List (Component String)) (c : Component String) :
    (relativeComponents acc.reverse bs).length ≤
      (relativeComponents (normalizeStep acc c).reverse bs).length + 1 := by
  rcases normalizeStep_cases acc c with hstep | hstep | ⟨s, hstep⟩
  · rw [hstep]
    exact Nat.le_succ _
  · rw [hstep, List.reverse_cons]
    exact (length_relativeComponents_concat acc.reverse bs c).1
  · conv => lhs; rw [hstep, List.reverse_cons]
    exact (length_relativeComponents_concat _ bs (.name s)).2

/-- No fewer parts lead from one to the other than lie between them. -/
theorem length_relativeComponents_le (acc cs : List (Component String)) :
    (relativeComponents acc.reverse (cs.foldl normalizeStep acc).reverse).length ≤ cs.length := by
  -- the end is fixed while the start moves on towards it
  suffices h : ∀ bs, (relativeComponents acc.reverse bs).length ≤
      (relativeComponents (cs.foldl normalizeStep acc).reverse bs).length + cs.length by
    refine Nat.le_trans (h _) ?_
    rw [length_relativeComponents, commonLength_self]
    omega
  intro bs
  induction cs generalizing acc with
  | nil => exact Nat.le_refl _
  | cons c cs ih =>
    have hstep := length_relativeComponents_step acc bs c
    have hmore := ih (normalizeStep acc c)
    rw [List.foldl_cons, List.length_cons]
    omega

/-! ### There and back -/

/-- As many `..` lead up from names. -/
theorem foldl_parents (h : k ≤ ns.length) :
    (List.replicate k .parent).foldl normalizeStep (ns.map .name).reverse =
      ((ns.take (ns.length - k)).map .name).reverse := by
  induction k generalizing ns with
  | zero => rw [Nat.sub_zero, List.take_length]; rfl
  | succ k ih =>
    obtain ⟨init, n, rfl⟩ : ∃ init n, ns = init ++ [n] := by
      rcases List.eq_nil_or_concat ns with rfl | ⟨init, n, rfl⟩
      · cases h
      · exact ⟨init, n, List.concat_eq_append⟩
    rw [List.length_append, List.length_singleton] at h ⊢
    rw [List.replicate_succ, List.foldl_cons, normalizeStep_parent, ih (by omega), Nat.add_sub_add_right,
      List.take_append_of_le_length (Nat.sub_le _ _)]

/-- The parts between lead from names to whatever is folded. -/
theorem foldl_relativeComponents (ns : List String) (h : Folded bs) :
    (relativeComponents (ns.map .name) bs).foldl normalizeStep (ns.map .name).reverse =
      bs.reverse := by
  have hle := commonLength_le (ns.map .name) bs
  have htake := take_commonLength (ns.map .name) bs
  rw [List.length_map] at hle
  rw [relativeComponents]
  generalize commonLength (ns.map .name) bs = n at hle htake
  have hfolded : Folded (bs.take n ++ bs.drop n) := by rwa [List.take_append_drop]
  have hrest := foldl_normalizeStep_folded hfolded
  rw [List.take_append_drop] at hrest
  rw [List.foldl_append, List.length_map, foldl_parents (Nat.sub_le _ _), Nat.sub_sub_self hle,
    List.map_take, htake, hrest]

theorem folded_relativeComponents (as : List (Component String)) (hroot : .root ∉ bs) (h : Folded bs) :
    Folded (relativeComponents as bs) := by
  obtain ⟨k, ns, rfl, hns⟩ := h.of_root_not_mem hroot
  generalize hn : commonLength as (List.replicate k .parent ++ ns.map .name) = n
  refine ⟨List.replicate (as.length - n) .parent ++ List.replicate (k - n) .parent, ns.drop (n - k),
    ?_, .inr fun c hc => ?_, fun s hs => hns s (List.mem_of_mem_drop hs)⟩
  · rw [relativeComponents, hn, List.drop_append, List.drop_replicate, List.length_replicate,
      List.map_drop, List.append_assoc]
  · rcases List.mem_append.1 hc with hc | hc <;> exact List.eq_of_mem_replicate hc

theorem root_not_mem_relativeComponents (as : List (Component String)) (hroot : .root ∉ bs) :
    .root ∉ relativeComponents as bs := by
  intro hmem
  rcases List.mem_append.1 hmem with hmem | hmem
  · cases List.eq_of_mem_replicate hmem
  · exact hroot (List.mem_of_mem_drop hmem)

section Relative
variable (hdst : dst.isAbsolute = false)
include hdst

theorem components_relative (src : Path) : (relative src dst).components =
    relativeComponents src.normalize.components dst.normalize.components :=
  components_ofComponents (folded_relativeComponents _ (root_not_mem_normalize hdst)
    (folded_components_normalize dst))

theorem isAbsolute_relative (src : Path) : (relative src dst).isAbsolute = false := by
  rw [← Bool.not_eq_true, isAbsolute_iff_root_mem, components_relative hdst]
  exact root_not_mem_relativeComponents _ (root_not_mem_normalize hdst)

end Relative

/-- Without a dot in front, its segments are all that a relative path has. -/
theorem inside_segments (h : p.isAbsolute = false) (hcurrent : .current ∉ p.components) :
    inside p.segments = p.components := by
  rcases components_of_relative h with heq | heq
  · exact heq.symm
  · rw [heq] at hcurrent
    exact absurd (List.mem_cons_self ..) hcurrent

theorem length_inside_le (h : p.isAbsolute = false) :
    (inside p.segments).length ≤ p.components.length := by
  rcases components_of_relative h with heq | heq
  · exact Nat.le_of_eq (congrArg List.length heq.symm)
  · rw [heq, List.length_cons]
    exact Nat.le_succ _

/-- From a directory below its root, the relative path leads to its end, and no other relative path
that does has fewer parts. -/
theorem relative_leads_shortest (hsrc : src.isAbsolute = false)
    (hdown : .parent ∉ src.normalize.components) (hdst : dst.isAbsolute = false) :
    (relative src dst).isAbsolute = false ∧
    (src / relative src dst).normalize = dst.normalize ∧
    ∀ r : Path, r.isAbsolute = false → (src / r).normalize.same dst.normalize = true →
      (relative src dst).components.length ≤ r.components.length := by
  have hinner := inner_normalize (escapesRoot_eq_false_iff.2 ⟨by rwa [isAbsolute_normalize], hdown⟩)
  have hnames := hinner.components_eq
  have hrelative := isAbsolute_relative hdst src
  refine ⟨hrelative, ?_, fun r hr hsame => ?_⟩
  · have hfolded : Folded (relative src dst).components := by
      rw [components_relative hdst]
      exact folded_relativeComponents _ (root_not_mem_normalize hdst) (folded_components_normalize dst)
    have hfold : normalizeComponents (src / relative src dst).components =
        normalizeComponents dst.components := by
      rw [normalizeComponents_join hrelative, inside_segments hrelative hfolded.current_not_mem,
        components_relative hdst, ← components_normalize, hnames,
        foldl_relativeComponents _ (folded_components_normalize dst), List.reverse_reverse,
        components_normalize]
    rw [normalize, hfold]
    rfl
  · have hle := length_relativeComponents_le (normalizeComponents src.components).reverse
      (inside r.segments)
    rw [List.reverse_reverse, ← normalizeComponents_join hr, ← components_normalize,
      ← components_normalize, eq_of_beq hsame] at hle
    rw [components_relative hdst]
    exact Nat.le_trans hle (length_inside_le hr)

namespace Sample

/-- A directory two levels down, spelled with a detour. -/
def start : Path := ⟨"./a//b/../c/"⟩

/-- A place that lies above the root of `start`. -/
def finish : Path := ⟨"x/../../y/./z"⟩

end Sample

theorem relative_leads_shortest_sample :
    Sample.start.isAbsolute = false ∧ .parent ∉ Sample.start.normalize.components ∧
    Sample.finish.isAbsolute = false ∧
    relative Sample.start Sample.finish = ⟨"../../../y/z"⟩ ∧
    (Sample.start / relative Sample.start Sample.finish).normalize = Sample.finish.normalize ∧
    Sample.finish.normalize = ⟨"../y/z"⟩ ∧
    ∀ r : Path, r.isAbsolute = false → (Sample.start / r).normalize.same ⟨"../y/z"⟩ = true →
      5 ≤ r.components.length := by
  have hsrc : Sample.start.isAbsolute = false := by decide +kernel
  have hdown : .parent ∉ Sample.start.normalize.components := by decide +kernel
  have hdst : Sample.finish.isAbsolute = false := by decide +kernel
  have hrelative : relative Sample.start Sample.finish = ⟨"../../../y/z"⟩ := by decide +kernel
  have hfinish : Sample.finish.normalize = ⟨"../y/z"⟩ := by decide +kernel
  have hlength : (⟨"../../../y/z"⟩ : Path).components.length = 5 := by decide +kernel
  obtain ⟨-, hleads, hshortest⟩ := relative_leads_shortest hsrc hdown hdst
  rw [hfinish, hrelative, hlength] at hshortest
  exact ⟨hsrc, hdown, hdst, hrelative, hleads, hfinish, hshortest⟩

end GqlArtifacts.Path
