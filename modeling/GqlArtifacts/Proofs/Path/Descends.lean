import GqlArtifacts.Proofs.Files.Temporary
import GqlArtifacts.Proofs.Path.Relative

/-!
# Paths that lead down

A relative path without `..` has the names on its way as parts, and no others
(`Descends.components_cases`), so its directory leads down as well (`Descends.parent?`). What is
followed from there stays inside as long as it does not go up further (`escapesRoot_join`), which a
relative path to another place never does (`climbsAbove_between`).
-/

namespace GqlArtifacts

open Files

namespace Path

variable {p : Path} {segs ns : List String}

/-- A relative path without `..`. -/
structure Descends (p : Path) : Prop where
  relative : p.isAbsolute = false
  down : ".." ∉ p.segments

theorem map_name_foldl_follow (hdown : ".." ∉ segs) :
    (segs.foldl Place.follow ns).map Component.name = ns.map .name ++ inside segs := by
  induction segs generalizing ns with
  | nil => exact (List.append_nil _).symm
  | cons s segs ih =>
    rw [List.foldl_cons, ih fun h => hdown (List.mem_cons_of_mem _ h)]
    rcases segment_cases s with ⟨hs, hnone⟩ | ⟨-, rfl⟩ | ⟨hs, hempty, hcurrent, hparent⟩
    · rw [Place.follow, if_pos hnone, inside, inside, List.filterMap_cons_none hs]
    · exact absurd (List.mem_cons_self ..) hdown
    · rw [Place.follow, if_neg (not_or.2 ⟨hempty, hcurrent⟩), if_neg hparent, inside, inside,
        List.filterMap_cons_some hs, List.map_append, List.append_assoc]
      rfl

theorem climbsAbove_names (n : Nat) (ns : List String) (cs : List (Component String)) :
    climbsAbove n (ns.map .name ++ cs) = climbsAbove (n + ns.length) cs := by
  induction ns generalizing n with
  | nil => rfl
  | cons s ns ih =>
    rw [List.map_cons, List.cons_append, climbsAbove, ih, List.length_cons, Nat.add_right_comm,
      Nat.add_assoc]

theorem climbsAbove_parents {k n : Nat} (h : k ≤ n) (ns : List String) :
    climbsAbove n (List.replicate k .parent ++ ns.map .name) = false := by
  induction k generalizing n with
  | zero => exact climbsAbove_map_name n ns
  | succ k ih =>
    obtain ⟨m, rfl⟩ : ∃ m, n = m + 1 := ⟨n - 1, by omega⟩
    rw [List.replicate_succ, List.cons_append, climbsAbove]
    exact ih (Nat.le_of_succ_le_succ h)

/-- Only a slash in front makes an empty first segment, where there is another. -/
theorem isAbsolute_of_segments {s : String} {rest : List String}
    (h : p.segments = "" :: s :: rest) : p.isAbsolute = true := by
  rw [← ofSegments_segments p, h, ofSegments, String.intercalate_cons_cons]
  simp [isAbsolute]

namespace Descends
variable (h : p.Descends)
include h

theorem components_cases : p.components = p.place.map .name ∨
    p.components = .current :: p.place.map .name := by
  have hplace : p.place.map .name = inside p.segments := map_name_foldl_follow h.down
  rw [hplace]
  exact components_of_relative h.relative

theorem not_escapesRoot : p.escapesRoot = false := by
  rw [escapesRoot, h.relative, Bool.false_or]
  rcases h.components_cases with heq | heq <;> rw [heq]
  · exact climbsAbove_map_name 0 _
  · exact climbsAbove_map_name 0 _

/-- The directory of a path that leads down is one that leads down. -/
theorem parent? {n : String} (hname : p.fileName? = some n) :
    (p.parent?.getD ⟨""⟩).Descends := by
  obtain ⟨before, trail, hsegs, -, -, hsplit⟩ := exists_segments_of_fileName? hname
  simp only [Path.parent?, hsplit, Option.map_some, Option.getD_some]
  cases before with
  | nil => exact ⟨rfl, by decide +kernel⟩
  | cons first rest =>
    have hfirst : first ≠ "" := by
      rintro rfl
      have habs : p.isAbsolute = true := by
        cases rest with
        | nil => exact isAbsolute_of_segments hsegs
        | cons s rest => exact isAbsolute_of_segments hsegs
      rw [h.relative] at habs
      cases habs
    obtain ⟨kept, trail', hrest, -, htrim, -⟩ := exists_trail rest
    have hmem : ∀ s ∈ first :: kept, s ∈ p.segments := by
      intro s hs
      rw [hsegs, hrest]
      rcases List.mem_cons.1 hs with rfl | hs
      · exact List.mem_cons_self ..
      · simp [hs]
    have hslash : ∀ s ∈ first :: kept, '/' ∉ s.toList := fun s hs =>
      not_mem_of_mem_segments (hmem s hs)
    have hsegments := segments_ofSegments hslash (List.cons_ne_nil first kept)
    have hdir : (ofSegments (first :: kept)).Descends := by
      refine ⟨?_, fun hdown => h.down (hmem _ (hsegments ▸ hdown))⟩
      rw [Bool.eq_false_iff]
      intro habs
      have hhead := head?_segments_of_isAbsolute habs
      rw [hsegments] at hhead
      exact hfirst (Option.some.inj hhead)
    rw [htrim]
    split
    · next heq => exact absurd (List.cons.inj heq).1 hfirst
    · exact hdir

end Descends

/-- What is followed from a path stays inside if it goes up no further than that is down. -/
theorem escapesRoot_join {q : Path} (hp : p.Descends) (hq : q.isAbsolute = false)
    (h : climbsAbove p.place.length (inside q.segments) = false) : (p / q).escapesRoot = false := by
  rw [escapesRoot, isAbsolute_join hp.relative hq, Bool.false_or]
  by_cases hempty : p.text = ""
  · obtain ⟨text⟩ := p
    obtain rfl : text = "" := hempty
    have hjoin : (⟨""⟩ / q : Path) = q := by
      show join _ q = q
      simp [join, hq]
    rw [hjoin]
    rcases components_of_relative hq with heq | heq <;> rw [heq] <;> exact h
  · rw [components_join hempty hq]
    rw [← Nat.zero_add p.place.length, ← climbsAbove_names] at h
    rcases hp.components_cases with heq | heq <;> rw [heq] <;> exact h

/-! ### Relative paths -/

/-- It goes up no further than its start is down. -/
theorem climbsAbove_between (src : List String) (h : ∀ s ∈ ns, IsName s) :
    climbsAbove src.length (inside (between src ns)) = false := by
  let k := commonLength (src.map .name) (ns.map .name)
  have hup : Component.ofSegment? ".." = some .parent := by decide
  have hnames : inside (ns.drop k) = (ns.drop k).map .name :=
    inside_of_isName fun s hs => h s (List.mem_of_mem_drop hs)
  have hinside : inside (between src ns) =
      List.replicate (src.length - k) .parent ++ (ns.drop k).map .name := by
    rw [between, inside, List.filterMap_append, List.filterMap_replicate_of_some hup]
    exact congrArg _ hnames
  rw [hinside]
  exact climbsAbove_parents (Nat.sub_le _ _) _

theorem inside_current (s : String) : inside (segments ⟨"./" ++ s⟩) = inside (segments ⟨s⟩) := by
  have h : inside (segments ⟨"." ++ "/" ++ s⟩) = inside (segments ⟨s⟩) := by
    rw [segments_append, segments_eq_singleton (by decide)]
    exact List.filterMap_cons_none rfl
  exact h

end Path

end GqlArtifacts
