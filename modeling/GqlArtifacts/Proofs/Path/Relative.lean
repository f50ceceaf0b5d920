import GqlArtifacts.Path.Relative
import GqlArtifacts.Proofs.Path.Normal

/-!
# Where a relative path leads

A path that does not escape leads from any directory down to its own place (`placeFrom_eq_append`), and
the relative path between two of them leads from the first to the second (`placeFrom_relative`).
-/

namespace GqlArtifacts.Path

open Files

variable {p q src dst : Path} {segs ns : List String} {base : Place} {as bs : List (Component String)}

/-! ### Following from a directory -/

theorem foldl_follow_append (h : climbsAbove ns.length (inside segs) = false) :
    segs.foldl Place.follow (base ++ ns) = base ++ segs.foldl Place.follow ns := by
  induction segs generalizing ns with
  | nil => rfl
  | cons s segs ih =>
    rw [List.foldl_cons, List.foldl_cons]
    rcases segment_cases s with ⟨hs, hnone⟩ | ⟨hs, rfl⟩ | ⟨hs, hempty, hcurrent, hparent⟩
    · rw [inside, List.filterMap_cons_none hs] at h
      rw [Place.follow, if_pos hnone, Place.follow, if_pos hnone]
      exact ih h
    · rw [inside, List.filterMap_cons_some hs] at h
      have hne : ns ≠ [] := by
        rintro rfl
        simp [climbsAbove] at h
      obtain ⟨n, hn⟩ : ∃ n, ns.length = n + 1 :=
        ⟨ns.length - 1, (Nat.sub_add_cancel (List.length_pos_of_ne_nil hne)).symm⟩
      rw [Place.follow, if_neg (by decide), if_pos rfl, Place.follow, if_neg (by decide), if_pos rfl,
        List.dropLast_append_of_ne_nil hne]
      refine ih ?_
      rw [hn] at h
      rw [List.length_dropLast, hn]
      exact h
    · rw [inside, List.filterMap_cons_some hs] at h
      rw [Place.follow, if_neg (not_or.2 ⟨hempty, hcurrent⟩), if_neg hparent, Place.follow,
        if_neg (not_or.2 ⟨hempty, hcurrent⟩), if_neg hparent, List.append_assoc]
      refine ih ?_
      rw [List.length_append, List.length_singleton]
      exact h

/-- A path that does not escape leads down to its place. -/
theorem placeFrom_eq_append (h : p.escapesRoot = false) : p.placeFrom base = base ++ p.place := by
  obtain ⟨hrel, hclimbs⟩ := Bool.or_eq_false_iff.1 h
  have hinside : climbsAbove 0 (inside p.segments) = false := by
    rcases components_of_relative hrel with heq | heq <;> rw [heq] at hclimbs <;> exact hclimbs
  have happend : p.placeFrom (base ++ []) = base ++ p.place := foldl_follow_append hinside
  rwa [List.append_nil] at happend

/-! ### Relative paths -/

theorem take_commonLength (as bs : List (Component String)) :
    as.take (commonLength as bs) = bs.take (commonLength as bs) := by
  induction as generalizing bs with
  | nil => cases bs <;> rfl
  | cons a as ih =>
    cases bs with
    | nil => rfl
    | cons b bs =>
      rw [commonLength]
      split
      · next heq => rw [List.take_succ_cons, List.take_succ_cons, heq, ih]
      · rfl

theorem commonLength_le (as bs : List (Component String)) : commonLength as bs ≤ as.length := by
  induction as generalizing bs with
  | nil => cases bs <;> exact Nat.zero_le _
  | cons a as ih =>
    cases bs with
    | nil => exact Nat.zero_le _
    | cons b bs =>
      rw [commonLength]
      split
      · exact Nat.succ_le_succ (ih bs)
      · exact Nat.zero_le _

theorem foldl_follow_parents (k : Nat) (a : Place) :
    (List.replicate k "..").foldl Place.follow a = a.take (a.length - k) := by
  induction k generalizing a with
  | zero => exact (List.take_of_length_le (Nat.le_refl _)).symm
  | succ k ih =>
    have hstep : Place.follow a ".." = a.dropLast := by
      rw [Place.follow, if_neg (by decide), if_pos rfl]
    rw [List.replicate_succ, List.foldl_cons, hstep, ih, List.length_dropLast, List.dropLast_eq_take,
      List.take_take]
    congr 1
    omega

/-- The segments of the relative path from one place to another. -/
def between (src dst : List String) : List String :=
  let n := commonLength (src.map .name) (dst.map .name)
  List.replicate (src.length - n) ".." ++ dst.drop n

theorem plain_between (src : List String) (h : ∀ s ∈ ns, IsName s) : Plain (between src ns) := by
  intro s hs
  rcases List.mem_append.1 hs with hs | hs
  · rw [List.eq_of_mem_replicate hs]
    decide
  · obtain ⟨hslash, hempty, hcurrent, -⟩ := h s (List.mem_of_mem_drop hs)
    exact ⟨hslash, by simp [isTrivialSegment, hempty, hcurrent]⟩

theorem relative_eq (hsrc : src.escapesRoot = false) (hdst : dst.escapesRoot = false) :
    relative src dst = ofSegments (between src.place dst.place) := by
  have hroot : .root ∉ relativeComponents (src.place.map .name) (dst.place.map .name) := by
    intro hmem
    rcases List.mem_append.1 hmem with hmem | hmem
    · cases List.eq_of_mem_replicate hmem
    · obtain ⟨s, -, hs⟩ := List.mem_map.1 (List.mem_of_mem_drop hmem)
      cases hs
  rw [relative, normalize_of_not_escapesRoot hsrc, normalize_of_not_escapesRoot hdst,
    components_ofSegments isName_of_mem_place, components_ofSegments isName_of_mem_place,
    ofComponents_of_root_not_mem hroot, relativeComponents, between, List.map_append,
    List.map_replicate, List.length_map, ← List.map_drop, List.map_map]
  congr 2
  exact List.map_id _

theorem take_commonLength_map (src dst : List String) :
    src.take (commonLength (src.map .name) (dst.map .name)) =
      dst.take (commonLength (src.map .name) (dst.map .name)) := by
  have hmap := take_commonLength (src.map .name) (dst.map .name)
  rw [← List.map_take, ← List.map_take] at hmap
  exact List.map_injective_iff.2 (fun _ _ => Component.name.inj) hmap

/-- Unless it leads up, a relative path ends in the last name. -/
theorem exists_between_concat {src init : List String} {n : String} (h : ¬init ++ [n] <+: src) :
    ∃ segs, between src (init ++ [n]) = segs ++ [n] := by
  let k := commonLength (src.map .name) ((init ++ [n]).map .name)
  have hk : k ≤ init.length := by
    by_contra hlt
    refine h ?_
    have htake : (init ++ [n]).take k = init ++ [n] := List.take_of_length_le (by
      rw [List.length_append, List.length_singleton]
      omega)
    rw [← htake, ← take_commonLength_map]
    exact List.take_prefix _ _
  refine ⟨List.replicate (src.length - k) ".." ++ init.drop k, ?_⟩
  show List.replicate (src.length - k) ".." ++ (init ++ [n]).drop k = _
  rw [List.drop_append_of_le_length hk, List.append_assoc]

/-- It leads from the one to the other. -/
theorem foldl_follow_between (src : List String) (h : ∀ s ∈ ns, IsName s) :
    (between src ns).foldl Place.follow (base ++ src) = base ++ ns := by
  let n := commonLength (src.map .name) (ns.map .name)
  have hle : n ≤ src.length := by
    have := commonLength_le (src.map .name) (ns.map .name)
    rwa [List.length_map] at this
  have htake : src.take n = ns.take n := take_commonLength_map src ns
  have hup : (base ++ src).take ((base ++ src).length - (src.length - n)) = base ++ ns.take n := by
    rw [← htake, List.length_append, show base.length + src.length - (src.length - n) =
      base.length + n by omega, List.take_length_add_append]
  show (List.replicate (src.length - n) ".." ++ ns.drop n).foldl Place.follow (base ++ src) = _
  rw [List.foldl_append, foldl_follow_parents, hup,
    foldl_follow fun s hs => h s (List.mem_of_mem_drop hs), List.append_assoc, List.take_append_drop]

end GqlArtifacts.Path
