import GqlArtifacts.Files.Tree
import GqlArtifacts.Proofs.Path

/-!
# The places that paths name

A path names a place by its text alone (`Path.place`): it is followed segment by segment, from the
root of the tree or, in `Path.placeFrom`, from a directory. `placeFrom_join` follows a joined path
part by part, and an inner path leads straight down along its names (`Inner.placeFrom_eq`).

`Place.lastChar?` tells the kinds of files apart that a project has.
-/

namespace GqlArtifacts

open Files

/-- One segment further: `..` leads back, an empty segment and `.` stay. -/
def Files.Place.follow (dir : Place) (seg : String) : Place :=
  if seg = "" ∨ seg = "." then dir else if seg = ".." then dir.dropLast else dir ++ [seg]

/-- The last letter of the last name. -/
def Files.Place.lastChar? (a : Place) : Option Char := a.getLast?.bind fun s => s.toList.getLast?

theorem Files.Place.lastChar?_concat (a : Place) (s : String) :
    Place.lastChar? (a ++ [s]) = s.toList.getLast? := by
  rw [lastChar?, List.getLast?_concat, Option.bind_some]

namespace Path

variable {p q : Path} {dir : Place} {s : String}

/-- Where a path leads from a directory. -/
def placeFrom (dir : Place) (p : Path) : Place := p.segments.foldl Place.follow dir

/-- The place that a path names. -/
def place (p : Path) : Place := p.placeFrom []

theorem follow_of_isName (h : IsName s) : Place.follow dir s = dir ++ [s] := by
  rw [Place.follow, if_neg (not_or.2 ⟨h.2.1, h.2.2.1⟩), if_neg h.2.2.2]

theorem foldl_follow {ns : List String} (h : ∀ s ∈ ns, IsName s) :
    ns.foldl Place.follow dir = dir ++ ns := by
  induction ns generalizing dir with
  | nil => simp
  | cons n ns ih =>
    rw [List.foldl_cons, follow_of_isName (h n (by simp)), ih fun s hs => h s (by simp [hs])]
    simp

/-- The first segment of a text after its last slash adds nothing when it is empty. -/
theorem placeFrom_slash (s s' : String) :
    placeFrom dir ⟨s ++ "/" ++ s'⟩ = placeFrom (placeFrom dir ⟨s⟩) ⟨s'⟩ := by
  rw [placeFrom, segments_append, List.foldl_append]
  rfl

theorem placeFrom_empty : placeFrom dir ⟨""⟩ = dir := by
  simp [placeFrom, segments_eq_singleton, Place.follow]

/-- A joined path is followed part by part. -/
theorem placeFrom_join (hq : q.isAbsolute = false) :
    (p / q).placeFrom dir = q.placeFrom (p.placeFrom dir) := by
  show (join p q).placeFrom dir = _
  obtain ⟨text⟩ := p
  rw [join, if_neg (by simp [hq])]
  split
  · next h =>
    rcases h with h | h
    · obtain rfl : text = "" := String.isEmpty_iff.1 h
      rw [placeFrom_empty, String.empty_append]
    · obtain ⟨front, rfl⟩ := exists_append_slash h
      rw [placeFrom_slash]
      congr 1
      have htrail : placeFrom dir ⟨front ++ "/" ++ ""⟩ =
          placeFrom dir ⟨front⟩ := by
        rw [placeFrom_slash, placeFrom_empty]
      rw [String.append_empty] at htrail
      exact htrail.symm
  · exact placeFrom_slash text q.text

theorem place_join (hq : q.isAbsolute = false) : (p / q).place = q.placeFrom p.place :=
  placeFrom_join hq

theorem placeFrom_ofSegments {ns : List String} (h : ∀ s ∈ ns, IsName s) :
    (ofSegments ns).placeFrom dir = dir ++ ns := by
  by_cases hn : ns = []
  · rw [hn, ofSegments_nil, placeFrom_empty, List.append_nil]
  · rw [placeFrom, segments_ofSegments (fun s hs => (h s hs).1) hn, foldl_follow h]

theorem Inner.placeFrom_eq (h : p.Inner) : p.placeFrom dir = dir ++ p.names := by
  conv => lhs; rw [h.eq_ofSegments]
  exact placeFrom_ofSegments h.isName_of_mem

theorem placeFrom_name (h : IsName s) : placeFrom dir ⟨s⟩ = dir ++ [s] := by
  rw [placeFrom, segments_eq_singleton h.1]
  exact follow_of_isName h

theorem isAbsolute_ofSegments {ns : List String} (h : ∀ s ∈ ns, IsName s) :
    (ofSegments ns).isAbsolute = false := by
  by_cases hn : ns = []
  · rw [hn]; rfl
  · rw [Bool.eq_false_iff]
    intro ha
    have hhead := head?_segments_of_isAbsolute ha
    rw [segments_ofSegments (fun s hs => (h s hs).1) hn] at hhead
    exact (h "" (List.mem_of_mem_head? hhead)).2.1 rfl

theorem isAbsolute_name (h : IsName s) : isAbsolute ⟨s⟩ = false := by
  have hsegs : (ofSegments [s]).isAbsolute = false := isAbsolute_ofSegments (by simpa using h)
  rwa [show ofSegments [s] = ⟨s⟩ by simp [ofSegments]] at hsegs

theorem isAbsolute_join (hp : p.isAbsolute = false) (hq : q.isAbsolute = false) :
    (p / q).isAbsolute = false := by
  show (join p q).isAbsolute = false
  rw [join, if_neg (by simp [hq])]
  by_cases ht : p.text = ""
  · rw [if_pos (.inl (by simp [ht])), ht, String.empty_append]
    exact hq
  · split
    · rw [isAbsolute_append ht]
      exact hp
    · rw [String.append_assoc, isAbsolute_append ht]
      exact hp

theorem isAbsolute_join_left (hp : p.isAbsolute = true) : (p / q).isAbsolute = true := by
  show (join p q).isAbsolute = true
  have hne : p.text ≠ "" := by
    intro heq
    rw [isAbsolute, chars_eq, heq] at hp
    cases hp
  rw [join]
  split
  · assumption
  · split
    · rw [isAbsolute_append hne]
      exact hp
    · rw [String.append_assoc, isAbsolute_append hne]
      exact hp

/-- A path in a directory that is itself seen from another. -/
theorem place_join_join (r d : Path) (hq : q.isAbsolute = false) :
    (r / (d / q)).place = q.placeFrom (r / d).place := by
  cases hd : d.isAbsolute with
  | false => rw [place_join (isAbsolute_join hd hq), placeFrom_join hq, place_join hd]
  | true =>
    have hjoin : ∀ x : Path, x.isAbsolute = true → r / x = x := fun x hx => if_pos hx
    rw [hjoin _ (isAbsolute_join_left hd), hjoin _ hd, place_join hq]

/-- The place of a path is that of its first segments, followed by its last one. -/
theorem place_of_segments {init : List String} (h : p.segments = init ++ [s]) (hs : IsName s) :
    p.place = init.foldl Place.follow [] ++ [s] := by
  rw [place, placeFrom, h, List.foldl_append]
  exact follow_of_isName hs

end Path

end GqlArtifacts
