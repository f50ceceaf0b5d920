import GqlArtifacts.Proofs.Files.Atomic
import GqlArtifacts.Proofs.Files.Descent
import Mathlib.Data.List.Basic

/-!
# Paths that are the same in two trees

A path is followed from place to place (`Path.way`), and nothing but the nodes at these places decides
what it stands for. So a path is the `Same` in two trees when these nodes are, whatever else there is
beside them, and then every operation that looks at the path alone answers the same.
-/

namespace GqlArtifacts

open Files

/-- The places that a path is followed through, from the root to its own. -/
def Path.way (p : Path) : List Place :=
  (Tree.splitSlashes p.segments).1.scanl Place.follow []

namespace Files.Tree

variable {t t' : Tree} {p q : Path} {a b : Place} {slash : Bool} {segs more : List String}
  {name s : String}

/-! ### Ways -/

theorem mem_scanl_self (a : Place) (segs : List String) : a ∈ segs.scanl Place.follow a := by
  cases segs with
  | nil => simp
  | cons seg segs => simp

theorem foldl_mem_scanl (a : Place) (segs : List String) :
    segs.foldl Place.follow a ∈ segs.scanl Place.follow a := by
  induction segs generalizing a with
  | nil => simp
  | cons seg segs ih =>
    rw [List.scanl_cons, List.foldl_cons]
    exact List.mem_cons_of_mem _ (ih _)

theorem mem_scanl_append (more : List String) (h : b ∈ segs.scanl Place.follow a) :
    b ∈ (segs ++ more).scanl Place.follow a := by
  rw [List.scanl_append]
  exact List.mem_append_left _ h

theorem place_mem_way (p : Path) : p.place ∈ p.way := by
  have hmem := foldl_mem_scanl [] (splitSlashes p.segments).1
  rwa [foldl_splitSlashes] at hmem

/-- A joined path is followed through all places of its first part. -/
theorem way_subset_join (hp : p.text ≠ "") (hs : '/' ∉ s.toList) : p.way ⊆ (p / ⟨s⟩).way := by
  obtain ⟨segs, rest, hsegs, -, hkept⟩ := exists_segments_join p hs
  intro a ha
  unfold Path.way at ha ⊢
  rw [← hkept hp] at ha
  rw [hsegs]
  by_cases hempty : s = ""
  · rwa [hempty, splitSlashes_concat_empty]
  · obtain ⟨blanks, hblanks⟩ := exists_append_splitSlashes segs
    have hall : segs ++ [s] = (splitSlashes segs).1 ++ (blanks ++ [s]) := by
      rw [← List.append_assoc, ← hblanks]
    rw [splitSlashes_concat hempty, hall]
    exact mem_scanl_append _ ha

/-! ### The same path in two trees -/

/-- The path leads through the same nodes in both trees, and to the same node. -/
def Same (t t' : Tree) (p : Path) : Prop := ∀ a ∈ p.way, t'.node? a = t.node? a

/-- The instance for contents is named here, since libraries have another one. -/
instance : DecidableEq Node := fun
  | .file c, .file d =>
    @decidable_of_decidable_of_iff (c = d) _ (ByteArray.instDecidableEq c d) (by simp)
  | .file _, .directory => isFalse nofun
  | .directory, .file _ => isFalse nofun
  | .directory, .directory => isTrue rfl

instance (t t' : Tree) (p : Path) : Decidable (t.Same t' p) :=
  inferInstanceAs (Decidable (∀ a ∈ p.way, t'.node? a = t.node? a))

namespace Same

theorem symm (h : t.Same t' p) : t'.Same t p := fun a ha => (h a ha).symm

theorem of_join (h : t.Same t' (p / ⟨s⟩)) (hp : p.text ≠ "") (hs : '/' ∉ s.toList) :
    t.Same t' p := fun a ha => h a (way_subset_join hp hs ha)

end Same

theorem walk_congr (h : ∀ b ∈ segs.scanl Place.follow a, t'.node? b = t.node? b) :
    t'.walk slash a segs = t.walk slash a segs := by
  induction segs generalizing a with
  | nil => rfl
  | cons seg rest ih =>
    rw [List.scanl_cons] at h
    have hrest := ih fun b hb => h b (List.mem_cons_of_mem _ hb)
    have hhere := h _ (List.mem_cons_of_mem _ (mem_scanl_self (Place.follow a seg) rest))
    unfold walk
    by_cases htrivial : seg = "" ∨ seg = "."
    · rw [Place.follow, if_pos htrivial] at hrest
      rw [if_pos htrivial, if_pos htrivial, hrest]
    · rw [if_neg htrivial, if_neg htrivial]
      by_cases hparent : seg = ".."
      · rw [Place.follow, if_neg htrivial, if_pos hparent] at hrest
        rw [if_pos hparent, if_pos hparent, hrest]
      · rw [Place.follow, if_neg htrivial, if_neg hparent] at hrest hhere
        have henter : t'.enter a seg = t.enter a seg := by rw [enter, enter, hhere]
        rw [if_neg hparent, if_neg hparent, henter]
        cases hdir : t.enter a seg with
        | error e => rfl
        | ok b =>
          obtain ⟨-, -, rfl⟩ := enter_eq_ok.1 hdir
          dsimp only
          rw [hrest]

namespace Same
variable (h : t.Same t' p)
include h

theorem resolve? : t'.resolve? p = t.resolve? p := by
  rw [Tree.resolve?, Tree.resolve?, target?, target?]
  dsimp only
  rw [walk_congr h]

theorem lookup? : t'.lookup? p = t.lookup? p := by
  rw [Tree.lookup?, Tree.lookup?, h.resolve?]
  cases hr : t.resolve? p with
  | error e => rfl
  | ok target =>
    dsimp only
    rw [place_of_resolve? hr, h _ (place_mem_way p)]

theorem kind : t'.kind p = t.kind p := by rw [Tree.kind, Tree.kind, h.lookup?]

theorem isFile : t'.isFile p = t.isFile p := by rw [Tree.isFile, Tree.isFile, h.kind]

theorem isFolder : t'.isFolder p = t.isFolder p := by rw [Tree.isFolder, Tree.isFolder, h.kind]

theorem holds : t'.holds p = t.holds p := by rw [Tree.holds, Tree.holds, h.kind]

theorem readText : t'.readText p = t.readText p := by
  rw [Tree.readText, Tree.readText, read, read, h.lookup?]

end Same

end Files.Tree

end GqlArtifacts
