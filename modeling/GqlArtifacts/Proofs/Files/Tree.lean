import GqlArtifacts.Proofs.Files.Place
import GqlArtifacts.Proofs.OrderedMap

/-!
# Files by their places

`Tree.file?` is the view of a tree that everything here speaks about: which places hold a file, and
with which content. A successful operation on a path is about exactly the place that the path names
(`place_of_target?`). Directories are never lost, which `Tree.Grows` says of two trees, and so a path
that leads somewhere (`Tree.Reaches`) leads there for ever.

The operations follow one after the other: what each does to the view when it succeeds.
-/

namespace GqlArtifacts

open Files

/-- What is in a file. -/
def Files.Node.content? : Node → Option ByteArray
  | .file c => some c
  | .directory => none

namespace Files.Tree

variable {t t' t'' : Tree} {p q : Path} {a b : Place} {c : ByteArray} {n : Node}

theorem node?_put (ha : a ≠ []) : (t.put a n).node? b = if b = a then some n else t.node? b := by
  by_cases hb : b = []
  · subst hb; simp [node?, Ne.symm ha]
  · simp [node?, hb, put, OrderedMap.get?_insert]

theorem node?_drop (ha : a ≠ []) : (t.drop a).node? b = if b = a then none else t.node? b := by
  by_cases hb : b = []
  · subst hb; simp [node?, Ne.symm ha]
  · simp [node?, hb, drop, OrderedMap.get?_erase]

/-- The content of the file at a place. -/
def file? (t : Tree) (a : Place) : Option ByteArray := (t.node? a).bind Node.content?

theorem file?_eq_some : t.file? a = some c ↔ t.node? a = some (.file c) := by
  rw [file?, Option.bind_eq_some_iff]
  constructor
  · rintro ⟨n, hn, hc⟩
    cases n <;> cases hc
    exact hn
  · intro h
    exact ⟨.file c, h, rfl⟩

theorem isDirectory_iff : t.isDirectory a = true ↔ t.node? a = some .directory := by
  unfold isDirectory
  split
  · next h => simp [h]
  · next h => simp only [Bool.false_eq_true, false_iff]; exact h

theorem ne_nil_of_file? (h : t.file? a = some c) : a ≠ [] := by
  rintro rfl
  cases h

theorem ne_nil_of_not_isDirectory (h : t.isDirectory a = false) : a ≠ [] := by
  rintro rfl
  simp [isDirectory, node?] at h

theorem file?_put_file (h : t.isDirectory a = false) :
    (t.put a (.file c)).file? b = if b = a then some c else t.file? b := by
  rw [file?, node?_put (ne_nil_of_not_isDirectory h)]
  split <;> rfl

theorem file?_drop (h : t.file? a = some c) :
    (t.drop a).file? b = if b = a then none else t.file? b := by
  rw [file?, node?_drop (ne_nil_of_file? h)]
  split <;> rfl

theorem not_isDirectory_drop (hb : t.file? b = some c) (h : t.isDirectory a = false) :
    (t.drop b).isDirectory a = false := by
  rw [Bool.eq_false_iff, Ne, isDirectory_iff, node?_drop (ne_nil_of_file? hb)]
  split
  · simp
  · rw [← isDirectory_iff, h]
    simp

/-! ### Directories stay -/

/-- Every directory of the one tree is one of the other. -/
def Grows (t t' : Tree) : Prop := ∀ a, t.isDirectory a = true → t'.isDirectory a = true

namespace Grows

theorem rfl : t.Grows t := fun _ h => h

theorem trans (h : t.Grows t') (h' : t'.Grows t'') : t.Grows t'' := fun a ha => h' a (h a ha)

end Grows

theorem grows_put_file (h : t.isDirectory a = false) : t.Grows (t.put a (.file c)) := by
  intro b hb
  rw [isDirectory_iff] at hb ⊢
  rw [node?_put (ne_nil_of_not_isDirectory h), if_neg, hb]
  rintro rfl
  rw [isDirectory_iff.2 hb] at h
  cases h

theorem grows_put_directory (h : t.node? a = none) : t.Grows (t.put a .directory) := by
  have ha : a ≠ [] := by rintro rfl; simp [node?] at h
  intro b hb
  rw [isDirectory_iff] at hb ⊢
  rw [node?_put ha]
  split
  · rfl
  · exact hb

theorem drop_grows (h : t.file? a = some c) : (t.drop a).Grows t := by
  intro b hb
  rw [isDirectory_iff, node?_drop (ne_nil_of_file? h)] at hb
  split at hb
  · cases hb
  · exact isDirectory_iff.2 hb

theorem grows_drop (h : t.file? a = some c) : t.Grows (t.drop a) := by
  intro b hb
  rw [isDirectory_iff] at hb ⊢
  rw [node?_drop (ne_nil_of_file? h), if_neg, hb]
  rintro rfl
  rw [file?_eq_some.1 h] at hb
  cases hb

/-! ### Where paths lead -/

theorem place_of_walk {slash : Bool} {segs : List String} {target : Target}
    (h : t.walk slash a segs = .ok target) : target.place = segs.foldl Place.follow a := by
  induction segs generalizing a with
  | nil => cases h; rfl
  | cons seg rest ih =>
    rw [List.foldl_cons]
    unfold walk at h
    split at h
    · next hs => rw [ih h, Place.follow, if_pos hs]
    · next hs =>
      split at h
      · next hp => rw [ih h, Place.follow, if_neg hs, if_pos hp]
      · next hp =>
        rw [Place.follow, if_neg hs, if_neg hp]
        split at h
        · next hr => cases h; rw [List.isEmpty_iff.1 hr]; rfl
        · cases he : t.enter a seg with
          | error e => rw [he] at h; cases h
          | ok d =>
            rw [he] at h
            have hd : d = a ++ [seg] := by
              unfold enter at he
              split at he
              · cases he
              · split at he <;> cases he
                rfl
            rw [ih h, hd]

theorem foldl_splitSlashes (segs : List String) :
    (splitSlashes segs).1.foldl Place.follow a = segs.foldl Place.follow a := by
  have hsplit : segs = (segs.reverse.dropWhile (· == "")).reverse ++
      (segs.reverse.takeWhile (· == "")).reverse := by
    rw [← List.reverse_append, List.takeWhile_append_dropWhile, List.reverse_reverse]
  have hblank : ∀ (l : List String) (d : Place), (∀ s ∈ l, s = "") → l.foldl Place.follow d = d := by
    intro l d hl
    induction l with
    | nil => rfl
    | cons s l ih =>
      obtain rfl := hl s (by simp)
      exact ih fun x hx => hl x (by simp [hx])
  conv => rhs; rw [hsplit, List.foldl_append]
  have htrailing : ∀ s ∈ (segs.reverse.takeWhile (· == "")).reverse, s = "" := fun s hs => by
    simpa using List.all_eq_true.1 List.all_takeWhile s (List.mem_reverse.1 hs)
  rw [hblank _ _ htrailing]
  rfl

/-- An operation on a path is about the place that the path names. -/
theorem place_of_target? {target : Target} (h : t.target? p = .ok target) :
    target.place = p.place := by
  unfold target? at h
  split at h
  · cases h
  · split at h
    · cases h
    · split at h
      · cases h
      · rw [place_of_walk h]
        exact foldl_splitSlashes _

theorem walk_grows (hg : t.Grows t') {slash : Bool} {segs : List String} {target : Target}
    (h : t.walk slash a segs = .ok target) : t'.walk slash a segs = .ok target := by
  induction segs generalizing a with
  | nil => exact h
  | cons seg rest ih =>
    unfold walk at h ⊢
    split at h
    · next hs => rw [if_pos hs]; exact ih h
    · next hs =>
      rw [if_neg hs]
      split at h
      · next hp => rw [if_pos hp]; exact ih h
      · next hp =>
        rw [if_neg hp]
        split at h
        · next hr => rw [if_pos hr]; exact h
        · next hr =>
          rw [if_neg hr]
          cases he : t.enter a seg with
          | error e => rw [he] at h; cases h
          | ok d =>
            have he' : t'.enter a seg = .ok d := by
              unfold enter at he ⊢
              split at he
              · cases he
              · next hl =>
                rw [if_neg hl]
                split at he
                · cases he
                · cases he
                · next hd => rw [isDirectory_iff.1 (hg _ (isDirectory_iff.2 hd))]; exact he
            rw [he] at h
            rw [he']
            exact ih h

theorem target?_grows (hg : t.Grows t') {target : Target} (h : t.target? p = .ok target) :
    t'.target? p = .ok target := by
  unfold target? at h ⊢
  split at h
  · cases h
  · next h1 =>
    rw [if_neg h1]
    split at h
    · cases h
    · next h2 =>
      rw [if_neg h2]
      split at h
      · cases h
      · next h3 => rw [if_neg h3]; exact walk_grows hg h

theorem checked_eq {target target' : Target} (h : target.checked = .ok target') :
    target' = target := by
  cases target with
  | entry dir name slash =>
    by_cases hl : nameLimit < name.utf8ByteSize
    · rw [Target.checked, if_pos hl] at h; cases h
    · rw [Target.checked, if_neg hl] at h; cases h; rfl
  | directory place => cases h; rfl

theorem resolve?_eq_ok {target : Target} :
    t.resolve? p = .ok target ↔ t.target? p = .ok target ∧ target.checked = .ok target := by
  unfold resolve?
  cases h : t.target? p with
  | error e => simp [Except.bind]
  | ok x =>
    simp only [Except.bind, Except.ok.injEq]
    constructor
    · intro hx
      obtain rfl := checked_eq hx
      exact ⟨rfl, hx⟩
    · rintro ⟨rfl, hx⟩
      exact hx

/-- The path stands for something that can be a file. -/
def Reaches (t : Tree) (p : Path) : Prop := ∃ dir name, t.resolve? p = .ok (.entry dir name false)

theorem Reaches.grows (hg : t.Grows t') (h : t.Reaches p) : t'.Reaches p := by
  obtain ⟨dir, name, h⟩ := h
  obtain ⟨ht, hc⟩ := resolve?_eq_ok.1 h
  exact ⟨dir, name, resolve?_eq_ok.2 ⟨target?_grows hg ht, hc⟩⟩

theorem exists_append_of_walk {slash slash' : Bool} {segs : List String} {dir : Place}
    {name : String} (h : t.walk slash a segs = .ok (.entry dir name slash')) :
    slash' = slash ∧ name ≠ "" ∧ name ≠ "." ∧ name ≠ ".." ∧ ∃ init, segs = init ++ [name] := by
  induction segs generalizing a with
  | nil => cases h
  | cons seg rest ih =>
    have hrest : ∀ b, t.walk slash b rest = .ok (.entry dir name slash') →
        slash' = slash ∧ name ≠ "" ∧ name ≠ "." ∧ name ≠ ".." ∧
          ∃ init, seg :: rest = init ++ [name] := by
      intro b hb
      obtain ⟨hs, h1, h2, h3, init, rfl⟩ := ih hb
      exact ⟨hs, h1, h2, h3, seg :: init, rfl⟩
    unfold walk at h
    split at h
    · exact hrest _ h
    · next hs =>
      split at h
      · exact hrest _ h
      · next hp =>
        split at h
        · next hr =>
          cases h
          exact ⟨rfl, (not_or.1 hs).1, (not_or.1 hs).2, hp, [], by rw [List.isEmpty_iff.1 hr]; rfl⟩
        · cases he : t.enter a seg with
          | error e => rw [he] at h; cases h
          | ok d => rw [he] at h; exact hrest _ h

/-- A path that leads somewhere ends in a name. -/
theorem Reaches.exists_segments (h : t.Reaches p) :
    ∃ init n, p.segments = init ++ [n] ∧ Path.IsName n := by
  obtain ⟨dir, name, hr⟩ := h
  have ht := (resolve?_eq_ok.1 hr).1
  unfold target? at ht
  split at ht
  · cases ht
  · split at ht
    · cases ht
    · split at ht
      · cases ht
      · obtain ⟨hslash, h1, h2, h3, init, hkept⟩ := exists_append_of_walk ht
        have hpre : (splitSlashes p.segments).1 <+: p.segments := by
          have := List.reverse_prefix.2 (List.dropWhile_suffix (· == "") (l := p.segments.reverse))
          rwa [List.reverse_reverse] at this
        have hlen : p.segments.length ≤ (splitSlashes p.segments).1.length := by
          simpa [splitSlashes] using hslash
        have hsegs : p.segments = init ++ [name] := (hpre.eq_of_length_le hlen).symm.trans hkept
        exact ⟨init, name, hsegs, Path.not_mem_of_mem_segments (p := p) (by simp [hsegs]), h1, h2, h3⟩

theorem place_of_resolve? {target : Target} (h : t.resolve? p = .ok target) :
    target.place = p.place := place_of_target? (resolve?_eq_ok.1 h).1

theorem reaches_of_target? {target target' : Target} (h : t.target? p = .ok target)
    (hs : target.slash = false) (hc : target.checked = .ok target') : t.Reaches p := by
  cases target with
  | directory place => cases hs
  | entry dir name slash =>
    cases hs
    obtain rfl := checked_eq hc
    exact ⟨dir, name, resolve?_eq_ok.2 ⟨h, hc⟩⟩

/-- What is looked up is what lies at the place. -/
theorem lookup?_eq_file : t.lookup? p = .ok (.file c) ↔ t.Reaches p ∧ t.file? p.place = some c := by
  constructor
  · intro h
    unfold lookup? at h
    cases hr : t.resolve? p with
    | error e => rw [hr] at h; cases h
    | ok target =>
      rw [hr] at h
      cases hn : t.node? target.place with
      | none => simp [hn] at h
      | some n =>
        cases n with
        | directory => simp [hn] at h
        | file c' =>
          simp only [hn] at h
          split at h
          · cases h
          · next hs =>
            cases h
            obtain ⟨ht, hc⟩ := resolve?_eq_ok.1 hr
            exact ⟨reaches_of_target? ht (by simpa using hs) hc,
              file?_eq_some.2 (place_of_resolve? hr ▸ hn)⟩
  · rintro ⟨⟨dir, name, hr⟩, hf⟩
    have hn : t.node? (Target.entry dir name false).place = some (.file c) := by
      rw [place_of_resolve? hr]; exact file?_eq_some.1 hf
    simp [lookup?, hr, hn, Target.slash]

theorem isFile_iff : t.isFile p = true ↔ t.Reaches p ∧ (t.file? p.place).isSome := by
  rw [Option.isSome_iff_exists, ← exists_and_left]
  simp only [← lookup?_eq_file, isFile, kind]
  constructor
  · intro h
    cases hl : t.lookup? p with
    | error e => simp [hl, Except.map] at h
    | ok n =>
      cases n with
      | directory => simp [hl, Except.map, Node.kind] at h
      | file c => exact ⟨c, rfl⟩
  · rintro ⟨c, h⟩
    simp [h, Except.map, Node.kind]

theorem read_eq_ok : t.read p = .ok c ↔ t.Reaches p ∧ t.file? p.place = some c := by
  rw [← lookup?_eq_file, read]
  cases h : t.lookup? p with
  | error e => simp
  | ok n => cases n <;> simp

/-- Two trees with the same files and the same directories. -/
structure Alike (t t' : Tree) : Prop where
  grows : t.Grows t'
  shrinks : t'.Grows t
  file? : ∀ a, t'.file? a = t.file? a

namespace Alike
variable (h : t.Alike t')
include h

theorem reaches_iff : t'.Reaches p ↔ t.Reaches p := ⟨(·.grows h.shrinks), (·.grows h.grows)⟩

theorem isFile_eq : t'.isFile p = t.isFile p := by
  rw [Bool.eq_iff_iff, isFile_iff, isFile_iff, h.reaches_iff, h.file?]

theorem read_eq_ok_iff : t'.read p = .ok c ↔ t.read p = .ok c := by
  rw [read_eq_ok, read_eq_ok, h.reaches_iff, h.file?]

end Alike

theorem isFile_iff_read : t.isFile p = true ↔ ∃ c, t.read p = .ok c := by
  simp only [isFile_iff, Option.isSome_iff_exists, read_eq_ok, exists_and_left]

/-! ### Successful operations -/

theorem write_eq_ok (h : t.write p c = .ok t') :
    t.Reaches p ∧ t.isDirectory p.place = false ∧ t' = t.put p.place (.file c) := by
  unfold write at h
  cases ht : t.target? p with
  | error e => rw [ht] at h; cases h
  | ok target =>
    simp only [ht] at h
    split at h
    · cases h
    · next hs =>
      cases hc : target.checked with
      | error e => rw [hc] at h; cases h
      | ok target' =>
        simp only [hc] at h
        split at h
        · cases h
        · next hd =>
          cases h
          obtain rfl := checked_eq hc
          rw [place_of_target? ht] at hd ⊢
          exact ⟨reaches_of_target? ht (by simpa using hs) hc, by simpa using hd, rfl⟩

theorem rename_eq_ok (h : t.rename p q = .ok t') :
    ∃ c, t.file? p.place = some c ∧ t.Reaches q ∧ t.isDirectory q.place = false ∧
      t' = (t.drop p.place).put q.place (.file c) := by
  unfold rename at h
  cases ha : t.target? p with
  | error e => rw [ha] at h; cases h
  | ok a =>
  cases hb : t.target? q with
  | error e => rw [ha, hb] at h; cases h
  | ok b =>
  cases ha' : a.named with
  | error e => simp [ha, hb, ha', bind, Except.bind] at h
  | ok u =>
  cases hb' : b.named with
  | error e => simp [ha, hb, ha', hb', bind, Except.bind] at h
  | ok u' =>
  cases hac : a.checked with
  | error e => simp [ha, hb, ha', hb', hac, bind, Except.bind] at h
  | ok a' =>
  obtain rfl := checked_eq hac
  cases hn : t.node? a'.place with
  | none => simp [ha, hb, ha', hb', hac, hn, bind, Except.bind] at h
  | some n =>
  cases n with
  | directory => simp [ha, hb, ha', hb', hac, hn, bind, Except.bind] at h
  | file c =>
  cases hbc : b.checked with
  | error e => simp [ha, hb, ha', hb', hac, hn, hbc, bind, Except.bind] at h
  | ok b' =>
  obtain rfl := checked_eq hbc
  simp only [ha, hb, ha', hb', hac, hn, hbc, bind, Except.bind] at h
  split at h
  · cases h
  · next hs =>
    split at h
    · cases h
    · next hd =>
      cases h
      rw [not_or] at hs
      rw [place_of_target? ha] at hn ⊢
      rw [place_of_target? hb] at hd ⊢
      exact ⟨c, file?_eq_some.2 hn, reaches_of_target? hb (by simpa using hs.2) hbc,
        by simpa using hd, rfl⟩

theorem remove_eq_ok (h : t.remove p = .ok t') :
    t.isFile p = true ∧ t' = t.drop p.place := by
  unfold remove at h
  cases hr : t.resolve? p with
  | error e => rw [hr] at h; cases h
  | ok target =>
    cases hn : t.node? target.place with
    | none => simp [hr, hn] at h
    | some n =>
      cases n with
      | directory => simp [hr, hn] at h
      | file c =>
        simp only [hr, hn] at h
        split at h
        · cases h
        · next hs =>
          cases h
          obtain ⟨ht, hc⟩ := resolve?_eq_ok.1 hr
          rw [place_of_resolve? hr] at hn ⊢
          exact ⟨isFile_iff.2 ⟨reaches_of_target? ht (by simpa using hs) hc,
            by rw [file?_eq_some.2 hn]; rfl⟩, rfl⟩

theorem remove_eq_notFound (h : t.remove p = .error .notFound) : t.isFile p = false := by
  rw [Bool.eq_false_iff]
  intro hf
  obtain ⟨⟨dir, name, hr⟩, hs⟩ := isFile_iff.1 hf
  obtain ⟨c, hc⟩ := Option.isSome_iff_exists.1 hs
  have hn : t.node? (Target.entry dir name false).place = some (.file c) := by
    rw [place_of_resolve? hr]; exact file?_eq_some.1 hc
  simp [remove, hr, hn, Target.slash] at h

theorem makeDirectory_eq_ok (h : t.makeDirectory p = .ok t') :
    t.node? p.place = none ∧ t' = t.put p.place .directory := by
  unfold makeDirectory at h
  cases hr : t.resolve? p with
  | error e => rw [hr] at h; cases h
  | ok target =>
    simp only [hr] at h
    split at h
    · cases h
    · next hn =>
      cases h
      rw [place_of_resolve? hr] at hn ⊢
      exact ⟨by simpa using hn, rfl⟩

end Files.Tree

end GqlArtifacts
